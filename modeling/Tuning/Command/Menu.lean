import Tuning.Command.Basic
import Tuning.Command.Reports
import Tuning.Command.Search
import Tuning.Text.Distance
import Tuning.Text.Lower

/-! # The menu of commands

Commands are found by the words among the arguments; below a command there may be others. -/

namespace Tuning

namespace Command

/-- The command that holds all others. -/
def root : Command :=
  { path := [], summary := "Evolutionary search over discrete tuning spaces"
    description := "opevo searches spaces of categorical, ordered, permutation and factorisation\n"
      ++ "parameters for the configuration an objective scores best, using a ranked\n"
      ++ "population with fitness-proportional crossover." }

/-- The command that compares searches. -/
def bench : Command :=
  { path := ["bench"], summary := "Compare the evolutionary search with continuous baselines"
    description := "Runs the evolutionary search, the mayfly optimizer and uniform random\n"
      ++ "search on the same space with the same number of evaluations and prints the\n"
      ++ "best fitness each one reached. Nothing is written to --data-dir."
    flags := Settings.comparisonFlags, required := ["space"]
    action := .perform fun s _ => s.compareSearches }

/-- The command that runs a session. -/
def search : Command :=
  { path := ["run"], summary := "Run a search session"
    description := "Runs an evolutionary search over the parameters of a search-space file,\n"
      ++ "scoring candidates with a built-in objective. The report and a trace of every\n"
      ++ "evaluation are written below --data-dir."
    flags := Settings.sessionFlags, required := ["space"]
    action := .perform fun s _ => s.search }

/-- The command that answers requests. -/
def serve : Command :=
  { path := ["serve"], summary := "Run search sessions over HTTP"
    description := "Starts an HTTP server that accepts search sessions as JSON, runs them in the\n"
      ++ "background and reports progress by polling or server-sent events.\n\n"
      ++ "  POST   /api/v1/sessions             submit \x7b\"space\": ..., \"config\": ...\x7d\n"
      ++ "  GET    /api/v1/sessions             list sessions\n"
      ++ "  GET    /api/v1/sessions/ID          status\n"
      ++ "  GET    /api/v1/sessions/ID/stream   progress events\n"
      ++ "  GET    /api/v1/sessions/ID/report   stored report\n"
      ++ "  GET    /api/v1/sessions/ID/trace    stored evaluations\n"
      ++ "  DELETE /api/v1/sessions/ID          cancel\n"
      ++ "  GET    /api/v1/objectives           registered objectives"
    flags := Settings.serviceFlags
    action := .perform fun s _ => s.serve }

/-- The command that describes a space. -/
def describe : Command :=
  { path := ["space"], summary := "Describe a search space"
    description := "Validates a search-space file and prints every parameter with its domain size, "
      ++ "the number of seed combinations and the total volume."
    flags := [Settings.spaceFlag], required := ["space"]
    action := .perform fun s _ => s.describe }

/-- The commands on reports. -/
def reports : List Command :=
  [{ path := ["reports"], summary := "Manage session reports"
     description := "List, inspect and clean the reports and traces that search sessions leave below "
      ++ "--data-dir." },
    { path := ["reports", "list"], summary := "List all session reports"
      action := .perform fun s _ => s.listReports },
    { path := ["reports", "show"], summary := "Print a session report", operands := "SESSION_ID"
      count := some 1, action := .perform fun s words => s.showReport (words.headD "") },
    { path := ["reports", "clean"], summary := "Delete old session reports"
      description := "Delete sessions based on a retention policy: keep only the N most recent,\n"
        ++ "delete everything older than N days, or both."
      flags := Settings.retentionFlags, action := .perform fun s _ => s.cleanReports }]

/-- The entry for the completion script of a shell. -/
def completion (shell : String) : Command :=
  { path := ["completion", shell], summary := "Generate the autocompletion script for " ++ shell }

/-- All commands. -/
def all : List Command :=
  bench :: reports ++
  [search, serve, describe,
    { path := ["version"], summary := "Print version information"
      action := .perform fun _ _ => Console.line "opevo version 0.1.0" },
    { path := ["help"], summary := "Help about any command", operands := "[command]"
      description := "Help provides help for any command in the application.\n"
        ++ "Simply type opevo help [path to command] for full details."
      action := .explain },
    { path := ["completion"], summary := "Generate the autocompletion script for the specified shell"
      description := "Generate the autocompletion script for opevo for the specified shell.\n"
        ++ "See each sub-command's help for details on how to use the generated script." }]
  ++ ["bash", "fish", "powershell", "zsh"].map completion

/-- The command below another one that has the given name. -/
def child? (c : Command) (name : String) : Option Command :=
  all.find? (·.path = c.path ++ [name])

/-- The commands directly below a command. -/
def children (c : Command) : List Command :=
  all.filter fun d => d.path.dropLast = c.path

/-- Whether an argument is a flag whose value is the argument behind it. -/
def takesNext (c : Command) (argument : String) : Bool :=
  let cs := argument.toList
  let on := fun (f : Flag Settings → Bool) => c.knownFlags.any fun flag => flag.isSwitch && f flag
  if cs.contains '=' then false
  else match cs with
    | '-' :: '-' :: name => !on fun flag => flag.name.toList == name
    | ['-', letter] => letter.toNat < 128 && !on fun flag => flag.letter == some letter
    | _ => false

/-- The arguments that are neither flags nor values of flags. A flag that lacks a value, or has the last
argument as its value, ends them. -/
def words (c : Command) : List String → List String
  | [] => []
  | argument :: rest =>
    if argument = "--" then []
    else if c.takesNext argument then
      match rest with
      | _ :: next :: rest => words c (next :: rest)
      | _ => []
    else if argument ≠ "" ∧ !argument.startsWith "-" then argument :: words c rest
    else words c rest

/-- The arguments without the first word of the given spelling. -/
def without (c : Command) (word : String) : List String → List String
  | [] => []
  | argument :: rest =>
    if argument = "--" then argument :: rest
    else if c.takesNext argument then
      match rest with
      | value :: rest => argument :: value :: without c word rest
      | [] => [argument]
    else if argument = word ∧ !argument.startsWith "-" then rest
    else argument :: without c word rest

/-- Follows the words to a command; every step takes one of them away. -/
def locate : (fuel : Nat) → Command → List String → Command × List String
  | 0, c, arguments => (c, arguments)
  | fuel + 1, c, arguments =>
    match c.words arguments with
    | [] => (c, arguments)
    | word :: _ =>
      match c.child? word with
      | none => (c, arguments)
      | some d => locate fuel d (c.without word arguments)

/-- The names of commands that someone may have meant by a name: those that are few bytes away, and
those it begins. -/
def meant (name : String) : List String :=
  let lower := (String.ofList (name.toList.map Text.lower)).toUTF8.toList
  let names := (root.children.filterMap (·.path.head?)).filter (· ≠ "help")
  names.filter fun other =>
    Text.distance lower other.toUTF8.toList ≤ 2 || lower.isPrefixOf other.toUTF8.toList

/-- The help of a command. -/
def helpText (c : Command) : String :=
  c.help c.children

/-- A text between backquotes; a text that cannot stand there is quoted. -/
def backquoted (text : String) : String :=
  let plain := fun (c : Char) => (' ' ≤ c || c == '\t') && c != '\x60' && c != '\x7f' && c != '\ufeff'
  if text.toList.all plain then "\x60" ++ text ++ "\x60" else Text.quoted text

/-- The help of the command that words lead to. -/
def helpOn (words : List String) : String :=
  let (c, rest) := locate (words.length + 1) root words
  if c.path.isEmpty ∧ !(c.words rest).isEmpty then
    "Unknown help topic [" ++ " ".intercalate (words.map backquoted) ++ "]\n" ++ root.usage root.children
  else c.helpText

/-- Does what a command is asked for by its arguments. -/
def execute (c : Command) (arguments : List String) : Console Unit := do
  let parsed ← Console.require .flag (Parsed.arguments c.allFlags arguments { settings := {} })
  if parsed.settings.help then Console.write c.helpText
  else
    let words := parsed.words.reverse
    match c.action with
    | .hold => Console.write c.helpText
    | .explain => Console.write (helpOn words)
    | .perform action =>
      if let some count := c.count then
        if words.length ≠ count then throw (.argumentCount count words.length)
      let missing := c.required.filter (!parsed.seen.contains ·)
      if !missing.isEmpty then throw (.missingFlags missing)
      action parsed.settings words

/-- Does what a command line asks for. -/
def obey (arguments : List String) : Console Unit := do
  let (c, rest) := locate (arguments.length + 1) root arguments
  match c.path, c.words rest with
  | [], word :: _ => throw (.unknownCommand word (meant word))
  | _, _ => c.execute rest

/-- The settings that a command line asks for, as far as it is understood. -/
def settingsOf (arguments : List String) : Settings :=
  let (c, rest) := locate (arguments.length + 1) root arguments
  match Parsed.arguments c.allFlags rest { settings := {} } with
  | .ok parsed => parsed.settings
  | .error _ => {}

/-- The outcome of a command line: what was written, why it failed, and what the outside has become. -/
def run (arguments : List String) (w : World) : String × Option CommandError × World :=
  let (result, w) := (obey arguments).run w
  let text := String.join w.written.reverse
  match result with
  | .ok () => (text, none, w)
  | .error error => (text, some error, w)

end Command

end Tuning
