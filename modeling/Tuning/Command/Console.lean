import Tuning.Command.Flag
import Tuning.ErrorKind

/-! # Commands at a console

A command reads and changes files, writes lines, and may fail after it has written some. All that it
sees of the outside is one record. -/

namespace Tuning

/-- Why a command fails. -/
inductive CommandError where
  | flag (error : FlagError)
  /-- No command of this name, but perhaps one of the others was meant. -/
  | unknownCommand (name : String) (others : List String)
  | argumentCount (wanted given : Nat)
  | missingFlags (names : List String)
  | unreadableSpace
  | badSpace (path : String) (error : SpaceError)
  | objective (error : UnknownObjective)
  /-- The objectives there are come along. -/
  | objectiveAmong (error : UnknownObjective) (names : List String)
  | mode (error : UnknownMode)
  | createStore (error : StoreError)
  | listReports (error : StoreError)
  | report (error : StoreError)
  | trace (error : TraceError)
  | session (error : SessionError)
  | population (error : PopulationError)
  | individual (error : ParameterError)
  | encodeBest (error : EncodeError)
  | encodeReport (error : EncodeError)
  | smallBudget (budget offspring : Int64)
  /-- A generation without candidates. -/
  | emptyGeneration
  | baseline (optimizer : String) (error : BaselineError)
  | noRetention
  /-- There is nothing to listen with. -/
  | listen
  /-- Something was asked, and nobody has answered yet. -/
  | unanswered

/-- The words for a command that fails. -/
def CommandError.message : CommandError → String
  | flag error => error.message
  | unknownCommand name others =>
    "unknown command " ++ Text.quoted name ++ " for \"opevo\""
      ++ (if others.isEmpty then ""
        else "\n\nDid you mean this?\n" ++ String.join (others.map fun other => "\t" ++ other ++ "\n"))
  | argumentCount wanted given => "accepts " ++ toString wanted ++ " arg(s), received " ++ toString given
  | missingFlags names => "required flag(s) \"" ++ "\", \"".intercalate names ++ "\" not set"
  | unreadableSpace => "failed to read search space: ..."
  | badSpace path error => "failed to parse " ++ path ++ ": " ++ error.message
  | objective error => error.message
  | objectiveAmong error names => error.message ++ " (available: [" ++ " ".intercalate names ++ "])"
  | mode error => error.message
  | createStore error => "failed to create report store: " ++ error.message
  | listReports error => "failed to list reports: " ++ error.message
  | report error => error.message
  | trace error => error.message
  | session error => error.message
  | population error => error.message
  | individual error => error.message
  | encodeBest error => "failed to encode best candidate: " ++ error.message
  | encodeReport error => "failed to encode report: " ++ error.message
  | smallBudget budget offspring =>
    "budget " ++ toString budget.toInt ++ " is smaller than one generation of " ++ toString offspring.toInt
  | emptyGeneration => "a generation needs candidates"
  | baseline optimizer error => "failed to run " ++ optimizer ++ " baseline: " ++ error.message
  | noRetention => "must specify either --keep-last or --older-than"
  | listen => "server failed: ..."
  | unanswered => "no answer"

instance : Explained CommandError where
  kind
    | .unreadableSpace | .listen => .system
    | .badSpace _ e => errorKind e
    | .createStore e | .listReports e | .report e => errorKind e
    | .trace e => errorKind e
    | .session e => errorKind e
    | .population e => errorKind e
    | .individual e => errorKind e
    | .encodeBest e | .encodeReport e => errorKind e
    | .baseline _ e => errorKind e
    | .emptyGeneration => .breakdown
    | _ => .other
  message e := e.message

/-- What a command sees of the outside. -/
structure World where
  files : FileTree := {}
  /-- What was typed, if something was. -/
  input : Option String := none
  now : Instant
  /-- The instant so many days back on the calendar of the place, at the same time of day. Where the
  offset changes with the seasons, not every day has 86400 seconds. -/
  daysAgo : Int → Instant := now.daysEarlier
  /-- The id for a new session. -/
  freshId : String
  /-- The swarms at hand; without any, every flight is refused. -/
  swarm : Swarm := fun _ => none
  /-- What was written, the latest first. -/
  written : List String := []

/-- A command at work. What it has written stays when it fails. -/
abbrev Console := ExceptT CommandError (StateM World)

namespace Console

/-- Writes a text. -/
def write (text : String) : Console Unit :=
  modify fun w => { w with written := text :: w.written }

/-- Writes a line. -/
def line (text : String) : Console Unit :=
  write (text ++ "\n")

/-- The first line that was typed. -/
def answer : Console (List Char) := do
  match (← get).input with
  | none => throw .unanswered
  | some text => return text.toList.takeWhile (· ≠ '\n')

/-- Goes on with a value, or fails for the given reason. -/
def require {ε α : Type} (wrap : ε → CommandError) : Except ε α → Console α
  | .ok a => pure a
  | .error error => throw (wrap error)

/-- Works on the files. -/
def onFiles {ε α : Type} (wrap : ε → CommandError) (action : ExceptT ε (StateM FileTree) α) : Console α := do
  let (result, files) := action.run (← get).files
  modify fun w => { w with files }
  require wrap result

/-- Looks at the files without changing them. -/
def peek {ε α : Type} (action : ExceptT ε (StateM FileTree) α) : Console (Except ε α) :=
  return (action.run (← get).files).1

/-- The space in a file. -/
def loadSpace (path : String) : Console Space := do
  let text ← onFiles (fun _ => .unreadableSpace) (FileAction.read (.ofText path))
  require (.badSpace path) (Space.parse text)

/-- The store in a directory. -/
def openStore (base : String) : Console Store :=
  onFiles .createStore (Store.make base)

/-- Runs a session on a runner of its own. -/
def runSession (store : Option Store) (space : Space) (o : Objective) (config : Config) :
    Console SessionResult := do
  let w ← get
  let runner : Runner := { store, files := w.files, now := w.now }
  let (result, _, runner) := runner.run o space config w.freshId .never
  set { w with files := runner.files, now := runner.now }
  require .session result

end Console

end Tuning
