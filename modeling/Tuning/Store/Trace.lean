import Tuning.Store.Basic

/-! # Traces

A trace holds one line for every measurement of a session. -/

namespace Tuning

/-- One measurement of a session. -/
structure TraceEntry where
  round : Int64 := 0
  evaluation : Int64 := 0
  candidate : Option Candidate := none
  fitness : Float := 0
  /-- The words for a failed measurement, which has no fitness. -/
  error : String := ""
  /-- The best fitness so far. -/
  best : Float := 0
  timestamp : Instant := .zero

namespace TraceEntry

/-- The fields of the document of an entry. -/
def fields : List (Json.Field TraceEntry) :=
  [.of "round" Json.word? fun x e => { e with round := x },
    .of "evaluation" Json.word? fun x e => { e with evaluation := x },
    .mapping "candidate" (·.candidate) fun x e => { e with candidate := x },
    .of "fitness" Json.float? fun x e => { e with fitness := x },
    .of "error" Json.string? fun x e => { e with error := x },
    .of "best" Json.float? fun x e => { e with best := x },
    .of "timestamp" Json.instant? fun x e => { e with timestamp := x }]

/-- Reads the document of an entry. -/
def ofJson? (j : Json) : Option TraceEntry :=
  Json.readRecord fields j {}

/-- The document of an entry. -/
def encode (e : TraceEntry) : Except EncodeError Json := do
  return .object
    ([("round", .int e.round.toInt), ("evaluation", .int e.evaluation.toInt),
      ("candidate", ← encodeMapping e.candidate), ("fitness", ← encodeFloat e.fitness)]
    ++ Json.field? (e.error != "") "error" (.string e.error)
    ++ [("best", ← encodeFloat e.best), ("timestamp", ← encodeInstant e.timestamp)])

/-- The line of an entry. -/
def line (e : TraceEntry) : Except EncodeError String := do
  return (← e.encode).compact ++ "\n"

end TraceEntry

/-- Why a trace cannot be written or read. -/
inductive TraceError where
  | store (error : StoreError)
  | unencodable (error : EncodeError)
  | malformed
  | tooLong
  | unreadable
  deriving DecidableEq, Repr

/-- The words for a trace that cannot be written or read. -/
def TraceError.message : TraceError → String
  | store error => error.message
  | unencodable error => "failed to marshal trace entry: " ++ error.message
  | malformed => "failed to unmarshal trace entry: ..."
  | tooLong => "failed to scan trace line: bufio.Scanner: token too long"
  | unreadable => "failed to scan trace line: ..."

/-- An action on traces. -/
abbrev TraceAction := ExceptT TraceError (StateM FileTree)

/-- One line of a trace as it is read. -/
inductive TraceLine where
  | text (cs : List Char)
  /-- A line that does not fit; nothing behind it is read either. -/
  | tooLong
  /-- The lines of what is not a file. -/
  | unreadable
  deriving DecidableEq, Repr

namespace Trace

/-- Splits characters into lines; a line end at the end of the text starts no line. The characters of
the current line are kept in reverse. -/
def splitFrom : (current : List Char) → List Char → List (List Char)
  | [], [] => []
  | current, [] => [current.reverse]
  | current, '\n' :: cs => current.reverse :: splitFrom [] cs
  | current, c :: cs => splitFrom (c :: current) cs

/-- The greatest number of bytes in a line. -/
def longest : Nat := 1048575

/-- The number of bytes of characters. -/
def byteCount (cs : List Char) : Nat :=
  cs.foldl (fun n c => n + c.utf8Size) 0

/-- A line without the carriage return at its end. -/
def dropReturn (cs : List Char) : List Char :=
  if cs.getLast? == some '\r' then cs.dropLast else cs

/-- The characters in the first bytes of a text; one that is cut in two is lost. -/
def cut : (bytes : Nat) → List Char → List Char
  | _, [] => []
  | 0, _ => []
  | bytes, c :: cs => if c.utf8Size ≤ bytes then c :: cut (bytes - c.utf8Size) cs else ['\ufffd']

/-- The lines of a text up to one that is too long. Whoever reads on behind it gets what is there of it,
and then nothing more. -/
def readable : List (List Char) → List TraceLine
  | [] => []
  | cs :: rest =>
    if longest < byteCount cs then [.tooLong, .text (dropReturn (cut (longest + 1) cs)), .tooLong]
    else .text (dropReturn cs) :: readable rest

/-- The lines of a text. -/
def lines (text : String) : List TraceLine :=
  readable (splitFrom [] text.toList)

/-- The entry of a line. -/
def entry : TraceLine → Except TraceError TraceEntry
  | .tooLong => .error .tooLong
  | .unreadable => .error .unreadable
  | .text cs =>
    match (Json.parse? (String.ofList cs)).bind TraceEntry.ofJson? with
    | some e => .ok e
    | none => .error .malformed

/-- The file of the trace of a session. -/
def path (s : Store) (id : String) : Path :=
  s.directory id ++ ["trace.jsonl"]

/-- Begins the trace of a session, or goes on with the one that is there. -/
def start (s : Store) (id : String) (append : Bool) : TraceAction Unit :=
  ExceptT.adapt TraceError.store do
    StoreAction.files .createSession (FileAction.makeDirectory (s.directory id))
    let old := match (← get).stat (path s id) with
      | .ok (.file text) => if append then text else ""
      | _ => ""
    StoreAction.files .openTrace (FileAction.write (path s id) old)

/-- Adds lines to the trace of a session. -/
def add (s : Store) (id : String) (lines : List String) : TraceAction Unit :=
  modify fun t => match t.stat (path s id) with
    | .ok (.file text) => ((FileAction.write (path s id) (lines.foldl (· ++ ·) text)).run t).2
    | _ => t

/-- The lines of entries up to the first that has none. -/
def encodeLines : List TraceEntry → List String × Option EncodeError
  | [] => ([], none)
  | e :: rest =>
    match e.line with
    | .error error => ([], some error)
    | .ok line =>
      let (lines, error) := encodeLines rest
      (line :: lines, error)

/-- Writes entries; those before one that has no line are kept. -/
def write (s : Store) (id : String) (append : Bool) (entries : List TraceEntry) : TraceAction Unit := do
  start s id append
  let (lines, error) := encodeLines entries
  add s id lines
  match error with
  | some error => throw (.unencodable error)
  | none => return ()

/-- The lines of the trace of a session. -/
def load (s : Store) (id : String) : TraceAction (List TraceLine) := do
  match (← get).stat (path s id) with
  | .error .missing => throw (.store (.notFound id))
  | .error _ => throw (.store (.file .openTrace))
  | .ok (.directory _) => return [.unreadable]
  | .ok (.file text) => return lines text

/-- What a number of readings one after another give; `none` stands for the end of the lines. A last
line that stops the reading is met again and again. -/
def readings : (count : Nat) → List TraceLine → List (Option TraceLine)
  | 0, _ => []
  | count + 1, [] => none :: readings count []
  | count + 1, .text cs :: rest => some (.text cs) :: readings count rest
  | count + 1, [stop] => some stop :: readings count [stop]
  | count + 1, stop :: rest => some stop :: readings count rest

/-- All entries of the trace of a session. -/
def readAll (s : Store) (id : String) : TraceAction (List TraceEntry) := do
  match (← load s id).mapM entry with
  | .ok entries => return entries
  | .error error => throw error

end Trace

end Tuning
