import Tuning.Report.Basic
import Tuning.Store.FileTree
import Tuning.Json.Reader

/-! # The report store

Every session owns a directory below the base directory of a store. It holds the report and the trace
of the session. A report is written beside the old one and then takes its place. -/

namespace Tuning

/-- What a store does with files. -/
inductive FileStep where
  | createBase
  | createSession
  | writeReport
  | renameReport
  | readReport
  | listSessions
  | statSession
  | removeSession
  | openTrace
  deriving DecidableEq, Repr

/-- The words for what a store could not do with files. -/
def FileStep.message : FileStep → String
  | createBase => "failed to create base directory"
  | createSession => "failed to create session directory"
  | writeReport => "failed to write temp report file"
  | renameReport => "failed to rename report file"
  | readReport => "failed to read report file"
  | listSessions => "failed to read sessions directory"
  | statSession => "failed to stat session directory"
  | removeSession => "failed to remove session directory"
  | openTrace => "failed to open trace file"

/-- Why a store refuses. -/
inductive StoreError where
  | emptyId
  | noReport
  | notFound (id : String)
  | file (step : FileStep)
  | unencodable (error : EncodeError)
  | undecodable
  deriving DecidableEq, Repr

/-- The words for an unknown session. -/
def notFoundMessage (id : String) : String :=
  if id = "" then "session not found" else "session not found: " ++ id

/-- The words for a refusal of a store. -/
def StoreError.message : StoreError → String
  | emptyId => "sessionID cannot be empty"
  | noReport => "report cannot be nil"
  | notFound id => notFoundMessage id
  | file step => step.message ++ ": ..."
  | unencodable error => "failed to serialize report: " ++ error.message
  | undecodable => "failed to deserialize report: ..."

/-- A store by its base directory. -/
structure Store where
  base : String
  deriving DecidableEq, Repr

/-- An action of a store on files. -/
abbrev StoreAction := ExceptT StoreError (StateM FileTree)

/-- An action on files as a step of a store. -/
def StoreAction.files {α : Type} (step : FileStep) (action : FileAction α) : StoreAction α :=
  ExceptT.adapt (fun _ => .file step) action

namespace Store

/-- The store in a directory, which is made if needed. -/
def make (base : String) : StoreAction Store := do
  .files .createBase (FileAction.makeDirectory (.ofText base))
  return ⟨base⟩

/-- The directory of all sessions. -/
def root (s : Store) : Path :=
  .join [s.base, "sessions"]

/-- The directory of a session. -/
def directory (s : Store) (id : String) : Path :=
  .join [s.base, "sessions", id]

/-- The file of a report. -/
def reportPath (s : Store) (id : String) : Path :=
  s.directory id ++ ["report.json"]

/-- Where a report is written before it takes its place. -/
def draftPath (s : Store) (id : String) : Path :=
  s.directory id ++ ["report.json.tmp"]

/-- Refuses the empty name. -/
def checkId (id : String) : StoreAction Unit :=
  if id = "" then throw .emptyId else return ()

/-- Stores the report of a session in place of an older one. -/
def save (s : Store) (id : String) (report : Report) : StoreAction Unit := do
  checkId id
  .files .createSession (FileAction.makeDirectory (s.directory id))
  match report.text with
  | .error error => throw (.unencodable error)
  | .ok text =>
    .files .writeReport (FileAction.write (s.draftPath id) text)
    tryCatch (.files .renameReport (FileAction.rename (s.draftPath id) (s.reportPath id))) fun error => do
      .files .renameReport (FileAction.remove (s.draftPath id))
      throw error

/-- The stored report of a session. -/
def load (s : Store) (id : String) : StoreAction Report := do
  checkId id
  match (FileAction.read (s.reportPath id)).run (← get) with
  | (.error .missing, _) => throw (.notFound id)
  | (.error _, _) => throw (.file .readReport)
  | (.ok text, _) =>
    match (Json.parse? text).bind Report.ofJson? with
    | some report => return report
    | none => throw .undecodable

/-- Whether a session has a report that can be read. -/
def loadable? (s : Store) (t : FileTree) (id : String) : Option Report :=
  match (s.load id).run t with
  | (.ok report, _) => some report
  | (.error _, _) => none

/-- What a listing shows of all reports that can be read, the latest first. -/
def list (s : Store) : StoreAction (List ReportInfo) := do
  match (FileAction.list s.root).run (← get) with
  | (.error .missing, _) => return []
  | (.error _, _) => throw (.file .listSessions)
  | (.ok names, t) =>
    let infos := names.filterMap fun (name, isDirectory) =>
      if isDirectory then (s.loadable? t name).map (·.info) else none
    return infos.mergeSort fun a b => !a.timestamp.before b.timestamp

/-- Takes away the directory of a session. -/
def delete (s : Store) (id : String) : StoreAction Unit := do
  checkId id
  match (← get).stat (s.directory id) with
  | .error .missing => throw (.notFound id)
  | .error _ => throw (.file .statSession)
  | .ok _ => .files .removeSession (FileAction.remove (s.directory id))

end Store

end Tuning
