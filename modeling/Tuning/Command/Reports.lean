import Tuning.Command.Console
import Tuning.Command.Settings
import Tuning.Store.Retention
import Tuning.Text.Amount
import Tuning.Text.Blank
import Tuning.Text.Table

/-! # Report commands

Commands that list, show and delete what sessions have left behind. -/

namespace Tuning.Settings

/-- The line of a report. -/
def reportLine (store : Store) (w : World) (info : ReportInfo) : String :=
  let size := match w.files.size (store.directory info.sessionId) with
    | .ok n => Amount.bytes n
    | .error _ => "unknown"
  "\t".intercalate [shortId info.sessionId, Amount.time info.timestamp w.now, info.objective, info.mode,
    toString info.evaluations.toInt, significantNumber 6 info.bestFitness, size] ++ "\n"

/-- Lists the reports. -/
def listReports (s : Settings) : Console Unit := do
  let store ← Console.openStore s.dataDir
  let infos ← Console.onFiles .listReports store.list
  if infos.isEmpty then Console.line "No reports found."
  else
    let w ← get
    Console.write (Table.align
      ("SESSION\tFINISHED\tOBJECTIVE\tMODE\tEVALUATIONS\tBEST\tSIZE\n"
      ++ "-------\t--------\t---------\t----\t-----------\t----\t----\n"
      ++ String.join (infos.map (reportLine store w))))
    Console.line ("\nTotal reports: " ++ toString infos.length)

/-- Shows a report, and how many evaluations its trace has. -/
def showReport (s : Settings) (id : String) : Console Unit := do
  let store ← Console.openStore s.dataDir
  let report ← Console.onFiles .report (store.load id)
  Console.line (← Console.require .encodeReport report.text)
  match ← Console.peek (Trace.load store id) with
  | .error _ => pure ()
  | .ok _ =>
    let entries ← Console.onFiles .trace (Trace.readAll store id)
    Console.line ("\nTrace: " ++ toString entries.length ++ " evaluations over "
      ++ (report.duration.round 1000000).toText)

/-- The line of a report that is to be deleted. -/
def deletionLine (info : ReportInfo) : String :=
  "  - " ++ shortId info.sessionId ++ " (" ++ info.objective ++ ", finished " ++ info.timestamp.dateText
    ++ " " ++ info.timestamp.clockText ++ ")"

/-- Asks whether to go on; only a y goes on. -/
def confirm : Console Bool := do
  Console.write "\nProceed with deletion? [y/N]: "
  let answer := Text.trim (← Console.answer)
  return answer = ['y'] ∨ answer = ['Y']

/-- Deletes sessions one after another; how many were deleted, and how many could not be. -/
def deleteAll (store : Store) : List ReportInfo → (deleted failed : Nat) → Console (Nat × Nat)
  | [], deleted, failed => pure (deleted, failed)
  | info :: rest, deleted, failed => do
    let (result, files) := (store.delete info.sessionId).run (← get).files
    modify fun w => { w with files }
    match result with
    | .ok () => deleteAll store rest (deleted + 1) failed
    | .error _ => deleteAll store rest deleted (failed + 1)

/-- Deletes the reports that need not be kept, if that is confirmed. -/
def cleanReports (s : Settings) : Console Unit := do
  if s.keepLast = 0 ∧ s.olderThan = 0 then throw .noRetention
  let store ← Console.openStore s.dataDir
  let infos ← Console.onFiles .listReports store.list
  let chosen := Retention.select ⟨s.keepLast.toInt, s.olderThan.toInt⟩
    ((← get).daysAgo s.olderThan.toInt) infos
  if infos.isEmpty then Console.line "No reports to clean."
  else if chosen.isEmpty then Console.line "No reports match deletion criteria."
  else
    Console.line ("Found " ++ toString chosen.length ++ " report(s) to delete:")
    chosen.forM fun info => Console.line (deletionLine info)
    let agreed ← if s.force then pure true else confirm
    if agreed then
      let (deleted, failed) ← deleteAll store chosen 0 0
      Console.line ("\nDeleted " ++ toString deleted ++ " report(s), " ++ toString failed ++ " failed.")
    else Console.line "Aborted."

end Tuning.Settings
