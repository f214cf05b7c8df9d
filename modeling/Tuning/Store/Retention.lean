import Tuning.Report.Basic

/-! # Retention

Reports are dropped when they are too old or when enough later ones are there. -/

namespace Tuning

/-- Which reports to keep; zero and less switch a rule off. -/
structure Retention where
  /-- The number of latest reports to keep. -/
  keepLast : Int
  /-- The age in days from which on reports are dropped: the cutoff lies so many days back. -/
  olderThan : Int

namespace Retention

/-- The reports from before the cutoff. -/
def aged (r : Retention) (cutoff : Instant) (infos : List ReportInfo) : List ReportInfo :=
  if 0 < r.olderThan then infos.filter (·.timestamp.before cutoff) else []

/-- The reports behind the latest ones, from late to early. -/
def surplus (r : Retention) (infos : List ReportInfo) : List ReportInfo :=
  if 0 < r.keepLast then
    (infos.mergeSort fun a b => !a.timestamp.before b.timestamp).drop r.keepLast.toNat
  else []

/-- Adds reports of sessions that are not there yet. -/
def addNew : List ReportInfo → List ReportInfo → List ReportInfo
  | done, [] => done
  | done, info :: rest =>
    if done.any (·.sessionId == info.sessionId) then addNew done rest else addNew (done ++ [info]) rest

/-- The reports to drop: the aged ones as they are listed, then the others from late to early. -/
def select (r : Retention) (cutoff : Instant) (infos : List ReportInfo) : List ReportInfo :=
  addNew (r.aged cutoff infos) (r.surplus infos)

end Retention

/-- The first `n` bytes of characters; a character that is cut through leaves a replacement character
for each of its bytes. -/
def cutAt : (n : Nat) → List Char → List Char
  | _, [] => []
  | n, c :: cs =>
    if c.utf8Size ≤ n then c :: cutAt (n - c.utf8Size) cs else List.replicate n '\ufffd'

/-- The name of a session, cut to twelve bytes. -/
def shortId (id : String) : String :=
  if id.utf8ByteSize ≤ 12 then id else String.ofList (cutAt 12 id.toList) ++ "..."

end Tuning
