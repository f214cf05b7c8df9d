import Tuning.Command.Menu
import Tuning.Text.Uuid

/-! # The command line

Brings the files that a command may need into a tree, lets the command work on the tree, and writes
back what it has changed. -/

namespace Tuning.Shell

/-- Puts a directory at a path unless one is there. -/
def ensureDirectory (p : Path) (t : FileTree) : FileTree :=
  if (t.find? p).any (·.isDirectory) then t else t.insert p {}

/-- Reads what stands at and below a joined path. -/
partial def loadBelow (p : Path) (t : FileTree) : IO FileTree := do
  let place := (← IO.currentDir) / p.text
  if ← place.isDir then
    let mut t := ensureDirectory p t
    for entry in ← place.readDir do
      t ← loadBelow (p ++ [entry.fileName]) t
    return t
  else
    try return t.insert p (.file (← IO.FS.readFile place))
    catch _ => return t

/-- Reads what stands at a path and on the way to it. -/
def loadPath (text : String) (t : FileTree) : IO FileTree := do
  let parts := Path.ofText text
  let mut t := t
  for n in List.range parts.length do
    let front := Path.join [Path.text (parts.take n)]
    let place := (← IO.currentDir) / front.text
    if ← place.isDir then t := ensureDirectory front t
    else if ← place.pathExists then t := t.insert front (.file "")
  loadBelow (.join [text]) t

/-- Removes what is gone from a tree and writes what is new in it. -/
def saveChanges (before after : FileTree) : IO Unit := do
  let here ← IO.currentDir
  for (p, entry) in (before.paths []).reverse do
    if (after.find? p).isNone then
      match entry with
      | .directory _ => IO.FS.removeDirAll (here / p.text)
      | .file _ => IO.FS.removeFile (here / p.text)
  for (p, entry) in after.paths [] do
    match entry, before.find? p with
    | .directory _, none => IO.FS.createDirAll (here / p.text)
    | .file text, some (.file old) => if text ≠ old then IO.FS.writeFile (here / p.text) text
    | .file text, _ => IO.FS.writeFile (here / p.text) text
    | .directory _, some _ => pure ()

/-- The time, by the mark on a file that was just made. -/
def clock : IO Instant := do
  let (_, place) ← IO.FS.createTempFile
  let time := (← place.metadata).modified
  IO.FS.removeFile place
  return Instant.ofUnix time.sec time.nsec.toNat

/-- A random id. -/
def randomId : IO String := do
  return Uuid.text ((← IO.getRandomBytes 16).toList.map (·.toNat))

/-- Runs a command until it needs no more answers, and shows what it writes; so many characters of it
have been shown already. -/
partial def converse (arguments : List String) (w : World) (shown : Nat) :
    IO (Option CommandError × World) := do
  let (text, error, after) := Command.run arguments w
  let out ← IO.getStdout
  out.putStr (String.ofList (text.toList.drop shown))
  out.flush
  match error with
  | some .unanswered =>
    converse arguments { w with input := some (← (← IO.getStdin).getLine) } text.length
  | error => return (error, after)

end Tuning.Shell

open Tuning in
/-- Does what the command line asks for. -/
def main (arguments : List String) : IO UInt32 := do
  let settings := Command.settingsOf arguments
  let before ← Shell.loadPath settings.dataDir {}
  let before ← if settings.spacePath = "" then pure before else Shell.loadPath settings.spacePath before
  let w : World := { files := before, now := ← Shell.clock, freshId := ← Shell.randomId }
  let (error, after) ← Shell.converse arguments w 0
  Shell.saveChanges before after.files
  match error with
  | none => return 0
  | some error =>
    IO.eprintln ("Error: " ++ error.message)
    return 1
