import Tuning.Store.Path

/-! # A tree of files

Files and directories by path. The tree is a value: an action on it may fail, and what it did before
it failed stays done. A path is followed as it is written: every part has to stand in a directory that
is there, also one that a double dot leaves again. -/

namespace Tuning

/-- A file with its text, or a directory with what it holds, the names increasing. -/
inductive FileTree where
  | file (text : String)
  | directory (entries : List (String × FileTree))
  deriving Repr

/-- Why an action on files fails. -/
inductive FileFault where
  | missing
  | notDirectory
  | isDirectory
  /-- A name that no file can have. -/
  | badName
  deriving DecidableEq, Repr

/-- An action on files. -/
abbrev FileAction := ExceptT FileFault (StateM FileTree)

namespace FileTree

instance : EmptyCollection FileTree := ⟨.directory []⟩

/-- Whether a tree is a directory. -/
def isDirectory : FileTree → Bool
  | file _ => false
  | directory _ => true

/-- What a directory holds; a file holds nothing. -/
def entries : FileTree → List (String × FileTree)
  | file _ => []
  | directory entries => entries

/-- What stands at a path of names. -/
def find? : FileTree → Path → Option FileTree
  | t, [] => some t
  | t, name :: rest =>
    match t.entries.lookup name with
    | none => none
    | some u => find? u rest

/-- Puts an entry at its place among entries whose names increase. -/
def place (entry : String × FileTree) : List (String × FileTree) → List (String × FileTree)
  | [] => [entry]
  | other :: rest => if entry.1 < other.1 then entry :: other :: rest else other :: place entry rest

/-- Puts something under a name among entries, knowing what stands there. -/
def putEntry (name : String) (put : Option FileTree → FileTree) (entries : List (String × FileTree)) :
    List (String × FileTree) :=
  place (name, put (entries.lookup name)) (entries.filter (·.1 ≠ name))

/-- Puts something at a path of names, making the directories that lead to it. -/
def insert : FileTree → Path → FileTree → FileTree
  | _, [], new => new
  | t, name :: rest, new => .directory (putEntry name (fun old => insert (old.getD {}) rest new) t.entries)

/-- Takes away what stands at a path of names. -/
def erase : FileTree → Path → FileTree
  | t, [] => t
  | file text, _ => file text
  | directory entries, [name] => directory (entries.filter (·.1 ≠ name))
  | directory entries, name :: rest =>
    directory (entries.map fun (other, t) => (other, if other = name then erase t rest else t))

mutual

/-- A tree and all that is below it by path, every directory before what it holds. -/
def listing : FileTree → Path → List (Path × FileTree)
  | file text, p => [(p, file text)]
  | directory entries, p => (p, directory entries) :: listingAll entries p

/-- All that is at and below some entries. -/
def listingAll : List (String × FileTree) → Path → List (Path × FileTree)
  | [], _ => []
  | (name, t) :: rest, p => listing t (p ++ [name]) ++ listingAll rest p

end

/-- What stands at and below a path of names. -/
def paths (t : FileTree) (p : Path) : List (Path × FileTree) :=
  match t.find? p with
  | none => []
  | some u => u.listing p

mutual

/-- The sum of the sizes of all files. -/
def bytes : FileTree → Nat
  | file text => text.utf8ByteSize
  | directory entries => bytesAll entries

/-- The sum of the sizes of all files of some entries. -/
def bytesAll : List (String × FileTree) → Nat
  | [] => 0
  | (_, t) :: rest => bytes t + bytesAll rest

end

/-- What stands at a joined path. -/
def at? (t : FileTree) (p : Path) : Option FileTree :=
  if p.isAbove then some ((t.find? p).getD {}) else t.find? p

/-- Follows the parts of a path; every part but a name stays at or goes up from a directory. -/
def walk (t : FileTree) : (done rest : Path) → Except FileFault Path
  | done, [] => if (t.at? done).isSome then .ok done else .error .missing
  | done, part :: rest =>
    match t.at? done with
    | none => .error .missing
    | some (.file _) => .error .notDirectory
    | some (.directory _) =>
      if part = "" ∨ part = "." then walk t done rest
      else if part = ".." then walk t done.up rest
      else if Path.isName part then walk t (done ++ [part]) rest
      else .error .badName

/-- The joined path that leads to the same place as a path. The path of the empty text leads nowhere. -/
def resolve (t : FileTree) (p : Path) : Except FileFault Path :=
  if p = [""] then .error .missing
  else if p.isUsable then walk t [] p
  else .error .badName

/-- What stands at a path. -/
def stat (t : FileTree) (p : Path) : Except FileFault FileTree :=
  match t.resolve p with
  | .error fault => .error fault
  | .ok q =>
    match t.at? q with
    | none => .error .missing
    | some u => .ok u

/-- The tree with a file written into a directory that is there. -/
def write (t : FileTree) (p : Path) (text : String) : Except FileFault FileTree :=
  match t.resolve p with
  | .ok q =>
    if (t.at? q).any (·.isDirectory) then .error .isDirectory else .ok (t.insert q (.file text))
  | .error .missing =>
    match t.resolve p.dropLast with
    | .error fault => .error fault
    | .ok d =>
      let name := p.getLast?.getD ""
      if !(t.at? d).any (·.isDirectory) then .error .notDirectory
      else if name = "" then .error .isDirectory
      else .ok (t.insert (d ++ [name]) (.file text))
  | .error fault => .error fault

/-- The tree without a path and what is below it; the directory it starts from and those above it
stay. -/
def remove (t : FileTree) (p : Path) : Except FileFault FileTree :=
  match t.resolve p with
  | .error fault => .error fault
  | .ok q => if q.isAbove then .error .badName else .ok (t.erase q)

/-- Makes the directories that lead on from a joined path, where they are missing, when a number of
bytes of the path has been used. Those made before a failure stay. -/
def makeFrom : (used : Nat) → (done rest : Path) → FileTree → Except FileFault Unit × FileTree
  | _, _, [], t => (.ok (), t)
  | used, done, part :: rest, t =>
    let used := used + part.utf8ByteSize
    if Path.longest < used ∨ !Path.isName part then (.error .badName, t)
    else
      let next := done.followed part
      match t.at? next with
      | some (.directory _) => makeFrom (used + 1) next rest t
      | some (.file _) => (.error .notDirectory, t)
      | none => makeFrom (used + 1) next rest (t.insert next {})

/-- The sum of the sizes of the files at and below a path. -/
def size (t : FileTree) (p : Path) : Except FileFault Nat :=
  (t.stat p).map bytes

end FileTree

namespace FileAction

/-- Looks at the tree. -/
def look {α : Type} (view : FileTree → Except FileFault α) : FileAction α := do
  match view (← get) with
  | .ok a => return a
  | .error fault => throw fault

/-- Changes the tree, or fails and leaves it as it is. -/
def change (next : FileTree → Except FileFault FileTree) : FileAction Unit := do
  match next (← get) with
  | .ok t => set t
  | .error fault => throw fault

/-- Makes a directory and those that lead to it. -/
def makeDirectory (p : Path) : FileAction Unit :=
  if p = [""] then throw .missing else ExceptT.mk fun t => t.makeFrom 0 [] p

/-- The text of a file. -/
def read (p : Path) : FileAction String := do
  match ← look (·.stat p) with
  | .file text => return text
  | .directory _ => throw .isDirectory

/-- Writes a file into a directory that is there. -/
def write (p : Path) (text : String) : FileAction Unit :=
  change (·.write p text)

/-- Takes away a path and what is below it. -/
def remove (p : Path) : FileAction Unit :=
  change (·.remove p)

/-- Moves a file to another path of a directory that is there; a file that stands there is lost. -/
def rename (source target : Path) : FileAction Unit := do
  write target (← read source)
  remove source

/-- The names in a directory and whether they are directories. -/
def list (p : Path) : FileAction (List (String × Bool)) := do
  match ← look (·.stat p) with
  | .file _ => throw .notDirectory
  | .directory entries => return entries.map fun (name, t) => (name, t.isDirectory)

end FileAction

end Tuning
