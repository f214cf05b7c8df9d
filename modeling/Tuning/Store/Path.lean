/-! # Paths

A path is the list of its parts, and a path from the root of all directories has the part `/` in front.
A path as it is written may have empty parts, single dots and double dots anywhere; a joined path has
only names behind double dots in front. -/

namespace Tuning

/-- The parts of a path. -/
abbrev Path := List String

namespace Path

/-- Splits characters at slashes; the characters of the current part are kept in reverse. -/
def splitFrom : (current : List Char) → List Char → List String
  | current, [] => [String.ofList current.reverse]
  | current, '/' :: cs => String.ofList current.reverse :: splitFrom [] cs
  | current, c :: cs => splitFrom (c :: current) cs

/-- The texts between slashes. -/
def split (text : String) : List String :=
  splitFrom [] text.toList

/-- Goes from a path, its parts in reverse, to a part of it. -/
def step (done : List String) (part : String) : List String :=
  if part = "" ∨ part = "." then done
  else if part = ".." then
    match done with
    | [] => [".."]
    | last :: rest =>
      if last = "/" then done else if last = ".." then ".." :: done else rest
  else part :: done

/-- Whether a text leads from the root of all directories. -/
def isAbsolute (text : String) : Bool :=
  text.toList.head? == some '/'

/-- The path of texts one below the other; empty texts are passed over. -/
def join (texts : List String) : Path :=
  let texts := texts.filter (· ≠ "")
  let start := if texts.head?.any isAbsolute then ["/"] else []
  ((texts.flatMap split).foldl step start).reverse

/-- The path of a text as it is written. -/
def ofText (text : String) : Path :=
  if isAbsolute text then "/" :: (split text).tail else split text

/-- The text of a path. -/
def text : Path → String
  | [] => "."
  | "/" :: parts => "/" ++ "/".intercalate parts
  | parts => "/".intercalate parts

/-- The greatest number of bytes of a path. -/
def longest : Nat := 4095

/-- Whether a part has only characters that parts can have. -/
def isReadable (part : String) : Bool :=
  !part.toList.contains '\x00'

/-- Whether a file can have a name. -/
def isName (part : String) : Bool :=
  part.utf8ByteSize ≤ 255 && isReadable part

/-- Whether files can be looked for at a path. -/
def isUsable (p : Path) : Bool :=
  p.all isReadable && p.text.utf8ByteSize ≤ longest

/-- Whether a path stays above the directory it starts from, or leads to the root of all directories:
such a path leads to a directory always. -/
def isAbove (p : Path) : Bool :=
  p == ["/"] || p.all (· == "..")

/-- The directory that holds a joined path. -/
def up (p : Path) : Path :=
  if p = ["/"] then p else if p.isAbove then ".." :: p else p.dropLast

/-- The joined path one part on. -/
def followed (done : Path) (part : String) : Path :=
  if part = "" ∨ part = "." then done else if part = ".." then done.up else done ++ [part]

end Path

end Tuning
