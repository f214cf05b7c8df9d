/-! # Tables

Lines of cells, divided by tabs of either direction. Cells above each other in neighbouring lines make
a column, and every cell but the last of its line is filled up to the width of its column and two
blanks. A form feed ends a line and all columns. -/

namespace Tuning.Table

/-- The blanks between columns. -/
def gap : Nat := 2

/-- Splits characters at marks; the characters of the current part are kept in reverse. -/
def splitFrom (isMark : Char → Bool) : (current : List Char) → List Char → List (List Char)
  | current, [] => [current.reverse]
  | current, c :: cs =>
    if isMark c then current.reverse :: splitFrom isMark [] cs else splitFrom isMark (c :: current) cs

/-- Whether a character divides cells. -/
def isTab (c : Char) : Bool :=
  c == '\t' || c == '\x0b'

/-- The width that the first lines ask for in a column, up to a line that does not reach it. -/
def widthBelow (column : Nat) : List (List (List Char)) → Nat
  | [] => 0
  | line :: rest =>
    if column + 1 < line.length then max ((line.getD column []).length + gap) (widthBelow column rest) else 0

/-- The cells of a line, filled up in the columns that lines above and below share. -/
def fill (above below : List (List (List Char))) : (column : Nat) → List (List Char) → List Char
  | _, [] => []
  | _, [last] => last
  | column, cell :: rest =>
    let width := max (cell.length + gap) (max (widthBelow column above) (widthBelow column below))
    cell ++ List.replicate (width - cell.length) ' ' ++ fill above below (column + 1) rest

/-- The lines of a table, the lines above going in reverse. -/
def fillLines : (above below : List (List (List Char))) → List (List Char)
  | _, [] => []
  | above, line :: below => fill above below 0 line :: fillLines (line :: above) below

/-- The lines of a part without form feeds. -/
def alignPart (cs : List Char) : List (List Char) :=
  fillLines [] ((splitFrom (· == '\n') [] cs).map (splitFrom isTab []))

/-- Aligns lines whose cells are divided by tabs. -/
def align (text : String) : String :=
  let parts := splitFrom (· == '\x0c') [] text.toList
  String.ofList (List.intercalate ['\n'] (parts.flatMap alignPart))

end Tuning.Table
