/-! # Places in a document

A document is read from front to back. The place that has been reached is known by its line and column,
which carry the block structure, and by the number of characters before it. -/

namespace Tuning.Yaml

/-- Whether a character separates words on a line. -/
def isBlank (c : Char) : Bool :=
  c == ' ' || c == '\t'

/-- Whether a character ends a line. -/
def isBreak (c : Char) : Bool :=
  c == '\n' || c == '\r' || c == '\u0085' || c == '\u2028' || c == '\u2029'

/-- Whether a character may stand in a document. -/
def isAllowed (c : Char) : Bool :=
  let n := c.toNat
  n == 9 || n == 10 || n == 13 || (0x20 ≤ n && n ≤ 0x7e) || n == 0x85 ||
    (0xa0 ≤ n && n ≤ 0xd7ff) || (0xe000 ≤ n && n ≤ 0xfffd) || 0x10000 ≤ n

/-- What is left of a document, and where it begins. -/
structure Cursor where
  rest : List Char
  /-- How many characters the document has. -/
  size : Nat := rest.length
  /-- How many characters stand before this place. -/
  index : Nat := 0
  /-- Lines count from one, columns from zero. -/
  line : Nat := 1
  column : Nat := 0
  /-- How many lines have ended since the last character that is not blank. -/
  breaks : Nat := 0

namespace Cursor

/-- Whether a given character comes next. -/
def startsWith (k : Cursor) (c : Char) : Bool :=
  k.rest.head? == some c

/-- Whether a character with a property comes next. -/
def nextIs (k : Cursor) (p : Char → Bool) : Bool :=
  k.rest.head?.any p

/-- Whether a line ends here. -/
def atBreak (k : Cursor) : Bool :=
  k.nextIs isBreak

/-- Whether a list of characters begins with white space or is empty. -/
def isGap : List Char → Bool
  | [] => true
  | c :: _ => isBlank c || isBreak c

/-- Whether white space, a line end or the end of the document comes next. -/
def atGap (k : Cursor) : Bool :=
  isGap k.rest

/-- Whether white space, a line end or the end of the document follows the next character. -/
def gapFollows (k : Cursor) : Bool :=
  isGap (k.rest.drop 1)

/-- Whether a line begins here with three equal characters and a gap. -/
def atRule (k : Cursor) (c : Char) : Bool :=
  k.column == 0 && k.rest.take 3 == [c, c, c] && isGap (k.rest.drop 3)

/-- Whether a line that separates documents begins here. -/
def atBoundary (k : Cursor) : Bool :=
  k.atRule '-' || k.atRule '.'

/-- Passes over one character of a line. -/
def skip (k : Cursor) : Cursor :=
  match k.rest with
  | [] => k
  | c :: rest =>
    { k with
      rest
      index := k.index + 1
      column := k.column + 1
      breaks := if isBlank c then k.breaks else 0 }

/-- Passes over the end of a line; a carriage return and a line feed are one. -/
def skipBreak (k : Cursor) : Cursor :=
  let past := fun rest count : _ =>
    { k with
      rest, index := k.index + count, line := k.line + 1, column := 0, breaks := k.breaks + 1 }
  match k.rest with
  | '\r' :: '\n' :: rest => past rest 2
  | _ :: rest => past rest 1
  | [] => k

/-- The text of the line end that comes next. -/
def breakText (k : Cursor) : String :=
  match k.rest with
  | [] => ""
  | c :: _ => if c == '\u2028' || c == '\u2029' then c.toString else "\n"

/-- Passes over the characters of a line that have a property. -/
def skipWhile (p : Char → Bool) (k : Cursor) : Cursor :=
  (k.rest.takeWhile p).foldl (fun k _ => k.skip) k

/-- Passes over a number of characters of a line. -/
def skipMany (k : Cursor) : Nat → Cursor
  | 0 => k
  | n + 1 => k.skip.skipMany n

/-- Takes the characters of a line that have a property. -/
def takeWhile (p : Char → Bool) (k : Cursor) : String × Cursor :=
  (String.ofList (k.rest.takeWhile p), k.skipWhile p)

/-- Passes over the rest of a line. -/
def skipLine (k : Cursor) : Cursor :=
  k.skipWhile fun c => !isBreak c

/-- Passes over white space and line ends up to a given character, which is known to follow. -/
def skipTo (c : Char) : (fuel : Nat) → Cursor → Cursor
  | 0, k => k
  | fuel + 1, k =>
    if k.startsWith c then k
    else skipTo c fuel (if k.atBreak then k.skipBreak else k.skip)

/-- The place of the comment that comes next when nothing but white space stands before it. Only the
first half kilobyte behind a line end is looked at, and of the line ends only those of one byte. -/
def nextComment? (k : Cursor) : Option Cursor :=
  match k.rest with
  | [] => none
  | c :: rest =>
    if c != '\n' && c != '\r' then none
    else
      let gap := (rest.takeWhile fun c => isBlank c || c == '\n' || c == '\r').length
      if gap ≤ 510 && (rest.drop gap).head? == some '#' then some (k.skipTo '#' (gap + 2)) else none

/-- Passes over comments that follow one another. -/
def skipComments : (fuel : Nat) → Cursor → Cursor
  | 0, k => k
  | fuel + 1, k =>
    let k := k.skipLine
    match k.nextComment? with
    | some next => skipComments fuel next
    | none => k

/-- Passes over a comment on the line of the token that was read last. -/
def skipLineComment (k : Cursor) : Cursor :=
  let gap := (k.rest.takeWhile isBlank).length
  if k.breaks == 0 && gap ≤ 511 && (k.rest.drop gap).head? == some '#' then k.skipLine else k

/-- Passes over white space, line ends and comments. Between brackets tabs are white space; elsewhere
they are so only where no key can begin, and a new line lets a key begin. -/
def skipGap (flow : Bool) : (fuel : Nat) → (keyAllowed : Bool) → Cursor → Bool × Cursor
  | 0, keyAllowed, k => (keyAllowed, k)
  | fuel + 1, keyAllowed, k =>
    let k := if k.column == 0 && k.startsWith '\ufeff' then k.skip else k
    let k := k.skipWhile fun c => c == ' ' || (c == '\t' && (flow || !keyAllowed))
    let k := if k.startsWith '#' then skipComments (k.size + 1) k else k
    if k.atBreak then skipGap flow fuel (keyAllowed || !flow) k.skipBreak else (keyAllowed, k)

end Cursor

/-- Splits off the characters that fit into a number of bytes. -/
def splitBytes : (room : Nat) → List Char → List Char × List Char
  | _, [] => ([], [])
  | room, c :: cs =>
    if c.utf8Size ≤ room then
      let (block, rest) := splitBytes (room - c.utf8Size) cs
      (c :: block, rest)
    else ([], c :: cs)

/-- The number of characters before the first block with a character that must not stand in a
document. A document is taken in by blocks of half a kilobyte, and the block is refused as a whole. -/
def unreadableFrom? : (fuel room index : Nat) → List Char → Option Nat
  | 0, _, _, _ => none
  | fuel + 1, room, index, cs =>
    match splitBytes room cs with
    | ([], _) => none
    | (block, rest) =>
      if block.all isAllowed then unreadableFrom? fuel 512 (index + block.length) rest else some index

end Tuning.Yaml
