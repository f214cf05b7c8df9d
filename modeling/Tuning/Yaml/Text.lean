import Tuning.Yaml.Cursor

/-! # The text of scalars

Plain and quoted scalars may go on over several lines, which are folded into one: a single line end
becomes a blank, and of several the first one is dropped. Block scalars keep their lines or fold them,
as their first line says. -/

namespace Tuning.Yaml

/-- White space inside a scalar. -/
structure Gap where
  /-- Blanks before the first line end; a line end drops them. -/
  blanks : String := ""
  /-- The first line end. -/
  lead : String := ""
  /-- The line ends behind the first one. -/
  trail : String := ""
  /-- Whether a line has ended. -/
  broken : Bool := false

namespace Gap

/-- The text that a gap stands for. -/
def fold (g : Gap) : String :=
  if !g.broken then g.blanks
  else if g.lead != "\n" then g.lead ++ g.trail
  else if g.trail.isEmpty then " "
  else g.trail

/-- Adds a blank; at the beginning of a line it is indentation. -/
def addBlank (g : Gap) (c : Char) : Gap :=
  if g.broken then g else { g with blanks := g.blanks.push c }

/-- Adds a line end. -/
def addBreak (g : Gap) (text : String) : Gap :=
  if g.broken then { g with trail := g.trail ++ text }
  else { g with blanks := "", lead := text, broken := true }

/-- Reads white space and line ends. A tab must not stand in the indentation of a line. -/
def read? (indent : Int) : (fuel : Nat) → Gap → Cursor → Option (Gap × Cursor)
  | 0, g, k => some (g, k)
  | fuel + 1, g, k =>
    match k.rest with
    | [] => some (g, k)
    | c :: _ =>
      if isBlank c then
        if g.broken && c == '\t' && k.column < indent then none
        else read? indent fuel (g.addBlank c) k.skip
      else if isBreak c then read? indent fuel (g.addBreak k.breakText) k.skipBreak
      else some (g, k)

end Gap

/-- Whether a character ends a plain scalar between brackets. -/
def isBracketMark (c : Char) : Bool :=
  c == ',' || c == '[' || c == ']' || c == '\x7b' || c == '\x7d'

/-- Whether a blank other than a tab, a line end or the end of the document comes next. -/
def atPlainGap : List Char → Bool
  | [] => true
  | c :: _ => c == ' ' || isBreak c

/-- Whether a plain scalar ends here with the mark that comes next. -/
def endsPlain (flow : Bool) : List Char → Bool
  | [] => true
  | c :: rest =>
    (c == ':' && Cursor.isGap rest)
      || (flow && (isBracketMark c || (c == '?' && atPlainGap rest)))

/-- Reads the characters of a plain scalar up to white space or to a mark that ends it. -/
def plainWord (flow : Bool) : (fuel : Nat) → String → Cursor → String × Cursor
  | 0, word, k => (word, k)
  | fuel + 1, word, k =>
    match k.rest with
    | [] => (word, k)
    | c :: _ =>
      if isBlank c || isBreak c || endsPlain flow k.rest then (word, k)
      else plainWord flow fuel (word.push c) k.skip

/-- Reads a plain scalar from a place behind some of it and the white space there. In block style the
lines that go on are indented. The flag tells whether the scalar was read to the beginning of a
line. -/
def plainFrom? (flow : Bool) (indent : Int) :
    (fuel : Nat) → String → Gap → Cursor → Option (String × Bool × Cursor)
  | 0, _, _, _ => none
  | fuel + 1, text, g, k =>
    if k.atBoundary || k.startsWith '#' then some (text, g.broken, k)
    else
      let (word, k) := plainWord flow (k.size + 1) "" k
      let (text, g) : String × Gap := if word.isEmpty then (text, g) else (text ++ g.fold ++ word, {})
      if k.rest.isEmpty || !k.atGap then some (text, g.broken, k)
      else do
        let (g, k) ← g.read? indent (k.size + 1) k
        if !flow && k.column < indent then return (text, g.broken, k)
        plainFrom? flow indent fuel text g k

/-- Reads a plain scalar. -/
def plain? (flow : Bool) (indent : Int) (k : Cursor) : Option (String × Bool × Cursor) :=
  plainFrom? flow indent (k.size + 1) "" {} k

/-- Reads the characters of a single-quoted scalar up to white space or the closing quote; a doubled
quote stands for itself. -/
def singleWord : (fuel : Nat) → String → Cursor → String × Cursor
  | 0, word, k => (word, k)
  | fuel + 1, word, k =>
    match k.rest with
    | '\'' :: '\'' :: _ => singleWord fuel (word.push '\'') k.skip.skip
    | c :: _ =>
      if isBlank c || isBreak c || c == '\'' then (word, k)
      else singleWord fuel (word.push c) k.skip
    | [] => (word, k)

/-- Reads a single-quoted scalar behind its opening quote. -/
def singleFrom? : (fuel : Nat) → String → Cursor → Option (String × Cursor)
  | 0, _, _ => none
  | fuel + 1, text, k =>
    if k.atBoundary || k.rest.isEmpty then none
    else
      let (word, k) := singleWord (k.size + 1) "" k
      if k.startsWith '\'' then some (text ++ word, k.skip)
      else do
        let (g, k) ← Gap.read? 0 (k.size + 1) {} k
        singleFrom? fuel (text ++ word ++ g.fold) k

/-- The characters that stand behind a backslash for others. -/
def escaped? : Char → Option Char
  | '0' => some '\x00'
  | 'a' => some '\x07'
  | 'b' => some '\x08'
  | 't' | '\t' => some '\t'
  | 'n' => some '\n'
  | 'v' => some '\x0b'
  | 'f' => some '\x0c'
  | 'r' => some '\r'
  | 'e' => some '\x1b'
  | ' ' => some ' '
  | '"' => some '"'
  | '\'' => some '\''
  | '\\' => some '\\'
  | 'N' => some '\u0085'
  | '_' => some '\u00a0'
  | 'L' => some '\u2028'
  | 'P' => some '\u2029'
  | _ => none

/-- How many hexadecimal digits follow the letter of an escape. -/
def escapeLength? : Char → Option Nat
  | 'x' => some 2
  | 'u' => some 4
  | 'U' => some 8
  | _ => none

/-- The value of a hexadecimal digit. -/
def hexDigit? (c : Char) : Option Nat :=
  if c.isDigit then some (c.toNat - '0'.toNat)
  else if 'a' ≤ c ∧ c ≤ 'f' then some (c.toNat - 'a'.toNat + 10)
  else if 'A' ≤ c ∧ c ≤ 'F' then some (c.toNat - 'A'.toNat + 10)
  else none

/-- The character with a code in hexadecimal digits; surrogates are no characters. -/
def charOfCode? (digits : List Char) (length : Nat) : Option Char := do
  if digits.length != length then none
  let code ← digits.foldlM (fun n c => return 16 * n + (← hexDigit? c)) 0
  if code.isValidChar then some (Char.ofNat code) else none

/-- Reads the characters of a double-quoted scalar up to white space or the closing quote. The flag
tells that the end of the line is escaped. -/
def doubleWord? : (fuel : Nat) → String → Cursor → Option (String × Bool × Cursor)
  | 0, word, k => some (word, false, k)
  | fuel + 1, word, k =>
    match k.rest with
    | [] => some (word, false, k)
    | '\\' :: mark :: rest =>
      if isBreak mark then some (word, true, k.skip.skipBreak)
      else
        match escaped? mark with
        | some c => doubleWord? fuel (word.push c) (k.skipMany 2)
        | none => do
          let length ← escapeLength? mark
          let c ← charOfCode? (rest.take length) length
          doubleWord? fuel (word.push c) (k.skipMany (2 + length))
    | ['\\'] => none
    | c :: _ =>
      if isBlank c || isBreak c || c == '"' then some (word, false, k)
      else doubleWord? fuel (word.push c) k.skip

/-- Reads a double-quoted scalar behind its opening quote. -/
def doubleFrom? : (fuel : Nat) → String → Cursor → Option (String × Cursor)
  | 0, _, _ => none
  | fuel + 1, text, k =>
    if k.atBoundary || k.rest.isEmpty then none
    else do
      let (word, joined, k) ← doubleWord? (k.size + 1) "" k
      if k.startsWith '"' then return (text ++ word, k.skip)
      let (g, k) ← Gap.read? 0 (k.size + 1) { broken := joined } k
      doubleFrom? fuel (text ++ word ++ g.fold) k

/-- Reads a quoted scalar from its opening quote on. -/
def quoted? (k : Cursor) : Option (String × Cursor) :=
  if k.startsWith '"' then doubleFrom? (k.size + 1) "" k.skip
  else singleFrom? (k.size + 1) "" k.skip

/-- What becomes of the line ends behind a block scalar. -/
inductive Chomping where
  /-- The last line keeps its end. -/
  | clip
  /-- All line ends are dropped. -/
  | strip
  /-- All line ends are kept. -/
  | keep

/-- Reads the sign that says what becomes of the last line ends. -/
def chomping? (k : Cursor) : Option (Chomping × Cursor) :=
  if k.startsWith '+' then some (.keep, k.skip)
  else if k.startsWith '-' then some (.strip, k.skip)
  else none

/-- Reads the digit that says how far a block scalar is indented; it is not zero. -/
def increment? (k : Cursor) : Option (Option Nat × Cursor) :=
  match k.rest with
  | c :: _ =>
    if c == '0' then none
    else if c.isDigit then some (some (c.toNat - '0'.toNat), k.skip)
    else some (none, k)
  | [] => some (none, k)

/-- Reads the signs behind the mark of a block scalar, in any order. -/
def blockSigns? (k : Cursor) : Option (Chomping × Option Nat × Cursor) := do
  match chomping? k with
  | some (chomping, k) =>
    let (increment, k) ← increment? k
    return (chomping, increment, k)
  | none =>
    let (increment, k) ← increment? k
    match increment, chomping? k with
    | some _, some (chomping, k) => return (chomping, increment, k)
    | _, _ => return (.clip, increment, k)

/-- Reads the empty lines and the indentation before a line of a block scalar. Without an indentation
the deepest of these lines is reported. A tab must not stand in the indentation. -/
def blockBreaks? (indent : Option Nat) :
    (fuel deepest : Nat) → String → Cursor → Option (String × Nat × Cursor)
  | 0, _, _, _ => none
  | fuel + 1, deepest, breaks, k =>
    let shallow := fun column => indent.all (column < ·)
    let k := match indent with
      | none => k.skipWhile (· == ' ')
      | some indent => k.skipMany ((k.rest.take (indent - k.column)).takeWhile (· == ' ')).length
    let deepest := max deepest k.column
    if shallow k.column && k.startsWith '\t' then none
    else if k.atBreak then blockBreaks? indent fuel deepest (breaks ++ k.breakText) k.skipBreak
    else some (breaks, deepest, k)

/-- The lines of a block scalar that have been read. -/
structure BlockLines where
  text : String := ""
  /-- The end of the last line. -/
  lead : String := ""
  /-- The ends of the empty lines behind it. -/
  trail : String := ""
  /-- Whether the last line begins with a blank. -/
  indented : Bool := false

/-- Reads the lines of a block scalar. Lines that begin with a blank are not folded. -/
def blockLines? (literal : Bool) (indent : Nat) :
    (fuel : Nat) → BlockLines → Cursor → Option (BlockLines × Cursor)
  | 0, _, _ => none
  | fuel + 1, b, k =>
    if k.column != indent || k.rest.isEmpty then some (b, k)
    else do
      let indented := k.nextIs isBlank
      let joint :=
        if !literal && !b.indented && !indented && b.lead == "\n" then
          if b.trail.isEmpty then " " else ""
        else b.lead
      let (line, k) := k.takeWhile fun c => !isBreak c
      let lead := k.breakText
      let (trail, _, k) ← blockBreaks? (some indent) (k.size + 2) 0 "" k.skipBreak
      blockLines? literal indent fuel
        { text := b.text ++ joint ++ b.trail ++ line, lead, trail, indented } k

/-- Reads a block scalar from its mark on; `outer` is the indentation of the block around it. -/
def block? (outer : Int) (k : Cursor) : Option (String × Cursor) := do
  let literal := k.startsWith '|'
  let (chomping, increment, k) ← blockSigns? k.skip
  let k := k.skipWhile isBlank
  let k := if k.startsWith '#' then k.skipLine else k
  if !k.rest.isEmpty && !k.atBreak then none
  let k := k.skipBreak
  let least := (outer + 1).toNat
  let given := increment.map fun n => outer.toNat + n
  let (trail, deepest, k) ← blockBreaks? given (k.size + 2) 0 "" k
  let indent := given.getD (max deepest (max least 1))
  let (b, k) ← blockLines? literal indent (k.size + 2) { trail } k
  let text := match chomping with
    | .strip => b.text
    | .clip => b.text ++ b.lead
    | .keep => b.text ++ b.lead ++ b.trail
  return (text, k)

end Tuning.Yaml
