import Tuning.Yaml.Text

/-! # Tokens of a document

Besides the marks that are written, a document has tokens for the blocks that its indentation opens
and closes, and for keys that are only recognised by the colon behind them. -/

namespace Tuning.Yaml

/-- What a token is. -/
inductive Token.Kind where
  | streamStart
  | streamEnd
  /-- A directive that declares the version of the language. -/
  | version (major minor : Nat)
  /-- A directive that declares what a tag handle stands for. -/
  | tagHandle (handle meaning : List UInt8)
  | documentStart
  | documentEnd
  | blockSequenceStart
  | blockMappingStart
  | blockEnd
  | flowSequenceStart
  | flowSequenceEnd
  | flowMappingStart
  | flowMappingEnd
  | blockEntry
  | flowEntry
  | key
  | value
  /-- A mention of a named node. -/
  | mention (name : String)
  /-- The name of the node that follows. -/
  | anchor (name : String)
  /-- The tag of the node that follows: a handle, which is empty for a tag written out, and the rest. -/
  | tag (handle suffix : List UInt8)
  /-- A scalar; a plain one has its meaning by its text. -/
  | scalar (plain : Bool) (text : String)
  deriving DecidableEq, Repr

/-- A token and the line it begins on. -/
structure Token where
  line : Nat
  kind : Token.Kind
  deriving DecidableEq, Repr

/-- Characters of names. -/
def isNameChar (c : Char) : Bool :=
  c.isAlphanum || c == '_' || c == '-'

/-- Reads the name of a node behind its mark. -/
def nodeName? (k : Cursor) : Option (String × Cursor) :=
  let (name, k) := k.takeWhile isNameChar
  if name.isEmpty || !(k.atGap || k.nextIs "?:,]\x7d%@`".toList.contains) then none
  else some (name, k)

/-- The bytes of a text. -/
def bytesOf (text : String) : List UInt8 :=
  text.toUTF8.toList

/-- Characters of tags; a percent sign begins a byte in hexadecimal digits. -/
def isTagChar (c : Char) : Bool :=
  isNameChar c || ";/?:@&=+$.,!~*'()[]%".toList.contains c

/-- The length of a character that begins with a byte. -/
def widthOf? (lead : Nat) : Option Nat :=
  if lead < 0x80 then some 1
  else if 0xc0 ≤ lead && lead < 0xe0 then some 2
  else if 0xe0 ≤ lead && lead < 0xf0 then some 3
  else if 0xf0 ≤ lead && lead < 0xf8 then some 4
  else none

/-- Reads a byte in hexadecimal digits. -/
def escapedByte? (k : Cursor) : Option (Nat × Cursor) := do
  match k.rest with
  | '%' :: a :: b :: _ => return (16 * (← hexDigit? a) + (← hexDigit? b), k.skipMany 3)
  | _ => none

/-- Reads the bytes behind the first one of a character. -/
def escapedTail? : (count : Nat) → List UInt8 → Cursor → Option (List UInt8 × Cursor)
  | 0, bytes, k => some (bytes, k)
  | count + 1, bytes, k => do
    let (byte, k) ← escapedByte? k
    if byte / 64 != 2 then none
    escapedTail? count (bytes ++ [byte.toUInt8]) k

/-- Reads a character whose bytes are written in hexadecimal digits. -/
def escapedChar? (k : Cursor) : Option (List UInt8 × Cursor) := do
  let (lead, k) ← escapedByte? k
  let width ← widthOf? lead
  escapedTail? (width - 1) [lead.toUInt8] k

/-- Reads the characters of a tag. -/
def tagText? : (fuel : Nat) → List UInt8 → Cursor → Option (List UInt8 × Cursor)
  | 0, bytes, k => some (bytes, k)
  | fuel + 1, bytes, k =>
    match k.rest with
    | '%' :: _ => do
      let (more, k) ← escapedChar? k
      tagText? fuel (bytes ++ more) k
    | c :: _ =>
      if isTagChar c then tagText? fuel (bytes ++ bytesOf c.toString) k.skip else some (bytes, k)
    | [] => some (bytes, k)

/-- Reads the characters of a tag, of which there is at least one. -/
def tagSuffix? (k : Cursor) : Option (List UInt8 × Cursor) := do
  let (bytes, rest) ← tagText? (k.size + 1) [] k
  if rest.index == k.index then none
  return (bytes, rest)

/-- Reads an exclamation mark, a name and perhaps a second exclamation mark. -/
def tagHandle? (k : Cursor) : Option (String × Cursor) :=
  if !k.startsWith '!' then none
  else
    let (name, k) := k.skip.takeWhile isNameChar
    if k.startsWith '!' then some ("!" ++ name ++ "!", k.skip) else some ("!" ++ name, k)

/-- Reads a tag without regard to what follows. -/
def tagParts? (k : Cursor) : Option (List UInt8 × List UInt8 × Cursor) := do
  if k.rest.take 2 == ['!', '<'] then
    let (suffix, k) ← tagSuffix? (k.skipMany 2)
    if !k.startsWith '>' then none
    return ([], suffix, k.skip)
  let (handle, k) ← tagHandle? k
  if 1 < handle.length && handle.toList.getLast? == some '!' then
    let (suffix, k) ← tagSuffix? k
    return (bytesOf handle, suffix, k)
  let (suffix, k) ← tagText? (k.size + 1) (bytesOf (String.ofList (handle.toList.drop 1))) k
  if suffix.isEmpty then return ([], bytesOf "!", k)
  return (bytesOf "!", suffix, k)

/-- Reads a tag, which ends with white space. -/
def tag? (k : Cursor) : Option (List UInt8 × List UInt8 × Cursor) := do
  let (handle, suffix, k) ← tagParts? k
  if k.atGap then return (handle, suffix, k) else none

/-- Reads a number of one or two digits. -/
def versionNumber? (k : Cursor) : Option (Nat × Cursor) :=
  let (digits, k) := k.takeWhile Char.isDigit
  if digits.isEmpty || 2 < digits.length then none else digits.toNat?.map (·, k)

/-- Reads what a directive declares. -/
def directiveKind? (name : String) (k : Cursor) : Option (Token.Kind × Cursor) := do
  let k := k.skipWhile isBlank
  if name == "YAML" then
    let (major, k) ← versionNumber? k
    if !k.startsWith '.' then none
    let (minor, k) ← versionNumber? k.skip
    return (.version major minor, k)
  else if name == "TAG" then
    let (handle, k) ← tagHandle? k
    if handle != "!" && handle.toList.getLast? != some '!' then none
    if !k.nextIs isBlank then none
    let (meaning, k) ← tagSuffix? (k.skipWhile isBlank)
    if !k.atGap then none
    return (.tagHandle (bytesOf handle) meaning, k)
  else none

/-- Reads a directive with the end of its line. -/
def directive? (k : Cursor) : Option (Token.Kind × Cursor) := do
  let (name, k) := k.skip.takeWhile isNameChar
  if name.isEmpty || !k.atGap then none
  let (kind, k) ← directiveKind? name k
  let k := k.skipWhile isBlank
  let k := if k.startsWith '#' then k.skipLine else k
  if k.rest.isEmpty then return (kind, k)
  if k.atBreak then return (kind, k.skipBreak) else none

end Tuning.Yaml
