import Tuning.Json.Basic

/-! # Writing JSON

The compact text has no white space. The indented text puts every item on a line of its own. -/

namespace Tuning.Json

/-- A hexadecimal digit in lower case. -/
def hexDigit (n : Nat) : Char :=
  "0123456789abcdef".toList.getD n '0'

/-- The four hexadecimal digits of a number below `2^16`. -/
def hexDigits (n : Nat) : List Char :=
  [hexDigit (n / 4096 % 16), hexDigit (n / 256 % 16), hexDigit (n / 16 % 16), hexDigit (n % 16)]

/-- The written form of one character of a string: quotes, backslashes and control characters are
escaped, and so are the characters with a meaning in markup and the two line separators. -/
def escapeChar (c : Char) : List Char :=
  match c with
  | '"' => ['\\', '"']
  | '\\' => ['\\', '\\']
  | '\n' => ['\\', 'n']
  | '\r' => ['\\', 'r']
  | '\t' => ['\\', 't']
  | '\x08' => ['\\', 'b']
  | '\x0c' => ['\\', 'f']
  | c =>
    if c.toNat < 0x20 || c == '<' || c == '>' || c == '&' || c == '\u2028' || c == '\u2029' then
      '\\' :: 'u' :: hexDigits c.toNat
    else [c]

/-- A string literal. -/
def quote (s : String) : String :=
  String.ofList ('"' :: s.toList.flatMap escapeChar ++ ['"'])

/-- The written form of what is spelled: a byte that belongs to no character is written as the number
of the replacement character. -/
def escapeSpelled : Option Char → List Char
  | some c => escapeChar c
  | none => '\\' :: 'u' :: hexDigits 0xfffd

/-- The literal of a string with bytes that belong to no character. -/
def quoteSpelled (spelled : List (Option Char)) : String :=
  String.ofList ('"' :: spelled.flatMap escapeSpelled ++ ['"'])

mutual

/-- The compact text. -/
def compact : Json → String
  | null => "null"
  | bool b => if b then "true" else "false"
  | number text => text
  | string s => quote s
  | garbled spelled => quoteSpelled spelled
  | array items => "[" ++ ",".intercalate (compactItems items) ++ "]"
  | object fields => "\x7b" ++ ",".intercalate (compactFields fields) ++ "\x7d"

/-- The compact texts of the items of an array. -/
def compactItems : List Json → List String
  | [] => []
  | item :: rest => compact item :: compactItems rest

/-- The compact texts of the fields of an object. -/
def compactFields : List (String × Json) → List String
  | [] => []
  | (name, value) :: rest => (quote name ++ ":" ++ compact value) :: compactFields rest

end

/-- Lines between brackets, each indented by two blanks more than the brackets. -/
def bracketed (first last : String) (depth : Nat) : List String → String
  | [] => first ++ last
  | lines =>
    let pad := fun n => "\n" ++ String.ofList (List.replicate (2 * n) ' ')
    first ++ pad (depth + 1) ++ ("," ++ pad (depth + 1)).intercalate lines ++ pad depth ++ last

mutual

/-- The indented text at a depth. -/
def indentedAt (depth : Nat) : Json → String
  | array items => bracketed "[" "]" depth (indentedItems (depth + 1) items)
  | object fields => bracketed "\x7b" "\x7d" depth (indentedFields (depth + 1) fields)
  | other => compact other

/-- The indented texts of the items of an array. -/
def indentedItems (depth : Nat) : List Json → List String
  | [] => []
  | item :: rest => indentedAt depth item :: indentedItems depth rest

/-- The indented texts of the fields of an object. -/
def indentedFields (depth : Nat) : List (String × Json) → List String
  | [] => []
  | (name, value) :: rest =>
    (quote name ++ ": " ++ indentedAt depth value) :: indentedFields depth rest

end

/-- The indented text. -/
def indented (j : Json) : String :=
  j.indentedAt 0

end Tuning.Json
