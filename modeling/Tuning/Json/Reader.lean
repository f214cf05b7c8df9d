import Tuning.Json.Basic

/-! # Reading JSON

Readers take characters off the front of a list and return the rest. A text that is not JSON has no
value; no detail is kept. -/

namespace Tuning.Json

/-- White space between tokens. -/
def isBlank (c : Char) : Bool :=
  c == ' ' || c == '\t' || c == '\n' || c == '\r'

/-- Drops white space. -/
def skipBlanks (cs : List Char) : List Char :=
  cs.dropWhile isBlank

/-- The value of a hexadecimal digit. -/
def hexValue? (c : Char) : Option Nat :=
  if '0' ≤ c ∧ c ≤ '9' then some (c.toNat - '0'.toNat)
  else if 'a' ≤ c ∧ c ≤ 'f' then some (c.toNat - 'a'.toNat + 10)
  else if 'A' ≤ c ∧ c ≤ 'F' then some (c.toNat - 'A'.toNat + 10)
  else none

/-- The number that four hexadecimal digits make. -/
def unit? (a b c d : Char) : Option Nat := do
  return ((← hexValue? a) * 16 + (← hexValue? b)) * 256 + ((← hexValue? c) * 16 + (← hexValue? d))

/-- Whether a 16-bit unit is the first half of a pair. -/
def isLead (n : Nat) : Bool :=
  0xd800 ≤ n && n < 0xdc00

/-- Whether a 16-bit unit is the second half of a pair. -/
def isTrail (n : Nat) : Bool :=
  0xdc00 ≤ n && n < 0xe000

/-- The character of a lone unit; half a pair stands for the replacement character. -/
def unitChar (n : Nat) : Char :=
  if isLead n || isTrail n then '\ufffd' else Char.ofNat n

/-- The character of a pair of units. -/
def pairChar (lead trail : Nat) : Char :=
  Char.ofNat (0x10000 + (lead - 0xd800) * 1024 + (trail - 0xdc00))

/-- The character that a letter after a backslash stands for. -/
def shortEscape? : Char → Option Char
  | '"' => some '"'
  | '\\' => some '\\'
  | '/' => some '/'
  | 'b' => some '\x08'
  | 'f' => some '\x0c'
  | 'n' => some '\n'
  | 'r' => some '\r'
  | 't' => some '\t'
  | _ => none

/-- Adds the replacement character for a first half that stayed alone. -/
def settle (lead : Option Nat) (done : List Char) : List Char :=
  if lead.isSome then '\ufffd' :: done else done

/-- Reads the rest of a string literal after its opening quote. The characters read so far are kept in
reverse; `lead` holds a first half of a pair that waits for its second half. -/
def stringTail : (lead : Option Nat) → (done : List Char) → List Char → Option (List Char × List Char)
  | _, _, [] => none
  | lead, done, '"' :: rest => some ((settle lead done).reverse, rest)
  | lead, done, '\\' :: 'u' :: a :: b :: c :: d :: rest =>
    match unit? a b c d with
    | none => none
    | some n =>
      match lead with
      | some first =>
        if isTrail n then stringTail none (pairChar first n :: done) rest
        else if isLead n then stringTail (some n) ('\ufffd' :: done) rest
        else stringTail none (unitChar n :: '\ufffd' :: done) rest
      | none =>
        if isLead n then stringTail (some n) done rest
        else stringTail none (unitChar n :: done) rest
  | lead, done, '\\' :: c :: rest =>
    match shortEscape? c with
    | none => none
    | some c => stringTail none (c :: settle lead done) rest
  | lead, done, c :: rest =>
    if c.toNat < 0x20 || c == '\\' then none else stringTail none (c :: settle lead done) rest

/-- Splits digits off the front. -/
def spanDigits (cs : List Char) : List Char × List Char :=
  cs.span Char.isDigit

/-- Splits the whole part of a number off the front: zero, or digits that do not begin with zero. -/
def wholePart? : List Char → Option (List Char × List Char)
  | '0' :: rest => some (['0'], rest)
  | cs =>
    match spanDigits cs with
    | ([], _) => none
    | (ds, rest) => some (ds, rest)

/-- Splits the fraction of a number off the front, if it has one. -/
def fractionPart? : List Char → Option (List Char × List Char)
  | '.' :: cs =>
    match spanDigits cs with
    | ([], _) => none
    | (ds, rest) => some ('.' :: ds, rest)
  | cs => some ([], cs)

/-- Splits the exponent of a number off the front, if it has one. -/
def exponentPart? : List Char → Option (List Char × List Char)
  | c :: cs =>
    if c == 'e' || c == 'E' then
      let (sign, cs) := match cs with
        | '+' :: cs => (['+'], cs)
        | '-' :: cs => (['-'], cs)
        | cs => ([], cs)
      match spanDigits cs with
      | ([], _) => none
      | (ds, rest) => some (c :: sign ++ ds, rest)
    else some ([], c :: cs)
  | [] => some ([], [])

/-- Reads a number and keeps its text. -/
def number? (cs : List Char) : Option (Json × List Char) := do
  let (sign, cs) := match cs with
    | '-' :: cs => (['-'], cs)
    | cs => ([], cs)
  let (whole, cs) ← wholePart? cs
  let (fraction, cs) ← fractionPart? cs
  let (power, cs) ← exponentPart? cs
  return (number (String.ofList (sign ++ whole ++ fraction ++ power)), cs)

mutual

/-- Reads one value after white space, with arrays and objects up to a depth. -/
def value? : (fuel depth : Nat) → List Char → Option (Json × List Char)
  | 0, _, _ => none
  | fuel + 1, depth, cs =>
    match skipBlanks cs with
    | 'n' :: 'u' :: 'l' :: 'l' :: rest => some (null, rest)
    | 't' :: 'r' :: 'u' :: 'e' :: rest => some (bool true, rest)
    | 'f' :: 'a' :: 'l' :: 's' :: 'e' :: rest => some (bool false, rest)
    | '"' :: rest => (stringTail none [] rest).map fun (s, rest) => (string (String.ofList s), rest)
    | '[' :: rest =>
      if depth = 0 then none
      else match skipBlanks rest with
        | ']' :: rest => some (array [], rest)
        | rest => items? fuel (depth - 1) [] rest
    | '\x7b' :: rest =>
      if depth = 0 then none
      else match skipBlanks rest with
        | '\x7d' :: rest => some (object [], rest)
        | rest => fields? fuel (depth - 1) [] rest
    | rest => number? rest

/-- Reads the items of an array up to its end; the items read so far are kept in reverse. -/
def items? : (fuel depth : Nat) → (done : List Json) → List Char → Option (Json × List Char)
  | 0, _, _, _ => none
  | fuel + 1, depth, done, cs =>
    match value? fuel depth cs with
    | none => none
    | some (item, rest) =>
      match skipBlanks rest with
      | ',' :: rest => items? fuel depth (item :: done) rest
      | ']' :: rest => some (array (item :: done).reverse, rest)
      | _ => none

/-- Reads the fields of an object up to its end; the fields read so far are kept in reverse. -/
def fields? : (fuel depth : Nat) → (done : List (String × Json)) → List Char → Option (Json × List Char)
  | 0, _, _, _ => none
  | fuel + 1, depth, done, cs =>
    match skipBlanks cs with
    | '"' :: rest =>
      match stringTail none [] rest with
      | none => none
      | some (name, rest) =>
        match skipBlanks rest with
        | ':' :: rest =>
          match value? fuel depth rest with
          | none => none
          | some (value, rest) =>
            let done := (String.ofList name, value) :: done
            match skipBlanks rest with
            | ',' :: rest => fields? fuel depth done rest
            | '\x7d' :: rest => some (object done.reverse, rest)
            | _ => none
        | _ => none
    | _ => none

end

/-- Reads the first value of a text; each step takes at least one character. -/
def first? (cs : List Char) : Option (Json × List Char) :=
  value? (2 * cs.length + 2) maxDepth cs

/-- Reads a text that holds one value and white space. -/
def parse? (text : String) : Option Json :=
  match first? text.toList with
  | some (j, rest) => if (skipBlanks rest).isEmpty then some j else none
  | none => none

end Tuning.Json
