/-! # Bytes in base 64

Four characters of an alphabet of 64 stand for three bytes; the last group is filled up with equals
signs. Line ends are passed over. -/

namespace Tuning.Base64

/-- The value of a character of the alphabet. -/
def digit? (c : Char) : Option Nat :=
  if c.isUpper then some (c.toNat - 'A'.toNat)
  else if c.isLower then some (c.toNat - 'a'.toNat + 26)
  else if c.isDigit then some (c.toNat - '0'.toNat + 52)
  else if c == '+' then some 62
  else if c == '/' then some 63
  else none

/-- The first bytes of a number of three bytes. -/
def bytesOf (count n : Nat) : List UInt8 :=
  [(n / 65536).toUInt8, (n / 256 % 256).toUInt8, (n % 256).toUInt8].take count

/-- The bytes of groups of characters. -/
def groups? : List Char → Option (List UInt8)
  | [] => some []
  | [a, b, '=', '='] => do
    return bytesOf 1 (((← digit? a) * 64 + (← digit? b)) * 4096)
  | [a, b, c, '='] => do
    return bytesOf 2 ((((← digit? a) * 64 + (← digit? b)) * 64 + (← digit? c)) * 64)
  | a :: b :: c :: d :: rest => do
    let n := (((← digit? a) * 64 + (← digit? b)) * 64 + (← digit? c)) * 64 + (← digit? d)
    return bytesOf 3 n ++ (← groups? rest)
  | _ => none

/-- The bytes that a text stands for. -/
def decode? (text : String) : Option (List UInt8) :=
  groups? (text.toList.filter fun c => c != '\n' && c != '\r')

end Tuning.Base64
