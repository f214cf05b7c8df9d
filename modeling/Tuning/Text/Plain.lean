/-! # Plain quotation

A text between double quotes in which only ASCII characters stand for themselves. -/

namespace Tuning.Text

/-- A byte as two hexadecimal digits behind a mark. -/
def byteMark (b : UInt8) : List Char :=
  ['\\', 'x', Nat.digitChar (b.toNat / 16), Nat.digitChar (b.toNat % 16)]

/-- The form of one character: quotes and backslashes are marked, and the bytes of control characters
and of characters beyond ASCII are spelled out. -/
def plainChar (c : Char) : List Char :=
  if c.toNat < 32 ∨ 127 < c.toNat then c.toString.toUTF8.toList.flatMap byteMark
  else if c = '"' ∨ c = '\\' then ['\\', c]
  else [c]

/-- A text between double quotes. -/
def plainQuoted (s : String) : String :=
  String.ofList (['"'] ++ s.toList.flatMap plainChar ++ ['"'])

end Tuning.Text
