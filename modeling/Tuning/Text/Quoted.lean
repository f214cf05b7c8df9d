import Tuning.Json.Printer
import Tuning.Text.Printable

/-! # Quoted texts in messages -/

namespace Tuning.Text

/-- The eight hexadecimal digits of a code point. -/
def longHex (n : Nat) : List Char :=
  Json.hexDigits (n / 65536) ++ Json.hexDigits (n % 65536)

/-- The form of one character between double quotes: what is not printable is spelled out. -/
def spell (c : Char) : List Char :=
  match c with
  | '"' => ['\\', '"']
  | '\\' => ['\\', '\\']
  | '\x07' => ['\\', 'a']
  | '\x08' => ['\\', 'b']
  | '\x0c' => ['\\', 'f']
  | '\n' => ['\\', 'n']
  | '\r' => ['\\', 'r']
  | '\t' => ['\\', 't']
  | '\x0b' => ['\\', 'v']
  | c =>
    if isPrintable c then [c]
    else if c.toNat < 0x80 then '\\' :: 'x' :: (Json.hexDigits c.toNat).drop 2
    else if c.toNat < 0x10000 then '\\' :: 'u' :: Json.hexDigits c.toNat
    else '\\' :: 'U' :: longHex c.toNat

/-- A text between double quotes. -/
def quoted (s : String) : String :=
  String.ofList ('"' :: s.toList.flatMap spell ++ ['"'])

/-- A character between single quotes. -/
def quotedChar (c : Char) : String :=
  let body := if c = '\x27' then ['\\', c] else if c = '"' then [c] else spell c
  String.ofList ('\x27' :: body ++ ['\x27'])

end Tuning.Text
