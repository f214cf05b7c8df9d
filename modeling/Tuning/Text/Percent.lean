import Tuning.Json.Reader
import Tuning.Text.Bytes

/-! # Percent encoding

In a path a percent sign and two hexadecimal digits stand for a byte. -/

namespace Tuning.Percent

/-- The digits of a byte, with letters from the given one on. -/
def byte (ten : Char) (b : UInt8) : List Char :=
  let digit := fun (n : Nat) => Char.ofNat (if n < 10 then '0'.toNat + n else ten.toNat + (n - 10))
  ['%', digit (b.toNat / 16), digit (b.toNat % 16)]

/-- The bytes of an encoded text. -/
def bytes : List Char → List UInt8
  | '%' :: a :: b :: rest =>
    match Json.hexValue? a, Json.hexValue? b with
    | some x, some y => (16 * x + y).toUInt8 :: bytes rest
    | _, _ => '%'.toNat.toUInt8 :: bytes (a :: b :: rest)
  | c :: rest => c.toString.toUTF8.toList ++ bytes rest
  | [] => []

/-- The text that is encoded. -/
def decode (text : String) : String :=
  Text.ofBytes (bytes text.toList)

/-- Whether a character of a path stays as it is when the path is encoded. -/
def isPlain (c : Char) : Bool :=
  c.isAlphanum || "-_.~/$&+,:;=@".toList.contains c

/-- Whether a character may stand in an encoded path. -/
def isAllowed (c : Char) : Bool :=
  isPlain c || "!\x27()*[]%".toList.contains c

/-- A path in encoded form; one that has it already is not encoded anew. -/
def path (text : String) : String :=
  if text.toList.all isAllowed then text
  else
    String.ofList ((bytes text.toList).flatMap fun b =>
      let c := Char.ofNat b.toNat
      if b < 128 && isPlain c then [c] else byte 'A' b)

/-- A text with the bytes beyond ASCII encoded. -/
def ascii (text : String) : String :=
  String.ofList (text.toUTF8.toList.flatMap fun b =>
    if b < 128 then [Char.ofNat b.toNat] else byte 'a' b)

end Tuning.Percent
