import Tuning.Powers

/-! # Texts from bytes

Bytes that come from outside need not be the bytes of a text. A byte that belongs to no character is
shown as the replacement character. -/

namespace Tuning

open scoped Powers

namespace Text

/-- How many bytes follow the first byte of a character, and the least character of that length. -/
def tailLength? (lead : Nat) : Option (Nat × Nat) :=
  if 0xc2 ≤ lead && lead < 0xe0 then some (1, 0x80)
  else if 0xe0 ≤ lead && lead < 0xf0 then some (2, 0x800)
  else if 0xf0 ≤ lead && lead < 0xf5 then some (3, 0x10000)
  else none

/-- The character that some bytes begin with, and the number of its bytes. -/
def firstChar? : List UInt8 → Option (Char × Nat)
  | [] => none
  | b :: rest =>
    if b.toNat < 0x80 then some (Char.ofNat b.toNat, 1)
    else do
      let (count, least) ← tailLength? b.toNat
      let tail := (rest.take count).map (·.toNat)
      if tail.length != count || !tail.all (· / 64 == 2) then none
      let code := tail.foldl (fun n b => 64 * n + b % 64) (b.toNat % 2 ^ (6 - count))
      if code < least || !decide code.isValidChar then none
      return (Char.ofNat code, count + 1)

/-- What bytes spell: their characters, and none for each byte that belongs to no character. -/
def spellFrom : (fuel : Nat) → List UInt8 → List (Option Char)
  | 0, _ => []
  | _, [] => []
  | fuel + 1, b :: rest =>
    match firstChar? (b :: rest) with
    | some (c, count) => some c :: spellFrom fuel (rest.drop (count - 1))
    | none => none :: spellFrom fuel rest

/-- What some bytes spell; each character takes at least one byte. -/
def spelled (bytes : List UInt8) : List (Option Char) :=
  spellFrom bytes.length bytes

/-- The text that shows what is spelled. -/
def shown (spelled : List (Option Char)) : String :=
  String.ofList (spelled.map (·.getD '\ufffd'))

/-- The text of some bytes. -/
def ofBytes (bytes : List UInt8) : String :=
  shown (spelled bytes)

end Text

/-- A text that is not Unicode: some of its bytes belong to no character. -/
structure Garbled where
  bytes : List UInt8
  stray : none ∈ Text.spelled bytes
  deriving DecidableEq

end Tuning
