import Tuning.Powers
import Tuning.Random.Lagged

/-! # Random draws

A source serves 63-bit words: first those of a script, then those of a generator. A computation that
draws is a state transformer on sources. A source has an allowance of words; a computation that asks
for more has no result, so loops that retry until a draw fits are total. -/

namespace Tuning

open scoped Powers

/-- Where random words come from, and how many have been taken. -/
structure Source where
  /-- Words served before the generator. -/
  script : List Nat := []
  stream : Random.Lagged
  /-- Words taken so far. -/
  drawn : Nat := 0
  /-- Words that may still be taken. -/
  allowance : Nat := 2 ^ (62 : Nat)

/-- A computation that takes words from a source, without result when the allowance is used up. -/
abbrev Draw := StateT Source Option

namespace Source

/-- The words for a search that was given no source. -/
def missing : String := "random source is required"

/-- The source of a seeded generator. -/
def ofSeed (seed : Int64) : Source :=
  { stream := Random.Lagged.ofSeed seed }

/-- The source that serves a script before a seeded generator. -/
def ofScript (script : List Nat) (seed : Int64) : Source :=
  { script, stream := Random.Lagged.ofSeed seed }

/-- The next word, below `2^63`, and the source after it. -/
def next (s : Source) : Option (Nat × Source) :=
  match s.allowance with
  | 0 => none
  | allowance + 1 =>
    match s.script with
    | word :: script => some (word, { s with script, drawn := s.drawn + 1, allowance })
    | [] =>
      let (word, stream) := s.stream.next
      some ((word &&& 0x7fffffffffffffff).toNat, { s with stream, drawn := s.drawn + 1, allowance })

end Source

namespace Draw

/-- Draws one word. -/
def word : Draw Nat := Source.next

/-- Repeats a draw until its value is accepted, `fuel` times at most. -/
def retry {α : Type} (draw : Draw α) (accept : α → Bool) : (fuel : Nat) → Draw α
  | 0 => failure
  | fuel + 1 => do
    let value ← draw
    if accept value then return value else retry draw accept fuel

/-- Repeats a draw that takes a word each time until its value is accepted. The allowance bounds the
repetitions. -/
def firstThat {α : Type} (accept : α → Bool) (draw : Draw α) : Draw α := do
  retry draw accept ((← get).allowance + 1)

/-- Whether a positive number is a power of two. -/
def powerOfTwo (n : Nat) : Bool :=
  n &&& (n - 1) == 0

/-- A number below `n` made of words of `2^bits` values: a mask for powers of two, else the remainder
of the first word in the largest multiple of `n`. -/
def uniformBelow (draw : Draw Nat) (bits n : Nat) : Draw Nat :=
  if powerOfTwo n then
    return (← draw) &&& (n - 1)
  else do
    let last := 2 ^ bits - 1 - 2 ^ bits % n
    return (← firstThat (· ≤ last) draw) % n

/-- The upper 31 bits of a word. -/
def half : Draw Nat :=
  return (← word) >>> 32

/-- A number below a positive `n`; bounds that fit into 31 bits use the upper halves of words. -/
def below (n : Nat) : Draw Nat :=
  if n < 2 ^ (31 : Nat) then uniformBelow half 31 n else uniformBelow word 63 n

/-- A fraction in `[0, 1)`: a word over `2^63`, drawn again when that rounds to one. -/
def fraction : Draw Float :=
  firstThat (· != 1.0) do return (← word).toUInt64.toFloat / 9223372036854775808.0

end Draw

end Tuning
