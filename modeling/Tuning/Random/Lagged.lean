import Tuning.Random.Table

/-! # The additive lagged generator

A state of 607 words; each step adds the word at one moving index to the word at another. -/

namespace Tuning.Random

/-- One step of the multiplicative congruential sequence modulo `2^31 - 1` that fills a new state. -/
def scramble (x : Int) : Int :=
  let next := 48271 * (x % 44488) - 3399 * (x / 44488)
  if next < 0 then next + 2147483647 else next

/-- The word made of the next three scrambled numbers, and the last of them. -/
def seedWord (x : Int) : UInt64 × Int :=
  let first := scramble x
  let second := scramble first
  let third := scramble second
  ((first.toNat.toUInt64 <<< 40) ^^^ (second.toNat.toUInt64 <<< 20) ^^^ third.toNat.toUInt64, third)

/-- A generator: its words and the two indices that move down through them. -/
structure Lagged where
  cells : Vector UInt64 607
  tap : Fin 607
  feed : Fin 607

namespace Lagged

/-- The start of the scrambled sequence for a seed: the seed modulo `2^31 - 1`, never zero. -/
def start (seed : Int64) : Int :=
  let rest := seed.toInt.tmod 2147483647
  let rest := if rest < 0 then rest + 2147483647 else rest
  if rest = 0 then 89482311 else rest

/-- The cells of a new state, one word after another, each mixed with its entry of the table. -/
def fill : (count : Nat) → (x : Int) → List UInt64 → Array UInt64
  | 0, _, done => done.reverse.toArray
  | count + 1, x, done =>
    let (word, x) := seedWord x
    fill count x ((word ^^^ additives.getD (606 - count) 0) :: done)

/-- The generator of a seed. -/
def ofSeed (seed : Int64) : Lagged :=
  let x := Nat.repeat scramble 20 (start seed)
  let cells := fill 607 x []
  { cells := Vector.ofFn fun i => cells.getD i 0, tap := 0, feed := 334 }

/-- The next word and the state after it. -/
def next (g : Lagged) : UInt64 × Lagged :=
  let tap := g.tap - 1
  let feed := g.feed - 1
  let word := g.cells[feed] + g.cells[tap]
  (word, { cells := g.cells.set feed word, tap, feed })

end Lagged

end Tuning.Random
