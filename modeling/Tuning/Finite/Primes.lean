import Tuning.Powers

/-! # Prime factors of machine integers

Trial division in 64-bit arithmetic. The test that ends it multiplies the divisor with itself in the
same arithmetic, so the product may wrap around. -/

namespace Tuning.Finite

open scoped Powers

/-- Divides `n` by `p` as often as it can, `fuel` times at most; the divisors are put before `done`. -/
def divideOut (p : Int64) : (fuel : Nat) → (n : Int64) → (done : List Int64) → List Int64 × Int64
  | 0, n, done => (done, n)
  | fuel + 1, n, done =>
    if n % p == 0 then divideOut p fuel (n / p) (p :: done) else (done, n)

/-- Tries the divisors `p`, `p + 2` and so on while their squares do not exceed what is left. -/
def tryOdd : (fuel : Nat) → (p n : Int64) → (done : List Int64) → List Int64 × Int64
  | 0, _, n, done => (done, n)
  | fuel + 1, p, n, done =>
    if p * p ≤ n then
      if n % p == 0 then
        let (done, n) := divideOut p 64 n done
        tryOdd fuel (p + 2) n done
      else tryOdd fuel (p + 2) n done
    else (done, n)

/-- The prime factors of a number with repetition, in increasing order; numbers below two have none. -/
def primeFactors (n : Int64) : List Int64 :=
  let (done, n) := if 1 < n then divideOut 2 64 n [] else ([], n)
  let (done, n) := tryOdd (2 ^ (62 : Nat)) 3 n done
  (if 1 < n then n :: done else done).reverse

/-- The primes that divide a number, in increasing order. -/
def distinctPrimes (n : Int64) : List Int64 :=
  (primeFactors n).eraseReps

/-- The primes that divide a number with their multiplicities, in increasing order. -/
def primePowers (n : Int64) : List (Int64 × Nat) :=
  ((primeFactors n).splitBy (· == ·)).filterMap fun run => run.head?.map (·, run.length)

/-- Multiplies `done` with the base, as often as the exponent says. -/
def powerFrom (base : Int64) : (exponent : Nat) → (done : Int64) → Int64
  | 0, done => done
  | exponent + 1, done => powerFrom base exponent (done * base)

/-- A power in 64-bit arithmetic. -/
def power (base : Int64) (exponent : Nat) : Int64 :=
  powerFrom base exponent 1

end Tuning.Finite
