import Tuning.Objective.Basic

/-! # A landscape without structure

Every candidate has a fixed fitness in `[0, 1)` that depends on its document and a salt only. -/

namespace Tuning.Hashed

/-- Takes one byte into a 64-bit hash. -/
def mix (h : UInt64) (byte : UInt8) : UInt64 :=
  (h ^^^ byte.toUInt64) * 1099511628211

/-- The hash of a list of bytes. -/
def hash (bytes : List UInt8) : UInt64 :=
  bytes.foldl mix 14695981039346656037

/-- The bytes of a word, the lowest first. -/
def littleEndian (n : UInt64) : List UInt8 :=
  (List.range 8).map fun i => (n >>> UInt64.ofNat (8 * i)).toUInt8

/-- The upper 53 bits of a word as a fraction. -/
def fraction (n : UInt64) : Float :=
  Float.ofNat (n >>> 11).toNat / 9007199254740992.0

/-- The fitness of a candidate. -/
def score (salt : UInt64) (c : Candidate) : Except Failure Float :=
  match c.encode with
  | .error error => .error (.unencodable error)
  | .ok document =>
    .ok (fraction (hash (littleEndian salt ++ document.compact.toUTF8.toList)))

/-- The objective of a salt. -/
def objective (salt : UInt64) : Objective :=
  .checked "hashed" ("hashed/" ++ toString salt.toNat) (score salt)

end Tuning.Hashed
