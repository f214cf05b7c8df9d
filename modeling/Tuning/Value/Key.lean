import Tuning.Value.Basic

/-! # Values as keys

A mapping may have keys of several types. Keys of different types are never the same, and they are
ordered by their types first. -/

namespace Tuning.Value

/-- The place of a type in the order of keys; collections are no keys. -/
def keyRank : Value → Nat
  | null => 0
  | text _ | garbled _ => 1
  | unsigned .. => 2
  | signed .. => 3
  | int _ => 4
  | float _ => 5
  | single _ => 6
  | bool _ => 7
  | time .. => 8
  | ints _ | list _ | map _ | table _ => 9

/-- Whether a value can be a key. -/
def isKey (v : Value) : Bool :=
  v.keyRank < 9

/-- The bytes of a text. -/
def textBytes : Value → List UInt8
  | text s => s.toUTF8.toList
  | garbled s => s.bytes
  | _ => []

/-- Whether one key comes before another. Texts go by their bytes. Of numbers the ones that are none come
first, and moments go by their fractions of a second before anything else. -/
def keyBefore (a b : Value) : Bool :=
  match a, b with
  | text x, text y => x < y
  | text _, garbled _ | garbled _, text _ | garbled _, garbled _ => a.textBytes < b.textBytes
  | unsigned _ x, unsigned _ y => x < y
  | int x, int y => x < y
  | float x, float y => x < y || (x.isNaN && !y.isNaN)
  | bool x, bool y => !x && y
  | time x zone, time y zone' =>
    x.nanoseconds < y.nanoseconds || (x.nanoseconds == y.nanoseconds &&
      (x.seconds < y.seconds || (x.seconds == y.seconds &&
        (zone.isNone && zone'.isSome || (zone.isSome == zone'.isSome &&
          (x.offset < y.offset || (x.offset == y.offset && zone.getD 0 < zone'.getD 0)))))))
  | a, b => a.keyRank < b.keyRank

/-- Whether two keys are the same; what is not a number is not even the same as itself. -/
def sameKey (a b : Value) : Bool :=
  a.keyRank == b.keyRank && !a.keyBefore b && !b.keyBefore a &&
    match a with
    | float x => !x.isNaN
    | _ => true

/-- Sets a key of a mapping whose keys increase; an entry it already has is replaced. -/
def insertEntry (key value : Value) : List (Value × Value) → List (Value × Value)
  | [] => [(key, value)]
  | (other, x) :: rest =>
    if key.sameKey other then (key, value) :: rest
    else if key.keyBefore other then (key, value) :: (other, x) :: rest
    else (other, x) :: insertEntry key value rest

end Tuning.Value
