import Tuning.Value.Document

/-! # Statistics of fitness -/

namespace Tuning

/-- A summary of measured fitness. -/
structure Stats where
  count : Int64 := 0
  mean : Float := 0
  stdDev : Float := 0
  min : Float := 0
  max : Float := 0

namespace Stats

/-- The sum from left to right. -/
def sum (xs : List Float) : Float :=
  xs.foldl (· + ·) 0.0

/-- The first number that no other one comes before; numbers that are not comparable are passed over
while there are others. -/
def extreme (before : Float → Float → Bool) : List Float → Float
  | [] => 0.0
  | x :: rest =>
    rest.foldl (fun least y =>
      if y.isNaN then least else if least.isNaN || before y least then y else least) x

/-- The sample standard deviation, with a correction for the rounding of the mean. -/
def deviation (xs : List Float) (mean : Float) : Float :=
  let n := Float.ofNat xs.length
  let squares := xs.foldl (fun s x => s + (x - mean) * (x - mean)) 0.0
  let residue := xs.foldl (fun s x => s + (x - mean)) 0.0
  ((squares - residue * residue / n) / (n - 1.0)).sqrt

/-- The summary of a list of numbers. -/
def of (xs : List Float) : Stats :=
  if xs.isEmpty then {}
  else
    let mean := sum xs / Float.ofNat xs.length
    { count := Int64.ofNat xs.length
      mean
      stdDev := if 1 < xs.length then deviation xs mean else 0.0
      min := extreme (fun x y => x < y) xs
      max := extreme (fun x y => y < x) xs }

/-- The fields of the document of a summary. -/
def fields : List (Json.Field Stats) :=
  [.of "count" Json.word? fun x s => { s with count := x },
    .of "mean" Json.float? fun x s => { s with mean := x },
    .of "stdDev" Json.float? fun x s => { s with stdDev := x },
    .of "min" Json.float? fun x s => { s with min := x },
    .of "max" Json.float? fun x s => { s with max := x }]

/-- The document of a summary. -/
def encode (s : Stats) : Except EncodeError Json := do
  return .object
    [("count", .int s.count.toInt), ("mean", ← encodeFloat s.mean), ("stdDev", ← encodeFloat s.stdDev),
      ("min", ← encodeFloat s.min), ("max", ← encodeFloat s.max)]

end Stats

end Tuning
