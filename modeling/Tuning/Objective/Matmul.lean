import Tuning.Objective.Basic

/-! # A model of tiled matrix multiplication

The sides of the matrices are the products of `tile_x`, `tile_y` and `tile_k`. The last slot of
`tile_x` and of `tile_y` is the block that a thread keeps in registers, the last but one the layout of
threads, and the last slot of `tile_k` the depth staged in shared memory. -/

namespace Tuning.Matmul

/-- The modelled device. -/
structure Device where
  /-- Throughput of a perfect tiling. -/
  peak : Float := 4000
  /-- Accumulators of a thread. -/
  registers : Int64 := 64
  /-- The preferred number of threads in a block. -/
  threads : Int64 := 256
  /-- Memory shared by a block, in bytes. -/
  shared : Int64 := 49152
  /-- The gain of unrolled loops. -/
  gain : Float := 1.1

/-- What a device is known by. -/
def Device.text (d : Device) : String :=
  "\x7bPeakGFLOPS:" ++ messageNumber d.peak ++ " Registers:" ++ toString d.registers.toInt
    ++ " ThreadsPerBlock:" ++ toString d.threads.toInt ++ " SharedBytes:" ++ toString d.shared.toInt
    ++ " UnrollGain:" ++ messageNumber d.gain ++ "\x7d"

/-- A word as the nearest double. -/
def real (n : Int64) : Float :=
  Float.ofInt n.toInt

/-- The slot `i` places from the end; where there is none it is one. -/
def slot (tiles : List Int64) (i : Nat) : Int64 :=
  tiles.reverse.getD i 1

/-- The product of all slots. -/
def side (tiles : List Int64) : Int64 :=
  tiles.foldl (· * ·) 1

/-- The sizes that a tiling asks of a device. -/
structure Demand where
  /-- Accumulators of a thread. -/
  registers : Int64
  /-- Threads of a block. -/
  threads : Int64
  /-- Rows that a block works on. -/
  rows : Int64
  /-- Columns that a block works on. -/
  columns : Int64
  /-- Depth staged at a time. -/
  depth : Int64
  /-- Bytes staged at a time. -/
  footprint : Int64

/-- The sizes that a tiling asks for. -/
def demand (x y k : List Int64) : Demand :=
  let rows := slot x 0 * slot x 1
  let columns := slot y 0 * slot y 1
  let depth := slot k 0
  { registers := slot x 0 * slot y 0
    threads := slot x 1 * slot y 1
    rows, columns, depth
    footprint := 4 * depth * (rows + columns) }

/-- Use of the registers: spilling costs more than leaving some idle. -/
def registerFactor (d : Device) (n : Demand) : Float :=
  if n.registers ≤ d.registers then (real n.registers / real d.registers).sqrt
  else real d.registers / real n.registers

/-- Use of the threads. -/
def threadFactor (d : Device) (n : Demand) : Float :=
  if n.threads ≤ d.threads then real n.threads / real d.threads
  else (real d.threads / real n.threads).sqrt

/-- Every loop out of its place costs a tenth. -/
def orderFactor (order : List Int64) : Float :=
  order.zipIdx.foldl (fun p (v, i) => if v == Int64.ofNat i then p else p * 0.9) 1.0

/-- A share of the peak after the order of the loops: unrolled loops gain, and loops out of place cost. -/
def arranged (d : Device) (c : Candidate) (e : Float) : Float :=
  let e := match c.find? "unroll" with
    | some u => if u.message == "1" then e * d.gain else e
    | none => e
  match c.find? "reorder" with
  | some (.ints order) => e * orderFactor order
  | _ => e

/-- The share of the peak that a tiling reaches; the factors are multiplied one after another. -/
def efficiency (d : Device) (n : Demand) (c : Candidate) : Float :=
  let e := 1.0 * registerFactor d n
  let e := e * threadFactor d n
  let e := if d.shared < n.footprint then e * (real d.shared / real n.footprint) else e
  arranged d c (e * (real n.depth / real (n.depth + 2)))

/-- The modelled throughput of a tiling, or with `latency` the time that it takes. -/
def score (d : Device) (name : String) (latency : Bool) (c : Candidate) : Except Failure Float := do
  let x ← c.integers name "tile_x"
  let y ← c.integers name "tile_y"
  let k ← c.integers name "tile_k"
  let throughput := d.peak * efficiency d (demand x y k) c
  if latency then
    return 2.0 * real (side x) * real (side y) * real (side k) / (throughput * 1e9) * 1e3
  else return throughput

/-- The objective of throughput, or of latency. -/
def objective (d : Device) (latency : Bool) : Objective :=
  let name := if latency then "matmul-latency" else "matmul"
  .checked name (name ++ "/" ++ d.text) (score d name latency)

end Tuning.Matmul
