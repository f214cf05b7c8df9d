/-! # Random ids

A random id is sixteen bytes in hexadecimal, in five groups. Six of its bits say that it is random. -/

namespace Tuning.Uuid

/-- Sets the bits that mark a random id. -/
def mark (bytes : List Nat) : List Nat :=
  bytes.zipIdx.map fun (b, i) =>
    if i = 6 then b % 16 + 64 else if i = 8 then b % 64 + 128 else b

/-- The two digits of a byte, behind a dash at the start of a group. -/
def digits (b i : Nat) : List Char :=
  (if [4, 6, 8, 10].contains i then ['-'] else []) ++ [Nat.digitChar (b / 16 % 16), Nat.digitChar (b % 16)]

/-- The text of the id that random bytes give. -/
def text (bytes : List Nat) : String :=
  String.ofList ((mark bytes).zipIdx.flatMap fun (b, i) => digits b i)

end Tuning.Uuid
