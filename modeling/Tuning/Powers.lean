/-! # Powers

Powers of numbers are those of the standard library, also in a scope that has others. -/

namespace Tuning.Powers

scoped instance (priority := high) standard {α : Type} [NatPow α] : Pow α Nat :=
  instPowNat

end Tuning.Powers
