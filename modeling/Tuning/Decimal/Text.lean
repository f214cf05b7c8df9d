import Tuning.Decimal.Shortest
import Tuning.Decimal.Rounded

/-! # Texts of floating-point numbers -/

namespace Tuning

/-- Where a number text changes between positional and scientific notation. -/
structure NumberFormat where
  /-- The least exponent of the first digit that is written positionally. -/
  least : Int
  /-- The first exponent from which on scientific notation is used again. -/
  limit : Int
  /-- The least number of digits of a written exponent. -/
  exponentWidth : Nat

namespace NumberFormat

/-- Writes a decimal in this format. -/
def write (f : NumberFormat) (negative : Bool) (d : Decimal) : String :=
  let body :=
    if d.coefficient = 0 ∨ (f.least ≤ d.exponent ∧ d.exponent < f.limit) then d.positional
    else d.scientific f.exponentWidth
  if negative then "-" ++ body else body

/-- Writes a binary number with the decimal that `pick` chooses for its absolute value. -/
def render (f : NumberFormat) (pick : Nat → Int → Bool → Decimal) : Binary → String
  | .nan => "NaN"
  | .infinite negative => if negative then "-Inf" else "+Inf"
  | .finite negative mantissa exponent narrow => f.write negative (pick mantissa exponent narrow)

/-- Numbers in messages: positional from `0.0001` up to six digits before the point. -/
def message : NumberFormat := ⟨-4, 6, 2⟩

/-- Numbers in documents: positional from `0.000001` up to twenty-one digits before the point. -/
def document : NumberFormat := ⟨-6, 21, 1⟩

end NumberFormat

/-- The text of a double in messages. -/
def messageNumber (x : Float) : String :=
  NumberFormat.message.render Decimal.shortest (.ofFloat x)

/-- The text of a single-precision number in messages. -/
def messageSingle (x : Float32) : String :=
  NumberFormat.message.render Decimal.shortest (.ofSingle x)

/-- The text of a double rounded to `count` significant digits. -/
def significantNumber (count : Nat) (x : Float) : String :=
  NumberFormat.render ⟨-4, count, 2⟩ (fun m e _ => Decimal.significant m e count) (.ofFloat x)

/-- The text of a double with exactly `places` digits behind the point. -/
def fixedNumber (places : Nat) (x : Float) : String :=
  match Binary.ofFloat x with
  | .nan => "NaN"
  | .infinite negative => if negative then "-Inf" else "+Inf"
  | .finite negative mantissa exponent _ =>
    (if negative then "-" else "") ++ (Decimal.fixed mantissa exponent places).positional

/-- The text of a double in documents: the fewest digits that read back. Documents have no text for
what is not finite; those get the text of messages. -/
def documentNumber (x : Float) : String :=
  NumberFormat.document.render Decimal.shortest (.ofFloat x)

/-- The text of a single-precision number in documents. -/
def documentSingle (x : Float32) : String :=
  NumberFormat.document.render Decimal.shortest (.ofSingle x)

end Tuning
