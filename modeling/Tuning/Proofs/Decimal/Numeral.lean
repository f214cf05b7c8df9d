import Mathlib
import Tuning.Decimal.Reader
import Tuning.Decimal.Text

/-! # Numerals

The text of a number has an optional sign, digits before and behind a point, and an exponent. A reader
splits the text into these parts again, so that the number can be told from its text. -/

namespace Tuning

/-- The number that a decimal stands for. -/
def Decimal.value (d : Decimal) : ℚ :=
  d.coefficient * 10 ^ d.scale

/-! ## Digits -/

/-- A text does not go on with a character of a class. -/
def Stops (p : Char → Bool) (cs : List Char) : Prop :=
  ∀ c ∈ cs.head?, p c = false

theorem stops_nil (p : Char → Bool) : Stops p [] := by
  simp [Stops]

theorem stops_cons {p : Char → Bool} {c : Char} (h : p c = false) (cs : List Char) :
    Stops p (c :: cs) := by
  simpa [Stops] using h

/-- Taking characters of a class off the front ends where the text does not go on with the class. -/
theorem span_append {p : Char → Bool} {ds r : List Char} (hds : ∀ c ∈ ds, p c = true)
    (hr : Stops p r) : (ds ++ r).span p = (ds, r) := by
  have hrest : r.takeWhile p = [] ∧ r.dropWhile p = r := by
    cases r with
    | nil => simp
    | cons c cs =>
        have hc : p c = false := hr c (by simp)
        simp [hc]
  rw [List.span_eq_takeWhile_dropWhile, List.takeWhile_append_of_pos hds,
    List.dropWhile_append_of_pos hds, hrest.1, hrest.2, List.append_nil]

theorem natOfDigits_eq (ds : List Char) : natOfDigits ds = Nat.ofDigitChars 10 ds 0 :=
  rfl

theorem natOfDigits_append (ds es : List Char) :
    natOfDigits (ds ++ es) = natOfDigits ds * 10 ^ es.length + natOfDigits es := by
  rw [natOfDigits_eq, Nat.ofDigitChars_append, Nat.ofDigitChars_eq_ofDigitChars_zero, mul_comm]
  rfl

theorem natOfDigits_zeros (k : Nat) : natOfDigits (List.replicate k '0') = 0 := by
  rw [natOfDigits_eq, Nat.ofDigitChars_replicate_zero, mul_zero]

namespace Decimal

@[simp] theorem natOfDigits_digits (n : Nat) : natOfDigits (digits n) = n :=
  Nat.ofDigitChars_ten_toDigits

theorem isDigit_of_mem_digits {n : Nat} {c : Char} (h : c ∈ digits n) : c.isDigit = true :=
  Nat.isDigit_of_mem_toDigits (by decide) (by decide) h

theorem digits_ne_nil (n : Nat) : digits n ≠ [] :=
  Nat.toDigits_ne_nil

theorem width_pos (n : Nat) : 0 < width n :=
  Nat.length_toDigits_pos

/-- A positive number has no zero in front. -/
theorem head_digits {n : Nat} (h : 0 < n) : (digits n).head? ≠ some '0' := by
  unfold digits
  induction n using Nat.strong_induction_on with
  | _ n ih =>
      rcases Nat.lt_or_ge n 10 with hn | hn
      · have hdigit : ∀ k < 10, 0 < k → k.digitChar ≠ '0' := by decide
        rw [Nat.toDigits_of_lt_base hn]
        simpa using hdigit n hn h
      · rw [Nat.toDigits_of_base_le (by decide) hn, List.head?_append_of_ne_nil _ Nat.toDigits_ne_nil]
        exact ih (n / 10) (by omega) (by omega)

end Decimal

/-! ## The parts of a text -/

/-- The parts of the text of a number. -/
structure Numeral where
  negative : Bool
  whole : List Char
  fraction : List Char
  /-- The sign and the digits of the exponent. -/
  power : Option (Bool × List Char)

namespace Numeral

def signText (n : Numeral) : List Char :=
  if n.negative then ['-'] else []

def fractionText (n : Numeral) : List Char :=
  if n.fraction = [] then [] else '.' :: n.fraction

def powerText (n : Numeral) : List Char :=
  match n.power with
  | none => []
  | some (negative, ds) => 'e' :: (if negative then '-' else '+') :: ds

/-- The text without the sign. -/
def magnitude (n : Numeral) : List Char :=
  n.whole ++ (n.fractionText ++ n.powerText)

def text (n : Numeral) : List Char :=
  n.signText ++ n.magnitude

/-- Every part is made of digits, and no zero stands in front of another digit. -/
structure Valid (n : Numeral) : Prop where
  whole_ne_nil : n.whole ≠ []
  whole_digits : ∀ c ∈ n.whole, c.isDigit = true
  lead : n.whole = ['0'] ∨ n.whole.head? ≠ some '0'
  fraction_digits : ∀ c ∈ n.fraction, c.isDigit = true
  power_ne_nil : ∀ negative ds, n.power = some (negative, ds) → ds ≠ []
  power_digits : ∀ negative ds, n.power = some (negative, ds) → ∀ c ∈ ds, c.isDigit = true

/-- The exponent. -/
def exponent (n : Numeral) : Int :=
  match n.power with
  | none => 0
  | some (negative, ds) => if negative then -(natOfDigits ds : Int) else natOfDigits ds

/-- The decimal that the digits make. -/
def decimal (n : Numeral) : Decimal :=
  ⟨natOfDigits (n.whole ++ n.fraction), n.exponent - n.fraction.length⟩

variable {n m : Numeral}

theorem stops_powerText (n : Numeral) : Stops Char.isDigit n.powerText := by
  unfold powerText
  split
  · exact stops_nil _
  · exact stops_cons (by decide) _

theorem stops_fractionText (n : Numeral) : Stops Char.isDigit (n.fractionText ++ n.powerText) := by
  unfold fractionText
  split
  · exact n.stops_powerText
  · exact stops_cons (by decide) _

theorem Valid.exists_magnitude (h : n.Valid) :
    ∃ c cs, c.isDigit = true ∧ n.magnitude = c :: cs := by
  obtain ⟨c, cs, hw⟩ := List.exists_cons_of_ne_nil h.whole_ne_nil
  refine ⟨c, cs ++ (n.fractionText ++ n.powerText), h.whole_digits c (by simp [hw]), ?_⟩
  rw [magnitude, hw, List.cons_append]

/-- The sign can be told from the text. -/
theorem splitSign_text (h : n.Valid) : splitSign n.text = (n.negative, n.magnitude) := by
  obtain ⟨c, cs, hc, hcs⟩ := h.exists_magnitude
  unfold text signText
  cases n.negative
  · rw [hcs]
    simp only [Bool.false_eq_true, ↓reduceIte, List.nil_append]
    unfold splitSign
    split
    · next heq => simp only [List.cons.injEq] at heq; simp [heq.1] at hc
    · next heq => simp only [List.cons.injEq] at heq; simp [heq.1] at hc
    · rfl
  · rfl

theorem readPower?_powerText (h : n.Valid) : readPower? n.powerText = some n.exponent := by
  unfold powerText exponent
  rcases hp : n.power with _ | ⟨negative, ds⟩
  · rfl
  · have hds : ds.all Char.isDigit = true := List.all_eq_true.mpr (h.power_digits _ _ hp)
    have hne : ds.isEmpty = false := by simpa using h.power_ne_nil _ _ hp
    cases negative <;> simp [readPower?, splitSign, hds, hne]

/-- Reading the digits gives the decimal. -/
theorem readDecimal?_magnitude (h : n.Valid) : readDecimal? n.magnitude = some n.decimal := by
  have hwhole : n.magnitude.span Char.isDigit = (n.whole, n.fractionText ++ n.powerText) :=
    span_append h.whole_digits n.stops_fractionText
  have hne : n.whole.isEmpty = false := by simpa using h.whole_ne_nil
  have hpower := readPower?_powerText h
  unfold readDecimal?
  rw [hwhole]
  by_cases hf : n.fraction = []
  · have hrest : n.fractionText = [] := if_pos hf
    unfold powerText at hpower ⊢
    rcases hp : n.power with _ | ⟨negative, ds⟩ <;>
      · rw [hp] at hpower
        simp [hrest, hne, hpower, decimal, hf]
  · have hrest : n.fractionText = '.' :: n.fraction := if_neg hf
    have hspan : (n.fraction ++ n.powerText).span Char.isDigit = (n.fraction, n.powerText) :=
      span_append h.fraction_digits n.stops_powerText
    simp only [hrest, List.cons_append, hspan, hne, Bool.false_and, Bool.false_eq_true, ↓reduceIte,
      hpower]
    rfl

/-- A text has one sign and one decimal. -/
theorem eq_of_text_eq (hn : n.Valid) (hm : m.Valid) (h : n.text = m.text) :
    n.negative = m.negative ∧ n.decimal = m.decimal := by
  have hsplit : (n.negative, n.magnitude) = (m.negative, m.magnitude) := by
    rw [← splitSign_text hn, ← splitSign_text hm, h]
  obtain ⟨hneg, hmag⟩ := Prod.mk.inj hsplit
  refine ⟨hneg, Option.some.inj ?_⟩
  rw [← readDecimal?_magnitude hn, ← readDecimal?_magnitude hm, hmag]

end Numeral

/-! ## Written numbers -/

/-- A text is a numeral with a sign and an absolute value. -/
def Denotes (text : String) (negative : Bool) (value : ℚ) : Prop :=
  ∃ n : Numeral, n.Valid ∧ n.text = text.toList ∧ n.negative = negative ∧ n.decimal.value = value

/-- A text denotes one number. -/
theorem Denotes.unique {text : String} {a b : Bool} {v w : ℚ} (hv : Denotes text a v)
    (hw : Denotes text b w) : a = b ∧ v = w := by
  obtain ⟨n, hn, hntext, rfl, rfl⟩ := hv
  obtain ⟨m, hm, hmtext, rfl, rfl⟩ := hw
  obtain ⟨hneg, hdec⟩ := Numeral.eq_of_text_eq hn hm (hntext.trans hmtext.symm)
  exact ⟨hneg, congrArg Decimal.value hdec⟩

theorem Denotes.neg {text : String} {v : ℚ} (h : Denotes text false v) :
    Denotes ("-" ++ text) true v := by
  obtain ⟨n, hn, htext, hneg, rfl⟩ := h
  refine ⟨{ n with negative := true }, ⟨hn.1, hn.2, hn.3, hn.4, hn.5, hn.6⟩, ?_, rfl, rfl⟩
  rw [String.toList_append, ← htext]
  simp [Numeral.text, Numeral.signText, hneg, Numeral.magnitude, Numeral.fractionText,
    Numeral.powerText]

namespace Decimal

theorem lead_digits (n : Nat) : digits n = ['0'] ∨ (digits n).head? ≠ some '0' := by
  rcases Nat.eq_zero_or_pos n with rfl | h
  · exact .inl (Nat.toDigits_zero 10)
  · exact .inr (head_digits h)

theorem natOfDigits_padded (k n : Nat) : natOfDigits (List.replicate k '0' ++ digits n) = n := by
  rw [natOfDigits_append, natOfDigits_zeros, natOfDigits_digits, zero_mul, zero_add]

theorem isDigit_of_mem_padded {k n : Nat} {c : Char} (h : c ∈ List.replicate k '0' ++ digits n) :
    c.isDigit = true := by
  rcases List.mem_append.mp h with h | h
  · rw [List.eq_of_mem_replicate h]
    decide
  · exact isDigit_of_mem_digits h

/-- Digits with zeros behind them. -/
theorem denotes_whole (n k : Nat) (h : 0 < n ∨ k = 0) :
    Denotes (String.ofList (digits n ++ List.replicate k '0')) false (n * 10 ^ k) := by
  refine ⟨⟨false, digits n ++ List.replicate k '0', [], none⟩, ⟨?_, ?_, ?_, ?_, ?_, ?_⟩, ?_, rfl, ?_⟩
  · simp [digits_ne_nil]
  · intro c hc
    rcases List.mem_append.mp hc with hc | hc
    · exact isDigit_of_mem_digits hc
    · rw [List.eq_of_mem_replicate hc]
      decide
  · rcases h with h | rfl
    · right
      rw [List.head?_append_of_ne_nil _ (digits_ne_nil n)]
      exact head_digits h
    · simpa using lead_digits n
  · simp
  · simp
  · simp
  · simp [Numeral.text, Numeral.signText, Numeral.magnitude, Numeral.fractionText, Numeral.powerText]
  · simp [Numeral.decimal, Numeral.exponent, value, natOfDigits_append, natOfDigits_zeros]

/-- Digits on both sides of a point. -/
theorem denotes_point {n k : Nat} (hn : 0 < n) (hk : 0 < k) (hlt : k < width n) :
    Denotes (String.ofList ((digits n).take (width n - k) ++ '.' :: (digits n).drop (width n - k)))
      false (n * 10 ^ (-k : Int)) := by
  have hlen : (digits n).length = width n := rfl
  refine ⟨⟨false, (digits n).take (width n - k), (digits n).drop (width n - k), none⟩,
    ⟨?_, ?_, ?_, ?_, ?_, ?_⟩, ?_, rfl, ?_⟩
  · simp only [ne_eq, List.take_eq_nil_iff, digits_ne_nil, or_false]
    omega
  · exact fun c hc => isDigit_of_mem_digits (List.mem_of_mem_take hc)
  · right
    rw [List.head?_take, if_neg (by omega)]
    exact head_digits hn
  · exact fun c hc => isDigit_of_mem_digits (List.mem_of_mem_drop hc)
  · simp
  · simp
  · have hdrop : (digits n).drop (width n - k) ≠ [] := by
      simp only [ne_eq, List.drop_eq_nil_iff]
      omega
    simp [Numeral.text, Numeral.signText, Numeral.magnitude, Numeral.fractionText,
      Numeral.powerText, hdrop]
  · have hfraction : width n - (width n - k) = k := by omega
    simp [Numeral.decimal, Numeral.exponent, value, hlen, hfraction]

/-- Digits behind zeros and a point. -/
theorem denotes_small {n k : Nat} (hk : width n ≤ k) :
    Denotes (String.ofList ('0' :: '.' :: List.replicate (k - width n) '0' ++ digits n)) false
      (n * 10 ^ (-k : Int)) := by
  have hlen : (digits n).length = width n := rfl
  refine ⟨⟨false, ['0'], List.replicate (k - width n) '0' ++ digits n, none⟩,
    ⟨?_, ?_, ?_, ?_, ?_, ?_⟩, ?_, rfl, ?_⟩
  · simp
  · simp
  · exact .inl rfl
  · exact fun c hc => isDigit_of_mem_padded hc
  · simp
  · simp
  · simp [Numeral.text, Numeral.signText, Numeral.magnitude, Numeral.fractionText,
      Numeral.powerText, digits_ne_nil]
  · have hvalue : natOfDigits ('0' :: (List.replicate (k - width n) '0' ++ digits n)) = n := by
      rw [← List.cons_append, ← List.replicate_succ, natOfDigits_padded]
    simp [Numeral.decimal, Numeral.exponent, value, hvalue, hlen, hk]

/-- Positional notation reads back; zero must have scale zero. -/
theorem denotes_positional (d : Decimal) (h : 0 < d.coefficient ∨ d.scale = 0) :
    Denotes d.positional false d.value := by
  unfold positional value
  dsimp only
  split_ifs with hscale hplaces
  · have hcast : d.scale = (d.scale.toNat : Int) := by omega
    rw [hcast, zpow_natCast]
    exact denotes_whole _ _ (h.imp_right fun h => by rw [h]; rfl)
  all_goals
    have hcast : (10 : ℚ) ^ d.scale = 10 ^ (-(d.scale.natAbs : Int)) := by
      congr 1
      omega
    rw [hcast]
  · exact denotes_point (by omega) (by omega) hplaces
  · exact denotes_small (Nat.le_of_not_lt hplaces)

/-- Scientific notation reads back. -/
theorem denotes_scientific (d : Decimal) (least : Nat) :
    Denotes (d.scientific least) false d.value := by
  obtain ⟨first, rest, hds⟩ := List.exists_cons_of_ne_nil (digits_ne_nil d.coefficient)
  have hmem : ∀ c ∈ first :: rest, c.isDigit = true := fun c hc => isDigit_of_mem_digits (hds ▸ hc)
  have hwidth : width d.coefficient = rest.length + 1 := by rw [width, hds, List.length_cons]
  let power := List.replicate (least - (digits d.exponent.natAbs).length) '0' ++
    digits d.exponent.natAbs
  refine ⟨⟨false, [first], rest, some (decide (d.exponent < 0), power)⟩,
    ⟨?_, ?_, ?_, ?_, ?_, ?_⟩, ?_, rfl, ?_⟩
  · simp
  · simpa using hmem first (by simp)
  · simp only [List.cons.injEq, and_true, List.head?_cons, ne_eq, Option.some.injEq]
    exact Decidable.em _
  · exact fun c hc => hmem c (by simp [hc])
  · rintro _ _ ⟨⟩
    simp [power, digits_ne_nil]
  · rintro _ _ ⟨⟩ c hc
    exact isDigit_of_mem_padded hc
  · cases rest <;> by_cases hexp : d.exponent < 0 <;>
      simp [Numeral.text, Numeral.signText, Numeral.magnitude, Numeral.fractionText,
        Numeral.powerText, scientific, hds, hexp, power]
  · have hexp : Numeral.exponent ⟨false, [first], rest, some (decide (d.exponent < 0), power)⟩ =
        d.exponent := by
      simp only [Numeral.exponent, power, natOfDigits_padded, decide_eq_true_eq]
      split <;> omega
    have hscale : d.exponent - rest.length = d.scale := by
      rw [exponent, hwidth]
      omega
    simp [Numeral.decimal, hexp, hscale, ← hds, value]

end Decimal

/-- Every number format writes numerals. -/
theorem NumberFormat.denotes_write (f : NumberFormat) (negative : Bool) (d : Decimal)
    (h : 0 < d.coefficient ∨ d.scale = 0) : Denotes (f.write negative d) negative d.value := by
  have hbody : Denotes (if d.coefficient = 0 ∨ (f.least ≤ d.exponent ∧ d.exponent < f.limit)
      then d.positional else d.scientific f.exponentWidth) false d.value := by
    split
    · exact d.denotes_positional h
    · exact d.denotes_scientific _
  cases negative
  · exact hbody
  · exact hbody.neg

/-- So do whole numbers. -/
theorem denotes_int (k : Int) : Denotes (toString k) (decide (k < 0)) k.natAbs := by
  have hnat : ∀ n : Nat, Denotes n.repr false n := by
    intro n
    simpa [Nat.repr_eq_ofList_toDigits, Decimal.digits] using Decimal.denotes_whole n 0 (.inr rfl)
  cases k with
  | ofNat n =>
      have hsign : decide (Int.ofNat n < 0) = false := by simp
      rw [hsign]
      exact hnat n
  | negSucc n =>
      have hsign : decide (Int.negSucc n < 0) = true := by simp
      rw [hsign]
      exact (hnat (n + 1)).neg

end Tuning
