import Mathlib
import Tuning.Proofs.Json.Reading

/-! # String literals

Between its quotes a literal spells a text character by character: raw, by a letter behind a backslash,
by the digits of a 16-bit unit, or by those of a pair of units. The reader takes every spelling for the
text that it denotes. -/

namespace Tuning.Json

/-! ## Spellings -/

/-- A hexadecimal digit of either case. -/
def IsDigitOf (n : Nat) (c : Char) : Prop :=
  n < 16 ∧ (c = hexDigit n ∨ c = (hexDigit n).toUpper)

/-- A backslash, the letter u and the four digits of a unit. -/
inductive SpellsUnit (n : Nat) : List Char → Prop where
  | digits {i j k l : Nat} {a b c d : Char} (ha : IsDigitOf i a) (hb : IsDigitOf j b)
      (hc : IsDigitOf k c) (hd : IsDigitOf l d) (hn : n = ((i * 16 + j) * 16 + k) * 16 + l) :
      SpellsUnit n ['\\', 'u', a, b, c, d]

/-- The letters that stand for a character behind a backslash. -/
def shorthands : List (Char × Char) :=
  [('"', '"'), ('\\', '\\'), ('/', '/'), ('b', '\x08'), ('f', '\x0c'), ('n', '\n'), ('r', '\r'),
    ('t', '\t')]

/-- The text that stands between the quotes of a literal, and the text that it denotes. Half a pair that
stays alone denotes the replacement character. -/
inductive Denotes : List Char → List Char → Prop where
  | nil : Denotes [] []
  | raw {c : Char} {rest cs : List Char} (hcontrol : 0x20 ≤ c.toNat) (hquote : c ≠ '"')
      (hslash : c ≠ '\\') (hrest : Denotes rest cs) : Denotes (c :: rest) (c :: cs)
  | short {letter c : Char} {rest cs : List Char} (hletter : (letter, c) ∈ shorthands)
      (hrest : Denotes rest cs) : Denotes ('\\' :: letter :: rest) (c :: cs)
  | unit {c : Char} {digits rest cs : List Char} (hdigits : SpellsUnit c.toNat digits)
      (hrest : Denotes rest cs) : Denotes (digits ++ rest) (c :: cs)
  | pair {c : Char} {first second : Nat} {digits digits' rest cs : List Char}
      (hfirst : 0xd800 ≤ first ∧ first < 0xdc00) (hsecond : 0xdc00 ≤ second ∧ second < 0xe000)
      (hc : c.toNat = 0x10000 + (first - 0xd800) * 0x400 + (second - 0xdc00))
      (hdigits : SpellsUnit first digits) (hdigits' : SpellsUnit second digits')
      (hrest : Denotes rest cs) : Denotes (digits ++ digits' ++ rest) (c :: cs)
  | half {n : Nat} {digits rest cs : List Char} (hn : 0xd800 ≤ n ∧ n < 0xe000)
      (hdigits : SpellsUnit n digits)
      (halone : n < 0xdc00 → ∀ m digits', 0xdc00 ≤ m → m < 0xe000 → SpellsUnit m digits' →
        ¬digits' <+: rest)
      (hrest : Denotes rest cs) : Denotes (digits ++ rest) ('\ufffd' :: cs)

theorem Denotes.raws {text rest cs : List Char} (hrest : Denotes rest cs)
    (htext : ∀ c ∈ text, 0x20 ≤ c.toNat ∧ c ≠ '"' ∧ c ≠ '\\') : Denotes (text ++ rest) (text ++ cs) := by
  induction text with
  | nil => exact hrest
  | cons c text ih =>
      obtain ⟨⟨hcontrol, hquote, hslash⟩, htext⟩ := List.forall_mem_cons.mp htext
      exact .raw hcontrol hquote hslash (ih htext)

/-! ## Units -/

theorem hexValue?_of_isDigitOf {n : Nat} {c : Char} (h : IsDigitOf n c) : hexValue? c = some n := by
  obtain ⟨hn, hc⟩ := h
  have hcases : ∀ n < 16, hexValue? (hexDigit n) = some n ∧ hexValue? (hexDigit n).toUpper = some n := by
    decide
  rcases hc with rfl | rfl
  · exact (hcases n hn).1
  · exact (hcases n hn).2

theorem isDigitOf_of_hexValue? {n : Nat} {c : Char} (h : hexValue? c = some n) : IsDigitOf n c := by
  have hcases : ∀ k < 103, (hexValue? (Char.ofNat k)).all fun n =>
      n < 16 && (Char.ofNat k == hexDigit n || Char.ofNat k == (hexDigit n).toUpper) := by
    decide
  -- all digits come before the letter g
  have hlt : c.toNat < 103 := by
    unfold hexValue? at h
    split_ifs at h with hdigit hlower hupper
    · exact Nat.lt_of_le_of_lt hdigit.2 (by decide)
    · exact Nat.lt_of_le_of_lt hlower.2 (by decide)
    · exact Nat.lt_of_le_of_lt hupper.2 (by decide)
  have hc := hcases c.toNat hlt
  rw [Char.ofNat_toNat, h, Option.all_some] at hc
  simpa [IsDigitOf] using hc

/-- The reader takes four digits for the unit that they spell. -/
theorem unit?_eq_some_iff {a b c d : Char} {n : Nat} :
    unit? a b c d = some n ↔ SpellsUnit n ['\\', 'u', a, b, c, d] := by
  constructor
  · intro h
    simp only [unit?, Option.pure_def, Option.bind_eq_bind, Option.bind_eq_some_iff] at h
    obtain ⟨i, ha, j, hb, k, hc, l, hd, hn⟩ := h
    refine .digits (isDigitOf_of_hexValue? ha) (isDigitOf_of_hexValue? hb)
      (isDigitOf_of_hexValue? hc) (isDigitOf_of_hexValue? hd) ?_
    have := Option.some.inj hn
    omega
  · rintro ⟨ha, hb, hc, hd, hn⟩
    simp only [unit?, hexValue?_of_isDigitOf ha, hexValue?_of_isDigitOf hb, hexValue?_of_isDigitOf hc,
      hexValue?_of_isDigitOf hd, Option.pure_def, Option.bind_eq_bind, Option.bind_some,
      Option.some.injEq]
    omega

theorem SpellsUnit.exists_digits {n : Nat} {digits : List Char} (h : SpellsUnit n digits) :
    ∃ a b c d, digits = ['\\', 'u', a, b, c, d] ∧ unit? a b c d = some n := by
  cases h with
  | digits ha hb hc hd hn =>
      exact ⟨_, _, _, _, rfl, unit?_eq_some_iff.mpr (.digits ha hb hc hd hn)⟩

/-! ## Reading -/

variable {done rest : List Char}

theorem stringTail_unit {n : Nat} {digits : List Char} (h : SpellsUnit n digits) :
    stringTail none done (digits ++ rest) =
      if isLead n then stringTail (some n) done rest else stringTail none (unitChar n :: done) rest := by
  obtain ⟨a, b, c, d, rfl, hunit⟩ := h.exists_digits
  simp [stringTail, hunit]

theorem stringTail_second {first n : Nat} {digits : List Char} (h : SpellsUnit n digits)
    (hn : isTrail n = true) :
    stringTail (some first) done (digits ++ rest) = stringTail none (pairChar first n :: done) rest := by
  obtain ⟨a, b, c, d, rfl, hunit⟩ := h.exists_digits
  simp [stringTail, hunit, hn]

/-- A first half that no second half follows stays alone. -/
theorem stringTail_alone {n : Nat}
    (h : ∀ m digits, isTrail m = true → SpellsUnit m digits → ¬digits <+: rest) :
    stringTail (some n) done rest = stringTail none ('\ufffd' :: done) rest := by
  rw [stringTail.eq_def, stringTail.eq_def none]
  split
  · rfl
  · simp [settle]
  · next a b c d rest =>
      cases hunit : unit? a b c d with
      | none => rfl
      | some m =>
          have htrail : isTrail m = false := Bool.eq_false_iff.mpr fun htrail =>
            h m _ htrail (unit?_eq_some_iff.mp hunit) ⟨rest, rfl⟩
          simp [htrail]
  · simp [settle]
  · simp [settle]

theorem quote_notMem_of_spellsUnit {n : Nat} {digits : List Char} (h : SpellsUnit n digits) :
    '"' ∉ digits := by
  have hdigit : ∀ {k : Nat} {c : Char}, IsDigitOf k c → '"' ≠ c := by
    rintro k c hc rfl
    have hvalue := hexValue?_of_isDigitOf hc
    simp [hexValue?] at hvalue
  obtain ⟨ha, hb, hc, hd, -⟩ := h
  simp [hdigit ha, hdigit hb, hdigit hc, hdigit hd]

/-- What has no quote and begins a literal begins what stands between its quotes. -/
theorem prefix_of_prefix_append_quote {xs body r : List Char} (hquote : '"' ∉ xs)
    (h : xs <+: body ++ '"' :: r) : xs <+: body := by
  rcases List.prefix_or_prefix_of_prefix h (List.prefix_append body _) with h' | ⟨more, rfl⟩
  · exact h'
  · cases more with
    | nil => rw [List.append_nil]
    | cons c more =>
        obtain ⟨rfl, -⟩ := List.cons_prefix_cons.mp ((List.prefix_append_right_inj body).mp h)
        simp at hquote

/-- The reader takes what stands between the quotes of a literal for the text that it denotes. -/
theorem stringTail_denotes {body cs : List Char} (h : Denotes body cs) (done r : List Char) :
    stringTail none done (body ++ '"' :: r) = some (done.reverse ++ cs, r) := by
  induction h generalizing done with
  | nil => simp [stringTail, settle]
  | @raw c rest cs hcontrol hquote hslash _ ih =>
      have hread : stringTail none done (c :: (rest ++ '"' :: r)) =
          stringTail none (c :: done) (rest ++ '"' :: r) := by
        rw [stringTail.eq_def]
        split <;> simp_all [settle]
      rw [List.cons_append, hread, ih]
      simp
  | @short letter c rest cs hletter _ ih =>
      have hread : stringTail none done ('\\' :: letter :: (rest ++ '"' :: r)) =
          stringTail none (c :: done) (rest ++ '"' :: r) := by
        simp only [shorthands, List.mem_cons, Prod.mk.injEq, List.not_mem_nil, or_false] at hletter
        rcases hletter with ⟨rfl, rfl⟩ | ⟨rfl, rfl⟩ | ⟨rfl, rfl⟩ | ⟨rfl, rfl⟩ | ⟨rfl, rfl⟩ | ⟨rfl, rfl⟩ |
          ⟨rfl, rfl⟩ | ⟨rfl, rfl⟩ <;> simp [stringTail, shortEscape?, settle]
      rw [List.cons_append, List.cons_append, hread, ih]
      simp
  | @unit c digits rest cs hdigits _ ih =>
      obtain ⟨hlead, hchar⟩ := unitChar_toNat c
      rw [List.append_assoc, stringTail_unit hdigits, hlead, hchar, if_neg (by simp), ih]
      simp
  | @pair c first second digits digits' rest cs hfirst hsecond hc hdigits hdigits' _ ih =>
      have hlead : isLead first = true := by simpa [isLead] using hfirst
      have htrail : isTrail second = true := by simpa [isTrail] using hsecond
      have hchar : pairChar first second = c := by
        rw [pairChar, ← Char.ofNat_toNat c, hc]
      rw [List.append_assoc, List.append_assoc, stringTail_unit hdigits, if_pos hlead,
        stringTail_second hdigits' htrail, hchar, ih]
      simp
  | @half n digits rest cs hn hdigits halone _ ih =>
      rw [List.append_assoc, stringTail_unit hdigits]
      by_cases hlead : isLead n = true
      · have hlt : n < 0xdc00 := by
          simp only [isLead, Bool.and_eq_true, decide_eq_true_eq] at hlead
          exact hlead.2
        rw [if_pos hlead, stringTail_alone, ih]
        · simp
        · intro m digits' htrail hdigits' hbegins
          simp only [isTrail, Bool.and_eq_true, decide_eq_true_eq] at htrail
          exact halone hlt m digits' htrail.1 htrail.2 hdigits'
            (prefix_of_prefix_append_quote (quote_notMem_of_spellsUnit hdigits') hbegins)
      · have hchar : unitChar n = '\ufffd' := by
          have htrail : isTrail n = true := by
            simp only [isLead, isTrail, Bool.and_eq_true, decide_eq_true_eq] at hlead ⊢
            omega
          simp [unitChar, htrail]
        rw [if_neg hlead, hchar, ih]
        simp

/-- A literal reads as the text that it denotes. -/
theorem parse?_literal {body : List Char} {text : String} (h : Denotes body text.toList) :
    parse? (String.ofList ('"' :: body ++ ['"'])) = some (.string text) := by
  refine Reads.parse? fun fuel r hfuel _ => ?_
  rw [String.toList_ofList] at hfuel ⊢
  obtain ⟨fuel, rfl⟩ : ∃ k, fuel = k + 1 := ⟨fuel - 1, by simp at hfuel; omega⟩
  rw [List.cons_append, List.cons_append, List.append_assoc, value?, skipBlanks_cons (by decide)]
  simp [stringTail_denotes h]

end Tuning.Json
