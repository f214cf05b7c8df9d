import Mathlib
import Tuning.Time.Instant
import Tuning.Proofs.Decimal.Numeral

/-! # Dates and their texts

The number of a day gives back the day, later days do not fall into earlier years, and the text of an
instant in a document reads back as the instant. -/

namespace Tuning

/-! ## Days -/

namespace Date

/-- How many days a year has. -/
def yearLength (year : Int) : Nat :=
  if isLeap year then 366 else 365

theorem isLeap_iff (year : Int) :
    isLeap year = true ↔ year % 4 = 0 ∧ (year % 100 ≠ 0 ∨ year % 400 = 0) := by
  simp [isLeap]

theorem daysBeforeYear_succ (year : Int) :
    daysBeforeYear (year + 1) = daysBeforeYear year + yearLength year := by
  have hleap := isLeap_iff year
  unfold daysBeforeYear yearLength
  by_cases h : isLeap year = true
  · obtain ⟨hfour, hcentury⟩ := hleap.mp h
    rw [if_pos h]
    push_cast
    omega
  · rw [if_neg h]
    rw [hleap] at h
    push_cast
    omega

theorem daysBeforeYear_mono {a b : Int} (h : a ≤ b) : daysBeforeYear a ≤ daysBeforeYear b := by
  simp only [daysBeforeYear]
  omega

theorem daysBeforeMonth_succ (year : Int) (month : Nat) :
    daysBeforeMonth year (month + 1 + 1) =
      daysBeforeMonth year (month + 1) + monthLength year (month + 1) := by
  simp [daysBeforeMonth, List.range_succ]

theorem daysBeforeMonth_end (year : Int) : daysBeforeMonth year 13 = yearLength year := by
  cases h : isLeap year <;>
    simp [daysBeforeMonth, List.range_succ, monthLength, yearLength, h]

/-- The month and day that the search from a month on comes to. -/
theorem monthDay_spec (year : Int) (fuel month rest : Nat)
    (h : daysBeforeMonth year (month + 1) + rest < daysBeforeMonth year (month + 1 + fuel + 1)) :
    ∃ m d, monthDay year fuel (month + 1) rest = (m + 1, d + 1) ∧ m ≤ month + fuel ∧
      d < monthLength year (m + 1) ∧
      daysBeforeMonth year (m + 1) + d = daysBeforeMonth year (month + 1) + rest := by
  induction fuel generalizing month rest with
  | zero =>
      rw [Nat.add_zero, daysBeforeMonth_succ] at h
      exact ⟨month, rest, rfl, le_rfl, by omega, rfl⟩
  | succ fuel ih =>
      rw [monthDay]
      by_cases hrest : rest < monthLength year (month + 1)
      · exact ⟨month, rest, if_pos hrest, by omega, hrest, rfl⟩
      · have hsucc := daysBeforeMonth_succ year month
        have hshift : month + 1 + 1 + fuel + 1 = month + 1 + (fuel + 1) + 1 := by omega
        obtain ⟨m, d, hmd, hm, hd, hsum⟩ := ih (month + 1) (rest - monthLength year (month + 1))
          (by rw [hshift]; omega)
        refine ⟨m, d, ?_, by omega, hd, by omega⟩
        rw [← hmd]
        exact if_neg hrest

theorem yearOfDays_spec {days : Int} (h : 0 ≤ days) (hlt : days < 146097) :
    daysBeforeYear (yearOfDays days) ≤ days ∧ days < daysBeforeYear (yearOfDays days + 1) := by
  unfold yearOfDays
  dsimp only
  split
  · next hle =>
      refine ⟨hle, ?_⟩
      simp only [daysBeforeYear]
      omega
  · next hle =>
      simp only [daysBeforeYear, add_sub_cancel_right] at hle ⊢
      omega

/-- A day of the calendar. -/
structure IsDay (d : Date) : Prop where
  month_pos : 1 ≤ d.month
  month_le : d.month ≤ 12
  day_pos : 1 ≤ d.day
  day_le : d.day ≤ monthLength d.year d.month

/-- Leap years come back every four hundred years. -/
theorem isLeap_cycle (year cycles : Int) : isLeap (year + 400 * cycles) = isLeap year := by
  rw [Bool.eq_iff_iff, isLeap_iff, isLeap_iff]
  omega

theorem monthLength_cycle (year cycles : Int) (month : Nat) :
    monthLength (year + 400 * cycles) month = monthLength year month := by
  simp only [monthLength, isLeap_cycle]

theorem daysBeforeMonth_cycle (year cycles : Int) (month : Nat) :
    daysBeforeMonth (year + 400 * cycles) month = daysBeforeMonth year month := by
  simp only [daysBeforeMonth, monthLength_cycle]

theorem daysBeforeYear_cycle (year cycles : Int) :
    daysBeforeYear (year + 400 * cycles) = daysBeforeYear year + 146097 * cycles := by
  simp only [daysBeforeYear]
  omega

/-- What the day of a number is. -/
theorem ofDays_spec (days : Int) :
    (ofDays days).IsDay ∧ (ofDays days).toDays = days ∧
      daysBeforeYear (ofDays days).year ≤ days ∧ days < daysBeforeYear ((ofDays days).year + 1) := by
  obtain ⟨hlow, hhigh⟩ := yearOfDays_spec (show 0 ≤ days % 146097 by omega) (by omega)
  obtain ⟨year, hyear⟩ : ∃ year, year = yearOfDays (days % 146097) := ⟨_, rfl⟩
  rw [← hyear] at hlow hhigh
  have hsucc := daysBeforeYear_succ year
  have hend := daysBeforeMonth_end year
  have hfirst : daysBeforeMonth year (0 + 1) = 0 := rfl
  obtain ⟨m, d, hmd, hm, hd, hsum⟩ :=
    monthDay_spec year 11 0 (days % 146097 - daysBeforeYear year).toNat
      (by rw [hfirst, hend]; omega)
  have hof : ofDays days = ⟨year + 400 * (days / 146097), m + 1, d + 1⟩ := by
    rw [ofDays, ← hyear]
    simp only [hmd]
  rw [hof]
  refine ⟨⟨by simp, by simp; omega, by simp, ?_⟩, ?_, ?_, ?_⟩
  · rw [monthLength_cycle]
    exact hd
  · rw [toDays, daysBeforeYear_cycle, daysBeforeMonth_cycle]
    push_cast
    omega
  · rw [daysBeforeYear_cycle]
    omega
  · rw [add_right_comm, daysBeforeYear_cycle]
    omega

/-- Later days do not fall into earlier years. -/
theorem ofDays_year_mono {a b : Int} (h : a ≤ b) : (ofDays a).year ≤ (ofDays b).year := by
  obtain ⟨-, -, hlow, -⟩ := ofDays_spec a
  obtain ⟨-, -, -, hhigh⟩ := ofDays_spec b
  by_contra hlt
  have hmono := daysBeforeYear_mono (show (ofDays b).year + 1 ≤ (ofDays a).year by omega)
  omega

end Date

/-! ## Digits -/

namespace Instant

/-- The characters of a number below a power of ten are that many digits. -/
theorem padded_spec {width n : Nat} (hwidth : 0 < width) (h : n < 10 ^ width) :
    (padded width n).toList.length = width ∧ (∀ c ∈ (padded width n).toList, c.isDigit = true) ∧
      natOfDigits (padded width n).toList = n := by
  have hchars : (padded width n).toList =
      List.replicate (width - (Decimal.digits n).length) '0' ++ Decimal.digits n :=
    String.toList_ofList
  have hlength : (Decimal.digits n).length ≤ width :=
    (Nat.length_toDigits_le_iff (by decide) hwidth).mpr h
  rw [hchars]
  refine ⟨?_, fun c hc => Decimal.isDigit_of_mem_padded hc, Decimal.natOfDigits_padded _ n⟩
  rw [List.length_append, List.length_replicate]
  omega

theorem twoDigits?_padded {n : Nat} (h : n < 100) (short : Bool) (r : List Char) :
    twoDigits? short ((padded 2 n).toList ++ r) = some (n, r) := by
  obtain ⟨hlength, hdigit, hvalue⟩ := padded_spec (show 0 < 2 by decide) (show n < 10 ^ 2 from h)
  obtain ⟨a, b, hab⟩ := List.length_eq_two.mp hlength
  rw [hab] at hdigit hvalue ⊢
  have ha := hdigit a (by simp)
  have hb := hdigit b (by simp)
  simp [twoDigits?, ha, hb, hvalue]

theorem expect?_cons (c : Char) (r : List Char) : expect? c (c :: r) = some r :=
  if_pos (beq_self_eq_true c)

/-! ## Fractions -/

/-- Factors of ten move from the coefficient to the scale. -/
theorem strip_spec (fuel n : Nat) (scale : Int) :
    ∃ k : Nat, (Decimal.strip fuel ⟨n, scale⟩).scale = scale + k ∧
      (Decimal.strip fuel ⟨n, scale⟩).coefficient * 10 ^ k = n := by
  induction fuel generalizing n scale with
  | zero => exact ⟨0, by simp [Decimal.strip]⟩
  | succ fuel ih =>
      rw [Decimal.strip]
      by_cases hmod : n % 10 = 0
      · obtain ⟨k, hscale, hvalue⟩ := ih (n / 10) (scale + 1)
        rw [if_pos hmod]
        refine ⟨k + 1, by rw [hscale]; push_cast; ring, ?_⟩
        rw [pow_succ, ← mul_assoc, hvalue]
        exact Nat.div_mul_cancel (Nat.dvd_of_mod_eq_zero hmod)
      · rw [if_neg hmod]
        exact ⟨0, by simp⟩

/-- The digits behind the point of the fraction of a second. -/
theorem fractionText_spec {t : Instant} (h : t.nanoseconds < 10 ^ 9) (hpos : t.nanoseconds ≠ 0) :
    ∃ ds : List Char, t.fractionText.toList = '.' :: ds ∧ ds ≠ [] ∧ ds.length ≤ 9 ∧
      (∀ c ∈ ds, c.isDigit = true) ∧ natOfDigits ds * 10 ^ (9 - ds.length) = t.nanoseconds := by
  obtain ⟨k, hscale, hvalue⟩ := strip_spec (Decimal.width t.nanoseconds) t.nanoseconds (-9)
  obtain ⟨d, hd⟩ : ∃ d, d = (⟨t.nanoseconds, -9⟩ : Decimal).strip (Decimal.width t.nanoseconds) :=
    ⟨_, rfl⟩
  rw [← hd] at hscale hvalue
  have hcoefficient : d.coefficient ≠ 0 := by
    intro hzero
    rw [hzero, zero_mul] at hvalue
    exact hpos hvalue.symm
  have hk : k < 9 := by
    refine (Nat.pow_lt_pow_iff_right (by decide : 1 < 10)).mp (lt_of_le_of_lt ?_ h)
    rw [← hvalue]
    exact Nat.le_mul_of_pos_left _ (Nat.pos_of_ne_zero hcoefficient)
  have hplaces : d.scale.natAbs = 9 - k := by omega
  have hsmall : d.coefficient < 10 ^ (9 - k) := by
    refine Nat.lt_of_mul_lt_mul_right (a := 10 ^ k) ?_
    rw [hvalue, ← pow_add, Nat.sub_add_cancel hk.le]
    exact h
  have hlength : (Decimal.digits d.coefficient).length ≤ 9 - k :=
    (Nat.length_toDigits_le_iff (by decide) (by omega)).mpr hsmall
  have hnonneg : ¬0 ≤ d.scale := by omega
  have hpad : (List.replicate (9 - k - (Decimal.digits d.coefficient).length) '0' ++
      Decimal.digits d.coefficient).length = 9 - k := by
    rw [List.length_append, List.length_replicate]
    omega
  refine ⟨List.replicate (9 - k - (Decimal.digits d.coefficient).length) '0' ++
    Decimal.digits d.coefficient, ?_, ?_, ?_, ?_, ?_⟩
  · rw [fractionText, if_neg hpos, Decimal.normal, if_neg hpos, ← hd, Decimal.positional]
    simp only [if_neg hnonneg, hplaces, if_neg (show ¬9 - k < (Decimal.digits d.coefficient).length by omega),
      String.toList_ofList]
    rfl
  · intro hnil
    rw [hnil] at hpad
    simp at hpad
    omega
  · omega
  · exact fun c hc => Decimal.isDigit_of_mem_padded hc
  · rw [Decimal.natOfDigits_padded, hpad, show 9 - (9 - k) = k by omega]
    exact hvalue

theorem readFraction_fractionText {t : Instant} (h : t.nanoseconds < 10 ^ 9) {r : List Char}
    (hr : ∃ c cs, r = c :: cs ∧ c.isDigit = false ∧ c ≠ '.' ∧ c ≠ ',') :
    readFraction (t.fractionText.toList ++ r) = (t.nanoseconds, r) := by
  obtain ⟨c, cs, rfl, hc, hpoint, hcomma⟩ := hr
  by_cases hzero : t.nanoseconds = 0
  · have htext : t.fractionText.toList = [] := by simp [fractionText, hzero]
    simp [htext, readFraction, hpoint, hcomma, hzero]
  · obtain ⟨ds, htext, hne, hlength, hdigits, hvalue⟩ := fractionText_spec h hzero
    have hspan : (ds ++ c :: cs).span Char.isDigit = (ds, c :: cs) :=
      span_append hdigits (stops_cons hc cs)
    have hfull : ds.isEmpty = false := by simpa using hne
    rw [htext, List.cons_append, readFraction, if_pos (by decide), hspan]
    simp only [hfull, List.take_of_length_le hlength, hvalue, Bool.false_eq_true, if_false]

/-! ## Offsets -/

theorem offsetText_of_ne {offset : Int} (h : offset ≠ 0) :
    (offsetText offset).toList = (if offset < 0 then '-' else '+') ::
      ((padded 2 (offset.natAbs / 60 / 60)).toList ++
        ':' :: (padded 2 (offset.natAbs / 60 % 60)).toList) := by
  rw [offsetText, if_neg h]
  split <;> simp

theorem offsetText_head (offset : Int) :
    ∃ c cs, (offsetText offset).toList = c :: cs ∧ c.isDigit = false ∧ c ≠ '.' ∧ c ≠ ',' := by
  by_cases h : offset = 0
  · exact ⟨'Z', [], by simp [offsetText, h], by decide⟩
  · refine ⟨_, _, offsetText_of_ne h, ?_⟩
    split <;> decide

theorem readOffset?_cons {sign : Char} (hsign : sign = '+' ∨ sign = '-') {hours minutes : Nat}
    (hhours : hours < 24) (hminutes : minutes < 60) :
    readOffset? (sign :: ((padded 2 hours).toList ++ ':' :: (padded 2 minutes).toList)) =
      some (if sign = '+' then (hours * 3600 + minutes * 60 : Int)
        else -(hours * 3600 + minutes * 60)) := by
  have hfirst := twoDigits?_padded (show hours < 100 by omega) false
  have hsecond := twoDigits?_padded (show minutes < 100 by omega) false []
  rw [List.append_nil] at hsecond
  rcases hsign with rfl | rfl <;>
    simp [readOffset?, hfirst, hsecond, expect?_cons, hhours.le, hminutes.le, add_comm]

/-- The whole minutes of an offset, without the seconds that texts leave out. -/
def wholeMinutes (offset : Int) : Int :=
  if offset < 0 then -(offset.natAbs / 60 * 60 : Nat) else (offset.natAbs / 60 * 60 : Nat)

theorem wholeMinutes_of_dvd {offset : Int} (h : 60 ∣ offset) : wholeMinutes offset = offset := by
  unfold wholeMinutes
  split <;> omega

theorem readOffset?_offsetText {offset : Int} (hday : offset.natAbs / 3600 < 24) :
    readOffset? (offsetText offset).toList = some (wholeMinutes offset) := by
  by_cases hzero : offset = 0
  · simp [offsetText, hzero, readOffset?, wholeMinutes]
  · have hsign : (if offset < 0 then '-' else '+') = '+' ∨ (if offset < 0 then '-' else '+') = '-' := by
      split <;> simp
    rw [offsetText_of_ne hzero, readOffset?_cons hsign (by omega) (by omega), wholeMinutes]
    by_cases hneg : offset < 0
    · rw [if_pos hneg, if_pos hneg, if_neg (by decide), Option.some.injEq]
      omega
    · rw [if_neg hneg, if_neg hneg, if_pos rfl, Option.some.injEq]
      omega

/-! ## Instants -/

theorem date_spec (t : Instant) : t.date.IsDay ∧
    86400 * t.date.toDays + t.secondOfDay = t.seconds + t.offset := by
  obtain ⟨hday, hdays, -⟩ := Date.ofDays_spec ((t.seconds + t.offset) / 86400)
  refine ⟨hday, ?_⟩
  rw [date, hdays, secondOfDay]
  omega

/-- The instant that the text of an instant tells, with an offset in whole minutes. -/
def shown (t : Instant) : Instant :=
  ⟨t.seconds + t.offset - wholeMinutes t.offset, t.nanoseconds, wholeMinutes t.offset⟩

/-- The text of an instant in a document reads back as what it tells. -/
theorem parse?_document? {t : Instant} {s : String} (hnanoseconds : t.nanoseconds < 10 ^ 9)
    (h : t.document? = some s) : parse? s = some t.shown := by
  rw [document?, Option.ite_none_left_eq_some] at h
  obtain ⟨hrange, h⟩ := h
  obtain rfl := Option.some.inj h
  obtain ⟨hday, hseconds⟩ := t.date_spec
  obtain ⟨d, hd⟩ : ∃ d, d = t.date := ⟨_, rfl⟩
  obtain ⟨n, hn⟩ : ∃ n, n = t.secondOfDay := ⟨_, rfl⟩
  have hbound : n < 86400 := by
    rw [hn, secondOfDay]
    omega
  rw [← hd] at hday hseconds hrange
  rw [← hn] at hseconds
  obtain ⟨hlength, hdigits, hyear⟩ := padded_spec (n := d.year.natAbs) (show 0 < 4 by decide) (by omega)
  have hmonth := hday.month_le
  have hlength' := hday.day_le
  have hlast : Date.monthLength d.year d.month ≤ 31 := by
    unfold Date.monthLength
    split_ifs <;> decide
  have htext : t.text.toList = (padded 4 d.year.natAbs).toList ++ '-' :: ((padded 2 d.month).toList ++
      '-' :: ((padded 2 d.day).toList ++ 'T' :: ((padded 2 (n / 3600)).toList ++
      ':' :: ((padded 2 (n / 60 % 60)).toList ++ ':' :: ((padded 2 (n % 60)).toList ++
      (t.fractionText.toList ++ (offsetText t.offset).toList)))))) := by
    simp only [text, dateText, clockText, ← hd, ← hn, yearText, if_neg (show ¬d.year < 0 by omega),
      String.toList_append, List.append_assoc]
    simp
  have hdate : (d.month < 1 || 12 < d.month || d.day < 1 ||
      Date.monthLength d.year d.month < d.day : Bool) = false := by
    have := hday.month_pos
    have := hday.day_pos
    simp only [Bool.or_eq_false_iff, decide_eq_false_iff_not]
    omega
  have hclock : (23 < n / 3600 || 59 < n / 60 % 60 || 59 < n % 60 : Bool) = false := by
    simp only [Bool.or_eq_false_iff, decide_eq_false_iff_not]
    omega
  have hseconds' : 86400 * d.toDays + (n / 3600 * 3600 + n / 60 % 60 * 60 + n % 60 : Nat) =
      t.seconds + t.offset := by
    omega
  rw [parse?, htext]
  simp only [List.take_left' hlength, List.drop_left' hlength, hyear, hlength, bne_self_eq_false,
    List.all_eq_true.mpr hdigits, Bool.not_true, Bool.or_false, Bool.false_eq_true, if_false,
    Option.bind_eq_bind]
  -- month, day, hour, minute and second, each behind its mark
  iterate 5
    rw [expect?_cons, Option.bind_some, twoDigits?_padded (by omega), Option.bind_some]
    dsimp only
  rw [readFraction_fractionText hnanoseconds (offsetText_head t.offset)]
  dsimp only
  rw [readOffset?_offsetText (by omega), Option.bind_some, Int.natAbs_of_nonneg (by omega),
    hdate, if_neg Bool.false_ne_true, hclock, if_neg Bool.false_ne_true, hseconds']
  rfl

/-- An instant that its text tells exactly: nanoseconds are less than a second, and the offset is in
whole minutes. -/
structure Exact (t : Instant) : Prop where
  nanoseconds_lt : t.nanoseconds < 10 ^ 9
  minutes : 60 ∣ t.offset

/-- The text of an exact instant in a document reads back as the instant. -/
theorem parse?_of_document? {t : Instant} {s : String} (ht : t.Exact) (h : t.document? = some s) :
    parse? s = some t := by
  rw [parse?_document? ht.nanoseconds_lt h, shown, wholeMinutes_of_dvd ht.minutes, Int.add_sub_cancel]

theorem document?_isSome {t : Instant} :
    t.document?.isSome = true ↔
      0 ≤ t.date.year ∧ t.date.year ≤ 9999 ∧ t.offset.natAbs / 3600 < 24 := by
  rw [document?]
  split
  · simp only [Option.isSome_none, Bool.false_eq_true, false_iff]
    omega
  · simp only [Option.isSome_some, true_iff]
    omega

/-- Of two instants under one offset the later one does not fall into an earlier year. -/
theorem date_year_mono {t u : Instant} (hnanoseconds : u.nanoseconds < 10 ^ 9)
    (hoffset : t.offset = u.offset) (h : t.total ≤ u.total) : t.date.year ≤ u.date.year := by
  refine Date.ofDays_year_mono (Int.ediv_le_ediv (by decide) ?_)
  unfold total at h
  omega

/-- An instant between two that have a text in documents has one. -/
theorem document?_between {t u v : Instant} (hu : u.nanoseconds < 10 ^ 9) (hv : v.nanoseconds < 10 ^ 9)
    (htu : t.offset = u.offset) (huv : u.offset = v.offset) (hlow : t.total ≤ u.total)
    (hhigh : u.total ≤ v.total) (ht : t.document?.isSome = true) (hv' : v.document?.isSome = true) :
    u.document?.isSome = true := by
  rw [document?_isSome] at ht hv' ⊢
  have hfirst := date_year_mono hu htu hlow
  have hlast := date_year_mono hv huv hhigh
  rw [htu] at ht
  omega

end Instant

end Tuning
