import Tuning.Proofs.Json.Reading

/-! # Strings in compact texts

A compact text opens and closes its strings in turn. Outside of them it has neither a bar nor a
backslash, so a bar in front of a compact text can be told from the bars inside of it. -/

namespace Tuning.Json

/-- Where a reader of a text stands. -/
inductive Place where
  | outside
  | inside
  /-- Inside a string, behind a backslash. -/
  | escaped
  deriving DecidableEq

/-- Where the reader stands behind one more character. Outside of strings no bar and no backslash is
passed. -/
def Place.after : Place → Char → Option Place
  | .outside, c =>
    if c = '"' then some .inside else if c = '|' ∨ c = '\\' then none else some .outside
  | .inside, c =>
    if c = '"' then some .outside else if c = '\\' then some .escaped else some .inside
  | .escaped, _ => some .inside

/-- Follows a text by its quotes. -/
def follow (place : Place) (cs : List Char) : Option Place :=
  cs.foldlM Place.after place

theorem follow_cons (place : Place) (c : Char) (cs : List Char) :
    follow place (c :: cs) = (place.after c).bind (follow · cs) :=
  List.foldlM_cons

theorem follow_append (place : Place) (xs ys : List Char) :
    follow place (xs ++ ys) = (follow place xs).bind (follow · ys) :=
  List.foldlM_append

/-- A text that leads from one place to itself can be left out. -/
theorem follow_append_of_stays {place : Place} {xs : List Char} (h : follow place xs = some place)
    (ys : List Char) : follow place (xs ++ ys) = follow place ys := by
  rw [follow_append, h, Option.bind_some]

/-- Characters that mean nothing outside of strings. -/
def isPlain (c : Char) : Bool :=
  c != '"' && c != '|' && c != '\\'

theorem after_of_plain {c : Char} (h : isPlain c = true) : Place.outside.after c = some .outside := by
  simp only [isPlain, Bool.and_eq_true, bne_iff_ne] at h
  simp [Place.after, h]

theorem follow_cons_of_plain {c : Char} (h : isPlain c = true) (cs : List Char) :
    follow .outside (c :: cs) = follow .outside cs := by
  rw [follow_cons, after_of_plain h, Option.bind_some]

theorem follow_of_plain {cs : List Char} (h : ∀ c ∈ cs, isPlain c = true) :
    follow .outside cs = some .outside := by
  induction cs with
  | nil => rfl
  | cons c cs ih =>
      rw [follow_cons_of_plain (h c List.mem_cons_self)]
      exact ih fun d hd => h d (List.mem_cons_of_mem c hd)

/-! ## Compact texts -/

theorem hexDigit_ne : ∀ n < 16, hexDigit n ≠ '"' ∧ hexDigit n ≠ '\\' := by
  decide

theorem follow_hexDigits (n : Nat) : follow .inside (hexDigits n) = some .inside := by
  have hne : ∀ k, hexDigit (k % 16) ≠ '"' ∧ hexDigit (k % 16) ≠ '\\' := fun k =>
    hexDigit_ne _ (Nat.mod_lt _ (by decide))
  simp [hexDigits, Place.after, hne, follow]

theorem follow_escapeChar (c : Char) : follow .inside (escapeChar c) = some .inside := by
  unfold escapeChar
  split
  case h_8 hquote hslash _ _ _ _ _ =>
    split
    · exact follow_hexDigits c.toNat
    · have hafter : Place.inside.after c = some .inside :=
        (if_neg hquote).trans (if_neg hslash)
      rw [follow_cons, hafter]
      rfl
  all_goals rfl

/-- Parts that stay inside a string stay there together. -/
theorem follow_flatMap {α : Type} {part : α → List Char}
    (h : ∀ x, follow .inside (part x) = some .inside) (xs : List α) :
    follow .inside (xs.flatMap part) = some .inside := by
  induction xs with
  | nil => rfl
  | cons x xs ih => rw [List.flatMap_cons, follow_append_of_stays (h x), ih]

theorem follow_quote (s : String) : follow .outside (quote s).toList = some .outside := by
  rw [quote, String.toList_ofList]
  exact follow_append_of_stays (follow_flatMap follow_escapeChar s.toList) ['"']

theorem follow_quoteSpelled (spelled : List (Option Char)) :
    follow .outside (quoteSpelled spelled).toList = some .outside := by
  have hpart : ∀ c, follow .inside (escapeSpelled c) = some .inside := by
    rintro (_ | c)
    · exact follow_hexDigits 0xfffd
    · exact follow_escapeChar c
  rw [quoteSpelled, String.toList_ofList]
  exact follow_append_of_stays (follow_flatMap hpart spelled) ['"']

theorem Numeral.plain_text {n : Numeral} (hn : n.Valid) :
    ∀ c ∈ n.text, isPlain c = true := by
  intro c hc
  simp only [isPlain, Bool.and_eq_true, bne_iff_ne]
  rcases inNumber_of_mem_text hn c hc with hc | rfl | rfl
  · refine ⟨⟨?_, ?_⟩, ?_⟩ <;> rintro rfl <;> simp [inNumber] at hc
  · decide
  · decide

theorem follow_tailChars {α : Type} {part : α → List Char} {close : Char}
    (hclose : isPlain close = true) {xs : List α}
    (h : ∀ x ∈ xs, follow .outside (part x) = some .outside) :
    follow .outside (tailChars part [close] xs) = some .outside := by
  induction xs with
  | nil => exact follow_cons_of_plain hclose []
  | cons x xs ih =>
      rw [tailChars, follow_cons_of_plain (by decide),
        follow_append_of_stays (h x List.mem_cons_self)]
      exact ih fun y hy => h y (List.mem_cons_of_mem x hy)

/-- A compact text closes every string that it opens. -/
theorem follow_chars {depth : Nat} {j : Json} (h : Fits depth j) :
    follow .outside (chars j) = some .outside := by
  induction h with
  | null => rfl
  | bool b => cases b <;> rfl
  | number hn =>
      rw [chars, compact, String.toList_ofList]
      exact follow_of_plain (Numeral.plain_text hn)
  | string s => exact follow_quote s
  | garbled spelled => exact follow_quoteSpelled spelled
  | @array _ items _ ih =>
      cases items with
      | nil => rfl
      | cons j js =>
          rw [chars_array_cons, follow_cons_of_plain (by decide),
            follow_append_of_stays (ih j List.mem_cons_self)]
          exact follow_tailChars (by decide) fun k hk => ih k (List.mem_cons_of_mem j hk)
  | @object _ fields _ ih =>
      have hfield : ∀ f ∈ fields, follow .outside (fieldChars [] chars f) = some .outside := by
        intro f hf
        rw [fieldChars, List.nil_append, follow_append_of_stays (follow_quote f.1),
          follow_cons_of_plain (by decide)]
        exact ih f hf
      cases fields with
      | nil => rfl
      | cons f fs =>
          rw [chars_object_cons, follow_cons_of_plain (by decide),
            follow_append_of_stays (hfield f List.mem_cons_self)]
          exact follow_tailChars (by decide) fun g hg => hfield g (List.mem_cons_of_mem f hg)

/-! ## Bars -/

/-- A text that can be followed from both sides of a quote has no backslash, so it opens one string
more or less depending on the side. -/
theorem follow_opposite {cs : List Char} {a b : Place} (ha : follow .outside cs = some a)
    (hb : follow .inside cs = some b) : a = .outside ∧ b = .inside ∨ a = .inside ∧ b = .outside := by
  induction cs generalizing a b with
  | nil =>
      obtain rfl := Option.some.inj ha
      obtain rfl := Option.some.inj hb
      exact .inl ⟨rfl, rfl⟩
  | cons c cs ih =>
      rw [follow_cons] at ha hb
      obtain ⟨a', ha', ha⟩ := Option.bind_eq_some_iff.mp ha
      obtain ⟨b', hb', hb⟩ := Option.bind_eq_some_iff.mp hb
      by_cases hquote : c = '"'
      · obtain rfl : .inside = a' := by simpa [Place.after, hquote] using ha'
        obtain rfl : .outside = b' := by simpa [Place.after, hquote] using hb'
        exact (ih hb ha).symm.imp And.symm And.symm
      · have hplain : ¬(c = '|' ∨ c = '\\') := by
          intro hstop
          simp [Place.after, hquote, hstop] at ha'
        have hslash : c ≠ '\\' := fun h => hplain (.inr h)
        obtain rfl : .outside = a' := by simpa [Place.after, hquote, hplain] using ha'
        obtain rfl : .inside = b' := by simpa [Place.after, hquote, hslash] using hb'
        exact ih ha hb

/-- No compact text ends in a bar and another compact text. -/
theorem chars_ne_append_bar {depth : Nat} {j k : Json} (hj : Fits depth j) (hk : Fits depth k)
    (front : List Char) : chars k ≠ front ++ '|' :: chars j := by
  intro h
  have hfollow := follow_chars hk
  rw [h, follow_append] at hfollow
  obtain ⟨place, -, hrest⟩ := Option.bind_eq_some_iff.mp hfollow
  -- behind the bar the reader is inside a string, where it would be outside on its own
  have hinside : follow .inside (chars j) = some .outside := by
    cases place with
    | outside => cases hrest
    | inside => exact hrest
    | escaped => exact hrest
  rcases follow_opposite (follow_chars hj) hinside with ⟨-, h⟩ | ⟨h, -⟩ <;> cases h

/-- The last compact text behind a bar can be told from what stands in front of the bar. -/
theorem append_bar_injective {depth : Nat} {j k : Json} (hj : Fits depth j) (hk : Fits depth k)
    {front front' : List Char} (h : front ++ '|' :: chars j = front' ++ '|' :: chars k) :
    front = front' ∧ chars j = chars k := by
  rcases List.append_eq_append_iff.mp h with ⟨more, hfront, hrest⟩ | ⟨more, hfront, hrest⟩
  · cases more with
    | nil => exact ⟨by rw [hfront, List.append_nil], (List.cons.inj hrest).2⟩
    | cons c more => exact absurd (List.cons.inj hrest).2 (chars_ne_append_bar hk hj more)
  · cases more with
    | nil => exact ⟨by rw [hfront, List.append_nil], (List.cons.inj hrest).2.symm⟩
    | cons c more => exact absurd (List.cons.inj hrest).2 (chars_ne_append_bar hj hk more)

end Tuning.Json
