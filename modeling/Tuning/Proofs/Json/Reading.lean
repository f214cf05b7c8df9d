import Tuning.Json.Printer
import Tuning.Json.Reader
import Tuning.Proofs.Decimal.Numeral

/-! # Texts read back

Reading the compact or the indented text of a document gives the document, in which the replacement
character stands for every byte that belongs to no character. -/

namespace Tuning.Json

/-! ## Numbers -/

/-- The characters with which a number may go on. -/
def inNumber (c : Char) : Bool :=
  c.isDigit || c == '.' || c == 'e' || c == 'E'

theorem stops_isDigit {r : List Char} (h : Stops inNumber r) : Stops Char.isDigit r := by
  intro c hc
  have hstop := h c hc
  simp only [inNumber, Bool.or_eq_false_iff] at hstop
  exact hstop.1.1.1

section Numeral

variable {n : Numeral} {r : List Char}

theorem stops_powerText_append (hr : Stops inNumber r) :
    Stops Char.isDigit (n.powerText ++ r) := by
  unfold Numeral.powerText
  split
  · exact stops_isDigit hr
  · exact stops_cons (by decide) _

theorem stops_fractionText_append (hr : Stops inNumber r) :
    Stops Char.isDigit (n.fractionText ++ (n.powerText ++ r)) := by
  unfold Numeral.fractionText
  split
  · exact stops_powerText_append hr
  · exact stops_cons (by decide) _

theorem wholePart?_append (hn : n.Valid) {t : List Char} (ht : Stops Char.isDigit t) :
    wholePart? (n.whole ++ t) = some (n.whole, t) := by
  rcases hn.lead with hzero | hlead
  · rw [hzero]
    rfl
  · have hspan : spanDigits (n.whole ++ t) = (n.whole, t) := span_append hn.whole_digits ht
    obtain ⟨c, cs, hw⟩ := List.exists_cons_of_ne_nil hn.whole_ne_nil
    rw [hw] at hlead hspan ⊢
    have hc : c ≠ '0' := by simpa using hlead
    unfold wholePart?
    split
    · next heq =>
        simp only [List.cons_append, List.cons.injEq] at heq
        exact absurd heq.1 hc
    · rw [hspan]

theorem exponentPart?_append (hn : n.Valid) (hr : Stops inNumber r) :
    exponentPart? (n.powerText ++ r) = some (n.powerText, r) := by
  unfold Numeral.powerText
  rcases hp : n.power with _ | ⟨negative, ds⟩
  · cases r with
    | nil => rfl
    | cons c cs =>
        have hc := hr c (by simp)
        simp only [inNumber, Bool.or_eq_false_iff, beq_eq_false_iff_ne] at hc
        simp [exponentPart?, hc.2, hc.1.2]
  · have hspan : spanDigits (ds ++ r) = (ds, r) :=
      span_append (hn.power_digits _ _ hp) (stops_isDigit hr)
    obtain ⟨d, rest, hds⟩ := List.exists_cons_of_ne_nil (hn.power_ne_nil _ _ hp)
    rw [hds, List.cons_append] at hspan
    cases negative <;> simp [exponentPart?, hspan, hds]

theorem fractionPart?_append (hn : n.Valid) (hr : Stops inNumber r) :
    fractionPart? (n.fractionText ++ (n.powerText ++ r)) =
      some (n.fractionText, n.powerText ++ r) := by
  unfold Numeral.fractionText
  split
  · -- without fraction, what follows begins with the mark of the exponent or ends the number
    rw [List.nil_append]
    unfold fractionPart?
    split
    · next cs heq =>
        unfold Numeral.powerText at heq
        rcases hp : n.power with _ | ⟨negative, ds⟩ <;> rw [hp] at heq
        · have hr' : r = '.' :: cs := heq
          have hdot := hr '.' (by simp [hr'])
          simp [inNumber] at hdot
        · simp at heq
    · rfl
  · next hne =>
      have hspan : spanDigits (n.fraction ++ (n.powerText ++ r)) = (n.fraction, n.powerText ++ r) :=
        span_append hn.fraction_digits (stops_powerText_append hr)
      obtain ⟨d, ds, hds⟩ := List.exists_cons_of_ne_nil hne
      rw [hds, List.cons_append] at hspan
      simp [fractionPart?, hds, hspan]

/-- A numeral is read as a whole. -/
theorem number?_text (hn : n.Valid) (hr : Stops inNumber r) :
    number? (n.text ++ r) = some (number (String.ofList n.text), r) := by
  have hwhole := wholePart?_append hn (stops_fractionText_append (n := n) hr)
  have hfraction := fractionPart?_append hn hr
  have hpower := exponentPart?_append hn hr
  unfold number? Numeral.text Numeral.signText
  cases n.negative
  · obtain ⟨c, cs, hc, hcs⟩ := hn.exists_magnitude
    have hsign : c ≠ '-' := by
      rintro rfl
      simp at hc
    have hfirst : n.whole ++ (n.fractionText ++ (n.powerText ++ r)) = c :: (cs ++ r) := by
      rw [← List.cons_append, ← hcs, Numeral.magnitude]
      simp
    rw [hfirst] at hwhole
    simp [Numeral.magnitude, hfirst, hsign, hwhole, hfraction, hpower]
  · simp [hwhole, hfraction, hpower, Numeral.magnitude]

end Numeral

/-! ## Strings -/

theorem hexValue?_hexDigit : ∀ n < 16, hexValue? (hexDigit n) = some n := by
  decide

theorem unit?_hexDigits {n : Nat} (h : n < 65536) :
    (unit? (hexDigit (n / 4096 % 16)) (hexDigit (n / 256 % 16)) (hexDigit (n / 16 % 16))
      (hexDigit (n % 16))) = some n := by
  have hvalue : ∀ k, hexValue? (hexDigit (k % 16)) = some (k % 16) := fun k =>
    hexValue?_hexDigit _ (Nat.mod_lt _ (by decide))
  simp only [unit?, hvalue, Option.pure_def, Option.bind_eq_bind, Option.bind_some,
    Option.some.injEq]
  omega

/-- A character is no half of a pair, so its own unit stands for it. -/
theorem unitChar_toNat (c : Char) : isLead c.toNat = false ∧ unitChar c.toNat = c := by
  have hvalid : c.toNat < 0xd800 ∨ 0xdfff < c.toNat ∧ c.toNat < 0x110000 := c.valid
  have hlead : isLead c.toNat = false := by
    simp only [isLead, Bool.and_eq_false_iff, decide_eq_false_iff_not]
    omega
  have htrail : isTrail c.toNat = false := by
    simp only [isTrail, Bool.and_eq_false_iff, decide_eq_false_iff_not]
    omega
  exact ⟨hlead, by simp [unitChar, hlead, htrail, Char.ofNat_toNat]⟩

/-- The written form of a character is read as the character. -/
theorem stringTail_escapeChar (c : Char) (done t : List Char) :
    stringTail none done (escapeChar c ++ t) = stringTail none (c :: done) t := by
  unfold escapeChar
  split
  case h_8 hquote hslash _ _ _ _ _ =>
    split
    · next hc =>
        have hunit : c.toNat < 65536 := by
          simp only [Bool.or_eq_true, decide_eq_true_eq, beq_iff_eq] at hc
          rcases hc with ((((hc | rfl) | rfl) | rfl) | rfl) | rfl
          · omega
          all_goals decide
        obtain ⟨hlead, hchar⟩ := unitChar_toNat c
        simp [stringTail, hexDigits, unit?_hexDigits hunit, hlead, hchar]
    · next hc =>
        have hplain : ¬(c.toNat < 32) := by
          intro hlt
          simp [hlt] at hc
        rw [List.singleton_append, stringTail.eq_def]
        split <;> simp_all [settle]
  all_goals simp [stringTail, shortEscape?, settle]

theorem stringTail_escapeSpelled (c : Option Char) (done t : List Char) :
    stringTail none done (escapeSpelled c ++ t) = stringTail none (c.getD '\ufffd' :: done) t := by
  cases c with
  | some c => exact stringTail_escapeChar c done t
  | none =>
      obtain ⟨hlead, hchar⟩ := unitChar_toNat '\ufffd'
      have hunit := unit?_hexDigits (by decide : 0xfffd < 65536)
      change isLead 0xfffd = false at hlead
      change unitChar 0xfffd = '\ufffd' at hchar
      simp [escapeSpelled, stringTail, hexDigits, hunit, hlead, hchar]

/-- What is spelled is read up to the closing quote. -/
theorem stringTail_spelled (cs : List (Option Char)) (done r : List Char) :
    stringTail none done (cs.flatMap escapeSpelled ++ '"' :: r) =
      some (done.reverse ++ cs.map (·.getD '\ufffd'), r) := by
  induction cs generalizing done with
  | nil => simp [stringTail, settle]
  | cons c cs ih =>
      rw [List.flatMap_cons, List.append_assoc, stringTail_escapeSpelled, ih]
      simp

/-- The written form of characters is read up to the closing quote. -/
theorem stringTail_escape (cs done r : List Char) :
    stringTail none done (cs.flatMap escapeChar ++ '"' :: r) = some (done.reverse ++ cs, r) := by
  have hread := stringTail_spelled (cs.map some) done r
  rw [List.flatMap_map, List.map_map] at hread
  simpa [Function.comp_def, escapeSpelled] using hread

/-! ## The characters of documents -/

/-- The characters of the compact text. -/
def chars (j : Json) : List Char :=
  j.compact.toList

/-- The characters of the indented text at a depth. -/
def indentedChars (depth : Nat) (j : Json) : List Char :=
  (j.indentedAt depth).toList

/-- The characters of a field: a lead, the name and the text of the value. -/
def fieldChars (lead : List Char) (text : Json → List Char) (f : String × Json) : List Char :=
  lead ++ ((quote f.1).toList ++ ':' :: text f.2)

/-- Parts behind a first part, and what closes them. -/
def tailChars {α : Type} (part : α → List Char) (last : List Char) : List α → List Char
  | [] => last
  | x :: xs => ',' :: (part x ++ tailChars part last xs)

theorem intercalate_chars {α : Type} (part : α → String) (pad : String) (x : α) (xs : List α)
    (last : List Char) :
    (("," ++ pad).intercalate ((x :: xs).map part)).toList ++ last =
      (part x).toList ++ tailChars (fun x => pad.toList ++ (part x).toList) last xs := by
  induction xs generalizing x with
  | nil => simp [tailChars]
  | cons y ys ih =>
      have hy := ih y
      simp only [List.map_cons, String.intercalate_cons_cons, String.toList_append,
        List.append_assoc, tailChars] at hy ⊢
      rw [hy]
      rfl

theorem intercalate_compact {α : Type} (part : α → String) (x : α) (xs : List α) (last : List Char) :
    (",".intercalate ((x :: xs).map part)).toList ++ last =
      (part x).toList ++ tailChars (fun x => (part x).toList) last xs := by
  have hparts := intercalate_chars part "" x xs last
  simpa only [String.append_empty, String.toList_empty, List.nil_append] using hparts

theorem compactItems_eq (items : List Json) : compactItems items = items.map compact := by
  induction items with
  | nil => rfl
  | cons j js ih => rw [compactItems, ih, List.map_cons]

theorem compactFields_eq (fields : List (String × Json)) :
    compactFields fields = fields.map fun f => quote f.1 ++ ":" ++ compact f.2 := by
  induction fields with
  | nil => rfl
  | cons f fs ih => rw [compactFields, ih, List.map_cons]

theorem chars_array_cons (j : Json) (js : List Json) :
    chars (array (j :: js)) = '[' :: (chars j ++ tailChars chars [']'] js) := by
  rw [chars, compact, compactItems_eq, String.toList_append, String.toList_append, List.append_assoc]
  exact congrArg ('[' :: ·) (intercalate_compact compact j js [']'])

theorem chars_object_cons (f : String × Json) (fs : List (String × Json)) :
    chars (object (f :: fs)) =
      '\x7b' :: (fieldChars [] chars f ++ tailChars (fieldChars [] chars) ['\x7d'] fs) := by
  have hpart : fieldChars [] chars =
      fun f : String × Json => (quote f.1 ++ ":" ++ compact f.2).toList := by
    funext f
    simp [fieldChars, chars]
  rw [chars, compact, compactFields_eq, String.toList_append, String.toList_append,
    List.append_assoc, hpart]
  exact congrArg ('\x7b' :: ·) (intercalate_compact _ f fs ['\x7d'])

/-- A new line with an indentation. -/
def newLine (depth : Nat) : List Char :=
  '\n' :: List.replicate (2 * depth) ' '

/-- The characters of an item of an indented array. -/
def itemChars (depth : Nat) (j : Json) : List Char :=
  newLine depth ++ indentedChars depth j

theorem indentedItems_eq (depth : Nat) (items : List Json) :
    indentedItems depth items = items.map (indentedAt depth) := by
  induction items with
  | nil => rfl
  | cons j js ih => rw [indentedItems, ih, List.map_cons]

theorem indentedFields_eq (depth : Nat) (fields : List (String × Json)) :
    indentedFields depth fields =
      fields.map fun f => quote f.1 ++ ": " ++ indentedAt depth f.2 := by
  induction fields with
  | nil => rfl
  | cons f fs ih => rw [indentedFields, ih, List.map_cons]

theorem bracketed_chars {α : Type} (first last : Char) (depth : Nat) (part : α → String) (x : α)
    (xs : List α) :
    (bracketed (String.singleton first) (String.singleton last) depth ((x :: xs).map part)).toList =
      first :: (newLine (depth + 1) ++ (part x).toList ++
        tailChars (fun x => newLine (depth + 1) ++ (part x).toList) (newLine depth ++ [last]) xs) := by
  have hparts := intercalate_chars part
    (String.ofList (newLine (depth + 1))) x xs (newLine depth ++ [last])
  rw [String.toList_ofList] at hparts
  have hpad : ∀ n, "\n" ++ String.ofList (List.replicate (2 * n) ' ') = String.ofList (newLine n) := by
    intro n
    rw [← String.toList_inj]
    simp [newLine]
  rw [bracketed]
  · simp only [hpad, String.toList_append, String.toList_ofList, List.append_assoc,
      String.toList_singleton, hparts]
    rfl
  · simp

theorem indentedChars_array_cons (depth : Nat) (j : Json) (js : List Json) :
    indentedChars depth (array (j :: js)) =
      '[' :: (itemChars (depth + 1) j ++
        tailChars (itemChars (depth + 1)) (newLine depth ++ [']']) js) := by
  rw [indentedChars, indentedAt, indentedItems_eq]
  exact bracketed_chars '[' ']' depth (indentedAt (depth + 1)) j js

/-- The characters of a field of an indented object. -/
def indentedField (depth : Nat) : String × Json → List Char :=
  fieldChars (newLine depth) fun j => ' ' :: indentedChars depth j

theorem indentedChars_object_cons (depth : Nat) (f : String × Json) (fs : List (String × Json)) :
    indentedChars depth (object (f :: fs)) =
      '\x7b' :: (indentedField (depth + 1) f ++
        tailChars (indentedField (depth + 1)) (newLine depth ++ ['\x7d']) fs) := by
  have hpart : indentedField (depth + 1) = fun f : String × Json =>
      newLine (depth + 1) ++ (quote f.1 ++ ": " ++ indentedAt (depth + 1) f.2).toList := by
    funext f
    simp [indentedField, fieldChars, indentedChars]
  rw [indentedChars, indentedAt, indentedFields_eq, hpart]
  exact bracketed_chars '\x7b' '\x7d' depth _ f fs

/-! ## Documents -/

/-- The documents with numerals for numbers whose arrays and objects stand at most `depth` deep in each
other. -/
inductive Fits : Nat → Json → Prop
  | null {depth : Nat} : Fits depth null
  | bool {depth : Nat} (b : Bool) : Fits depth (bool b)
  | number {depth : Nat} {n : Numeral} (hn : n.Valid) : Fits depth (number (String.ofList n.text))
  | string {depth : Nat} (s : String) : Fits depth (string s)
  | garbled {depth : Nat} (spelled : List (Option Char)) : Fits depth (garbled spelled)
  | array {depth : Nat} {items : List Json} (h : ∀ j ∈ items, Fits depth j) :
      Fits (depth + 1) (array items)
  | object {depth : Nat} {fields : List (String × Json)} (h : ∀ f ∈ fields, Fits depth f.2) :
      Fits (depth + 1) (object fields)

theorem Fits.succ {depth : Nat} {j : Json} (h : Fits depth j) : Fits (depth + 1) j := by
  induction h with
  | null => exact .null
  | bool b => exact .bool b
  | number hn => exact .number hn
  | string s => exact .string s
  | garbled spelled => exact .garbled spelled
  | array _ ih => exact .array ih
  | object _ ih => exact .object ih

theorem Fits.mono {depth depth' : Nat} {j : Json} (h : Fits depth j) (hle : depth ≤ depth') :
    Fits depth' j := by
  induction hle with
  | refl => exact h
  | step _ ih => exact ih.succ

mutual

/-- The document that the text of a document reads as. -/
def legible : Json → Json
  | null => null
  | bool b => bool b
  | number text => number text
  | string s => string s
  | garbled spelled => string (Text.shown spelled)
  | array items => array (legibleItems items)
  | object fields => object (legibleFields fields)

/-- The documents that the texts of items read as. -/
def legibleItems : List Json → List Json
  | [] => []
  | item :: rest => legible item :: legibleItems rest

/-- The fields that the texts of fields read as. -/
def legibleFields : List (String × Json) → List (String × Json)
  | [] => []
  | (name, value) :: rest => (name, legible value) :: legibleFields rest

end

theorem legibleItems_eq (items : List Json) : legibleItems items = items.map legible := by
  induction items with
  | nil => rfl
  | cons j js ih => rw [legibleItems, ih, List.map_cons]

theorem legibleFields_eq (fields : List (String × Json)) :
    legibleFields fields = fields.map fun f => (f.1, f.2.legible) := by
  induction fields with
  | nil => rfl
  | cons f fs ih => rw [legibleFields, ih, List.map_cons]

@[simp] theorem legible_int (n : Int) : (int n).legible = int n :=
  rfl

@[simp] theorem legible_float (x : Float) : (float x).legible = float x :=
  rfl

@[simp] theorem legibleFields_append (xs ys : List (String × Json)) :
    legibleFields (xs ++ ys) = legibleFields xs ++ legibleFields ys := by
  simp [legibleFields_eq]

@[simp] theorem legibleFields_field? (present : Bool) (name : String) (value : Json) :
    legibleFields (field? present name value) = field? present name value.legible := by
  cases present <;> rfl

/-- The reader takes a text as a document off the front of what does not go on like a number. -/
def Reads (depth : Nat) (text : List Char) (j : Json) : Prop :=
  ∀ fuel r, 2 * text.length ≤ fuel → Stops inNumber r →
    value? fuel depth (text ++ r) = some (j, r)

theorem skipBlanks_cons {c : Char} (h : isBlank c = false) (cs : List Char) :
    skipBlanks (c :: cs) = c :: cs := by
  simp [skipBlanks, h]

theorem skipBlanks_append {pad : List Char} (h : ∀ c ∈ pad, isBlank c = true) (cs : List Char) :
    skipBlanks (pad ++ cs) = skipBlanks cs :=
  List.dropWhile_append_of_pos h

theorem skipBlanks_skipBlanks (cs : List Char) : skipBlanks (skipBlanks cs) = skipBlanks cs :=
  List.dropWhile_idempotent _ cs

theorem value?_skipBlanks (fuel depth : Nat) (cs : List Char) :
    value? fuel depth (skipBlanks cs) = value? fuel depth cs := by
  cases fuel with
  | zero => rfl
  | succ fuel => rw [value?, value?, skipBlanks_skipBlanks]

theorem items?_skipBlanks (fuel depth : Nat) (done : List Json) (cs : List Char) :
    items? fuel depth done (skipBlanks cs) = items? fuel depth done cs := by
  cases fuel with
  | zero => rfl
  | succ fuel => rw [items?, items?, value?_skipBlanks]

theorem fields?_skipBlanks (fuel depth : Nat) (done : List (String × Json)) (cs : List Char) :
    fields? fuel depth done (skipBlanks cs) = fields? fuel depth done cs := by
  cases fuel with
  | zero => rfl
  | succ fuel => rw [fields?, fields?, skipBlanks_skipBlanks]

/-- Blanks in front of a text are passed over. -/
theorem Reads.padded {depth : Nat} {pad text : List Char} {j : Json}
    (hpad : ∀ c ∈ pad, isBlank c = true) (h : Reads depth text j) : Reads depth (pad ++ text) j := by
  intro fuel r hfuel hr
  rw [List.length_append] at hfuel
  rw [List.append_assoc, ← value?_skipBlanks, skipBlanks_append hpad, value?_skipBlanks]
  exact h fuel r (by omega) hr

/-- No value begins with a closing bracket. -/
theorem Reads.skipBlanks_ne {depth : Nat} {text r : List Char} {j : Json} (h : Reads depth text j)
    (hr : Stops inNumber r) (rest : List Char) : skipBlanks (text ++ r) ≠ ']' :: rest := by
  intro hskip
  have hread := h (2 * text.length + 1) r (by omega) hr
  rw [value?, hskip] at hread
  cases hread

/-- A closing bracket behind blanks. -/
structure Closes (close : Char) (last : List Char) : Prop where
  skipBlanks_eq : ∀ r, skipBlanks (last ++ r) = close :: r
  stops : ∀ r, Stops inNumber (last ++ r)

theorem Closes.length_pos {close : Char} {last : List Char} (h : Closes close last) :
    0 < last.length := by
  rw [List.length_pos_iff]
  rintro rfl
  simpa [skipBlanks] using h.skipBlanks_eq []

theorem closes_singleton {close : Char} (hblank : isBlank close = false)
    (hnumber : inNumber close = false) : Closes close [close] :=
  ⟨skipBlanks_cons hblank, stops_cons hnumber⟩

theorem isBlank_of_mem_newLine {depth : Nat} {c : Char} (h : c ∈ newLine depth) : isBlank c = true := by
  rcases List.mem_cons.mp h with rfl | h
  · decide
  · rw [List.eq_of_mem_replicate h]
    decide

theorem closes_newLine {close : Char} (hblank : isBlank close = false) (depth : Nat) :
    Closes close (newLine depth ++ [close]) := by
  refine ⟨fun r => ?_, fun r => stops_cons (by decide) _⟩
  rw [List.append_assoc, skipBlanks_append fun c hc => isBlank_of_mem_newLine hc]
  exact skipBlanks_cons hblank r

theorem stops_tailChars {α : Type} (part : α → List Char) {close : Char} {last : List Char}
    (hlast : Closes close last) (xs : List α) (r : List Char) :
    Stops inNumber (tailChars part last xs ++ r) := by
  cases xs with
  | nil => exact hlast.stops r
  | cons x xs => exact stops_cons (by decide) _

section Brackets

variable {depth : Nat} {last lead : List Char}

/-- The items of an array are read up to its closing bracket. -/
theorem items?_chars {part : Json → List Char} (hlast : Closes ']' last) (j : Json) (js : List Json)
    (h : ∀ k ∈ j :: js, Reads depth (part k) k.legible) (fuel : Nat) (done : List Json)
    (r : List Char) (hfuel : 2 * (part j ++ tailChars part last js).length ≤ fuel) :
    items? fuel depth done (part j ++ (tailChars part last js ++ r)) =
      some (array (done.reverse ++ legibleItems (j :: js)), r) := by
  induction js generalizing j fuel done with
  | nil =>
      rw [List.length_append, tailChars] at hfuel
      have hlength := hlast.length_pos
      obtain ⟨fuel, rfl⟩ : ∃ k, fuel = k + 1 := ⟨fuel - 1, by omega⟩
      have hj := h j (by simp) fuel (last ++ r) (by omega) (hlast.stops r)
      rw [items?, tailChars, hj]
      simp [hlast.skipBlanks_eq, legibleItems]
  | cons k ks ih =>
      rw [List.length_append, tailChars, List.length_cons, List.length_append] at hfuel
      obtain ⟨fuel, rfl⟩ : ∃ k, fuel = k + 1 := ⟨fuel - 1, by omega⟩
      have hj := h j (by simp) fuel (tailChars part last (k :: ks) ++ r) (by omega)
        (stops_tailChars part hlast (k :: ks) r)
      have hrest := ih k (fun l hl => h l (by simp [List.mem_cons.mp hl])) fuel (j.legible :: done)
        (by rw [List.length_append]; omega)
      rw [items?, hj]
      simp only [tailChars, List.cons_append, List.append_assoc]
      rw [skipBlanks_cons (by decide)]
      simpa [legibleItems] using hrest

theorem fieldChars_append (text : Json → List Char) (f : String × Json) (t : List Char) :
    fieldChars lead text f ++ t =
      lead ++ '"' :: (f.1.toList.flatMap escapeChar ++ '"' :: ':' :: (text f.2 ++ t)) := by
  simp [fieldChars, quote]

theorem length_fieldChars (lead : List Char) (text : Json → List Char) (f : String × Json) :
    (text f.2).length < (fieldChars lead text f).length := by
  simp only [fieldChars, List.length_append, List.length_cons]
  omega

/-- The fields of an object are read up to its closing bracket. -/
theorem fields?_chars {text : Json → List Char} (hlead : ∀ c ∈ lead, isBlank c = true)
    (hlast : Closes '\x7d' last) (f : String × Json) (fs : List (String × Json))
    (h : ∀ g ∈ f :: fs, Reads depth (text g.2) g.2.legible) (fuel : Nat)
    (done : List (String × Json)) (r : List Char)
    (hfuel : 2 * (fieldChars lead text f ++ tailChars (fieldChars lead text) last fs).length ≤ fuel) :
    fields? fuel depth done
        (fieldChars lead text f ++ (tailChars (fieldChars lead text) last fs ++ r)) =
      some (object (done.reverse ++ legibleFields (f :: fs)), r) := by
  induction fs generalizing f fuel done with
  | nil =>
      have hlength := length_fieldChars lead text f
      rw [List.length_append, tailChars] at hfuel
      obtain ⟨fuel, rfl⟩ : ∃ k, fuel = k + 1 := ⟨fuel - 1, by omega⟩
      have hf := h f (by simp) fuel (last ++ r) (by omega) (hlast.stops r)
      rw [fields?, tailChars, fieldChars_append, skipBlanks_append hlead, skipBlanks_cons (by decide)]
      simp [stringTail_escape, skipBlanks_cons, isBlank, hf, hlast.skipBlanks_eq, legibleFields]
  | cons g gs ih =>
      have hlength := length_fieldChars lead text f
      rw [List.length_append, tailChars, List.length_cons, List.length_append] at hfuel
      obtain ⟨fuel, rfl⟩ : ∃ k, fuel = k + 1 := ⟨fuel - 1, by omega⟩
      have hf := h f (by simp) fuel (tailChars (fieldChars lead text) last (g :: gs) ++ r) (by omega)
        (stops_tailChars _ hlast (g :: gs) r)
      have hrest := ih g (fun e he => h e (by simp [List.mem_cons.mp he])) fuel
        ((f.1, f.2.legible) :: done) (by rw [List.length_append]; omega)
      rw [fields?, fieldChars_append, skipBlanks_append hlead, skipBlanks_cons (by decide)]
      simp only [stringTail_escape, skipBlanks_cons (c := ':') (by decide), hf]
      simp only [tailChars, List.cons_append, List.append_assoc,
        skipBlanks_cons (c := ',') (by decide)]
      simpa [legibleFields] using hrest

/-- An array whose items are read is read. -/
theorem reads_array {part : Json → List Char} (hlast : Closes ']' last) (j : Json) (js : List Json)
    (h : ∀ k ∈ j :: js, Reads depth (part k) k.legible) :
    Reads (depth + 1) ('[' :: (part j ++ tailChars part last js)) (array (j :: js)).legible := by
  intro fuel r hfuel _
  rw [List.length_cons] at hfuel
  obtain ⟨fuel, rfl⟩ : ∃ k, fuel = k + 1 := ⟨fuel - 1, by omega⟩
  have hitems := items?_chars hlast j js h fuel [] r (by omega)
  have hopen := (h j (by simp)).skipBlanks_ne (stops_tailChars part hlast js r)
  rw [List.cons_append, value?, skipBlanks_cons (by decide), List.append_assoc]
  rw [← items?_skipBlanks] at hitems
  simpa [hopen, legible] using hitems

/-- An object whose values are read is read. -/
theorem reads_object {text : Json → List Char} (hlead : ∀ c ∈ lead, isBlank c = true)
    (hlast : Closes '\x7d' last) (f : String × Json) (fs : List (String × Json))
    (h : ∀ g ∈ f :: fs, Reads depth (text g.2) g.2.legible) :
    Reads (depth + 1)
      ('\x7b' :: (fieldChars lead text f ++ tailChars (fieldChars lead text) last fs))
      (object (f :: fs)).legible := by
  intro fuel r hfuel _
  rw [List.length_cons] at hfuel
  obtain ⟨fuel, rfl⟩ : ∃ k, fuel = k + 1 := ⟨fuel - 1, by omega⟩
  have hfields := fields?_chars hlead hlast f fs h fuel [] r (by omega)
  rw [fieldChars_append, ← fields?_skipBlanks, skipBlanks_append hlead,
    skipBlanks_cons (by decide)] at hfields
  rw [List.cons_append, value?, skipBlanks_cons (by decide), List.append_assoc, fieldChars_append]
  simpa [skipBlanks_append hlead, skipBlanks_cons, isBlank, legible] using hfields

end Brackets

/-- A numeral begins with a digit or a minus sign. -/
theorem exists_text {n : Numeral} (hn : n.Valid) :
    ∃ c cs, n.text = c :: cs ∧ (c = '-' ∨ c.isDigit = true) := by
  obtain ⟨c, cs, hc, hcs⟩ := hn.exists_magnitude
  unfold Numeral.text Numeral.signText
  cases n.negative
  · exact ⟨c, cs, by simpa using hcs, .inr hc⟩
  · exact ⟨'-', n.magnitude, rfl, .inl rfl⟩

theorem isBlank_of_isDigit {c : Char} (h : c = '-' ∨ c.isDigit = true) : isBlank c = false := by
  rcases h with rfl | h
  · decide
  · simp only [isBlank, Bool.or_eq_false_iff, beq_eq_false_iff_ne]
    refine ⟨⟨⟨?_, ?_⟩, ?_⟩, ?_⟩ <;> rintro rfl <;> simp at h

theorem reads_number {n : Numeral} (hn : n.Valid) (depth : Nat) :
    Reads depth (chars (number (String.ofList n.text))) (number (String.ofList n.text)) := by
  intro fuel r hfuel hr
  have hchars : chars (number (String.ofList n.text)) = n.text := String.toList_ofList
  obtain ⟨c, cs, hcs, hc⟩ := exists_text hn
  have hread := number?_text hn hr
  rw [hchars] at hfuel ⊢
  rw [hcs, List.cons_append] at hread
  obtain ⟨fuel, rfl⟩ : ∃ k, fuel = k + 1 := ⟨fuel - 1, by rw [hcs] at hfuel; simp at hfuel; omega⟩
  rw [hcs, List.cons_append, value?, skipBlanks_cons (isBlank_of_isDigit hc)]
  -- none of the other values begins like a number
  split
  case h_7 => exact hread
  all_goals
    next heq =>
      obtain ⟨rfl, -⟩ := List.cons.inj heq
      simp at hc

theorem reads_string (s : String) (depth : Nat) : Reads depth (chars (string s)) (string s) := by
  intro fuel r hfuel _
  have hchars : chars (string s) = '"' :: (s.toList.flatMap escapeChar ++ ['"']) :=
    String.toList_ofList
  rw [hchars] at hfuel ⊢
  obtain ⟨fuel, rfl⟩ : ∃ k, fuel = k + 1 := ⟨fuel - 1, by simp at hfuel; omega⟩
  rw [List.cons_append, value?, skipBlanks_cons (by decide)]
  simp [stringTail_escape]

theorem reads_garbled (spelled : List (Option Char)) (depth : Nat) :
    Reads depth (chars (garbled spelled)) (garbled spelled).legible := by
  intro fuel r hfuel _
  have hchars : chars (garbled spelled) = '"' :: (spelled.flatMap escapeSpelled ++ ['"']) :=
    String.toList_ofList
  rw [hchars] at hfuel ⊢
  obtain ⟨fuel, rfl⟩ : ∃ k, fuel = k + 1 := ⟨fuel - 1, by simp at hfuel; omega⟩
  rw [List.cons_append, value?, skipBlanks_cons (by decide)]
  simp [stringTail_spelled, legible, Text.shown]

theorem reads_null (depth : Nat) : Reads depth (chars null) null := by
  intro fuel r hfuel _
  have hchars : chars null = ['n', 'u', 'l', 'l'] := by decide
  rw [hchars] at hfuel ⊢
  obtain ⟨fuel, rfl⟩ : ∃ k, fuel = k + 1 := ⟨fuel - 1, by simp at hfuel; omega⟩
  simp [value?, skipBlanks_cons, isBlank]

theorem reads_bool (b : Bool) (depth : Nat) : Reads depth (chars (bool b)) (bool b) := by
  intro fuel r hfuel _
  have hchars : chars (bool b) =
      if b then ['t', 'r', 'u', 'e'] else ['f', 'a', 'l', 's', 'e'] := by
    cases b <;> decide
  rw [hchars] at hfuel ⊢
  obtain ⟨fuel, rfl⟩ : ∃ k, fuel = k + 1 := ⟨fuel - 1, by split at hfuel <;> simp at hfuel <;> omega⟩
  cases b <;> simp [value?, skipBlanks_cons, isBlank]

theorem reads_empty_array (depth : Nat) : Reads (depth + 1) ['[', ']'] (array []) := by
  intro fuel r hfuel _
  obtain ⟨fuel, rfl⟩ : ∃ k, fuel = k + 1 := ⟨fuel - 1, by simp at hfuel; omega⟩
  simp [value?, skipBlanks_cons, isBlank]

theorem reads_empty_object (depth : Nat) : Reads (depth + 1) ['\x7b', '\x7d'] (object []) := by
  intro fuel r hfuel _
  obtain ⟨fuel, rfl⟩ : ∃ k, fuel = k + 1 := ⟨fuel - 1, by simp at hfuel; omega⟩
  simp [value?, skipBlanks_cons, isBlank]

/-- The compact text of a document is read off the front of a text. -/
theorem reads_of_fits {depth : Nat} {j : Json} (h : Fits depth j) :
    Reads depth (chars j) j.legible := by
  induction h with
  | null => exact reads_null _
  | bool b => exact reads_bool b _
  | number hn => exact reads_number hn _
  | string s => exact reads_string s _
  | garbled spelled => exact reads_garbled spelled _
  | @array depth items _ ih =>
      cases items with
      | nil => exact reads_empty_array depth
      | cons j js =>
          rw [chars_array_cons]
          exact reads_array (closes_singleton (by decide) (by decide)) j js ih
  | @object depth fields _ ih =>
      cases fields with
      | nil => exact reads_empty_object depth
      | cons f fs =>
          rw [chars_object_cons]
          exact reads_object (by simp) (closes_singleton (by decide) (by decide)) f fs ih

/-- So is the indented text. -/
theorem reads_indented {depth : Nat} {j : Json} (h : Fits depth j) (level : Nat) :
    Reads depth (indentedChars level j) j.legible := by
  have hline : ∀ c ∈ newLine (level + 1), isBlank c = true := fun c hc => isBlank_of_mem_newLine hc
  induction h generalizing level with
  | null => exact reads_null _
  | bool b => exact reads_bool b _
  | number hn => exact reads_number hn _
  | string s => exact reads_string s _
  | garbled spelled => exact reads_garbled spelled _
  | @array depth items _ ih =>
      cases items with
      | nil =>
          have hchars : indentedChars level (array []) = ['[', ']'] := by
            simp [indentedChars, indentedAt, indentedItems, bracketed]
          rw [hchars]
          exact reads_empty_array depth
      | cons j js =>
          rw [indentedChars_array_cons]
          refine reads_array (closes_newLine (by decide) level) j js fun k hk => ?_
          exact (ih k hk (level + 1) fun c hc => isBlank_of_mem_newLine hc).padded hline
  | @object depth fields _ ih =>
      cases fields with
      | nil =>
          have hchars : indentedChars level (object []) = ['\x7b', '\x7d'] := by
            simp [indentedChars, indentedAt, indentedFields, bracketed]
          rw [hchars]
          exact reads_empty_object depth
      | cons f fs =>
          rw [indentedChars_object_cons]
          refine reads_object hline (closes_newLine (by decide) level) f fs fun g hg => ?_
          have hvalue := ih g hg (level + 1) fun c hc => isBlank_of_mem_newLine hc
          exact hvalue.padded (by simp [isBlank] : ∀ c ∈ [' '], isBlank c = true)

theorem Reads.parse? {text : String} {j : Json} (h : Reads maxDepth text.toList j) :
    parse? text = some j := by
  have hread := h (2 * text.toList.length + 2) [] (Nat.le_add_right _ 2) (stops_nil _)
  rw [List.append_nil] at hread
  have hfirst : first? text.toList = some (j, []) := hread
  rw [Json.parse?, hfirst]
  rfl

/-- The compact text of a document reads back. -/
theorem parse?_compact {j : Json} (h : Fits maxDepth j) : parse? j.compact = some j.legible :=
  (reads_of_fits h).parse?

/-- The indented text of a document reads back. -/
theorem parse?_indented {j : Json} (h : Fits maxDepth j) : parse? j.indented = some j.legible :=
  (reads_indented h 0).parse?

/-- A compact text is that of one legible document only. -/
theorem compact_injective {j k : Json} (hj : Fits maxDepth j) (hk : Fits maxDepth k)
    (h : j.compact = k.compact) : j.legible = k.legible := by
  refine Option.some.inj ?_
  rw [← parse?_compact hj, h, parse?_compact hk]

/-- Of two texts that are read off the front of one list of characters, none goes on longer. -/
theorem Reads.append_inj {depth : Nat} {text text' r r' : List Char} {j k : Json}
    (h : Reads depth text j) (h' : Reads depth text' k) (hr : Stops inNumber r)
    (hr' : Stops inNumber r') (heq : text ++ r = text' ++ r') : text = text' ∧ r = r' := by
  have hread := h (2 * max text.length text'.length) r (by omega) hr
  rw [heq, h' (2 * max text.length text'.length) r' (by omega) hr'] at hread
  obtain ⟨-, rfl⟩ := Prod.mk.inj (Option.some.inj hread)
  exact ⟨List.append_cancel_right heq, rfl⟩

/-- Fields with one name and one text. -/
def SameText (f g : String × Json) : Prop :=
  f.1 = g.1 ∧ f.2.compact = g.2.compact

theorem fieldChars_inj {depth : Nat} {f g : String × Json} {r r' : List Char} (hf : Fits depth f.2)
    (hg : Fits depth g.2) (hr : Stops inNumber r) (hr' : Stops inNumber r')
    (h : fieldChars [] chars f ++ r = fieldChars [] chars g ++ r') : SameText f g ∧ r = r' := by
  rw [fieldChars_append, fieldChars_append, List.nil_append, List.nil_append] at h
  have hname := congrArg (stringTail none []) (List.cons.inj h).2
  rw [stringTail_escape, stringTail_escape] at hname
  obtain ⟨hname, hrest⟩ := Prod.mk.inj (Option.some.inj hname)
  obtain ⟨htext, hr⟩ := (reads_of_fits hf).append_inj (reads_of_fits hg) hr hr'
    (List.cons.inj hrest).2
  exact ⟨⟨String.toList_inj.mp (by simpa using hname), String.toList_inj.mp htext⟩, hr⟩

theorem forall₂_of_tailChars_eq {depth : Nat} {fs gs : List (String × Json)}
    (hfs : ∀ f ∈ fs, Fits depth f.2) (hgs : ∀ g ∈ gs, Fits depth g.2)
    (h : tailChars (fieldChars [] chars) ['\x7d'] fs = tailChars (fieldChars [] chars) ['\x7d'] gs) :
    List.Forall₂ SameText fs gs := by
  have hlast := closes_singleton (by decide : isBlank '\x7d' = false) (by decide)
  have hstops (xs : List (String × Json)) :
      Stops inNumber (tailChars (fieldChars [] chars) ['\x7d'] xs) := by
    simpa using stops_tailChars (fieldChars [] chars) hlast xs []
  induction fs generalizing gs with
  | nil =>
      cases gs with
      | nil => exact .nil
      | cons g gs => simp [tailChars] at h
  | cons f fs ih =>
      cases gs with
      | nil => simp [tailChars] at h
      | cons g gs =>
          obtain ⟨hf, hfs⟩ := List.forall_mem_cons.mp hfs
          obtain ⟨hg, hgs⟩ := List.forall_mem_cons.mp hgs
          obtain ⟨hfirst, hrest⟩ :=
            fieldChars_inj hf hg (hstops fs) (hstops gs) (List.cons.inj h).2
          exact .cons hfirst (ih hfs hgs hrest)

/-- Objects with one compact text have fields with one name and one text each. -/
theorem forall₂_of_compact_eq {depth : Nat} {fs gs : List (String × Json)}
    (hfs : ∀ f ∈ fs, Fits depth f.2) (hgs : ∀ g ∈ gs, Fits depth g.2)
    (h : (object fs).compact = (object gs).compact) : List.Forall₂ SameText fs gs := by
  have hchars : chars (object fs) = chars (object gs) := congrArg String.toList h
  refine forall₂_of_tailChars_eq hfs hgs ?_
  -- an object without fields closes where another one begins a name
  cases fs with
  | nil =>
      cases gs with
      | nil => rfl
      | cons g gs =>
          rw [chars_object_cons, fieldChars_append] at hchars
          exact absurd (List.cons.inj hchars).2 (by simp [chars, compact, compactFields])
  | cons f fs =>
      cases gs with
      | nil =>
          rw [chars_object_cons, fieldChars_append] at hchars
          exact absurd (List.cons.inj hchars).2 (by simp)
      | cons g gs =>
          rw [chars_object_cons, chars_object_cons] at hchars
          exact congrArg (',' :: ·) (List.cons.inj hchars).2

theorem compact_eq_of_lookup {fs gs : List (String × Json)} (h : List.Forall₂ SameText fs gs)
    {name : String} {j k : Json} (hj : fs.lookup name = some j) (hk : gs.lookup name = some k) :
    j.compact = k.compact := by
  induction h with
  | nil => cases hj
  | @cons f g fs gs hfg _ ih =>
      rw [List.lookup_cons] at hj hk
      rw [hfg.1] at hj
      cases hname : name == g.1 with
      | true =>
          rw [hname] at hj hk
          rw [← Option.some.inj hj, hfg.2, Option.some.inj hk]
      | false =>
          rw [hname] at hj hk
          exact ih hj hk

/-! ## Lines -/

theorem hexDigit_ne_newline : ∀ n < 16, hexDigit n ≠ '\n' := by
  decide

/-- The characters of a numeral are such as numbers go on with, and signs. -/
theorem inNumber_of_mem_text {n : Numeral} (hn : n.Valid) :
    ∀ c ∈ n.text, inNumber c = true ∨ c = '-' ∨ c = '+' := by
  have hdigit : ∀ c : Char, c.isDigit = true → inNumber c = true ∨ c = '-' ∨ c = '+' := by
    intro c hc
    simp [inNumber, hc]
  intro c hc
  rw [Numeral.text, Numeral.magnitude] at hc
  simp only [List.mem_append] at hc
  rcases hc with hc | hc | hc | hc
  · unfold Numeral.signText at hc
    split at hc
    · obtain rfl := List.mem_singleton.mp hc
      decide
    · cases hc
  · exact hdigit c (hn.whole_digits c hc)
  · unfold Numeral.fractionText at hc
    split at hc
    · cases hc
    · rcases List.mem_cons.mp hc with rfl | hc
      · decide
      · exact hdigit c (hn.fraction_digits c hc)
  · unfold Numeral.powerText at hc
    split at hc
    · cases hc
    · next negative ds hpower =>
        rcases List.mem_cons.mp hc with rfl | hc
        · decide
        rcases List.mem_cons.mp hc with rfl | hc
        · cases negative <;> decide
        · exact hdigit c (hn.power_digits negative ds hpower c hc)

theorem newline_notMem_escapeChar (c : Char) : '\n' ∉ escapeChar c := by
  unfold escapeChar
  split
  case h_8 hline _ _ _ _ =>
    split
    · have hne (k : Nat) : '\n' ≠ hexDigit (k % 16) :=
        (hexDigit_ne_newline _ (Nat.mod_lt _ (by decide))).symm
      simp [hexDigits, hne]
    · simpa using hline ∘ Eq.symm
  all_goals decide

theorem newline_notMem_quote (s : String) : '\n' ∉ (quote s).toList := by
  simp [quote, newline_notMem_escapeChar]

theorem newline_notMem_quoteSpelled (spelled : List (Option Char)) :
    '\n' ∉ (quoteSpelled spelled).toList := by
  have hpart : ∀ c : Option Char, '\n' ∉ escapeSpelled c := by
    rintro (_ | c)
    · decide
    · exact newline_notMem_escapeChar c
  simp [quoteSpelled, hpart]

theorem newline_notMem_tailChars {α : Type} {part : α → List Char} {close : Char} {xs : List α}
    (hclose : close ≠ '\n') (h : ∀ x ∈ xs, '\n' ∉ part x) : '\n' ∉ tailChars part [close] xs := by
  induction xs with
  | nil => simpa [tailChars] using hclose.symm
  | cons x xs ih =>
      obtain ⟨hx, hxs⟩ := List.forall_mem_cons.mp h
      simp [tailChars, hx, ih hxs]

/-- A compact text is one line. -/
theorem newline_notMem_chars {depth : Nat} {j : Json} (h : Fits depth j) : '\n' ∉ chars j := by
  induction h with
  | null => decide
  | bool b => cases b <;> decide
  | number hn =>
      rw [chars, compact, String.toList_ofList]
      intro hmem
      exact absurd (inNumber_of_mem_text hn _ hmem) (by decide)
  | string s => exact newline_notMem_quote s
  | garbled spelled => exact newline_notMem_quoteSpelled spelled
  | @array _ items _ ih =>
      cases items with
      | nil => decide
      | cons j js =>
          obtain ⟨hj, hjs⟩ := List.forall_mem_cons.mp ih
          rw [chars_array_cons]
          simp [hj, newline_notMem_tailChars (by decide : ']' ≠ '\n') hjs]
  | @object _ fields _ ih =>
      have hfield : ∀ f ∈ fields, '\n' ∉ fieldChars [] chars f := by
        intro f hf
        simp [fieldChars, newline_notMem_quote, ih f hf]
      cases fields with
      | nil => decide
      | cons f fs =>
          obtain ⟨hf, hfs⟩ := List.forall_mem_cons.mp hfield
          rw [chars_object_cons]
          simp [hf, newline_notMem_tailChars (by decide : '\x7d' ≠ '\n') hfs]

end Tuning.Json
