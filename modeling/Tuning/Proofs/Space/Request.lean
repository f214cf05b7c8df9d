import Mathlib
import Tuning.Proofs.Json.Literal
import Tuning.Space.Document

/-! # Spaces of requests

A request holds the document of a space, or a string literal that denotes it. However the literal spells
the document and whatever white space is around it, the same space comes out, or the same error. -/

namespace Tuning

/-! ## Trimming -/

namespace Text

theorem dropWhile_isBlank_append {pad cs : List Char} {c : Char} (hpad : ∀ c ∈ pad, isBlank c = true)
    (hc : isBlank c = false) : (pad ++ c :: cs).dropWhile isBlank = c :: cs := by
  rw [List.dropWhile_append_of_pos hpad, List.dropWhile_cons_of_neg (by simp [hc])]

/-- White space around a text that neither begins nor ends with white space is dropped. -/
theorem trim_padded {before after middle : List Char} {c d : Char}
    (hbefore : ∀ c ∈ before, isBlank c = true) (hafter : ∀ c ∈ after, isBlank c = true)
    (hc : isBlank c = false) (hd : isBlank d = false) :
    trim (before ++ c :: middle ++ d :: after) = c :: middle ++ [d] := by
  have hlast : (after.reverse ++ d :: (c :: middle).reverse).dropWhile isBlank =
      d :: (c :: middle).reverse :=
    dropWhile_isBlank_append (fun c hc => hafter c (List.mem_reverse.mp hc)) hd
  have hreverse : (c :: (middle ++ d :: after)).reverse =
      after.reverse ++ d :: (c :: middle).reverse := by simp
  rw [trim, List.append_assoc, List.cons_append, dropWhile_isBlank_append hbefore hc, hreverse, hlast]
  simp

end Text

namespace Space

/-- A literal in white space stands for the document that it denotes. -/
theorem ofRequest_eq_of_denotes {before after body : List Char} {document : String}
    (hbefore : ∀ c ∈ before, Text.isBlank c = true) (hafter : ∀ c ∈ after, Text.isBlank c = true)
    (h : Json.Denotes body document.toList) :
    Space.ofRequest (String.ofList (before ++ '"' :: body ++ '"' :: after)) =
      (Space.parse document).mapError .invalid := by
  have htrim : Text.trim (before ++ '"' :: body ++ '"' :: after) = '"' :: body ++ ['"'] :=
    Text.trim_padded hbefore hafter (by decide) (by decide)
  have hnull : (String.ofList ('"' :: body ++ ['"']) == "null") = false := by
    rw [beq_eq_false_iff_ne, ← String.toList_inj.ne, String.toList_ofList]
    simp
  unfold Space.ofRequest
  rw [String.toList_ofList, htrim]
  simp only [hnull, Json.parse?_literal h]
  rfl

/-- Both forms of a request agree: from a literal comes the space of the document that it denotes, or the
error of the document with some words in front. -/
theorem ofRequest_literal {before after body : List Char} {document : String}
    (hbefore : ∀ c ∈ before, Text.isBlank c = true) (hafter : ∀ c ∈ after, Text.isBlank c = true)
    (h : Json.Denotes body document.toList) :
    (∀ space, Space.parse document = .ok space →
      Space.ofRequest (String.ofList (before ++ '"' :: body ++ '"' :: after)) = .ok space) ∧
    ∀ error, Space.parse document = .error error →
      ∃ refusal, Space.ofRequest (String.ofList (before ++ '"' :: body ++ '"' :: after)) = .error refusal ∧
        refusal.message = "invalid space: " ++ error.message := by
  rw [ofRequest_eq_of_denotes hbefore hafter h]
  constructor
  · intro space hspace
    rw [hspace]
    rfl
  · intro error herror
    rw [herror]
    exact ⟨.invalid error, rfl, rfl⟩

/-- A document of two lines with quotes, a line break and a character beyond 16 bits. -/
def face : String :=
  "é:\n _type: \"😀\""

/-- A spelling of the document with escapes of all kinds. -/
def spelledFace : List Char :=
  ['\\', 'u', '0', '0', 'E', '9'] ++ ':' :: '\\' :: 'n' :: (" _type: ".toList ++ '\\' :: '"' ::
    (['\\', 'u', 'D', '8', '3', 'D'] ++ ['\\', 'u', 'd', 'e', '0', '0'] ++ ['\\', '"']))

theorem spelledFace_denotes : Json.Denotes spelledFace face.toList := by
  have hdigit : ∀ n < 16, Json.IsDigitOf n (Json.hexDigit n) ∧
      Json.IsDigitOf n (Json.hexDigit n).toUpper := fun n hn => ⟨⟨hn, .inl rfl⟩, ⟨hn, .inr rfl⟩⟩
  have hletter : Json.SpellsUnit 'é'.toNat ['\\', 'u', '0', '0', 'E', '9'] :=
    .digits (hdigit 0 (by decide)).1 (hdigit 0 (by decide)).1 (hdigit 14 (by decide)).2
      (hdigit 9 (by decide)).1 rfl
  have hfirst : Json.SpellsUnit 0xd83d ['\\', 'u', 'D', '8', '3', 'D'] :=
    .digits (hdigit 13 (by decide)).2 (hdigit 8 (by decide)).1 (hdigit 3 (by decide)).1
      (hdigit 13 (by decide)).2 rfl
  have hsecond : Json.SpellsUnit 0xde00 ['\\', 'u', 'd', 'e', '0', '0'] :=
    .digits (hdigit 13 (by decide)).1 (hdigit 14 (by decide)).1 (hdigit 0 (by decide)).1
      (hdigit 0 (by decide)).1 rfl
  have hquoted : Json.Denotes ('\\' :: '"' :: (['\\', 'u', 'D', '8', '3', 'D'] ++
      ['\\', 'u', 'd', 'e', '0', '0'] ++ ['\\', '"'])) ['"', '😀', '"'] :=
    .short (by decide) (.pair (by decide) (by decide) (by decide) hfirst hsecond
      (.short (by decide) .nil))
  have hline : Json.Denotes (" _type: ".toList ++ '\\' :: '"' :: (['\\', 'u', 'D', '8', '3', 'D'] ++
      ['\\', 'u', 'd', 'e', '0', '0'] ++ ['\\', '"'])) (" _type: ".toList ++ ['"', '😀', '"']) :=
    hquoted.raws (by simp)
  exact .unit hletter (.raw (by decide) (by decide) (by decide) (.short (by decide) hline))

theorem ofRequest_literal_face : ∃ space,
    Space.parse face = .ok space ∧ space.parameters.map (·.name) = ["é"] ∧
      Space.ofRequest (String.ofList (['\u00a0', '\n'] ++ '"' :: spelledFace ++ '"' :: ['\t'])) =
        .ok space := by
  have hparse : (Space.parse face).toOption.map (fun space => space.parameters.map (·.name)) =
      some ["é"] := by decide +kernel
  cases hspace : Space.parse face with
  | error error =>
      rw [hspace] at hparse
      cases hparse
  | ok space =>
      rw [hspace] at hparse
      refine ⟨space, rfl, Option.some.inj hparse, ?_⟩
      exact (ofRequest_literal (by simp [Text.isBlank]) (by simp [Text.isBlank])
        spelledFace_denotes).1 space hspace

end Space

end Tuning
