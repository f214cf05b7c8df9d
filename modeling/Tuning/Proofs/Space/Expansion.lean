import Tuning.Proofs.Finite.Enumeration
import Tuning.Space.Basic

/-! # The expansion of a space

A space expands into one space for every choice of starting values. A choice is a vector of indices, one
for each parameter with starting values, and the spaces stand in the order of the vectors. So there are as
many of them as the numbers of starting values multiply to, and none of them expands any further. -/

namespace Tuning

namespace Parameter

theorem bindings_free (p : Parameter) (h : p.seeds = []) : p.bindings = [p] := by
  simp [bindings, h]

theorem bindings_seeded (p : Parameter) (h : p.seeds ≠ []) :
    p.bindings = p.seeds.map fun seed => { p with seeds := [seed] } := by
  simp [bindings, h]

end Parameter

namespace Space

variable {p : Parameter} {ps bs : List Parameter} {v : List Nat}

/-- The parameters that have starting values. -/
def seededParameters (ps : List Parameter) : List Parameter :=
  ps.filter (!·.seeds.isEmpty)

/-- Parameters bound by indices: where there are starting values, the parameter carries the one at its
index and no other; any other parameter has no index and stays as it is. -/
inductive Binds : List Parameter → List Nat → List Parameter → Prop
  | nil : Binds [] [] []
  | free {p : Parameter} {ps bs : List Parameter} {v : List Nat} (h : p.seeds = []) (rest : Binds ps v bs) :
      Binds (p :: ps) v (p :: bs)
  | seeded {p : Parameter} {ps bs : List Parameter} {i : Nat} {v : List Nat} {seed : Value}
      (h : p.seeds[i]? = some seed) (rest : Binds ps v bs) :
      Binds (p :: ps) (i :: v) ({ p with seeds := [seed] } :: bs)

/-! ## One list for all choices -/

/-- Binds parameters at the end of one list, and takes a binding back once all that follows is found. -/
def expandHere : List Parameter → Quest (List Parameter) (List Parameter) →
    Quest (List Parameter) (List Parameter)
  | [], t => t.keep
  | p :: rest, t => p.bindings.foldl (fun t bound => (expandHere rest (t.push bound)).pop) t

theorem expandHere_eq_gain (ps : List Parameter) (t : Quest (List Parameter) (List Parameter)) :
    expandHere ps t = t.gain ((expandParameters ps).map (t.current ++ ·)) := by
  induction ps generalizing t with
  | nil => simp [expandHere, expandParameters, Quest.keep]
  | cons p ps ih =>
      have hattempt : ∀ (t : Quest (List Parameter) (List Parameter)) (bound : Parameter),
          (expandHere ps (t.push bound)).pop =
            t.gain ((expandParameters ps).map (t.current ++ bound :: ·)) := by
        intro t bound
        simp [ih, Quest.push, Quest.pop, Quest.gain]
      rw [expandHere, Quest.foldl_eq_gain
        (fun current bound => (expandParameters ps).map (current ++ bound :: ·)) hattempt,
        expandParameters, List.map_flatMap]
      simp [Function.comp_def]

/-- The choices that are made in one list are those of the expansion, in the same order. -/
theorem expandHere_parameters (s : Space) :
    expandHere s.parameters { current := [] } =
      { current := [], found := s.expand.map (·.parameters) } := by
  rw [expandHere_eq_gain]
  simp [expand, Quest.gain, Function.comp_def]

/-! ## Vectors of indices -/

/-- The vectors of indices, the first index varying slowest. -/
def vectors : List Parameter → List (List Nat)
  | [] => [[]]
  | p :: rest =>
    if p.seeds.isEmpty then vectors rest
    else (List.range p.seeds.length).flatMap fun i => (vectors rest).map (i :: ·)

theorem seededParameters_free (h : p.seeds = []) :
    seededParameters (p :: ps) = seededParameters ps := by
  simp [seededParameters, h]

theorem seededParameters_seeded (h : p.seeds ≠ []) :
    seededParameters (p :: ps) = p :: seededParameters ps := by
  simp [seededParameters, h]

theorem vectors_free (h : p.seeds = []) : vectors (p :: ps) = vectors ps := by
  simp [vectors, h]

theorem vectors_seeded (h : p.seeds ≠ []) :
    vectors (p :: ps) =
      (List.range p.seeds.length).flatMap fun i => (vectors ps).map (i :: ·) := by
  simp [vectors, h]

/-- Every vector with an index for each parameter that has starting values is among them. -/
theorem mem_vectors :
    v ∈ vectors ps ↔ List.Forall₂ (fun i p => i < p.seeds.length) v (seededParameters ps) := by
  induction ps generalizing v with
  | nil => simp [vectors, seededParameters]
  | cons p ps ih =>
      by_cases h : p.seeds = []
      · rw [vectors_free h, seededParameters_free h]
        exact ih
      · rw [vectors_seeded h, seededParameters_seeded h, List.mem_flatMap]
        constructor
        · rintro ⟨i, hi, hv⟩
          obtain ⟨w, hw, rfl⟩ := List.mem_map.mp hv
          exact .cons (List.mem_range.mp hi) (ih.mp hw)
        · rintro (_ | ⟨hi, hw⟩)
          exact ⟨_, List.mem_range.mpr hi, List.mem_map_of_mem (ih.mpr hw)⟩

/-- The vectors stand in lexicographic order. -/
theorem vectors_pairwise (ps : List Parameter) : (vectors ps).Pairwise (· < ·) := by
  induction ps with
  | nil => exact List.pairwise_singleton _ _
  | cons p ps ih =>
      by_cases h : p.seeds = []
      · rw [vectors_free h]
        exact ih
      · rw [vectors_seeded h]
        refine List.pairwise_flatMap.mpr ⟨fun i _ => ?_, ?_⟩
        · exact List.pairwise_map.mpr (ih.imp fun hlt => List.Lex.cons hlt)
        · refine List.pairwise_lt_range.imp fun {i j} hij v hv w hw => ?_
          obtain ⟨v', -, rfl⟩ := List.mem_map.mp hv
          obtain ⟨w', -, rfl⟩ := List.mem_map.mp hw
          exact List.Lex.rel hij

theorem length_vectors (ps : List Parameter) :
    (vectors ps).length = ((seededParameters ps).map (·.seeds.length)).prod := by
  induction ps with
  | nil => rfl
  | cons p ps ih =>
      by_cases h : p.seeds = []
      · rw [vectors_free h, seededParameters_free h]
        exact ih
      · rw [vectors_seeded h, seededParameters_seeded h, List.length_flatMap, List.map_cons, List.prod_cons,
          ← ih]
        simp

/-! ## Spaces in the order of the vectors -/

/-- The starting values of a parameter in order, each at its index. -/
theorem forall₂_range_bindings (h : p.seeds ≠ []) :
    List.Forall₂ (fun i b => ∃ seed, p.seeds[i]? = some seed ∧ b = { p with seeds := [seed] })
      (List.range p.seeds.length) p.bindings := by
  rw [p.bindings_seeded h]
  refine List.forall₂_of_length_eq_of_get (by simp) fun i hi hi' => ?_
  have hlt : i < p.seeds.length := by simpa using hi
  exact ⟨p.seeds[i], by simp [hlt], by simp⟩

/-- Every space of the expansion is bound by the vector at its place. -/
theorem forall₂_binds (ps : List Parameter) :
    List.Forall₂ (Binds ps) (vectors ps) (expandParameters ps) := by
  induction ps with
  | nil => exact .cons .nil .nil
  | cons p ps ih =>
      by_cases h : p.seeds = []
      · rw [vectors_free h, expandParameters, p.bindings_free h, List.flatMap_singleton]
        exact List.forall₂_map_right_iff.mpr (ih.imp fun _ _ hbinds => .free h hbinds)
      · rw [vectors_seeded h, expandParameters]
        refine List.rel_flatMap (forall₂_range_bindings h) ?_
        rintro i b ⟨seed, hseed, rfl⟩
        rw [List.forall₂_map_left_iff, List.forall₂_map_right_iff]
        exact ih.imp fun _ _ hbinds => .seeded hseed hbinds

/-- Every space of the expansion is bound by some vector. -/
theorem exists_binds {s bound : Space} (h : bound ∈ s.expand) :
    ∃ v, Binds s.parameters v bound.parameters := by
  obtain ⟨bs, hbs, rfl⟩ := List.mem_map.mp h
  obtain ⟨i, rfl⟩ := List.mem_iff_get.mp hbs
  have hi : (i : Nat) < (vectors s.parameters).length := by
    rw [(forall₂_binds s.parameters).length_eq]
    exact i.isLt
  exact ⟨_, (forall₂_binds s.parameters).get hi i.isLt⟩

/-- What carries one starting value each does not branch. -/
theorem Binds.expandParameters_eq (h : Binds ps v bs) : expandParameters bs = [bs] := by
  induction h with
  | nil => rfl
  | free h _ ih =>
      rw [expandParameters, Parameter.bindings_free _ h, ih]
      rfl
  | seeded _ _ ih =>
      rw [expandParameters, Parameter.bindings_seeded _ (by simp), ih]
      rfl

/-! ## Counting -/

theorem combinations_eq_ofNat (s : Space) :
    s.combinations = .ofNat ((seededParameters s.parameters).map (·.seeds.length)).prod := by
  have hfold : ∀ (ps : List Parameter) (n : Nat),
      ps.foldl (fun n p => if p.seeds.isEmpty then n else n * Int64.ofNat p.seeds.length) (.ofNat n) =
        Int64.ofNat (n * ((seededParameters ps).map (·.seeds.length)).prod) := by
    intro ps
    induction ps with
    | nil => simp [seededParameters]
    | cons p ps ih =>
        intro n
        rw [List.foldl_cons]
        by_cases h : p.seeds = []
        · rw [seededParameters_free h, h]
          exact ih n
        · rw [seededParameters_seeded h, List.map_cons, List.prod_cons, ← Nat.mul_assoc, ← ih,
            Int64.ofNat_mul, if_neg (by simpa using h)]
  exact (hfold s.parameters 1).trans (by rw [Nat.one_mul])

/-- The expansion of a space has one space for every vector that picks an index for each parameter with
starting values, in lexicographic order of the vectors, and every space has the parameters in order, bound
by its vector. It is never empty, it has as many spaces as are counted in 64-bit arithmetic, as long as
their number is below `2 ^ 63`, and its spaces expand into themselves. One list of parameters, bound and
unbound in turn, is enough to find it. -/
theorem expand_ordered (s : Space) :
    (∃ vs : List (List Nat), vs.Pairwise (· < ·) ∧
        (∀ v, v ∈ vs ↔
          List.Forall₂ (fun i p => i < p.seeds.length) v (seededParameters s.parameters)) ∧
        List.Forall₂ (fun v bound => Binds s.parameters v bound.parameters) vs s.expand) ∧
      s.expand ≠ [] ∧
      (((seededParameters s.parameters).map (·.seeds.length)).prod < 2 ^ 63 →
        s.combinations.toInt = s.expand.length) ∧
      (∀ bound ∈ s.expand, bound.expand = [bound]) ∧
      expandHere s.parameters { current := [] } =
        { current := [], found := s.expand.map (·.parameters) } := by
  have hbinds : List.Forall₂ (fun v bound => Binds s.parameters v bound.parameters)
      (vectors s.parameters) s.expand :=
    List.forall₂_map_right_iff.mpr (forall₂_binds s.parameters)
  have hlength : s.expand.length = ((seededParameters s.parameters).map (·.seeds.length)).prod :=
    hbinds.length_eq.symm.trans (length_vectors s.parameters)
  refine ⟨⟨vectors s.parameters, vectors_pairwise _, fun _ => mem_vectors, hbinds⟩, ?_, fun hlt => ?_,
    fun bound hbound => ?_, expandHere_parameters s⟩
  · refine List.length_pos_iff.mp (hlength ▸ List.prod_pos fun n hn => ?_)
    obtain ⟨p, hp, rfl⟩ := List.mem_map.mp hn
    exact List.length_pos_iff.mpr (by simpa using (List.mem_filter.mp hp).2)
  · rw [combinations_eq_ofNat, hlength, Int64.toInt_ofNat_of_lt hlt]
  · obtain ⟨v, hv⟩ := exists_binds hbound
    rw [expand, hv.expandParameters_eq]
    rfl

/-- Two numbers and three letters, with a coin between them that has no starting value. -/
def twoByThree : Space :=
  ⟨[{ name := "number", domain := .discrete [1, 2, 4], seeds := [.int 4, .int 1] },
    { name := "side", domain := .choice [.text "heads", .text "tails"] },
    { name := "letter", domain := .choice [.text "a", .text "b", .text "c"],
      seeds := [.text "a", .text "c", .text "b"] }]⟩

theorem expand_ordered_twoByThree : twoByThree.combinations.toInt = twoByThree.expand.length ∧
    twoByThree.expand.length = 6 ∧ ∃ bound ∈ twoByThree.expand, bound.expand = [bound] := by
  obtain ⟨-, -, hcount, hself, -⟩ := expand_ordered twoByThree
  exact ⟨hcount (by decide), rfl, _, List.mem_cons_self, hself _ List.mem_cons_self⟩

end Space

end Tuning
