import Tuning.Proofs.Individual.Key
import Tuning.Proofs.Population.Mirror
import Tuning.Proofs.Population.Wheel
import Tuning.Proofs.Random.Fractions

/-! # Genes of weighted parents

The child that breeding takes from the top of the history has only genes of individuals with a positive
score. With exact weights this holds of every point on the wheel; with doubles, as long as the weights
have a finite total. -/

namespace Tuning

open Draw (Soundly)

/-! ## Wheels of doubles -/

namespace Wheel

theorem weight_of_pos {x : Float} (h : 0 < x) : weight x = x := by
  rw [weight, if_pos h]

theorem weight_of_not_pos {x : Float} (hnan : x.isNaN = false) (h : ¬ 0 < x) : weight x = 0 := by
  have hzero : (0 : Float).isNaN = false := by rfl
  rw [weight, if_neg h, if_pos (float_le_of_not_lt hnan hzero h)]

theorem weight_nonneg {x : Float} (hnan : x.isNaN = false) : 0 ≤ weight x := by
  by_cases h : 0 < x
  · rw [weight_of_pos h]
    exact float_le_of_lt h
  · rw [weight_of_not_pos hnan h]
    decide +kernel

/-- A sum of weights is not less than where it starts. -/
theorem le_foldl_add {start : Float} {ws : List Float} (hstart : 0 ≤ start) (hws : ∀ w ∈ ws, 0 ≤ w) :
    start ≤ ws.foldl (· + ·) start := by
  induction ws generalizing start with
  | nil => exact float_le_iff.mpr ⟨(float_le_iff.mp hstart).2.1, (float_le_iff.mp hstart).2.1, le_rfl⟩
  | cons w ws ih =>
      have hw : 0 ≤ w := hws w (by simp)
      exact float_le_trans (float_le_add hstart hw)
        (ih (float_add_nonneg hstart hw) fun v hv => hws v (by simp [hv]))

/-- A finite double that is not collapsed has an exponent that is not the least one. -/
theorem unpack_of_stagnation_le {x : Float} (h : Population.stagnation ≤ x) (hx : x.isInf = false) :
    ∃ m e hm, x.toModel.unpack = .finite .positive m e hm ∧ -1074 < e := by
  have hpos : 0 ≤ Population.stagnation := by decide +kernel
  have hstagnation : Double.place Population.stagnation =
      toLex (1, toLex (-62, 4611686018427388)) := by decide +kernel
  have hx : x.toModel.unpack.isInf = false := hx
  obtain ⟨-, -, hplace⟩ := float_le_iff.mp h
  rw [hstagnation, Double.place] at hplace
  rcases unpack_of_nonneg (float_le_trans hpos h) with hu | ⟨s, hu⟩ | ⟨m, e, hm, hu⟩
  · rw [hu] at hx
    cases hx
  · simp [hu, place, Prod.Lex.toLex_le_toLex] at hplace
  · refine ⟨m, e, hm, hu, ?_⟩
    simp only [hu, place, Prod.Lex.toLex_le_toLex, lt_self_iff_false, true_and, false_or] at hplace
    omega

section Collapsed

variable {score : Float} {rest : List Float} (hscore : Population.stagnation ≤ score)
  (hrest : ∀ x ∈ rest, x.isNaN = false)

include hscore

/-- A score that is not collapsed is positive. -/
theorem pos_of_stagnation_le : 0 < score := by
  have hpos : 0 < Population.stagnation := by decide +kernel
  exact float_lt_of_lt_of_le hpos hscore

include hrest

/-- The first score is not greater than the sum of the weights. -/
theorem stagnation_le_sum : Population.stagnation ≤ sum ((score :: rest).map weight) := by
  have hpos := pos_of_stagnation_le hscore
  have hle := float_le_zero_add (float_le_of_lt hpos)
  have hws : ∀ w ∈ rest.map weight, 0 ≤ w := by
    intro w hw
    obtain ⟨x, hx, rfl⟩ := List.mem_map.mp hw
    exact weight_nonneg (hrest x hx)
  rw [List.map_cons, weight_of_pos hpos, sum, List.foldl_cons]
  exact float_le_trans (float_le_trans hscore hle)
    (le_foldl_add (float_le_trans (float_le_of_lt hpos) hle) hws)

/-- So each score has its own weight. -/
theorem make_of_stagnation_le : make (score :: rest) = totals 0 ((score :: rest).map weight) := by
  have hlt := pos_of_stagnation_le (stagnation_le_sum hscore hrest)
  have hne : ¬ (sum ((score :: rest).map weight) == 0) = true := by
    rw [float_beq_iff_place]
    intro h
    exact absurd (float_lt_iff.mp hlt).2.2 (by rw [h.2.2]; exact lt_irrefl _)
  rw [make, weights, if_neg hne]

/-- What the wheel picks has a positive score. -/
theorem spin_soundly (hfinite : (sum ((score :: rest).map weight)).isInf = false) :
    Soundly (spin (make (score :: rest))) fun k => ∃ x, (score :: rest)[k]? = some x ∧ 0 < x := by
  obtain ⟨m, e, hm, hunpack, he⟩ :=
    unpack_of_stagnation_le (stagnation_le_sum hscore hrest) hfinite
  rw [make_of_stagnation_le hscore hrest]
  refine Draw.fraction_soundly.bind fun u hu => .pure ?_
  have hlast : (totals 0 ((score :: rest).map weight)).getLastD 0 = sum ((score :: rest).map weight) :=
    getLastD_totals 0 _
  obtain ⟨hstart, hend⟩ := float_mul_lt_self hu.1 hu.2 hunpack he
  rw [← hlast] at hstart hend
  obtain ⟨low, w, -, hw, -, hpast, hbelow⟩ :=
    indexOf_totals (fun hlt => float_lt_irrefl _ (float_lt_of_le_of_lt hstart hlt)) hend
  rw [List.getElem?_map] at hw
  obtain ⟨x, hx, rfl⟩ := Option.map_eq_some_iff.mp hw
  refine ⟨x, hx, Classical.byContradiction fun hnot => hpast ?_⟩
  have hnan : x.isNaN = false := by
    obtain rfl | hmem := List.mem_cons.mp (List.mem_of_getElem? hx)
    · exact (float_le_iff.mp hscore).2.1
    · exact hrest x hmem
  -- a score that is not positive has no weight, so the share would be empty
  rwa [weight_of_not_pos hnan hnot, float_lt_add_zero_iff] at hbelow

end Collapsed

/-- The total has to be finite. Here it is not, and what is picked has no weight. -/
example : (spin (make [1e308, 1e308, -1.0]) (.ofScript [2 ^ 62] 0)).map (·.1) = some 2 := by decide +kernel

end Wheel

/-! ## Children of weighted parents -/

namespace Population

variable {s : Space} {rate : Float} {mode : Mode} {p : Population} {pool : List Individual}

/-- Crossing, with any way to pick an individual for each gene. -/
def crossBy (p : Population) (pick : Draw Nat) : Draw Individual := do
  let parents := p.history.map (·.1)
  match parents with
  | [] => return p.reference
  | best :: _ =>
    return ⟨← best.genes.zipIdx.mapM fun ((name, gene), i) => do
      let k ← pick
      let picked := (parents[k]?).bind fun parent => (parent.genes[i]?).map (·.2)
      return (name, picked.getD gene)⟩

theorem cross_eq (p : Population) (wheel : List Float) : p.cross wheel = p.crossBy (Wheel.spin wheel) :=
  rfl

/-- One of the best individuals with a positive score. -/
def Weighted (p : Population) (parents k : Nat) (x : Individual) : Prop :=
  k < min parents p.size ∧ ∃ score, p.history[k]? = some (x, score) ∧ 0 < score

/-- Every gene of a child is the gene at its place of a weighted individual. The two are the same, unless
an atom is not the same as itself. -/
def Inherits (s : Space) (p : Population) (parents : Nat) (child : Individual) : Prop :=
  child.names = s.names ∧ ∀ (i : Nat) (q : Parameter), s.parameters[i]? = some q →
    ∃ k x gene, p.Weighted parents k x ∧ x.genes[i]? = some (q.name, gene) ∧
      child.genes[i]? = some (q.name, gene) ∧ (q.domain.Reflexive → gene.same gene = true)

theorem getElem?_of_matches {S : Parameter → Gene → Prop} {x : Individual} (hx : x.Matches S s) {i : Nat}
    {q : Parameter} (hq : s.parameters[i]? = some q) :
    ∃ gene, x.genes[i]? = some (q.name, gene) ∧ S q gene := by
  obtain ⟨hi, rfl⟩ := List.getElem?_eq_some_iff.mp hq
  have hi' : i < x.genes.length := hx.length_eq ▸ hi
  obtain ⟨hname, hgene⟩ := hx.get hi hi'
  refine ⟨x.genes[i].2, ?_, hgene⟩
  rw [List.getElem?_eq_getElem hi']
  exact congrArg some (Prod.ext hname rfl)

/-- A weighted individual is one of those that genes are taken from. -/
theorem Weighted.getElem? {parents k : Nat} {x : Individual} (h : p.Weighted parents k x) :
    (p.history.map (·.1))[k]? = some x := by
  obtain ⟨-, score, hk, -⟩ := h
  rw [List.getElem?_map, hk]
  rfl

section Crossing

variable {parents : Nat} (hfit : p.Fitting (fun q g => q.domain.Suits g) s rate)

include hfit

theorem Weighted.matches {k : Nat} {x : Individual} (h : p.Weighted parents k x) :
    x.Matches (fun q g => q.domain.Suits g) s := by
  obtain ⟨-, score, hk, -⟩ := h
  exact hfit.history _ (List.mem_of_getElem? hk)

/-- Genes that stand at their places in weighted individuals make a child that inherits. -/
theorem inherits_of_getElem? {genes : List (String × Gene)} (hlength : genes.length = s.parameters.length)
    (hgenes : ∀ (i : Nat) (named : String × Gene), genes[i]? = some named →
      ∃ k x, p.Weighted parents k x ∧ x.genes[i]? = some named) :
    p.Inherits s parents ⟨genes⟩ := by
  have hgene : ∀ (i : Nat) (q : Parameter), s.parameters[i]? = some q →
      ∃ k x gene, p.Weighted parents k x ∧ x.genes[i]? = some (q.name, gene) ∧
        genes[i]? = some (q.name, gene) ∧ q.domain.Suits gene := by
    intro i q hq
    obtain ⟨hi, -⟩ := List.getElem?_eq_some_iff.mp hq
    obtain ⟨k, x, hx, hnamed⟩ := hgenes i _ (List.getElem?_eq_getElem (hlength ▸ hi))
    obtain ⟨gene, hown, hsuits⟩ := getElem?_of_matches (hx.matches hfit) hq
    refine ⟨k, x, gene, hx, hown, ?_, hsuits⟩
    rw [List.getElem?_eq_getElem (hlength ▸ hi), ← hnamed, hown]
  refine ⟨List.ext_getElem? fun i => ?_, fun i q hq => ?_⟩
  · change (genes.map (·.1))[i]? = (s.parameters.map (·.name))[i]?
    rw [List.getElem?_map, List.getElem?_map]
    cases hq : s.parameters[i]? with
    | none =>
        have hi := List.getElem?_eq_none_iff.mp hq
        rw [List.getElem?_eq_none_iff.mpr (hlength.trans_le hi)]
        rfl
    | some q =>
        obtain ⟨-, -, gene, -, -, hown, -⟩ := hgene i q hq
        rw [hown]
        rfl
  · obtain ⟨k, x, gene, hx, hown, hchild, hsuits⟩ := hgene i q hq
    exact ⟨k, x, gene, hx, hown, hchild, fun hd => hsuits.same_self hd⟩

/-- Weighted picks make a child that inherits. -/
theorem crossBy_soundly {pick : Draw Nat} (hne : p.history ≠ [])
    (hpick : Soundly pick fun k => ∃ x, p.Weighted parents k x) :
    Soundly (p.crossBy pick) (p.Inherits s parents) := by
  obtain ⟨⟨best, score⟩, rest, hhistory⟩ := List.exists_cons_of_ne_nil hne
  have hbest : best.Matches (fun q g => q.domain.Suits g) s :=
    hfit.history (best, score) (by simp [hhistory])
  have hindividuals : p.history.map (·.1) = best :: rest.map (·.1) := by rw [hhistory]; rfl
  have hlook : ∀ k x, p.Weighted parents k x → (best :: rest.map (·.1))[k]? = some x :=
    fun k x hx => hindividuals ▸ hx.getElem?
  unfold crossBy
  rw [hindividuals]
  -- the names of the genes are those of the best individual, which all individuals share
  refine (Soundly.mapM (R := fun numbered named => ∃ k x, p.Weighted parents k x ∧
    x.genes[numbered.2]? = some named) best.genes.zipIdx ?_).bind fun genes hgenes => .pure ?_
  · rintro ⟨⟨name, gene⟩, i⟩ hi
    have hgene : best.genes[i]? = some (name, gene) := List.mk_mem_zipIdx_iff_getElem?.mp hi
    refine hpick.bind fun k hk => .pure ?_
    obtain ⟨x, hx⟩ := hk
    obtain ⟨hi', -⟩ := List.getElem?_eq_some_iff.mp hgene
    have hq := List.getElem?_eq_getElem (hbest.length_eq ▸ hi' : i < s.parameters.length)
    obtain ⟨other, hother, -⟩ := getElem?_of_matches (hx.matches hfit) hq
    obtain ⟨own, hown, -⟩ := getElem?_of_matches hbest hq
    obtain ⟨rfl, rfl⟩ := Prod.mk.inj (Option.some.inj (hgene.symm.trans hown))
    exact ⟨k, x, hx, by simp [hlook k x hx, hother]⟩
  · have hlength : genes.length = best.genes.length := by
      rw [← hgenes.length_eq, List.length_zipIdx]
    refine inherits_of_getElem? hfit (hlength.trans hbest.length_eq.symm) fun i named hnamed => ?_
    obtain ⟨hi, rfl⟩ := List.getElem?_eq_some_iff.mp hnamed
    simpa using hgenes.get (by simpa [hlength] using hi) hi

end Crossing

/-! ## The two wheels -/

/-- In the crossover policy the history starts with a score that is not collapsed. -/
theorem policy_eq_crossover {parents : Nat} (h : p.policy parents = .crossover)
    (hfinite : ∀ scored ∈ p.history, (scored.2.isNaN || scored.2.isInf) = false) :
    ∃ best score rest, p.history = (best, score) :: rest ∧ stagnation ≤ score := by
  unfold policy at h
  split at h
  · cases h
  · cases hhistory : p.history with
    | nil =>
        rw [hhistory] at h
        cases h
    | cons scored rest =>
        obtain ⟨best, score⟩ := scored
        rw [hhistory] at h
        dsimp only at h
        split at h
        · cases h
        · next hscore =>
            have hnan : score.isNaN = false := by
              have := hfinite (best, score) (by simp [hhistory])
              simp only [Bool.or_eq_false_iff] at this
              exact this.1
            have hstagnation : stagnation.isNaN = false := by decide +kernel
            exact ⟨best, score, rest, rfl, float_le_of_not_lt hstagnation hnan hscore⟩

/-- The scores that a wheel is made of. -/
def topScores (p : Population) (parents : Nat) : List Float :=
  (p.history.take parents).map (·.2)

/-- What stands at a positive score of the wheel is weighted. -/
theorem weighted_of_topScores {parents k : Nat} {score : Float}
    (h : (p.topScores parents)[k]? = some score) (hpos : 0 < score) : ∃ x, p.Weighted parents k x := by
  rw [topScores, List.getElem?_map] at h
  obtain ⟨scored, hscored, rfl⟩ := Option.map_eq_some_iff.mp h
  obtain ⟨hk, -⟩ := List.getElem?_eq_some_iff.mp hscored
  rw [List.length_take] at hk
  rw [List.getElem?_take_of_lt (by omega)] at hscored
  exact ⟨scored.1, hk, scored.2, hscored, hpos⟩

/-- Points on the exact wheel pick weighted individuals. -/
theorem indexOf_weighted {K : Type} [Field K] [LinearOrder K] [IsStrictOrderedRing K] {parents : Nat}
    (hfinite : ∀ scored ∈ p.history, (scored.2.isNaN || scored.2.isInf) = false)
    (hsome : ∃ score ∈ p.topScores parents, 0 < score) {point : K} (hstart : 0 ≤ point)
    (hend : point <
      (Wheel.make ((p.topScores parents).map fun x => (Double.value x : K))).getLastD 0) :
    ∃ x, p.Weighted parents
      (Wheel.indexOf (Wheel.make ((p.topScores parents).map fun x => (Double.value x : K))) point) x := by
  have hvalue : ∀ score ∈ p.topScores parents, (0 < (Double.value score : K) ↔ 0 < score) := by
    intro score hscore
    obtain ⟨scored, hscored, rfl⟩ := List.mem_map.mp hscore
    rw [Rat.cast_pos, value_pos_iff (hfinite scored (List.mem_of_mem_take hscored))]
  obtain ⟨score, hscore, hpos⟩ := hsome
  obtain ⟨exact, hexact, hpos⟩ := Wheel.score_pos hstart hend
    ⟨_, List.mem_map_of_mem hscore, (hvalue score hscore).mpr hpos⟩
  rw [List.getElem?_map] at hexact
  obtain ⟨picked, hpicked, rfl⟩ := Option.map_eq_some_iff.mp hexact
  exact weighted_of_topScores hpicked ((hvalue picked (List.mem_of_getElem? hpicked)).mp hpos)

/-- So do spins of the wheel of doubles. -/
theorem spin_weighted {parents : Nat} (hparents : 1 ≤ parents) (hpolicy : p.policy parents = .crossover)
    (hfinite : ∀ scored ∈ p.history, (scored.2.isNaN || scored.2.isInf) = false)
    (htotal : (Wheel.sum ((p.topScores parents).map Wheel.weight)).isInf = false) :
    Soundly (Wheel.spin (Wheel.make (p.topScores parents))) fun k => ∃ x, p.Weighted parents k x := by
  obtain ⟨best, score, rest, hhistory, hscore⟩ := policy_eq_crossover hpolicy hfinite
  obtain ⟨n, rfl⟩ : ∃ n, parents = n + 1 := ⟨parents - 1, by omega⟩
  have htop : p.topScores (n + 1) = score :: (rest.take n).map (·.2) := by
    rw [topScores, hhistory]
    rfl
  have hrest : ∀ x ∈ (rest.take n).map (·.2), x.isNaN = false := by
    intro x hx
    obtain ⟨scored, hscored, rfl⟩ := List.mem_map.mp hx
    have := hfinite scored (by simp [hhistory, List.mem_of_mem_take hscored])
    simp only [Bool.or_eq_false_iff] at this
    exact this.1
  rw [htop] at htotal ⊢
  refine (Wheel.spin_soundly hscore hrest htotal).mono fun k hk => ?_
  obtain ⟨x, hx, hpos⟩ := hk
  exact weighted_of_topScores (htop ▸ hx) hpos

/-- A child that is crossed has only genes of weighted individuals: the wheel picks the share that a point
lies in, and what has no weight has no share. -/
theorem cross_inherits {K : Type} [Field K] [LinearOrder K] [IsStrictOrderedRing K] :
    (∀ scores : List K,
      ((∀ score ∈ scores, score ≤ 0) → Wheel.weights scores = scores.map fun _ => 1) ∧
      ((∃ score ∈ scores, 0 < score) → Wheel.weights scores = scores.map fun score => max score 0) ∧
      ∀ point, 0 ≤ point → point < (Wheel.make scores).getLastD 0 →
        (∀ i, Wheel.InShare (Wheel.make scores) point i ↔
          i = Wheel.indexOf (Wheel.make scores) point) ∧
        ∃ w, (Wheel.weights scores)[Wheel.indexOf (Wheel.make scores) point]? = some w ∧ 0 < w) ∧
    ∀ {s : Space} {rate : Float} {mode : Mode} {p : Population} {pool : List Individual},
      Search s rate mode p pool → ∀ parents, 1 ≤ parents → p.policy parents = .crossover →
      (∀ scored ∈ p.history, (scored.2.isNaN || scored.2.isInf) = false) →
      (let wheel := Wheel.make ((p.topScores parents).map fun x => (Double.value x : K))
        ∀ point : Draw K, Soundly point (fun r => 0 ≤ r ∧ r < wheel.getLastD 0) →
          Soundly (p.crossBy (Wheel.indexOf wheel <$> point)) (p.Inherits s parents)) ∧
      ((Wheel.sum ((p.topScores parents).map Wheel.weight)).isInf = false →
        Soundly (p.cross (Wheel.make (p.topScores parents))) (p.Inherits s parents)) := by
  refine ⟨fun scores => ⟨Wheel.weights_of_not_pos, Wheel.weights_of_pos,
    fun point => Wheel.indexOf_make⟩, ?_⟩
  intro s rate mode p pool hp parents hparents hpolicy hfinite
  have hfit := (hp.fitting s.law_suits).1
  obtain ⟨best, score, rest, hhistory, hscore⟩ := policy_eq_crossover hpolicy hfinite
  have hne : p.history ≠ [] := by simp [hhistory]
  have hsome : ∃ score ∈ p.topScores parents, 0 < score := by
    obtain ⟨n, rfl⟩ : ∃ n, parents = n + 1 := ⟨parents - 1, by omega⟩
    exact ⟨score, by simp [topScores, hhistory], Wheel.pos_of_stagnation_le hscore⟩
  refine ⟨fun point hpoint => crossBy_soundly hfit hne (.map (hpoint.mono fun r hr => ?_)),
    fun htotal => ?_⟩
  · exact indexOf_weighted hfinite hsome hr.1 hr.2
  · rw [cross_eq]
    exact crossBy_soundly hfit hne (spin_weighted hparents hpolicy hfinite htotal)

/-- A search that has recorded both sides of a coin, of which one has a negative score. -/
theorem coin_recorded : ∃ p pool best other child src',
    Search coin 0.5 .maximize p pool ∧ p.policy 2 = .crossover ∧
      p.history = [(best, 2.0), (other, -1.0)] ∧
      (Wheel.sum ((p.topScores 2).map Wheel.weight)).isInf = false ∧
      p.cross (Wheel.make (p.topScores 2)) (.ofScript [2 ^ 62] 0) = some (child, src') := by
  have hstart := Search.start
    (rfl : make coin 0.5 .maximize (.ofScript [0, 0] 0) = some (.ok _, _))
  have hbuild := hstart.build List.mem_cons_self
    (rfl : Individual.make coin 0.5 (.ofScript [0] 0) = some (.ok _, _))
  have hheads := hbuild.append List.mem_cons_self (rfl : append _ _ 2.0 = some _)
  have hmove := hheads.move List.mem_cons_self (.select _ [1])
  have htails := hmove.append List.mem_cons_self (rfl : append _ _ (-1.0) = some _)
  exact ⟨_, _, _, _, _, _, htails, rfl, rfl, rfl, rfl⟩

/-- The child has the side with the positive score. -/
theorem cross_inherits_coin : ∃ p pool best other child src',
    Search coin 0.5 .maximize p pool ∧ p.policy 2 = .crossover ∧
      p.history = [(best, 2.0), (other, -1.0)] ∧
      p.cross (Wheel.make (p.topScores 2)) (.ofScript [2 ^ 62] 0) = some (child, src') ∧
      child.genes[0]? = best.genes[0]? := by
  obtain ⟨p, pool, best, other, child, src', hp, hpolicy, hhistory, htotal, hcross⟩ := coin_recorded
  have hfinite : ∀ scored ∈ p.history, (scored.2.isNaN || scored.2.isInf) = false := by
    have hscores : ((2.0 : Float).isNaN || (2.0 : Float).isInf) = false ∧
        ((-1.0 : Float).isNaN || (-1.0 : Float).isInf) = false := by decide +kernel
    simpa only [hhistory, List.forall_mem_cons, List.not_mem_nil, false_implies, implies_true, and_true]
      using hscores
  have hsound : (Source.ofScript [2 ^ 62] 0).Sound := by
    simp [Source.Sound, Source.ofScript]
  have hchild := ((cross_inherits (K := ℚ)).2 hp 2 (by decide) hpolicy hfinite).2 htotal
  obtain ⟨⟨-, hgenes⟩, -⟩ := hchild _ child src' hsound hcross
  obtain ⟨k, x, gene, ⟨-, score, hx, hpos⟩, hgene, hown, -⟩ := hgenes 0 _ rfl
  refine ⟨p, pool, best, other, child, src', hp, hpolicy, hhistory, hcross, ?_⟩
  rw [hhistory] at hx
  cases k with
  | zero =>
      obtain ⟨rfl, -⟩ := Prod.mk.inj (Option.some.inj hx)
      rw [hown, hgene]
  | succ k =>
      have hscore : score = -1.0 := by
        have hmem := List.mem_of_getElem? (show [(other, -1.0)][k]? = some (x, score) from hx)
        exact congrArg Prod.snd (List.mem_singleton.mp hmem)
      rw [hscore] at hpos
      exact absurd hpos (by decide +kernel)

/-- A gene whose atom is not a number is inherited, but it is not the same as the one it comes from. -/
theorem not_inherited_same : ¬∀ (s : Space) (rate : Float) (mode : Mode) (p : Population)
    (pool : List Individual), Search s rate mode p pool → ∀ parents, 1 ≤ parents →
      p.policy parents = .crossover →
      (∀ scored ∈ p.history, (scored.2.isNaN || scored.2.isInf) = false) →
      ∀ src child src', src.Sound →
        p.cross (Wheel.make (p.topScores parents)) src = some (child, src') →
        ∀ (i : Nat) (gene : String × Gene), child.genes[i]? = some gene →
          ∃ k x other, p.Weighted parents k x ∧ x.genes[i]? = some other ∧
            gene.2.same other.2 = true := by
  intro h
  have hstart := Search.start
    (rfl : make Individual.undefinedOrOne 0.5 .maximize (.ofScript [0, 0] 0) = some (.ok _, _))
  have hbuild := hstart.build List.mem_cons_self
    (rfl : Individual.make Individual.undefinedOrOne 0.5 (.ofScript [0] 0) = some (.ok _, _))
  have hmove := hbuild.move List.mem_cons_self (.select _ [0])
  have happend := hmove.append List.mem_cons_self (rfl : append _ _ 5.0 = some _)
  obtain ⟨p, x, child, src', hp, hpolicy, hhistory, hcross, gene, hchild, hsame⟩ : ∃ p x child src',
      Search Individual.undefinedOrOne 0.5 .maximize p _ ∧ p.policy 1 = .crossover ∧
        p.history = [(x, 5.0)] ∧
        p.cross (Wheel.make (p.topScores 1)) (.ofScript [2 ^ 62] 0) = some (child, src') ∧
        ∃ gene, child.genes[0]? = some gene ∧ x.genes[0]? = some gene ∧ gene.2.same gene.2 = false :=
    ⟨_, _, _, _, happend, rfl, rfl, rfl, _, rfl, rfl, rfl⟩
  have hfinite : ∀ scored ∈ p.history, (scored.2.isNaN || scored.2.isInf) = false := by
    have hscore : ((5.0 : Float).isNaN || (5.0 : Float).isInf) = false := by decide +kernel
    simpa only [hhistory, List.forall_mem_cons, List.not_mem_nil, false_implies, implies_true, and_true]
      using hscore
  have hsound : (Source.ofScript [2 ^ 62] 0).Sound := by
    simp [Source.Sound, Source.ofScript]
  obtain ⟨k, y, other, ⟨-, score, hy, -⟩, hother, hequal⟩ :=
    h _ _ _ p _ hp 1 le_rfl hpolicy hfinite _ child src' hsound hcross 0 gene hchild
  rw [hhistory] at hy
  obtain ⟨rfl, -⟩ := Prod.mk.inj (List.mem_singleton.mp (List.mem_of_getElem? hy))
  obtain rfl : gene = other := Option.some.inj (hsame.1.symm.trans hother)
  rw [hsame.2] at hequal
  contradiction

end Population

end Tuning
