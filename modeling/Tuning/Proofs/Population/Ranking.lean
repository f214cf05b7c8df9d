import Tuning.Proofs.Population.Breeding
import Tuning.Proofs.Value.Doubles

/-! # The ranking

The history is kept in order as individuals are appended. An individual that is the same as a
recorded one is refused; any other goes in front of those that do not beat its score. So the history
is a rearrangement of what was recorded, best first, and the latest first among equals. -/

namespace Tuning

namespace Ranking

variable {α : Type}

/-- Scores never rise along the list. -/
def Descending (xs : List (α × Float)) : Prop :=
  xs.Pairwise fun a b => b.2 ≤ a.2

/-- The elements of one score, in order. -/
def tied (score : Float) (xs : List (α × Float)) : List (α × Float) :=
  xs.filter (·.2 == score)

theorem Descending.insert {x : α} {score : Float} {xs : List (α × Float)}
    (hscore : score.isNaN = false) (hxs : ∀ y ∈ xs, y.2.isNaN = false) (h : Descending xs) :
    Descending (insert x score xs) := by
  induction xs with
  | nil => exact List.pairwise_singleton _ _
  | cons y ys ih =>
      obtain ⟨hy, hys⟩ := List.forall_mem_cons.mp hxs
      obtain ⟨hhead, htail⟩ := List.pairwise_cons.mp h
      rw [Ranking.insert]
      split
      · next hlt =>
          refine List.pairwise_cons.mpr ⟨fun z hz => ?_, ih hys htail⟩
          rcases List.mem_cons.mp ((insert_perm x score ys).mem_iff.mp hz) with rfl | hz
          · exact float_le_of_lt hlt
          · exact hhead z hz
      · next hlt =>
          have hle : y.2 ≤ score := float_le_of_not_lt hy hscore hlt
          refine List.pairwise_cons.mpr ⟨List.forall_mem_cons.mpr ⟨hle, fun z hz => ?_⟩, h⟩
          exact float_le_trans (hhead z hz) hle

/-- The latest comes first among equals: only higher scores stand before it. -/
theorem tied_insert (x : α) (score other : Float) (xs : List (α × Float)) :
    tied other (insert x score xs) = tied other [(x, score)] ++ tied other xs := by
  induction xs with
  | nil => rw [insert, tied, tied, List.filter_nil, List.append_nil]
  | cons y ys ih =>
      rw [insert]
      split
      · next hlt =>
          by_cases hy : (y.2 == other) = true
          · -- one score cannot be below and at another
            have hne : (score == other) = false := by
              rw [Bool.eq_false_iff, ne_eq, float_beq_iff_place]
              rintro ⟨-, -, hplace⟩
              have hbelow := (float_lt_iff.mp hlt).2.2
              rw [hplace, (float_beq_iff_place.mp hy).2.2] at hbelow
              exact lt_irrefl _ hbelow
            simpa [tied, hy, hne] using ih
          · simpa [tied, hy] using ih
      · exact List.filter_append [(x, score)] (y :: ys)

/-! ## Elements and scores side by side -/

/-- Elements and their scores in two lists of the same length. -/
structure Slices (α σ : Type) where
  elements : List α
  scores : List σ

/-- Exchanges the elements at a position and at the next one. -/
def exchange {β : Type} (xs : List β) (i : Nat) : List β :=
  match xs[i]?, xs[i + 1]? with
  | some x, some y => (xs.set i y).set (i + 1) x
  | _, _ => xs

section Slices

variable {σ : Type} [LT σ] [DecidableLT σ]

/-- Moves the element at a position to the back, past every higher score. Both lists change alike. -/
def sift : (fuel i : Nat) → Slices α σ → Slices α σ
  | 0, _, r => r
  | fuel + 1, i, r =>
    match r.scores[i]?, r.scores[i + 1]? with
    | some score, some other =>
      if score < other then sift fuel (i + 1) ⟨exchange r.elements i, exchange r.scores i⟩ else r
    | _, _ => r

/-- Puts an element at the front of both lists and moves it to its place. -/
def Slices.append (r : Slices α σ) (x : α) (score : σ) : Slices α σ :=
  sift r.scores.length 0 ⟨x :: r.elements, score :: r.scores⟩

omit [LT σ] [DecidableLT σ] in
theorem exchange_append {β : Type} (front : List β) (x y : β) (back : List β) :
    exchange (front ++ x :: y :: back) front.length = front ++ y :: x :: back := by
  simp [exchange]

/-- What stands before the element stays, and the rest is what inserting it gives. -/
theorem sift_append (x : α) (score : σ) (fuel : Nat) (front elements : List α)
    (above scores : List σ) (habove : above.length = front.length)
    (hlength : elements.length = scores.length) (hfuel : scores.length ≤ fuel) :
    sift fuel front.length ⟨front ++ x :: elements, above ++ score :: scores⟩ =
      ⟨front ++ (insert x score (elements.zip scores)).map (·.1),
        above ++ (insert x score (elements.zip scores)).map (·.2)⟩ := by
  induction scores generalizing fuel front elements above with
  | nil =>
      rw [List.length_eq_zero_iff.mp hlength]
      cases fuel <;> simp [sift, insert, ← habove]
  | cons other scores ih =>
      obtain ⟨fuel, rfl⟩ := Nat.exists_eq_add_of_le' (Nat.lt_of_lt_of_le (Nat.succ_pos _) hfuel)
      obtain ⟨y, elements, rfl⟩ := List.exists_cons_of_length_eq_add_one hlength
      have hscore : (above ++ score :: other :: scores)[front.length]? = some score := by
        simp [← habove]
      have hother : (above ++ score :: other :: scores)[front.length + 1]? = some other := by
        simp [← habove]
      simp only [sift, hscore, hother, List.zip_cons_cons, insert]
      split
      · have hrest := ih fuel (front ++ [y]) elements (above ++ [other]) (by simp [habove])
          (Nat.succ.inj hlength) (Nat.le_of_succ_le_succ hfuel)
        rw [exchange_append, ← habove, exchange_append, habove]
        simpa using hrest
      · simp [List.map_fst_zip, List.map_snd_zip, Nat.succ.inj hlength]

/-- Moving an element through both lists inserts it into the list of pairs. -/
theorem Slices.zip_append (r : Slices α σ) (h : r.elements.length = r.scores.length) (x : α)
    (score : σ) : (r.append x score).elements.zip (r.append x score).scores =
      insert x score (r.elements.zip r.scores) := by
  have hsift : r.append x score = ⟨(insert x score (r.elements.zip r.scores)).map (·.1),
      (insert x score (r.elements.zip r.scores)).map (·.2)⟩ :=
    sift_append x score r.scores.length [] r.elements [] r.scores rfl h le_rfl
  rw [hsift, List.zip_map', List.map_id']

end Slices

end Ranking

namespace Population

/-- The individuals and the scores of a history. -/
def slices (p : Population) : Ranking.Slices Individual Float :=
  ⟨p.history.map (·.1), p.history.map (·.2)⟩

/-- An individual moves through the individuals and the scores to its place in the history. -/
theorem history_append {p p' : Population} {x : Individual} {fitness : Float}
    (h : p.append x fitness = some p') :
    p'.history = (p.slices.append x (p.mode.orient fitness)).elements.zip
      (p.slices.append x (p.mode.orient fitness)).scores := by
  have hzip : p.slices.elements.zip p.slices.scores = p.history := by
    simp [slices, List.zip_map']
  rw [(append_eq_some h).2, Ranking.Slices.zip_append _ (by simp [slices]), hzip]

/-- An individual that was measured and offered to a population, and whether it was recorded. -/
structure Attempt where
  individual : Individual
  fitness : Float
  recorded : Bool

/-- The individuals that were recorded, with their fitness, in the order in which they came. -/
def Attempt.kept (attempts : List Attempt) : List (Individual × Float) :=
  (attempts.filter (·.recorded)).map fun a => (a.individual, a.fitness)

/-- Scores in place of fitness. -/
def scored (mode : Mode) (xs : List (Individual × Float)) : List (Individual × Float) :=
  xs.map fun (x, fitness) => (x, mode.orient fitness)

/-- The populations that come of a space when individuals are offered and batches are bred in any
order, with what was offered so far. Where an individual is refused, the population stays. -/
inductive Fed (s : Space) (rate : Float) (mode : Mode) : List Attempt → Population → Prop
  | start {p : Population} {src src' : Source} (h : make s rate mode src = some (.ok p, src')) :
      Fed s rate mode [] p
  | append {attempts : List Attempt} {p : Population} (hp : Fed s rate mode attempts p)
      (x : Individual) (fitness : Float) :
      Fed s rate mode (attempts ++ [⟨x, fitness, (p.append x fitness).isSome⟩])
        ((p.append x fitness).getD p)
  | offspring {attempts : List Attempt} {p p' : Population} {batch : List Individual}
      {parents children : Int64} {src src' : Source} (hp : Fed s rate mode attempts p)
      (h : p.offspring parents children src = some (.ok (batch, p'), src')) :
      Fed s rate mode attempts p'

variable {s : Space} {rate : Float} {mode : Mode} {attempts : List Attempt} {p p' : Population}

theorem orient_orient (mode : Mode) {x : Float} (hx : x.isNaN = false) :
    mode.orient (mode.orient x) = x := by
  cases mode with
  | maximize => rfl
  | minimize => exact float_neg_neg hx

theorem isNaN_orient (mode : Mode) (x : Float) : (mode.orient x).isNaN = x.isNaN := by
  cases mode with
  | maximize => rfl
  | minimize => exact isNaN_neg x

/-! ## What a history holds -/

/-- A history holds the scores of what was kept. -/
structure Holds (mode : Mode) (p : Population) (kept : List (Individual × Float)) : Prop where
  mode_eq : p.mode = mode
  perm : p.history.Perm (scored mode kept)
  latest : ∀ score, Ranking.tied score p.history = (Ranking.tied score (scored mode kept)).reverse
  descending : (∀ y ∈ kept, y.2.isNaN = false) → Ranking.Descending p.history

theorem Holds.records_iff {kept : List (Individual × Float)} (h : p.Holds mode kept)
    (x : Individual) : p.records x = true ↔ ∃ y ∈ kept, x.same y.1 = true := by
  unfold records
  rw [h.perm.any_eq, scored, List.any_map, List.any_eq_true]
  rfl

theorem Holds.append {kept : List (Individual × Float)} (h : p.Holds mode kept) {x : Individual}
    {fitness : Float} (happend : p.append x fitness = some p') :
    p'.Holds mode (kept ++ [(x, fitness)]) := by
  obtain ⟨-, rfl⟩ := append_eq_some happend
  have hscored : scored mode (kept ++ [(x, fitness)]) =
      scored mode kept ++ [(x, mode.orient fitness)] := List.map_append
  refine ⟨h.mode_eq, ?_, fun score => ?_, fun hnan => ?_⟩
  · rw [h.mode_eq, hscored]
    exact (Ranking.insert_perm _ _ _).trans ((h.perm.cons _).trans (List.perm_append_singleton _ _).symm)
  · rw [h.mode_eq, hscored, Ranking.tied_insert, h.latest, Ranking.tied, Ranking.tied, Ranking.tied,
      List.filter_append, List.reverse_append]
    congr 1
    cases hscore : mode.orient fitness == score <;> simp [hscore]
  · have hfitness : fitness.isNaN = false := hnan (x, fitness) (by simp)
    have hkept : ∀ y ∈ kept, y.2.isNaN = false := fun y hy => hnan y (by simp [hy])
    refine (h.descending hkept).insert ((isNaN_orient _ _).trans hfitness) fun y hy => ?_
    obtain ⟨z, hz, rfl⟩ := List.mem_map.mp (h.perm.mem_iff.mp hy)
    exact (isNaN_orient mode z.2).trans (hkept z hz)

/-- Fitness is read back from scores. -/
theorem Holds.ranked_perm {kept : List (Individual × Float)} (h : p.Holds mode kept)
    (hnan : ∀ y ∈ kept, y.2.isNaN = false) : p.ranked.Perm kept := by
  have hback : (scored mode kept).map (fun (x, score) => (x, mode.orient score)) = kept := by
    rw [scored, List.map_map, List.map_congr_left (g := id), List.map_id]
    intro y hy
    exact Prod.ext rfl (orient_orient mode (hnan y hy))
  unfold ranked
  rw [h.mode_eq]
  exact (h.perm.map _).trans (.of_eq hback)

/-! ## Every population that was fed -/

theorem kept_append (attempts : List Attempt) (a : Attempt) :
    Attempt.kept (attempts ++ [a]) =
      Attempt.kept attempts ++ if a.recorded then [(a.individual, a.fitness)] else [] := by
  rw [Attempt.kept, List.filter_append, List.map_append]
  cases ha : a.recorded <;> simp [ha, Attempt.kept]

theorem Fed.holds (h : Fed s rate mode attempts p) : p.Holds mode (Attempt.kept attempts) := by
  induction h with
  | start h =>
      obtain ⟨-, -, -, -, hp⟩ := make_eq_ok h
      rw [hp]
      exact ⟨rfl, .nil, fun _ => rfl, fun _ => .nil⟩
  | @append attempts p _ x fitness ih =>
      rw [kept_append]
      cases happend : p.append x fitness with
      | none => simpa using ih
      | some p' => simpa using ih.append happend
  | offspring _ h ih =>
      obtain ⟨n, rfl⟩ := breed_population (offspring_eq_ok h).2
      exact ⟨ih.mode_eq, ih.perm, ih.latest, ih.descending⟩

/-- An individual is recorded unless it is the same as one that was kept before. -/
theorem isSome_append_iff {kept : List (Individual × Float)} (h : p.Holds mode kept)
    (x : Individual) (fitness : Float) :
    (p.append x fitness).isSome = true ↔ ∀ y ∈ kept, x.same y.1 = false := by
  have hrecords := h.records_iff x
  unfold append
  split
  · next hx =>
      obtain ⟨y, hy, hsame⟩ := hrecords.mp hx
      simpa using ⟨y.1, ⟨y.2, hy⟩, hsame⟩
  · next hx =>
      refine iff_of_true rfl fun y hy => Bool.eq_false_iff.mpr fun hsame => hx ?_
      exact hrecords.mpr ⟨y, hy, hsame⟩

theorem Fed.recorded_iff (h : Fed s rate mode attempts p) {before after : List Attempt}
    {a : Attempt} (hsplit : attempts = before ++ a :: after) :
    a.recorded = true ↔ ∀ y ∈ Attempt.kept before, a.individual.same y.1 = false := by
  induction h generalizing after with
  | start => simp at hsplit
  | append hp x fitness ih =>
      -- the attempt is the last one, or one of those before
      rcases List.eq_nil_or_concat after with rfl | ⟨rest, last, rfl⟩
      · obtain ⟨rfl, ha⟩ := List.append_inj' hsplit rfl
        obtain rfl := (List.cons.inj ha).1
        exact isSome_append_iff hp.holds x fitness
      · rw [List.concat_eq_append, ← List.cons_append, ← List.append_assoc] at hsplit
        exact ih (List.append_inj' hsplit rfl).1
  | offspring _ _ ih => exact ih hsplit

/-- When no fitness is undefined, the history lists what was recorded, each individual once with the
fitness it was recorded with; scores never rise along it, and among equal scores the latest comes
first. An individual is recorded if and only if it is not the same as one recorded before, and then it
moves through the individuals as its score moves through the scores. -/
theorem fed_ranking (h : Fed s rate mode attempts p)
    (hnan : ∀ a ∈ attempts, a.fitness.isNaN = false) :
    Ranking.Descending p.history ∧ p.history = scored mode p.ranked ∧
      p.ranked.Perm (Attempt.kept attempts) ∧
      (∀ score, Ranking.tied score p.history =
        (Ranking.tied score (scored mode (Attempt.kept attempts))).reverse) ∧
      (∀ before a after, attempts = before ++ a :: after →
        (a.recorded = true ↔ ∀ y ∈ Attempt.kept before, a.individual.same y.1 = false)) ∧
      ∀ x fitness p', p.append x fitness = some p' →
        p'.history = (p.slices.append x (p.mode.orient fitness)).elements.zip
          (p.slices.append x (p.mode.orient fitness)).scores := by
  have hkept : ∀ y ∈ Attempt.kept attempts, y.2.isNaN = false := by
    intro y hy
    obtain ⟨a, ha, rfl⟩ := List.mem_map.mp hy
    exact hnan a (List.mem_of_mem_filter ha)
  have hp := h.holds
  have hhistory : p.history = scored mode p.ranked := by
    rw [scored, ranked, List.map_map, hp.mode_eq, List.map_congr_left (g := id), List.map_id]
    intro y hy
    obtain ⟨z, hz, rfl⟩ := List.mem_map.mp (hp.perm.mem_iff.mp hy)
    exact Prod.ext rfl (orient_orient mode ((isNaN_orient mode z.2).trans (hkept z hz)))
  exact ⟨hp.descending hkept, hhistory, hp.ranked_perm hkept, hp.latest,
    fun before a after hsplit => h.recorded_iff hsplit, fun _ _ _ => history_append⟩

/-- The coin with a side up. -/
def coinWith (side : String) : Individual :=
  ⟨[("side", .choice ⟨[.text "heads", .text "tails"], .text side, 0.5⟩)]⟩

/-- The sides of the coin are measured, and one of them twice. -/
def coinAttempts : List Attempt :=
  [⟨coinWith "heads", 1.0, true⟩, ⟨coinWith "tails", 1.0, true⟩, ⟨coinWith "heads", 0.5, false⟩]

theorem coin_fed : ∃ p, Fed coin 0.5 .minimize coinAttempts p ∧
    p.ranked = [(coinWith "tails", 1.0), (coinWith "heads", 1.0)] := by
  have hstart := Fed.start
    (rfl : make coin 0.5 .minimize (.ofScript [0, 0] 0) = some (.ok _, _))
  have hboth := (hstart.append (coinWith "heads") 1.0).append (coinWith "tails") 1.0
  exact ⟨_, hboth.append (coinWith "heads") 0.5, rfl⟩

/-- The side that was measured last comes first. -/
theorem fed_ranking_coin : ∃ p, Fed coin 0.5 .minimize coinAttempts p ∧
    (∀ a ∈ coinAttempts, a.fitness.isNaN = false) ∧
    p.ranked = [(coinWith "tails", 1.0), (coinWith "heads", 1.0)] ∧
    Ranking.Descending p.history ∧ p.ranked.Perm (Attempt.kept coinAttempts) := by
  obtain ⟨p, h, hranked⟩ := coin_fed
  have hnan : ∀ a ∈ coinAttempts, a.fitness.isNaN = false := by
    simp only [coinAttempts, List.forall_mem_cons]
    exact ⟨rfl, rfl, rfl, by simp⟩
  obtain ⟨hdescending, -, hperm, -, -⟩ := fed_ranking h hnan
  exact ⟨p, h, hnan, hranked, hdescending, hperm⟩

end Population

end Tuning
