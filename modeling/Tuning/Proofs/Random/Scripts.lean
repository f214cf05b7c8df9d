import Tuning.Proofs.Decimal.Words
import Tuning.Proofs.Random.Draws
import Tuning.Proofs.Value.Doubles

/-! # Draws that a script leads to

A script is a list of words that a source serves before all others. A draw reaches a value if some
script leads it there from every source. -/

namespace Tuning

namespace Source

/-- The source that serves words before all others, with the allowance to take them. -/
def feed (s : Source) (words : List Nat) : Source :=
  { s with script := words ++ s.script, allowance := s.allowance + words.length }

/-- The source with more words taken. -/
def spent (s : Source) (n : Nat) : Source :=
  { s with drawn := s.drawn + n }

theorem feed_append (s : Source) (words more : List Nat) :
    s.feed (words ++ more) = (s.feed more).feed words := by
  simp [feed, Nat.add_comm, Nat.add_left_comm]

theorem spent_feed (s : Source) (words : List Nat) (n : Nat) :
    (s.feed words).spent n = (s.spent n).feed words := rfl

theorem spent_spent (s : Source) (m n : Nat) : (s.spent m).spent n = s.spent (m + n) := by
  simp [spent, Nat.add_assoc]

end Source

namespace Draw

variable {α β ε : Type}

/-- The words lead to a value, and are taken, from every source that has an allowance left. -/
def Gives (d : Draw α) (words : List Nat) (a : α) : Prop :=
  ∀ s : Source, 0 < s.allowance → d (s.feed words) = some (a, s.spent words.length)

/-- Some script leads to a value. -/
def Reaches (d : Draw α) (a : α) : Prop :=
  ∃ words : List Nat, (∀ word ∈ words, word < 2 ^ 63) ∧ d.Gives words a

theorem Gives.bind {d : Draw α} {f : α → Draw β} {words more : List Nat} {a : α} {b : β}
    (hd : d.Gives words a) (hf : (f a).Gives more b) : (d >>= f).Gives (words ++ more) b := by
  intro s hs
  have hs' : 0 < (s.feed more).allowance := Nat.add_pos_left hs _
  rw [bind_eq_some]
  refine ⟨a, _, Source.feed_append s words more ▸ hd (s.feed more) hs', ?_⟩
  rw [Source.spent_feed, hf (s.spent words.length) hs, Source.spent_spent, List.length_append]

namespace Reaches

/-- The script in a source that has it: what follows the script does not matter. -/
theorem exists_script {d : Draw α} {a : α} (h : d.Reaches a) :
    ∃ script : List Nat, (∀ word ∈ script, word < 2 ^ 63) ∧
      ∀ src : Source, script <+: src.script → script.length < src.allowance →
        ∃ src', d src = some (a, src') := by
  obtain ⟨script, hwords, hd⟩ := h
  refine ⟨script, hwords, fun src ⟨rest, hrest⟩ hallowance => ?_⟩
  have hsrc : src = Source.feed { src with script := rest, allowance := src.allowance - script.length }
      script := by
    simp only [Source.feed, hrest, Nat.sub_add_cancel hallowance.le]
  rw [hsrc]
  exact ⟨_, hd _ (Nat.sub_pos_of_lt hallowance)⟩

theorem ensured {d : Draw α} {a : α} {P : α → Prop} (h : d.Reaches a) (hd : Ensures d P) : P a := by
  obtain ⟨words, -, h⟩ := h
  exact hd _ a _ (h { stream := Random.Lagged.ofSeed 0 } (by decide))

theorem pure (a : α) : (Pure.pure a : Draw α).Reaches a :=
  ⟨[], by simp, fun _ _ => rfl⟩

theorem bind {d : Draw α} {f : α → Draw β} {a : α} {b : β} (hd : d.Reaches a)
    (hf : (f a).Reaches b) : (d >>= f).Reaches b := by
  obtain ⟨words, hwords, hd⟩ := hd
  obtain ⟨more, hmore, hf⟩ := hf
  exact ⟨words ++ more, List.forall_mem_append.mpr ⟨hwords, hmore⟩, hd.bind hf⟩

/-- What is done with the allowance does not matter, as long as there is one. -/
theorem get_bind {f : Source → Draw α} {a : α}
    (h : ∃ words : List Nat, (∀ word ∈ words, word < 2 ^ 63) ∧
      ∀ s, 0 < s.allowance → (f s).Gives words a) : (get >>= f).Reaches a := by
  obtain ⟨words, hwords, hf⟩ := h
  refine ⟨words, hwords, fun s hs => ?_⟩
  exact hf (s.feed words) (Nat.add_pos_left hs _) s hs

theorem map {d : Draw α} {a : α} (hd : d.Reaches a) (f : α → β) : (f <$> d).Reaches (f a) := by
  rw [map_eq_pure_bind]
  exact hd.bind (pure _)

theorem give {d : Draw α} {a : α} (hd : d.Reaches a) (f : α → β) :
    Reaches (do return f (← d)) (f a) :=
  hd.bind (pure _)

theorem ok_pure (a : α) : (Pure.pure a : ExceptT ε Draw α).run.Reaches (.ok a) :=
  pure (Except.ok a)

theorem ok_lift {d : Draw α} {a : α} (hd : d.Reaches a) :
    (liftM d : ExceptT ε Draw α).run.Reaches (.ok a) :=
  hd.map Except.ok

theorem ok_bind {d : ExceptT ε Draw α} {f : α → ExceptT ε Draw β} {a : α} {b : β}
    (hd : d.run.Reaches (.ok a)) (hf : (f a).run.Reaches (.ok b)) :
    (d >>= f).run.Reaches (.ok b) :=
  hd.bind hf

theorem ok_adapt {ε' : Type} {d : ExceptT ε Draw α} {f : ε → ε'} {a : α}
    (hd : d.run.Reaches (.ok a)) : (ExceptT.adapt f d).run.Reaches (.ok a) :=
  hd.map (Except.mapError f)

theorem exists_forall₂ {R : α → β → Prop} {xs : List α} (h : ∀ x ∈ xs, ∃ y, R x y) :
    ∃ ys, List.Forall₂ R xs ys := by
  induction xs with
  | nil => exact ⟨[], .nil⟩
  | cons x xs ih =>
      obtain ⟨y, hy⟩ := h x List.mem_cons_self
      obtain ⟨ys, hys⟩ := ih fun z hz => h z (List.mem_cons_of_mem _ hz)
      exact ⟨y :: ys, .cons hy hys⟩

theorem mapM {f : α → Draw β} {xs : List α} {ys : List β}
    (h : List.Forall₂ (fun x y => (f x).Reaches y) xs ys) : (xs.mapM f).Reaches ys := by
  induction h with
  | nil =>
      rw [List.mapM_nil]
      exact pure []
  | cons hx _ ih =>
      rw [List.mapM_cons]
      exact hx.bind (ih.bind (pure _))

theorem ok_mapM {f : α → ExceptT ε Draw β} {xs : List α} {ys : List β}
    (h : List.Forall₂ (fun x y => (f x).run.Reaches (.ok y)) xs ys) :
    (xs.mapM f).run.Reaches (.ok ys) := by
  induction h with
  | nil =>
      rw [List.mapM_nil]
      exact ok_pure []
  | cons hx _ ih =>
      rw [List.mapM_cons]
      exact hx.ok_bind (ih.ok_bind (ok_pure _))

end Reaches

/-! ## Numbers below a bound -/

theorem gives_word (word : Nat) : Draw.word.Gives [word] word :=
  fun _ _ => rfl

theorem gives_half (word : Nat) : half.Gives [word] (word >>> 32) :=
  fun _ _ => rfl

theorem Gives.map {d : Draw α} {words : List Nat} {a : α} (h : d.Gives words a) (f : α → β) :
    Gives (do return f (← d)) words (f a) := by
  intro s hs
  rw [bind_eq_some]
  exact ⟨a, _, h s hs, rfl⟩

/-- A draw that is accepted at once is the first one. -/
theorem Gives.firstThat {d : Draw α} {words : List Nat} {a : α} {accept : α → Bool}
    (h : d.Gives words a) (ha : accept a = true) : (firstThat accept d).Gives words a := by
  intro s hs
  change retry d accept _ (s.feed words) = _
  rw [retry, bind_eq_some]
  refine ⟨a, _, h s hs, ?_⟩
  rw [if_pos ha]
  rfl

theorem Gives.uniformBelow {draw : Draw Nat} {bits n i word : Nat} (h : draw.Gives [word] i)
    (hi : i < n) (hn : n < 2 ^ bits) : (uniformBelow draw bits n).Gives [word] i := by
  unfold Draw.uniformBelow
  split
  · next hpower =>
      have hmask : i &&& (n - 1) = i := by
        have hzero : n &&& (n - 1) = 0 := by simpa [powerOfTwo] using hpower
        obtain ⟨k, rfl⟩ := (Nat.and_sub_one_eq_zero_iff_isPowerOfTwo (by omega)).mp hzero
        exact Nat.and_two_pow_sub_one_of_lt_two_pow hi
      simpa only [hmask] using h.map (· &&& (n - 1))
  · have hlast : i ≤ 2 ^ bits - 1 - 2 ^ bits % n := by
      have hdiv := Nat.div_add_mod (2 ^ bits) n
      have hquotient : n * 1 ≤ n * (2 ^ bits / n) :=
        Nat.mul_le_mul_left n ((Nat.one_le_div_iff (by omega)).mpr hn.le)
      omega
    have hfirst : (Draw.firstThat (· ≤ 2 ^ bits - 1 - 2 ^ bits % n) draw).Gives [word] i :=
      h.firstThat (by simpa using hlast)
    simpa only [Nat.mod_eq_of_lt hi] using hfirst.map (· % n)

/-- Every number below a bound can be drawn. -/
theorem reaches_below {n i : Nat} (hi : i < n) (hn : n < 2 ^ 63) : (below n).Reaches i := by
  unfold below
  split
  · next hsmall =>
      refine ⟨[i <<< 32], ?_, ?_⟩
      · rw [List.forall_mem_singleton, Nat.shiftLeft_eq]
        omega
      · refine Gives.uniformBelow ?_ hi hsmall
        simpa using gives_half (i <<< 32)
  · exact ⟨[i], by simpa using hi.trans hn, (gives_word i).uniformBelow hi hn⟩

/-! ## Rolls that fail -/

/-- The greatest fraction. -/
def lastFraction : Float :=
  (9223372036854774784 : Nat).toUInt64.toFloat / 9223372036854775808.0

theorem gives_lastFraction : fraction.Gives [9223372036854774784] lastFraction :=
  ((gives_word _).map _).firstThat (by rfl)

theorem place_lastFraction : Double.place lastFraction = toLex (1, toLex (-53, 2 ^ 53 - 1)) := by
  have hunpack : lastFraction.toModel.unpack =
      .finite .positive (2 ^ 53 - 1) (-53) (by norm_num) := by rfl
  rw [Double.place, hunpack]
  rfl

theorem place_one : Double.place 1.0 = toLex (1, toLex (-52, 2 ^ 52)) := by
  have hunpack : (1.0 : Float).toModel.unpack = .finite .positive (2 ^ 52) (-52) (by norm_num) := by rfl
  rw [Double.place, hunpack]
  rfl

/-- No double lies between the greatest fraction and one, so the greatest fraction is below no rate. -/
theorem not_lastFraction_lt {rate : Float} (hrate : ¬ 1.0 ≤ rate) : ¬ lastFraction < rate := by
  intro hlt
  obtain ⟨-, hnan, hbelow⟩ := float_lt_iff.mp hlt
  have habove : Double.place rate < Double.place 1.0 :=
    not_le.mp fun h => hrate (float_le_iff.mpr ⟨rfl, hnan, h⟩)
  rw [place_lastFraction] at hbelow
  rw [place_one] at habove
  have hcanonical : ∀ negative m e narrow, Binary.ofFloat rate = .finite negative m e narrow →
      Binary.Canonical 52 (-1074) m e narrow := fun _ _ _ _ => Binary.canonical_ofFloat
  rw [Binary.ofFloat_eq] at hcanonical
  rw [Double.place] at hbelow habove
  rcases hu : rate.toModel.unpack with (_ | _) | _ | (_ | _) | ⟨_ | _, m, e, hm⟩ <;>
    simp [hu, place, Prod.Lex.toLex_lt_toLex] at hbelow habove
  rw [hu] at hcanonical
  have hcanonical := hcanonical _ _ _ _ rfl
  have hupper := hcanonical.mantissa_lt
  have hlower := hcanonical.normal
  omega

/-- When the roll fails at once, a walk with a step left ends where it starts. -/
theorem gives_stop {rate : Float} (hrate : ¬ 1.0 ≤ rate) (step : α → Option (Draw α)) (fuel : Nat)
    (x : α) : (walkFor rate step (fuel + 1) x).Gives [9223372036854774784] x := by
  intro s hs
  rw [walkFor, bind_eq_some]
  refine ⟨_, _, gives_lastFraction s hs, ?_⟩
  rw [if_neg (not_lastFraction_lt hrate)]
  rfl

theorem reaches_walk {rate : Float} (hrate : ¬ 1.0 ≤ rate) (step : α → Option (Draw α)) (x : α) :
    (walk rate step x).Reaches x :=
  .get_bind ⟨[9223372036854774784], by simp, fun _ _ => gives_stop hrate step _ x⟩

/-! ## Rolls that succeed -/

/-- The least fraction. -/
def firstFraction : Float :=
  (0 : Nat).toUInt64.toFloat / 9223372036854775808.0

theorem gives_firstFraction : fraction.Gives [0] firstFraction :=
  ((gives_word _).map _).firstThat (by rfl)

/-- The least fraction is zero, so it is below every positive rate. -/
theorem firstFraction_lt {rate : Float} (hrate : 0.0 < rate) : firstFraction < rate := by
  have hfirst : firstFraction.toModel.unpack = .zero .positive := by rfl
  have hzero : (0.0 : Float).toModel.unpack = .zero .positive := by rfl
  have hnumber : firstFraction.isNaN = false := by rfl
  obtain ⟨-, hnan, hbelow⟩ := float_lt_iff.mp hrate
  refine float_lt_iff.mpr ⟨hnumber, hnan, ?_⟩
  rwa [Double.place, hzero, ← hfirst, ← Double.place] at hbelow

/-- One step of a walk can lead from a value to another. -/
def CanStep (step : α → Option (Draw α)) (x y : α) : Prop :=
  ∃ next, step x = some next ∧ next.Reaches y

/-- A walk can follow every path of steps: the rolls succeed before each of them, and the last roll
fails. -/
theorem reaches_walk_of_path {rate : Float} (hlow : 0.0 < rate) (hhigh : ¬ 1.0 ≤ rate)
    {step : α → Option (Draw α)} {x y : α} (h : Relation.ReflTransGen (CanStep step) x y) :
    (walk rate step x).Reaches y := by
  -- every step takes a word, so the words of the path are enough for its steps
  have hwalk : ∃ words : List Nat, (∀ word ∈ words, word < 2 ^ 63) ∧
      ∀ fuel, words.length ≤ fuel → (walkFor rate step fuel x).Gives words y := by
    induction h using Relation.ReflTransGen.head_induction_on with
    | refl =>
        refine ⟨[9223372036854774784], by simp, fun fuel hfuel => ?_⟩
        obtain ⟨fuel, rfl⟩ := Nat.exists_eq_add_of_le' hfuel
        exact gives_stop hhigh step fuel y
    | head hstep _ ih =>
        obtain ⟨next, hnext, first, hfirst, hgives⟩ := hstep
        obtain ⟨words, hwords, hrest⟩ := ih
        refine ⟨[0] ++ (first ++ words), ?_, fun fuel hfuel => ?_⟩
        · simpa [or_imp, forall_and] using ⟨hfirst, hwords⟩
        · simp only [List.length_append, List.length_singleton] at hfuel
          obtain ⟨fuel, rfl⟩ : ∃ k, fuel = k + 1 := ⟨fuel - 1, by omega⟩
          refine gives_firstFraction.bind ?_
          rw [if_pos (firstFraction_lt hlow), hnext]
          exact hgives.bind (hrest fuel (by omega))
  obtain ⟨words, hwords, hgives⟩ := hwalk
  refine ⟨words, hwords, fun s hs => ?_⟩
  refine hgives _ ?_ s hs
  exact Nat.le_succ_of_le (Nat.le_add_left _ _)

end Draw

end Tuning
