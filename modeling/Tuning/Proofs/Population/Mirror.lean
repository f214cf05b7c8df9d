import Tuning.Proofs.Population.Refusal
import Tuning.Proofs.Population.Volume

/-! # The two directions

A population keeps scores, which are better when higher, so its direction matters only where a fitness
comes in or goes out. Two populations of opposite directions that are fed opposite fitness hold the same
scores, and so whatever they are asked they draw the same words and answer alike. -/

namespace Tuning

/-! ## Individuals that are the same as themselves -/

namespace Domain

variable {d : Domain} {g : Gene}

theorem Suits.same_self (hd : d.Reflexive) (hg : d.Suits g) : g.same g = true := by
  cases hg with
  | choice h => exact hd _ (Choice.distinct_subset _ (h.atoms_eq ▸ h.value_mem))
  | discrete => exact beq_self_eq_true _
  | permutation _ => exact beq_self_eq_true _
  | factor => exact beq_self_eq_true _

end Domain

theorem Individual.same_self_of_suits {s : Space} {x : Individual}
    (hs : ∀ q ∈ s.parameters, q.domain.Reflexive)
    (hx : x.Matches (fun q g => q.domain.Suits g) s) : x.same x = true := by
  obtain ⟨genes⟩ := x
  obtain ⟨parameters⟩ := s
  change List.Forall₂ _ parameters genes at hx
  change sameGenes genes genes = true
  induction hx with
  | nil => rfl
  | @cons q named parameters genes hg _ ih =>
      simp only [sameGenes, Bool.and_eq_true]
      exact ⟨⟨beq_self_eq_true _, hg.2.same_self (hs q List.mem_cons_self)⟩,
        ih fun r hr => hs r (List.mem_cons_of_mem q hr)⟩

namespace Draw

variable {α β ε : Type}

theorem map_apply (f : α → β) (d : Draw α) (src : Source) :
    (f <$> d) src = (d src).map (Prod.map f id) := by
  change (d src).bind (fun drawn => some (f drawn.1, drawn.2)) = _
  cases d src with
  | none => rfl
  | some drawn => rfl

theorem except_map_apply (f : α → β) (d : ExceptT ε Draw α) (src : Source) :
    (f <$> d) src = (d src).map (Prod.map (Except.map f) id) := by
  change (f <$> d).run src = _
  rw [ExceptT.run_map]
  exact map_apply (Except.map f) d.run src

end Draw

namespace Population

/-! ## Turning a population around -/

/-- The population with the same scores and another direction. -/
def toward (mode : Mode) (p : Population) : Population :=
  { p with mode }

variable {p p' : Population} {src : Source}

theorem make_toward (mode : Mode) (s : Space) (rate : Float) :
    make s rate mode = toward mode <$> make s rate .maximize := by
  by_cases hrate : (rate < 0.0 || 1.0 ≤ rate) = true
  · simp only [make, hrate, ↓reduceIte]
    rfl
  · cases hvalid : s.validate with
    | error fault =>
        simp only [make, hrate, hvalid]
        rfl
    | ok _ =>
        simp only [make, hrate, hvalid, Bool.false_eq_true, ↓reduceIte, map_bind, map_pure]
        rfl

theorem unique_toward (mode : Mode) (p : Population) : (p.toward mode).unique = p.unique :=
  unique_congr rfl

theorem fresh_toward (mode : Mode) (p : Population) : (p.toward mode).fresh = p.fresh :=
  fresh_congr rfl rfl

theorem takeSeeds_toward (mode : Mode) (count : Nat) (batch : List Individual) (p : Population) :
    takeSeeds count batch (p.toward mode) = Prod.map id (toward mode) <$> takeSeeds count batch p := by
  induction count generalizing batch p with
  | zero => rfl
  | succ count ih =>
      cases hpending : p.pending with
      | nil =>
          have hpending' : (p.toward mode).pending = [] := hpending
          simp only [takeSeeds, hpending, hpending', map_pure]
          rfl
      | cons bound rest =>
          have hpending' : (p.toward mode).pending = bound :: rest := hpending
          simp only [takeSeeds, hpending, hpending', map_bind]
          refine bind_congr fun made => ?_
          cases made with
          | error e => rfl
          | ok x =>
              simp only [map_bind, unique_toward]
              exact bind_congr fun y => ih (batch ++ [y]) { p with pending := rest }

/-- The direction has no part in breeding. -/
theorem breedHere_toward (mode : Mode) (p : Population) (parents children : Nat) :
    (p.toward mode).breedHere parents children =
      Prod.map id (toward mode) <$> p.breedHere parents children := by
  have hpolicy : (p.toward mode).policy parents = p.policy parents := rfl
  cases h : p.policy parents with
  | coldStart =>
      simp only [breedHere, hpolicy, h, takeSeeds_toward, map_bind, bind_map_left]
      refine bind_congr fun taken => ?_
      obtain ⟨_ | batch, q⟩ := taken
      · rfl
      · simp only [Prod.map, id, fresh_toward, map_bind]
        rfl
  | restart =>
      simp only [breedHere, hpolicy, h, fresh_toward, map_bind]
      rfl
  | crossover =>
      simp only [breedHere, hpolicy, h, unique_toward, map_bind]
      rfl

theorem offspringHere_toward (mode : Mode) (p : Population) (parents children : Int64) :
    (p.toward mode).offspringHere parents children =
      Prod.map id (toward mode) <$> p.offspringHere parents children := by
  have hexhausted : (p.toward mode).exhaustedBy children = p.exhaustedBy children := rfl
  unfold offspringHere
  rw [hexhausted]
  split_ifs
  · rfl
  · rfl
  · rfl
  · exact breedHere_toward mode p _ _

theorem mode_of_offspringHere {parents children : Int64} {src' : Source}
    {result : Except BreedError (List Individual)}
    (h : p.offspringHere parents children src = some ((result, p'), src')) : p'.mode = p.mode := by
  have htoward : p.offspringHere parents children = _ := offspringHere_toward p.mode p parents children
  rw [htoward, Draw.map_eq_some] at h
  obtain ⟨bred, -, heq⟩ := h
  rw [← (Prod.mk.inj heq).2]
  rfl

/-- A fitness is recorded as the score that it has in its direction. -/
theorem append_toward (mode : Mode) (hp : p.mode = .maximize) (x : Individual) (fitness : Float) :
    (p.toward mode).append x fitness = (p.append x (mode.orient fitness)).map (toward mode) := by
  have hrecords : (p.toward mode).records x = p.records x := rfl
  unfold append
  rw [hrecords, hp]
  split_ifs <;> rfl

/-! ## Trials -/

/-- What is asked of a population. -/
inductive Request where
  | breed (parents children : Int64)
  /-- Records a child of an earlier batch, both by number. -/
  | record (batch child : Nat) (fitness : Float)

/-- The request with the opposite fitness. -/
def Request.opposite : Request → Request
  | breed parents children => .breed parents children
  | record batch child fitness => .record batch child (-fitness)

/-- What comes of a request. -/
inductive Reply where
  | bred (batch : List Individual)
  | refused (e : BreedError)
  | recorded (accepted : Bool)
  /-- There is no such child. -/
  | absent

/-- Replies that cannot be told apart by comparing individuals. -/
def Reply.Agrees : Reply → Reply → Prop
  | bred xs, bred ys => List.Forall₂ (fun x y => x.same y = true) xs ys
  | a, b => a = b

/-- A population with its source and the batches that it has bred, in order. -/
structure Bench where
  population : Population
  source : Source
  batches : List (List Individual) := []

/-- What is seen after a request: its reply, how many words are drawn, the starting values that are
still to be tried, and the ranking. -/
structure Sight where
  reply : Reply
  drawn : Nat
  pending : List Space
  ranked : List (Individual × Float)

/-- The sight with the opposite fitness everywhere. -/
def Sight.opposite (a : Sight) : Sight :=
  { a with ranked := a.ranked.map fun (x, fitness) => (x, -fitness) }

namespace Bench

/-- The reply to a request and what comes after it, if the request ever returns. -/
def answer (b : Bench) : Request → Option (Reply × Bench)
  | .breed parents children => do
    let ((result, population), source) ← b.population.offspringHere parents children b.source
    match result with
    | .ok batch => return (.bred batch, { population, source, batches := b.batches ++ [batch] })
    | .error e => return (.refused e, { b with population, source })
  | .record batch child fitness =>
    match (b.batches[batch]?).bind (·[child]?) with
    | none => some (.absent, b)
    | some x =>
      match b.population.append x fitness with
      | none => some (.recorded false, b)
      | some population => some (.recorded true, { b with population })

/-- What is seen of a population that gave a reply. -/
def sight (b : Bench) (reply : Reply) : Sight where
  reply
  drawn := b.source.drawn
  pending := b.population.pending
  ranked := b.population.ranked

/-- What is seen after each of several requests, up to one that never returns. -/
def sights (b : Bench) : List Request → List Sight
  | [] => []
  | r :: rest =>
    match b.answer r with
    | none => []
    | some (reply, b) => b.sight reply :: b.sights rest

/-- The same scores with another direction. -/
def toward (mode : Mode) (b : Bench) : Bench :=
  { b with population := b.population.toward mode }

end Bench

/-- Makes a population and asks it for something, time and again. -/
def trial (s : Space) (rate : Float) (mode : Mode) (src : Source) (requests : List Request) :
    Option (Except PopulationError (List Sight) × Nat) := do
  let (made, source) ← make s rate mode src
  return (made.map fun population => Bench.sights { population, source } requests, source.drawn)

namespace Bench

variable {b b' : Bench} {r : Request} {reply : Reply}

/-- What a request does, one case for each kind of reply. -/
theorem answer_eq_some (h : b.answer r = some (reply, b')) :
    (∃ parents children batch, r = .breed parents children ∧ reply = .bred batch ∧
        b.population.offspringHere parents children b.source =
          some ((.ok batch, b'.population), b'.source) ∧ b'.batches = b.batches ++ [batch]) ∨
      (∃ parents children e, r = .breed parents children ∧ reply = .refused e ∧
        b.population.offspringHere parents children b.source =
          some ((.error e, b'.population), b'.source) ∧ b'.batches = b.batches) ∨
      (∃ batch child fitness, r = .record batch child fitness ∧
        ((reply = .absent ∧ b' = b) ∨
          ∃ xs x, b.batches[batch]? = some xs ∧ xs[child]? = some x ∧
            reply = .recorded (b.population.append x fitness).isSome ∧
            b' = { b with population := (b.population.append x fitness).getD b.population })) := by
  cases r with
  | breed parents children =>
      obtain ⟨⟨⟨result, population⟩, source⟩, hbred, h⟩ := Option.bind_eq_some_iff.mp h
      cases result with
      | ok batch =>
          obtain ⟨rfl, rfl⟩ := Prod.mk.inj (Option.some.inj h)
          exact .inl ⟨parents, children, batch, rfl, rfl, hbred, rfl⟩
      | error e =>
          obtain ⟨rfl, rfl⟩ := Prod.mk.inj (Option.some.inj h)
          exact .inr (.inl ⟨parents, children, e, rfl, rfl, hbred, rfl⟩)
  | record batch child fitness =>
      refine .inr (.inr ⟨batch, child, fitness, rfl, ?_⟩)
      cases hx : (b.batches[batch]?).bind (·[child]?) with
      | none =>
          simp only [answer, hx] at h
          obtain ⟨rfl, rfl⟩ := Prod.mk.inj (Option.some.inj h)
          exact .inl ⟨rfl, rfl⟩
      | some x =>
          obtain ⟨xs, hxs, hx'⟩ := Option.bind_eq_some_iff.mp hx
          refine .inr ⟨xs, x, hxs, hx', ?_⟩
          cases happend : b.population.append x fitness with
          | none =>
              simp only [answer, hx, happend] at h
              obtain ⟨rfl, rfl⟩ := Prod.mk.inj (Option.some.inj h)
              exact ⟨rfl, rfl⟩
          | some population =>
              simp only [answer, hx, happend] at h
              obtain ⟨rfl, rfl⟩ := Prod.mk.inj (Option.some.inj h)
              exact ⟨rfl, rfl⟩

/-- Turned around, a population answers the opposite request alike and stays turned around. -/
theorem answer_toward (hb : b.population.mode = .maximize) (r : Request) :
    (b.toward .minimize).answer r =
      (b.answer r.opposite).map (Prod.map id (toward .minimize)) := by
  cases r with
  | breed parents children =>
      simp only [answer, Request.opposite, toward, offspringHere_toward, Draw.map_apply]
      cases b.population.offspringHere parents children b.source with
      | none => rfl
      | some bred =>
          obtain ⟨⟨_ | batch, population⟩, source⟩ := bred
          · rfl
          · rfl
  | record batch child fitness =>
      simp only [answer, Request.opposite, toward]
      cases (b.batches[batch]?).bind (·[child]?) with
      | none => rfl
      | some x =>
          simp only [append_toward .minimize hb, Mode.orient]
          cases b.population.append x (-fitness) with
          | none => rfl
          | some population => rfl

/-- No request turns a population around. -/
theorem mode_of_answer (h : b.answer r = some (reply, b')) :
    b'.population.mode = b.population.mode := by
  rcases answer_eq_some h with ⟨parents, children, batch, -, -, hbred, -⟩ |
    ⟨parents, children, e, -, -, hbred, -⟩ | ⟨batch, child, fitness, -, ⟨-, rfl⟩ | hrecord⟩
  · exact mode_of_offspringHere hbred
  · exact mode_of_offspringHere hbred
  · rfl
  · obtain ⟨xs, x, -, -, -, rfl⟩ := hrecord
    cases happend : b.population.append x fitness with
    | none => rfl
    | some population =>
        obtain ⟨-, rfl⟩ := append_eq_some happend
        rfl

theorem sight_toward (hb : b.population.mode = .maximize) (reply : Reply) :
    (b.toward .minimize).sight reply = (b.sight reply).opposite := by
  simp only [sight, Sight.opposite, toward, Population.toward, ranked, hb, Mode.orient, List.map_map]
  rfl

/-- Turned around and asked the opposite, a population shows the opposite time after time. -/
theorem sights_toward (hb : b.population.mode = .maximize) (requests : List Request) :
    (b.toward .minimize).sights requests =
      (b.sights (requests.map .opposite)).map .opposite := by
  induction requests generalizing b with
  | nil => rfl
  | cons r rest ih =>
      simp only [sights, List.map_cons, answer_toward hb]
      cases hanswer : b.answer r.opposite with
      | none => rfl
      | some answered =>
          obtain ⟨reply, b'⟩ := answered
          have hb' : b'.population.mode = .maximize := (mode_of_answer hanswer).trans hb
          exact congrArg₂ List.cons (sight_toward hb' reply) (ih hb')

/-! ## Comparing the children -/

/-- The population is one of a space, and the batches are its own. -/
def Serves (s : Space) (rate : Float) (mode : Mode) (b : Bench) : Prop :=
  ∃ pool, Life s rate mode b.population pool ∧ ∀ xs ∈ b.batches, xs ⊆ pool

variable {s : Space} {rate : Float} {mode : Mode}

theorem Serves.answer (hb : b.Serves s rate mode) (h : b.answer r = some (reply, b')) :
    b'.Serves s rate mode := by
  obtain ⟨pool, hlife, hbatches⟩ := hb
  rcases answer_eq_some h with ⟨parents, children, batch, -, -, hbred, heq⟩ |
    ⟨parents, children, e, -, -, hbred, heq⟩ | ⟨batch, child, fitness, -, ⟨-, rfl⟩ | hrecord⟩
  · refine ⟨batch ++ pool, hlife.breed hbred, fun xs hxs => ?_⟩
    rw [heq, List.mem_append, List.mem_singleton] at hxs
    rcases hxs with hxs | rfl
    · exact fun x hx => List.mem_append_right _ (hbatches xs hxs hx)
    · exact List.subset_append_left _ _
  · exact ⟨pool, hlife.refuse hbred, heq ▸ hbatches⟩
  · exact ⟨pool, hlife, hbatches⟩
  · obtain ⟨xs, x, hxs, hx, -, rfl⟩ := hrecord
    have hpool : x ∈ pool := hbatches xs (List.mem_of_getElem? hxs) (List.mem_of_getElem? hx)
    exact ⟨pool, hlife.append fitness hpool, hbatches⟩

/-- Where atoms are the same as themselves, so are the children of every batch. -/
theorem Serves.agrees (hs : ∀ q ∈ s.parameters, q.domain.Reflexive) (hb : b.Serves s rate mode)
    (h : b.answer r = some (reply, b')) : reply.Agrees reply := by
  obtain ⟨pool, hlife, hbatches⟩ := hb.answer h
  rcases answer_eq_some h with ⟨parents, children, batch, -, rfl, -, heq⟩ |
    ⟨parents, children, e, -, rfl, -⟩ | ⟨batch, child, fitness, -, ⟨rfl, -⟩ | hrecord⟩
  · have hbatch : batch ⊆ pool := hbatches batch (by simp [heq])
    refine List.forall₂_same.mpr fun x hx => ?_
    exact Individual.same_self_of_suits hs ((hlife.search.fitting s.law_suits).2 x (hbatch hx))
  · rfl
  · rfl
  · obtain ⟨xs, x, -, -, rfl, -⟩ := hrecord
    rfl

theorem Serves.sights_agree (hs : ∀ q ∈ s.parameters, q.domain.Reflexive)
    (hb : b.Serves s rate mode) (requests : List Request) :
    ∀ a ∈ b.sights requests, a.reply.Agrees a.reply := by
  induction requests generalizing b with
  | nil => exact fun a ha => nomatch ha
  | cons r rest ih =>
      simp only [sights]
      cases hanswer : b.answer r with
      | none => exact fun a ha => nomatch ha
      | some answered =>
          obtain ⟨reply, b'⟩ := answered
          exact List.forall_mem_cons.mpr ⟨hb.agrees hs hanswer, ih (hb.answer hanswer)⟩

end Bench

theorem trial_of_make {s : Space} {rate : Float} {mode : Mode} {src src' : Source}
    {made : Except PopulationError Population} (h : make s rate mode src = some (made, src'))
    (requests : List Request) :
    trial s rate mode src requests =
      some (made.map fun population => Bench.sights { population, source := src' } requests,
        src'.drawn) := by
  simp [trial, h]

theorem trial_toward (s : Space) (rate : Float) (src : Source) (requests : List Request) :
    trial s rate .minimize src requests =
      (trial s rate .maximize src (requests.map .opposite)).map
        (Prod.map (Except.map (List.map Sight.opposite)) id) := by
  have hlow : make s rate .minimize src =
      (make s rate .maximize src).map (Prod.map (Except.map (toward .minimize)) id) := by
    rw [make_toward .minimize, Draw.except_map_apply]
  cases hmake : make s rate .maximize src with
  | none => simp [trial, hlow, hmake]
  | some made =>
      obtain ⟨_ | p, source⟩ := made
      · simp [trial, hlow, hmake, Except.map]
      · rw [hmake] at hlow
        rw [trial_of_make hlow, trial_of_make hmake]
        have hmode : p.mode = .maximize := by
          rw [(make_eq_ok hmake).2.2.2.2]
        have hsights := Bench.sights_toward (b := { population := p, source }) hmode requests
        exact congrArg (fun low => some (Except.ok low, source.drawn)) hsights

/-- A population that looks for low fitness and one that looks for high fitness, made from the same
space, rate and source, asked the same and fed opposite fitness, show the same time after time: the
batches, the errors, the number of words drawn, the starting values still to be tried, what is recorded,
and the individuals of the ranking in order, whose fitness is opposite. If one cannot be made or does not
return, neither does the other. Where all atoms are the same as themselves, so are the children. -/
theorem minimize_mirrors_maximize (s : Space) (rate : Float) (src : Source)
    (requests : List Request) :
    trial s rate .minimize src requests =
        (trial s rate .maximize src (requests.map .opposite)).map
          (Prod.map (Except.map (List.map Sight.opposite)) id) ∧
      ((∀ q ∈ s.parameters, q.domain.Reflexive) →
        ∀ low high n, trial s rate .minimize src requests = some (.ok low, n) →
          trial s rate .maximize src (requests.map .opposite) = some (.ok high, n) →
          List.Forall₂ (fun a b => a.reply.Agrees b.reply) low high) := by
  refine ⟨trial_toward s rate src requests, fun hs low high n hlow hhigh => ?_⟩
  rw [trial_toward, hhigh] at hlow
  obtain rfl : high.map Sight.opposite = low := Except.ok.inj (Prod.mk.inj (Option.some.inj hlow)).1
  rw [List.forall₂_map_left_iff, List.forall₂_same]
  obtain ⟨⟨made, source⟩, hmake, htrial⟩ := Option.bind_eq_some_iff.mp hhigh
  obtain ⟨hsights, -⟩ := Prod.mk.inj (Option.some.inj htrial)
  obtain ⟨p, rfl, rfl⟩ := except_map_eq_ok.mp hsights
  exact Bench.Serves.sights_agree hs ⟨[], .start hmake, by simp⟩ _

/-- A side of the coin is bred and recorded, and then two more sides are asked for. -/
def throws : List Request :=
  [.breed 1 1, .record 0 0 2.0, .breed 1 2]

theorem minimize_mirrors_maximize_coin : ∃ low high n,
    trial coin 0.5 .minimize (.ofScript [0, 0, 0] 0) throws = some (.ok low, n) ∧
      trial coin 0.5 .maximize (.ofScript [0, 0, 0] 0) (throws.map .opposite) = some (.ok high, n) ∧
      low.length = 3 ∧ n = 2 ∧ low = high.map .opposite ∧
      List.Forall₂ (fun a b => a.reply.Agrees b.reply) low high := by
  obtain ⟨high, n, hhigh, hlength, hn⟩ : ∃ high n,
      trial coin 0.5 .maximize (.ofScript [0, 0, 0] 0) (throws.map .opposite) = some (.ok high, n) ∧
        high.length = 3 ∧ n = 2 := ⟨_, _, rfl, rfl, rfl⟩
  obtain ⟨hlow, hagrees⟩ := minimize_mirrors_maximize coin 0.5 (.ofScript [0, 0, 0] 0) throws
  rw [hhigh] at hlow
  have hcoin : ∀ q ∈ coin.parameters, q.domain.Reflexive := by
    simp [coin, Domain.Reflexive, Value.same, Value.numeric?]
  refine ⟨high.map .opposite, high, n, hlow, hhigh, ?_, hn, rfl, hagrees hcoin _ _ n hlow hhigh⟩
  rw [List.length_map, hlength]

/-- One atom, which is not a number. -/
def undefinedAtom : Space :=
  ⟨[{ name := "atom", domain := .choice [.float (0.0 / 0.0)] }]⟩

/-- The two populations breed the same child with an undefined number, which is not the same as
itself. -/
theorem not_children_same : ¬∀ (s : Space) (rate : Float) (src : Source) (requests : List Request)
    (low high : List Sight) (n : Nat), trial s rate .minimize src requests = some (.ok low, n) →
      trial s rate .maximize src (requests.map .opposite) = some (.ok high, n) →
      List.Forall₂ (fun a b => a.reply.Agrees b.reply) low high := by
  intro h
  obtain ⟨high, n, x, hhigh, hreply, hsame⟩ : ∃ high n x,
      trial undefinedAtom 0.5 .maximize (.ofScript [0, 0, 0, 0] 0) ([.breed 1 1].map .opposite) =
        some (.ok [high], n) ∧ high.reply = .bred [x] ∧ x.same x = false :=
    ⟨_, _, _, rfl, rfl, rfl⟩
  have hlow := trial_toward undefinedAtom 0.5 (.ofScript [0, 0, 0, 0] 0) [.breed 1 1]
  rw [hhigh] at hlow
  have hagrees : high.reply.Agrees high.reply :=
    (List.forall₂_cons.mp (h _ _ _ _ _ _ _ hlow hhigh)).1
  rw [hreply] at hagrees
  have hself : x.same x = true := (List.forall₂_cons.mp hagrees).1
  rw [hsame] at hself
  contradiction

end Population

end Tuning
