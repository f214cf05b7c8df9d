import Tuning.Individual
import Tuning.Proofs.Random.Draws

/-! # Individuals of a space

An individual is made from a space and moved: perturbed, drawn anew, or picked by indices. A property
of genes that new genes have and moves keep holds, parameter by parameter, of every such individual. -/

namespace Tuning

open Draw (Ensures)

/-- What a search does to an individual at hand. Individuals are values, so a copy is the individual
itself. -/
inductive Individual.Move : Individual → Individual → Prop
  | mutate {x y : Individual} {src src' : Source} (h : x.mutate src = some (y, src')) : Move x y
  | reset {x y : Individual} {src src' : Source} (h : x.reset src = some (y, src')) : Move x y
  | select (x : Individual) (indices : List Int) : Move x (x.select indices)

/-- The individuals that are made from a space, at any rate and from any source, and then moved. -/
inductive Individual.Built (s : Space) : Individual → Prop
  | made {rate : Float} {x : Individual} {src src' : Source}
      (h : Individual.make s rate src = some (.ok x, src')) : Built s x
  | moved {x y : Individual} (hx : Built s x) (h : x.Move y) : Built s y

/-- A property of genes that no move breaks. -/
structure Gene.Closed (S : Gene → Prop) : Prop where
  mutate : ∀ g, S g → Ensures g.mutate S
  reset : ∀ g, S g → Ensures g.reset S
  select : ∀ g i, S g → S (g.select i)

/-- A parameter stands for itself and for its copies with one starting value each. -/
def Parameter.Covers (p b : Parameter) : Prop :=
  b = p ∨ b ∈ p.bindings

/-- A property of the genes of each parameter that new genes have and no move breaks. -/
structure Space.Law (s : Space) (S : Parameter → Gene → Prop) : Prop where
  made : ∀ p ∈ s.parameters, ∀ b, p.Covers b → ∀ (rate : Float) (src : Source) (g : Gene)
    (src' : Source), Individual.geneOf b rate src = some (.ok g, src') → S p g
  closed : ∀ p ∈ s.parameters, Gene.Closed (S p)

/-- The genes are those of the parameters of a space, in order, with a property each. -/
def Individual.Matches (S : Parameter → Gene → Prop) (s : Space) (x : Individual) : Prop :=
  List.Forall₂ (fun p named => named.1 = p.name ∧ S p named.2) s.parameters x.genes

namespace Parameter

/-- A parameter is covered by one that differs from it in having fewer starting values. -/
theorem Covers.exists_seeds {p b : Parameter} (h : p.Covers b) :
    ∃ seeds, seeds ⊆ p.seeds ∧ b = { p with seeds } := by
  rcases h with rfl | h
  · exact ⟨b.seeds, List.Subset.refl _, rfl⟩
  · unfold bindings at h
    split at h
    · exact ⟨p.seeds, List.Subset.refl _, List.mem_singleton.mp h⟩
    · obtain ⟨seed, hseed, rfl⟩ := List.mem_map.mp h
      exact ⟨[seed], by simpa using hseed, rfl⟩

theorem Covers.name_eq {p b : Parameter} (h : p.Covers b) : b.name = p.name := by
  obtain ⟨seeds, -, rfl⟩ := h.exists_seeds
  rfl

theorem Covers.domain_eq {p b : Parameter} (h : p.Covers b) : b.domain = p.domain := by
  obtain ⟨seeds, -, rfl⟩ := h.exists_seeds
  rfl

theorem Covers.seeds_subset {p b : Parameter} (h : p.Covers b) : b.seeds ⊆ p.seeds := by
  obtain ⟨seeds, hseeds, rfl⟩ := h.exists_seeds
  exact hseeds

end Parameter

namespace Space

theorem mem_expandParameters {ps bs : List Parameter} (h : bs ∈ expandParameters ps) :
    List.Forall₂ Parameter.Covers ps bs := by
  induction ps generalizing bs with
  | nil =>
      rw [List.mem_singleton.mp h]
      exact .nil
  | cons p ps ih =>
      obtain ⟨b, hb, h⟩ := List.mem_flatMap.mp h
      obtain ⟨rest, hrest, rfl⟩ := List.mem_map.mp h
      exact .cons (.inr hb) (ih hrest)

/-- A space with one starting value each has the parameters of the space, in order. -/
theorem covers_of_mem_expand {s bound : Space} (h : bound ∈ s.expand) :
    List.Forall₂ Parameter.Covers s.parameters bound.parameters := by
  obtain ⟨bs, hbs, rfl⟩ := List.mem_map.mp h
  exact mem_expandParameters hbs

theorem covers_self (s : Space) : List.Forall₂ Parameter.Covers s.parameters s.parameters :=
  List.forall₂_same.mpr fun _ _ => .inl rfl

/-- Nothing at all is a law. -/
theorem law_true (s : Space) : s.Law fun _ _ => True where
  made := fun _ _ _ _ _ _ _ _ _ => trivial
  closed := fun _ _ =>
    { mutate := fun g _ => .trivial g.mutate
      reset := fun g _ => .trivial g.reset
      select := fun _ _ _ => trivial }

end Space

namespace Individual

variable {S : Parameter → Gene → Prop} {s : Space}

theorem Matches.names_eq {x : Individual} (h : x.Matches S s) : x.names = s.names := by
  have hnames : List.Forall₂ (fun p named => named.1 = p.name) s.parameters x.genes :=
    h.imp fun _ _ h => h.1
  have hmap : List.Forall₂ (· = ·) (x.genes.map (·.1)) (s.parameters.map (·.name)) := by
    rw [List.forall₂_map_left_iff, List.forall₂_map_right_iff]
    exact hnames.flip
  rwa [List.forall₂_eq_eq_eq] at hmap

theorem forall₂_chain {α β γ : Type} {Q : α → β → Prop} {R : β → γ → Prop} {T : α → γ → Prop}
    {xs : List α} {ys : List β} {zs : List γ} (hxy : List.Forall₂ Q xs ys)
    (hyz : List.Forall₂ R ys zs) (h : ∀ x ∈ xs, ∀ y z, Q x y → R y z → T x z) :
    List.Forall₂ T xs zs := by
  induction hxy generalizing zs with
  | nil =>
      cases hyz
      exact .nil
  | @cons x y xs ys hxy _ ih =>
      cases hyz with
      | cons hyz hyzs =>
          exact .cons (h x (by simp) y _ hxy hyz) (ih hyzs fun x' hx' => h x' (by simp [hx']))

/-- A new gene starts its domain and is drawn anew, or takes the first starting value. -/
theorem geneOf_eq_ok {p : Parameter} {rate : Float} {g : Gene} {src src' : Source}
    (h : geneOf p rate src = some (.ok g, src')) :
    ∃ start, p.gene rate = .ok start ∧
      ((p.seeds = [] ∧ start.reset src = some (g, src')) ∨
        ∃ seed rest, p.seeds = seed :: rest ∧ start.assign seed = .ok g ∧ src = src') := by
  obtain ⟨start, t, hstart, h⟩ := Draw.ok_bind_eq_some.mp h
  cases hgene : p.gene rate with
  | error e =>
      rw [hgene] at hstart
      cases hstart
  | ok start' =>
      rw [hgene] at hstart
      obtain ⟨rfl, rfl⟩ := Draw.ok_pure_eq_some.mp hstart
      refine ⟨start', rfl, ?_⟩
      cases hseeds : p.seeds with
      | nil =>
          simp only [hseeds] at h
          exact .inl ⟨rfl, Draw.ok_lift_eq_some.mp h⟩
      | cons seed rest =>
          simp only [hseeds] at h
          cases hassign : start'.assign seed with
          | error fault =>
              simp only [hassign] at h
              cases h
          | ok g' =>
              simp only [hassign] at h
              obtain ⟨rfl, rfl⟩ := Draw.ok_pure_eq_some.mp h
              exact .inr ⟨seed, rest, rfl, hassign, rfl⟩

/-- Whether a gene can be made does not depend on the source. -/
theorem geneOf_ne_error {p : Parameter} {rate : Float} {g : Gene} {t t' : Source}
    (h : geneOf p rate t = some (.ok g, t')) (src : Source) (e : ParameterError) (src' : Source) :
    geneOf p rate src ≠ some (.error e, src') := by
  obtain ⟨start, hstart, hg⟩ := geneOf_eq_ok h
  intro herror
  unfold geneOf at herror
  rw [hstart] at herror
  rcases Draw.error_bind_eq_some.mp herror with herror | ⟨start', t, hpure, herror⟩
  · cases herror
  obtain ⟨rfl, rfl⟩ := Draw.ok_pure_eq_some.mp hpure
  rcases hg with ⟨hseeds, -⟩ | ⟨seed, rest, hseeds, hassign, -⟩
  · simp only [hseeds] at herror
    exact Draw.error_lift_ne_some herror
  · simp only [hseeds, hassign] at herror
    cases herror

/-- Whether an individual can be made does not depend on the source. -/
theorem make_ne_error {rate : Float} {x : Individual} {t t' : Source}
    (h : make s rate t = some (.ok x, t')) (src : Source) (e : ParameterError) (src' : Source) :
    make s rate src ≠ some (.error e, src') := by
  obtain ⟨genes, u, hgenes, -⟩ := Draw.ok_bind_eq_some.mp h
  have hmade : List.Forall₂ (fun p _ => ∀ src e src', geneOf p rate src ≠ some (.error e, src'))
      s.parameters genes := by
    refine Draw.mapM_ok hgenes fun p _ t named t' hnamed => ?_
    obtain ⟨g, u, hg, -⟩ := Draw.ok_bind_eq_some.mp hnamed
    exact geneOf_ne_error hg
  intro herror
  rcases Draw.error_bind_eq_some.mp herror with herror | ⟨genes, t, -, herror⟩
  · refine Draw.mapM_ne_error (fun p hp src e src' => ?_) src e src' herror
    obtain ⟨i, rfl⟩ := List.mem_iff_get.mp hp
    have hgene := hmade.get i.isLt (hmade.length_eq ▸ i.isLt)
    intro herror
    rcases Draw.error_bind_eq_some.mp herror with herror | ⟨g, t, -, herror⟩
    · exact hgene src e src' herror
    · cases herror
  · cases herror

/-- What the law says of new genes holds of a new individual, also when it is made from a space with
one starting value each. -/
theorem make_matches (law : s.Law S) {bound : Space}
    (hbound : List.Forall₂ Parameter.Covers s.parameters bound.parameters) {rate : Float}
    {x : Individual} {src src' : Source} (h : make bound rate src = some (.ok x, src')) :
    x.Matches S s := by
  obtain ⟨genes, t, hgenes, hx⟩ := Draw.ok_bind_eq_some.mp h
  obtain ⟨rfl, -⟩ := Draw.ok_pure_eq_some.mp hx
  have hmade : List.Forall₂
      (fun (b : Parameter) named => named.1 = b.name ∧
        ∃ t t', geneOf b rate t = some (.ok named.2, t')) bound.parameters genes := by
    refine Draw.mapM_ok hgenes ?_
    intro b _ t named t' hnamed
    obtain ⟨g, u, hg, hnamed⟩ := Draw.ok_bind_eq_some.mp hnamed
    obtain ⟨rfl, -⟩ := Draw.ok_pure_eq_some.mp hnamed
    exact ⟨rfl, t, u, hg⟩
  refine forall₂_chain hbound hmade ?_
  rintro p hp b named hpb ⟨hname, u, u', hgene⟩
  exact ⟨hname.trans hpb.name_eq, law.made p hp b hpb rate u named.2 u' hgene⟩

/-- Genes that are drawn one by one from matching genes match. -/
theorem mapM_matches {x : Individual} (hx : x.Matches S s) {f : Gene → Draw Gene}
    (hf : ∀ p ∈ s.parameters, ∀ g, S p g → Ensures (f g) (S p)) :
    Ensures (x.genes.mapM fun (name, gene) => do return (name, ← f gene))
      fun genes => Matches S s ⟨genes⟩ := by
  unfold Matches at hx ⊢
  generalize x.genes = genes at hx
  generalize s.parameters = ps at hx hf
  induction hx with
  | nil =>
      rw [List.mapM_nil]
      exact .pure .nil
  | @cons p named ps genes h _ ih =>
      rw [List.mapM_cons]
      refine .bind (P := fun new => new.1 = p.name ∧ S p new.2) ?_ fun new hnew => ?_
      · exact .bind (hf p (by simp) named.2 h.2) fun g hg => .pure ⟨h.1, hg⟩
      · refine .bind (ih fun q hq => hf q (by simp [hq])) fun rest hrest => .pure ?_
        exact .cons hnew hrest

theorem selectGenes_matches (ps : List Parameter) (hclosed : ∀ p ∈ ps, Gene.Closed (S p))
    {genes : List (String × Gene)} (indices : List Int)
    (h : List.Forall₂ (fun p named => named.1 = p.name ∧ S p named.2) ps genes) :
    List.Forall₂ (fun p named => named.1 = p.name ∧ S p named.2) ps
      (selectGenes genes indices) := by
  induction h generalizing indices with
  | nil => exact .nil
  | @cons p named ps genes h hs ih =>
      cases indices with
      | nil => exact .cons h hs
      | cons i indices =>
          refine .cons ⟨h.1, (hclosed p (by simp)).select named.2 i h.2⟩ ?_
          exact ih (fun q hq => hclosed q (by simp [hq])) indices

/-- A move keeps what the law says. -/
theorem Move.matches (law : s.Law S) {x y : Individual} (h : x.Move y) (hx : x.Matches S s) :
    y.Matches S s := by
  cases h with
  | mutate h =>
      obtain ⟨genes, t, hgenes, hy⟩ := Draw.bind_eq_some.mp h
      obtain ⟨rfl, -⟩ := Draw.pure_eq_some.mp hy
      exact mapM_matches hx (fun p hp => (law.closed p hp).mutate) _ _ _ hgenes
  | reset h =>
      obtain ⟨genes, t, hgenes, hy⟩ := Draw.bind_eq_some.mp h
      obtain ⟨rfl, -⟩ := Draw.pure_eq_some.mp hy
      exact mapM_matches hx (fun p hp => (law.closed p hp).reset) _ _ _ hgenes
  | select indices => exact selectGenes_matches s.parameters law.closed indices hx

/-- Whatever is built from a space matches its laws. -/
theorem Built.matches (law : s.Law S) {x : Individual} (h : Built s x) : x.Matches S s := by
  induction h with
  | made h => exact make_matches law s.covers_self h
  | moved _ h ih => exact h.matches law ih

end Individual

end Tuning
