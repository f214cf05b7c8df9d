import Tuning.Proofs.Gene.Domain
import Tuning.Proofs.Random.Scripts

/-! # The values that a gene can take

A gene keeps its domain and its rate while its value moves. Drawn anew, it can take every element of
its domain; perturbed, it can stay as it is. -/

namespace Tuning

open Draw (Ensures)

namespace Value

/-- A value that is the same as another is the same as itself. -/
theorem same_self_of_same {a b : Value} (h : a.same b = true) : a.same a = true := by
  rw [same_iff] at h ⊢
  rcases h with ⟨x, y, hx, -, hxy⟩ | ⟨-, hplain⟩
  · refine .inl ⟨x, x, hx, hx, ?_⟩
    cases x with
    | whole n => exact beq_self_eq_true n
    | real x =>
        change (x == x) = true
        have hreal : (x == y.toFloat) = true := by cases y <;> exact hxy
        rw [float_beq_iff_place] at hreal ⊢
        exact ⟨hreal.1, hreal.1, rfl⟩
  · exact .inr ⟨rfl, hplain⟩

end Value

namespace Gene

/-- A gene with the domain and the rate of another, and a value of its own. -/
inductive Kin : Gene → Gene → Prop
  | choice (c : Choice) (value : Value) : Kin (.choice c) (.choice { c with value })
  | discrete (d : Discrete) (rank : Nat) : Kin (.discrete d) (.discrete { d with rank })
  | permutation (p : Permutation) (order : List Nat) :
      Kin (.permutation p) (.permutation { p with order })
  | factor (f : Factor) (parts : List Int64) : Kin (.factor f) (.factor { f with parts })

theorem Kin.refl (g : Gene) : g.Kin g := by
  cases g with
  | choice c => exact .choice c c.value
  | discrete d => exact .discrete d d.rank
  | permutation p => exact .permutation p p.order
  | factor f => exact .factor f f.parts

theorem Kin.trans {g h k : Gene} (hgh : g.Kin h) (hhk : h.Kin k) : g.Kin k := by
  cases hgh <;> cases hhk
  · exact .choice _ _
  · exact .discrete _ _
  · exact .permutation _ _
  · exact .factor _ _

theorem Kin.rate_eq {g h : Gene} (hgh : g.Kin h) : h.rate = g.rate := by
  cases hgh <;> rfl

theorem kin_select (g : Gene) (i : Int) : g.Kin (g.select i) := by
  cases g with
  | choice c => exact .choice c _
  | discrete d => exact .discrete d _
  | permutation p => exact .permutation p _
  | factor f => exact .factor f _

theorem kin_reset (g : Gene) : Ensures g.reset g.Kin := by
  cases g with
  | choice c =>
      exact .bind (P := fun d => Kin (.choice c) (.choice d))
        (.bind_any fun _ => .pure (.choice c _)) fun _ h => .pure h
  | discrete d =>
      exact .bind (P := fun e => Kin (.discrete d) (.discrete e))
        (.bind_any fun _ => .pure (.discrete d _)) fun _ h => .pure h
  | permutation p =>
      exact .bind (P := fun q => Kin (.permutation p) (.permutation q))
        (.bind_any fun _ => .pure (.permutation p _)) fun _ h => .pure h
  | factor f =>
      exact .bind (P := fun e => Kin (.factor f) (.factor e))
        (.bind_any fun _ => .pure (.factor f _)) fun _ h => .pure h

theorem kin_step_choice {c : Choice} {next : Draw Choice} (h : c.step = some next) :
    Ensures next fun d => Kin (.choice c) (.choice d) := by
  unfold Choice.step at h
  split at h
  · cases h
  · obtain rfl := Option.some.inj h
    exact .bind_any fun _ => .pure (.choice c _)

theorem kin_step_discrete {d : Discrete} {next : Draw Discrete} (h : d.step = some next) :
    Ensures next fun e => Kin (.discrete d) (.discrete e) := by
  unfold Discrete.step at h
  split at h
  · cases h
  · split at h
    · obtain rfl := Option.some.inj h
      exact .pure (.discrete d _)
    · split at h
      · obtain rfl := Option.some.inj h
        exact .pure (.discrete d _)
      · obtain rfl := Option.some.inj h
        refine .bind_any fun _ => ?_
        split
        · exact .pure (.discrete d _)
        · exact .pure (.discrete d _)

theorem kin_step_permutation {p : Permutation} {next : Draw Permutation} (h : p.step = some next) :
    Ensures next fun q => Kin (.permutation p) (.permutation q) := by
  obtain rfl := Option.some.inj h
  exact .bind_any fun _ => .bind_any fun _ => .pure (.permutation p _)

theorem kin_step_factor {f : Factor} {next : Draw Factor} (h : f.step = some next) :
    Ensures next fun e => Kin (.factor f) (.factor e) := by
  unfold Factor.step at h
  dsimp only at h
  split at h
  · obtain rfl := Option.some.inj h
    exact .pure (.refl _)
  · obtain rfl := Option.some.inj h
    refine .bind_any fun _ => ?_
    split
    · exact .pure (.factor f _)
    · exact .pure (.refl _)

theorem kin_mutate (g : Gene) : Ensures g.mutate g.Kin := by
  cases g with
  | choice c =>
      refine .bind (P := fun d => Kin (.choice c) (.choice d)) ?_ fun _ h => .pure h
      exact Draw.walk_ensures (fun _ _ hd h => (kin_step_choice h).mono fun _ => hd.trans) c (.refl _)
  | discrete d =>
      refine .bind (P := fun e => Kin (.discrete d) (.discrete e)) ?_ fun _ h => .pure h
      exact Draw.walk_ensures (fun _ _ hd h => (kin_step_discrete h).mono fun _ => hd.trans) d (.refl _)
  | permutation p =>
      refine .bind (P := fun q => Kin (.permutation p) (.permutation q)) ?_ fun _ h => .pure h
      unfold Permutation.mutate
      split
      · exact .pure (.refl _)
      · exact Draw.walk_ensures (fun _ _ hd h => (kin_step_permutation h).mono fun _ => hd.trans) p
          (.refl _)
  | factor f =>
      refine .bind (P := fun e => Kin (.factor f) (.factor e)) ?_ fun _ h => .pure h
      exact Draw.walk_ensures (fun _ _ hd h => (kin_step_factor h).mono fun _ => hd.trans) f (.refl _)

theorem kin_assign {g h : Gene} {v : Value} (hgh : g.assign v = .ok h) : g.Kin h := by
  cases g with
  | choice c =>
      obtain ⟨d, hd, hh⟩ := except_bind_eq_ok.mp hgh
      obtain rfl := Except.ok.inj hh
      unfold Choice.assign at hd
      split at hd
      · obtain rfl := Except.ok.inj hd
        exact .choice c _
      · cases hd
  | discrete d =>
      obtain ⟨e, he, hh⟩ := except_bind_eq_ok.mp hgh
      obtain rfl := Except.ok.inj hh
      unfold Discrete.assign at he
      split at he
      · dsimp only at he
        split at he
        · obtain rfl := Except.ok.inj he
          exact .discrete d _
        · cases he
      · cases he
  | permutation p =>
      obtain ⟨q, hq, hh⟩ := except_bind_eq_ok.mp hgh
      obtain rfl := Except.ok.inj hh
      unfold Permutation.assign at hq
      split at hq
      · split at hq
        · obtain rfl := Except.ok.inj hq
          exact .permutation p _
        · cases hq
      · cases hq
  | factor f =>
      obtain ⟨e, he, hh⟩ := except_bind_eq_ok.mp hgh
      obtain rfl := Except.ok.inj hh
      unfold Factor.assign at he
      split at he
      · split at he
        · cases he
        · split at he
          · cases he
          · split at he
            · cases he
            · obtain rfl := Except.ok.inj he
              exact .factor f _
      · cases he

/-- A gene that is the same as another is the same as itself. -/
theorem same_self_of_same {g h : Gene} (hgh : g.same h = true) : g.same g = true := by
  cases g with
  | choice c =>
      cases h with
      | choice d => exact Value.same_self_of_same hgh
      | _ => cases hgh
  | discrete d => exact beq_self_eq_true d.value
  | permutation p => exact beq_self_eq_true p.order
  | factor f => exact beq_self_eq_true f.parts

end Gene

/-! ## Genes of a domain -/

namespace Domain

/-- The genes of a domain at a rate below one. Their values are elements of the domain, but for the
factors of a starting value, which multiply to the product in 64-bit arithmetic only. -/
structure Spans (d : Domain) (g : Gene) : Prop where
  suits : d.Suits g
  start : ∃ start : Gene, d.Holds start ∧ ¬ 1.0 ≤ start.rate ∧ start.Kin g

variable {d : Domain} {g h : Gene}

theorem Spans.rate (hg : d.Spans g) : ¬ 1.0 ≤ g.rate := by
  obtain ⟨start, -, hrate, hkin⟩ := hg.start
  rwa [hkin.rate_eq]

/-- What a gene picks from its domain is an element of it. -/
theorem Spans.holds_select (hg : d.Spans g) (i : Int) : d.Holds (g.select i) := by
  obtain ⟨start, hstart, -, hkin⟩ := hg.start
  cases hg.suits with
  | choice hc => exact .choice (hc.select i)
  | permutation hp => exact .permutation (hp.select i)
  | discrete =>
      cases hkin with
      | discrete d rank => exact (closed_holds _).select (.discrete d) i hstart
  | factor =>
      cases hkin with
      | factor f parts => exact (closed_holds _).select (.factor f) i hstart

theorem closed_spans (d : Domain) : Gene.Closed d.Spans where
  mutate g hg src h src' hh := by
    obtain ⟨start, hstart, hrate, hkin⟩ := hg.start
    exact ⟨(closed_suits d).mutate g hg.suits _ _ _ hh, start, hstart, hrate,
      hkin.trans (g.kin_mutate _ _ _ hh)⟩
  reset g hg src h src' hh := by
    obtain ⟨start, hstart, hrate, hkin⟩ := hg.start
    exact ⟨(closed_suits d).reset g hg.suits _ _ _ hh, start, hstart, hrate,
      hkin.trans (g.kin_reset _ _ _ hh)⟩
  select g i hg := by
    obtain ⟨start, hstart, hrate, hkin⟩ := hg.start
    exact ⟨(closed_suits d).select g i hg.suits, start, hstart, hrate, hkin.trans (g.kin_select i)⟩

theorem Spans.card_select (hg : d.Spans g) (i : Int) : (g.select i).card = g.card := by
  cases hg.suits with
  | choice _ => rfl
  | discrete => rfl
  | factor => rfl
  | permutation hp => exact congrArg Indexed.size (hp.domain_eq (hp.select i))

theorem Spans.card_eq (hg : d.Spans g) (hh : d.Spans h) : g.card = h.card := by
  rw [← hg.card_select 0, ← hh.card_select 0]
  exact (hg.holds_select 0).card_eq (hh.holds_select 0)

theorem Spans.card_pos (hg : d.Spans g) : 0 < g.card := by
  obtain ⟨i, hi, -⟩ := (hg.holds_select 0).exists_select
  rw [hg.card_select] at hi
  omega

/-- Two elements of a domain that are the same as a third value are the same. -/
theorem Holds.same_of_same {k : Gene} (hg : d.Holds g) (hh : d.Holds h) (hk : d.Suits k)
    (hgk : g.same k = true) (hhk : h.same k = true) : g.same h = true := by
  cases hg with
  | choice hg =>
      cases hh with
      | choice hh =>
          cases hk with
          | choice hk =>
              change Value.same _ _ = true
              rw [hh.value_eq hk hhk]
              exact hgk
  | discrete _ =>
      cases hh with
      | discrete _ =>
          cases hk with
          | discrete => exact beq_iff_eq.mpr ((beq_iff_eq.mp hgk).trans (beq_iff_eq.mp hhk).symm)
  | permutation _ =>
      cases hh with
      | permutation _ =>
          cases hk with
          | permutation _ => exact beq_iff_eq.mpr ((beq_iff_eq.mp hgk).trans (beq_iff_eq.mp hhk).symm)
  | factor _ =>
      cases hh with
      | factor _ =>
          cases hk with
          | factor => exact beq_iff_eq.mpr ((beq_iff_eq.mp hgk).trans (beq_iff_eq.mp hhk).symm)

/-- At most one element of a domain is the same as a value. -/
theorem Spans.select_inj {k : Gene} (hg : d.Spans g) (hk : d.Suits k) {i j : Nat} (hi : i < g.card)
    (hj : j < g.card) (hik : (g.select i).same k = true) (hjk : (g.select j).same k = true) :
    i = j := by
  have hsame := (hg.holds_select i).same_of_same (hg.holds_select j) hk hik hjk
  have hholds := hg.holds_select 0
  cases hg.suits with
  | choice hc => exact hc.eq_of_select_same hc hi hj hsame
  | permutation hp => exact (hp.select_same hp hi hj).mp hsame
  | discrete => cases hholds with | discrete h => exact (h.select_same h hi hj).mp hsame
  | factor => cases hholds with | factor h => exact (h.select_same h hi hj).mp hsame

/-- Drawn anew, a gene can take every element of its domain. -/
theorem Spans.reaches_select (hg : d.Spans g) {i : Nat} (hi : i < g.card) (hcard : g.card < 2 ^ 63) :
    g.reset.Reaches (g.select i) := by
  have hbelow := Draw.reaches_below hi hcard
  have hmin : min (i : Int).toNat (g.card - 1) = i := by omega
  cases g with
  | choice c => exact (hbelow.give fun k : Nat => c.select k).give Gene.choice
  | discrete d =>
      rw [Gene.select, Discrete.select_eq hi]
      exact (hbelow.give fun rank => { d with rank }).give Gene.discrete
  | permutation p =>
      have hselect : p.select i = { p with order := p.domain.get i } :=
        congrArg (fun k => Permutation.mk (p.domain.get k) _) hmin
      rw [Gene.select, hselect]
      exact (hbelow.give fun k => { p with order := p.domain.get k }).give Gene.permutation
  | factor f =>
      have hselect : f.select i = { f with parts := f.domain.get i } :=
        congrArg (fun k => Factor.mk _ _ _ (f.domain.get k) _) hmin
      rw [Gene.select, hselect]
      exact (hbelow.give fun k => { f with parts := f.domain.get k }).give Gene.factor

/-- Perturbed, a gene can stay as it is. -/
theorem Spans.reaches_self (hg : d.Spans g) : g.mutate.Reaches g := by
  have hrate := hg.rate
  cases g with
  | choice c => exact (Draw.reaches_walk hrate _ _).bind (.pure _)
  | discrete d => exact (Draw.reaches_walk hrate _ _).bind (.pure _)
  | permutation p =>
      refine Draw.Reaches.bind ?_ (.pure _)
      unfold Permutation.mutate
      split
      · exact .pure p
      · exact Draw.reaches_walk hrate _ _
  | factor f => exact (Draw.reaches_walk hrate _ _).bind (.pure _)

end Domain

/-! ## Genes of a space -/

theorem checkRate_eq_ok {rate : Float} (h : checkRate rate = .ok ()) : ¬ 1.0 ≤ rate := by
  unfold checkRate at h
  split at h
  · cases h
  · next hrate => simpa using (not_or.mp (by simpa using hrate)).2

/-- The rate of a gene that was made is below one. -/
theorem Domain.rate_of_gene? {d : Domain} {rate : Float} {g : Gene}
    (h : d.gene? rate = some (.ok g)) : ¬ 1.0 ≤ g.rate := by
  cases d with
  | choice choices =>
      obtain ⟨c, hc, rfl⟩ := except_map_eq_ok.mp (Option.some.inj h)
      obtain ⟨first, rest, -, hrate, -, rfl⟩ := Choice.make_eq_ok hc
      exact checkRate_eq_ok hrate
  | discrete numbers =>
      obtain ⟨e, he, rfl⟩ := except_map_eq_ok.mp (Option.some.inj h)
      obtain ⟨-, hrate, rfl⟩ := Discrete.make_eq_ok he
      exact checkRate_eq_ok hrate
  | permutation size =>
      obtain ⟨p, hp, rfl⟩ := except_map_eq_ok.mp (Option.some.inj h)
      obtain ⟨-, -, hrate, rfl⟩ := Permutation.make_eq_ok hp
      exact checkRate_eq_ok hrate
  | factor product slots =>
      obtain ⟨f, hf, rfl⟩ := except_map_eq_ok.mp (Option.some.inj h)
      obtain ⟨-, -, -, hrate, rfl⟩ := Factor.make_eq_ok hf
      exact checkRate_eq_ok hrate
  | unknown kind => cases h

theorem Parameter.spans_of_gene {p : Parameter} {rate : Float} {g : Gene}
    (h : p.gene rate = .ok g) : p.domain.Spans g := by
  have hholds := holds_of_gene h
  refine ⟨hholds.suits, g, hholds, ?_, .refl g⟩
  unfold gene at h
  split at h
  · cases h
  · next result hresult =>
      cases result with
      | error fault => cases h
      | ok g' =>
          obtain rfl := Except.ok.inj h
          exact Domain.rate_of_gene? hresult

/-- With or without starting values, genes are of their domains. -/
theorem Space.law_spans (s : Space) : s.Law fun p g => p.domain.Spans g where
  made p _ b hb rate src g src' hg := by
    rw [← hb.domain_eq]
    obtain ⟨start, hstart, ⟨-, hreset⟩ | ⟨seed, rest, -, hassign, -⟩⟩ := Individual.geneOf_eq_ok hg
    · exact (b.domain.closed_spans).reset start (Parameter.spans_of_gene hstart) _ _ _ hreset
    · have hspans := Parameter.spans_of_gene hstart
      obtain ⟨first, hfirst, hrate, hkin⟩ := hspans.start
      exact ⟨hspans.suits.assign hassign, first, hfirst, hrate, hkin.trans (Gene.kin_assign hassign)⟩
  closed p _ := p.domain.closed_spans

end Tuning
