import Tuning.Proofs.Finite.Bisection
import Tuning.Proofs.Finite.Listing
import Tuning.Proofs.Gene.Memory
import Tuning.Proofs.Gene.Reach
import Tuning.Proofs.Individual.Key

/-! # The values that a gene accepts

A value is accepted if it names an element of the domain, and the gene then holds the first element that
it names. Factors are an exception: they are multiplied in 64-bit arithmetic, so a product that wraps
around to the wanted one is accepted too. -/

namespace Tuning

/-- What is done to a gene at hand. -/
inductive Gene.Move : Gene → Gene → Prop
  | mutate {g h : Gene} {src src' : Source} (e : g.mutate src = some (h, src')) : Move g h
  | reset {g h : Gene} {src src' : Source} (e : g.reset src = some (h, src')) : Move g h
  | select (g : Gene) (i : Int) : Move g (g.select i)
  | assign {g h : Gene} {v : Value} (e : g.assign v = .ok h) : Move g h

/-- The genes that are made for a domain at a rate and then moved. -/
inductive Domain.Grows (d : Domain) (rate : Float) : Gene → Prop
  | made {g : Gene} (e : d.gene? rate = some (.ok g)) : Grows d rate g
  | moved {g h : Gene} (hg : Grows d rate g) (hm : g.Move h) : Grows d rate h

/-- A value names what a gene holds: it is the same atom, or else the value itself. -/
def Gene.Names (g : Gene) (v : Value) : Prop :=
  match g with
  | choice c => c.value.same v = true
  | _ => v = g.value

/-- The value is a list of positive factors, one for each slot, with another product than the wanted
one, which wraps around to the wanted one in 64-bit arithmetic. -/
def Domain.WrapsTo : Domain → Value → Prop
  | .factor product slots, .ints xs =>
    (xs.length : Int) = slots.toInt ∧ (∀ x ∈ xs, 1 ≤ x) ∧
      (xs.map Int64.toInt).prod ≠ product.toInt ∧
      (xs.map Int64.toInt).prod ≡ product.toInt [ZMOD 2 ^ 64]
  | _, _ => False

/-- The gene holds the first element of its domain that a value names. -/
def Gene.HoldsFirst (g : Gene) (v : Value) (h : Gene) : Prop :=
  ∃ i < g.card, (g.select i).Names v ∧ (∀ k < i, ¬ (g.select k).Names v) ∧ h = g.select i

/-! ## Genes keep their domains -/

theorem Gene.Move.kin {g h : Gene} (hm : g.Move h) : g.Kin h := by
  cases hm with
  | mutate e => exact g.kin_mutate _ _ _ e
  | reset e => exact g.kin_reset _ _ _ e
  | select i => exact g.kin_select i
  | assign e => exact Gene.kin_assign e

namespace Domain

variable {d : Domain} {rate : Float} {g : Gene}

theorem Grows.suits (hg : d.Grows rate g) : d.Suits g := by
  induction hg with
  | made e => exact (holds_of_gene? e).suits
  | moved _ hm ih =>
      cases hm with
      | mutate e => exact d.closed_suits.mutate _ ih _ _ _ e
      | reset e => exact d.closed_suits.reset _ ih _ _ _ e
      | select i => exact d.closed_suits.select _ i ih
      | assign e => exact ih.assign e

/-- A gene differs from the one that was made in its value alone. -/
theorem Grows.exists_made (hg : d.Grows rate g) :
    ∃ start, d.gene? rate = some (.ok start) ∧ start.Kin g := by
  induction hg with
  | made e => exact ⟨_, e, .refl _⟩
  | moved _ hm ih =>
      obtain ⟨start, hstart, hkin⟩ := ih
      exact ⟨start, hstart, hkin.trans hm.kin⟩

end Domain

/-! ## Atoms -/

namespace Choice

theorem assign_eq_ok_iff {c e : Choice} {v : Value} :
    c.assign v = .ok e ↔ ∃ i < c.card, (c.select i).value.same v = true ∧
      (∀ k < i, ¬ (c.select k).value.same v = true) ∧ e = c.select i := by
  unfold assign
  constructor
  · intro h
    split at h
    · next atom hatom =>
        obtain ⟨hsame, i, hi, rfl, hfirst⟩ := List.find?_eq_some_iff_getElem.mp hatom
        obtain rfl := Except.ok.inj h
        refine ⟨i, hi, by rwa [value_select hi], fun k hk => ?_, (select_eq hi).symm⟩
        rw [value_select (hk.trans hi)]
        simpa using hfirst k hk
    · cases h
  · rintro ⟨i, hi, hsame, hfirst, rfl⟩
    have hfind : c.atoms.find? (·.same v) = some c.atoms[i] := by
      refine List.find?_eq_some_iff_getElem.mpr ⟨by rwa [value_select hi] at hsame, i, hi, rfl, ?_⟩
      intro k hk
      have hk' := hfirst k hk
      rw [value_select (hk.trans hi)] at hk'
      simpa using hk'
    rw [hfind, select_eq hi]

end Choice

/-! ## Integers in order -/

namespace Discrete

theorem firstIndex_getElem {numbers : List Int64} (h : numbers.Pairwise (· < ·)) {i : Nat}
    (hi : i < numbers.length) : Finite.firstIndex (numbers[i] ≤ ·) numbers = i := by
  have hmono : numbers.Pairwise fun a b =>
      decide (numbers[i] ≤ a) = true → decide (numbers[i] ≤ b) = true :=
    h.imp fun hlt hle => decide_eq_true (Int64.le_trans (of_decide_eq_true hle) (Int64.le_of_lt hlt))
  rw [Finite.firstIndex_eq_findIdx hmono]
  refine (List.findIdx_eq hi).mpr ⟨decide_eq_true (Int64.le_refl _), fun k hk => decide_eq_false ?_⟩
  exact Int64.not_le.mpr (List.pairwise_iff_getElem.mp h k i _ hi hk)

/-- Halving finds an integer where looking from the front finds it. -/
theorem assign_int {d : Discrete} (hd : d.numbers.Pairwise (· < ·)) (n : Int64) :
    d.assign (.int n) = match d.numbers.findIdx? (· == n) with
      | some rank => .ok { d with rank }
      | none => .error (.unknownNumber n d.numbers) := by
  unfold assign
  dsimp only
  cases hfound : d.numbers.findIdx? (· == n) with
  | some i =>
      obtain ⟨hi, hn, -⟩ := List.findIdx?_eq_some_iff_getElem.mp hfound
      obtain rfl := beq_iff_eq.mp hn
      rw [firstIndex_getElem hd hi, if_pos (List.getElem?_eq_getElem hi)]
  | none =>
      refine if_neg fun hmem => ?_
      have hne := List.findIdx?_eq_none_iff.mp hfound n (List.mem_of_getElem? hmem)
      simp at hne

theorem assign_eq_ok_iff {d e : Discrete} (hd : d.numbers.Pairwise (· < ·)) {v : Value} :
    d.assign v = .ok e ↔ ∃ i < d.card, v = .int (d.select i).value ∧
      (∀ k < i, ¬ v = .int (d.select k).value) ∧ e = d.select i := by
  constructor
  · intro h
    cases v with
    | int n =>
        rw [assign_int hd] at h
        split at h
        · next i hfound =>
            obtain ⟨hi, hn, hfirst⟩ := List.findIdx?_eq_some_iff_getElem.mp hfound
            obtain rfl := Except.ok.inj h
            refine ⟨i, hi, ?_, fun k hk hv => ?_, (select_eq hi).symm⟩
            · rw [value_select hi, beq_iff_eq.mp hn]
            · rw [value_select (hk.trans hi)] at hv
              exact hfirst k hk (beq_iff_eq.mpr (Value.int.inj hv).symm)
        · cases h
    | _ => cases h
  · rintro ⟨i, hi, rfl, hfirst, rfl⟩
    have hfind : d.numbers.findIdx? (· == (d.select i).value) = some i := by
      refine List.findIdx?_eq_some_iff_getElem.mpr ⟨hi, by simp [value_select hi], fun k hk hv => ?_⟩
      refine hfirst k hk ?_
      rw [value_select (hk.trans hi), beq_iff_eq.mp hv]
    rw [assign_int hd, hfind, select_eq hi]

end Discrete

/-! ## Orderings -/

namespace Permutation

variable {n : Nat} {p q : Permutation}

theorem Of.value_inj (hn : n ≤ 2 ^ 63) (hp : p.Of n) (hq : q.Of n) (h : p.value = q.value) :
    p.order = q.order := by
  rw [← hp.order_eq hn, h, hq.order_eq hn]

/-- Orderings pass the test for orderings. -/
theorem Of.isOrdering (hn : n ≤ 2 ^ 63) (hp : p.Of n) : Finite.isOrdering p.value n = true :=
  (Finite.isOrdering_iff_perm hn).mpr (hp.map Int64.ofNat)

theorem Of.assign_eq_ok_iff (hn : n ≤ 2 ^ 63) (hp : p.Of n) {v : Value} :
    p.assign v = .ok q ↔ ∃ i < p.card, v = .ints (p.select i).value ∧
      (∀ k < i, ¬ v = .ints (p.select k).value) ∧ q = p.select i := by
  constructor
  · intro h
    unfold Permutation.assign at h
    split at h
    · next xs =>
        split at h
        · next hordering =>
            obtain rfl := Except.ok.inj h
            rw [hp.size_eq] at hordering
            obtain ⟨i, hi, horder⟩ := hp.enumerates.exists_clamped (Finite.perm_of_isOrdering hordering)
            have hselect : p.select i = { p with order := xs.map (·.toInt.toNat) } :=
              congrArg (Permutation.mk · _) horder
            have hvalue : (p.select i).value = xs := by
              rw [hselect, value, Finite.map_ofNat_of_isOrdering hordering]
            refine ⟨i, hi, by rw [hvalue], fun k hk hv => ?_, hselect.symm⟩
            have horders := (hp.select i).value_inj hn (hp.select k) (hvalue.trans (Value.ints.inj hv))
            have hik := (hp.enumerates.clamped_inj hi (hk.trans hi)).mp horders
            omega
        · cases h
    · cases h
  · rintro ⟨i, hi, rfl, -, rfl⟩
    have hselect := hp.select (i : Int)
    rw [Permutation.assign, hp.size_eq, if_pos (hselect.isOrdering hn), hselect.order_eq hn]
    rfl

end Permutation

/-! ## Factors -/

namespace Factor

variable {product slots : Int64} {rate : Float} {f e : Factor}

/-- An assignment tests the number of factors, their signs and their product, and depends on nothing
else. -/
theorem assign_eq_ok {v : Value} (h : f.assign v = .ok e) :
    ∃ xs, v = .ints xs ∧ e = { f with parts := xs } ∧ xs.length = f.slots ∧ (∀ x ∈ xs, 1 ≤ x) ∧
      multiply xs = f.product := by
  unfold assign at h
  split at h
  · next xs =>
      split_ifs at h with hlength hpositive hproduct
      obtain rfl := Except.ok.inj h
      refine ⟨xs, rfl, rfl, not_not.mp hlength, fun x hx => ?_, not_not.mp hproduct⟩
      exact Int64.not_lt.mp fun hlt => hpositive (List.any_eq_true.mpr ⟨x, hx, decide_eq_true hlt⟩)
  · cases h

theorem assign_ints {xs : List Int64} (hlength : xs.length = f.slots) (hpositive : ∀ x ∈ xs, 1 ≤ x)
    (hproduct : multiply xs = f.product) : f.assign (.ints xs) = .ok { f with parts := xs } := by
  have hany : ¬ xs.any (· < 1) = true := by
    rw [List.any_eq_true]
    rintro ⟨x, hx, hlt⟩
    exact Int64.not_lt.mpr (hpositive x hx) (of_decide_eq_true hlt)
  rw [assign, if_neg (not_not.mpr hlength), if_neg hany, if_neg (not_not.mpr hproduct)]

theorem multiply_eq_ofInt (xs : List Int64) : multiply xs = .ofInt (xs.map Int64.toInt).prod := by
  have hfold : ∀ (xs : List Int64) (done : Int64),
      xs.foldl (· * ·) done = .ofInt (done.toInt * (xs.map Int64.toInt).prod) := by
    intro xs
    induction xs with
    | nil => exact fun done => by simp
    | cons x xs ih =>
        intro done
        rw [List.foldl_cons, ih, List.map_cons, List.prod_cons, ← mul_assoc, Int64.ofInt_mul,
          Int64.ofInt_mul, Int64.ofInt_toInt, Int64.ofInt_mul, Int64.ofInt_toInt, Int64.ofInt_toInt]
  rw [multiply, hfold, Int64.toInt_one, Int.one_mul]

/-- The product in 64-bit arithmetic is a given one if the product in unbounded arithmetic agrees with
it but for multiples of `2 ^ 64`. -/
theorem multiply_eq_iff (xs : List Int64) :
    multiply xs = product ↔ (xs.map Int64.toInt).prod ≡ product.toInt [ZMOD 2 ^ 64] := by
  have hlow := product.le_toInt
  have hhigh := product.toInt_lt
  rw [multiply_eq_ofInt, ← Int64.toInt_inj, Int64.toInt_ofInt, Int.bmod_eq_iff (by decide),
    Int.modEq_iff_dvd]
  refine ⟨fun h => h.2.2, fun h => ⟨by simpa using hlow, by simpa using hhigh, h⟩⟩

/-- Factors are accepted if they are an element of the domain, or if their product wraps around to the
wanted one. -/
theorem assign_eq_ok_iff (hf : make product slots rate = .ok f) (parts : List Int64) {v : Value} :
    ({ f with parts } : Factor).assign v = .ok e ↔
      (∃ i < f.card, v = .ints (f.select i).parts ∧ (∀ k < i, ¬ v = .ints (f.select k).parts) ∧
        e = f.select i) ∨
      (Domain.factor product slots).WrapsTo v ∧ ∃ xs, v = .ints xs ∧ e = { f with parts := xs } := by
  have hof := of_make hf
  obtain ⟨-, hslots, -, -, hmade⟩ := make_eq_ok hf
  have hproduct : f.product = product := hmade ▸ rfl
  have hcount : ((f.slots : Nat) : Int) = slots.toInt := by
    rw [hof.slots_eq, Int.toNat_of_nonneg]
    exact Int.le_trans (by decide) (Int64.le_iff_toInt_le.mp hslots)
  constructor
  · intro h
    obtain ⟨xs, rfl, rfl, hlength, hpositive, hmultiply⟩ := assign_eq_ok h
    dsimp only at hlength hmultiply
    rw [hproduct, multiply_eq_iff] at hmultiply
    by_cases hprod : (xs.map Int64.toInt).prod = product.toInt
    · have hsplit : Finite.IsSplit product.toNatClampNeg f.slots xs :=
        (Finite.isSplit_iff hof.positive).mpr ⟨hlength, hpositive, hprod⟩
      obtain ⟨i, hi, hparts⟩ := hof.enumerates.exists_clamped hsplit
      refine .inl ⟨i, hi, congrArg Value.ints hparts.symm, fun k hk hv => ?_, ?_⟩
      · have hik := (hof.enumerates.clamped_inj hi (hk.trans hi)).mp
          (hparts.trans (Value.ints.inj hv))
        omega
      · exact congrArg (Factor.mk _ _ _ · _) hparts.symm
    · exact .inr ⟨⟨by rw [hlength, hcount], hpositive, hprod, hmultiply⟩, xs, rfl, rfl⟩
  · rintro (⟨i, hi, rfl, -, rfl⟩ | ⟨hwraps, xs, rfl, rfl⟩)
    · obtain ⟨hlength, hpositive, hprod⟩ :=
        (Finite.isSplit_iff hof.positive).mp (hof.enumerates.clamped hof.split i)
      refine assign_ints hlength hpositive ?_
      rw [hproduct, multiply_eq_iff]
      exact hprod ▸ Int.ModEq.refl _
    · obtain ⟨hlength, hpositive, -, hmod⟩ := hwraps
      refine assign_ints (Int.ofNat_inj.mp (hlength.trans hcount.symm)) hpositive ?_
      rw [hproduct, multiply_eq_iff]
      exact hmod

end Factor

/-! ## All kinds -/

/-- What holds of the first index of a kind holds of the first index of its genes. -/
theorem Gene.first_iff {α : Type} {x : Except DomainFault α} {kind : α → Gene} {h : Gene} {size : Nat}
    {names : Nat → Prop} {select : Nat → α}
    (hx : ∀ a, x = .ok a ↔ ∃ i < size, names i ∧ (∀ k < i, ¬ names k) ∧ a = select i) :
    (do return kind (← x)) = .ok h ↔
      ∃ i < size, names i ∧ (∀ k < i, ¬ names k) ∧ h = kind (select i) := by
  rw [except_bind_eq_ok]
  constructor
  · rintro ⟨a, ha, hh⟩
    obtain ⟨i, hi, hnames, hfirst, rfl⟩ := (hx a).mp ha
    exact ⟨i, hi, hnames, hfirst, (Except.ok.inj hh).symm⟩
  · rintro ⟨i, hi, hnames, hfirst, rfl⟩
    exact ⟨select i, (hx _).mpr ⟨i, hi, hnames, hfirst, rfl⟩, rfl⟩

theorem Gene.Names.same_self {g : Gene} {v : Value} (h : g.Names v) : g.same g = true := by
  cases g with
  | choice c => exact Value.same_self_of_same h
  | discrete d => exact beq_self_eq_true d.value
  | permutation p => exact beq_self_eq_true p.order
  | factor f => exact beq_self_eq_true f.parts

namespace Domain

variable {d : Domain} {rate : Float} {g h : Gene} {v : Value}

/-- The gene that accepts a value holds the first element that the value names, unless factors wrap
around. -/
theorem Grows.assign_eq_ok_iff (hg : d.Grows rate g) :
    g.assign v = .ok h ↔ g.HoldsFirst v h ∨ d.WrapsTo v ∧ g.Kin h ∧ h.value = v := by
  obtain ⟨start, hstart, hkin⟩ := hg.exists_made
  have hsuits := hg.suits
  cases d with
  | choice choices =>
      cases hsuits
      rw [or_iff_left fun hwraps => hwraps.1]
      exact Gene.first_iff fun _ => Choice.assign_eq_ok_iff
  | discrete numbers =>
      obtain ⟨first, hfirst, rfl⟩ := except_map_eq_ok.mp (Option.some.inj hstart)
      cases hkin with
      | discrete _ rank =>
          have hnumbers : first.numbers.Pairwise (· < ·) := by
            rw [(Discrete.of_make hfirst).numbers_eq]
            exact Discrete.pairwise_increasing numbers
          rw [or_iff_left fun hwraps => hwraps.1]
          exact Gene.first_iff fun _ => Discrete.assign_eq_ok_iff hnumbers
  | permutation size =>
      cases hsuits with
      | permutation hp =>
          have hsize : size.toInt.toNat ≤ 2 ^ 63 := by
            have := size.toInt_lt
            omega
          rw [or_iff_left fun hwraps => hwraps.1]
          exact Gene.first_iff fun _ => hp.assign_eq_ok_iff hsize
  | factor product slots =>
      obtain ⟨f, hf, rfl⟩ := except_map_eq_ok.mp (Option.some.inj hstart)
      cases hkin with
      | factor _ parts =>
          constructor
          · intro hassign
            obtain ⟨e, he, hh⟩ := except_bind_eq_ok.mp hassign
            obtain rfl := Except.ok.inj hh
            rcases (Factor.assign_eq_ok_iff hf parts).mp he with
              ⟨i, hi, hnames, hfirst, rfl⟩ | ⟨hwraps, xs, rfl, rfl⟩
            · exact .inl ⟨i, hi, hnames, hfirst, rfl⟩
            · exact .inr ⟨hwraps, .factor _ xs, rfl⟩
          · rintro (⟨i, hi, hnames, hfirst, rfl⟩ | ⟨hwraps, hkin, hvalue⟩)
            · exact except_bind_eq_ok.mpr ⟨f.select i, (Factor.assign_eq_ok_iff hf parts).mpr
                (.inl ⟨i, hi, hnames, hfirst, rfl⟩), rfl⟩
            · cases hkin with
              | factor _ xs =>
                  exact except_bind_eq_ok.mpr ⟨{ f with parts := xs },
                    (Factor.assign_eq_ok_iff hf parts).mpr (.inr ⟨hwraps, xs, hvalue.symm, rfl⟩), rfl⟩
  | unknown kind => cases hstart

/-- Factors that wrap around are no element of the domain. -/
theorem Grows.not_names_of_wrapsTo (hg : d.Grows rate g) (hv : d.WrapsTo v) (i : Int) :
    ¬ (g.select i).Names v := by
  obtain ⟨start, hstart, hkin⟩ := hg.exists_made
  cases d with
  | factor product slots =>
      obtain ⟨f, hf, rfl⟩ := except_map_eq_ok.mp (Option.some.inj hstart)
      cases hkin with
      | factor _ parts =>
          rintro rfl
          have hof := Factor.of_make hf
          have hsplit := hof.enumerates.clamped hof.split i
          exact hv.2.2.1 ((Finite.isSplit_iff hof.positive).mp hsplit).2.2
  | choice _ | discrete _ | permutation _ | unknown _ => exact hv.elim

/-- Factors that wrap around are taken over. -/
theorem Grows.exists_wrapped (hg : d.Grows rate g) (hv : d.WrapsTo v) : ∃ h, g.Kin h ∧ h.value = v := by
  have hsuits := hg.suits
  cases d with
  | factor product slots =>
      cases hsuits with
      | @factor _ _ f =>
          cases v with
          | ints xs => exact ⟨.factor { f with parts := xs }, .factor f xs, rfl⟩
          | _ => exact hv.elim
  | choice _ | discrete _ | permutation _ | unknown _ => exact hv.elim

/-- A gene accepts the values that name an element of its domain, and then holds the first such element.
Beyond them it accepts factors whose product wraps around to the wanted one, which are no element. In
memory a value that is accepted changes this gene only, and a value that is refused changes nothing. -/
theorem assign_accepts (hg : d.Grows rate g) (v : Value) :
    ((∃ h, g.assign v = .ok h) ↔ (∃ i < g.card, (g.select i).Names v) ∨ d.WrapsTo v) ∧
      (d.WrapsTo v → ∀ i < g.card, ¬ (g.select i).Names v) ∧
      (∀ h, g.assign v = .ok h →
        (∃ i < g.card, (g.select i).Names v ∧ (∀ k < i, ¬ (g.select k).Names v) ∧
          h.same (g.select i) = true) ∨ d.WrapsTo v ∧ h.value = v) ∧
      ∀ (m : Memory) (a : Nat), m.gene? a = some g →
        (∀ fault, g.assign v = .error fault → (Memory.assign a v).run m = (.error fault, m)) ∧
        ∀ h, g.assign v = .ok h → ∃ m', (Memory.assign a v).run m = (.ok (), m') ∧
          m'.gene? a = some h ∧ ∀ b k, a ≠ b → m.gene? b = some k → m'.gene? b = some k := by
  refine ⟨⟨?_, ?_⟩, fun hv i _ => hg.not_names_of_wrapsTo hv i, fun h hassign => ?_, ?_⟩
  · rintro ⟨h, hassign⟩
    rcases hg.assign_eq_ok_iff.mp hassign with ⟨i, hi, hnames, -⟩ | ⟨hwraps, -⟩
    · exact .inl ⟨i, hi, hnames⟩
    · exact .inr hwraps
  · rintro (hnamed | hwraps)
    · classical
      have hfirst := fun k (hk : k < Nat.find hnamed) hnames =>
        Nat.find_min hnamed hk ⟨hk.trans (Nat.find_spec hnamed).1, hnames⟩
      exact ⟨_, hg.assign_eq_ok_iff.mpr (.inl
        ⟨_, (Nat.find_spec hnamed).1, (Nat.find_spec hnamed).2, hfirst, rfl⟩)⟩
    · obtain ⟨h, hkin, hvalue⟩ := hg.exists_wrapped hwraps
      exact ⟨h, hg.assign_eq_ok_iff.mpr (.inr ⟨hwraps, hkin, hvalue⟩)⟩
  · rcases hg.assign_eq_ok_iff.mp hassign with ⟨i, hi, hnames, hfirst, rfl⟩ | ⟨hwraps, -, hvalue⟩
    · exact .inl ⟨i, hi, hnames, hfirst, hnames.same_self⟩
    · exact .inr ⟨hwraps, hvalue⟩
  · intro m a ha
    have hrun := Memory.run_assign ha v
    refine ⟨fun fault hfault => ?_, fun h hassign => ?_⟩
    · rwa [hfault] at hrun
    · rw [hassign] at hrun
      exact ⟨_, hrun, Memory.gene?_put_hold_self ha h, fun b k hne hb => Memory.gene?_put_hold hb hne h⟩

/-- Three times four is found among the factorisations of twelve. -/
theorem assign_accepts_dozen : ∃ g, (Domain.factor 12 2).Grows 0.5 g ∧
    ∃ i < g.card, (g.select i).Names (.ints [3, 4]) := by
  obtain ⟨g, hg, h, hassign⟩ : ∃ g, (Domain.factor 12 2).gene? 0.5 = some (.ok g) ∧
      ∃ h, g.assign (.ints [3, 4]) = .ok h := ⟨_, rfl, _, rfl⟩
  refine ⟨g, .made hg, ?_⟩
  rcases (assign_accepts (.made hg) (.ints [3, 4])).1.mp ⟨h, hassign⟩ with hnamed | hwraps
  · exact hnamed
  · exact absurd rfl hwraps.2.2.1

/-- Seven times its inverse modulo `2 ^ 64` is accepted as a factorisation of one, whose only
factorisation into two slots is one times one. -/
theorem not_assign_exact : ¬∀ (d : Domain) (rate : Float) (g : Gene), d.Grows rate g → ∀ v : Value,
    (∃ h, g.assign v = .ok h) → ∃ i < g.card, (g.select i).Names v := by
  intro hall
  obtain ⟨g, hg, hassign⟩ : ∃ g, (Domain.factor 1 2).gene? 0.5 = some (.ok g) ∧
      ∃ h, g.assign (.ints [7, 7905747460161236407]) = .ok h := ⟨_, rfl, _, rfl⟩
  have hwraps : (Domain.factor 1 2).WrapsTo (.ints [7, 7905747460161236407]) := by
    refine ⟨rfl, by simp, ?_, ?_⟩
    · change (55340232221128654849 : Int) ≠ 1
      decide
    · change (55340232221128654849 : Int) ≡ 1 [ZMOD 2 ^ 64]
      decide
  obtain ⟨i, -, hnames⟩ := hall _ _ g (.made hg) _ hassign
  exact (Grows.made hg).not_names_of_wrapsTo hwraps i hnames

end Domain

end Tuning
