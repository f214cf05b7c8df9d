import Mathlib
import Tuning.Objective.Matmul
import Tuning.Proofs.Gene.Assignment
import Tuning.Proofs.Population.Breeding

/-! # The sizes of a tiling

The sizes that a tiling asks for are products of slots. In 64-bit arithmetic they are right exactly if
they fit into 64 bits. Rows and columns are products of slots of one factorisation, so they fit, unless
it is a starting value that is a factorisation in 64-bit arithmetic only. The register block, the threads
and the footprint join slots of several parameters and need not fit. -/

namespace Tuning

/-! ## Words -/

/-- The numbers that 64-bit arithmetic can hold. -/
def WordSized (n : Int) : Prop :=
  -2 ^ 63 ≤ n ∧ n < 2 ^ 63

instance : DecidablePred WordSized := fun n => inferInstanceAs (Decidable (-2 ^ 63 ≤ n ∧ n < 2 ^ 63))

theorem toInt_ofInt_eq_iff (n : Int) : (Int64.ofInt n).toInt = n ↔ WordSized n := by
  have hlow := (Int64.ofInt n).le_toInt
  have hhigh := (Int64.ofInt n).toInt_lt
  constructor
  · intro h
    rw [h] at hlow hhigh
    exact ⟨hlow, hhigh⟩
  · rintro ⟨hlow, hhigh⟩
    exact Int64.toInt_ofInt_of_le hlow hhigh

namespace Matmul

/-! ## Sizes in unbounded arithmetic -/

/-- The sizes that a tiling asks of a device, as numbers without bound. -/
structure Sizes where
  registers : Int
  threads : Int
  rows : Int
  columns : Int
  depth : Int
  footprint : Int

/-- The sizes that a tiling asks for, in unbounded arithmetic. -/
def sizes (x y k : List Int64) : Sizes :=
  let rows := (slot x 0).toInt * (slot x 1).toInt
  let columns := (slot y 0).toInt * (slot y 1).toInt
  let depth := (slot k 0).toInt
  { registers := (slot x 0).toInt * (slot y 0).toInt
    threads := (slot x 1).toInt * (slot y 1).toInt
    rows, columns, depth
    footprint := 4 * depth * (rows + columns) }

namespace Sizes

/-- Use of the registers by a block of any size. -/
def registerFactor (d : Device) (m : Sizes) : Float :=
  if m.registers ≤ d.registers.toInt then (Float.ofInt m.registers / real d.registers).sqrt
  else real d.registers / Float.ofInt m.registers

/-- Use of any number of threads. -/
def threadFactor (d : Device) (m : Sizes) : Float :=
  if m.threads ≤ d.threads.toInt then Float.ofInt m.threads / real d.threads
  else (real d.threads / Float.ofInt m.threads).sqrt

/-- The share of the peak that sizes without bound reach. -/
def efficiency (d : Device) (m : Sizes) (c : Candidate) : Float :=
  let e := 1.0 * m.registerFactor d
  let e := e * m.threadFactor d
  let e := if d.shared.toInt < m.footprint then e * (real d.shared / Float.ofInt m.footprint) else e
  arranged d c (e * (Float.ofInt m.depth / Float.ofInt (m.depth + 2)))

end Sizes

/-- The sizes in 64-bit arithmetic. -/
def Sizes.wrapped (m : Sizes) : Demand where
  registers := .ofInt m.registers
  threads := .ofInt m.threads
  rows := .ofInt m.rows
  columns := .ofInt m.columns
  depth := .ofInt m.depth
  footprint := .ofInt m.footprint

/-- 64-bit arithmetic gives the sizes but for multiples of `2 ^ 64`. -/
theorem demand_eq_wrapped (x y k : List Int64) : demand x y k = (sizes x y k).wrapped := by
  simp [demand, sizes, Sizes.wrapped, Int64.ofInt_mul, Int64.ofInt_add]

section Scoring

variable {d : Device} {m : Sizes}

theorem ofInt_le_iff {n : Int} (h : WordSized n) (a : Int64) : Int64.ofInt n ≤ a ↔ n ≤ a.toInt := by
  rw [Int64.le_iff_toInt_le, (toInt_ofInt_eq_iff n).mpr h]

theorem lt_ofInt_iff {n : Int} (h : WordSized n) (a : Int64) : a < Int64.ofInt n ↔ a.toInt < n := by
  rw [Int64.lt_iff_toInt_lt, (toInt_ofInt_eq_iff n).mpr h]

theorem real_ofInt {n : Int} (h : WordSized n) : real (.ofInt n) = Float.ofInt n := by
  rw [real, (toInt_ofInt_eq_iff n).mpr h]

/-- A register block that fits into 64 bits is scored by its size. -/
theorem registerFactor_wrapped (h : WordSized m.registers) :
    registerFactor d m.wrapped = m.registerFactor d := by
  simp only [registerFactor, Sizes.registerFactor, Sizes.wrapped, ofInt_le_iff h, real_ofInt h]

theorem threadFactor_wrapped (h : WordSized m.threads) : threadFactor d m.wrapped = m.threadFactor d := by
  simp only [threadFactor, Sizes.threadFactor, Sizes.wrapped, ofInt_le_iff h, real_ofInt h]

/-- A demand has the sizes that fit into 64 bits, and scores them by what they are. -/
structure Demand.Tracks (n : Demand) (m : Sizes) : Prop where
  registers : n.registers.toInt = m.registers ↔ WordSized m.registers
  threads : n.threads.toInt = m.threads ↔ WordSized m.threads
  rows : n.rows.toInt = m.rows ↔ WordSized m.rows
  columns : n.columns.toInt = m.columns ↔ WordSized m.columns
  footprint : n.footprint.toInt = m.footprint ↔ WordSized m.footprint
  spills : WordSized m.registers → ∀ d : Device, registerFactor d n = m.registerFactor d
  charged : WordSized m.footprint →
    ∀ d : Device, d.shared < n.footprint ↔ d.shared.toInt < m.footprint

theorem tracks_wrapped (m : Sizes) : m.wrapped.Tracks m where
  registers := toInt_ofInt_eq_iff m.registers
  threads := toInt_ofInt_eq_iff m.threads
  rows := toInt_ofInt_eq_iff m.rows
  columns := toInt_ofInt_eq_iff m.columns
  footprint := toInt_ofInt_eq_iff m.footprint
  spills h _ := registerFactor_wrapped h
  charged h d := lt_ofInt_iff h d.shared

/-- Sizes that fit into 64 bits are scored as they are. -/
theorem efficiency_wrapped (hregisters : WordSized m.registers) (hthreads : WordSized m.threads)
    (hfootprint : WordSized m.footprint) (hdepth : WordSized m.depth) (hdepth' : WordSized (m.depth + 2))
    (c : Candidate) : efficiency d m.wrapped c = m.efficiency d c := by
  have hsync : m.wrapped.depth + 2 = .ofInt (m.depth + 2) := (Int64.ofInt_add m.depth 2).symm
  have hreal : real m.wrapped.depth = Float.ofInt m.depth := real_ofInt hdepth
  have hcharge : real m.wrapped.footprint = Float.ofInt m.footprint := real_ofInt hfootprint
  have hfree : d.shared < m.wrapped.footprint ↔ d.shared.toInt < m.footprint :=
    lt_ofInt_iff hfootprint d.shared
  simp only [efficiency, Sizes.efficiency, registerFactor_wrapped hregisters,
    threadFactor_wrapped hthreads, hfree, hcharge, hreal, hsync, real_ofInt hdepth']

end Scoring

/-! ## Slots of a factorisation -/

section Slots

variable {xs : List Int64}

theorem one_le_slot (h : ∀ a ∈ xs, 1 ≤ a) (i : Nat) : 1 ≤ (slot xs i).toInt := by
  have hslot : 1 ≤ slot xs i := by
    rw [slot, List.getD_eq_getElem?_getD]
    cases hget : xs.reverse[i]? with
    | none => simp
    | some a => exact h a (List.mem_reverse.mp (List.mem_of_getElem? hget))
  exact Int64.le_iff_toInt_le.mp hslot

/-- The last two slots are part of the product of all. -/
theorem slot_mul_slot_dvd (xs : List Int64) :
    (slot xs 0).toInt * (slot xs 1).toInt ∣ (xs.map Int64.toInt).prod := by
  rw [slot, slot, ← List.prod_reverse, ← List.map_reverse]
  rcases xs.reverse with _ | ⟨a, _ | ⟨b, rest⟩⟩
  · simp
  · simp
  · simp [← mul_assoc]

/-- The last two slots of a factorisation multiply to a number that fits into 64 bits. -/
theorem fits_slot_mul_slot {product : Int64} (hpositive : ∀ a ∈ xs, 1 ≤ a)
    (hprod : (xs.map Int64.toInt).prod = product.toInt) (hproduct : 1 ≤ product) :
    WordSized ((slot xs 0).toInt * (slot xs 1).toInt) := by
  have hle := Int.le_of_dvd (Int64.le_iff_toInt_le.mp hproduct) (hprod ▸ slot_mul_slot_dvd xs)
  have hlow := one_le_slot hpositive 0
  have hlow' := one_le_slot hpositive 1
  have hbound := product.toInt_lt
  constructor <;> nlinarith

/-- A footprint that fits leaves room to add two to the depth. -/
theorem fits_depth_add_two {x y k : List Int64} (hx : ∀ a ∈ x, 1 ≤ a) (hy : ∀ a ∈ y, 1 ≤ a)
    (hk : ∀ a ∈ k, 1 ≤ a) (h : WordSized (sizes x y k).footprint) :
    WordSized ((sizes x y k).depth + 2) := by
  have hrows : 1 ≤ (sizes x y k).rows :=
    one_le_mul_of_one_le_of_one_le (one_le_slot hx 0) (one_le_slot hx 1)
  have hcolumns : 1 ≤ (sizes x y k).columns :=
    one_le_mul_of_one_le_of_one_le (one_le_slot hy 0) (one_le_slot hy 1)
  have hdepth : 1 ≤ (sizes x y k).depth := one_le_slot hk 0
  have hfootprint : (sizes x y k).footprint =
      4 * (sizes x y k).depth * ((sizes x y k).rows + (sizes x y k).columns) := rfl
  have hle : 8 * (sizes x y k).depth ≤ (sizes x y k).footprint := by
    rw [hfootprint]
    nlinarith
  obtain ⟨-, hhigh⟩ := h
  constructor <;> omega

end Slots

end Matmul

/-! ## Candidates of a space -/

/-- A parameter of a name is a product split into factors. -/
def Space.Splits (s : Space) (name : String) : Prop :=
  ∃ p ∈ s.parameters, p.name = name ∧ ∃ product slots, p.domain = .factor product slots

/-- No starting value has factors whose product wraps around to the wanted one. -/
def Space.Fair (s : Space) : Prop :=
  ∀ p ∈ s.parameters, ∀ seed ∈ p.seeds, ¬ p.domain.WrapsTo seed

/-- Genes of a space with fair starting values hold elements of their domains. -/
theorem Space.law_holds_of_fair {s : Space} (hs : s.Fair) : s.Law fun p g => p.domain.Holds g where
  made p hp b hb rate src g src' hg := by
    rw [← hb.domain_eq]
    obtain ⟨start, hstart, ⟨-, hreset⟩ | ⟨seed, rest, hseeds, hassign, -⟩⟩ :=
      Individual.geneOf_eq_ok hg
    · exact b.domain.closed_holds.reset start (Parameter.holds_of_gene hstart) _ _ _ hreset
    · have hgrows : b.domain.Grows (b.rateOr rate) start := .made (Parameter.gene_eq_ok hstart)
      rcases hgrows.assign_eq_ok_iff.mp hassign with ⟨i, -, -, -, rfl⟩ | ⟨hwraps, -⟩
      · exact b.domain.closed_holds.select start i (Parameter.holds_of_gene hstart)
      · have hseed : seed ∈ p.seeds := hb.seeds_subset (by simp [hseeds])
        exact absurd (hb.domain_eq ▸ hwraps) (hs p hp seed hseed)
  closed p _ := p.domain.closed_holds

namespace Individual

variable {S : Parameter → Gene → Prop} {s : Space} {x : Individual}

/-- The candidate has the value of a gene for the name of every parameter. -/
theorem Matches.find?_candidate (hx : x.Matches S s) (hnodup : s.names.Nodup) {p : Parameter}
    (hp : p ∈ s.parameters) : ∃ g, S p g ∧ x.candidate.find? p.name = some g.value := by
  obtain ⟨i, hi⟩ := List.mem_iff_get.mp hp
  have hlt : i.val < x.genes.length := hx.length_eq ▸ i.isLt
  obtain ⟨hname, hgene⟩ := hx.get i.isLt hlt
  rw [Fin.eta, hi] at hname hgene
  refine ⟨_, hgene, ?_⟩
  have hnames : ((x.genes.map fun gene => (gene.1, gene.2.value)).map (·.1)).Nodup := by
    rw [← hx.names_eq] at hnodup
    simpa [names, Function.comp_def] using hnodup
  rw [← hname]
  exact lookup_mappingOf hnames (List.mem_map_of_mem (List.get_mem x.genes ⟨i, hlt⟩))

/-- A parameter that is split has a list of integers in every candidate. With fair starting values it
is a factorisation of the product. -/
theorem exists_tiles {rate : Float} {mode : Mode} {p : Population} {pool : List Individual}
    (hp : Population.Search s rate mode p pool) (hx : x ∈ pool) {name : String}
    (hname : s.Splits name) :
    ∃ xs, (∀ objective, x.candidate.integers objective name = .ok xs) ∧
      (s.Fair → ∃ product : Int64, 1 ≤ product ∧ (∀ a ∈ xs, 1 ≤ a) ∧
        (xs.map Int64.toInt).prod = product.toInt) := by
  obtain ⟨q, hq, rfl, product, slots, hdomain⟩ := hname
  obtain ⟨start, src, src', hmake⟩ := hp.exists_make
  have hnodup := Space.nodup_names (Population.make_eq_ok hmake).1
  obtain ⟨g, hsuits, hfind⟩ := ((hp.fitting s.law_suits).2 x hx).find?_candidate hnodup hq
  rw [hdomain] at hsuits
  cases hsuits with
  | @factor _ _ f =>
      refine ⟨f.parts, fun objective => by simp [Candidate.integers, hfind, Gene.value], fun hfair => ?_⟩
      have hmatches := (hp.fitting (Space.law_holds_of_fair hfair)).2 x hx
      obtain ⟨h, hholds, hfind'⟩ := hmatches.find?_candidate hnodup hq
      rw [hdomain] at hholds
      cases hholds with
      | @factor _ _ e hof =>
          have hparts : f.parts = e.parts := by
            simpa [Gene.value] using hfind.symm.trans hfind'
          obtain ⟨-, hpositive, hprod⟩ := (Finite.isSplit_iff hof.positive).mp hof.split
          rw [hparts]
          exact ⟨product, hof.positive, hpositive, hprod⟩

end Individual

namespace Matmul

open Population (Search)

variable {s : Space} {rate : Float} {mode : Mode} {p : Population} {pool : List Individual}
  {x : Individual}

/-- The tiles of a candidate ask for register block, threads, rows, columns and footprint of the right
sizes exactly if these fit into 64 bits. A register block that fits is never scored as smaller than it
is, and a footprint that fits never as free if it is not. Unless starting values wrap around, rows and
columns fit; and if the other sizes fit too, the score is that of unbounded arithmetic. -/
theorem tiles_exact_iff_fits (hp : Search s rate mode p pool) (hx : x ∈ pool)
    (htx : s.Splits "tile_x") (hty : s.Splits "tile_y") (htk : s.Splits "tile_k") :
    ∃ xs ys ks : List Int64,
      (∀ objective, x.candidate.integers objective "tile_x" = .ok xs ∧
        x.candidate.integers objective "tile_y" = .ok ys ∧
        x.candidate.integers objective "tile_k" = .ok ks) ∧
      (demand xs ys ks).Tracks (sizes xs ys ks) ∧
      (s.Fair → WordSized (sizes xs ys ks).rows ∧ WordSized (sizes xs ys ks).columns ∧
        (WordSized (sizes xs ys ks).registers → WordSized (sizes xs ys ks).threads →
          WordSized (sizes xs ys ks).footprint → ∀ (d : Device) (name : String),
            score d name false x.candidate =
              .ok (d.peak * (sizes xs ys ks).efficiency d x.candidate))) := by
  obtain ⟨xs, hxs, hfairx⟩ := Individual.exists_tiles hp hx htx
  obtain ⟨ys, hys, hfairy⟩ := Individual.exists_tiles hp hx hty
  obtain ⟨ks, hks, hfairk⟩ := Individual.exists_tiles hp hx htk
  refine ⟨xs, ys, ks, fun objective => ⟨hxs objective, hys objective, hks objective⟩, ?_, ?_⟩
  · rw [demand_eq_wrapped]
    exact tracks_wrapped _
  · intro hfair
    obtain ⟨product, hproduct, hpositive, hprod⟩ := hfairx hfair
    obtain ⟨product', hproduct', hpositive', hprod'⟩ := hfairy hfair
    obtain ⟨-, -, hpositive'', -⟩ := hfairk hfair
    refine ⟨fits_slot_mul_slot hpositive hprod hproduct,
      fits_slot_mul_slot hpositive' hprod' hproduct', ?_⟩
    intro hregisters hthreads hfootprint d name
    have hdepth : WordSized (sizes xs ys ks).depth := ⟨(slot ks 0).le_toInt, (slot ks 0).toInt_lt⟩
    have hdepth' := fits_depth_add_two hpositive hpositive' hpositive'' hfootprint
    have hscore : score d name false x.candidate =
        .ok (d.peak * efficiency d (demand xs ys ks) x.candidate) := by
      simp only [score, hxs, hys, hks]
      rfl
    rw [hscore, demand_eq_wrapped, efficiency_wrapped hregisters hthreads hfootprint hdepth hdepth']

/-- A search that starts and builds an individual has it in its pool. -/
theorem exists_found (src src' : Source) (check : Individual → Bool)
    (hmake : (Population.make s rate mode src).map (fun r => r.1.isOk) = some true)
    (hbuild : (Individual.make s rate src').map (fun r => r.1.toOption.any check) = some true) :
    ∃ p pool x, Search s rate mode p pool ∧ x ∈ pool ∧ check x = true := by
  obtain ⟨⟨start, _⟩, hstart, hok⟩ := Option.map_eq_some_iff.mp hmake
  obtain ⟨⟨made, _⟩, hmade, hcheck⟩ := Option.map_eq_some_iff.mp hbuild
  cases start with
  | error e => cases hok
  | ok p =>
      cases made with
      | error e => cases hcheck
      | ok x => exact ⟨p, _, x, (Search.start hstart).build List.mem_cons_self hmade,
          List.mem_cons_self, hcheck⟩

/-- Tiles of a small multiplication. -/
def tiled : Space :=
  ⟨[{ name := "tile_x", domain := .factor 64 2 },
    { name := "tile_y", domain := .factor 64 2 },
    { name := "tile_k", domain := .factor 8 2 }]⟩

/-- Tiles of a multiplication that is as large as machine integers can say. -/
def vast : Space :=
  ⟨[{ name := "tile_x", domain := .factor 4578311361531796875 1 },
    { name := "tile_y", domain := .factor 379958407683285578 1 },
    { name := "tile_k", domain := .factor 4611686018427387904 1 }]⟩

/-- The tiles of a candidate. -/
def tiles? (c : Candidate) : Option (List Int64 × List Int64 × List Int64) := do
  let xs ← (c.integers "matmul" "tile_x").toOption
  let ys ← (c.integers "matmul" "tile_y").toOption
  let ks ← (c.integers "matmul" "tile_k").toOption
  return (xs, ys, ks)

/-- A candidate of the small multiplication has sizes that fit, and its score is that of unbounded
arithmetic. -/
theorem tiles_exact_iff_fits_tiled : ∃ p pool x, Search tiled 0.5 .maximize p pool ∧ x ∈ pool ∧
    tiles? x.candidate = some ([8, 8], [8, 8], [8, 1]) ∧
    (demand [8, 8] [8, 8] [8, 1]).Tracks (sizes [8, 8] [8, 8] [8, 1]) ∧
    score {} "matmul" false x.candidate =
      .ok (({} : Device).peak * (sizes [8, 8] [8, 8] [8, 1]).efficiency {} x.candidate) := by
  obtain ⟨p, pool, x, hp, hx, hcheck⟩ : ∃ p pool x, Search tiled 0.5 .maximize p pool ∧ x ∈ pool ∧
      decide (tiles? x.candidate = some ([8, 8], [8, 8], [8, 1])) = true :=
    exists_found (.ofScript [0, 0, 0, 0, 0, 0] 0)
      (.ofScript [12884901888, 12884901888, 12884901888] 0) _
      (by decide +kernel) (by decide +kernel)
  have htiles := of_decide_eq_true hcheck
  obtain ⟨xs, ys, ks, hints, htracks, hfair⟩ := tiles_exact_iff_fits hp hx
    (by simp [Space.Splits, tiled]) (by simp [Space.Splits, tiled]) (by simp [Space.Splits, tiled])
  obtain ⟨hxs, hys, hks⟩ := hints "matmul"
  have hread : tiles? x.candidate = some (xs, ys, ks) := by
    simp only [tiles?, hxs, hys, hks]
    rfl
  obtain ⟨rfl, rfl, rfl⟩ : xs = [8, 8] ∧ ys = [8, 8] ∧ ks = [8, 1] := by
    simpa using hread.symm.trans htiles
  refine ⟨p, pool, x, hp, hx, htiles, htracks, ?_⟩
  apply (hfair (by simp [Space.Fair, tiled])).2.2
  · decide
  · decide
  · decide

/-- The sizes of a candidate need not be right: a register block of far more than the registers is
scored as one of 46 that fits, and a footprint of far more than the memory as free. -/
theorem not_sizes_exact : ∃ p pool x xs ys ks, Search vast 0.5 .maximize p pool ∧ x ∈ pool ∧
    vast.Splits "tile_x" ∧ vast.Splits "tile_y" ∧ vast.Splits "tile_k" ∧
    tiles? x.candidate = some (xs, ys, ks) ∧
    ({} : Device).registers.toInt < (sizes xs ys ks).registers ∧ (demand xs ys ks).registers = 46 ∧
    ({} : Device).shared.toInt < (sizes xs ys ks).footprint ∧ (demand xs ys ks).footprint = 0 := by
  obtain ⟨p, pool, x, hp, hx, hcheck⟩ : ∃ p pool x, Search vast 0.5 .maximize p pool ∧ x ∈ pool ∧
      decide (tiles? x.candidate =
        some ([4578311361531796875], [379958407683285578], [4611686018427387904])) = true :=
    exists_found (.ofScript [0, 0, 0] 0) (.ofScript [0, 0, 0] 0) _
      (by decide +kernel) (by decide +kernel)
  refine ⟨p, pool, x, _, _, _, hp, hx, by simp [Space.Splits, vast], by simp [Space.Splits, vast],
    by simp [Space.Splits, vast], of_decide_eq_true hcheck, ?_⟩
  decide

end Matmul

end Tuning
