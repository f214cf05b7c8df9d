import Tuning.Proofs.Finite.Entries
import Tuning.Store.Retention

/-! # What retention drops

Two rules choose reports: one by age, one by rank among the latest. Together they drop exactly the union
of what each of them drops, and every report once. -/

namespace Tuning

/-! ## From late to early -/

/-- Reports from late to early; those of one time keep the order that they have in a list. -/
structure LatestFirst (infos sorted : List ReportInfo) : Prop where
  falling : sorted.Pairwise fun a b => a.timestamp.before b.timestamp = false
  stable : ∀ time : Int, sorted.filter (·.timestamp.total = time) = infos.filter (·.timestamp.total = time)

namespace LatestFirst

variable {infos sorted other : List ReportInfo}

theorem not_before_iff {a b : Instant} : a.before b = false ↔ b.total ≤ a.total := by
  rw [Instant.before, decide_eq_false_iff_not, not_lt]

/-- Sorting by merging puts reports from late to early. -/
theorem mergeSort (infos : List ReportInfo) :
    LatestFirst infos (infos.mergeSort fun a b => !a.timestamp.before b.timestamp) := by
  have htrans : ∀ a b c : ReportInfo, (!a.timestamp.before b.timestamp) = true →
      (!b.timestamp.before c.timestamp) = true → (!a.timestamp.before c.timestamp) = true := by
    simp only [Bool.not_eq_true', not_before_iff]
    exact fun a b c hab hbc => hbc.trans hab
  have htotal : ∀ a b : ReportInfo,
      ((!a.timestamp.before b.timestamp) || !b.timestamp.before a.timestamp) = true := by
    simp only [Bool.or_eq_true, Bool.not_eq_true', not_before_iff]
    exact fun a b => le_total _ _
  refine ⟨(List.pairwise_mergeSort htrans htotal infos).imp fun h => by simpa using h, fun time => ?_⟩
  refine filter_mergeSort htrans htotal (fun a b ha hb => ?_) infos
  rw [decide_eq_true_eq] at ha hb
  rw [Bool.not_eq_true', not_before_iff, ha, hb]

theorem mem_iff (h : LatestFirst infos sorted) (x : ReportInfo) : x ∈ sorted ↔ x ∈ infos := by
  have hx := congrArg (x ∈ ·) (h.stable x.timestamp.total)
  simpa only [List.mem_filter, decide_true, and_true, eq_iff_iff] using hx

/-- There is one way only to put reports from late to early. -/
theorem unique (h : LatestFirst infos sorted) (h' : LatestFirst infos other) : other = sorted := by
  induction sorted generalizing infos other with
  | nil =>
      refine List.eq_nil_iff_forall_not_mem.mpr fun x hx => ?_
      exact List.not_mem_nil ((h.mem_iff x).mpr ((h'.mem_iff x).mp hx))
  | cons a sorted ih =>
      cases other with
      | nil => exact absurd ((h'.mem_iff a).mpr ((h.mem_iff a).mp List.mem_cons_self)) List.not_mem_nil
      | cons b other =>
          obtain ⟨ha, hsorted⟩ := List.pairwise_cons.mp h.falling
          obtain ⟨hb, hother⟩ := List.pairwise_cons.mp h'.falling
          -- either head is among the latest of the other list
          have hle : ∀ {c d : ReportInfo} {xs : List ReportInfo},
              (∀ x ∈ xs, c.timestamp.before x.timestamp = false) → d ∈ c :: xs →
                d.timestamp.total ≤ c.timestamp.total := by
            intro c d xs hc hd
            rcases List.mem_cons.mp hd with rfl | hd
            · exact le_rfl
            · exact not_before_iff.mp (hc d hd)
          have hab : a.timestamp.total = b.timestamp.total := le_antisymm
            (hle hb ((h'.mem_iff a).mpr ((h.mem_iff a).mp List.mem_cons_self)))
            (hle ha ((h.mem_iff b).mpr ((h'.mem_iff b).mp List.mem_cons_self)))
          have htied := (h.stable a.timestamp.total).trans (h'.stable a.timestamp.total).symm
          rw [List.filter_cons_of_pos (by simp), List.filter_cons_of_pos (by simp [hab])] at htied
          obtain rfl : a = b := (List.cons.inj htied).1
          have hrest : LatestFirst sorted sorted := ⟨hsorted, fun _ => rfl⟩
          refine congrArg (a :: ·) (ih hrest ⟨hother, fun time => ?_⟩)
          have hstable := (h'.stable time).trans (h.stable time).symm
          rw [List.filter_cons, List.filter_cons] at hstable
          split_ifs at hstable
          · exact (List.cons.inj hstable).2
          · exact hstable

theorem perm (h : LatestFirst infos sorted) : sorted.Perm infos :=
  (mergeSort infos).unique h ▸ List.mergeSort_perm infos _

end LatestFirst

namespace Retention

variable {r : Retention} {cutoff : Instant} {infos sorted : List ReportInfo} {x : ReportInfo}

/-! ## The rules -/

/-- A report is from before the cutoff, where there is one. -/
def Outdated (r : Retention) (cutoff : Instant) (x : ReportInfo) : Prop :=
  0 < r.olderThan ∧ x.timestamp.before cutoff = true

instance : Decidable (r.Outdated cutoff x) :=
  inferInstanceAs (Decidable (_ ∧ _))

/-- In a place that keeps its offset the cutoff lies so many days of 86400 seconds back, as long as
64-bit words can count to it. -/
theorem outdated_daysEarlier_iff {now : Instant} (hlow : -2 ^ 63 ≤ now.seconds - 86400 * r.olderThan)
    (hhigh : now.seconds - 86400 * r.olderThan < 2 ^ 63) :
    r.Outdated (now.daysEarlier r.olderThan) x ↔
      0 < r.olderThan ∧ x.timestamp.total < now.total - r.olderThan * (86400 * 1000000000) := by
  have hcutoff : (now.daysEarlier r.olderThan).total =
      now.total - r.olderThan * (86400 * 1000000000) := by
    rw [Instant.total, Instant.daysEarlier, Int64.toInt_ofInt_of_le hlow hhigh, Instant.total]
    ring
  rw [Outdated, Instant.before, decide_eq_true_eq, hcutoff]

theorem aged_eq (r : Retention) (cutoff : Instant) (infos : List ReportInfo) :
    r.aged cutoff infos = infos.filter (r.Outdated cutoff ·) := by
  unfold aged Outdated
  split
  · next h => simp [h]
  · next h => simp [h]

/-- A report is not among so many of the latest. -/
def Surplus (r : Retention) (sorted : List ReportInfo) (x : ReportInfo) : Prop :=
  0 < r.keepLast ∧ x ∉ sorted.take r.keepLast.toNat

theorem surplus_eq (h : LatestFirst infos sorted) :
    r.surplus infos = if 0 < r.keepLast then sorted.drop r.keepLast.toNat else [] := by
  rw [surplus, h.unique (.mergeSort infos)]

/-- What is behind the latest reports is surplus, where no report is there twice. -/
theorem mem_surplus_iff (h : LatestFirst infos sorted) (hnodup : sorted.Nodup) :
    x ∈ r.surplus infos ↔ x ∈ infos ∧ r.Surplus sorted x := by
  rw [surplus_eq h, ← h.mem_iff, Surplus]
  split_ifs with hkeep
  · have hsplit := List.take_append_drop r.keepLast.toNat sorted
    have hapart : ∀ y ∈ sorted.take r.keepLast.toNat, y ∉ sorted.drop r.keepLast.toNat := by
      rw [← hsplit] at hnodup
      exact fun y hy hy' => List.disjoint_of_nodup_append hnodup hy hy'
    have hmem : x ∈ sorted ↔ x ∈ sorted.take r.keepLast.toNat ∨ x ∈ sorted.drop r.keepLast.toNat := by
      rw [← List.mem_append, hsplit]
    have := hapart x
    tauto
  · simp [hkeep]

/-! ## Both rules -/

/-- Reports of different sessions are added unless their session is there already. -/
theorem addNew_eq (done : List ReportInfo) {rest : List ReportInfo}
    (h : (rest.map (·.sessionId)).Nodup) :
    addNew done rest = done ++ rest.filter fun x => !done.any (·.sessionId == x.sessionId) := by
  induction rest generalizing done with
  | nil => rw [addNew, List.filter_nil, List.append_nil]
  | cons x rest ih =>
      obtain ⟨hx, hrest⟩ := List.nodup_cons.mp h
      rw [addNew]
      split
      · next hdone => rw [ih done hrest, List.filter_cons_of_neg (by simpa using hdone)]
      · next hdone =>
          rw [ih _ hrest, List.filter_cons_of_pos (by simpa using hdone), List.append_assoc,
            List.singleton_append]
          refine congrArg (fun kept => done ++ x :: kept) (List.filter_congr fun y hy => ?_)
          have hne : (x.sessionId == y.sessionId) = false :=
            beq_false_of_ne fun heq => hx (List.mem_map.mpr ⟨y, hy, heq.symm⟩)
          rw [List.any_append, List.any_cons, List.any_nil, hne, Bool.or_false, Bool.or_false]

/-- What is dropped: the outdated reports as they are listed, and then what is left of the surplus. -/
theorem select_eq (r : Retention) (cutoff : Instant) (h : (infos.map (·.sessionId)).Nodup)
    (hsorted : LatestFirst infos sorted) :
    r.select cutoff infos = infos.filter (r.Outdated cutoff ·) ++
      (r.surplus infos).filter fun x => ¬r.Outdated cutoff x := by
  have hids : (sorted.map (·.sessionId)).Nodup := (hsorted.perm.map _).nodup_iff.mpr h
  have hsub : List.Sublist (r.surplus infos) sorted := by
    rw [surplus_eq hsorted]
    split
    · exact List.drop_sublist _ _
    · exact List.nil_sublist _
  rw [select, aged_eq, addNew_eq _ ((hsub.map _).nodup hids)]
  refine congrArg (_ ++ ·) (List.filter_congr fun x hx => ?_)
  -- sessions differ, so the session of a report is there only if the report is
  have hx' : x ∈ infos := (hsorted.mem_iff x).mp (hsub.subset hx)
  rw [Bool.eq_iff_iff, Bool.not_eq_true', ← Bool.not_eq_true, decide_eq_true_eq, not_iff_not,
    List.any_eq_true]
  constructor
  · rintro ⟨y, hy, hid⟩
    obtain ⟨hy, hold⟩ := List.mem_filter.mp hy
    rw [← List.inj_on_of_nodup_map h hy hx' (beq_iff_eq.mp hid)]
    exact of_decide_eq_true hold
  · exact fun hold => ⟨x, List.mem_filter.mpr ⟨hx', decide_eq_true hold⟩, beq_self_eq_true _⟩

theorem mem_select_iff (r : Retention) (cutoff : Instant) (h : (infos.map (·.sessionId)).Nodup)
    (hsorted : LatestFirst infos sorted) (x : ReportInfo) :
    x ∈ r.select cutoff infos ↔ x ∈ infos ∧ (r.Outdated cutoff x ∨ r.Surplus sorted x) := by
  have hnodup : sorted.Nodup := hsorted.perm.nodup_iff.mpr h.of_map
  rw [select_eq r cutoff h hsorted, List.mem_append, List.mem_filter, List.mem_filter,
    mem_surplus_iff hsorted hnodup, decide_eq_true_eq, decide_eq_true_eq]
  tauto

theorem nodup_select (r : Retention) (cutoff : Instant) (h : (infos.map (·.sessionId)).Nodup)
    (hsorted : LatestFirst infos sorted) :
    ((r.select cutoff infos).map (·.sessionId)).Nodup := by
  have hnodup : (r.select cutoff infos).Nodup := by
    have hsurplus : (r.surplus infos).Nodup := by
      rw [surplus_eq hsorted]
      split
      · exact (hsorted.perm.nodup_iff.mpr h.of_map).sublist (List.drop_sublist _ _)
      · exact List.nodup_nil
    rw [select_eq r cutoff h hsorted]
    refine (h.of_map.filter _).append (hsurplus.filter _) fun x hx hx' => ?_
    exact of_decide_eq_true (List.mem_filter.mp hx').2 (of_decide_eq_true (List.mem_filter.mp hx).2)
  refine (List.nodup_map_iff_inj_on hnodup).mpr fun x hx y hy heq => ?_
  exact List.inj_on_of_nodup_map h ((mem_select_iff r cutoff h hsorted x).mp hx).1
    ((mem_select_iff r cutoff h hsorted y).mp hy).1 heq

/-- Retention drops exactly the reports that are outdated or behind the latest ones, and every session
once: the outdated ones in their order, then the others from late to early. By rank alone it drops all
but so many reports, none of which is later than one that stays. Outdated is what is from before the
cutoff, and where all days are of one length the cutoff is so many times 86400 seconds ago. -/
theorem select_exact (r : Retention) (cutoff : Instant) {infos : List ReportInfo}
    (h : (infos.map (·.sessionId)).Nodup) :
    ∃ sorted, (LatestFirst infos sorted ∧ ∀ other, LatestFirst infos other → other = sorted) ∧
      (r.select cutoff infos = infos.filter (r.Outdated cutoff ·) ++
        if 0 < r.keepLast then (sorted.drop r.keepLast.toNat).filter (¬r.Outdated cutoff ·) else []) ∧
      ((r.select cutoff infos).map (·.sessionId)).Nodup ∧
      (∀ x, x ∈ r.select cutoff infos ↔ x ∈ infos ∧ (r.Outdated cutoff x ∨ r.Surplus sorted x)) ∧
      (r.olderThan ≤ 0 → 0 < r.keepLast →
        ((r.select cutoff infos).length : Int) = max 0 (infos.length - r.keepLast) ∧
        ∀ x ∈ r.select cutoff infos, ∀ y ∈ infos, y ∉ r.select cutoff infos →
          y.timestamp.before x.timestamp = false) ∧
      (∀ now : Instant, cutoff = now.daysEarlier r.olderThan →
        -2 ^ 63 ≤ now.seconds - 86400 * r.olderThan → now.seconds - 86400 * r.olderThan < 2 ^ 63 →
        ∀ x, r.Outdated cutoff x ↔
          0 < r.olderThan ∧ x.timestamp.total < now.total - r.olderThan * (86400 * 1000000000)) := by
  obtain ⟨sorted, hsorted⟩ : ∃ sorted, LatestFirst infos sorted := ⟨_, .mergeSort infos⟩
  have hselect := select_eq r cutoff h hsorted
  have hmem := mem_select_iff r cutoff h hsorted
  refine ⟨sorted, ⟨hsorted, fun other => hsorted.unique⟩, ?_, nodup_select r cutoff h hsorted, hmem, ?_,
    fun now hcutoff hlow hhigh x => hcutoff ▸ outdated_daysEarlier_iff hlow hhigh⟩
  · rw [hselect, surplus_eq hsorted, apply_ite (List.filter _), List.filter_nil]
  · intro hage hkeep
    have hdrop : r.select cutoff infos = sorted.drop r.keepLast.toNat := by
      rw [hselect, surplus_eq hsorted, if_pos hkeep]
      simp [Outdated, hage.not_gt]
    constructor
    · rw [hdrop, List.length_drop, hsorted.perm.length_eq]
      omega
    · intro x hx y hy hkept
      have hy' := (hsorted.mem_iff y).mpr hy
      rw [hdrop] at hx hkept
      rw [← List.take_append_drop r.keepLast.toNat sorted, List.mem_append] at hy'
      exact hsorted.falling.rel_of_mem_take_of_mem_drop (hy'.resolve_right hkept) hx

/-- The report of a session that ended some days after the beginning of year 1. -/
def dayReport (id : String) (day : Int) : ReportInfo :=
  { sessionId := id, timestamp := ⟨86400 * day, 0, 0⟩ }

/-- Of four reports the only outdated one goes first. Of the two latest, which are of one time, the one
that is listed first stays. -/
theorem select_exact_tied :
    ([dayReport "a" 10, dayReport "b" 1, dayReport "c" 10, dayReport "d" 5].map (·.sessionId)).Nodup ∧
      ((select ⟨1, 6⟩ (Instant.daysEarlier ⟨864000, 0, 0⟩ 6) [dayReport "a" 10, dayReport "b" 1,
        dayReport "c" 10, dayReport "d" 5]).map (·.sessionId)) = ["b", "c", "d"] := by
  have hids : ([dayReport "a" 10, dayReport "b" 1, dayReport "c" 10, dayReport "d" 5].map
      (·.sessionId)).Nodup := by decide
  obtain ⟨sorted, ⟨-, hunique⟩, hselect, -⟩ := select_exact ⟨1, 6⟩
    (Instant.daysEarlier ⟨864000, 0, 0⟩ 6) hids
  have hsorted : [dayReport "a" 10, dayReport "c" 10, dayReport "d" 5, dayReport "b" 1] = sorted := by
    refine hunique _ ⟨by decide, fun time => ?_⟩
    have htotal : ∀ (id : String) (day : Int),
        (dayReport id day).timestamp.total = 86400 * day * 1000000000 := fun _ _ => Int.add_zero _
    simp only [List.filter_cons, List.filter_nil, htotal]
    by_cases hten : 864000000000000 = time
    · simp [← hten]
    · by_cases hfive : 432000000000000 = time
      · simp [← hfive]
      · simp [hten, hfive]
  rw [hselect, ← hsorted]
  exact ⟨hids, by decide⟩

end Retention

end Tuning
