import Tuning.Proofs.Store.Joined

/-! # What changes to a tree of files leave alone

A few files change, and directories are made on the way to them. Along any other joined path the same is
seen, so a look ends with the same file or the same error, unless it missed a directory that is made. -/

namespace Tuning

namespace FileTree

variable {t t' u : FileTree} {d p q done rest : Path} {part n text : String}

/-! ## Changes to a few files -/

/-- Only the files at some paths change, and directories may be made on the way to another path. What was
below one of the files may be seen in another way, but no file is made or lost there. -/
structure Confined (d : Path) (ps : List Path) (t t' : FileTree) : Prop where
  files : ∀ q, q ∉ ps → ∀ text, t'.seen q = some (some text) ↔ t.seen q = some (some text)
  places : ∀ q, (∀ p ∈ ps, ¬p <+: q) →
    t'.seen q = t.seen q ∨ q <+: d ∧ t.seen q = none ∧ t'.seen q = some none

namespace Confined

variable {ps : List Path}

theorem refl (d : Path) (ps : List Path) (t : FileTree) : Confined d ps t t :=
  ⟨fun _ _ _ => .rfl, fun _ _ => .inl rfl⟩

theorem trans (h : Confined d ps t u) (h' : Confined d ps u t') : Confined d ps t t' := by
  refine ⟨fun q hq text => (h'.files q hq text).trans (h.files q hq text), fun q hq => ?_⟩
  rcases h.places q hq with hsame | ⟨hqd, hnone, hmade⟩
  · rcases h'.places q hq with hsame' | ⟨hqd, hnone, hmade⟩
    · exact .inl (hsame'.trans hsame)
    · exact .inr ⟨hqd, hsame.symm.trans hnone, hmade⟩
  · rcases h'.places q hq with hsame' | ⟨-, hnone', -⟩
    · exact .inr ⟨hqd, hnone, hsame'.trans hmade⟩
    · rw [hmade] at hnone'
      cases hnone'

/-- Where directories are made at most, no file is made or lost. -/
theorem of_places (h : ∀ q, t'.seen q = t.seen q ∨ q <+: d ∧ t.seen q = none ∧ t'.seen q = some none)
    (ps : List Path) : Confined d ps t t' := by
  refine ⟨fun q _ text => ?_, fun q _ => h q⟩
  rcases h q with hsame | ⟨-, hnone, hmade⟩
  · rw [hsame]
  · rw [hnone, hmade]
    simp

end Confined

/-- On the way to what is put into a tree there are directories. -/
theorem seen_insert_initial (t new : FileTree) (hqp : q <+: p) (hne : q ≠ p) :
    (t.insert p new).seen q = some none := by
  obtain ⟨es, hes⟩ := find?_insert_of_prefix t new hqp hne
  exact seen_of_find? hes

theorem seen_insert_apart (t new : FileTree) (hpq : ¬p <+: q) (hqp : ¬q <+: p) :
    (t.insert p new).seen q = t.seen q :=
  seen_congr (congrArg _ (find?_insert_of_apart t new hpq hqp))

/-- On the way to a file there are directories. -/
theorem seen_of_file_below (hq : q ≠ []) (h : t.seen (p ++ q) = some (some text)) :
    t.seen p = some none := by
  have hfind : (t.find? (p ++ q)).isSome = true := by
    cases habove : (p ++ q).isAbove with
    | false =>
        rw [seen_of_not_isAbove habove] at h
        simpa using congrArg Option.isSome h
    | true =>
        rw [seen_of_isAbove habove] at h
        cases hfind : t.find? (p ++ q) with
        | none =>
            rw [hfind] at h
            cases h
        | some u => rfl
  obtain ⟨es, hes⟩ := isDirectory_of_find?_append hq hfind
  exact seen_of_find? hes

/-- Below what is no directory there is no file. -/
theorem not_file_below (hp : t.seen p ≠ some none) (hpq : p <+: q) (hne : q ≠ p) :
    t.seen q ≠ some (some text) := by
  obtain ⟨r, rfl⟩ := hpq
  have hr : r ≠ [] := fun hr => hne (by rw [hr, List.append_nil])
  exact fun hfile => hp (seen_of_file_below hr hfile)

theorem confined_insert (hdone : ∀ q, q <+: done → t.seen q = some none)
    (hnew : t.at? (done ++ [part]) = none) (hd : done ++ [part] <+: d) (ps : List Path) :
    Confined d ps t (t.insert (done ++ [part]) {}) := by
  refine .of_places (fun q => ?_) ps
  by_cases hpq : done ++ [part] <+: q
  · obtain ⟨r, rfl⟩ := hpq
    by_cases hr : r = []
    · have hnone : t.seen (done ++ [part]) = none := congrArg (Option.map text?) hnew
      rw [hr, List.append_nil]
      exact .inr ⟨hd, hnone, seen_of_find? (find?_insert_self _ _ _)⟩
    · left
      rw [seen, seen, at?_insert_below hnew hr, at?_append_of_none hnew]
  · left
    by_cases hqp : q <+: done ++ [part]
    · have hne : q ≠ done ++ [part] := fun heq => hpq (heq ▸ List.prefix_refl _)
      have hqdone := prefix_of_strict_prefix hqp hne
      rw [seen_insert_initial _ _ hqp hne, hdone q hqdone]
    · exact seen_insert_apart _ _ hpq hqp

/-- Making a directory makes the directories on the way to it, and those only. -/
theorem confined_makeFrom (used : Nat) (h : Path.IsJoined (done ++ rest))
    (hdone : ∀ q, q <+: done → t.seen q = some none) (ps : List Path) :
    Confined (done ++ rest) ps t (t.makeFrom used done rest).2 := by
  induction rest generalizing used done t with
  | nil => exact .refl _ _ _
  | cons part rest ih =>
      have hstep := h done part (by simp [List.prefix_append_right_inj])
      rw [List.append_cons] at h ⊢
      rw [makeFrom, hstep]
      dsimp only
      split
      · exact .refl _ _ _
      · split
        · next es hnext =>
            refine ih _ h fun q hq => ?_
            rcases List.prefix_concat_iff.mp hq with rfl | hq
            · exact seen_eq_none_iff.mpr ⟨es, hnext⟩
            · exact hdone q hq
        · exact .refl _ _ _
        · next hnext =>
            have hmade := confined_insert hdone hnext (List.prefix_append _ rest) ps
            refine hmade.trans (ih _ h fun q hq => ?_)
            by_cases hne : q = done ++ [part]
            · exact hne ▸ seen_of_find? (find?_insert_self _ _ _)
            · exact seen_insert_initial _ _ hq hne

/-- A walk along a joined path that arrives passes directories, by names. -/
theorem passed_of_walk (h : Path.IsJoined (done ++ rest)) (hwalk : t.walk done rest = .ok p) :
    (∀ part ∈ rest, Path.isName part = true) ∧
      ∀ q, q <+: rest → q ≠ rest → t.seen (done ++ q) = some none := by
  induction rest generalizing done with
  | nil => exact ⟨by simp, fun q hq hne => absurd (List.prefix_nil.mp hq) hne⟩
  | cons part rest ih =>
      have hseen : t.seen done = some none := by
        rw [walk_cons] at hwalk
        split at hwalk
        · cases hwalk
        · cases hwalk
        · next hseen => exact hseen
      obtain ⟨es, hes⟩ := seen_eq_none_iff.mp hseen
      rw [walk_cons_joined h hes] at hwalk
      split_ifs at hwalk with hname
      rw [List.append_cons] at h
      obtain ⟨hnames, hpassed⟩ := ih h hwalk
      refine ⟨List.forall_mem_cons.mpr ⟨hname, hnames⟩, fun q hq hne => ?_⟩
      cases q with
      | nil => rwa [List.append_nil]
      | cons first q =>
          obtain ⟨rfl, hinner⟩ := List.cons_prefix_cons.mp hq
          rw [List.append_cons]
          exact hpassed q hinner fun heq => hne (by rw [heq])

/-- Writing a file changes no other one. -/
theorem confined_write {ps : List Path} (hn : Path.isPlain n = true) (h : d.IsJoined)
    (hps : d ++ [n] ∈ ps) (hwrite : t.write (d ++ [n]) text = .ok t') :
    Confined d ps t t' ∧ t'.seen (d ++ [n]) = some (some text) := by
  have hjoined : Path.IsJoined ([] ++ d) := h
  obtain ⟨-, d', hwalk, hdir, hplace, rfl⟩ := write_eq_ok hn hwrite
  obtain rfl : d' = d := walk_joined hjoined hwalk
  have hwritten : (t.insert (d' ++ [n]) (.file text)).seen (d' ++ [n]) = some (some text) := by
    rw [seen_of_not_isAbove (not_isAbove_append hn d'), find?_insert_self]
    rfl
  have hkept : ∀ q, ¬d' ++ [n] <+: q → (t.insert (d' ++ [n]) (.file text)).seen q = t.seen q := by
    intro q hpq
    by_cases hqp : q <+: d' ++ [n]
    · have hne : q ≠ d' ++ [n] := fun heq => hpq (heq ▸ List.prefix_refl _)
      have hqd := prefix_of_strict_prefix hqp hne
      rw [seen_insert_initial _ _ hqp hne]
      by_cases heq : q = d'
      · rw [heq, hdir]
      · exact ((passed_of_walk hjoined hwalk).2 q hqd heq).symm
    · exact seen_insert_apart _ _ hpq hqp
  refine ⟨⟨fun q hq other => ?_, fun q hq => .inl (hkept q (hq _ hps))⟩, hwritten⟩
  by_cases hpq : d' ++ [n] <+: q
  · -- neither what was there nor the file is a directory
    have hne : q ≠ d' ++ [n] := fun heq => hq (heq ▸ hps)
    exact iff_of_false (not_file_below (by rw [hwritten]; simp) hpq hne) (not_file_below hplace hpq hne)
  · rw [hkept q hpq]

theorem remove_joined (h : p.IsJoined) (hremove : t.remove p = .ok t') :
    p.isAbove = false ∧ t' = t.erase p := by
  have hjoined : Path.IsJoined ([] ++ p) := h
  unfold remove at hremove
  split at hremove
  · cases hremove
  · next q hq =>
      obtain rfl : q = p := walk_joined hjoined (resolve_eq_ok hq).2
      split_ifs at hremove with habove
      exact ⟨by simpa using habove, (Except.ok.inj hremove).symm⟩

theorem at?_erase_below (habove : p.isAbove = false) (hpq : p <+: q) : (t.erase p).at? q = none := by
  obtain ⟨r, rfl⟩ := hpq
  have hne : p ≠ [] := by
    rintro rfl
    cases habove
  have hbelow : Path.isAbove (p ++ r) = false := Bool.eq_false_iff.mpr fun hup =>
    Bool.eq_false_iff.mp habove (isAbove_of_initial (List.prefix_append _ _) hup)
  rw [at?, hbelow]
  exact find?_erase_append t hne r

/-- Taking away a file changes no other one. -/
theorem confined_remove {ps : List Path} (h : p.IsJoined) (hps : p ∈ ps)
    (hfile : t.seen p = some (some text)) (hremove : t.remove p = .ok t') : Confined d ps t t' := by
  obtain ⟨habove, rfl⟩ := remove_joined h hremove
  refine ⟨fun q hq other => ?_, fun q hq => .inl (seen_congr (text?_find?_erase t (hq p hps)))⟩
  by_cases hpq : p <+: q
  · have hne : q ≠ p := fun heq => hq (heq ▸ hps)
    refine iff_of_false ?_ (not_file_below (by rw [hfile]; simp) hpq hne)
    rw [seen, at?_erase_below habove hpq]
    simp
  · rw [seen_congr (text?_find?_erase t hpq)]

/-! ## Looking along joined paths -/

/-- What a look along a joined path sees. -/
theorem text?_stat_joined (h : p.IsJoined) :
    (t.stat p).map text? = if p.isUsable then (t.walk [] p).bind fun _ =>
      (t.seen p).elim (.error .missing) .ok else .error .badName := by
  have hjoined : Path.IsJoined ([] ++ p) := h
  rw [stat, resolve_joined h]
  cases husable : p.isUsable with
  | false => rfl
  | true =>
      rw [if_pos rfl, if_pos rfl]
      cases hwalk : t.walk [] p with
      | error fault => rfl
      | ok q =>
          obtain rfl : q = p := walk_joined hjoined hwalk
          dsimp only [Except.bind]
          rw [seen]
          cases t.at? q <;> rfl

theorem leads_of_file (hfile : t.seen p = some (some text)) : t.Leads p := by
  rintro q ⟨r, rfl⟩ hne other hother
  have hr : r ≠ [] := fun hr => hne (by rw [hr, List.append_nil])
  rw [← seen_eq_file_iff, seen_of_file_below hr hfile] at hother
  cases hother

/-- A file at a joined path of names is found. -/
theorem stat_eq_file_iff_seen (h : p.IsJoined) :
    t.stat p = .ok (.file text) ↔ p.isUsable = true ∧ (∀ part ∈ p, Path.isName part = true) ∧
      t.seen p = some (some text) := by
  have hjoined : Path.IsJoined ([] ++ p) := h
  constructor
  · intro hstat
    have hplace : t.stat p = (some (FileTree.file text)).elim (.error .missing) .ok := hstat
    obtain ⟨hfile, husable, -⟩ := at?_of_stat h hplace
    rw [stat, resolve_joined h, if_pos husable] at hstat
    cases hwalk : t.walk [] p with
    | error fault =>
        rw [hwalk] at hstat
        cases hstat
    | ok q => exact ⟨husable, (passed_of_walk hjoined hwalk).1, seen_eq_file_iff.mpr hfile⟩
  · rintro ⟨husable, hnames, hfile⟩
    rw [stat_of_leads h husable hnames (leads_of_file hfile), seen_eq_file_iff.mp hfile]
    rfl

/-- Along a path nothing changes but that directories are made. -/
def Grows (p : Path) (t t' : FileTree) : Prop :=
  ∀ q, q <+: p → t'.seen q = t.seen q ∨ t.seen q = none ∧ t'.seen q = some none

/-- Where directories are made, a walk ends as before, or may go on where it missed one. -/
theorem walk_of_grows (h : Path.IsJoined (done ++ rest)) (hgrows : Grows (done ++ rest) t t') :
    t'.walk done rest = t.walk done rest ∨ t.walk done rest = .error .missing := by
  induction rest generalizing done with
  | nil =>
      have hiff (u : FileTree) : u.walk done [] =
          if (u.seen done).isSome then .ok done else .error .missing := by
        rw [walk, seen, Option.isSome_map]
      rw [hiff, hiff]
      rcases hgrows done (List.prefix_append _ _) with hsame | ⟨hnone, -⟩
      · rw [hsame]
        exact .inl rfl
      · rw [hnone]
        exact .inr rfl
  | cons part rest ih =>
      rcases hgrows done (List.prefix_append _ _) with hsame | ⟨hnone, -⟩
      · cases hdone : t.seen done with
        | none =>
            rw [walk_cons t, hdone]
            exact .inr rfl
        | some kind =>
            rw [hdone] at hsame
            cases kind with
            | some text =>
                rw [walk_cons, walk_cons, hsame, hdone]
                exact .inl rfl
            | none =>
                obtain ⟨es, hes⟩ := seen_eq_none_iff.mp hdone
                obtain ⟨es', hes'⟩ := seen_eq_none_iff.mp hsame
                rw [walk_cons_joined h hes, walk_cons_joined h hes']
                rw [List.append_cons] at h hgrows
                split
                · exact ih h hgrows
                · exact .inl rfl
      · rw [walk_cons t, hnone]
        exact .inr rfl

/-- A look along a path on which directories are made sees the same, or missed one before. -/
theorem text?_stat_of_grows (h : p.IsJoined) (hgrows : Grows p t t') (hp : t'.seen p = t.seen p) :
    (t'.stat p).map text? = (t.stat p).map text? ∨ (t.stat p).map text? = .error .missing := by
  have hjoined : Path.IsJoined ([] ++ p) := h
  rw [text?_stat_joined h, text?_stat_joined h, hp]
  split
  · rcases walk_of_grows hjoined hgrows with hsame | hmissing
    · exact .inl (by rw [hsame])
    · exact .inr (by rw [hmissing]; rfl)
  · exact .inl rfl

theorem text?_stat_of_same (h : p.IsJoined) (hsame : ∀ q, q <+: p → t'.seen q = t.seen q) :
    (t'.stat p).map text? = (t.stat p).map text? := by
  have hp := hsame p (List.prefix_refl _)
  rcases text?_stat_of_grows h (fun q hq => .inl (hsame q hq)) hp with heq | hmissing
  · exact heq
  · rcases text?_stat_of_grows h (fun q hq => .inl (hsame q hq).symm) hp.symm with heq | hmissing'
    · exact heq.symm
    · rw [hmissing, hmissing']

/-- Along names nothing is seen of directories that are made on the way. -/
theorem stat_missing_of_grows (h : p.IsJoined) (hnames : ∀ part ∈ p, Path.isName part = true)
    (hgrows : Grows p t t') (hp : t'.seen p = t.seen p) (hstat : t.stat p = .error .missing) :
    t'.stat p = .error .missing := by
  have hplace : t.stat p = (none : Option FileTree).elim (.error .missing) .ok := hstat
  obtain ⟨hnone, husable, hleads⟩ := at?_of_stat h hplace
  have hleads' : t'.Leads p := by
    intro q hq hne text hfile
    rw [← seen_eq_file_iff] at hfile
    rcases hgrows q hq with hsame | ⟨-, hmade⟩
    · exact hleads q hq hne text (seen_eq_file_iff.mp (hsame.symm.trans hfile))
    · rw [hmade] at hfile
      cases hfile
  have hnone' : t'.at? p = none := by
    have hseen : t'.seen p = none := hp.trans (congrArg (Option.map text?) hnone)
    exact Option.map_eq_none_iff.mp hseen
  rw [stat_of_leads h husable hnames hleads', hnone']
  rfl

end FileTree

end Tuning
