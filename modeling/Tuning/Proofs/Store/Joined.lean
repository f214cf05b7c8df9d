import Tuning.Proofs.Store.Files

/-! # Joined paths

Following a joined path part by part passes through its initial parts and through nothing else. So a walk
along the path ends at the path, and making its directory puts an empty directory there, unless there is
one. -/

namespace Tuning

namespace Path

variable {p q done : Path} {part : String}

/-- Every part of a joined path leads one step on. -/
def IsJoined (p : Path) : Prop :=
  ∀ (q : Path) (part : String), q ++ [part] <+: p → q.followed part = q ++ [part]

theorem IsJoined.initial (h : p.IsJoined) (hq : q <+: p) : q.IsJoined :=
  fun r part hr => h r part (hr.trans hq)

theorem IsJoined.concat (h : p.IsJoined) (hpart : p.followed part = p ++ [part]) :
    IsJoined (p ++ [part]) := by
  intro q other hq
  rcases List.prefix_concat_iff.mp hq with heq | hq
  · obtain ⟨rfl, hother⟩ := List.append_inj' heq rfl
    rw [List.singleton_inj.mp hother]
    exact hpart
  · exact h q other hq

theorem IsJoined.ne_empty (h : p.IsJoined) : p ≠ [""] := by
  rintro rfl
  cases h [] "" (List.prefix_refl _)

theorem isJoined_nil : IsJoined [] := by
  intro q part hq
  simp at hq

theorem followed_name (hempty : part ≠ "") (hdot : part ≠ ".") (hdots : part ≠ "..") (p : Path) :
    p.followed part = p ++ [part] := by
  rw [followed, if_neg (by simp [hempty, hdot]), if_neg hdots]

/-- Behind double dots another one leads further up. -/
theorem up_of_up (h : p.up = p ++ [".."]) : (p ++ [".."]).up = p ++ [".."] ++ [".."] := by
  have habove : p.isAbove = true ∧ p ≠ ["/"] := by
    unfold up at h
    split_ifs at h with hroot habove
    · simp at h
    · exact ⟨habove, hroot⟩
    · have := congrArg List.length h
      simp at this
  have hdots : p.all (· == "..") = true := by
    have hp := habove.1
    rw [isAbove, Bool.or_eq_true, beq_iff_eq] at hp
    exact hp.resolve_left habove.2
  have habove' : isAbove (p ++ [".."]) = true := by
    rw [isAbove, List.all_append, hdots, Bool.or_eq_true]
    exact .inr rfl
  rw [up, if_neg habove.2, if_pos habove.1] at h
  have hroot : p ++ [".."] ≠ ["/"] := by
    rw [← h]
    simp
  rw [up, if_neg hroot, if_pos habove', ← h, List.cons_append, h]

theorem isJoined_step (h : IsJoined done.reverse) (part : String) :
    IsJoined (step done part).reverse := by
  unfold step
  split_ifs with hstay hdots
  · exact h
  · split
    · exact IsJoined.concat isJoined_nil rfl
    · next last rest =>
        rw [List.reverse_cons] at h
        split_ifs with hroot hup
        · rwa [List.reverse_cons]
        · subst hup
          have hlast := h rest.reverse ".." (List.prefix_refl _)
          rw [List.reverse_cons, List.reverse_cons]
          exact h.concat (up_of_up hlast)
        · exact h.initial (List.prefix_append _ _)
  · rw [not_or] at hstay
    rw [List.reverse_cons]
    exact h.concat (followed_name hstay.1 hstay.2 hdots _)

theorem isJoined_join (texts : List String) : IsJoined (join texts) := by
  have hfold : ∀ (parts : List String) (done : Path), IsJoined done.reverse →
      IsJoined (parts.foldl step done).reverse := by
    intro parts
    induction parts with
    | nil => exact fun done h => h
    | cons part parts ih => exact fun done h => ih _ (isJoined_step h part)
  refine hfold _ _ ?_
  split
  · exact IsJoined.concat isJoined_nil rfl
  · exact isJoined_nil

/-- A text that is one part of a path and leads one step down. -/
def IsComponent (name : String) : Prop :=
  name ≠ "" ∧ name ≠ "." ∧ name ≠ ".." ∧ '/' ∉ name.toList

instance (name : String) : Decidable (IsComponent name) :=
  inferInstanceAs (Decidable (_ ∧ _))

theorem IsComponent.isPlain (h : IsComponent part) (hname : isName part = true) :
    isPlain part = true := by
  obtain ⟨hempty, hdot, hdots, hslash⟩ := h
  have hroot : part ≠ "/" := by
    rintro rfl
    exact hslash (by decide)
  simp [Path.isPlain, hempty, hdot, hdots, hroot, hname]

theorem splitFrom_of_notMem {cs : List Char} (h : '/' ∉ cs) (current : List Char) :
    splitFrom current cs = [String.ofList (current.reverse ++ cs)] := by
  induction cs generalizing current with
  | nil => rw [splitFrom, List.append_nil]
  | cons c cs ih =>
      rw [List.mem_cons, not_or] at h
      rw [splitFrom, ih h.2]
      · simp
      · exact fun heq => h.1 heq.symm

/-- A part that is joined to texts stands behind their path. -/
theorem join_concat (h : IsComponent part) (texts : List String) :
    join (texts ++ [part]) = join texts ++ [part] := by
  obtain ⟨hempty, hdot, hdots, hslash⟩ := h
  have hsplit : split part = [part] := by
    rw [split, splitFrom_of_notMem hslash]
    simp
  have hrelative : isAbsolute part = false := by
    rw [isAbsolute, beq_eq_false_iff_ne]
    exact fun heq => hslash (List.mem_of_mem_head? heq)
  have hstart : ((texts ++ [part]).filter (· ≠ "")).head?.any isAbsolute =
      (texts.filter (· ≠ "")).head?.any isAbsolute := by
    rw [List.filter_append, List.head?_append]
    cases (texts.filter (· ≠ "")).head? with
    | none => simp [hempty, hrelative]
    | some first => rfl
  unfold join
  dsimp only
  rw [hstart, List.filter_append, List.flatMap_append, List.foldl_append]
  simp [hempty, hsplit, step, hdot, hdots]

end Path

namespace FileTree

variable {t t' : FileTree} {p q done rest d : Path} {part : String}

/-! ## Walking along joined paths -/

theorem walk_followed (hdone : t.seen done = some none) (hname : Path.isName part = true)
    (rest : Path) : t.walk done (part :: rest) = t.walk (done.followed part) rest := by
  rw [walk_cons, hdone, Path.followed]
  split_ifs <;> rfl

/-- A walk along a joined path ends at the path. -/
theorem walk_joined (h : Path.IsJoined (done ++ rest)) (hwalk : t.walk done rest = .ok d) :
    d = done ++ rest := by
  induction rest generalizing done with
  | nil => rw [walk_nil_eq_ok hwalk, List.append_nil]
  | cons part rest ih =>
      have hstep := h done part (by simp [List.prefix_append_right_inj])
      rw [List.append_cons] at h ⊢
      rw [walk_cons] at hwalk
      unfold Path.followed at hstep
      split at hwalk
      · cases hwalk
      · cases hwalk
      · split_ifs at hwalk hstep
        · simp at hstep
        · exact ih h (hstep ▸ hwalk)
        · exact ih h hwalk

/-- No file stands on the way to a path. -/
def Leads (t : FileTree) (p : Path) : Prop :=
  ∀ q, q <+: p → q ≠ p → ∀ text, t.at? q ≠ some (.file text)

theorem at?_append_of_none (h : t.at? p = none) (q : Path) : t.at? (p ++ q) = none := by
  unfold at? at h ⊢
  split at h
  · cases h
  · next hp =>
      rw [if_neg fun habove => hp (isAbove_of_initial (List.prefix_append p q) habove), find?_append, h]
      rfl

/-- A joined path that no file stands in the way of leads to where it says, if there is something. -/
theorem walk_of_leads (h : Path.IsJoined (done ++ rest)) (hleads : t.Leads (done ++ rest))
    (hnames : ∀ part ∈ rest, Path.isName part = true) :
    t.walk done rest =
      if (t.at? (done ++ rest)).isSome then .ok (done ++ rest) else .error .missing := by
  induction rest generalizing done with
  | nil => rw [walk, List.append_nil]
  | cons part rest ih =>
      obtain ⟨hpart, hrest⟩ := List.forall_mem_cons.mp hnames
      have hstep := h done part (by simp [List.prefix_append_right_inj])
      cases hdone : t.at? done with
      | none =>
          rw [walk_cons, seen, hdone, at?_append_of_none hdone]
          rfl
      | some u =>
          cases u with
          | file text =>
              have hne : done ≠ done ++ part :: rest := fun heq => by simp at heq
              exact absurd hdone (hleads done (List.prefix_append _ _) hne text)
          | directory es =>
              rw [walk_followed (seen_eq_none_iff.mpr ⟨es, hdone⟩) hpart, hstep,
                List.append_cons done part rest]
              rw [List.append_cons] at h hleads
              exact ih h hleads hrest

/-- A step of a walk along a joined path goes down. -/
theorem walk_cons_joined {es : List (String × FileTree)} (h : Path.IsJoined (done ++ part :: rest))
    (hdone : t.at? done = some (directory es)) :
    t.walk done (part :: rest) =
      if Path.isName part then t.walk (done ++ [part]) rest else .error .badName := by
  have hstep := h done part (by simp [List.prefix_append_right_inj])
  split
  · next hname => rw [walk_followed (seen_eq_none_iff.mpr ⟨es, hdone⟩) hname, hstep]
  · next hname =>
      have hempty : ¬(part = "" ∨ part = ".") := by
        rintro (rfl | rfl) <;> exact hname (by decide)
      have hdots : part ≠ ".." := by
        rintro rfl
        exact hname (by decide)
      rw [walk_cons, seen_eq_none_iff.mpr ⟨es, hdone⟩, if_neg hempty, if_neg hdots, if_neg hname]

theorem at?_of_walk_missing (h : Path.IsJoined (done ++ rest))
    (hwalk : t.walk done rest = .error .missing) : t.at? (done ++ rest) = none := by
  induction rest generalizing done with
  | nil =>
      rw [walk] at hwalk
      split at hwalk
      · cases hwalk
      · next hdone => rwa [List.append_nil, ← Option.not_isSome_iff_eq_none]
  | cons part rest ih =>
      cases hdone : t.at? done with
      | none => exact at?_append_of_none hdone _
      | some u =>
          cases u with
          | file text =>
              rw [walk_cons, seen, hdone] at hwalk
              cases hwalk
          | directory es =>
              rw [walk_cons_joined h hdone] at hwalk
              rw [List.append_cons] at h ⊢
              split_ifs at hwalk
              · exact ih h hwalk
              · cases hwalk

/-- A walk that does not end at a file or a bad name passes no file. -/
theorem not_file_of_walk (h : Path.IsJoined (done ++ rest))
    (hwalk : ∀ fault, t.walk done rest = .error fault → fault = .missing) (hq : q <+: rest)
    (hne : q ≠ rest) (text : String) : t.at? (done ++ q) ≠ some (.file text) := by
  induction rest generalizing done q with
  | nil => exact absurd (List.prefix_nil.mp hq) hne
  | cons part rest ih =>
      cases hdone : t.at? done with
      | none =>
          rw [at?_append_of_none hdone]
          simp
      | some u =>
          cases u with
          | file text =>
              rw [walk_cons, seen, hdone] at hwalk
              cases hwalk .notDirectory rfl
          | directory es =>
              rw [walk_cons_joined h hdone] at hwalk
              cases q with
              | nil =>
                  rw [List.append_nil, hdone]
                  simp
              | cons first q =>
                  obtain ⟨rfl, hinner⟩ := List.cons_prefix_cons.mp hq
                  rw [List.append_cons] at h ⊢
                  split_ifs at hwalk
                  · exact ih h hwalk hinner fun heq => hne (by rw [heq])
                  · cases hwalk .badName rfl

/-! ## Looking at joined paths -/

theorem resolve_joined (h : p.IsJoined) :
    t.resolve p = if p.isUsable then t.walk [] p else .error .badName := by
  rw [resolve, if_neg h.ne_empty]

/-- What a look along a joined path tells: what stands at the path, and that there is no file on the
way. -/
theorem at?_of_stat {place : Option FileTree} (h : p.IsJoined)
    (hstat : t.stat p = place.elim (.error .missing) .ok) :
    t.at? p = place ∧ p.isUsable = true ∧ t.Leads p := by
  have hjoined : Path.IsJoined ([] ++ p) := h
  unfold stat at hstat
  rw [resolve_joined h] at hstat
  cases husable : p.isUsable with
  | false =>
      rw [husable] at hstat
      cases place <;> cases hstat
  | true =>
      rw [husable, if_pos rfl] at hstat
      cases hwalk : t.walk [] p with
      | error fault =>
          rw [hwalk] at hstat
          cases place with
          | some u => cases hstat
          | none =>
              obtain rfl : fault = .missing := Except.error.inj hstat
              refine ⟨at?_of_walk_missing hjoined hwalk, rfl, fun q hq hne => ?_⟩
              refine not_file_of_walk hjoined ?_ hq hne
              rw [hwalk]
              exact fun fault heq => (Except.error.inj heq).symm
      | ok d =>
          obtain rfl : d = p := walk_joined hjoined hwalk
          rw [hwalk] at hstat
          refine ⟨?_, rfl, fun q hq hne => not_file_of_walk hjoined ?_ hq hne⟩
          · dsimp only at hstat
            cases hd : t.at? d <;> rw [hd] at hstat <;> cases place <;> cases hstat <;> rfl
          · rw [hwalk]
            exact fun fault heq => by cases heq

theorem resolve_of_leads (h : p.IsJoined) (husable : p.isUsable = true)
    (hnames : ∀ part ∈ p, Path.isName part = true) (hleads : t.Leads p) :
    t.resolve p = if (t.at? p).isSome then .ok p else .error .missing := by
  have hjoined : Path.IsJoined ([] ++ p) := h
  rw [resolve_joined h, if_pos husable, walk_of_leads hjoined hleads hnames, List.nil_append]

/-- A look along a joined path without a file on the way shows what stands there. -/
theorem stat_of_leads (h : p.IsJoined) (husable : p.isUsable = true)
    (hnames : ∀ part ∈ p, Path.isName part = true) (hleads : t.Leads p) :
    t.stat p = (t.at? p).elim (.error .missing) .ok := by
  rw [stat, resolve_of_leads h husable hnames hleads]
  cases hp : t.at? p with
  | none => rfl
  | some u =>
      rw [Option.isSome_some, if_pos rfl]
      dsimp only
      rw [hp]
      rfl

/-- A file is written into a directory that a path leads to, if no directory has its name. -/
theorem write_of_resolve {n : String} (hn : Path.isPlain n = true) (hp : t.resolve p = .ok d)
    (hd : t.seen d = some none) (husable : Path.isUsable (p ++ [n]) = true)
    (hplace : t.seen (d ++ [n]) ≠ some none) (text : String) :
    t.write (p ++ [n]) text = .ok (t.insert (d ++ [n]) (.file text)) := by
  obtain ⟨-, hwalk⟩ := resolve_eq_ok hp
  have hwrite : ∃ t', t.write (p ++ [n]) text = .ok t' := by
    have hresolve := resolve_append hn hwalk hd
    rw [if_pos husable] at hresolve
    split_ifs at hresolve with hfind
    · rw [write, hresolve]
      exact ⟨_, if_neg fun hany => hplace ((any_isDirectory t _).mp hany)⟩
    · exact exists_write_new hn hp hd hresolve text
  obtain ⟨t', ht'⟩ := hwrite
  obtain ⟨-, d', hwalk', -, -, rfl⟩ := write_eq_ok hn ht'
  rw [Except.ok.inj (hwalk.symm.trans hwalk')]
  exact ht'

/-- Where a new file can be written, its directory can be looked for. -/
theorem usable_of_write {n text : String} (h : p.IsJoined)
    (hn : Path.isPlain n = true) (hfind : t.find? (p ++ [n]) = none)
    (hwrite : t.write (p ++ [n]) text = .ok t') : p.isUsable = true := by
  have hjoined : Path.IsJoined ([] ++ p) := h
  obtain ⟨husable, d, hwalk, hdir, -, -⟩ := write_eq_ok hn hwrite
  obtain rfl : d = p := walk_joined hjoined hwalk
  have hmissing : t.resolve (d ++ [n]) = .error .missing := by
    rw [resolve_append hn hwalk hdir, if_pos husable, hfind]
    rfl
  unfold write at hwrite
  rw [hmissing, List.dropLast_concat] at hwrite
  dsimp only at hwrite
  split at hwrite
  · cases hwrite
  · next hparent => exact (resolve_eq_ok hparent).1

/-! ## Inserting below a path -/

theorem putEntry_congr {name : String} {put put' : Option FileTree → FileTree}
    {es : List (String × FileTree)} (h : put (es.lookup name) = put' (es.lookup name)) :
    putEntry name put es = putEntry name put' es := by
  rw [putEntry, putEntry, h]

/-- Inserting at a path is inserting into what stands on the way to it. -/
theorem insert_append (t : FileTree) (p q : Path) (new : FileTree) :
    t.insert (p ++ q) new = t.insert p (((t.find? p).getD {}).insert q new) := by
  induction p generalizing t with
  | nil => rfl
  | cons name rest ih =>
      rw [List.cons_append, insert, insert, find?_cons]
      refine congrArg directory (putEntry_congr ?_)
      rw [ih]
      cases t.entries.lookup name with
      | some u => rfl
      | none => cases rest <;> rfl

theorem filter_place (name : String) (u : FileTree) (es : List (String × FileTree)) :
    (place (name, u) es).filter (·.1 ≠ name) = es.filter (·.1 ≠ name) := by
  induction es with
  | nil => simp [place]
  | cons other es ih =>
      rw [place]
      split
      · rw [List.filter_cons_of_neg (by simp)]
      · rw [List.filter_cons, List.filter_cons, ih]

/-- What is inserted later takes the place of what was inserted before. -/
theorem insert_insert (t : FileTree) (p : Path) (old new : FileTree) :
    (t.insert p old).insert p new = t.insert p new := by
  induction p generalizing t with
  | nil => rfl
  | cons name rest ih =>
      rw [insert, insert, insert, entries]
      refine congrArg directory ?_
      rw [putEntry, lookup_putEntry, if_pos rfl, Option.getD_some, ih, putEntry, putEntry, filter_place,
        List.filter_filter]
      simp only [Bool.and_self]

theorem map_place {name : String} {es : List (String × FileTree)} (h : ∀ other ∈ es, other.1 ≠ name)
    (f : FileTree → FileTree) (u : FileTree) :
    ((place (name, u) es).map fun x => (x.1, if x.1 = name then f x.2 else x.2)) =
      place (name, f u) es := by
  have hkept : ∀ xs : List (String × FileTree), (∀ x ∈ xs, x.1 ≠ name) →
      (xs.map fun x => (x.1, if x.1 = name then f x.2 else x.2)) = xs := by
    intro xs hxs
    conv_rhs => rw [← List.map_id' xs]
    exact List.map_congr_left fun x hx => by rw [if_neg (hxs x hx)]
  induction es with
  | nil => simp [place]
  | cons other es ih =>
      obtain ⟨hother, hes⟩ := List.forall_mem_cons.mp h
      rw [place, place]
      split
      · rw [List.map_cons, hkept _ h, if_pos rfl]
      · rw [List.map_cons, ih hes, if_neg hother]

/-- Taking away from what was inserted is inserting what is left. -/
theorem erase_insert (t : FileTree) (p : Path) (hq : q ≠ []) (new : FileTree) :
    (t.insert p new).erase (p ++ q) = t.insert p (new.erase q) := by
  induction p generalizing t with
  | nil => rfl
  | cons name rest ih =>
      rw [insert, insert, List.cons_append, erase]
      · refine congrArg directory ((map_place (by simp) (·.erase (rest ++ q)) _).trans ?_)
        rw [ih]
        rfl
      · simp [hq]

theorem find?_insert_below (t : FileTree) (p q : Path) (new : FileTree) :
    (t.insert (p ++ q) new).find? p = some (((t.find? p).getD {}).insert q new) := by
  rw [insert_append, find?_insert_self]

theorem find?_erase_below (t : FileTree) (p : Path) (hq : q ≠ []) :
    (t.erase (p ++ q)).find? p = (t.find? p).map (·.erase q) := by
  induction p generalizing t with
  | nil => rfl
  | cons name rest ih =>
      rw [List.cons_append, find?_cons, lookup_entries_erase, if_pos rfl, if_neg (by simp [hq]), find?_cons]
      cases t.entries.lookup name with
      | none => rfl
      | some u => exact ih u

theorem leads_insert (t new : FileTree) (h : p <+: q) : (t.insert q new).Leads p := by
  intro r hr hne text hfile
  have hrq : r ≠ q := fun heq => hne (hr.eq_of_length_le (heq ▸ h.length_le))
  obtain ⟨es, hes⟩ := find?_insert_of_prefix t new (hr.trans h) hrq
  have hseen := seen_of_find? hes
  rw [seen, hfile] at hseen
  cases hseen

theorem Leads.erase (h : t.Leads p) (hq : q ≠ []) : (t.erase (p ++ q)).Leads p := by
  intro r hr hne text hfile
  have hapart : ¬p ++ q <+: r := fun hpr => by
    have hlength := hpr.length_le.trans hr.length_le
    rw [List.length_append] at hlength
    exact hq (List.length_eq_zero_iff.mp (by omega))
  rw [← seen_eq_file_iff, seen_congr (text?_find?_erase t hapart), seen_eq_file_iff] at hfile
  exact h r hr hne text hfile

theorem not_isAbove_of_at? (h : t.at? p = none) : p.isAbove = false := by
  unfold at? at h
  split at h
  · cases h
  · next habove => simpa using habove

/-- Below a new directory there is nothing. -/
theorem at?_insert_below (h : t.at? p = none) (hq : q ≠ []) :
    (t.insert p {}).at? (p ++ q) = none := by
  have habove : Path.isAbove (p ++ q) = false := Bool.eq_false_iff.mpr fun hup =>
    Bool.eq_false_iff.mp (not_isAbove_of_at? h) (isAbove_of_initial (List.prefix_append _ _) hup)
  rw [at?, habove]
  exact (find?_insert_append _ _ _ _).trans (find?_of_entries_eq_nil rfl hq)

/-! ## Making directories -/

theorem isName_of_makeFrom {used : Nat} (hmake : t.makeFrom used done rest = (.ok (), t')) :
    ∀ part ∈ rest, Path.isName part = true := by
  induction rest generalizing t done used with
  | nil => simp
  | cons part rest ih =>
      rw [makeFrom] at hmake
      dsimp only at hmake
      split at hmake
      · cases hmake
      · next hpart =>
          have hname : Path.isName part = true := by
            rw [not_or] at hpart
            simpa using hpart.2
          refine List.forall_mem_cons.mpr ⟨hname, ?_⟩
          split at hmake
          · exact ih hmake
          · cases hmake
          · exact ih hmake

/-- A directory that can be made in one tree can be made in another one without files in its way. -/
theorem exists_makeFrom {used : Nat} {u u' : FileTree} (h : Path.IsJoined (done ++ rest))
    (hmake : u.makeFrom used done rest = (.ok (), u'))
    (hfree : ∀ q, q ≠ [] → q <+: rest → ∀ text, t.at? (done ++ q) ≠ some (.file text)) :
    ∃ t', t.makeFrom used done rest = (.ok (), t') := by
  induction rest generalizing t u done used with
  | nil => exact ⟨t, rfl⟩
  | cons part rest ih =>
      have hstep := h done part (by simp [List.prefix_append_right_inj])
      rw [List.append_cons] at h
      have hinner : ∀ q, q ≠ [] → q <+: rest → ∀ text,
          t.at? (done ++ [part] ++ q) ≠ some (.file text) := by
        intro q _ hq
        rw [List.append_assoc]
        exact hfree ([part] ++ q) (by simp) (List.cons_prefix_cons.mpr ⟨rfl, hq⟩)
      rw [makeFrom, hstep] at hmake ⊢
      dsimp only at hmake ⊢
      split at hmake
      · cases hmake
      · next hpart =>
          rw [if_neg hpart]
          obtain ⟨v, hrest⟩ : ∃ v, makeFrom (used + part.utf8ByteSize + 1) (done ++ [part]) rest v =
              (.ok (), u') := by
            split at hmake
            · exact ⟨_, hmake⟩
            · cases hmake
            · exact ⟨_, hmake⟩
          split
          · exact ih h hrest hinner
          · next text hfile =>
              have hfirst : [part] <+: part :: rest := List.cons_prefix_cons.mpr ⟨rfl, List.nil_prefix⟩
              exact absurd hfile (hfree [part] (by simp) hfirst text)
          · next hmissing =>
              refine ih h hrest fun q hq _ text => ?_
              rw [at?_insert_below hmissing hq]
              simp

/-- Making the directory of a joined path puts an empty directory there, unless there is one. -/
theorem makeFrom_joined {used : Nat} (h : Path.IsJoined (done ++ rest))
    (hdone : (t.at? done).isSome = true) (hmake : t.makeFrom used done rest = (.ok (), t')) :
    t' = if (t.at? (done ++ rest)).isSome then t else t.insert (done ++ rest) {} := by
  induction rest generalizing t done used with
  | nil =>
      rw [List.append_nil, if_pos hdone]
      exact (Prod.mk.inj hmake).2.symm
  | cons part rest ih =>
      have hstep := h done part (by simp [List.prefix_append_right_inj])
      rw [List.append_cons] at h ⊢
      rw [makeFrom, hstep] at hmake
      dsimp only at hmake
      split at hmake
      · cases hmake
      · split at hmake
        · next es hnext => exact ih h (by rw [hnext]; rfl) hmake
        · cases hmake
        · next hnext =>
            have habove := not_isAbove_of_at? hnext
            have hmissing : t.find? (done ++ [part]) = none := by
              rwa [at?, habove] at hnext
            have hmade : (t.insert (done ++ [part]) {}).at? (done ++ [part]) = some {} := by
              rw [at?, habove]
              exact find?_insert_self _ _ _
            have hgone : t.at? (done ++ [part] ++ rest) = none := at?_append_of_none hnext rest
            rw [hgone, ih h (by rw [hmade]; rfl) hmake, if_neg (show ¬none.isSome = true by simp)]
            cases rest with
            | nil =>
                rw [List.append_nil, hmade]
                rfl
            | cons next rest =>
                rw [at?_insert_below hnext (List.cons_ne_nil _ _),
                  if_neg (show ¬none.isSome = true by simp), insert_append, find?_insert_self,
                  insert_insert, insert_append t (done ++ [part]), hmissing]
                rfl

end FileTree

namespace FileAction

open FileTree

variable {t u u' : FileTree} {p : Path}

/-- What making the directory of a joined path does, if it can be made at all and no file is in its
way. -/
theorem run_makeDirectory (h : p.IsJoined) (hmake : (makeDirectory p).run u = (.ok (), u'))
    (hleads : t.Leads p) (hp : ∀ text, t.at? p ≠ some (.file text)) :
    (makeDirectory p).run t = (.ok (), if (t.at? p).isSome then t else t.insert p {}) := by
  have hjoined : Path.IsJoined ([] ++ p) := h
  have hrun : ∀ v : FileTree, (makeDirectory p).run v = v.makeFrom 0 [] p := by
    intro v
    rw [makeDirectory, if_neg h.ne_empty]
    rfl
  rw [hrun] at hmake ⊢
  obtain ⟨t', ht'⟩ := exists_makeFrom hjoined hmake (t := t) fun q _ hq text => by
    by_cases hne : q = p
    · exact hne ▸ hp text
    · exact hleads q hq hne text
  rw [ht', makeFrom_joined hjoined rfl ht']
  rfl

end FileAction

end Tuning
