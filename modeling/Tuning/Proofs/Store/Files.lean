import Tuning.Proofs.Finite.Entries
import Tuning.Store.Basic

/-! # What actions leave in a tree of files

A file that is written is there. What is done beside it, in the same directory or on the way to it,
leaves it there. -/

namespace Tuning

namespace FileTree

variable {t t' : FileTree} {p q : Path}

/-! ## Entries -/

theorem lookup_place {e : String × FileTree} {es : List (String × FileTree)}
    (h : ∀ f ∈ es, f.1 ≠ e.1) (name : String) : (place e es).lookup name = (e :: es).lookup name := by
  induction es with
  | nil => rfl
  | cons f es ih =>
      obtain ⟨hf, hes⟩ := List.forall_mem_cons.mp h
      rw [place]
      split
      · rfl
      · simp only [lookup_cons_eq, ih hes]
        split_ifs with hname he
        · exact absurd (hname.symm.trans he) hf
        all_goals rfl

theorem lookup_putEntry (name other : String) (put : Option FileTree → FileTree)
    (es : List (String × FileTree)) :
    (putEntry name put es).lookup other =
      if other = name then some (put (es.lookup name)) else es.lookup other := by
  rw [putEntry, lookup_place (by simp), lookup_cons_eq, lookup_filter_ne]
  split_ifs <;> rfl

/-! ## Paths of names -/

theorem find?_cons (t : FileTree) (name : String) (rest : Path) :
    t.find? (name :: rest) = (t.entries.lookup name).bind (·.find? rest) := by
  rw [find?]
  cases t.entries.lookup name <;> rfl

theorem find?_append (t : FileTree) (p q : Path) :
    t.find? (p ++ q) = (t.find? p).bind (·.find? q) := by
  induction p generalizing t with
  | nil => rfl
  | cons name rest ih =>
      rw [List.cons_append, find?_cons, find?_cons, Option.bind_assoc]
      exact congrArg _ (funext ih)

/-- There is nothing below a tree without entries. -/
theorem find?_of_entries_eq_nil (h : t.entries = []) (hp : p ≠ []) : t.find? p = none := by
  obtain ⟨name, rest, rfl⟩ := List.exists_cons_of_ne_nil hp
  rw [find?_cons, h]
  rfl

theorem find?_insert_append (t : FileTree) (p q : Path) (new : FileTree) :
    (t.insert p new).find? (p ++ q) = new.find? q := by
  induction p generalizing t with
  | nil => rfl
  | cons name rest ih =>
      rw [insert, List.cons_append, find?_cons, entries, lookup_putEntry, if_pos rfl]
      exact ih _

theorem find?_insert_self (t : FileTree) (p : Path) (new : FileTree) :
    (t.insert p new).find? p = some new := by
  have := find?_insert_append t p [] new
  rwa [List.append_nil] at this

/-- On the way to what is inserted there are directories. -/
theorem find?_insert_of_prefix (t new : FileTree) (hqp : q <+: p) (hne : q ≠ p) :
    ∃ es, (t.insert p new).find? q = some (directory es) := by
  induction q generalizing t p with
  | nil =>
      obtain ⟨name, rest, rfl⟩ := List.exists_cons_of_ne_nil hne.symm
      exact ⟨_, rfl⟩
  | cons name q ih =>
      obtain ⟨rest, rfl⟩ := hqp
      rw [List.cons_append, insert, find?_cons, entries, lookup_putEntry, if_pos rfl]
      exact ih _ (List.prefix_append q rest) fun h => hne (by rw [List.cons_append, ← h])

/-- What stands neither on the way to a path nor below it does not change with an insertion. -/
theorem find?_insert_of_apart (t new : FileTree) (hpq : ¬p <+: q) (hqp : ¬q <+: p) :
    (t.insert p new).find? q = t.find? q := by
  induction p generalizing t q with
  | nil => exact absurd List.nil_prefix hpq
  | cons name rest ih =>
      cases q with
      | nil => exact absurd List.nil_prefix hqp
      | cons other q =>
          rw [insert, find?_cons, entries, lookup_putEntry, find?_cons]
          split
          · next hname =>
              subst hname
              have hinner := ih ((t.entries.lookup other).getD {}) (q := q)
                (fun h => hpq (List.cons_prefix_cons.mpr ⟨rfl, h⟩))
                (fun h => hqp (List.cons_prefix_cons.mpr ⟨rfl, h⟩))
              rw [Option.bind_some, hinner]
              cases t.entries.lookup other with
              | some u => rfl
              | none =>
                  refine find?_of_entries_eq_nil rfl fun h => hqp ?_
                  exact h ▸ List.cons_prefix_cons.mpr ⟨rfl, List.nil_prefix⟩
          · rfl

/-- The text of a file. -/
def text? : FileTree → Option String
  | file text => some text
  | directory _ => none

theorem lookup_map (es : List (String × FileTree)) (f : String → FileTree → FileTree) (name : String) :
    (es.map fun e => (e.1, f e.1 e.2)).lookup name = (es.lookup name).map (f name) := by
  induction es with
  | nil => rfl
  | cons e es ih =>
      rw [List.map_cons, lookup_cons_eq, lookup_cons_eq, ih]
      split_ifs with h
      · rw [h]
        rfl
      · rfl

theorem lookup_entries_erase (t : FileTree) (name other : String) (rest : Path) :
    (t.erase (name :: rest)).entries.lookup other =
      if other = name then if rest = [] then none else (t.entries.lookup name).map (·.erase rest)
      else t.entries.lookup other := by
  cases t with
  | file text => cases rest <;> simp [erase, entries]
  | directory es =>
      cases rest with
      | nil =>
          rw [erase, entries, lookup_filter_ne, if_pos rfl]
          rfl
      | cons next rest =>
          have hmap := lookup_map es (fun o t => if o = name then t.erase (next :: rest) else t) other
          rw [erase, entries]
          · refine hmap.trans ?_
            by_cases hother : other = name
            · simp only [hother, ↓reduceIte, List.cons_ne_nil, entries]
            · simp only [hother, ↓reduceIte, Option.map_id', entries]
          · exact List.cons_ne_nil _ _

theorem find?_erase_append (t : FileTree) (hp : p ≠ []) (q : Path) :
    (t.erase p).find? (p ++ q) = none := by
  induction p generalizing t with
  | nil => exact absurd rfl hp
  | cons name rest ih =>
      rw [List.cons_append, find?_cons, lookup_entries_erase, if_pos rfl]
      split_ifs with hrest
      · rfl
      · cases t.entries.lookup name with
        | none => rfl
        | some u => exact ih u hrest

/-- What is not below a path keeps its kind and its text when the path is taken away. -/
theorem text?_find?_erase (t : FileTree) (hpq : ¬p <+: q) :
    ((t.erase p).find? q).map text? = (t.find? q).map text? := by
  induction p generalizing t q with
  | nil => exact absurd List.nil_prefix hpq
  | cons name rest ih =>
      cases q with
      | nil =>
          cases t with
          | file text => cases rest <;> rfl
          | directory es => cases rest <;> rfl
      | cons other q =>
          rw [find?_cons, lookup_entries_erase, find?_cons]
          split_ifs with hname hrest
          · subst hrest
            exact absurd (List.cons_prefix_cons.mpr ⟨hname.symm, List.nil_prefix⟩) hpq
          · rw [hname]
            cases t.entries.lookup name with
            | none => rfl
            | some u => exact ih u fun h => hpq (List.cons_prefix_cons.mpr ⟨hname.symm, h⟩)
          · rfl

/-! ## Joined paths -/

/-- What is seen at a joined path, if anything: the text of a file, or that there is a directory. -/
def seen (t : FileTree) (p : Path) : Option (Option String) :=
  (t.at? p).map text?

theorem seen_eq_none_iff : t.seen p = some none ↔ ∃ es, t.at? p = some (directory es) := by
  unfold seen
  cases t.at? p with
  | none => simp
  | some u => cases u <;> simp [text?]

theorem seen_eq_file_iff {text : String} :
    t.seen p = some (some text) ↔ t.at? p = some (file text) := by
  unfold seen
  cases t.at? p with
  | none => simp
  | some u => cases u <;> simp [text?]

theorem seen_of_not_isAbove (hp : p.isAbove = false) : t.seen p = (t.find? p).map text? := by
  rw [seen, at?, hp]
  rfl

theorem seen_of_isAbove (hp : p.isAbove = true) :
    t.seen p = some (((t.find? p).map text?).getD none) := by
  rw [seen, at?, hp]
  cases t.find? p <;> rfl

theorem seen_congr (h : (t'.find? p).map text? = (t.find? p).map text?) : t'.seen p = t.seen p := by
  cases hp : p.isAbove with
  | false => rw [seen_of_not_isAbove hp, seen_of_not_isAbove hp, h]
  | true => rw [seen_of_isAbove hp, seen_of_isAbove hp, h]

/-- Where there is a directory, a directory stands, unless the path stays above all that is known. -/
theorem seen_of_find? {es : List (String × FileTree)} (h : t.find? p = some (directory es)) :
    t.seen p = some none := by
  cases hp : p.isAbove with
  | false => rw [seen_of_not_isAbove hp, h]; rfl
  | true => rw [seen_of_isAbove hp, h]; rfl

/-- Below a file there is nothing. -/
theorem isDirectory_of_find?_append (hq : q ≠ []) (h : (t.find? (p ++ q)).isSome = true) :
    ∃ es, t.find? p = some (directory es) := by
  rw [find?_append] at h
  cases hp : t.find? p with
  | none => simp [hp] at h
  | some u =>
      cases u with
      | directory es => exact ⟨es, rfl⟩
      | file text =>
          rw [hp, Option.bind_some, find?_of_entries_eq_nil rfl hq] at h
          cases h

/-- Directories stay directories. -/
def Keeps (t t' : FileTree) : Prop :=
  ∀ q, t.seen q = some none → t'.seen q = some none

theorem keeps_insert {new : FileTree} (hnew : new.entries = []) (hp : t.seen p ≠ some none) :
    t.Keeps (t.insert p new) := by
  intro q hq
  by_cases hpq : p <+: q
  · obtain ⟨r, rfl⟩ := hpq
    by_cases hr : r = []
    · rw [hr, List.append_nil] at hq
      exact absurd hq hp
    · have hfind : (t.insert p new).find? (p ++ r) = none := by
        rw [find?_insert_append, find?_of_entries_eq_nil hnew hr]
      cases habove : (p ++ r).isAbove with
      | true => rw [seen_of_isAbove habove, hfind]; rfl
      | false =>
          rw [seen_of_not_isAbove habove] at hq
          obtain ⟨es, hes⟩ := isDirectory_of_find?_append hr (by simpa using congrArg Option.isSome hq)
          exact absurd (seen_of_find? hes) hp
  · by_cases hqp : q <+: p
    · obtain ⟨es, hes⟩ := find?_insert_of_prefix t new hqp fun h => hpq (h ▸ List.prefix_refl _)
      exact seen_of_find? hes
    · rw [seen_congr (congrArg _ (find?_insert_of_apart t new hpq hqp))]
      exact hq

theorem keeps_erase {text : String} (hp : t.find? p = some (file text)) (hne : p ≠ []) :
    t.Keeps (t.erase p) := by
  intro q hq
  by_cases hpq : p <+: q
  · obtain ⟨r, rfl⟩ := hpq
    have hfind := find?_erase_append t hne r
    cases habove : (p ++ r).isAbove with
    | true => rw [seen_of_isAbove habove, hfind]; rfl
    | false =>
        rw [seen_of_not_isAbove habove, find?_append, hp, Option.bind_some] at hq
        by_cases hr : r = []
        · subst hr
          cases hq
        · rw [find?_of_entries_eq_nil rfl hr] at hq
          cases hq
  · rw [seen_congr (text?_find?_erase t hpq)]
    exact hq

/-! ## Walking -/

theorem walk_cons (t : FileTree) (done : Path) (part : String) (rest : Path) :
    t.walk done (part :: rest) =
      match t.seen done with
      | none => .error .missing
      | some (some _) => .error .notDirectory
      | some none =>
        if part = "" ∨ part = "." then t.walk done rest
        else if part = ".." then t.walk done.up rest
        else if Path.isName part then t.walk (done ++ [part]) rest
        else .error .badName := by
  rw [walk, seen]
  cases t.at? done with
  | none => rfl
  | some u => cases u <;> rfl

theorem walk_nil_eq_ok {done d : Path} (h : t.walk done [] = .ok d) : d = done := by
  rw [walk] at h
  split at h
  · exact (Except.ok.inj h).symm
  · cases h

theorem walk_nil_of_seen {done : Path} (h : (t.seen done).isSome = true) :
    t.walk done [] = .ok done := by
  rw [seen, Option.isSome_map] at h
  rw [walk, if_pos h]

/-- A walk to a directory is the same where the directories are kept. -/
theorem Keeps.walk (h : t.Keeps t') {done rest d : Path} (hwalk : t.walk done rest = .ok d)
    (hd : t.seen d = some none) : t'.walk done rest = .ok d := by
  induction rest generalizing done with
  | nil =>
      obtain rfl := walk_nil_eq_ok hwalk
      exact walk_nil_of_seen (by rw [h d hd]; rfl)
  | cons part rest ih =>
      rw [walk_cons] at hwalk ⊢
      split at hwalk
      · cases hwalk
      · cases hwalk
      · next hdone =>
          rw [h done hdone]
          dsimp only
          split_ifs at hwalk ⊢
          · exact ih hwalk
          · exact ih hwalk
          · exact ih hwalk

theorem walk_append {done xs d : Path} (h : t.walk done xs = .ok d) (ys : Path) :
    t.walk done (xs ++ ys) = t.walk d ys := by
  induction xs generalizing done with
  | nil => rw [walk_nil_eq_ok h, List.nil_append]
  | cons part xs ih =>
      rw [List.cons_append, walk_cons]
      rw [walk_cons] at h
      split at h
      · cases h
      · cases h
      · split_ifs at h ⊢
        · exact ih h
        · exact ih h
        · exact ih h

theorem exists_walk_of_append {done xs q : Path} {n : String} (h : t.walk done (xs ++ [n]) = .ok q) :
    ∃ d, t.walk done xs = .ok d ∧ t.seen d = some none := by
  induction xs generalizing done with
  | nil =>
      rw [List.nil_append, walk_cons] at h
      split at h
      · cases h
      · cases h
      · next hdone => exact ⟨done, walk_nil_of_seen (by rw [hdone]; rfl), hdone⟩
  | cons part xs ih =>
      rw [List.cons_append, walk_cons] at h
      rw [walk_cons]
      split at h
      · cases h
      · cases h
      · split_ifs at h ⊢
        · exact ih h
        · exact ih h
        · exact ih h

end FileTree

/-- Whether a part of a path is the name of a file. -/
def Path.isPlain (n : String) : Bool :=
  n != "" && n != "." && n != ".." && n != "/" && isName n

namespace FileTree

variable {t t' : FileTree} {dir d q : Path} {n m text : String}

theorem not_isAbove_append (hn : Path.isPlain n = true) (d : Path) : Path.isAbove (d ++ [n]) = false := by
  simp only [Path.isPlain, Bool.and_eq_true, bne_iff_ne] at hn
  obtain ⟨⟨⟨-, hdots⟩, hslash⟩, -⟩ := hn
  rw [Path.isAbove, Bool.or_eq_false_iff]
  constructor
  · rw [beq_eq_false_iff_ne]
    intro h
    have hlast := congrArg List.getLast? h
    simp [hslash] at hlast
  · simp [hdots]

theorem walk_name (hn : Path.isPlain n = true) (hd : t.seen d = some none) :
    t.walk d [n] = t.walk (d ++ [n]) [] := by
  simp only [Path.isPlain, Bool.and_eq_true, bne_iff_ne] at hn
  obtain ⟨⟨⟨⟨hempty, hdot⟩, hdots⟩, -⟩, hname⟩ := hn
  rw [walk_cons, hd]
  simp only [hempty, hdot, or_self, ↓reduceIte, hdots, hname]

theorem append_ne_empty (hn : Path.isPlain n = true) (dir : Path) : dir ++ [n] ≠ [""] := by
  intro h
  have hlast := congrArg List.getLast? h
  simp only [List.getLast?_concat, List.getLast?_singleton, Option.some.injEq] at hlast
  simp [Path.isPlain, hlast] at hn

theorem at?_append (hn : Path.isPlain n = true) (d : Path) :
    t.at? (d ++ [n]) = t.find? (d ++ [n]) := by
  rw [at?, not_isAbove_append hn d]
  rfl

/-- A file is found in a directory that a walk leads to. -/
theorem stat_eq_file_iff (hn : Path.isPlain n = true) :
    t.stat (dir ++ [n]) = .ok (.file text) ↔
      Path.isUsable (dir ++ [n]) = true ∧ ∃ d, t.walk [] dir = .ok d ∧ t.seen d = some none ∧
        t.find? (d ++ [n]) = some (.file text) := by
  unfold stat resolve
  rw [if_neg (append_ne_empty hn dir)]
  constructor
  · intro h
    split_ifs at h with husable
    refine ⟨husable, ?_⟩
    split at h
    · cases h
    · next q hq =>
        obtain ⟨d, hd, hdir⟩ := exists_walk_of_append hq
        rw [walk_append hd, walk_name hn hdir] at hq
        rw [walk_nil_eq_ok hq, at?_append hn d] at h
        refine ⟨d, hd, hdir, ?_⟩
        split at h
        · cases h
        · next hfind => rw [hfind, Except.ok.inj h]
  · rintro ⟨husable, d, hd, hdir, hfile⟩
    have hwalk : t.walk [] (dir ++ [n]) = .ok (d ++ [n]) := by
      rw [walk_append hd, walk_name hn hdir]
      refine walk_nil_of_seen ?_
      rw [seen, at?_append hn d, hfile]
      rfl
    rw [if_pos husable, hwalk]
    dsimp only
    rw [at?_append hn d, hfile]

/-- A file stays where the directories are kept and its own path is left alone. -/
theorem Keeps.stat (h : t.Keeps t') (hn : Path.isPlain n = true)
    (hfile : t.stat (dir ++ [n]) = .ok (.file text))
    (hpath : ∀ d, t.walk [] dir = .ok d → t.find? (d ++ [n]) = some (.file text) →
      t'.find? (d ++ [n]) = some (.file text)) :
    t'.stat (dir ++ [n]) = .ok (.file text) := by
  obtain ⟨husable, d, hd, hdir, hfind⟩ := (stat_eq_file_iff hn).mp hfile
  exact (stat_eq_file_iff hn).mpr ⟨husable, d, h.walk hd hdir, h d hdir, hpath d hd hfind⟩

/-! ## Writing and taking away -/

theorem any_isDirectory (t : FileTree) (p : Path) :
    (t.at? p).any (·.isDirectory) = true ↔ t.seen p = some none := by
  rw [seen]
  cases t.at? p with
  | none => simp
  | some u => cases u <;> simp [isDirectory, text?]

theorem resolve_eq_ok {p : Path} (h : t.resolve p = .ok q) :
    Path.isUsable p = true ∧ t.walk [] p = .ok q := by
  unfold resolve at h
  split_ifs at h with hempty husable
  exact ⟨husable, h⟩

theorem resolve_append (hn : Path.isPlain n = true) (hd : t.walk [] dir = .ok d)
    (hdir : t.seen d = some none) :
    t.resolve (dir ++ [n]) =
      if Path.isUsable (dir ++ [n]) then
        if (t.find? (d ++ [n])).isSome then .ok (d ++ [n]) else .error .missing
      else .error .badName := by
  rw [resolve, if_neg (append_ne_empty hn dir), walk_append hd, walk_name hn hdir, walk,
    at?_append hn d]

/-- Where a written file goes: its directory is there, and no directory is in its place. -/
theorem write_eq_ok (hn : Path.isPlain n = true) (h : t.write (dir ++ [n]) text = .ok t') :
    Path.isUsable (dir ++ [n]) = true ∧ ∃ d, t.walk [] dir = .ok d ∧ t.seen d = some none ∧
      t.seen (d ++ [n]) ≠ some none ∧ t' = t.insert (d ++ [n]) (.file text) := by
  unfold write at h
  split at h
  · next q hq =>
      obtain ⟨husable, hwalk⟩ := resolve_eq_ok hq
      obtain ⟨d, hd, hdir⟩ := exists_walk_of_append hwalk
      rw [walk_append hd, walk_name hn hdir] at hwalk
      obtain rfl := walk_nil_eq_ok hwalk
      split_ifs at h with hplace
      rw [any_isDirectory] at hplace
      exact ⟨husable, d, hd, hdir, hplace, (Except.ok.inj h).symm⟩
  · next hmissing =>
      rw [List.dropLast_concat, List.getLast?_concat, Option.getD_some] at h
      split at h
      · cases h
      · next d hd =>
          obtain ⟨-, hwalk⟩ := resolve_eq_ok hd
          dsimp only at h
          split_ifs at h with hplace hempty
          have hdir : t.seen d = some none := (any_isDirectory t d).mp (by simpa using hplace)
          rw [resolve_append hn hwalk hdir] at hmissing
          split_ifs at hmissing with husable hfind
          · refine ⟨husable, d, hwalk, hdir, ?_, (Except.ok.inj h).symm⟩
            rw [seen_of_not_isAbove (not_isAbove_append hn d), Option.not_isSome_iff_eq_none.mp hfind]
            simp
          · cases hmissing
  · cases h

theorem stat_write (hn : Path.isPlain n = true) (h : t.write (dir ++ [n]) text = .ok t') :
    t'.stat (dir ++ [n]) = .ok (.file text) := by
  obtain ⟨husable, d, hd, hdir, hplace, rfl⟩ := write_eq_ok hn h
  have hkeeps : t.Keeps (t.insert (d ++ [n]) (.file text)) := keeps_insert rfl hplace
  exact (stat_eq_file_iff hn).mpr
    ⟨husable, d, hkeeps.walk hd hdir, hkeeps d hdir, find?_insert_self _ _ _⟩

/-- A file that is there can be written. -/
theorem exists_write (hn : Path.isPlain n = true) {old : String}
    (h : t.stat (dir ++ [n]) = .ok (.file old)) (text : String) :
    ∃ t', t.write (dir ++ [n]) text = .ok t' := by
  obtain ⟨husable, d, hd, hdir, hfind⟩ := (stat_eq_file_iff hn).mp h
  have hplace : ¬(t.at? (d ++ [n])).any (·.isDirectory) = true := by
    rw [at?_append hn d, hfind]
    simp [isDirectory]
  refine ⟨t.insert (d ++ [n]) (.file text), ?_⟩
  rw [write, resolve_append hn hd hdir, if_pos husable, hfind]
  exact if_neg hplace

/-- A file can be put where there is nothing in a directory that is there. -/
theorem exists_write_new (hn : Path.isPlain n = true) (hparent : t.resolve dir = .ok d)
    (hdir : t.seen d = some none) (hmissing : t.resolve (dir ++ [n]) = .error .missing)
    (text : String) : ∃ t', t.write (dir ++ [n]) text = .ok t' := by
  have hname : n ≠ "" := by
    rintro rfl
    cases hn
  refine ⟨t.insert (d ++ [n]) (.file text), ?_⟩
  rw [write, hmissing]
  simp [hparent, (any_isDirectory t d).mpr hdir, hname]

theorem Keeps.resolve (h : t.Keeps t') (hresolve : t.resolve dir = .ok d)
    (hdir : t.seen d = some none) : t'.resolve dir = .ok d := by
  obtain ⟨-, hwalk⟩ := resolve_eq_ok hresolve
  unfold FileTree.resolve at hresolve ⊢
  split_ifs at hresolve ⊢
  exact h.walk hwalk hdir

theorem not_prefix_sibling (d : Path) (hne : m ≠ n) : ¬d ++ [m] <+: d ++ [n] := by
  intro h
  have := (List.prefix_append_right_inj d).mp h
  simp [hne] at this

/-- A file stays when another one is written beside it. -/
theorem stat_write_sibling (hn : Path.isPlain n = true) (hm : Path.isPlain m = true) (hne : m ≠ n)
    {other : String} (hfile : t.stat (dir ++ [n]) = .ok (.file text))
    (h : t.write (dir ++ [m]) other = .ok t') : t'.stat (dir ++ [n]) = .ok (.file text) := by
  obtain ⟨-, d, hd, hdir, hplace, rfl⟩ := write_eq_ok hm h
  refine (keeps_insert rfl hplace).stat hn hfile fun d' hd' hfind => ?_
  obtain rfl : d = d' := Except.ok.inj (hd.symm.trans hd')
  rw [find?_insert_of_apart _ _ (not_prefix_sibling d hne) (not_prefix_sibling d hne.symm)]
  exact hfind

/-- Where a file can be written it can still be written when another one stands beside it. -/
theorem exists_write_sibling (hn : Path.isPlain n = true) (hm : Path.isPlain m = true) (hne : m ≠ n)
    {other : String} {u : FileTree} (hwrite : t.write (dir ++ [n]) text = .ok u)
    (h : t.write (dir ++ [m]) other = .ok t') : ∃ u', t'.write (dir ++ [n]) text = .ok u' := by
  obtain ⟨-, d, hd, hdir, hplace, rfl⟩ := write_eq_ok hm h
  have hkeeps : t.Keeps (t.insert (d ++ [m]) (.file other)) := keeps_insert rfl hplace
  have hfind : (t.insert (d ++ [m]) (.file other)).find? (d ++ [n]) = t.find? (d ++ [n]) :=
    find?_insert_of_apart _ _ (not_prefix_sibling d hne) (not_prefix_sibling d hne.symm)
  have hresolve : (t.insert (d ++ [m]) (.file other)).resolve (dir ++ [n]) =
      t.resolve (dir ++ [n]) := by
    rw [resolve_append hn hd hdir, resolve_append hn (hkeeps.walk hd hdir) (hkeeps d hdir), hfind]
  cases hq : t.resolve (dir ++ [n]) with
  | ok q =>
      have hq' := hq
      rw [resolve_append hn hd hdir] at hq'
      split_ifs at hq'
      obtain rfl := Except.ok.inj hq'
      rw [write, hq] at hwrite
      rw [write, hresolve, hq]
      dsimp only at hwrite ⊢
      rw [at?_append hn d] at hwrite ⊢
      rw [hfind]
      split_ifs at hwrite with hdirectory
      exact ⟨_, if_neg hdirectory⟩
  | error fault =>
      rw [write, hq] at hwrite
      cases fault with
      | missing =>
          dsimp only at hwrite
          rw [List.dropLast_concat] at hwrite
          cases hparent : t.resolve dir with
          | error fault =>
              rw [hparent] at hwrite
              cases hwrite
          | ok d' =>
              obtain rfl : d = d' := Except.ok.inj (hd.symm.trans (resolve_eq_ok hparent).2)
              exact exists_write_new hn (hkeeps.resolve hparent hdir) (hkeeps d hdir)
                (hresolve.trans hq) text
      | _ => cases hwrite

/-- A file that is there can be taken away. -/
theorem exists_remove (hn : Path.isPlain n = true) (h : t.stat (dir ++ [n]) = .ok (.file text)) :
    ∃ t', t.remove (dir ++ [n]) = .ok t' := by
  obtain ⟨husable, d, hd, hdir, hfind⟩ := (stat_eq_file_iff hn).mp h
  refine ⟨t.erase (d ++ [n]), ?_⟩
  rw [remove, resolve_append hn hd hdir, if_pos husable, hfind]
  exact if_neg (Bool.eq_false_iff.mp (not_isAbove_append hn d))

/-- A file stays when another one beside it is taken away. -/
theorem stat_remove_sibling (hn : Path.isPlain n = true) (hm : Path.isPlain m = true) (hne : m ≠ n)
    {other : String} (hfile : t.stat (dir ++ [n]) = .ok (.file text))
    (hother : t.stat (dir ++ [m]) = .ok (.file other)) (h : t.remove (dir ++ [m]) = .ok t') :
    t'.stat (dir ++ [n]) = .ok (.file text) := by
  obtain ⟨-, d, hd, hdir, hfind⟩ := (stat_eq_file_iff hm).mp hother
  have ht' : t' = t.erase (d ++ [m]) := by
    unfold remove at h
    split at h
    · cases h
    · next q hq =>
        rw [resolve_append hm hd hdir, hfind] at hq
        split_ifs at hq h
        rw [← Except.ok.inj hq] at h
        exact (Except.ok.inj h).symm
  rw [ht']
  refine (keeps_erase hfind (by simp)).stat hn hfile fun d' hd' hfind' => ?_
  obtain rfl : d = d' := Except.ok.inj (hd.symm.trans hd')
  have htext := text?_find?_erase t (not_prefix_sibling d hne)
  rw [hfind'] at htext
  cases herased : (t.erase (d ++ [m])).find? (d ++ [n]) with
  | none => simp [herased] at htext
  | some u =>
      cases u with
      | file text' => simpa [herased, text?] using htext
      | directory es => simp [herased, text?] at htext

/-! ## Making directories -/

/-- Nothing that is there goes. -/
structure Extends (t t' : FileTree) : Prop where
  directories : t.Keeps t'
  files : ∀ q text, Path.isAbove q = false → t.find? q = some (.file text) →
    t'.find? q = some (.file text)

theorem Extends.refl (t : FileTree) : t.Extends t :=
  ⟨fun _ h => h, fun _ _ _ h => h⟩

theorem Extends.trans {u : FileTree} (h : t.Extends t') (h' : t'.Extends u) : t.Extends u :=
  ⟨fun q hq => h'.directories q (h.directories q hq),
    fun q text hq hfile => h'.files q text hq (h.files q text hq hfile)⟩

theorem Extends.stat (h : t.Extends t') (hn : Path.isPlain n = true)
    (hfile : t.stat (dir ++ [n]) = .ok (.file text)) : t'.stat (dir ++ [n]) = .ok (.file text) :=
  h.directories.stat hn hfile fun d _ hfind => h.files _ _ (not_isAbove_append hn d) hfind

theorem isAbove_of_initial {p : Path} (hqp : q <+: p) (hp : Path.isAbove p = true) :
    Path.isAbove q = true := by
  obtain ⟨r, rfl⟩ := hqp
  rw [Path.isAbove, Bool.or_eq_true, beq_iff_eq] at hp ⊢
  rcases hp with hp | hp
  · cases q with
    | nil => exact .inr rfl
    | cons first q =>
        obtain ⟨rfl, hrest⟩ := List.cons.inj hp
        rw [(List.append_eq_nil_iff.mp hrest).1]
        exact .inl rfl
  · rw [List.all_append, Bool.and_eq_true] at hp
    exact .inr hp.1

/-- No file is on the way to a directory. -/
theorem not_file_of_initial {p : Path} (hp : t.seen p = some none) (hqp : q <+: p)
    (hq : Path.isAbove q = false) : t.find? q ≠ some (.file text) := by
  intro hfile
  obtain ⟨r, rfl⟩ := hqp
  have habove : Path.isAbove (q ++ r) = false := Bool.eq_false_iff.mpr fun h =>
    Bool.eq_false_iff.mp hq (isAbove_of_initial (List.prefix_append q r) h)
  rw [seen_of_not_isAbove habove, find?_append, hfile, Option.bind_some] at hp
  by_cases hr : r = []
  · subst hr
    cases hp
  · rw [find?_of_entries_eq_nil rfl hr] at hp
    cases hp

/-- A directory can be made one step from another directory. -/
theorem extends_insert {p done : Path} (hdone : t.seen done = some none) (hp : t.at? p = none)
    (hstep : ∀ q, q <+: p → q ≠ p → q <+: done) : t.Extends (t.insert p {}) := by
  have hseen : t.seen p ≠ some none := by
    rw [seen, hp]
    simp
  refine ⟨keeps_insert rfl hseen, fun q text hq hfile => ?_⟩
  have hfind : t.find? p = none := by
    unfold at? at hp
    split at hp
    · cases hp
    · exact hp
  by_cases hpq : p <+: q
  · obtain ⟨r, rfl⟩ := hpq
    rw [find?_append, hfind] at hfile
    cases hfile
  · by_cases hqp : q <+: p
    · have hne : q ≠ p := fun h => hpq (h ▸ List.prefix_refl _)
      exact absurd hfile (not_file_of_initial hdone (hstep q hqp hne) hq)
    · rw [find?_insert_of_apart _ _ hpq hqp]
      exact hfile

theorem prefix_of_strict_prefix {p : Path} {part : String} (h : q <+: p ++ [part])
    (hne : q ≠ p ++ [part]) : q <+: p := by
  rcases List.prefix_concat_iff.mp h with h | h
  · exact absurd h hne
  · exact h

/-- A step to where nothing is goes down. -/
theorem followed_of_missing {done : Path} {part : String}
    (h : t.at? (done.followed part) = none) : ∀ q, q <+: done.followed part →
      q ≠ done.followed part → q <+: done := by
  intro q hq hne
  unfold Path.followed at h hq hne
  split_ifs at h hq hne
  · exact hq
  · unfold Path.up at hq
    split_ifs at hq with hroot habove
    · exact hq
    · -- what stays above is there always
      have hup : Path.isAbove (".." :: done) = true := by
        have hdots := habove
        rw [Path.isAbove, Bool.or_eq_true, beq_iff_eq] at hdots ⊢
        exact .inr (by simpa using hdots.resolve_left hroot)
      rw [Path.up, if_neg hroot, if_pos habove, at?, hup] at h
      cases h
    · exact hq.trans (List.dropLast_prefix done)
  · exact prefix_of_strict_prefix hq hne

theorem makeFrom_extends (used : Nat) {done : Path} (hdone : t.seen done = some none) (rest : Path) :
    t.Extends (t.makeFrom used done rest).2 := by
  induction rest generalizing used done t with
  | nil => exact .refl t
  | cons part rest ih =>
      rw [makeFrom]
      dsimp only
      split
      · exact .refl t
      · split
        · next es hnext => exact ih _ (seen_eq_none_iff.mpr ⟨es, hnext⟩)
        · exact .refl t
        · next hnext =>
            have hextends := extends_insert hdone hnext (followed_of_missing hnext)
            exact hextends.trans (ih _ (seen_of_find? (find?_insert_self _ _ _)))

end FileTree

/-! ## Actions -/

namespace FileAction

open FileTree

variable {t : FileTree} {dir : Path} {n m text : String}

theorem run_bind {ε α β : Type} (x : ExceptT ε (StateM FileTree) α)
    (f : α → ExceptT ε (StateM FileTree) β) (t : FileTree) :
    (x >>= f).run t = match x.run t with
      | (.ok a, t') => (f a).run t'
      | (.error e, t') => (.error e, t') := by
  have hrun : (x >>= f).run t = (match (x.run t).1 with
    | .ok a => (f a).run
    | .error e => pure (.error e)) (x.run t).2 := rfl
  rw [hrun]
  rcases x.run t with ⟨_ | _, _⟩ <;> rfl

theorem run_change (next : FileTree → Except FileFault FileTree) (t : FileTree) :
    (change next).run t = match next t with
      | .ok t' => (.ok (), t')
      | .error fault => (.error fault, t) := by
  have hrun : (change next).run t = (match next t with
    | .ok t' => (set t' : FileAction Unit)
    | .error fault => throw fault).run t := rfl
  rw [hrun]
  cases next t <;> rfl

theorem run_get_bind {ε β : Type} (f : FileTree → ExceptT ε (StateM FileTree) β) (t : FileTree) :
    (get >>= f).run t = (f t).run t :=
  rfl

theorem run_look {α : Type} (view : FileTree → Except FileFault α) (t : FileTree) :
    (look view).run t = (view t, t) := by
  rw [look, run_get_bind]
  cases view t <;> rfl

/-- Making directories leaves every file. -/
theorem stat_makeDirectory (hn : Path.isPlain n = true)
    (hfile : t.stat (dir ++ [n]) = .ok (.file text)) (p : Path) :
    ((makeDirectory p).run t).2.stat (dir ++ [n]) = .ok (.file text) := by
  obtain ⟨-, d, -, -, hfind⟩ := (stat_eq_file_iff hn).mp hfile
  -- there is something in the directory that paths start from
  obtain ⟨es, hroot⟩ : ∃ es, t.find? [] = some (directory es) :=
    isDirectory_of_find?_append (q := d ++ [n]) (by simp) (by rw [List.nil_append, hfind]; rfl)
  unfold makeDirectory
  split
  · exact hfile
  · exact (makeFrom_extends 0 (seen_of_find? hroot) p).stat hn hfile

end FileAction

end Tuning
