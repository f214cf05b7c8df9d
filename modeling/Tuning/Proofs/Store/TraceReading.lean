import Tuning.Proofs.Store.Joined
import Tuning.Proofs.Store.Reports
import Tuning.Proofs.Value.Recoding

/-! # Traces that are read again

Writers add a line for every entry that has a document, whatever its length and depth. A reader takes
lines up to a length and documents up to a depth, and reads numbers as doubles. So all entries of a trace
are read again if and only if each of them fits the reader, and the candidate of an entry has its text
again if and only if its texts are Unicode and its whole numbers are what doubles are written as. -/

namespace Tuning

open FileTree

namespace TraceEntry

variable {e e' : TraceEntry} {j : Json}

/-! ## Entries -/

/-- What every entry is: the names of its mappings increase, and its nanoseconds are less than a
second. -/
structure Proper (e : TraceEntry) : Prop where
  ordered : ∀ c ∈ e.candidate, (Value.map c).Ordered
  nanoseconds_lt : e.timestamp.nanoseconds < 10 ^ 9

/-- The whole numbers in the candidate of an entry. -/
def wholes (e : TraceEntry) : List Int :=
  (e.candidate.map fun c => (Value.map c).wholes).getD []

/-- Whether all texts in the candidate of an entry are Unicode. -/
def isUnicode (e : TraceEntry) : Bool :=
  e.candidate.all fun c => (Value.map c).isUnicode

/-- The entry that comes back from the document of an entry. -/
def normal (e : TraceEntry) : TraceEntry :=
  { e with candidate := e.candidate.map Candidate.normal, timestamp := e.timestamp.shown }

theorem ofJson?_encode (he : e.Proper) (h : e.encode = .ok j) :
    ofJson? j.legible = some e.normal := by
  obtain ⟨round, evaluation, candidate, fitness, error, best, timestamp⟩ := e
  obtain ⟨values, instant, hvalues, hfitness, hbest, hinstant, rfl⟩ := encode_eq_ok h
  obtain ⟨text, rfl, htext⟩ := encodeInstant_eq_ok hinstant
  have hread := Candidate.read?_of_encodeMapping hvalues
  have htime := Instant.parse?_document? he.nanoseconds_lt htext
  by_cases herror : error = "" <;>
    simp [ofJson?, Json.legible, Json.legibleFields, Json.readRecord, Json.readFields, Json.findField?,
      fields, Json.field?, herror, Json.Field.mapping, hread, Json.Field.of_read_float _ _ hfitness,
      Json.Field.of_read_float _ _ hbest, Json.Field.of_read_instant _ _ htime, normal]

end TraceEntry

namespace Trace

variable {s : Store} {id text : String} {t t' : FileTree} {entries : List TraceEntry}

/-! ## Lines -/

/-- The trace of a session in a tree of files holds entries: the first writer finds no trace or begins
anew, and other writers go on behind what is there. Writers add the lines of entries that have one. -/
inductive Written (s : Store) (id : String) : List TraceEntry → FileTree → Prop
  | opened {append : Bool} {t t' : FileTree}
      (hnew : append = true → ∀ text, ¬s.Has id "trace.jsonl" text t)
      (h : (start s id append).run t = (.ok (), t')) : Written s id [] t'
  | reopened {entries : List TraceEntry} {t t' : FileTree} (h : Written s id entries t)
      (hstart : (start s id true).run t = (.ok (), t')) : Written s id entries t'
  | added {entries more : List TraceEntry} {t : FileTree} (h : Written s id entries t)
      (haccepted : ∀ e ∈ more, ∃ line, e.line = .ok line) :
      Written s id (entries ++ more) ((add s id (encodeLines more).1).run t).2

/-- Making the directory of a session brings no file into it. -/
theorem has_of_makeDirectory {name : String} (hname : Path.isPlain name = true)
    (h : (FileAction.makeDirectory (s.directory id)).run t = (.ok (), t'))
    (hfile : s.Has id name text t') : s.Has id name text t := by
  have hjoined : Path.IsJoined ([] ++ s.directory id) := Path.isJoined_join _
  have hmake : t.makeFrom 0 [] (s.directory id) = (.ok (), t') := by
    unfold FileAction.makeDirectory at h
    split at h
    · cases h
    · exact h
  have ht' := makeFrom_joined hjoined rfl hmake
  rw [List.nil_append] at hjoined ht'
  split_ifs at ht'
  · rwa [ht'] at hfile
  · obtain ⟨-, d, hd, -, hfind⟩ := (stat_eq_file_iff hname).mp hfile
    rw [walk_joined hjoined hd, ht', List.nil_append, find?_insert_append] at hfind
    cases hfind

/-- A trace that is opened has the text that it had when its directory was made, or none. -/
theorem ends_open (s : Store) (id : String) (append : Bool) (t : FileTree) :
    Ends (start s id append) t
      (fun t' => ∃ t₁, (FileAction.makeDirectory (s.directory id)).run t = (.ok (), t₁) ∧
        (append = true → ∀ text, s.Has id "trace.jsonl" text t₁ → s.Has id "trace.jsonl" text t') ∧
        ((append = true → ∀ text, ¬s.Has id "trace.jsonl" text t₁) → s.Has id "trace.jsonl" "" t'))
      fun _ => True := by
  refine .adapt _ (.bind (R := fun t₁ => (FileAction.makeDirectory (s.directory id)).run t = (.ok (), t₁))
    (.adapt _ ?_) fun _ t₁ h₁ => .get_bind ?_)
  · unfold Ends
    split
    · next h => exact h
    · trivial
  · dsimp only
    split
    · next old hold =>
        refine .adapt _ (.change (fun t₂ h₂ => ⟨t₁, h₁, fun happend text htext => ?_, fun hnew => ?_⟩)
          trivial)
        · rw [Store.Has, ← path, hold] at htext
          cases htext
          rw [happend] at h₂
          exact stat_write isPlain_trace h₂
        · cases append with
          | true => exact absurd hold (hnew rfl old)
          | false => exact stat_write isPlain_trace h₂
    · next hold =>
        refine .adapt _ (.change (fun t₂ h₂ => ⟨t₁, h₁, fun _ text htext => ?_, fun _ => ?_⟩) trivial)
        · exact absurd htext (hold text)
        · exact stat_write isPlain_trace h₂

/-- A trace holds the lines of its entries. -/
theorem Written.has (h : Written s id entries t) :
    ∃ (documents : List Json) (text : String), entries.map TraceEntry.encode = documents.map .ok ∧
      s.Has id "trace.jsonl" text t ∧
      text.toList = (documents.map Json.chars).flatMap (· ++ ['\n']) := by
  induction h with
  | @opened append t t' hnew hstart =>
      obtain ⟨t₁, hmade, -, hempty⟩ := (ends_open s id append t).of_ok (by rw [hstart])
      rw [hstart] at hempty
      refine ⟨[], "", rfl, hempty fun happend text htext => ?_, rfl⟩
      exact hnew happend text (has_of_makeDirectory isPlain_trace hmade htext)
  | @reopened entries t t' _ hstart ih =>
      obtain ⟨documents, text, hencode, hfile, htext⟩ := ih
      obtain ⟨t₁, hmade, hkept, -⟩ := (ends_open s id true t).of_ok (by rw [hstart])
      have hfile' := FileAction.stat_makeDirectory isPlain_trace hfile (s.directory id)
      rw [hmade] at hfile'
      rw [hstart] at hkept
      exact ⟨documents, text, hencode, hkept rfl text hfile', htext⟩
  | @added entries more t _ haccepted ih =>
      obtain ⟨documents, text, hencode, hfile, htext⟩ := ih
      obtain ⟨documents', hencode', htext'⟩ := toList_encodeLines haccepted
      refine ⟨documents ++ documents', _, ?_, has_add hfile _, ?_⟩
      · rw [List.map_append, List.map_append, hencode, hencode']
      · rw [htext', htext, List.map_append, List.flatMap_append]

theorem Written.exists_encode (h : Written s id entries t) {e : TraceEntry} (he : e ∈ entries) :
    ∃ j, e.encode = .ok j := by
  obtain ⟨documents, -, hencode, -⟩ := h.has
  have hdocument : e.encode ∈ documents.map .ok := hencode ▸ List.mem_map_of_mem he
  obtain ⟨j, -, hj⟩ := List.mem_map.mp hdocument
  exact ⟨j, hj.symm⟩

end Trace

end Tuning
