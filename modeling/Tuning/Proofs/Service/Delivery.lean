import Tuning.Proofs.Finite.Entries
import Tuning.Service.Broadcaster

/-! # What the clients of a broadcaster get

Clients come and go, items are broadcast, jobs are cleaned up and clients receive, in any order. No
action ever waits or touches a closed queue. What a client has received, followed by what waits for it,
is the latest item of its job before it came and then the items broadcast for the job while it was
there, less those that found sixteen items waiting. -/

namespace Tuning

namespace Broadcaster

variable {α : Type} {b : Broadcaster α}

/-- The items that wait for a client. -/
def waiting (b : Broadcaster α) (client : Nat) : List α :=
  b.queues[client]?.elim [] (·.waiting)

/-! ## Changing several queues -/

theorem onQueue?_eq {change : Queue α → Option (Queue α)} {queues : List (Queue α)} {client : Nat}
    {q q' : Queue α} (hq : queues[client]? = some q) (hchange : change q = some q') :
    onQueue? change queues client = some (queues.set client q') := by
  simp [onQueue?, hq, hchange]

theorem getElem?_set_of_some {queues : List (Queue α)} {client : Nat} {q : Queue α}
    (hq : queues[client]? = some q) (q' : Queue α) (c : Nat) :
    (queues.set client q')[c]? = if c = client then some q' else queues[c]? := by
  have hlt : client < queues.length := (List.getElem?_eq_some_iff.mp hq).1
  by_cases hc : c = client
  · simp [hc, hlt]
  · simp [hc, List.getElem?_set_ne (Ne.symm hc)]

/-- Each of several clients gets its queue changed, and nobody else does. -/
theorem exists_onQueues? (change : Queue α → Option (Queue α)) (clients : List Nat)
    (queues : List (Queue α)) (hnodup : clients.Nodup)
    (h : ∀ c ∈ clients, ∃ q q', queues[c]? = some q ∧ change q = some q') :
    ∃ queues', onQueues? change queues clients = some queues' ∧ queues'.length = queues.length ∧
      ∀ c, queues'[c]? = if c ∈ clients then queues[c]?.bind change else queues[c]? := by
  induction clients generalizing queues with
  | nil => exact ⟨queues, rfl, rfl, by simp⟩
  | cons client clients ih =>
      obtain ⟨hfirst, hrest⟩ := List.nodup_cons.mp hnodup
      obtain ⟨q, q', hq, hchange⟩ := h client (by simp)
      have hset := getElem?_set_of_some hq q'
      have hothers : ∀ c ∈ clients, ∃ r r', (queues.set client q')[c]? = some r ∧ change r = some r' := by
        intro c hc
        have hne : c ≠ client := by
          rintro rfl
          exact hfirst hc
        rw [hset, if_neg hne]
        exact h c (by simp [hc])
      obtain ⟨queues', hrun, hlength, hget⟩ := ih (queues.set client q') hrest hothers
      refine ⟨queues', ?_, by simpa using hlength, fun c => ?_⟩
      · rw [onQueues?, List.foldlM_cons, onQueue?_eq hq hchange]
        exact hrun
      · by_cases hc : c = client
        · subst hc
          simp [hget, hset, hfirst, hq, hchange]
        · simp [hget, hset, hc]

/-! ## Sound broadcasters -/

/-- Every client is there once, with an open queue, and no queue holds more than it can. -/
structure Sound (b : Broadcaster α) : Prop where
  nodup : (b.members.map (·.2)).Nodup
  isOpen : ∀ m ∈ b.members, ∃ q, b.queues[m.2]? = some q ∧ q.closed = false
  bounded : ∀ q ∈ b.queues, q.waiting.length ≤ Queue.capacity

theorem mem_clients {job : String} {client : Nat} :
    client ∈ b.clients job ↔ (job, client) ∈ b.members := by
  simp [clients]

theorem nodup_clients (h : b.Sound) (job : String) : (b.clients job).Nodup :=
  h.nodup.sublist (List.filter_sublist.map _)

theorem Sound.length_waiting_le (h : b.Sound) (client : Nat) :
    (b.waiting client).length ≤ Queue.capacity := by
  unfold waiting
  cases hq : b.queues[client]? with
  | none => simp
  | some q => exact h.bounded q (List.mem_of_getElem? hq)

/-- A subscription makes a queue with the latest item of the job. -/
theorem subscribe?_eq (b : Broadcaster α) (job : String) :
    b.subscribe? job = some (b.queues.length, { b with
      queues := b.queues ++ [{ waiting := (b.sent.lookup job).toList }]
      members := b.members ++ [(job, b.queues.length)] }) := by
  unfold subscribe?
  cases b.sent.lookup job <;> simp [Queue.put?, Queue.isFull, Queue.capacity]

theorem Sound.subscribe (h : b.Sound) (job : String) (item : Option α) :
    Sound { b with
      queues := b.queues ++ [{ waiting := item.toList }]
      members := b.members ++ [(job, b.queues.length)] } where
  nodup := by
    simp only [List.map_append, List.map_cons, List.map_nil]
    refine List.nodup_append.mpr ⟨h.nodup, by simp, ?_⟩
    intro c hc d hd
    obtain ⟨m, hm, rfl⟩ := List.mem_map.mp hc
    obtain ⟨q, hq, -⟩ := h.isOpen m hm
    have hlt := (List.getElem?_eq_some_iff.mp hq).1
    simp only [List.mem_singleton] at hd
    omega
  isOpen m hm := by
    rcases List.mem_append.mp hm with hm | hm
    · obtain ⟨q, hq, hopen⟩ := h.isOpen m hm
      exact ⟨q, by rw [List.getElem?_append_left (List.getElem?_eq_some_iff.mp hq).1, hq], hopen⟩
    · simp only [List.mem_singleton] at hm
      subst hm
      exact ⟨_, List.getElem?_concat_length, rfl⟩
  bounded q hq := by
    rcases List.mem_append.mp hq with hq | hq
    · exact h.bounded q hq
    · simp only [List.mem_singleton] at hq
      subst hq
      cases item <;> simp [Queue.capacity]

/-- Members that stay have open queues and are there once. -/
theorem Sound.of_filter (h : b.Sound) {queues : List (Queue α)} {sent : List (String × α)}
    {keep : String × Nat → Bool}
    (hqueues : ∀ m ∈ b.members, keep m = true → queues[m.2]? = b.queues[m.2]?)
    (hbounded : ∀ q ∈ queues, q.waiting.length ≤ Queue.capacity) :
    Sound { queues, members := b.members.filter keep, sent } where
  nodup := h.nodup.sublist (List.filter_sublist.map _)
  isOpen m hm := by
    obtain ⟨hm, hkeep⟩ := List.mem_filter.mp hm
    obtain ⟨q, hq, hopen⟩ := h.isOpen m hm
    exact ⟨q, (hqueues m hm hkeep).trans hq, hopen⟩
  bounded := hbounded

/-- Closing the queues of members changes nothing about what waits. -/
theorem Sound.close (h : b.Sound) {clients : List Nat} (hnodup : clients.Nodup)
    (hmembers : ∀ c ∈ clients, ∃ m ∈ b.members, m.2 = c) :
    ∃ queues, onQueues? Queue.close? b.queues clients = some queues ∧
      queues.length = b.queues.length ∧
      (∀ c, queues[c]?.elim [] (·.waiting) = b.waiting c) ∧
      (∀ c ∉ clients, queues[c]? = b.queues[c]?) ∧
      ∀ q ∈ queues, q.waiting.length ≤ Queue.capacity := by
  obtain ⟨queues, hclose, hlength, hget⟩ := exists_onQueues? Queue.close? clients b.queues hnodup
    fun c hc => by
      obtain ⟨m, hm, rfl⟩ := hmembers c hc
      obtain ⟨q, hq, hopen⟩ := h.isOpen m hm
      exact ⟨q, { q with closed := true }, hq, by simp [Queue.close?, hopen]⟩
  have hwaiting : ∀ c, queues[c]?.elim [] (·.waiting) = b.waiting c := by
    intro c
    by_cases hc : c ∈ clients
    · obtain ⟨m, hm, rfl⟩ := hmembers c hc
      obtain ⟨q, hq, hopen⟩ := h.isOpen m hm
      simp [hget, hc, waiting, hq, Queue.close?, hopen]
    · simp [hget, hc, waiting]
  refine ⟨queues, hclose, hlength, hwaiting, fun c hc => by simp [hget, hc], fun q hq => ?_⟩
  obtain ⟨c, hc⟩ := List.mem_iff_getElem?.mp hq
  have hq' := hwaiting c
  rw [hc] at hq'
  exact (congrArg List.length hq').trans_le (h.length_waiting_le c)

theorem Sound.unsubscribe (h : b.Sound) (job : String) (client : Nat) :
    ∃ b', b.unsubscribe? job client = some b' ∧ b'.Sound ∧ b'.sent = b.sent ∧
      b'.members = b.members.filter (· ≠ (job, client)) ∧ b'.queues.length = b.queues.length ∧
      ∀ c, b'.waiting c = b.waiting c := by
  by_cases hm : (job, client) ∈ b.members
  · obtain ⟨queues, hclose, hlength, hwaiting, hothers, hbounded⟩ :=
      h.close (List.nodup_singleton client) fun c hc => ⟨_, hm, (List.mem_singleton.mp hc).symm⟩
    have hone : onQueue? Queue.close? b.queues client = some queues := by
      simpa [onQueues?] using hclose
    refine ⟨{ b with queues, members := b.members.filter (· ≠ (job, client)) }, ?_,
      h.of_filter (fun m hm' hkeep => hothers _ ?_) hbounded, rfl, rfl, hlength, hwaiting⟩
    · simp [unsubscribe?, hm, hone]
    · -- a client is there once, so another member is another client
      intro hc
      have heq := List.inj_on_of_nodup_map h.nodup hm' hm (List.mem_singleton.mp hc)
      simp [heq] at hkeep
  · refine ⟨b, by simp [unsubscribe?, hm], h, rfl, ?_, rfl, fun _ => rfl⟩
    refine (List.filter_eq_self.mpr fun m hm' => ?_).symm
    simp only [decide_eq_true_eq]
    rintro rfl
    exact hm hm'

theorem Sound.cleanup (h : b.Sound) (job : String) :
    ∃ b', b.cleanup? job = some b' ∧ b'.Sound ∧ b'.sent = b.sent.filter (·.1 ≠ job) ∧
      b'.members = b.members.filter (·.1 ≠ job) ∧ b'.queues.length = b.queues.length ∧
      ∀ c, b'.waiting c = b.waiting c := by
  obtain ⟨queues, hclose, hlength, hwaiting, hothers, hbounded⟩ :=
    h.close (nodup_clients h job) fun c hc => ⟨_, mem_clients.mp hc, rfl⟩
  refine ⟨{ queues, members := b.members.filter (·.1 ≠ job), sent := b.sent.filter (·.1 ≠ job) }, ?_,
    h.of_filter (fun m hm hkeep => hothers _ ?_) hbounded, rfl, rfl, hlength, hwaiting⟩
  · simp [cleanup?, hclose]
  · intro hc
    have heq := List.inj_on_of_nodup_map h.nodup hm (mem_clients.mp hc) rfl
    have hjob : m.1 = job := congrArg Prod.fst heq
    simp [hjob] at hkeep

/-- A broadcast reaches the clients of the job whose queues have room. -/
theorem Sound.broadcast (h : b.Sound) (job : String) (item : α) :
    ∃ b', b.broadcast? job item = some b' ∧ b'.Sound ∧ b'.sent = (job, item) :: b.sent ∧
      b'.members = b.members ∧ b'.queues.length = b.queues.length ∧
      ∀ c, b'.waiting c = if (job, c) ∈ b.members ∧ (b.waiting c).length ≠ Queue.capacity
        then b.waiting c ++ [item] else b.waiting c := by
  have hoffer : ∀ c ∈ b.clients job, ∃ q q', b.queues[c]? = some q ∧ q.offer? item = some q' ∧
      q'.closed = false ∧ q'.waiting =
        if q.waiting.length ≠ Queue.capacity then q.waiting ++ [item] else q.waiting := by
    intro c hc
    obtain ⟨q, hq, hopen⟩ := h.isOpen _ (mem_clients.mp hc)
    have hle := h.bounded q (List.mem_of_getElem? hq)
    by_cases hfull : q.waiting.length = Queue.capacity
    · exact ⟨q, q, hq, by simp [Queue.offer?, Queue.isFull, hopen, hfull], hopen, by simp [hfull]⟩
    · have hroom : ¬Queue.capacity ≤ q.waiting.length := by omega
      exact ⟨q, { q with waiting := q.waiting ++ [item] }, hq,
        by simp [Queue.offer?, Queue.isFull, hopen, hroom], hopen, by simp [hfull]⟩
  obtain ⟨queues, hrun, hlength, hget⟩ := exists_onQueues? (·.offer? item) (b.clients job) b.queues
    (nodup_clients h job) fun c hc => by
      obtain ⟨q, q', hq, hq', -⟩ := hoffer c hc
      exact ⟨q, q', hq, hq'⟩
  have hwaiting : ∀ c, queues[c]?.elim [] (·.waiting) =
      if (job, c) ∈ b.members ∧ (b.waiting c).length ≠ Queue.capacity
        then b.waiting c ++ [item] else b.waiting c := by
    intro c
    by_cases hc : c ∈ b.clients job
    · obtain ⟨q, q', hq, hq', -, hitems⟩ := hoffer c hc
      simp [hget, hc, mem_clients.mp hc, waiting, hq, hq', hitems]
    · simp [hget, hc, mt mem_clients.mpr hc, waiting]
  refine ⟨{ b with queues, sent := (job, item) :: b.sent }, by simp [broadcast?, hrun],
    ⟨h.nodup, fun m hm => ?_, fun q hq => ?_⟩, rfl, rfl, hlength, hwaiting⟩
  · by_cases hc : m.2 ∈ b.clients job
    · obtain ⟨q, q', hq, hq', hopen, -⟩ := hoffer _ hc
      exact ⟨q', by simp [hget, hc, hq, hq'], hopen⟩
    · obtain ⟨q, hq, hopen⟩ := h.isOpen m hm
      exact ⟨q, by simp [hget, hc, hq], hopen⟩
  · obtain ⟨c, hc⟩ := List.mem_iff_getElem?.mp hq
    have hq' := hwaiting c
    have hle := h.length_waiting_le c
    rw [hc, Option.elim_some] at hq'
    rw [hq']
    split
    · rw [List.length_append, List.length_singleton]
      omega
    · exact hle

/-- Receiving takes out the oldest item that waits. -/
theorem Sound.receive (h : b.Sound) (client : Nat) :
    (b.receive? client = none ∧ b.waiting client = []) ∨
    ∃ item rest b', b.receive? client = some (item, b') ∧ b.waiting client = item :: rest ∧
      b'.Sound ∧ b'.sent = b.sent ∧ b'.members = b.members ∧ b'.queues.length = b.queues.length ∧
      ∀ c, b'.waiting c = if c = client then rest else b.waiting c := by
  cases hq : b.queues[client]? with
  | none => exact .inl ⟨by simp [receive?, hq], by simp [waiting, hq]⟩
  | some q =>
      cases hw : q.waiting with
      | nil => exact .inl ⟨by simp [receive?, hq, Queue.take?, hw], by simp [waiting, hq, hw]⟩
      | cons item rest =>
          have hset := getElem?_set_of_some hq { q with waiting := rest }
          refine .inr ⟨item, rest, { b with queues := b.queues.set client { q with waiting := rest } },
            by simp [receive?, hq, Queue.take?, hw], by simp [waiting, hq, hw],
            ⟨h.nodup, fun m hm => ?_, fun q' hq' => ?_⟩, rfl, rfl, by simp, fun c => ?_⟩
          · obtain ⟨q', hq', hopen⟩ := h.isOpen m hm
            by_cases hc : m.2 = client
            · rw [hc, hq] at hq'
              obtain rfl := Option.some.inj hq'
              exact ⟨{ q with waiting := rest }, by simp [hset, hc], hopen⟩
            · exact ⟨q', by simp [hset, hc, hq'], hopen⟩
          · rcases List.mem_or_eq_of_mem_set hq' with hmem | rfl
            · exact h.bounded q' hmem
            · have hle := h.bounded q (List.mem_of_getElem? hq)
              rw [hw, List.length_cons] at hle
              exact Nat.le_of_succ_le hle
          · by_cases hc : c = client
            · simp [waiting, hset, hc]
            · simp [waiting, hset, hc]

/-! ## Histories -/

/-- What may be done with a broadcaster. -/
inductive Action (α : Type) where
  | subscribe (job : String)
  | unsubscribe (job : String) (client : Nat)
  | broadcast (job : String) (item : α)
  | cleanup (job : String)
  | receive (client : Nat)

namespace Action

/-- The item that is broadcast for a job. -/
def item? (job : String) : Action α → Option α
  | broadcast other item => if other = job then some item else none
  | _ => none

/-- The latest item of a job, if it was `latest` before. -/
def latest? (job : String) (latest : Option α) : Action α → Option α
  | broadcast other item => if other = job then some item else latest
  | cleanup other => if other = job then none else latest
  | _ => latest

/-- The job that a client subscribes to. -/
def newcomer? : Action α → Option String
  | subscribe job => some job
  | _ => none

/-- Whether an action ends the subscription of a client of a job. -/
def ends (job : String) (client : Nat) : Action α → Bool
  | unsubscribe other c => other = job && c = client
  | cleanup other => other = job
  | _ => false

theorem item?_of_ends {job : String} {client : Nat} {a : Action α} (h : a.ends job client = true) :
    a.item? job = none := by
  cases a <;> simp [ends, item?] at h ⊢

theorem eq_of_item? {job : String} {x : α} {a : Action α} (h : a.item? job = some x) :
    a = .broadcast job x := by
  cases a <;> simp_all [item?]

theorem of_latest? {job : String} {x : α} {latest : Option α} {a : Action α}
    (h : a.latest? job latest = some x) : latest = some x ∨ a = .broadcast job x := by
  cases a with
  | broadcast other item =>
      by_cases hjob : other = job
      · simp_all [Action.latest?]
      · exact .inl (by simpa [Action.latest?, hjob] using h)
  | cleanup other =>
      by_cases hjob : other = job
      · simp [Action.latest?, hjob] at h
      · exact .inl (by simpa [Action.latest?, hjob] using h)
  | subscribe | unsubscribe | receive => exact .inl h

end Action

/-- A broadcaster in use, and what every client has received. -/
structure Usage (α : Type) where
  hub : Broadcaster α := {}
  received : Nat → List α := fun _ => []

namespace Usage

/-- Does something with a broadcaster. A client for whom nothing waits receives nothing. The outcome is
none if the action would wait, or touch a closed queue. -/
def act? (u : Usage α) : Action α → Option (Usage α)
  | .subscribe job => (u.hub.subscribe? job).map fun r => { u with hub := r.2 }
  | .unsubscribe job client => (u.hub.unsubscribe? job client).map fun hub => { u with hub }
  | .broadcast job item => (u.hub.broadcast? job item).map fun hub => { u with hub }
  | .cleanup job => (u.hub.cleanup? job).map fun hub => { u with hub }
  | .receive client =>
    match u.hub.receive? client with
    | none => some u
    | some (item, hub) =>
      some { hub, received := fun c => if c = client then u.received c ++ [item] else u.received c }

/-- What a client has received, followed by what waits for it. -/
def delivered (u : Usage α) (client : Nat) : List α :=
  u.received client ++ u.hub.waiting client

end Usage

/-- What was done with a broadcaster, in order. -/
abbrev History (α : Type) := List (Action α)

namespace History

/-- The broadcaster after a history. -/
def run? (history : History α) : Option (Usage α) :=
  history.foldlM Usage.act? {}

/-- The jobs of all clients there ever were, by client. -/
def subscribers (history : History α) : List String :=
  history.filterMap Action.newcomer?

/-- The latest item that was broadcast for a job since it was cleaned up. -/
def latest? (history : History α) (job : String) : Option α :=
  history.foldl (Action.latest? job) none

/-- The number of items that wait for a client after a history. -/
def backlog (history : History α) (client : Nat) : Nat :=
  history.run?.elim 0 fun u => (u.hub.waiting client).length

/-- The items that are broadcast for a job after its client has come and before it goes, each with all
that was done before. -/
def offers (job : String) (client : Nat) : (before after : History α) → List (History α × α)
  | _, [] => []
  | before, a :: after =>
    if a.ends job client then []
    else (a.item? job).toList.map (before, ·) ++ offers job client (before ++ [a]) after

theorem run?_concat (history : History α) (a : Action α) :
    run? (history ++ [a]) = (run? history).bind (·.act? a) := by
  simp [run?, List.foldlM_append]

theorem subscribers_concat (history : History α) (a : Action α) :
    subscribers (history ++ [a]) = subscribers history ++ a.newcomer?.toList := by
  cases h : a.newcomer? <;> simp [subscribers, h]

theorem latest?_concat (history : History α) (a : Action α) (job : String) :
    latest? (history ++ [a]) job = a.latest? job (latest? history job) := by
  simp [latest?, List.foldl_append]

theorem backlog_eq {history : History α} {u : Usage α} (h : history.run? = some u) (client : Nat) :
    history.backlog client = (u.hub.waiting client).length := by
  simp [backlog, h]

/-- To a client that has gone nothing more is offered. -/
theorem offers_append (job : String) (client : Nat) (before after later : History α) :
    offers job client before (after ++ later) = offers job client before after ++
      if ∀ a ∈ after, a.ends job client = false
        then offers job client (before ++ after) later else [] := by
  induction after generalizing before with
  | nil => simp [offers]
  | cons a after ih =>
      by_cases h : a.ends job client = true
      · simp [offers, h]
      · simp only [List.cons_append, offers, h, ih, List.forall_mem_cons, List.append_assoc]
        simp

/-- An action that ends a subscription offers nothing. -/
theorem offers_singleton (job : String) (client : Nat) (before : History α) (a : Action α) :
    offers job client before [a] = (a.item? job).toList.map (before, ·) := by
  by_cases h : a.ends job client = true
  · simp [offers, h, Action.item?_of_ends h]
  · simp [offers, h]

theorem mem_of_mem_offers {job : String} {client : Nat} {before after : History α} {o : History α × α}
    (h : o ∈ offers job client before after) : .broadcast job o.2 ∈ after := by
  induction after generalizing before with
  | nil => simp [offers] at h
  | cons a after ih =>
      rw [offers] at h
      split at h
      · simp at h
      · rcases List.mem_append.mp h with h | h
        · obtain ⟨x, hx, rfl⟩ := List.mem_map.mp h
          rw [Action.eq_of_item? (Option.mem_toList.mp hx)]
          exact List.mem_cons_self
        · exact List.mem_cons_of_mem a (ih h)

theorem mem_of_latest? {history : History α} {job : String} {x : α} (h : history.latest? job = some x) :
    .broadcast job x ∈ history := by
  induction history using List.reverseRecOn with
  | nil => simp [latest?] at h
  | append_singleton history a ih =>
      rw [latest?_concat] at h
      rcases Action.of_latest? h with h | rfl
      · exact List.mem_append_left _ (ih h)
      · exact List.mem_append_right _ List.mem_cons_self

/-- The last action of a history is the coming of a client, or one after it. -/
theorem split_concat {history before after : History α} {a : Action α} {job : String}
    (h : history ++ [a] = before ++ .subscribe job :: after) :
    (after = [] ∧ history = before ∧ a = .subscribe job) ∨
      ∃ rest, after = rest ++ [a] ∧ history = before ++ .subscribe job :: rest := by
  rcases List.eq_nil_or_concat after with rfl | ⟨rest, last, rfl⟩
  · obtain ⟨rfl, hlast⟩ := List.append_inj' h rfl
    exact .inl ⟨rfl, rfl, (List.cons.inj hlast).1⟩
  · rw [List.concat_eq_append, ← List.cons_append, ← List.append_assoc] at h
    obtain ⟨hrest, hlast⟩ := List.append_inj' h rfl
    obtain rfl := (List.cons.inj hlast).1
    exact .inr ⟨rest, List.concat_eq_append, hrest⟩

theorem subscribers_split (before after : History α) (job : String) :
    (subscribers (before ++ .subscribe job :: after))[(subscribers before).length]? = some job := by
  simp [subscribers, Action.newcomer?]

end History

/-! ## Accounts -/

open History

/-- What a history says about the broadcaster after it. -/
structure Account (history : History α) (u : Usage α) : Prop where
  run_eq : history.run? = some u
  sound : u.hub.Sound
  length_eq : u.hub.queues.length = (subscribers history).length
  latest_eq : ∀ job, u.hub.sent.lookup job = history.latest? job
  unborn : ∀ c, (subscribers history).length ≤ c → u.received c = []
  owner : ∀ job c, (job, c) ∈ u.hub.members → (subscribers history)[c]? = some job
  /-- A client is there until an action ends its subscription. -/
  present_iff : ∀ before job after, history = before ++ .subscribe job :: after →
    ((job, (subscribers before).length) ∈ u.hub.members ↔
      ∀ a ∈ after, a.ends job (subscribers before).length = false)
  delivered_eq : ∀ before job after, history = before ++ .subscribe job :: after →
    u.delivered (subscribers before).length = (latest? before job).toList ++
      ((offers job (subscribers before).length (before ++ [.subscribe job]) after).filter
        fun o => backlog o.1 (subscribers before).length ≠ Queue.capacity).map (·.2)

/-- What one action changes. -/
structure Usage.Acts (u : Usage α) (a : Action α) (u' : Usage α) : Prop where
  act_eq : u.act? a = some u'
  sound : u'.hub.Sound
  length_eq : u'.hub.queues.length = u.hub.queues.length + a.newcomer?.toList.length
  latest_eq : ∀ job, u'.hub.sent.lookup job = a.latest? job (u.hub.sent.lookup job)
  mem_iff : ∀ job c, (job, c) ∈ u'.hub.members ↔ (job, c) ∈ u.hub.members ∧ a.ends job c = false ∨
    a.newcomer? = some job ∧ c = u.hub.queues.length
  unborn : ∀ c, u.hub.queues.length ≤ c → u'.received c = u.received c
  newcomer : ∀ job, a.newcomer? = some job →
    u'.hub.waiting u.hub.queues.length = (u.hub.sent.lookup job).toList
  /-- A client gets what is broadcast for its job, unless its queue is full. -/
  delivered_eq : ∀ c < u.hub.queues.length, ∀ job,
    (∀ other, (other, c) ∈ u.hub.members → other = job) →
    u'.delivered c = u.delivered c ++
      if (job, c) ∈ u.hub.members ∧ (u.hub.waiting c).length ≠ Queue.capacity
        then (a.item? job).toList else []

namespace Usage

variable {u : Usage α}

theorem acts_subscribe (h : u.hub.Sound) (job : String) : ∃ u', u.Acts (.subscribe job) u' := by
  refine ⟨{ u with hub := _ }, by rw [act?, subscribe?_eq]; rfl, h.subscribe job _,
    by simp [Action.newcomer?], fun _ => rfl, fun other c => ?_, fun _ _ => rfl, fun other hother => ?_,
    fun c hc other _ => ?_⟩
  · simp [Action.ends, Action.newcomer?, eq_comm]
  · obtain rfl : job = other := Option.some.inj hother
    simp [waiting]
  · simp only [Action.item?, Option.toList_none, ite_self, List.append_nil]
    simp [delivered, waiting, List.getElem?_append_left hc]

theorem acts_unsubscribe (h : u.hub.Sound) (job : String) (client : Nat) :
    ∃ u', u.Acts (.unsubscribe job client) u' := by
  obtain ⟨hub, hact, hsound, hsent, hmembers, hlength, hwaiting⟩ := h.unsubscribe job client
  refine ⟨{ u with hub }, by simp [act?, hact], hsound, by simp [hlength, Action.newcomer?],
    fun other => by simp [hsent, Action.latest?], fun other c => ?_, fun _ _ => rfl, (fun _ h => by cases h),
    fun c hc other _ => ?_⟩
  · rw [hmembers, List.mem_filter]
    simp [Action.ends, Action.newcomer?, @eq_comm _ other, @eq_comm _ c, imp_iff_not_or]
  · simp [delivered, hwaiting, Action.item?]

theorem acts_cleanup (h : u.hub.Sound) (job : String) : ∃ u', u.Acts (.cleanup job) u' := by
  obtain ⟨hub, hact, hsound, hsent, hmembers, hlength, hwaiting⟩ := h.cleanup job
  refine ⟨{ u with hub }, by simp [act?, hact], hsound, by simp [hlength, Action.newcomer?],
    fun other => ?_, fun other c => ?_, fun _ _ => rfl, (fun _ h => by cases h), fun c hc other _ => ?_⟩
  · rw [hsent, lookup_filter_ne]
    exact if_congr eq_comm rfl rfl
  · rw [hmembers, List.mem_filter]
    simp [Action.ends, Action.newcomer?, @eq_comm _ other]
  · simp [delivered, hwaiting, Action.item?]

theorem acts_broadcast (h : u.hub.Sound) (job : String) (item : α) :
    ∃ u', u.Acts (.broadcast job item) u' := by
  obtain ⟨hub, hact, hsound, hsent, hmembers, hlength, hwaiting⟩ := h.broadcast job item
  refine ⟨{ u with hub }, by simp [act?, hact], hsound, by simp [hlength, Action.newcomer?],
    fun other => ?_, fun other c => ?_, fun _ _ => rfl, (fun _ h => by cases h), fun c hc other honly => ?_⟩
  · rw [hsent, lookup_cons_eq]
    exact if_congr eq_comm rfl rfl
  · simp [hmembers, Action.ends, Action.newcomer?]
  · by_cases hjob : job = other
    · subst hjob
      simp only [delivered, hwaiting, Action.item?, ↓reduceIte, Option.toList_some]
      split <;> simp
    · have habsent : (job, c) ∉ u.hub.members := fun hmem => hjob (honly job hmem)
      simp [delivered, hwaiting, Action.item?, hjob, habsent]

theorem acts_receive (h : u.hub.Sound) (client : Nat) : ∃ u', u.Acts (.receive client) u' := by
  rcases h.receive client with ⟨hnone, -⟩ |
    ⟨item, rest, hub, hsome, hitems, hsound, hsent, hmembers, hlength, hwaiting⟩
  · exact ⟨u, by simp [act?, hnone], h, by simp [Action.newcomer?], fun _ => rfl,
      by simp [Action.ends, Action.newcomer?], fun _ _ => rfl, (fun _ h => by cases h),
      by simp [Action.item?]⟩
  · have hlt : client < u.hub.queues.length := by
      by_contra hge
      simp [waiting, List.getElem?_eq_none (not_lt.mp hge)] at hitems
    refine ⟨{ hub, received := _ }, by simp [act?, hsome]; rfl, hsound,
      by simp [hlength, Action.newcomer?], fun other => by simp [hsent, Action.latest?],
      fun other c => by simp [hmembers, Action.ends, Action.newcomer?], fun c hc => ?_,
      (fun _ h => by cases h), fun c hc other _ => ?_⟩
    · exact if_neg (by omega)
    · by_cases heq : c = client
      · subst heq
        simp [delivered, hwaiting, hitems, Action.item?]
      · simp [delivered, hwaiting, heq, Action.item?]

/-- Whatever is done with a sound broadcaster can be done at once. -/
theorem exists_acts (h : u.hub.Sound) (a : Action α) : ∃ u', u.Acts a u' := by
  cases a with
  | subscribe job => exact acts_subscribe h job
  | unsubscribe job client => exact acts_unsubscribe h job client
  | broadcast job item => exact acts_broadcast h job item
  | cleanup job => exact acts_cleanup h job
  | receive client => exact acts_receive h client

end Usage

namespace Account

variable {history : History α} {u u' : Usage α}

theorem nil : Account ([] : History α) {} where
  run_eq := rfl
  sound := ⟨by simp, by simp, by simp⟩
  length_eq := rfl
  latest_eq _ := rfl
  unborn _ _ := rfl
  owner := by simp
  present_iff before job after h := by simp at h
  delivered_eq before job after h := by simp at h

/-- The client that comes next, and those that came before. -/
theorem lt_length (before after : History α) (job : String) :
    (subscribers before).length < (subscribers (before ++ .subscribe job :: after)).length :=
  (List.getElem?_eq_some_iff.mp (subscribers_split before after job)).1

theorem concat (h : Account history u) {a : Action α} (hact : u.Acts a u') :
    Account (history ++ [a]) u' where
  run_eq := by rw [run?_concat, h.run_eq, Option.bind_some, hact.act_eq]
  sound := hact.sound
  length_eq := by rw [hact.length_eq, h.length_eq, subscribers_concat, List.length_append]
  latest_eq job := by rw [hact.latest_eq, h.latest_eq, latest?_concat]
  unborn c hc := by
    rw [subscribers_concat, List.length_append] at hc
    rw [hact.unborn c (by rw [h.length_eq]; omega), h.unborn c (by omega)]
  owner job c hmem := by
    rw [subscribers_concat]
    rcases (hact.mem_iff job c).mp hmem with ⟨hmem, -⟩ | ⟨hnew, rfl⟩
    · have hjob := h.owner job c hmem
      rw [List.getElem?_append_left (List.getElem?_eq_some_iff.mp hjob).1, hjob]
    · simp [hnew, h.length_eq]
  present_iff before job after hsplit := by
    rw [hact.mem_iff, h.length_eq]
    rcases split_concat hsplit with ⟨rfl, rfl, rfl⟩ | ⟨rest, rfl, rfl⟩
    · simp [Action.newcomer?]
    · have hlt := lt_length before rest job
      simp [h.present_iff before job rest rfl, hlt.ne, or_imp, forall_and]
  delivered_eq before job after hsplit := by
    rcases split_concat hsplit with ⟨rfl, rfl, rfl⟩ | ⟨rest, rfl, rfl⟩
    · have hreceived := hact.unborn _ h.length_eq.le
      rw [h.unborn _ le_rfl] at hreceived
      have hwaiting := hact.newcomer job rfl
      rw [h.length_eq, h.latest_eq] at hwaiting
      simp [Usage.delivered, hreceived, hwaiting, offers]
    · have hlt := lt_length before rest job
      have honly : ∀ other, (other, (subscribers before).length) ∈ u.hub.members → other = job := by
        intro other hmem
        have howner := h.owner _ _ hmem
        rw [subscribers_split] at howner
        exact (Option.some.inj howner).symm
      have hbacklog := backlog_eq h.run_eq (subscribers before).length
      have hpresent := h.present_iff before job rest rfl
      rw [hact.delivered_eq _ (h.length_eq ▸ hlt) job honly, h.delivered_eq before job rest rfl,
        offers_append, offers_singleton, List.filter_append, List.map_append, List.append_assoc,
        List.append_assoc]
      by_cases hstays : ∀ a' ∈ rest, a'.ends job (subscribers before).length = false
      · rw [if_pos hstays]
        by_cases hfull : (u.hub.waiting (subscribers before).length).length = Queue.capacity
        · simp [hfull, hbacklog, List.filter_map, Function.comp_def]
        · simp [hpresent.mpr hstays, hfull, hbacklog, List.filter_map, Function.comp_def]
      · simp [hstays, mt hpresent.mp hstays]

/-- Every history can be run, and what it says holds. -/
theorem exists_of_history (history : History α) : ∃ u, Account history u := by
  induction history using List.reverseRecOn with
  | nil => exact ⟨_, nil⟩
  | append_singleton history a ih =>
      obtain ⟨u, h⟩ := ih
      obtain ⟨u', hact⟩ := Usage.exists_acts h.sound a
      exact ⟨u', h.concat hact⟩

/-- Nobody is told of another job. -/
theorem mem_of_delivered (h : Account history u) {before after : History α} {job : String} {x : α}
    (hsplit : history = before ++ .subscribe job :: after)
    (hx : x ∈ u.delivered (subscribers before).length) : .broadcast job x ∈ history := by
  rw [h.delivered_eq before job after hsplit] at hx
  rw [hsplit]
  rcases List.mem_append.mp hx with hx | hx
  · exact List.mem_append_left _ (mem_of_latest? (Option.mem_toList.mp hx))
  · obtain ⟨o, ho, rfl⟩ := List.mem_map.mp hx
    have hoffer := mem_of_mem_offers (List.mem_of_mem_filter ho)
    exact List.mem_append_right _ (List.mem_cons_of_mem _ hoffer)

/-- An item that is broadcast only once is delivered to a client that stays if there is room for it. -/
theorem mem_delivered_iff {before middle tail : History α} {job : String} {x : α}
    (h : Account (before ++ .subscribe job :: (middle ++ .broadcast job x :: tail)) u)
    (hstays : ∀ a ∈ middle, a.ends job (subscribers before).length = false)
    (honly : .broadcast job x ∉ before ++ middle ++ tail) :
    x ∈ u.delivered (subscribers before).length ↔
      backlog (before ++ .subscribe job :: middle) (subscribers before).length ≠ Queue.capacity := by
  simp only [List.mem_append, not_or] at honly
  have hsplit : offers job (subscribers before).length (before ++ [Action.subscribe job])
      (middle ++ Action.broadcast job x :: tail) =
        offers job (subscribers before).length (before ++ [Action.subscribe job]) middle ++
          (before ++ Action.subscribe job :: middle, x) ::
            offers job (subscribers before).length
              (before ++ Action.subscribe job :: (middle ++ [Action.broadcast job x])) tail := by
    rw [offers_append, if_pos hstays]
    simp [offers, Action.ends, Action.item?]
  rw [h.delivered_eq before job _ rfl, hsplit]
  constructor
  · intro hx
    rcases List.mem_append.mp hx with hx | hx
    · exact absurd (mem_of_latest? (Option.mem_toList.mp hx)) honly.1.1
    · obtain ⟨o, ho, rfl⟩ := List.mem_map.mp hx
      obtain ⟨ho, hroom⟩ := List.mem_filter.mp ho
      rcases List.mem_append.mp ho with ho | ho
      · exact absurd (mem_of_mem_offers ho) honly.1.2
      · rcases List.mem_cons.mp ho with heq | ho
        · rw [heq] at hroom
          simpa using hroom
        · exact absurd (mem_of_mem_offers ho) honly.2
  · intro hroom
    apply List.mem_append_right
    exact List.mem_map.mpr ⟨(before ++ .subscribe job :: middle, x),
      List.mem_filter.mpr ⟨by simp, by simpa using hroom⟩, rfl⟩

theorem delivered_unborn (h : Account history u) {c : Nat} (hc : (subscribers history).length ≤ c) :
    u.delivered c = [] := by
  have hqueue : u.hub.queues[c]? = none := List.getElem?_eq_none (h.length_eq ▸ hc)
  simp [Usage.delivered, h.unborn c hc, waiting, hqueue]

/-- Who has just come has received nothing. -/
theorem received_newcomer {before : History α} {job : String} (h : Account (before ++ [.subscribe job]) u) :
    u.received (subscribers before).length = [] := by
  obtain ⟨v, hv⟩ := exists_of_history before
  obtain ⟨v', hact⟩ := Usage.exists_acts hv.sound (.subscribe job)
  obtain rfl : v' = u := Option.some.inj ((hv.concat hact).run_eq.symm.trans h.run_eq)
  rw [hact.unborn _ hv.length_eq.le, hv.unborn _ le_rfl]

/-- Clients are numbered as they come. -/
theorem subscribe?_fst (h : Account history u) (job : String) :
    (u.hub.subscribe? job).map (·.1) = some (subscribers history).length := by
  rw [subscribe?_eq, ← h.length_eq]
  rfl

end Account

/-- Whatever is done with a broadcaster, in whatever order, nothing waits and no closed queue is touched.
A client, whose number is how many came before it, is delivered the latest item of its job when it came,
and then each item that was broadcast for the job until it went, in order and once, without those for
which it had no room. It is delivered nothing else, and who did not come is delivered nothing. -/
theorem run_delivers (history : History α) :
    ∃ u, history.run? = some u ∧
      (∀ (before after : History α) (job : String), history = before ++ .subscribe job :: after →
        ∃ u₀ c, before.run? = some u₀ ∧ (u₀.hub.subscribe? job).map (·.1) = some c ∧
          u.delivered c = (before.latest? job).toList ++
            ((offers job c (before ++ [.subscribe job]) after).filter
              fun o => o.1.backlog c ≠ Queue.capacity).map (·.2) ∧
          ∀ x ∈ u.delivered c, .broadcast job x ∈ history) ∧
      ∀ c, history.subscribers.length ≤ c → u.delivered c = [] := by
  obtain ⟨u, h⟩ := Account.exists_of_history history
  refine ⟨u, h.run_eq, fun before after job hsplit => ?_, fun c hc => h.delivered_unborn hc⟩
  obtain ⟨u₀, h₀⟩ := Account.exists_of_history before
  exact ⟨u₀, before.subscribers.length, h₀.run_eq, h₀.subscribe?_fst job,
    h.delivered_eq before job after hsplit, fun x hx => h.mem_of_delivered hsplit hx⟩

end Broadcaster

end Tuning
