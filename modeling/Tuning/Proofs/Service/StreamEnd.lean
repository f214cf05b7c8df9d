import Mathlib
import Tuning.Proofs.Service.Delivery
import Tuning.Service.Stream

/-! # The end of a stream

A stream ends when it writes the event that says that its job has ended. The queue of its client is
bounded, and an event that finds it full is lost, this one like any other: a client that is sixteen
events behind when its job ends is never told, and its stream does not end. Main statement: the client
is told, and the stream ends, if and only if there was room for the event. -/

namespace Tuning

open Broadcaster Broadcaster.History

/-! ## Receiving -/

namespace Broadcaster

variable {α : Type} {u v u' : Usage α} {a : Action α} {client : Nat}

/-- The client that takes something out of the own queue. -/
def Action.receiver? : Action α → Option Nat
  | receive client => some client
  | _ => none

/-- What is done to a broadcaster does not depend on what was received before. -/
theorem Usage.act?_congr (hhub : v.hub = u.hub) (h : u.act? a = some u') :
    ∃ v', v.act? a = some v' ∧ v'.hub = u'.hub := by
  cases a with
  | receive client =>
      simp only [act?, hhub] at h ⊢
      cases hr : u.hub.receive? client with
      | none =>
          simp only [hr, Option.some.injEq] at h
          exact ⟨v, rfl, by rw [hhub, h]⟩
      | some r =>
          simp only [hr, Option.some.injEq] at h
          exact ⟨_, rfl, by rw [← h]⟩
  | subscribe | unsubscribe | broadcast | cleanup =>
      simp only [act?, hhub, Option.map_eq_some_iff] at h ⊢
      obtain ⟨r, hr, rfl⟩ := h
      exact ⟨_, ⟨r, hr, rfl⟩, rfl⟩

theorem Usage.received_of_ne (h : u.act? a = some u') (ha : a.receiver? ≠ some client) :
    u'.received client = u.received client := by
  cases a with
  | receive other =>
      have hne : client ≠ other := fun heq => ha (by rw [heq]; rfl)
      simp only [act?] at h
      split at h
      · obtain rfl := Option.some.inj h
        rfl
      · obtain rfl := Option.some.inj h
        exact if_neg hne
  | subscribe | unsubscribe | broadcast | cleanup =>
      simp only [act?, Option.map_eq_some_iff] at h
      obtain ⟨r, -, rfl⟩ := h
      rfl

theorem Usage.receive_cases (h : u.act? (.receive client) = some u') :
    (u.hub.receive? client = none ∧ u' = u) ∨
      ∃ x, u.hub.receive? client = some (x, u'.hub) ∧
        u'.received client = u.received client ++ [x] := by
  simp only [act?] at h
  split at h
  · next hr => exact .inl ⟨hr, (Option.some.inj h).symm⟩
  · next x hub hr =>
      obtain rfl := Option.some.inj h
      exact .inr ⟨x, hr, if_pos rfl⟩

theorem isClosed_eq_false {b : Broadcaster α} (h : b.Sound) {job : String} (hm : (job, client) ∈ b.members) :
    b.isClosed client = false := by
  obtain ⟨q, hq, hopen⟩ := h.isOpen _ hm
  simp [isClosed, hq, hopen]

end Broadcaster

/-! ## Streams -/

/-- Whether an event can be written and does not end a stream. -/
def Event.Passes (e : Event) : Prop :=
  e.state.terminal = false ∧ ∃ document, e.encode = .ok document

namespace Service

variable {s : Service} {st : Stream} {e : Event}

/-- An action on the broadcaster of a service. What the client of a stream takes out is written, until
the stream has ended. -/
def follow? (w : Stream × Service) (a : Broadcaster.Action Event) : Option (Stream × Service) :=
  if a.receiver? = some w.1.client then some (w.2.pumpEvents 1 w.1)
  else (Usage.act? { hub := w.2.hub } a).map fun u => (w.1, { w.2 with hub := u.hub })

theorem forward_of_passes (hlimit : st.remaining = none) (h : e.Passes) :
    ∃ text, s.forward st e = ({ st with written := text :: st.written }, s) := by
  obtain ⟨hstate, document, hencode⟩ := h
  simp [forward, Stream.writeEvent?, hencode, Stream.write?, hlimit, hstate]

theorem forward_of_not_passes (hlimit : st.remaining = none) (h : ¬ e.Passes) :
    ∃ written, s.forward st e = s.closeStream { st with written } := by
  cases hencode : e.encode with
  | error error => exact ⟨st.written, by simp [forward, Stream.writeEvent?, hencode]⟩
  | ok document =>
      have hstate : e.state.terminal = true := by
        by_contra hstate
        exact h ⟨by simpa using hstate, document, hencode⟩
      refine ⟨("data: " ++ document.compact ++ "\n\n") :: st.written, ?_⟩
      simp [forward, Stream.writeEvent?, hencode, Stream.write?, hlimit, hstate]

theorem sound_closeStream (h : s.hub.Sound) (st : Stream) : (s.closeStream st).2.hub.Sound := by
  obtain ⟨hub, hunsubscribe, hsound, -⟩ := h.unsubscribe st.job st.client
  simpa [closeStream, hunsubscribe] using hsound

theorem pumpEvents_one_none (hopen : st.isOpen = true) (hnone : s.hub.receive? st.client = none)
    (hclosed : s.hub.isClosed st.client = false) : s.pumpEvents 1 st = (st, s) := by
  simp [pumpEvents, hopen, hnone, hclosed]

theorem pumpEvents_one_some {hub : Broadcaster Event} (hopen : st.isOpen = true)
    (hsome : s.hub.receive? st.client = some (e, hub)) :
    s.pumpEvents 1 st = forward { s with hub } st e := by
  simp [pumpEvents, hopen, hsome]

/-- A stream is as far as its client: it is open as long as all that was received could be written and
told of no end. -/
structure Mirrors (client : Nat) (w : Stream × Service) (u : Usage Event) : Prop where
  client_eq : w.1.client = client
  unlimited : w.1.remaining = none
  sound : w.2.hub.Sound
  hub_eq : w.1.isOpen = true → w.2.hub = u.hub
  isOpen_iff : w.1.isOpen = true ↔ ∀ e ∈ u.received client, e.Passes

namespace Mirrors

variable {client : Nat} {w : Stream × Service} {u u' : Usage Event} {a : Broadcaster.Action Event}

theorem follow_other (h : Mirrors client w u) (hact : u.act? a = some u')
    (ha : a.receiver? ≠ some client) : ∃ w', follow? w a = some w' ∧ Mirrors client w' u' := by
  obtain ⟨v', hv⟩ := Usage.exists_acts (u := { hub := w.2.hub }) h.sound a
  refine ⟨(w.1, { w.2 with hub := v'.hub }), by simp [follow?, h.client_eq, ha, hv.act_eq],
    h.client_eq, h.unlimited, hv.sound, fun hopen => ?_, ?_⟩
  · obtain ⟨v'', hact', hhub⟩ := Usage.act?_congr (v := { hub := w.2.hub }) (h.hub_eq hopen) hact
    rw [← hhub, Option.some.inj (hv.act_eq.symm.trans hact')]
  · rw [Usage.received_of_ne hact ha]
    exact h.isOpen_iff

theorem follow_receive (h : Mirrors client w u) (hact : u.act? (.receive client) = some u')
    (hsound' : u'.hub.Sound) (hclosed : u.hub.isClosed client = false) :
    ∃ w', follow? w (.receive client) = some w' ∧ Mirrors client w' u' := by
  refine ⟨w.2.pumpEvents 1 w.1, by simp [follow?, Broadcaster.Action.receiver?, h.client_eq], ?_⟩
  by_cases hopen : w.1.isOpen = true
  · have hhub := h.hub_eq hopen
    have hpasses := h.isOpen_iff.mp hopen
    rcases Usage.receive_cases hact with ⟨hnone, rfl⟩ | ⟨e, hsome, hreceived⟩
    · rw [pumpEvents_one_none hopen (by rw [hhub, h.client_eq, hnone])
        (by rw [hhub, h.client_eq, hclosed])]
      exact h
    · rw [pumpEvents_one_some hopen (by rw [hhub, h.client_eq, hsome])]
      by_cases hpass : e.Passes
      · obtain ⟨text, hforward⟩ := forward_of_passes (s := { w.2 with hub := u'.hub }) h.unlimited hpass
        rw [hforward]
        refine ⟨h.client_eq, h.unlimited, hsound', fun _ => rfl, ?_⟩
        simpa [hopen, hreceived, hpass, or_imp, forall_and] using hpasses
      · obtain ⟨written, hforward⟩ :=
          forward_of_not_passes (s := { w.2 with hub := u'.hub }) h.unlimited hpass
        rw [hforward]
        refine ⟨h.client_eq, h.unlimited, sound_closeStream hsound' _, nofun, ?_⟩
        simp [closeStream, hreceived, hpass]
  · -- a stream that has ended stays as it is, and what its client has received stays received
    have hsame : w.2.pumpEvents 1 w.1 = w := by simp [pumpEvents, hopen]
    rw [hsame]
    refine ⟨h.client_eq, h.unlimited, h.sound, fun hopen' => absurd hopen' hopen, ?_⟩
    have hbad := mt h.isOpen_iff.mpr hopen
    refine iff_of_false hopen fun hall => hbad fun e he => hall e ?_
    rcases Usage.receive_cases hact with ⟨-, rfl⟩ | ⟨e', -, hreceived⟩
    · exact he
    · rw [hreceived]
      exact List.mem_append_left _ he

/-- While the client of a stream stays, the stream keeps up with it. -/
theorem exists_follow {before after : History Event} {job : String} {u₀ : Usage Event}
    (h₀ : Account (before ++ [.subscribe job]) u₀) (hhub : w.2.hub = u₀.hub)
    (hclient : w.1.client = (subscribers before).length) (hopen : w.1.isOpen = true)
    (hlimit : w.1.remaining = none)
    (hstays : ∀ a ∈ after, a.ends job (subscribers before).length = false)
    (h : Account (before ++ .subscribe job :: after) u) :
    ∃ w', after.foldlM follow? w = some w' ∧ Mirrors (subscribers before).length w' u := by
  induction after using List.reverseRecOn generalizing u with
  | nil =>
      obtain rfl : u₀ = u := Option.some.inj (h₀.run_eq.symm.trans h.run_eq)
      refine ⟨w, rfl, hclient, hlimit, hhub ▸ h₀.sound, fun _ => hhub, ?_⟩
      simp [hopen, h₀.received_newcomer]
  | append_singleton after a ih =>
      obtain ⟨v, hv⟩ := Account.exists_of_history (before ++ .subscribe job :: after)
      obtain ⟨v', hact⟩ := Usage.exists_acts hv.sound a
      have hrun := (hv.concat hact).run_eq
      rw [List.append_assoc, List.cons_append, h.run_eq] at hrun
      obtain rfl := Option.some.inj hrun
      have hstays' : ∀ a ∈ after, a.ends job (subscribers before).length = false :=
        fun a ha => hstays a (List.mem_append_left _ ha)
      obtain ⟨w', hfollow, hmirrors⟩ := ih hstays' hv
      have hmember := (hv.present_iff before job after rfl).mpr hstays'
      have hstep : ∃ w'', follow? w' a = some w'' ∧ Mirrors (subscribers before).length w'' u := by
        by_cases ha : a = .receive (subscribers before).length
        · subst ha
          exact hmirrors.follow_receive hact.act_eq h.sound (isClosed_eq_false hv.sound hmember)
        · refine hmirrors.follow_other hact.act_eq fun hreceiver => ha ?_
          cases a <;> simp_all [Broadcaster.Action.receiver?]
      obtain ⟨w'', hfollow', hmirrors'⟩ := hstep
      exact ⟨w'', by simp [List.foldlM_append, hfollow, hfollow'], hmirrors'⟩

end Mirrors

end Service

namespace Broadcaster

/-- A client of a job that stays is told that the job has ended, once it has received all that waits, if
and only if its queue had room when that was broadcast; and a stream that writes what the client
receives ends if and only if this is so. -/
theorem end_received_iff (before middle tail : History Event) (job : String) (e : Event)
    (hend : e.state.terminal = true)
    (honly : ∀ x, .broadcast job x ∈ before ++ middle ++ tail → x.state.terminal = false)
    (hstays : ∀ a ∈ middle ++ tail, a.ends job before.subscribers.length = false) :
    ∃ u₀ u₁ u, run? (before ++ [.subscribe job]) = some u₀ ∧
      run? (before ++ .subscribe job :: middle) = some u₁ ∧
      run? (before ++ .subscribe job :: (middle ++ .broadcast job e :: tail)) = some u ∧
      (u.hub.waiting before.subscribers.length = [] →
        (e ∈ u.received before.subscribers.length ↔
          (u₁.hub.waiting before.subscribers.length).length ≠ Queue.capacity)) ∧
      ∀ (s : Service) (st : Stream), s.hub = u₀.hub → st.client = before.subscribers.length →
        st.isOpen = true → st.remaining = none →
        (∀ x, .broadcast job x ∈ before ++ middle ++ tail → ∃ document, x.encode = .ok document) →
        ∃ st' s', (middle ++ .broadcast job e :: tail).foldlM Service.follow? (st, s) = some (st', s') ∧
          ((st'.isOpen = true → s'.hub.waiting st.client = []) →
            (st'.isOpen = false ↔
              (u₁.hub.waiting before.subscribers.length).length ≠ Queue.capacity)) := by
  obtain ⟨u₀, h₀⟩ := Account.exists_of_history (before ++ [.subscribe job])
  obtain ⟨u₁, h₁⟩ := Account.exists_of_history (before ++ .subscribe job :: middle)
  obtain ⟨u, h⟩ := Account.exists_of_history
    (before ++ .subscribe job :: (middle ++ .broadcast job e :: tail))
  have honce : .broadcast job e ∉ before ++ middle ++ tail := fun hmem => by
    simpa [hend] using honly e hmem
  have hdelivered := h.mem_delivered_iff (fun a ha => hstays a (List.mem_append_left _ ha)) honce
  rw [backlog_eq h₁.run_eq] at hdelivered
  refine ⟨u₀, u₁, u, h₀.run_eq, h₁.run_eq, h.run_eq, fun hall => ?_,
    fun s st hhub hclient hopen hlimit hencodes => ?_⟩
  · rw [← hdelivered, Usage.delivered, hall, List.append_nil]
  · have hstays' : ∀ a ∈ middle ++ .broadcast job e :: tail,
        a.ends job before.subscribers.length = false := by
      simp only [List.mem_append, List.mem_cons] at hstays ⊢
      rintro a (ha | rfl | ha)
      · exact hstays a (.inl ha)
      · rfl
      · exact hstays a (.inr ha)
    obtain ⟨⟨st', s'⟩, hfollow, hmirrors⟩ :=
      Service.Mirrors.exists_follow (w := (st, s)) h₀ hhub hclient hopen hlimit hstays' h
    refine ⟨st', s', hfollow, fun hall => ?_⟩
    rw [← hdelivered, ← Bool.not_eq_true, hmirrors.isOpen_iff]
    constructor
    · -- all that was broadcast passes, apart from the one event
      intro hbad
      push Not at hbad
      obtain ⟨x, hx, hpass⟩ := hbad
      have hdelivered' : x ∈ u.delivered before.subscribers.length := List.mem_append_left _ hx
      have hsent := h.mem_of_delivered rfl hdelivered'
      by_cases hxe : x = e
      · rwa [← hxe]
      · have hother : .broadcast job x ∈ before ++ middle ++ tail := by
          simpa [hxe] using hsent
        exact absurd ⟨honly x hother, hencodes x hother⟩ hpass
    · intro hmem hpasses
      have hopen' := hmirrors.isOpen_iff.mpr hpasses
      have hwaiting := hall hopen'
      rw [hmirrors.hub_eq hopen', hclient] at hwaiting
      rw [Usage.delivered, hwaiting, List.append_nil] at hmem
      have hstate := (hpasses e hmem).1
      rw [hend] at hstate
      exact Bool.noConfusion hstate

/-- A client that reads in time is told that its job has ended, and its stream ends. -/
theorem end_received_in_time :
    let running : Event := { jobId := "a", state := .running }
    let completed : Event := { jobId := "a", state := .completed }
    let actions : History Event := [.broadcast "a" running, .receive 0, .broadcast "a" completed, .receive 0]
    ∃ u, run? (.subscribe "a" :: actions) = some u ∧ completed ∈ u.received 0 ∧
      ∀ (s : Service) (st : Stream), s.hub = { queues := [{}], members := [("a", 0)] } → st.client = 0 →
        st.isOpen = true → st.remaining = none →
        ∃ st' s', actions.foldlM Service.follow? (st, s) = some (st', s') ∧
          ((st'.isOpen = true → s'.hub.waiting st.client = []) → st'.isOpen = false) := by
  intro running completed actions
  have hencodes : ∀ x : Event, .broadcast "a" x ∈
      ([] ++ [.broadcast "a" running, .receive 0] ++ [.receive 0] : History Event) →
        ∃ document, x.encode = .ok document := by
    intro x hx
    obtain rfl : x = running := by simpa using hx
    have hok : running.encode.isOk = true := by decide +kernel
    cases hencode : running.encode with
    | ok document => exact ⟨document, rfl⟩
    | error error => simp [hencode, Except.isOk, Except.toBool] at hok
  obtain ⟨u₀, u₁, u, hrun₀, hrun₁, hrun, hiff, hstream⟩ :=
    end_received_iff [] [.broadcast "a" running, .receive 0] [.receive 0] "a" completed rfl
      (by simp [running, JobState.terminal]) (by simp [Action.ends])
  obtain rfl := Option.some.inj hrun₀
  obtain rfl := Option.some.inj hrun₁
  obtain rfl := Option.some.inj hrun
  refine ⟨_, rfl, (hiff rfl).mpr (by decide), fun s st hhub hclient hopen hlimit => ?_⟩
  obtain ⟨st', s', hfollow, hends⟩ := hstream s st hhub hclient hopen hlimit hencodes
  exact ⟨st', s', hfollow, fun hall => (hends hall).mpr (by decide)⟩

/-- A client that is sixteen events behind is never told that its job has ended. -/
theorem end_not_received :
    let running : Event := { jobId := "a", state := .running }
    let completed : Event := { jobId := "a", state := .completed }
    ∃ u, run? (.subscribe "a" :: (List.replicate 16 (.broadcast "a" running) ++
        .broadcast "a" completed :: List.replicate 17 (.receive 0))) = some u ∧
      u.hub.waiting 0 = [] ∧ u.received 0 = List.replicate 16 running :=
  ⟨_, rfl, rfl, rfl⟩

end Broadcaster

end Tuning
