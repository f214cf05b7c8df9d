import Tuning.Service.Basic

/-! # Event streams

A client that follows a job first gets the job as it stands and then every event in its queue, until
the job has ended, its queue is closed, or the client is gone. -/

namespace Tuning

/-- A client that follows a job. -/
structure Stream where
  job : String
  client : Nat
  /-- What was written, the latest first. -/
  written : List String := []
  /-- How many more writes the client takes, if there is an end to it. -/
  remaining : Option Nat := none
  isOpen : Bool := true

namespace Stream

/-- Writes a text, unless the client takes no more. -/
def write? (st : Stream) (text : String) : Option Stream :=
  match st.remaining with
  | some 0 => none
  | remaining => some { st with written := text :: st.written, remaining := remaining.map (· - 1) }

/-- Writes an event. -/
def writeEvent? (st : Stream) (e : Event) : Option Stream :=
  match e.encode with
  | .ok document => st.write? ("data: " ++ document.compact ++ "\n\n")
  | .error _ => none

/-- Writes a sign of life; it does not matter whether it arrives. -/
def ping (st : Stream) : Stream :=
  if st.isOpen then (st.write? ": ping\n\n").getD st else st

/-- All that was written. -/
def text (st : Stream) : String :=
  String.join st.written.reverse

end Stream

namespace Service

/-- Ends a stream. -/
def closeStream (s : Service) (st : Stream) : Stream × Service :=
  ({ st with isOpen := false }, { s with hub := (s.hub.unsubscribe? st.job st.client).getD s.hub })

/-- Writes an event to a stream, which ends if that is impossible or the job has ended. -/
def forward (s : Service) (st : Stream) (e : Event) : Stream × Service :=
  match st.writeEvent? e with
  | none => s.closeStream st
  | some st => if e.state.terminal then s.closeStream st else (st, s)

/-- Writes the events that wait for a stream, so many at most. -/
def pumpEvents : (count : Nat) → Service → Stream → Stream × Service
  | 0, s, st => (st, s)
  | count + 1, s, st =>
    if st.isOpen then
      match s.hub.receive? st.client with
      | some (e, hub) =>
        let (st, s) := forward { s with hub } st e
        pumpEvents count s st
      | none => if s.hub.isClosed st.client then s.closeStream st else (st, s)
    else (st, s)

/-- Writes all events that wait for a stream. -/
def pump (s : Service) (st : Stream) : Stream × Service :=
  pumpEvents (Queue.capacity + 1) s st

/-- Starts to follow a job with a client that takes so many writes. -/
def openStream (s : Service) (job : Job) (writes : Option Nat) : Stream × Service :=
  let (client, hub) := (s.hub.subscribe? job.id).getD (s.hub.queues.length, s.hub)
  let (time, s) := { s with hub }.tick
  let st : Stream := { job := job.id, client, remaining := writes }
  let (st, s) := s.forward st (job.event time)
  s.pump st

end Service

end Tuning
