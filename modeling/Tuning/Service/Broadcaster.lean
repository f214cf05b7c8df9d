/-! # Broadcasting

Clients subscribe to a job and get what is broadcast for it. Every client has a queue of its own that
holds a few items; a client that falls behind misses items, and nobody waits for it. -/

namespace Tuning

/-- A queue of bounded length. -/
structure Queue (α : Type) where
  /-- The items in it, the oldest first. -/
  waiting : List α := []
  closed : Bool := false

namespace Queue

variable {α : Type}

/-- The number of items that a queue can hold. -/
def capacity : Nat := 16

/-- Whether a queue holds all it can. -/
def isFull (q : Queue α) : Bool :=
  capacity ≤ q.waiting.length

/-- Puts an item into an open queue with room for it. -/
def put? (q : Queue α) (item : α) : Option (Queue α) :=
  if q.closed || q.isFull then none else some { q with waiting := q.waiting ++ [item] }

/-- Offers an item to an open queue, which loses it when it is full. -/
def offer? (q : Queue α) (item : α) : Option (Queue α) :=
  if q.closed then none
  else if q.isFull then some q
  else some { q with waiting := q.waiting ++ [item] }

/-- Closes an open queue. -/
def close? (q : Queue α) : Option (Queue α) :=
  if q.closed then none else some { q with closed := true }

/-- Takes out the oldest item. -/
def take? (q : Queue α) : Option (α × Queue α) :=
  match q.waiting with
  | [] => none
  | item :: waiting => some (item, { q with waiting })

end Queue

/-- Queues of clients, by job. -/
structure Broadcaster (α : Type) where
  /-- The queue of every client there ever was; clients are numbered in this order. -/
  queues : List (Queue α) := []
  /-- The clients of the jobs. -/
  members : List (String × Nat) := []
  /-- What was broadcast for jobs that have not been cleaned up since, the latest first. -/
  sent : List (String × α) := []

namespace Broadcaster

variable {α : Type}

/-- The clients of a job. -/
def clients (b : Broadcaster α) (job : String) : List Nat :=
  (b.members.filter (·.1 = job)).map (·.2)

/-- Changes the queue of a client. -/
def onQueue? (change : Queue α → Option (Queue α)) (queues : List (Queue α)) (client : Nat) :
    Option (List (Queue α)) :=
  match queues[client]? with
  | none => none
  | some q => (change q).map (queues.set client)

/-- Changes the queues of clients one after another. -/
def onQueues? (change : Queue α → Option (Queue α)) (queues : List (Queue α)) (clients : List Nat) :
    Option (List (Queue α)) :=
  clients.foldlM (onQueue? change) queues

/-- A new client of a job, who gets the latest item of the job at once. The outcome is none if the
item did not fit into the new queue. -/
def subscribe? (b : Broadcaster α) (job : String) : Option (Nat × Broadcaster α) :=
  let client := b.queues.length
  let queue : Option (Queue α) := match b.sent.lookup job with
    | none => some {}
    | some item => ({} : Queue α).put? item
  queue.map fun queue =>
    (client, { b with queues := b.queues ++ [queue], members := b.members ++ [(job, client)] })

/-- Lets a client of a job go and closes the queue; whoever is no client of the job is left alone. The
outcome is none if the queue was closed already. -/
def unsubscribe? (b : Broadcaster α) (job : String) (client : Nat) : Option (Broadcaster α) :=
  if (job, client) ∈ b.members then
    (onQueue? Queue.close? b.queues client).map fun queues =>
      { b with queues, members := b.members.filter (· ≠ (job, client)) }
  else some b

/-- Offers an item to the clients of a job and keeps it for clients to come. The outcome is none if the
queue of a client was closed. -/
def broadcast? (b : Broadcaster α) (job : String) (item : α) : Option (Broadcaster α) :=
  (onQueues? (·.offer? item) b.queues (b.clients job)).map fun queues =>
    { b with queues, sent := (job, item) :: b.sent }

/-- Lets all clients of a job go, closes their queues and forgets what was broadcast. The outcome is none
if the queue of a client was closed already. -/
def cleanup? (b : Broadcaster α) (job : String) : Option (Broadcaster α) :=
  (onQueues? Queue.close? b.queues (b.clients job)).map fun queues =>
    { queues, members := b.members.filter (·.1 ≠ job), sent := b.sent.filter (·.1 ≠ job) }

/-- A client takes the oldest item out of the own queue. -/
def receive? (b : Broadcaster α) (client : Nat) : Option (α × Broadcaster α) :=
  match b.queues[client]? with
  | none => none
  | some q => q.take?.map fun (item, q) => (item, { b with queues := b.queues.set client q })

/-- A client takes out everything that waits. -/
def drain (b : Broadcaster α) (client : Nat) : List α × Broadcaster α :=
  match b.queues[client]? with
  | none => ([], b)
  | some q => (q.waiting, { b with queues := b.queues.set client { q with waiting := [] } })

/-- Whether the queue of a client is closed. -/
def isClosed (b : Broadcaster α) (client : Nat) : Bool :=
  b.queues[client]?.all (·.closed)

end Broadcaster

end Tuning
