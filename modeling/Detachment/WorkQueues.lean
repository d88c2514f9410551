/-! # Work queues

One producer feeds a fixed number of workers. Each worker has a bounded queue; the producer fills
the queues in turn, and items are moved from a queue that is backed up to queues that run low. When
production has ended, a worker whose queue is empty takes items from the queues of others. Items are
evaluated in no particular order.

* `WorkQueues.push?`, `WorkQueues.pop?` and `WorkQueues.steal?` each touch one queue.
* `WorkQueues.rebalance` moves items in steps that each touch one queue.
* `WorkQueues.run` evaluates every item that is produced, or fails with an evaluation that failed.
  -/

namespace Detachment

/-- The queues of the workers. A queue that holds `capacity` items is full: `push?` puts nothing
into it. -/
structure WorkQueues (α : Type) where
  /-- The queue of each worker, first items first. -/
  queues : List (List α)
  /-- The number of items that the producer may put into a queue. -/
  capacity : Nat

namespace WorkQueues

variable {α β ε : Type}

/-- Empty queues; there is at least one, and it holds at least one item. -/
def ofSize (workers capacity : Nat) : WorkQueues α :=
  ⟨List.replicate (max workers 1) [], max capacity 1⟩

/-- The number of workers. -/
def workers (q : WorkQueues α) : Nat :=
  q.queues.length

/-- The queue of a worker, empty if there is no such worker. -/
def queue (q : WorkQueues α) (worker : Nat) : List α :=
  q.queues.getD worker []

/-- Replace the queue of a worker, and leave the others alone. -/
def set (q : WorkQueues α) (worker : Nat) (items : List α) : WorkQueues α :=
  { q with queues := q.queues.set worker items }

/-- All items in the queues, worker by worker. -/
def items (q : WorkQueues α) : List α :=
  q.queues.flatten

/-- Whether no queue holds an item, so that workers can return. -/
def isEmpty (q : WorkQueues α) : Bool :=
  q.queues.all List.isEmpty

/-! ## Single queues -/

/-- Put an item at the end of a queue, whether it is full or not. -/
def append (q : WorkQueues α) (worker : Nat) (item : α) : WorkQueues α :=
  q.set worker (q.queue worker ++ [item])

/-- Put an item at the end of a queue that is not full (`capacity`). -/
def push? (q : WorkQueues α) (worker : Nat) (item : α) : Option (WorkQueues α) :=
  if (q.queue worker).length < q.capacity then some (q.append worker item) else none

/-- Take the first item of a worker's own queue. -/
def pop? (q : WorkQueues α) (worker : Nat) : Option (α × WorkQueues α) :=
  match q.queue worker with
  | [] => none
  | item :: rest => some (item, q.set worker rest)

/-- Take the last item of a queue, as `steal?` does with the queues of others. -/
def popLast? (q : WorkQueues α) (worker : Nat) : Option (α × WorkQueues α) :=
  match (q.queue worker).getLast? with
  | none => none
  | some item => some (item, q.set worker (q.queue worker).dropLast)

/-- The other workers, beginning with the next one and in turn from there. -/
def others (q : WorkQueues α) (worker : Nat) : List Nat :=
  (List.range (q.workers - 1)).map fun offset => (worker + offset + 1) % q.workers

/-- Take the last item of the first queue of other workers (`others`) that holds one. -/
def steal? (q : WorkQueues α) (worker : Nat) : Option (α × WorkQueues α) :=
  (q.others worker).findSome? q.popLast?

/-! ## Rebalancing -/

/-- The number of items in each queue, from which `imbalance?` is found. -/
def depths (q : WorkQueues α) : List Nat :=
  q.queues.map List.length

/-- The last of the deepest queues, with its depth. -/
def fullest (depths : List Nat) : Option (Nat × Nat) :=
  depths.zipIdx.foldl (fun best (depth, worker) =>
    match best with
    | none => some (worker, depth)
    | some (_, most) => if most ≤ depth then some (worker, depth) else best) none

/-- Which queue is backed up, and which others run low, as `imbalance?` finds it. -/
structure Imbalance where
  /-- The worker whose queue is backed up. -/
  source : Nat
  /-- The workers whose queues run low. -/
  starving : List Nat
  deriving DecidableEq, Repr

/-- Find an imbalance: a queue filled to three quarters of the `capacity`, and others filled to a
quarter at most. -/
def imbalance? (capacity : Nat) (depths : List Nat) : Option Imbalance :=
  match fullest depths with
  | none => none
  | some (source, depth) =>
    let starving := (depths.zipIdx.filter fun (depth, worker) =>
      worker ≠ source && depth ≤ capacity / 4).map (·.2)
    if depth < max (capacity * 3 / 4) 1 || starving.isEmpty then none else some ⟨source, starving⟩

/-- Take the second half of a queue into the hand; the first half stays, with the middle item. -/
def takeHalf (q : WorkQueues α) (worker : Nat) : List α × WorkQueues α :=
  let items := q.queue worker
  let kept := items.length - items.length / 2
  (items.drop kept, q.set worker (items.take kept))

/-- Hand the items in the hand, last ones first, to the `starving` queues in turn, until the hand is
empty or as many queues in a row as there are starving ones were full. Either the hand or the number
of queues to try gets smaller. -/
def handOut (starving : List Nat) : List Nat → Nat → List α → WorkQueues α → List α × WorkQueues α
  | _, _, [], q => ([], q)
  | [], _, item :: hand, q => (item :: hand, q)
  | target :: targets, full, item :: hand, q =>
    match q.push? target item with
    | some q => handOut starving (targets ++ [target]) 0 hand q
    | none =>
      if starving.length ≤ full + 1 then (item :: hand, q)
      else handOut starving (targets ++ [target]) (full + 1) (item :: hand) q
termination_by _ full hand _ => (hand.length, starving.length - full)

/-- Put what is left in the hand back at the end of a queue, in its old order. -/
def putBack (q : WorkQueues α) (worker : Nat) (hand : List α) : WorkQueues α :=
  q.set worker (q.queue worker ++ hand.reverse)

/-- Move about half of the fullest queue into the queues that run low: `takeHalf`, `handOut` and
`putBack`. -/
def rebalance (q : WorkQueues α) : WorkQueues α :=
  match imbalance? q.capacity q.depths with
  | none => q
  | some ⟨source, starving⟩ =>
    let (moving, q) := q.takeHalf source
    let (hand, q) := handOut starving starving 0 moving.reverse q
    q.putBack source hand

/-! ## A run -/

/-- Why a run failed: `evaluation` has the error of the item that failed. -/
inductive Failure (ε : Type) where
  /-- An evaluation failed. -/
  | evaluation (e : ε)
  /-- The run was cancelled. -/
  | cancelled
  deriving DecidableEq, Repr

/-- The wording of a `Failure`, given the `wording` of errors. -/
def Failure.message (wording : ε → String) : Failure ε → String
  | evaluation e => "evaluation failed: " ++ wording e
  | cancelled => "cancelled"

/-- The state of a run: the queues, the numbers of items so far, and what the evaluation keeps. -/
structure Run (α β : Type) where
  /-- The queues. -/
  queues : WorkQueues α
  /-- The number of items that the producer handed over. -/
  produced : Nat
  /-- The number of items that were evaluated. -/
  evaluated : Nat
  /-- What the evaluation keeps. -/
  state : β

namespace Run

/-- Evaluate an item that was taken out of the queues, which leaves `queues`. -/
def evaluate (evaluation : β → α → Except ε β) (r : Run α β) (item : α) (queues : WorkQueues α) :
    Except ε (Run α β) :=
  (evaluation r.state item).map fun state => { r with queues, state, evaluated := r.evaluated + 1 }

/-- Let a worker evaluate the first item of its queue (`pop?`), or one of another queue
(`steal?`). -/
def work (evaluation : β → α → Except ε β) (r : Run α β) (worker : Nat) : Except ε (Run α β) :=
  match (r.queues.pop? worker).or (r.queues.steal? worker) with
  | some (item, queues) => r.evaluate evaluation item queues
  | none => .ok r

/-- Put an item into a queue that is not full (`push?`), if there is one, beginning with the given
worker's. -/
def offer? (r : Run α β) (worker : Nat) (item : α) : Option (WorkQueues α) :=
  (worker :: r.queues.others worker).findSome? fun target => r.queues.push? target item

/-- Hand an item over (`offer?`) and balance the queues. When all queues are full, a worker first
evaluates an item of its queue. -/
def produce (evaluation : β → α → Except ε β) (r : Run α β) (item : α) : Except ε (Run α β) :=
  let worker := r.produced % r.queues.workers
  match r.offer? worker item with
  | some queues => .ok { r with queues := queues.rebalance, produced := r.produced + 1 }
  | none =>
    (r.work evaluation worker).map fun r =>
      { r with queues := r.queues.append worker item, produced := r.produced + 1 }

/-- Let the workers evaluate `count` items in turn (`work`). -/
def finish (evaluation : β → α → Except ε β) : Nat → Run α β → Except ε (Run α β)
  | 0, r => .ok r
  | count + 1, r =>
    match r.work evaluation (count % r.queues.workers) with
    | .ok r => finish evaluation count r
    | .error e => .error e

end Run

/-- Evaluate all items: `produce` each of them, then `finish` what is left in the queues. -/
def run (workers capacity : Nat) (items : List α) (evaluation : β → α → Except ε β) (state : β)
    (cancelled : Bool) : Except (Failure ε) (Run α β) :=
  if cancelled then .error .cancelled
  else
    let produced := items.foldlM (Run.produce evaluation) ⟨ofSize workers capacity, 0, 0, state⟩
    let finished := produced.bind fun r => Run.finish evaluation r.queues.items.length r
    finished.mapError .evaluation

end WorkQueues

end Detachment
