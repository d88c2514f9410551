import Detachment.Proofs.QueueItems

/-! # Steps of a pool

The producer, the balancer and the workers go on at the same time, and their steps may be taken in
any order. Each step touches one queue at most, under its lock. Meanwhile the other queues may
change: the balancer acts on depths that it has read one after the other, with its hands full, and a
worker that finds a queue empty cannot know the next one.

* `Pool` is the state that all of them share, with what each of them is doing.
* `Pool.push?`, `Pool.balance?` and `Pool.work?` are the steps; `Pool.step?` takes one of them.
* `Pool.follow?` takes any number of steps; `Pool.follow?_induction` is the induction over them. -/

namespace Detachment.WorkQueues

variable {α β ε : Type}

/-- An item is evaluated (`Run.evaluate`) if its evaluation does not fail, and counted. -/
theorem Run.evaluate_eq_ok {evaluation : β → α → Except ε β} {r r' : Run α β} {item : α}
    {queues : WorkQueues α} (h : r.evaluate evaluation item queues = .ok r') :
    ∃ state, evaluation r.state item = .ok state ∧
      r' = { r with queues, state, evaluated := r.evaluated + 1 } := by
  unfold evaluate at h
  cases hstate : evaluation r.state item with
  | error e =>
    rw [hstate] at h
    cases h
  | ok state =>
    rw [hstate] at h
    exact ⟨state, rfl, (Except.ok.inj h).symm⟩

/-- What the balancer is doing: it measures all queues, takes half of the fullest one, hands it out
and puts the rest back, until production has ended. -/
inductive Balancing (α : Type) where
  /-- It is about to look whether production has ended. -/
  | resting
  /-- It looks at one queue after the other, and has seen so many items in them. -/
  | measuring (depths : List Nat)
  /-- It hands out the items in its hand to the targets in turn. So many of them in a row were
  full. -/
  | handing (source : Nat) (starving targets : List Nat) (full : Nat) (hand : List α)
  /-- It is about to put back what is left in its hand. -/
  | returning (source : Nat) (hand : List α)
  /-- It has seen that production has ended. -/
  | leaving
  /-- It has told the workers that it is done. -/
  | done

/-- The items in the balancer's hand. -/
def Balancing.hand : Balancing α → List α
  | handing _ _ _ _ hand => hand
  | returning _ hand => hand
  | _ => []

/-- What a worker is doing: it empties its own queue, and once the balancer is done, it steals from
others, until it has seen all queues empty. -/
inductive Working where
  /-- It is about to take the first item of its queue. -/
  | popping
  /-- Its queue was empty, and it is about to look whether the balancer is done. -/
  | hungry
  /-- The balancer is done, and it is about to take the last item of the queue of a victim. -/
  | stealing (victims : List Nat)
  /-- It found nothing to steal, and checks whether the queues are empty; those up to the next one
  were. -/
  | inspecting (next : Nat)
  /-- It has returned. -/
  | returned
  deriving DecidableEq, Repr

/-- The state of a producer, a balancer and workers, between two steps of any of them. -/
structure Pool (α β : Type) where
  /-- The queues, the numbers of items so far, and what the evaluation keeps. -/
  run : Run α β
  /-- The items that are still to be pushed, the next one first. -/
  pending : List α
  /-- Whether the producer has said that production has ended. -/
  productionDone : Bool
  /-- What the balancer is doing. -/
  balancer : Balancing α
  /-- Whether the balancer has said that it is done. -/
  balancerDone : Bool
  /-- What each worker is doing. -/
  workers : List Working
  /-- The items that were pushed, first ones first. -/
  pushed : List α
  /-- The items that were evaluated, first ones first. -/
  evaluated : List α

/-- A step of a pool. -/
inductive Step where
  /-- The producer tries to push its item into the queue of a worker. -/
  | push (worker : Nat)
  /-- The producer says that production has ended. -/
  | endProduction
  /-- The balancer goes on. -/
  | balance
  /-- A worker goes on. -/
  | work (worker : Nat)
  deriving DecidableEq, Repr

namespace Pool

/-- A pool before its first step, with all `items` still to be pushed. -/
def start (workers capacity : Nat) (items : List α) (state : β) : Pool α β where
  run := ⟨ofSize workers capacity, 0, 0, state⟩
  pending := items
  productionDone := false
  balancer := .resting
  balancerDone := false
  workers := List.replicate (max workers 1) .popping
  pushed := []
  evaluated := []

/-- Replace the queues; all else stays as it is. -/
def withQueues (p : Pool α β) (queues : WorkQueues α) : Pool α β :=
  { p with run := { p.run with queues } }

/-! ## The producer -/

/-- The producer tries to push its item into the queue of a worker. It keeps the item if that is
full, and tries another queue or the same one again. -/
def push? (p : Pool α β) (worker : Nat) : Option (Pool α β) :=
  match p.pending with
  | [] => none
  | item :: pending =>
    if p.run.queues.workers ≤ worker then none
    else
      match p.run.queues.push? worker item with
      | none => some p
      | some queues =>
        some { p with
          run := { p.run with queues, produced := p.run.produced + 1 }
          pending
          pushed := p.pushed ++ [item] }

/-- The producer returns when it has pushed all its items. -/
def endProduction? (p : Pool α β) : Option (Pool α β) :=
  match p.pending with
  | [] => some { p with productionDone := true }
  | _ :: _ => none

/-! ## The balancer -/

/-- The balancer goes on, as `Balancing` says. It moves items only between the queues and its
hand. -/
def balance? (p : Pool α β) : Option (Pool α β) :=
  match p.balancer with
  | .resting => some { p with balancer := if p.productionDone then .leaving else .measuring [] }
  | .measuring depths =>
    if depths.length < p.run.queues.workers then
      let depth := (p.run.queues.queue depths.length).length
      some { p with balancer := .measuring (depths ++ [depth]) }
    else
      match imbalance? p.run.queues.capacity depths with
      | none => some { p with balancer := .resting }
      | some ⟨source, starving⟩ =>
        let (moving, queues) := p.run.queues.takeHalf source
        some { p.withQueues queues with
          balancer := .handing source starving starving 0 moving.reverse }
  | .handing _ _ _ _ [] => some { p with balancer := .resting }
  | .handing source _ [] _ (item :: hand) =>
    some { p with balancer := .returning source (item :: hand) }
  | .handing source starving (target :: targets) full (item :: hand) =>
    match p.run.queues.push? target item with
    | some queues =>
      some { p.withQueues queues with
        balancer := .handing source starving (targets ++ [target]) 0 hand }
    | none =>
      some { p with balancer :=
        if starving.length ≤ full + 1 then .returning source (item :: hand)
        else .handing source starving (targets ++ [target]) (full + 1) (item :: hand) }
  | .returning source hand =>
    some { p.withQueues (p.run.queues.putBack source hand) with balancer := .resting }
  | .leaving => some { p with balancer := .done, balancerDone := true }
  | .done => none

/-! ## The workers -/

/-- A worker goes on to another `stage`. -/
def turnTo (p : Pool α β) (worker : Nat) (stage : Working) : Pool α β :=
  { p with workers := p.workers.set worker stage }

/-- A worker evaluates an item that it took out of a queue, and goes back to its own queue; the step
cannot be taken if the evaluation fails. -/
def evaluate? (evaluation : β → α → Except ε β) (p : Pool α β) (worker : Nat) (item : α)
    (queues : WorkQueues α) : Option (Pool α β) :=
  match p.run.evaluate evaluation item queues with
  | .ok run => some { p.turnTo worker .popping with run, evaluated := p.evaluated ++ [item] }
  | .error _ => none

/-- A worker goes on, as `Working` says, unless an evaluation fails. -/
def work? (evaluation : β → α → Except ε β) (p : Pool α β) (worker : Nat) : Option (Pool α β) :=
  match p.workers[worker]? with
  | some .popping =>
    match p.run.queues.pop? worker with
    | some (item, queues) => p.evaluate? evaluation worker item queues
    | none => some (p.turnTo worker .hungry)
  | some .hungry =>
    some (p.turnTo worker
      (if p.balancerDone then .stealing (p.run.queues.others worker) else .popping))
  | some (.stealing (victim :: victims)) =>
    match p.run.queues.popLast? victim with
    | some (item, queues) => p.evaluate? evaluation worker item queues
    | none => some (p.turnTo worker (.stealing victims))
  | some (.stealing []) => some (p.turnTo worker (.inspecting 0))
  | some (.inspecting next) =>
    some (p.turnTo worker
      (if p.run.queues.workers ≤ next then .returned
      else if (p.run.queues.queue next).isEmpty then .inspecting (next + 1) else .popping))
  | some .returned => none
  | none => none

/-! ## Courses -/

/-- Take a step (`push?`, `endProduction?`, `balance?`, `work?`), if it can be taken. -/
def step? (evaluation : β → α → Except ε β) (p : Pool α β) : Step → Option (Pool α β)
  | .push worker => p.push? worker
  | .endProduction => p.endProduction?
  | .balance => p.balance?
  | .work worker => p.work? evaluation worker

/-- Take steps in turn (`step?`), if they all can be taken. -/
def follow? (evaluation : β → α → Except ε β) (p : Pool α β) (steps : List Step) :
    Option (Pool α β) :=
  steps.foldlM (step? evaluation) p

variable {evaluation : β → α → Except ε β} {p p' : Pool α β}

/-- What every step keeps holds at the end of a course: the run lemma for all invariants of
`Pool`. -/
theorem follow?_induction {P : Pool α β → Prop}
    (hstep : ∀ p step p', P p → p.step? evaluation step = some p' → P p') {steps : List Step}
    (hp : P p) (h : p.follow? evaluation steps = some p') : P p' := by
  induction steps generalizing p with
  | nil =>
    obtain rfl := Option.some.inj h
    exact hp
  | cons step steps ih =>
    obtain ⟨next, hnext, hrest⟩ := Option.bind_eq_some_iff.mp h
    exact ih (hstep p step next hp hnext) hrest

/-- An evaluation that succeeds adds to what is kept, to the count and to the list. -/
theorem evaluate?_eq_some {worker : Nat} {item : α} {queues : WorkQueues α}
    (h : p.evaluate? evaluation worker item queues = some p') :
    ∃ next, evaluation p.run.state item = .ok next ∧
      p' = { p.turnTo worker .popping with
        run := { p.run with queues, state := next, evaluated := p.run.evaluated + 1 }
        evaluated := p.evaluated ++ [item] } := by
  unfold evaluate? at h
  split at h
  · next run hrun =>
    obtain ⟨next, hnext, rfl⟩ := Run.evaluate_eq_ok hrun
    exact ⟨next, hnext, (Option.some.inj h).symm⟩
  · cases h

end Pool

end Detachment.WorkQueues
