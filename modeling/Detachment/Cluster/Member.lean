import Detachment.Cluster.Job
import Detachment.Cluster.Mailboxes
import Detachment.Cluster.Shuffle
import Detachment.Cluster.Slice

/-! # Members of a group

One rank of a group that filters the candidates of a job. Its worker goes through the positions of
its slice and leaves events in a queue; its communicator answers letters and events. When the worker
runs out of positions it waits, and the communicator asks every other rank for a span to take over.
The member of rank zero is the coordinator: it collects the redundant indices and decides when the
group is finished.

* `Member.work?` is a step of the worker.
* `Member.attend` handles an event and `Member.receive` a message.
* `Member.conclude?` ends the run once the coordinator has heard from everyone. -/

namespace Detachment.Cluster

/-- What the worker tells the communicator, in the queue `Member.events`. -/
inductive Event where
  /-- The candidate with this index is redundant. -/
  | redundant (index : Nat)
  /-- The worker has used up its positions and waits for more. -/
  | idle
  /-- The worker has stopped. -/
  | stopped
  deriving DecidableEq, Repr

/-- What the worker is doing. -/
inductive Phase where
  /-- It goes through its positions. -/
  | working
  /-- It waits for more positions. -/
  | waiting
  /-- It was told to look again. -/
  | woken
  /-- It has stopped. -/
  | stopped
  deriving DecidableEq, Repr

/-- How far the worker is from a stop or a wait. With `Slice.workload` it bounds the steps of
`Member.settle`. -/
def Phase.weight : Phase → Nat
  | woken => 2
  | working => 1
  | waiting => 0
  | stopped => 0

/-- A span that a rank offered in answer to `Message.offerRequest`. -/
structure Offer where
  /-- The rank that offered it. -/
  owner : Nat
  /-- The span. -/
  span : Span
  deriving DecidableEq, Repr

/-- The state of a rank: that of its worker, of its search for more positions, and the books of the
coordinator. -/
structure Member where
  /-- The rank. -/
  rank : Nat
  /-- The number of ranks in the group. -/
  size : Nat
  /-- What the rank loaded. -/
  job : Job
  /-- The order in which the candidates are checked. -/
  order : Order
  /-- The positions that the rank is responsible for. -/
  slice : Slice
  /-- What the worker is doing. -/
  phase : Phase
  /-- Whether the worker was told that no more positions will come. -/
  exhausted : Bool
  /-- The events that the communicator has not handled yet, first ones first. -/
  events : List Event
  /-- The number of ranks that have not answered the current request for offers. -/
  pending : Nat
  /-- The largest span offered so far, or the span asked for. -/
  best : Option Offer
  /-- Whether the communicator knows that the worker has stopped. -/
  workerDone : Bool
  /-- The number of other ranks that are finished. -/
  finishedPeers : Nat
  /-- The redundant indices reported so far. -/
  redundant : IndexSet

/-- How handling something ends; `Verdict.ending?` says what this makes of the run. -/
inductive Verdict where
  /-- The run goes on. -/
  | goesOn
  /-- The run ends; on the coordinator with the redundant indices. -/
  | ends (result : Option IndexSet)
  /-- The run fails. -/
  | fails (e : RunError)
  /-- A span was to be taken over while positions were left. -/
  | breaks

/-- What handling something leads to: first the letters are sent, then the verdict holds. -/
structure Reaction where
  /-- The state after it. -/
  member : Member
  /-- The letters to send. -/
  letters : List Letter
  /-- How it ends. -/
  verdict : Verdict

namespace Member

/-- The rank that collects the results. -/
def coordinator : Nat := 0

/-- A rank before its worker starts: its slice is its `share` of the positions. -/
def start (job : Job) (sharing : Sharing) (size rank : Nat) : Member :=
  { rank
    size
    job
    order := .ofCount job.size
    slice := .ofSpan (share job.size size rank) sharing
    phase := .working
    exhausted := false
    events := []
    pending := 0
    best := none
    workerDone := false
    finishedPeers := 0
    redundant := ∅ }

/-- Whether the rank is the `coordinator`. -/
def isCoordinator (m : Member) : Bool :=
  m.rank = coordinator

/-- What the rank loaded, as it is compared by `compareLoad`. -/
def load (m : Member) : Load :=
  ⟨m.job.size, m.job.length⟩

/-- The letters that a rank sends before anything else: the coordinator is told what the rank
loaded, and sends none. -/
def greeting (m : Member) : List Letter :=
  if m.isCoordinator then [] else [⟨coordinator, .handshake m.job.size m.job.length⟩]

/-! ## The worker -/

/-- Check the candidate at a position: an `Event.redundant` is added if it is redundant. -/
def check (m : Member) (position : Nat) : Member :=
  match m.order.index? position with
  | none => m
  | some i => if m.job.isRedundant i then { m with events := m.events ++ [.redundant i] } else m

/-- A step of the worker, if it can take one: it checks the next position of its slice, waits if
there is none, and looks again or stops when it was `woken`. -/
def work? (m : Member) : Option Member :=
  match m.phase with
  | .working =>
    match m.slice.next? with
    | some (position, slice) => some (check { m with slice } position)
    | none => some { m with phase := .waiting, events := m.events ++ [.idle] }
  | .woken =>
    if m.exhausted then some { m with phase := .stopped, events := m.events ++ [.stopped] }
    else some { m with phase := .working }
  | .waiting => none
  | .stopped => none

/-- A check leaves the slice alone. -/
theorem check_slice (m : Member) (position : Nat) : (m.check position).slice = m.slice := by
  unfold check
  split
  · rfl
  · split <;> rfl

/-- A check leaves the phase alone. -/
theorem check_phase (m : Member) (position : Nat) : (m.check position).phase = m.phase := by
  unfold check
  split
  · rfl
  · split <;> rfl

/-- A step of `work?` hands out a position, or brings the worker nearer to a stop or a wait. This is
what makes `settle` terminate. -/
theorem work?_decreases {m n : Member} (h : m.work? = some n) :
    Prod.Lex (· < ·) (· < ·) (n.slice.workload, n.phase.weight) (m.slice.workload, m.phase.weight) := by
  unfold work? at h
  split at h
  · rename_i hp
    split at h
    · rename_i hn
      obtain rfl := Option.some.inj h
      refine Prod.Lex.left _ _ ?_
      rw [check_slice]
      exact Slice.workload_next? hn
    · obtain rfl := Option.some.inj h
      refine Prod.Lex.right _ ?_
      simp [hp, Phase.weight]
  · rename_i hp
    split at h
    · obtain rfl := Option.some.inj h
      refine Prod.Lex.right _ ?_
      simp [hp, Phase.weight]
    · obtain rfl := Option.some.inj h
      refine Prod.Lex.right _ ?_
      simp [hp, Phase.weight]
  · simp at h
  · simp at h

/-- Let the worker go on (`work?`) until it waits or stops. -/
def settle (m : Member) : Member :=
  match _h : m.work? with
  | none => m
  | some n => n.settle
termination_by (m.slice.workload, m.phase.weight)
decreasing_by exact work?_decreases (by assumption)

/-! ## The communicator -/

/-- The letters that tell every other rank the same (`circular`). -/
def tellPeers (m : Member) (message : Message) : List Letter :=
  circular m.size m.rank message

/-- Tell the worker to look again, or that no more positions will come (`exhausted`). -/
def wake (m : Member) (exhausted : Bool) : Member :=
  { m with
    phase := if m.phase = .waiting then .woken else m.phase
    exhausted := m.exhausted || exhausted }

/-- Send letters and go on. -/
def goesOn (m : Member) (letters : List Letter) : Reaction := ⟨m, letters, .goesOn⟩

/-- Fail, without letters. -/
def fails (m : Member) (e : RunError) : Reaction := ⟨m, [], .fails e⟩

/-- Ask every other rank for a span to take over; alone, a rank is done. A rank waits for as many
answers (`pending`) as there are other ranks. -/
def askPeers (m : Member) : Reaction :=
  if m.size ≤ 1 then (m.wake true).goesOn []
  else
    { m with pending := m.size - 1, best := none : Member }.goesOn (m.tellPeers .offerRequest)

/-- Handle an event: the coordinator enters it into its books, and another rank passes it on; a
worker that is `idle` needs a search. -/
def attend (m : Member) : Event → Reaction
  | .redundant i =>
    if m.isCoordinator then { m with redundant := m.redundant.insert i : Member }.goesOn []
    else m.goesOn [⟨coordinator, .redundant i⟩]
  | .idle => m.askPeers
  | .stopped =>
    { m with workerDone := true : Member }.goesOn
      (if m.isCoordinator then [] else [⟨coordinator, .finished⟩])

/-- Compare what another rank loaded with `load`. If it differs, the coordinator tells all others
and fails. -/
def compareLoad (m : Member) (sender : Nat) (found : Load) : Reaction :=
  if !m.isCoordinator then m.fails (.violation (.handshakeTo m.rank))
  else if found = m.load then m.goesOn []
  else
    let e := RunError.mismatch sender m.load found
    ⟨m, m.tellPeers (.abort e.message), .fails e⟩

/-- The larger of two offers, the earlier one of two equal ones; an empty one (`Span.isEmpty`) never
counts. -/
def better (best : Option Offer) (offer : Offer) : Option Offer :=
  if offer.span.isEmpty then best
  else
    match best with
    | none => some offer
    | some other => if other.span.size < offer.span.size then some offer else best

/-- Note an offer; after the last one, ask for the largest by `Message.claim`. If there is none, the
worker is told that no more positions will come. -/
def noteOffer (m : Member) (offer : Offer) : Reaction :=
  let m := { m with pending := m.pending - 1, best := better m.best offer : Member }
  if m.pending ≠ 0 then m.goesOn []
  else
    match m.best with
    | some offer => m.goesOn [⟨offer.owner, .claim offer.span⟩]
    | none => (m.wake true).goesOn []

/-- Take over the span asked for (`Slice.adopt?`), or look again if another rank got it first. -/
def answerClaim (m : Member) (granted : Bool) : Reaction :=
  let offer := m.best
  let m := { m with best := none : Member }
  if !granted then m.askPeers
  else
    match offer with
    | none => m.fails (.violation .unclaimedGrant)
    | some offer =>
      match m.slice.adopt? offer.span with
      | some slice => ({ m with slice : Member }.wake false).goesOn []
      | none => ⟨m, [], .breaks⟩

/-- Handle a message of `sender`. There is one case for each `Message`. -/
def receive (m : Member) (sender : Nat) : Message → Reaction
  | .handshake candidates length => m.compareLoad sender ⟨candidates, length⟩
  | .abort reason => m.fails (.aborted reason)
  | .finished => { m with finishedPeers := m.finishedPeers + 1 : Member }.goesOn []
  | .redundant i => { m with redundant := m.redundant.insert i : Member }.goesOn []
  | .offerRequest => m.goesOn [⟨sender, .offer m.slice.offered⟩]
  | .offer span => m.noteOffer ⟨sender, span⟩
  | .claim span =>
    let (granted, slice) := m.slice.grant span
    { m with slice : Member }.goesOn [⟨sender, .claimAnswer granted⟩]
  | .claimAnswer granted => m.answerClaim granted
  | .terminate =>
    if m.isCoordinator then m.fails (.violation .coordinatorTerminated) else ⟨m, [], .ends none⟩

/-- Handle the news that a `peer` is gone. A peer that was told to stop may leave before this rank
reads its own notice, so only the coordinator's leaving counts, and any leaving on the
coordinator. -/
def lose (m : Member) (peer : Nat) : Reaction :=
  if !m.isCoordinator && peer ≠ coordinator then m.goesOn []
  else m.fails (.transport (.disconnected peer))

/-- The end of the run, once the coordinator's worker (`workerDone`) and every other rank
(`finishedPeers`) are done. -/
def conclude? (m : Member) : Option Reaction :=
  if m.isCoordinator && m.workerDone && m.size ≤ m.finishedPeers + 1 then
    some ⟨m, m.tellPeers .terminate, .ends (some m.redundant)⟩
  else none

end Member

end Detachment.Cluster
