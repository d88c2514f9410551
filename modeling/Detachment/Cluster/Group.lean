import Detachment.Cluster.Member

/-! # Groups

All ranks of a group and the letters between them. A step of a group is a step of one rank: its
worker goes on, or its communicator handles an event or a message, or ends the run. The result does
not depend on the order of the steps; `Group.run` takes turns.

* `Group.work?`, `Group.attend?`, `Group.receiveFrom?` and `Group.conclude?` are the steps.
* `Group.run` runs a job on a number of ranks. -/

namespace Detachment.Cluster

/-- How the run of a rank ended, by its last `Verdict`. -/
inductive Ending where
  /-- It ended; on the coordinator with the redundant indices. -/
  | result (redundant : Option IndexSet)
  /-- It failed. -/
  | failure (e : RunError)
  /-- A span was to be taken over while positions were left. -/
  | broken

/-- A rank and how its run ended, if it did. -/
structure Seat where
  /-- The state of the rank. -/
  member : Member
  /-- How its run ended. -/
  ending : Option Ending

/-- How a rank's run ends by a verdict, unless sending its letters fails: then `undelivered` is what
it ends with. -/
def Verdict.ending? (v : Verdict) (undelivered : Option TransportError) : Option Ending :=
  match undelivered, v with
  | some e, _ => some (.failure (.transport e))
  | none, .goesOn => none
  | none, .ends redundant => some (.result redundant)
  | none, .fails e => some (.failure e)
  | none, .breaks => some .broken

/-- The ranks of a group and the letters between them. -/
structure Group where
  /-- The ranks. -/
  seats : Array Seat
  /-- The letters on their way. -/
  mail : Mailboxes

namespace Group

/-- A group whose ranks have sent their greetings (`Member.greeting`). Each rank has its own job;
they should be the same. -/
def start (jobs : List Job) (sharing : Sharing) : Group :=
  let members := jobs.zipIdx.map fun (job, rank) => Member.start job sharing jobs.length rank
  let mail := members.foldl (fun mail m => (mail.sendAll m.rank m.greeting).2)
    (.ofSize jobs.length)
  ⟨(members.map fun m => ⟨m, none⟩).toArray, mail⟩

/-- A rank whose run has not ended. Only such ranks take steps. -/
def running? (g : Group) (rank : Nat) : Option Member :=
  match g.seats[rank]? with
  | some ⟨m, none⟩ => some m
  | _ => none

/-- Let a rank react: its letters are sent (`Mailboxes.sendAll`), and its run may end. -/
def react : Group → Nat → Reaction → Group
  | ⟨seats, mail⟩, rank, r =>
    let (undelivered, mail) := mail.sendAll rank r.letters
    ⟨seats.setIfInBounds rank ⟨r.member, r.verdict.ending? undelivered⟩, mail⟩

/-! ## Steps -/

/-- The worker of a rank goes on, by `Member.work?`. -/
def work? (g : Group) (rank : Nat) : Option Group :=
  match (g.running? rank).bind Member.work? with
  | some m => some (g.react rank (m.goesOn []))
  | none => none

/-- The communicator of a rank handles the first event, by `Member.attend`. -/
def attend? (g : Group) (rank : Nat) : Option Group :=
  match g.running? rank with
  | none => none
  | some m =>
    match m.events with
    | [] => none
    | event :: events => some (g.react rank ({ m with events }.attend event))

/-- The communicator of a rank handles a message, the first one of its sender, by
`Member.receive`. -/
def receive : Group → Nat → Member → Received → Group
  | ⟨seats, mail⟩, rank, m, received =>
    react ⟨seats, mail.dropFrom rank received.sender⟩ rank
      (m.receive received.sender received.message)

/-- The communicator of a rank handles the first message of `sender` in its box. -/
def receiveFrom? (g : Group) (rank sender : Nat) : Option Group :=
  match g.running? rank, g.mail.firstFrom? rank sender with
  | some m, some received => some (g.receive rank m received)
  | _, _ => none

/-- The coordinator ends the run, by `Member.conclude?`. -/
def conclude? (g : Group) (rank : Nat) : Option Group :=
  match (g.running? rank).bind Member.conclude? with
  | some r => some (g.react rank r)
  | none => none

/-! ## Taking turns -/

/-- The worker of a rank goes on until it waits or stops, by `Member.settle`. -/
def settle (g : Group) (rank : Nat) : Group :=
  match g.running? rank with
  | some m => g.react rank (m.settle.goesOn [])
  | none => g

/-- A rank handles up to `count` of the messages in its box, first ones first. -/
def drain (rank : Nat) : Nat → Group → Group
  | 0, g => g
  | count + 1, g =>
    match g.running? rank, (g.mail.box rank)[0]? with
    | some m, some first => drain rank count (g.receive rank m first)
    | _, _ => g

/-- The first message in a box is the first one of its sender, so `drain` may take it. -/
theorem firstFrom?_sender {mail : Mailboxes} {rank : Nat} {first : Received}
    (hb : (mail.box rank)[0]? = some first) :
    mail.firstFrom? rank first.sender = some first := by
  rw [Mailboxes.firstFrom?, Array.find?_eq_some_iff_getElem]
  obtain ⟨h, rfl⟩ := Array.getElem?_eq_some_iff.mp hb
  exact ⟨by simp, 0, h, rfl, fun j hj => absurd hj (Nat.not_lt_zero j)⟩

/-- To handle the first message in a box is to handle the first one of its sender: `receive` is a
step `receiveFrom?`. -/
theorem receiveFrom?_sender {g : Group} {rank : Nat} {m : Member} {first : Received}
    (hm : g.running? rank = some m) (hb : (g.mail.box rank)[0]? = some first) :
    g.receiveFrom? rank first.sender = some (g.receive rank m first) := by
  simp [receiveFrom?, hm, firstFrom?_sender hb]

/-- The run of a rank is cancelled, if it has not ended. -/
def cancel (g : Group) (rank : Nat) : Group :=
  match g.running? rank with
  | some m => g.react rank (m.fails .cancelled)
  | none => g

/-- The turn of a rank: it handles all messages in its box (`drain`) and then one event (`attend?`),
unless its run ends. A worker that was cancelled never starts. -/
def turn (cancelled : Bool) (g : Group) (rank : Nat) : Group :=
  let g := if cancelled then g else g.settle rank
  let g := drain rank (g.mail.box rank).size g
  match g.conclude? rank with
  | some g => g
  | none => if cancelled then g.cancel rank else (g.attend? rank).getD g

/-- Whether every run has ended, so that no rank takes a step any more. -/
def isOver (g : Group) : Bool :=
  g.seats.all (·.ending.isSome)

/-- Take turns until every run has ended (`isOver`), for a number of rounds. In a round each rank
has its `turn`. -/
def rounds (cancelled : Bool) : Nat → Group → Group
  | 0, g => g
  | count + 1, g =>
    if g.isOver then g
    else rounds cancelled count ((List.range g.seats.size).foldl (turn cancelled) g)

/-- The answer of a group: the first failure, or else what the coordinator found. It is absent if a
run has not ended, or is `broken`. -/
def answer (endings : List (Option Ending)) : Option (Except RunError IndexSet) :=
  match endings with
  | [] => some (.error (.violation .noResult))
  | some (.failure e) :: _ => some (.error e)
  | some (.result (some found)) :: rest =>
    match answer rest with
    | some (.error (.violation .noResult)) => some (.ok found)
    | other => other
  | some (.result none) :: rest => answer rest
  | some .broken :: _ => none
  | none :: _ => none

/-- Run a job on a number of ranks, at least one. Every worker goes through its own positions at its
first `turn`, so a rank has at most one event for each candidate; the other rounds are for the
questions behind them. -/
def run (job : Job) (ranks : Nat) (sharing : Sharing) (cancelled : Bool) :
    Option (Except RunError IndexSet) :=
  let g := start (List.replicate (max ranks 1) job) sharing
  answer ((rounds cancelled (job.size + 16) g).seats.toList.map (·.ending))

end Group

end Detachment.Cluster
