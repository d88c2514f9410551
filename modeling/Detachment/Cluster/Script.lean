import Detachment.Cluster.Group

/-! # One rank and a script

The run of one rank whose peers follow a script: each entry of the script waits until the rank has
sent a number of letters, and then reaches it. Every entry that can reach the rank does so before
the rank handles an event of its worker. -/

namespace Detachment.Cluster

/-- What reaches a rank by an entry of its script. -/
inductive Delivery where
  /-- A message. -/
  | letter (received : Received)
  /-- The news that a peer is gone. -/
  | loss (peer : Nat)
  deriving DecidableEq, Repr

/-- An entry of a script. -/
structure Cue where
  /-- The number of letters that the rank must have sent before. -/
  after : Nat
  /-- What reaches the rank. -/
  delivery : Delivery
  deriving DecidableEq, Repr

/-- What a rank did, by `Scene.run`: how its run ended, if it did, the letters that it sent and the
entries of the script that did not reach it. -/
structure Transcript where
  /-- How the run ended. -/
  ending : Option Ending
  /-- The letters sent. -/
  sent : List Letter
  /-- The entries that are left. -/
  unread : List Cue

/-- A rank, the letters that it sent and the rest of its script. -/
structure Scene where
  /-- The rank and how its run ended. -/
  seat : Seat
  /-- The letters sent. -/
  sent : List Letter
  /-- The entries that have not reached the rank. -/
  script : List Cue

namespace Scene

/-- Send letters to a group of a size, up to the first that goes nowhere, as `Mailboxes.sendAll`
does. -/
def carry (size : Nat) (sent letters : List Letter) : Option TransportError × List Letter :=
  ((letters.find? (size ≤ ·.recipient)).map (.unknownRank ·.recipient),
    sent ++ letters.takeWhile (·.recipient < size))

/-- Let the rank react: its letters are sent (`carry`), and its run may end. -/
def react (s : Scene) (r : Reaction) : Scene :=
  let (undelivered, sent) := carry r.member.size s.sent r.letters
  { s with seat := ⟨r.member, r.verdict.ending? undelivered⟩, sent }

/-- Let the worker go on until it waits or stops (`Member.settle`), unless the run has ended. -/
def settle (s : Scene) : Scene :=
  match s.seat with
  | ⟨m, none⟩ => { s with seat := ⟨m.settle, none⟩ }
  | _ => s

/-- Handle what reaches the rank: a letter by `Member.receive`, a loss by `Member.lose`. -/
def deliver (m : Member) : Delivery → Reaction
  | .letter received => m.receive received.sender received.message
  | .loss peer => m.lose peer

/-- Handle everything that can reach the rank, entry after entry. An entry whose time has not come
(`Cue.after`) keeps those behind it waiting. -/
def drain (cancelled : Bool) : List Cue → Scene → Scene
  | [], s => { s with script := [] }
  | cue :: rest, s =>
    match s.seat with
    | ⟨m, none⟩ =>
      if s.sent.length < cue.after then { s with script := cue :: rest }
      else
        let s := s.react (deliver m cue.delivery)
        drain cancelled rest (if cancelled then s else s.settle)
    | _ => { s with script := cue :: rest }

/-- Handle everything that can reach the rank (`drain`), and then one event of the worker. None if
nothing is left to handle. -/
def turn (cancelled : Bool) (s : Scene) : Option Scene :=
  let s := drain cancelled s.script s
  match s.seat with
  | ⟨_, some _⟩ => some s
  | ⟨m, none⟩ =>
    match m.conclude? with
    | some r => some (s.react r)
    | none =>
      if cancelled then some (s.react (m.fails .cancelled))
      else
        match m.events with
        | [] => none
        | event :: events => some (s.react ({ m with events }.attend event)).settle

/-- Take turns until the run ends, at most `count` times. -/
def turns (cancelled : Bool) : Nat → Scene → Scene
  | 0, s => s
  | count + 1, s =>
    if s.seat.ending.isSome then s
    else
      match s.turn cancelled with
      | some s => turns cancelled count s
      | none => s

/-- The number of positions that an entry may bring the rank: those of a span that is offered. -/
def positions (cue : Cue) : Nat :=
  match cue.delivery with
  | .letter ⟨_, .offer span⟩ => span.size
  | _ => 0

/-- The run of a rank against a script. A worker that was cancelled never starts. Each turn but the
last handles an event, and there is at most one for each position (`positions`), one for each span
taken over, and two for the first span and the end. -/
def run (job : Job) (sharing : Sharing) (size rank : Nat) (cancelled : Bool) (script : List Cue) :
    Transcript :=
  let m := Member.start job sharing size rank
  let s := react ⟨⟨m, none⟩, [], script⟩ (m.goesOn m.greeting)
  let s := if cancelled then s else s.settle
  let bound := job.size + sumOf positions script + script.length + 4
  let s := turns cancelled bound s
  ⟨s.seat.ending, s.sent, s.script⟩

end Scene

end Detachment.Cluster
