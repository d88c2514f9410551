import Detachment.Proofs.GroupSteps

/-! # Incidents in a group

While the ranks of a group take their steps, the run of a rank may be cancelled, and a rank may
learn that a peer is gone.

* `Incident` names what can happen and `Course.meet?` lets it happen.
* `Course.undergo?` lets any number of incidents happen; `Course.undergo?_induction` is the
  induction over them.
* `Course.Met` says what an incident leads to. A run that is over stays over, by
  `Course.Met.ending?`. -/

namespace Detachment.Cluster

/-- Something that happens in a group. -/
inductive Incident where
  /-- A rank takes a step. -/
  | step (move : Move)
  /-- The run of a rank is cancelled. -/
  | cancel (rank : Nat)
  /-- A rank learns that a peer is gone. -/
  | lose (rank peer : Nat)
  deriving DecidableEq, Repr

namespace Course

/-- Let something happen, if it can: a step as `move?` takes it, a cancellation, or the news that a
peer is gone. -/
def meet? (c : Course) : Incident → Option Course
  | .step move => c.move? move
  | .cancel rank => some ⟨c.checks, c.group.cancel rank⟩
  | .lose rank peer =>
    (c.group.running? rank).map fun m => ⟨c.checks, c.group.react rank (m.lose peer)⟩

/-- Let things happen in turn (`meet?`), if they all can. -/
def undergo? (c : Course) (incidents : List Incident) : Option Course :=
  incidents.foldlM meet? c

/-- What every incident keeps holds at the end: the run lemma for all invariants of `undergo?`. The
step may use that the incident is one of `incidents`. -/
theorem undergo?_induction {P : Course → Prop} {c d : Course} {incidents : List Incident}
    (hmeet : ∀ c incident d, incident ∈ incidents → P c → c.meet? incident = some d → P d) (hc : P c)
    (h : c.undergo? incidents = some d) : P d := by
  induction incidents generalizing c with
  | nil =>
    obtain rfl := Option.some.inj h
    exact hc
  | cons incident incidents ih =>
    obtain ⟨next, hnext, hrest⟩ := Option.bind_eq_some_iff.mp h
    refine ih (fun c i d hi => hmeet c i d (List.mem_cons_of_mem incident hi)) ?_ hrest
    exact hmeet c incident next List.mem_cons_self hc hnext

/-- What an incident leads to, by `meet?`: a rank whose run goes on reacts to something, unless a
rank is cancelled whose run is over. -/
inductive Met (c : Course) : Incident → Course → Prop where
  | work {rank : Nat} {m n : Member} (checks : List Check) (hm : c.group.running? rank = some m)
      (hwork : m.work? = some n) :
      Met c (.step (.work rank)) ⟨checks, c.group.react rank (n.goesOn [])⟩
  | attend {rank : Nat} {m : Member} {event : Event} {events : List Event} (checks : List Check)
      (hm : c.group.running? rank = some m) (hevents : m.events = event :: events) :
      Met c (.step (.attend rank)) ⟨checks, c.group.react rank ({ m with events }.attend event)⟩
  | receive {rank sender : Nat} {m : Member} {received : Received} (checks : List Check)
      (hm : c.group.running? rank = some m)
      (hfirst : c.group.mail.firstFrom? rank sender = some received) :
      Met c (.step (.receive rank sender))
        ⟨checks, (c.group.without rank sender).react rank (m.receive sender received.message)⟩
  | conclude {rank : Nat} {m : Member} {r : Reaction} (checks : List Check)
      (hm : c.group.running? rank = some m) (hr : m.conclude? = some r) :
      Met c (.step (.conclude rank)) ⟨checks, c.group.react rank r⟩
  | cancel {rank : Nat} {m : Member} (hm : c.group.running? rank = some m) :
      Met c (.cancel rank) ⟨c.checks, c.group.react rank (m.fails .cancelled)⟩
  | lose {rank : Nat} {m : Member} (peer : Nat) (hm : c.group.running? rank = some m) :
      Met c (.lose rank peer) ⟨c.checks, c.group.react rank (m.lose peer)⟩
  | nothing (rank : Nat) : Met c (.cancel rank) c

variable {c d : Course} {incident : Incident}

/-- A step is one of these, by the inversion lemmas of `Group.work?`, `attend?`, `receiveFrom?` and
`conclude?`. -/
theorem met_of_move? {move : Move} (h : c.move? move = some d) : c.Met (.step move) d := by
  obtain ⟨g, hg, rfl⟩ := Option.map_eq_some_iff.mp h
  cases move with
  | work rank =>
    obtain ⟨m, n, hm, hwork, rfl⟩ := Group.work?_eq_some hg
    exact .work _ hm hwork
  | attend rank =>
    obtain ⟨m, event, events, hm, hevents, rfl⟩ := Group.attend?_eq_some hg
    exact .attend _ hm hevents
  | receive rank sender =>
    obtain ⟨m, received, hm, hfirst, rfl⟩ := Group.receiveFrom?_eq_some hg
    exact .receive _ hm hfirst
  | conclude rank =>
    obtain ⟨m, r, hm, hr, rfl⟩ := Group.conclude?_eq_some hg
    exact .conclude _ hm hr

/-- Whatever `meet?` allows has `Met` what it leads to. A step is `met_of_move?`, and cancelling a
run that has ended is `nothing`. -/
theorem met_of_meet? (h : c.meet? incident = some d) : c.Met incident d := by
  cases incident with
  | step move => exact met_of_move? h
  | cancel rank =>
    obtain rfl := Option.some.inj h
    unfold Group.cancel
    split
    · next hm => exact .cancel hm
    · exact .nothing rank
  | lose rank peer =>
    obtain ⟨m, hm, rfl⟩ := Option.map_eq_some_iff.mp h
    exact .lose peer hm

/-- A run that is over stays as it is when another rank reacts (`Group.react`). -/
theorem ending?_react {g g₀ : Group} {rank q : Nat} {m : Member} {r : Reaction} {e : Ending}
    (ho : g₀.seats = g.seats) (hm : g.running? rank = some m) (hended : g.ending? q = some e) :
    (g₀.react rank r).ending? q = some e := by
  have hne : rank ≠ q := by
    rintro rfl
    exact nomatch hended.symm.trans (Group.running?_eq_some hm).2.2
  rw [← hended]
  simp [Group.ending?, Group.react, ho, Array.getElem?_setIfInBounds_ne hne]

/-- A run that is over stays over, whatever is `Met`. -/
theorem Met.ending? {e : Ending} {q : Nat} (h : c.Met incident d)
    (hended : c.group.ending? q = some e) : d.group.ending? q = some e := by
  cases h with
  | work _ hm _ => exact ending?_react rfl hm hended
  | attend _ hm _ => exact ending?_react rfl hm hended
  | receive _ hm _ => exact ending?_react rfl hm hended
  | conclude _ hm _ => exact ending?_react rfl hm hended
  | cancel hm => exact ending?_react rfl hm hended
  | lose _ hm => exact ending?_react rfl hm hended
  | nothing _ => exact hended

end Course

end Detachment.Cluster
