import Mathlib.Data.Finset.Card
import Detachment.Proofs.GroupSteps

/-! # Groups with different jobs

The ranks of a group may have loaded different jobs. Each rank tells the coordinator what it loaded
before it sends anything else, so the coordinator has compared this before it hears that the rank is
finished.

* `Course.Greeted` says whether the coordinator has read what a rank loaded.
* `Course.Mixed job size c` is what holds as long as the run of the coordinator goes on.
* `Course.Mixed.advance` says that everything that advances the group (`Group.Advances`) keeps it;
  `Mixed.advance_self` and `Mixed.advance_without` are the cases without and with a message. -/

namespace Detachment.Cluster

namespace Course

/-! ## What the coordinator has read -/

/-- What the coordinator, which has loaded `first`, knows of the job of a rank, given the messages
`line` on their way from this rank, and whether the coordinator has learned that it is finished. -/
inductive Greeted (first job : Job) (line : List Message) (closed : Bool) : Prop where
  /-- What the rank loaded is the first thing to read, and the coordinator knows nothing of it. -/
  | unread (rest : List Message) (hline : line = .handshake job.size job.length :: rest)
      (hrest : ∀ message ∈ rest, message.isHandshake = false) (hclosed : closed = false)
  /-- The coordinator has read what the rank loaded, and has loaded the same. -/
  | read (hload : job.load = first.load) (hline : ∀ message ∈ line, message.isHandshake = false)

namespace Greeted

variable {first job : Job} {line : List Message} {closed : Bool}

/-- More messages at the end of the `line` change nothing, unless they are handshakes. -/
theorem append (h : Greeted first job line closed) {new : List Message}
    (hnew : ∀ message ∈ new, message.isHandshake = false) :
    Greeted first job (line ++ new) closed := by
  cases h with
  | unread rest hline hrest hclosed =>
    refine .unread (rest ++ new) (by rw [hline, List.cons_append]) ?_ hclosed
    exact List.forall_mem_append.mpr ⟨hrest, hnew⟩
  | read hload hline => exact .read hload (List.forall_mem_append.mpr ⟨hline, hnew⟩)

/-- The coordinator has read what the rank loaded once it has read the first message of the
`line`. -/
theorem tail {message : Message} (h : Greeted first job (message :: line) closed)
    (hload : message.isHandshake = true → job.load = first.load) (closed' : Bool) :
    Greeted first job line closed' := by
  cases h with
  | unread rest hline hrest =>
    obtain ⟨rfl, rfl⟩ := List.cons.inj hline
    exact .read (hload rfl) hrest
  | read hload hline =>
    exact .read hload fun other hother => hline other (List.mem_cons_of_mem message hother)

/-- The coordinator knows the job of a rank that is finished: it has the `load` of its own. -/
theorem load_of_closed (h : Greeted first job line true) : job.load = first.load := by
  cases h with
  | unread _ _ _ hclosed => cases hclosed
  | read hload _ => exact hload

end Greeted

/-! ## The invariant -/

variable {c : Course} {g g₀ g' : Group} {job : Nat → Job} {size rank sender : Nat} {r : Reaction}
  {received : Received} {checks new : List Check}

/-- The other ranks that are finished, as far as the coordinator knows: `isClosed` of their
desks. -/
def closedPeers (g : Group) (size : Nat) : Finset Nat :=
  (Finset.range size).filter fun q => q ≠ Member.coordinator ∧ (g.desk q).isClosed = true

/-- Members of `closedPeers` are ranks of the group other than the coordinator, with a closed
desk. -/
theorem mem_closedPeers {q : Nat} : q ∈ closedPeers g size ↔
    q < size ∧ q ≠ Member.coordinator ∧ (g.desk q).isClosed = true := by
  rw [closedPeers, Finset.mem_filter, Finset.mem_range]

/-- What every incident keeps as long as the run of the coordinator goes on: it counts ranks that
are finished, and has compared their jobs. -/
structure Mixed (job : Nat → Job) (size : Nat) (c : Course) : Prop
    extends Group.Staffed job size c.group where
  running : c.group.ending? Member.coordinator = none
  finishedPeers : (c.group.member Member.coordinator).finishedPeers ≤
    (closedPeers c.group size).card
  compared : ∀ q < size, q ≠ Member.coordinator →
    Greeted (job Member.coordinator) (job q) (c.group.mail.line q Member.coordinator)
      (c.group.desk q).isClosed

/-! ## Steps -/

/-- The coordinator counts a rank as finished only when the desk of this rank gets closed, so
`Member.finishedPeers` stays below the number of `closedPeers`. -/
theorem finishedPeers_change (h : g.Staffed job size) (hchange : Group.Change job size g g' new)
    (hle : (g.member Member.coordinator).finishedPeers ≤ (closedPeers g size).card) :
    (g'.member Member.coordinator).finishedPeers ≤ (closedPeers g' size).card := by
  cases hchange with
  | proceed found hdesk =>
    have hbooks : (g'.member Member.coordinator).finishedPeers =
        (g.member Member.coordinator).finishedPeers := ((hdesk _ h.pos).books rfl).2.2
    have hsame : closedPeers g' size = closedPeers g size := by
      refine Finset.filter_congr fun q hq => ?_
      rw [(hdesk q (Finset.mem_range.mp hq)).isClosed]
    rw [hbooks, hsame]
    exact hle
  | @settle s event hs hkeeps hbacklog hothers _ _ hpeers =>
    obtain ⟨hopen, hclosed⟩ := (h.sound s hs).isClosed_tail hbacklog (hkeeps s hs).phase
    -- The desk of `s` was open, so it is one more if it is closed now.
    have hout : s ∉ closedPeers g size := by simp [mem_closedPeers, hopen]
    have hsubset : closedPeers g size ⊆ closedPeers g' size := by
      intro q hq
      have hne : q ≠ s := ne_of_mem_of_not_mem hq hout
      rw [mem_closedPeers] at hq ⊢
      rw [(hkeeps q hq.1).isClosed_eq (hothers q hq.1 hne)]
      exact hq
    rw [hpeers]
    split
    · next hstopped =>
      have hin : s ∈ closedPeers g' size :=
        mem_closedPeers.mpr ⟨hs, hstopped.1, hclosed.mpr hstopped.2⟩
      have hcard := Finset.card_le_card (Finset.insert_subset hin hsubset)
      rw [Finset.card_insert_of_notMem hout] at hcard
      omega
    · exact hle.trans (Finset.card_le_card hsubset)

/-- Whatever advances a group (`Group.Advances`) keeps the invariant `Mixed`, unless it ends the run
of the coordinator. What the coordinator knows of the jobs is given by the messages that were not
read, `hgreeted`. -/
theorem Mixed.advance (h : c.Mixed job size)
    (ha : Group.Advances job size rank r new c.group g₀ g')
    (hverdict : rank = Member.coordinator → r.verdict = .goesOn)
    (hgreeted : ∀ q < size, q ≠ Member.coordinator → Greeted (job Member.coordinator) (job q)
      (g₀.mail.line q Member.coordinator) (g'.desk q).isClosed) : Mixed job size ⟨checks, g'⟩ where
  toStaffed := h.toStaffed.advance ha
  running := by
    rw [ha.reacted.ending]
    split
    · next heq => rw [hverdict heq, Verdict.ending?]
    · rw [Group.ending?, ha.opened.seats]
      exact h.running
  finishedPeers := finishedPeers_change h.toStaffed ha.change h.finishedPeers
  compared q hq hzero := by
    rw [ha.reacted.line]
    refine (hgreeted q hq hzero).append fun message hmessage => ?_
    split at hmessage
    · obtain ⟨letter, hletter, rfl⟩ := List.mem_map.mp hmessage
      exact (ha.letters letter (List.mem_of_mem_filter hletter)).2
    · cases hmessage

/-- A step in which no message is read keeps `Mixed`: handling an event, or a check of the
worker. -/
theorem Mixed.advance_self (h : c.Mixed job size)
    (ha : Group.Advances job size rank r new c.group c.group g')
    (hverdict : rank = Member.coordinator → r.verdict = .goesOn) : Mixed job size ⟨checks, g'⟩ := by
  refine h.advance ha hverdict fun q hq hzero => ?_
  rw [ha.closed q hq hzero rfl]
  exact h.compared q hq hzero

/-- A step in which a message is read (`without`) keeps `Mixed`. If it tells what a rank loaded,
`rank` has loaded the same. -/
theorem Mixed.advance_without (h : c.Mixed job size)
    (hfirst : c.group.mail.firstFrom? rank sender = some received)
    (hload : received.message.isHandshake = true → (job sender).load = (job rank).load)
    (ha : Group.Advances job size rank r new c.group (c.group.without rank sender) g')
    (hverdict : rank = Member.coordinator → r.verdict = .goesOn) : Mixed job size ⟨checks, g'⟩ := by
  refine h.advance ha hverdict fun q hq hzero => ?_
  have hgreeted := h.compared q hq hzero
  have hline := Mailboxes.line_dropFrom hfirst q Member.coordinator
  split at hline
  · next hread =>
    obtain ⟨rfl, rfl⟩ := hread
    rw [hline] at hgreeted
    exact hgreeted.tail hload _
  · have hsame : (c.group.without rank sender).mail.line q Member.coordinator =
        c.group.mail.line q Member.coordinator := hline.symm
    rw [ha.closed q hq hzero hsame, hsame]
    exact hgreeted

end Course

end Detachment.Cluster
