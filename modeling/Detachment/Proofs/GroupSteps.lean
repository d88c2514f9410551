import Mathlib.Algebra.BigOperators.Group.Finset.Piecewise
import Detachment.Proofs.GroupDesks

/-! # Steps of a group

The ranks of a group may have loaded different jobs; `job rank` is what `rank` has loaded. Whatever
a rank does, it changes the desks of the group in one of two ways: desks go on, or the coordinator
learns something from a rank. This is proved once, for any jobs. The invariants of a group follow
from it.

* `Group.Staffed job size g` says that all letters on their way are lawful and all desks sound, each
  for the job of its rank.
* `Group.Change job size g g' new` gives the two ways in which the desks change; `new` are the
  checks that were made.
* `Group.Advances job size rank r new g g₀ g'` says what a step from `g` to `g'` does, in which
  `rank` reacts with `r`. `Staffed.work`, `Staffed.attend` and `Staffed.receive` are the steps. -/

/-- To add something at one place, `f q + if s = q then k else 0`, is to add it to the sum over all
places. -/
theorem Finset.sum_range_add_ite {s size : Nat} (hs : s < size) (f : Nat → Nat) (k : Nat) :
    ∑ q ∈ Finset.range size, (f q + if s = q then k else 0) = ∑ q ∈ Finset.range size, f q + k := by
  rw [Finset.sum_add_distrib, Finset.sum_ite_eq, if_pos (Finset.mem_range.mpr hs)]

namespace Detachment.Cluster

/-! ## Letters that tell what a rank loaded -/

/-- What a rank with this job tells the coordinator in its `Message.handshake`. -/
def Job.load (j : Job) : Load :=
  ⟨j.size, j.length⟩

/-- Jobs have the same `load` if they agree in `size` and `length`, which is all that the
coordinator compares. -/
theorem Job.load_eq_iff {j k : Job} : j.load = k.load ↔ j.size = k.size ∧ j.length = k.length := by
  simp [load]

/-- Whether a message is a `handshake`, which tells what a rank loaded. -/
def Message.isHandshake : Message → Bool
  | .handshake .. => true
  | _ => false

/-- A letter of a search, `asker? = some rank`, tells nothing about jobs. -/
theorem Parcel.isHandshake_of_asker? {p : Parcel} {rank : Nat} (h : p.asker? = some rank) :
    p.message.isHandshake = false := by
  unfold asker? at h
  cases hmessage : p.message <;> simp_all [Message.isHandshake]

/-- A report, `report? = some event`, tells nothing about jobs. -/
theorem Message.isHandshake_of_report? {message : Message} {event : Event}
    (h : message.report? = some event) : message.isHandshake = false := by
  cases message <;> simp_all [Message.isHandshake, Message.report?]

/-- The letters of a reaction of `rank` are `Lawful` and tell nothing about jobs. -/
def Discreet (job : Job) (size rank : Nat) (letters : List Letter) : Prop :=
  ∀ letter ∈ letters,
    (letter.parcel rank).Lawful job size ∧ letter.message.isHandshake = false

/-- The letters of a reaction that is `Discreet` go to ranks of the group. -/
theorem Discreet.recipient_lt {job : Job} {size rank : Nat} {letters : List Letter}
    (h : Discreet job size rank letters) : ∀ letter ∈ letters, letter.recipient < size :=
  fun letter hletter => (h letter hletter).1.1.2.1

/-- The run of `rank` goes on after a reaction (`Verdict.goesOn`), or the rank was told to end it.
The coordinator never is. -/
def Reaction.Lasting (rank : Nat) (r : Reaction) : Prop :=
  r.verdict = .goesOn ∨ rank ≠ Member.coordinator ∧ r.verdict = .ends none

/-- The run of the coordinator goes on after a reaction that is `Lasting`. -/
theorem Reaction.Lasting.goesOn {rank : Nat} {r : Reaction} (h : r.Lasting rank)
    (hzero : rank = Member.coordinator) : r.verdict = .goesOn :=
  h.resolve_right fun hends => hends.1 hzero

/-! ## What a rank does with events and messages -/

namespace Member

variable {m : Member} {i : Nat} {events : List Event}

/-- The coordinator adds an index that its own worker found to `redundant`. -/
theorem attend_redundant_coordinator (h : m.rank = coordinator) :
    attend { m with events } (.redundant i) =
      goesOn { m with events, redundant := m.redundant.insert i } [] :=
  if_pos (decide_eq_true h)

/-- Another rank passes an index that its worker found on to the coordinator, as
`Message.redundant`. -/
theorem attend_redundant_other (h : m.rank ≠ coordinator) :
    attend { m with events } (.redundant i) =
      goesOn { m with events } [⟨coordinator, .redundant i⟩] :=
  if_neg (by simpa [isCoordinator] using h)

/-- The coordinator notes in `workerDone` that its own worker has stopped. -/
theorem attend_stopped_coordinator (h : m.rank = coordinator) :
    attend { m with events } .stopped = goesOn { m with events, workerDone := true } [] := by
  simp [attend, isCoordinator, h]

/-- Another rank notes that its worker has stopped, and tells the coordinator by
`Message.finished`. -/
theorem attend_stopped_other (h : m.rank ≠ coordinator) :
    attend { m with events } .stopped =
      goesOn { m with events, workerDone := true } [⟨coordinator, .finished⟩] := by
  simp [attend, isCoordinator, h]

/-- No event ends the run of a rank: the verdict of `attend` is `goesOn`. -/
theorem verdict_attend (m : Member) (event : Event) : (m.attend event).verdict = .goesOn := by
  cases event with
  | redundant i =>
    rw [attend]
    split <;> rfl
  | idle =>
    rw [attend, askPeers]
    split <;> rfl
  | stopped => rfl

/-- A rank other than the coordinator that receives `Message.terminate` ends its run without a
result. -/
theorem receive_terminate (h : m.rank ≠ coordinator) (sender : Nat) :
    m.receive sender .terminate = ⟨m, [], .ends none⟩ := by
  simp [receive, isCoordinator, h]

/-- The coordinator goes on if another rank has loaded the same, `job.load = m.load`. -/
theorem receive_handshake {job : Job} (hrank : m.rank = coordinator) (hload : job.load = m.load)
    (sender : Nat) : m.receive sender (.handshake job.size job.length) = m.goesOn [] := by
  rw [Job.load] at hload
  simp [receive, compareLoad, isCoordinator, hrank, hload]

end Member

namespace Group

variable {g g₀ g' : Group} {rank sender : Nat} {r : Reaction} {received : Received}

/-! ## What a step does to the desks -/

/-- The group `g₀` has the seats of `g`. Some messages of `g` may be missing: a rank that reacts to
a message takes it out of its box before. -/
structure Opened (g g₀ : Group) : Prop where
  seats : g₀.seats = g.seats
  mail_size : g₀.mail.size = g.mail.size
  inFlight : g₀.mail.inFlight ≤ g.mail.inFlight

/-- A rank that handles an event takes no message out of its box. -/
theorem opened_self (g : Group) : g.Opened g := ⟨rfl, rfl, le_refl _⟩

/-- A rank that handles a message has taken it out of its box (`without`). -/
theorem opened_without (h : g.mail.firstFrom? rank sender = some received) :
    g.Opened (g.without rank sender) := by
  refine ⟨rfl, Mailboxes.size_dropFrom _ _ _, ?_⟩
  rw [Mailboxes.inFlight_dropFrom h]
  exact Multiset.le_add_right _ _

/-- The group has `size` ranks. The letters on their way are `Lawful` and the desks are `Sound`,
each for the job of its own rank. -/
structure Staffed (job : Nat → Job) (size : Nat) (g : Group) : Prop where
  pos : Member.coordinator < size
  seats_size : g.seats.size = size
  mail_size : g.mail.size = size
  lawful : ∀ p ∈ g.mail.inFlight, p.Lawful (job p.sender) size
  sound : ∀ rank < size, (g.desk rank).Sound (job rank) size rank

/-- How the desks of a group change from `g` to `g'` by a step that makes the checks `new`. -/
inductive Change (job : Nat → Job) (size : Nat) (g g' : Group) : List Check → Prop where
  /-- Every desk goes on (`Desk.Proceeds`). The positions that no desk holds any more are those of
  the checks, and the desks announce what is found there. -/
  | proceed {new : List Check} (found : Nat → List Nat)
      (hdesk : ∀ q < size, (g.desk q).Proceeds (job q) size q (found q) (g'.desk q))
      (hfound : ∀ i, (∃ q < size, i ∈ found q) ↔
        i ∈ new.flatMap fun check => (job check.rank).findings check.position)
      (hholding : ∀ position, ∑ q ∈ Finset.range size, (g.desk q).holding position =
        ∑ q ∈ Finset.range size, (g'.desk q).holding position +
          new.countP (·.position = position)) : Change job size g g' new
  /-- The coordinator learns `event` from the rank `s`: the event leaves the backlog of `s` and goes
  into the books. Otherwise the desks stay as they are (`Desk.Keeps`). -/
  | settle {s : Nat} {event : Event} (hs : s < size)
      (hkeeps : ∀ q < size, (g.desk q).Keeps (job q) size q (g'.desk q))
      (hbacklog : (g.desk s).backlog = event :: (g'.desk s).backlog)
      (hothers : ∀ q < size, q ≠ s → (g'.desk q).backlog = (g.desk q).backlog)
      (hredundant : ∀ i, i ∈ (g'.member Member.coordinator).redundant ↔
        i ∈ (g.member Member.coordinator).redundant ∨ event = .redundant i)
      (hdone : (g'.member Member.coordinator).workerDone =
        ((g.member Member.coordinator).workerDone ||
          decide (s = Member.coordinator ∧ event = .stopped)))
      (hpeers : (g'.member Member.coordinator).finishedPeers =
        (g.member Member.coordinator).finishedPeers +
          if s ≠ Member.coordinator ∧ event = .stopped then 1 else 0) : Change job size g g' []

/-- What a step from `g` to `g'` does, in which `rank` reacts with `r` in `g₀`: it sends discreet
letters and changes the desks. The coordinator knows whether the desk of another rank is closed from
the messages of this rank, so `isClosed` changes only if it reads one of them. -/
structure Advances (job : Nat → Job) (size rank : Nat) (r : Reaction) (new : List Check)
    (g g₀ g' : Group) : Prop where
  opened : g.Opened g₀
  reacted : g₀.Reacted rank r g'
  letters : Discreet (job rank) size rank r.letters
  change : Change job size g g' new
  closed : ∀ q < size, q ≠ Member.coordinator →
    g₀.mail.line q Member.coordinator = g.mail.line q Member.coordinator →
      (g'.desk q).isClosed = (g.desk q).isClosed

namespace Staffed

variable {job : Nat → Job} {size : Nat} {new : List Check}

/-- Letters to ranks of the group are carried, so `react` is a reaction (`Reacted`). -/
theorem reacted (h : g.Staffed job size) (ho : g.Opened g₀) (hrank : rank < size)
    (hletters : ∀ letter ∈ r.letters, letter.recipient < size) :
    g₀.Reacted rank r (g₀.react rank r) := by
  refine Group.reacted ?_ fun letter hletter => ?_
  · rw [ho.seats, h.seats_size]
    exact hrank
  · rw [ho.mail_size, h.mail_size]
    exact hletters letter hletter

/-- Every step (`Advances`) keeps a group `Staffed`. New letters are lawful by `Advances.letters`,
and the desks are sound by `Change`. -/
theorem advance (h : g.Staffed job size) (ha : Advances job size rank r new g g₀ g') :
    g'.Staffed job size where
  pos := h.pos
  seats_size := ha.reacted.seats_size.trans (ha.opened.seats ▸ h.seats_size)
  mail_size := ha.reacted.mail_size.trans (ha.opened.mail_size.trans h.mail_size)
  lawful p hp := by
    rw [ha.reacted.inFlight, Multiset.mem_add] at hp
    rcases hp with hp | hp
    · exact h.lawful p (Multiset.mem_of_le ha.opened.inFlight hp)
    · obtain ⟨letter, hletter, rfl⟩ := List.mem_map.mp hp
      exact (ha.letters letter hletter).1
  sound q hq := by
    cases ha.change with
    | proceed found hdesk => exact (hdesk q hq).sound
    | settle _ hkeeps => exact (hkeeps q hq).sound

end Staffed

/-! ## Kinds of steps -/

variable {job : Nat → Job} {size : Nat} {new : List Check}

/-- A step after which every desk goes on (`Change.proceed`). -/
theorem Advances.proceed (ho : g.Opened g₀) (hreacted : g₀.Reacted rank r g')
    (hletters : Discreet (job rank) size rank r.letters) {found : Nat → List Nat}
    (hdesk : ∀ q < size, (g.desk q).Proceeds (job q) size q (found q) (g'.desk q))
    (hfound : ∀ i, (∃ q < size, i ∈ found q) ↔
      i ∈ new.flatMap fun check => (job check.rank).findings check.position)
    (hholding : ∀ position, ∑ q ∈ Finset.range size, (g.desk q).holding position =
      ∑ q ∈ Finset.range size, (g'.desk q).holding position + new.countP (·.position = position)) :
    Advances job size rank r new g g₀ g' :=
  ⟨ho, hreacted, hletters, .proceed found hdesk hfound hholding, fun q hq _ _ => (hdesk q hq).isClosed⟩

/-- A step by which `event` goes from the backlog of `s` into the coordinator's books
(`Change.settle`). Another rank than the coordinator is heard because a message of it was taken out
of the coordinator's box, `hread`. -/
theorem Advances.settle {s : Nat} {event : Event} (ho : g.Opened g₀)
    (hreacted : g₀.Reacted rank r g') (hletters : r.letters = [])
    (hread : s = Member.coordinator ∨
      g₀.mail.line s Member.coordinator ≠ g.mail.line s Member.coordinator) (hs : s < size)
    (hkeeps : ∀ q < size, (g.desk q).Keeps (job q) size q (g'.desk q))
    (hbacklog : (g.desk s).backlog = event :: (g'.desk s).backlog)
    (hothers : ∀ q < size, q ≠ s → (g'.desk q).backlog = (g.desk q).backlog)
    (hredundant : ∀ i, i ∈ (g'.member Member.coordinator).redundant ↔
      i ∈ (g.member Member.coordinator).redundant ∨ event = .redundant i)
    (hdone : (g'.member Member.coordinator).workerDone =
      ((g.member Member.coordinator).workerDone ||
        decide (s = Member.coordinator ∧ event = .stopped)))
    (hpeers : (g'.member Member.coordinator).finishedPeers =
      (g.member Member.coordinator).finishedPeers +
        if s ≠ Member.coordinator ∧ event = .stopped then 1 else 0) :
    Advances job size rank r [] g g₀ g' where
  opened := ho
  reacted := hreacted
  letters := hletters.symm ▸ List.forall_mem_nil _
  change := .settle hs hkeeps hbacklog hothers hredundant hdone hpeers
  closed q hq hzero hline := by
    have hne : q ≠ s := by
      rintro rfl
      exact hread.elim hzero fun hne => hne hline
    exact (hkeeps q hq).isClosed_eq (hothers q hq hne)

namespace Staffed

/-- A step after which the desk of `s` goes on (`Proceeds`) and the others are as they were. Only
one term of the sum over the desks changes (`Finset.sum_range_add_ite`). -/
theorem proceedAt (h : g.Staffed job size) {s : Nat} {found : List Nat} (ho : g.Opened g₀)
    (hreacted : g₀.Reacted rank r g') (hletters : Discreet (job rank) size rank r.letters)
    (hs : s < size) (hdesk : (g.desk s).Proceeds (job s) size s found (g'.desk s))
    (hothers : ∀ q, s ≠ q → g'.desk q = g.desk q)
    (hfound : ∀ i, i ∈ found ↔
      i ∈ new.flatMap fun check => (job check.rank).findings check.position)
    (hholding : ∀ position, (g.desk s).holding position =
      (g'.desk s).holding position + new.countP (·.position = position)) :
    Advances job size rank r new g g₀ g' := by
  have hall : ∀ q < size,
      (g.desk q).Proceeds (job q) size q (if s = q then found else []) (g'.desk q) := by
    intro q hq
    by_cases hq' : s = q
    · subst hq'
      simpa using hdesk
    · rw [if_neg hq', hothers q hq']
      exact (h.sound q hq).proceeds
  refine .proceed ho hreacted hletters hall (fun i => ?_) fun position => ?_
  · rw [← hfound i]
    constructor
    · rintro ⟨q, -, hi⟩
      split at hi
      · exact hi
      · cases hi
    · exact fun hi => ⟨s, hs, by rwa [if_pos rfl]⟩
  · rw [← Finset.sum_range_add_ite hs]
    refine Finset.sum_congr rfl fun q _ => ?_
    by_cases hq : s = q
    · subst hq
      rw [if_pos rfl]
      exact hholding position
    · rw [if_neg hq, hothers q hq, add_zero]

/-- A step by which the desk of `t` gives the positions `k` to the desk of `s`: the sum of `holding`
over all desks stays the same. -/
theorem exchange (h : g.Staffed job size) {s t : Nat} {k : Nat → Nat} (ho : g.Opened g₀)
    (hreacted : g₀.Reacted rank r g') (hletters : Discreet (job rank) size rank r.letters)
    (hs : s < size) (ht : t < size) (hne : s ≠ t)
    (hgains : (g.desk s).Proceeds (job s) size s [] (g'.desk s))
    (hgives : (g.desk t).Proceeds (job t) size t [] (g'.desk t))
    (hothers : ∀ q, s ≠ q → t ≠ q → g'.desk q = g.desk q)
    (hgain : ∀ position, (g'.desk s).holding position = (g.desk s).holding position + k position)
    (hgive : ∀ position, (g.desk t).holding position = (g'.desk t).holding position + k position) :
    Advances job size rank r [] g g₀ g' := by
  have hall : ∀ q < size, (g.desk q).Proceeds (job q) size q [] (g'.desk q) := by
    intro q hq
    by_cases hqs : s = q
    · exact hqs ▸ hgains
    · by_cases hqt : t = q
      · exact hqt ▸ hgives
      · rw [hothers q hqs hqt]
        exact (h.sound q hq).proceeds
  refine .proceed ho hreacted hletters hall (by simp) fun position => ?_
  -- Both sums get the same summand, on the one side for `s` and on the other for `t`.
  have hmoved : ∀ q ∈ Finset.range size,
      (g.desk q).holding position + (if s = q then k position else 0) =
        (g'.desk q).holding position + if t = q then k position else 0 := by
    intro q _
    by_cases hqs : s = q
    · subst hqs
      rw [if_pos rfl, if_neg (Ne.symm hne), hgain, add_zero]
    · by_cases hqt : t = q
      · subst hqt
        rw [if_neg hqs, if_pos rfl, hgive, add_zero]
      · rw [if_neg hqs, if_neg hqt, hothers q hqs hqt]
  have hsum := Finset.sum_congr rfl hmoved
  rw [Finset.sum_range_add_ite hs, Finset.sum_range_add_ite ht] at hsum
  exact Nat.add_right_cancel hsum

/-- A reaction that leaves the state of its rank as it was, with letters that belong to no desk:
nothing changes (`Reacted.desk_still`). -/
theorem ignore (h : g.Staffed job size) (ho : g.Opened g₀) (hrank : rank < size)
    (hmember : r.member = g.member rank) (hletters : Discreet (job rank) size rank r.letters)
    (hnone : ∀ letter ∈ r.letters,
      (letter.parcel rank).asker? = none ∧ letter.message.report? = none)
    (hdesk : ∀ q, g₀.desk q = g.desk q) :
    Advances job size rank r [] g g₀ (g₀.react rank r) := by
  have hreacted := h.reacted ho hrank hletters.recipient_lt
  have hmember₀ : r.member = g₀.member rank :=
    hmember.trans (congrArg Desk.member (hdesk rank)).symm
  have hstill : ∀ q, (g₀.react rank r).desk q = g.desk q := fun q =>
    (hreacted.desk_still hmember₀ hnone q).trans (hdesk q)
  have hself : (g.desk rank).Proceeds (job rank) size rank [] ((g₀.react rank r).desk rank) :=
    hstill rank ▸ (h.sound rank hrank).proceeds
  exact h.proceedAt ho hreacted hletters hrank hself (fun q _ => hstill q) (by simp)
    (by simp [hstill])

/-! ## The worker -/

variable {n : Member} {event : Event} {events : List Event} {message : Message}

/-- The worker of a rank goes on: it checks `Member.nextPosition?`, if there is one. It sends no
letters, so this is `proceedAt` with `Desk.Sound.work`. -/
theorem work (h : g.Staffed job size) (hrank : rank < size)
    (hwork : (g.member rank).work? = some n) :
    Advances job size rank (n.goesOn [])
      ((g.member rank).nextPosition?.map fun position => ⟨rank, position⟩).toList
      g g (g.react rank (n.goesOn [])) := by
  have hreacted : g.Reacted rank (n.goesOn []) _ :=
    h.reacted g.opened_self hrank (List.forall_mem_nil _)
  obtain ⟨hself, hothers⟩ := hreacted.desk_silent
  obtain ⟨hproceeds, hholding⟩ := (h.sound rank hrank).work hwork
  refine h.proceedAt g.opened_self hreacted (List.forall_mem_nil _) hrank (hself ▸ hproceeds)
    hothers (fun i => ?_) fun position => ?_
  · cases hposition : (g.member rank).nextPosition? <;> simp [desk, hposition]
  · rw [hholding, hself]
    cases hposition : (g.member rank).nextPosition? <;>
      simp [desk, hposition, List.count_singleton]

/-! ## Searches -/

/-- A reaction that carries on the search of its rank (`Desk.Searches`). Its letters are asked by
the rank itself (`asker?`), so only its own desk changes. -/
theorem search (h : g.Staffed job size) (ho : g.Opened g₀) (hrank : rank < size)
    (hsearch : (g.desk rank).Searches (job rank) size rank (g₀.desk rank).errand r)
    (hreports : (g₀.desk rank).reports = (g.desk rank).reports)
    (hothers : ∀ q, rank ≠ q → g₀.desk q = g.desk q) :
    Advances job size rank r [] g g₀ (g₀.react rank r) := by
  have hasker : ∀ letter ∈ r.letters, (letter.parcel rank).asker? = some rank :=
    fun letter hletter => (hsearch.letters letter hletter).2
  have hletters : Discreet (job rank) size rank r.letters := fun letter hletter =>
    ⟨(hsearch.letters letter hletter).1, Parcel.isHandshake_of_asker? (hasker letter hletter)⟩
  have hreacted := h.reacted ho hrank hletters.recipient_lt
  have hself : (g₀.react rank r).desk rank =
      ⟨r.member, (g₀.desk rank).errand + Multiset.ofList (r.letters.map (·.parcel rank)),
        (g.desk rank).reports⟩ := by
    rw [hreacted.desk_of_asker? hasker, if_pos rfl, if_pos rfl, hreports]
  refine h.proceedAt ho hreacted hletters hrank (hself ▸ hsearch.proceeds) ?_ (by simp) ?_
  · exact fun q hq => (hreacted.desk_other hasker hq hq).trans (hothers q hq)
  · intro position
    rw [hself, hsearch.holding]
    simp

/-- A rank answers a letter of the search of `sender`, who gains the positions `k` that `rank` gives
away. -/
theorem serve (h : g.Staffed job size) (hrank : rank < size) (hsender : sender < size)
    (hne : sender ≠ rank) (hfirst : g.mail.firstFrom? rank sender = some received)
    (hasker : (Parcel.mk sender rank received.message).asker? = some sender) {answer : Message}
    (hlawful : (Parcel.mk rank sender answer).Lawful (job rank) size)
    (hanswer : (Parcel.mk rank sender answer).asker? = some sender) {k : Nat → Nat}
    (hserve : (g.desk sender).Proceeds (job sender) size sender [] ⟨(g.desk sender).member,
      ((g.without rank sender).desk sender).errand + {⟨rank, sender, answer⟩},
      (g.desk sender).reports⟩)
    (hserved : ∀ position, (Desk.mk (g.desk sender).member
      (((g.without rank sender).desk sender).errand + {⟨rank, sender, answer⟩})
      (g.desk sender).reports).holding position = (g.desk sender).holding position + k position)
    (hgive : (g.desk rank).Proceeds (job rank) size rank []
      ⟨n, (g.desk rank).errand, (g.desk rank).reports⟩)
    (hgiven : ∀ position, (g.desk rank).holding position =
      (Desk.mk n (g.desk rank).errand (g.desk rank).reports).holding position + k position) :
    Advances job size rank (n.goesOn [⟨sender, answer⟩]) [] g (g.without rank sender)
      ((g.without rank sender).react rank (n.goesOn [⟨sender, answer⟩])) := by
  have ho := opened_without hfirst
  have hletters : Discreet (job rank) size rank (n.goesOn [⟨sender, answer⟩]).letters := by
    intro letter hletter
    rw [List.mem_singleton.mp hletter]
    exact ⟨hlawful, Parcel.isHandshake_of_asker? hanswer⟩
  have hreacted := h.reacted ho hrank hletters.recipient_lt
  obtain ⟨-, hreports, hothers⟩ := desk_without_of_asker? hfirst hasker
  generalize (g.without rank sender).react rank (n.goesOn [⟨sender, answer⟩]) = g' at hreacted ⊢
  -- The answer takes the place of the request at the desk of the rank that asked.
  obtain ⟨hasked, howner, hrest⟩ := hreacted.desk_of_answer hne hanswer
  rw [hreports] at hasked
  rw [hothers rank hne] at howner
  exact h.exchange (k := k) ho hreacted hletters hsender hrank hne (hasked ▸ hserve)
    (howner ▸ hgive) (fun q hq hq' => (hrest q hq hq').trans (hothers q hq))
    (fun position => hasked ▸ hserved position) fun position => howner ▸ hgiven position

/-! ## Reports -/

/-- An index that is found redundant is added to the books (`IndexSet.insert`). -/
theorem mem_insert_redundant (s : IndexSet) (i j : Nat) :
    j ∈ s.insert i ↔ j ∈ s ∨ Event.redundant i = .redundant j := by
  rw [Std.ExtTreeSet.mem_insert, compare_eq_iff_eq, Event.redundant.injEq, or_comm]

/-- A rank other than the coordinator passes an event on: it leaves the `events` and is the last of
the `reports`, so the backlog stays the same. -/
theorem pass (h : g.Staffed job size) (hrank : rank < size) (hzero : rank ≠ Member.coordinator)
    (hevents : (g.desk rank).member.events = event :: events) (hevent : event ≠ .idle)
    (hreport : message.report? = some event)
    (hlawful : (Parcel.mk rank Member.coordinator message).Lawful (job rank) size)
    (workerDone : Bool) (hn : n = { g.member rank with events, workerDone }) :
    Advances job size rank (n.goesOn [⟨Member.coordinator, message⟩]) [] g g
      (g.react rank (n.goesOn [⟨Member.coordinator, message⟩])) := by
  have hletters : Discreet (job rank) size rank
      (n.goesOn [⟨Member.coordinator, message⟩]).letters := by
    intro letter hletter
    rw [List.mem_singleton.mp hletter]
    exact ⟨hlawful, Message.isHandshake_of_report? hreport⟩
  have hreacted := h.reacted g.opened_self hrank hletters.recipient_lt
  have hdesk := hreacted.desk_of_report? hreport
  have hself := hdesk rank
  rw [if_pos rfl, if_pos rfl, hn] at hself
  have hproceeds := (h.sound rank hrank).pass hzero hevents hevent workerDone
  refine h.proceedAt g.opened_self hreacted hletters hrank (hn ▸ hself ▸ hproceeds) (fun q hq => ?_)
    (by simp) fun position => ?_
  · rw [hdesk, if_neg hq, if_neg hq, List.append_nil]
    rfl
  · rw [hn, hself]
    rfl

/-- The coordinator enters an event of its own worker into its books, `redundant` and
`workerDone`. -/
theorem enter (h : g.Staffed job size)
    (hevents : (g.desk Member.coordinator).member.events = event :: events)
    (hevent : event ≠ .idle) {workerDone : Bool} {redundant : IndexSet}
    (hredundant : ∀ i, i ∈ redundant ↔
      i ∈ (g.member Member.coordinator).redundant ∨ event = .redundant i)
    (hdone : workerDone =
      ((g.member Member.coordinator).workerDone || decide (event = .stopped)))
    (hn : n = { g.member Member.coordinator with events, workerDone, redundant }) :
    Advances job size Member.coordinator (n.goesOn []) [] g g
      (g.react Member.coordinator (n.goesOn [])) := by
  have hreacted : g.Reacted Member.coordinator (n.goesOn []) _ :=
    h.reacted g.opened_self h.pos (List.forall_mem_nil _)
  obtain ⟨hself, hothers⟩ := hreacted.desk_silent
  have hmember : (g.react Member.coordinator (n.goesOn [])).member Member.coordinator = n :=
    congrArg Desk.member hself
  obtain ⟨hkeeps, hbacklog⟩ := (h.sound _ h.pos).enter rfl hevents hevent workerDone redundant
  refine .settle g.opened_self hreacted rfl (.inl rfl) h.pos (fun q hq => ?_)
    (by rw [hself, hn]; exact hbacklog) (fun q _ hq => ?_) (fun i => ?_) ?_ ?_
  · by_cases hzero : Member.coordinator = q
    · subst hzero
      rw [hself, hn]
      exact hkeeps
    · rw [hothers q hzero]
      exact (h.sound q hq).keeps
  · rw [hothers q (Ne.symm hq)]
  · rw [hmember, hn]
    exact hredundant i
  · rw [hmember, hn]
    simpa using hdone
  · rw [hmember, hn]
    simp

/-- The coordinator enters a report of another rank into its books, `redundant` and
`finishedPeers`. -/
theorem read (h : g.Staffed job size) (hsender : sender < size)
    (hzero : sender ≠ Member.coordinator)
    (hfirst : g.mail.firstFrom? Member.coordinator sender = some received)
    (hreport : received.message.report? = some event) {redundant : IndexSet} {finishedPeers : Nat}
    (hredundant : ∀ i, i ∈ redundant ↔
      i ∈ (g.member Member.coordinator).redundant ∨ event = .redundant i)
    (hpeers : finishedPeers = (g.member Member.coordinator).finishedPeers +
      if event = .stopped then 1 else 0)
    (hn : n = { g.member Member.coordinator with redundant, finishedPeers }) :
    Advances job size Member.coordinator (n.goesOn []) [] g (g.without Member.coordinator sender)
      ((g.without Member.coordinator sender).react Member.coordinator (n.goesOn [])) := by
  have ho := opened_without hfirst
  have hreacted : (g.without Member.coordinator sender).Reacted Member.coordinator
    (n.goesOn []) _ := h.reacted ho h.pos (List.forall_mem_nil _)
  have hread : (g.without Member.coordinator sender).mail.line sender Member.coordinator ≠
      g.mail.line sender Member.coordinator := by
    rw [Mailboxes.line_dropFrom hfirst, if_pos ⟨rfl, rfl⟩]
    exact List.ne_cons_self
  obtain ⟨hreports, herrand, hothers⟩ := desk_without_of_report? hfirst hreport
  generalize (g.without Member.coordinator sender).react Member.coordinator
    (n.goesOn []) = g' at hreacted ⊢
  obtain ⟨hself, hother⟩ := hreacted.desk_silent
  rw [hothers _ hzero] at hself
  have hmember : g'.member Member.coordinator = n := congrArg Desk.member hself
  obtain ⟨hkeeps, hbacklog⟩ := (h.sound sender hsender).read hreports
  -- Two desks change: the sender's by the report that was read, the coordinator's by the entry.
  have hsenderDesk : g'.desk sender = ⟨(g.desk sender).member, (g.desk sender).errand,
      ((g.without Member.coordinator sender).desk sender).reports⟩ := by
    rw [hother sender (Ne.symm hzero), ← herrand]
    rfl
  refine .settle ho hreacted rfl (.inr hread) hsender (fun q hq => ?_)
    (by rw [hsenderDesk]; exact hbacklog) (fun q _ hq => ?_) (fun i => ?_) ?_ ?_
  · by_cases hq' : Member.coordinator = q
    · subst hq'
      rw [hself, hn]
      exact (h.sound _ h.pos).enterReport redundant finishedPeers
    · by_cases hqs : sender = q
      · subst hqs
        rw [hsenderDesk]
        exact hkeeps
      · rw [hother q hq', hothers q hqs]
        exact (h.sound q hq).keeps
  · by_cases hq' : Member.coordinator = q
    · subst hq'
      rw [hself, hn]
      rfl
    · rw [hother q hq', hothers q (Ne.symm hq)]
  · rw [hmember, hn]
    exact hredundant i
  · rw [hmember, hn]
    simp [hzero]
  · rw [hmember, hn]
    simpa [hzero] using hpeers

/-! ## The communicator -/

/-- The communicator of a rank handles an event (`Member.attend`): the coordinator enters it into
its books, another rank passes it on, and `Event.idle` starts a search. -/
theorem attend (h : g.Staffed job size) (hrank : rank < size)
    (hevents : (g.member rank).events = event :: events) :
    Advances job size rank ({ g.member rank with events }.attend event) [] g g
      (g.react rank ({ g.member rank with events }.attend event)) := by
  have hrank_eq : (g.member rank).rank = rank := (h.sound rank hrank).rank_eq
  cases event with
  | idle =>
    obtain ⟨herrand, hsearch⟩ := (h.sound rank hrank).attendIdle hevents
    exact h.search g.opened_self hrank (herrand ▸ hsearch) rfl fun _ _ => rfl
  | redundant i =>
    by_cases hzero : rank = Member.coordinator
    · subst hzero
      rw [Member.attend_redundant_coordinator hrank_eq]
      exact h.enter hevents (by simp) (mem_insert_redundant _ i) (by simp) rfl
    · rw [Member.attend_redundant_other (ne_of_eq_of_ne hrank_eq hzero)]
      exact h.pass hrank hzero hevents (by simp) rfl ⟨⟨hrank, h.pos, hzero⟩, rfl⟩ _ rfl
  | stopped =>
    by_cases hzero : rank = Member.coordinator
    · subst hzero
      rw [Member.attend_stopped_coordinator hrank_eq]
      exact h.enter hevents (by simp) (by simp) (by simp) rfl
    · rw [Member.attend_stopped_other (ne_of_eq_of_ne hrank_eq hzero)]
      exact h.pass hrank hzero hevents (by simp) rfl ⟨⟨hrank, h.pos, hzero⟩, rfl⟩ true rfl

/-- The communicator of a rank handles a message (`Member.receive`). If the message tells what
`sender` loaded, `rank` has to have loaded the same. -/
theorem receive (h : g.Staffed job size) (hrank : rank < size)
    (hfirst : g.mail.firstFrom? rank sender = some received)
    (hload : received.message.isHandshake = true → (job sender).load = (job rank).load) :
    Advances job size rank ((g.member rank).receive sender received.message) [] g
      (g.without rank sender)
      ((g.without rank sender).react rank ((g.member rank).receive sender received.message)) ∧
    ((g.member rank).receive sender received.message).Lasting rank := by
  have hsound := h.sound rank hrank
  have hrank_eq : (g.member rank).rank = rank := hsound.rank_eq
  obtain ⟨origin, message⟩ := received
  obtain rfl : origin = sender := (Mailboxes.firstFrom?_eq_some hfirst).1
  obtain ⟨⟨hsender, -, hne⟩, hlawful⟩ := h.lawful _ (Mailboxes.mem_inFlight_of_firstFrom? hfirst)
  have ho := opened_without hfirst
  -- The letters of a search go to one desk or, if they ask for something, to two; reports go into
  -- the coordinator's books; the rest changes no desk.
  cases message with
  | handshake candidates length =>
    obtain ⟨rfl, hcandidates, hlength⟩ := hlawful
    obtain rfl : candidates = (job origin).size := hcandidates
    obtain rfl : length = (job origin).length := hlength
    have hjob : (g.member Member.coordinator).job = job Member.coordinator := hsound.job_eq
    have hgoesOn := Member.receive_handshake hrank_eq
      ((hload rfl).trans (by rw [Member.load, hjob, Job.load])) origin
    dsimp only
    rw [hgoesOn]
    exact ⟨h.ignore ho hrank rfl (List.forall_mem_nil _) (List.forall_mem_nil _)
      (desk_without_of_none hfirst rfl rfl), .inl rfl⟩
  | abort reason => exact hlawful.elim
  | redundant i =>
    obtain rfl : rank = Member.coordinator := hlawful
    exact ⟨h.read hsender hne hfirst rfl (mem_insert_redundant _ i) (by simp) rfl, .inl rfl⟩
  | finished =>
    obtain rfl : rank = Member.coordinator := hlawful
    exact ⟨h.read hsender hne hfirst rfl (by simp) (by simp) rfl, .inl rfl⟩
  | offerRequest =>
    obtain ⟨herrand, -, -⟩ := desk_without_of_asker? hfirst rfl
    obtain ⟨hserve, hserved⟩ := (h.sound origin hsender).serveOffer herrand
      (g.member rank).slice.offered
    exact ⟨h.serve (k := fun _ => 0) hrank hsender hne hfirst rfl
      ⟨⟨hrank, hsender, hne.symm⟩, trivial⟩ rfl hserve hserved hsound.proceeds fun _ => rfl,
      .inl rfl⟩
  | offer span =>
    obtain ⟨herrand, hreports, hothers⟩ := desk_without_of_asker? hfirst rfl
    have hsearch := hsound.noteOffer herrand ⟨hsender, hne⟩
    exact ⟨h.search ho hrank hsearch hreports hothers, .inl hsearch.verdict⟩
  | claim span =>
    cases hgrant : (g.member rank).slice.grant span with
    | mk granted slice =>
      obtain ⟨herrand, -, -⟩ := desk_without_of_asker? hfirst rfl
      obtain ⟨hserve, hserved⟩ := (h.sound origin hsender).serveClaim herrand granted
      obtain ⟨hgive, hgiven⟩ := hsound.grant hgrant
      simp only [Member.receive, hgrant]
      exact ⟨h.serve hrank hsender hne hfirst rfl ⟨⟨hrank, hsender, hne.symm⟩, trivial⟩ rfl
        hserve hserved hgive hgiven, .inl rfl⟩
  | claimAnswer granted =>
    obtain ⟨herrand, hreports, hothers⟩ := desk_without_of_asker? hfirst rfl
    have hsearch := hsound.answerClaim herrand
    exact ⟨h.search ho hrank hsearch hreports hothers, .inl hsearch.verdict⟩
  | terminate =>
    have hzero : rank ≠ Member.coordinator := hlawful
    rw [Member.receive_terminate (ne_of_eq_of_ne hrank_eq hzero)]
    exact ⟨h.ignore ho hrank rfl (List.forall_mem_nil _) (List.forall_mem_nil _)
      (desk_without_of_none hfirst rfl rfl), .inr ⟨hzero, rfl⟩⟩

end Staffed

/-! ## The start -/

variable {jobs : List Job} {sharing : Sharing}

/-- At the start a desk has the state `Member.start`: nobody has asked or reported anything. Only
greetings are on their way (`mem_inFlight_start`), and nobody asks by these. -/
theorem desk_start {loaded : Job} (hjob : jobs[rank]? = some loaded) :
    (start jobs sharing).desk rank = ⟨.start loaded sharing jobs.length rank, 0, []⟩ := by
  have hpos : 0 < jobs.length := Nat.zero_lt_of_lt (List.getElem?_eq_some_iff.mp hjob).1
  obtain ⟨hmail, hflight⟩ := mem_inFlight_start _ sharing hpos
  have hmember : (start jobs sharing).member rank = .start loaded sharing jobs.length rank := by
    simp [member, start_seat hjob]
  rw [desk, hmember, Desk.mk.injEq]
  refine ⟨rfl, Multiset.filter_eq_nil.mpr fun p hp => ?_,
    List.filterMap_eq_nil_iff.mpr fun message hmessage => ?_⟩
  · obtain ⟨job, -, -, -, hmessage⟩ := hflight p hp
    simp [Parcel.asker?, hmessage]
  · obtain ⟨job, -, -, -, rfl⟩ :=
      hflight _ (Mailboxes.mem_inFlight_of_mem_line (hmail.symm ▸ hpos) hmessage)
    rfl

/-- A desk with the state `Member.start` is `Sound`. Its worker has the whole slice
(`Slice.tidy_ofSpan`) and its search is resting. -/
theorem sound_start {loaded : Job} (sharing : Sharing) (hrank : rank < size) :
    Desk.Sound loaded size rank ⟨.start loaded sharing size rank, 0, []⟩ where
  rank_lt := hrank
  rank_eq := rfl
  size_eq := rfl
  job_eq := rfl
  order_eq := rfl
  tidy := Slice.tidy_ofSpan _ _
  usedUp := by simp [Member.start]
  exhausted := by simp [Member.start]
  stopped := by simp [Member.start]
  best := by simp [Member.start]
  search := .resting (by simp [Member.start]) rfl rfl
  backlog := .running [] (by simp [Member.start]) rfl
  coordinator := fun _ => rfl

/-- A group is `Staffed` at the start, and nothing but lawful greetings is on its way. -/
theorem staffed_start (sharing : Sharing) (hpos : 0 < jobs.length)
    (hjob : ∀ rank < jobs.length, jobs[rank]? = some (job rank)) :
    (start jobs sharing).Staffed job jobs.length where
  pos := hpos
  seats_size := size_seats_start
  mail_size := (mem_inFlight_start jobs sharing hpos).1
  lawful p hp := by
    obtain ⟨loaded, hloaded, hsender, hrecipient, hmessage⟩ :=
      (mem_inFlight_start jobs sharing hpos).2 p hp
    have hlt : p.sender < jobs.length := (List.getElem?_eq_some_iff.mp hloaded).1
    obtain rfl : job p.sender = loaded := Option.some.inj ((hjob _ hlt).symm.trans hloaded)
    refine ⟨⟨hlt, hrecipient ▸ hpos, hrecipient ▸ hsender⟩, ?_⟩
    rw [hmessage]
    exact ⟨hrecipient, rfl, rfl⟩
  sound rank hrank := desk_start (hjob rank hrank) ▸ sound_start sharing hrank

end Group

end Detachment.Cluster
