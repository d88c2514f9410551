import Detachment.Cluster.Group
import Detachment.Proofs.LettersInFlight

/-! # Courses of a group

A group may take its steps in any order. A course is the state that it has reached, together with
the positions that were checked on the way.

* `Move` names a step and `Group.move?` takes it.
* `Course.follow?` takes any number of steps; `Course.follow?_induction` is the induction over them.
* `Group.Reacted` says what a reaction changes, `Group.start_seat` and
  `Group.mem_inFlight_start` where a course starts. -/

namespace Detachment.Cluster

/-- A step of a group: which rank acts, and which of its two parts. -/
inductive Move where
  /-- The worker of a rank goes on. -/
  | work (rank : Nat)
  /-- The communicator of a rank handles the first event. -/
  | attend (rank : Nat)
  /-- The communicator of a rank handles the first message of a sender. -/
  | receive (rank sender : Nat)
  /-- The coordinator ends the run. -/
  | conclude (rank : Nat)
  deriving DecidableEq, Repr

/-- A position and the rank that took it out of its slice to check the candidate there. -/
structure Check where
  /-- The rank. -/
  rank : Nat
  /-- The position. -/
  position : Nat
  deriving DecidableEq, Repr

/-- The position that the worker is about to check, the next one of its slice while it is
`.working`. -/
def Member.nextPosition? (m : Member) : Option Nat :=
  match m.phase with
  | .working => m.slice.next?.map (·.1)
  | _ => none

namespace Group

/-- Take the step `move`, if it can be taken. -/
def move? (g : Group) : Move → Option Group
  | .work rank => g.work? rank
  | .attend rank => g.attend? rank
  | .receive rank sender => g.receiveFrom? rank sender
  | .conclude rank => g.conclude? rank

/-- The check that a step makes: one if a worker goes on that has a `nextPosition?`, and otherwise
none. -/
def checks (g : Group) : Move → List Check
  | .work rank =>
    (((g.running? rank).bind Member.nextPosition?).map fun position => ⟨rank, position⟩).toList
  | _ => []

end Group

/-- A group and the checks that were made so far. -/
structure Course where
  /-- The checks, first ones first. -/
  checks : List Check
  /-- The group. -/
  group : Group

namespace Course

/-- The course of a group (`Group.start`) that has taken no step. -/
def start (jobs : List Job) (sharing : Sharing) : Course := ⟨[], .start jobs sharing⟩

/-- Take a step (`Group.move?`), if it can be taken, and note its `checks`. -/
def move? (c : Course) (move : Move) : Option Course :=
  (c.group.move? move).map fun g => ⟨c.checks ++ c.group.checks move, g⟩

/-- Take steps in turn (`move?`), if they all can be taken. -/
def follow? (c : Course) (moves : List Move) : Option Course :=
  moves.foldlM move? c

/-- What every step keeps holds at the end of a course: the run lemma for all invariants of
`Course`. -/
theorem follow?_induction {P : Course → Prop}
    (hmove : ∀ c move d, P c → c.move? move = some d → P d) {c d : Course} {moves : List Move}
    (hc : P c) (h : c.follow? moves = some d) : P d := by
  induction moves generalizing c with
  | nil =>
    obtain rfl := Option.some.inj h
    exact hc
  | cons move moves ih =>
    obtain ⟨next, hnext, hrest⟩ := Option.bind_eq_some_iff.mp h
    exact ih (hmove c move next hc hnext) hrest

end Course

/-! ## Seats -/

namespace Group

variable {g : Group} {rank q : Nat} {m : Member}

instance : Inhabited Member := ⟨.start ⟨0, .empty, []⟩ .standard 0 0⟩

/-- The state of a rank; any state (`default`) if there is no such rank. -/
def member (g : Group) (rank : Nat) : Member :=
  (g.seats[rank]?.map (·.member)).getD default

/-- How the run of a rank ended, if it did. -/
def ending? (g : Group) (rank : Nat) : Option Ending :=
  g.seats[rank]?.bind (·.ending)

/-- A rank that still runs (`running?`) is a rank of the group, and its run has not ended. -/
theorem running?_eq_some (h : g.running? rank = some m) :
    rank < g.seats.size ∧ g.member rank = m ∧ g.ending? rank = none := by
  unfold running? at h
  split at h
  · next heq =>
    obtain rfl := Option.some.inj h
    refine ⟨(Array.getElem?_eq_some_iff.mp heq).1, ?_, ?_⟩
    · simp [member, heq]
    · simp [ending?, heq]
  · cases h

/-- The group `g` without the first message of `sender` in the box of `rank`. -/
def without (g : Group) (rank sender : Nat) : Group :=
  ⟨g.seats, g.mail.dropFrom rank sender⟩

/-! ## What a step leads to

Each of `work?`, `attend?`, `receiveFrom?` and `conclude?` is a reaction of a rank that still runs.
-/

variable {g' : Group} {sender : Nat}

/-- A step of the worker (`Member.work?`) sends no letters: the reaction is `n.goesOn []`. -/
theorem work?_eq_some (h : g.work? rank = some g') :
    ∃ m n, g.running? rank = some m ∧ m.work? = some n ∧ g' = g.react rank (n.goesOn []) := by
  unfold work? at h
  split at h
  · next n hn =>
    obtain ⟨m, hm, hwork⟩ := Option.bind_eq_some_iff.mp hn
    exact ⟨m, n, hm, hwork, (Option.some.inj h).symm⟩
  · cases h

/-- The first event leaves the queue before `Member.attend` handles it. -/
theorem attend?_eq_some (h : g.attend? rank = some g') :
    ∃ m event events, g.running? rank = some m ∧ m.events = event :: events ∧
      g' = g.react rank ({ m with events }.attend event) := by
  unfold attend? at h
  split at h
  · cases h
  · next m hm =>
    split at h
    · cases h
    · next event events hevents =>
      exact ⟨m, event, events, hm, hevents, (Option.some.inj h).symm⟩

/-- A message leaves its box (`without`) before `Member.receive` handles it. -/
theorem receiveFrom?_eq_some (h : g.receiveFrom? rank sender = some g') :
    ∃ m received, g.running? rank = some m ∧ g.mail.firstFrom? rank sender = some received ∧
      g' = (g.without rank sender).react rank (m.receive sender received.message) := by
  unfold receiveFrom? at h
  split at h
  · next m received hm hfirst =>
    obtain rfl : received.sender = sender := (Mailboxes.firstFrom?_eq_some hfirst).1
    exact ⟨m, received, hm, hfirst, (Option.some.inj h).symm⟩
  · cases h

/-- The coordinator reacts as `Member.conclude?` says. -/
theorem conclude?_eq_some (h : g.conclude? rank = some g') :
    ∃ m r, g.running? rank = some m ∧ m.conclude? = some r ∧ g' = g.react rank r := by
  unfold conclude? at h
  split at h
  · next r hr =>
    obtain ⟨m, hm, hconclude⟩ := Option.bind_eq_some_iff.mp hr
    exact ⟨m, r, hm, hconclude, (Option.some.inj h).symm⟩
  · cases h

/-! ## Reactions -/

/-- What the reaction `r` of a rank changes, once all its letters are carried: the state of its
rank, how its run ended, and the letters on their way. -/
structure Reacted (g : Group) (rank : Nat) (r : Reaction) (g' : Group) : Prop where
  seats_size : g'.seats.size = g.seats.size
  mail_size : g'.mail.size = g.mail.size
  member : ∀ q, g'.member q = if rank = q then r.member else g.member q
  ending : ∀ q, g'.ending? q = if rank = q then r.verdict.ending? none else g.ending? q
  inFlight : g'.mail.inFlight =
    g.mail.inFlight + Multiset.ofList (r.letters.map (·.parcel rank))
  line : ∀ a b, g'.mail.line a b = g.mail.line a b ++
    if rank = a then (r.letters.filter (·.recipient = b)).map (·.message) else []

/-- If the letters of a reaction go to ranks of the group, `Group.react` carries them all, and the
group has `Reacted`. -/
theorem reacted {r : Reaction} (hrank : rank < g.seats.size)
    (hletters : ∀ letter ∈ r.letters, letter.recipient < g.mail.size) :
    g.Reacted rank r (g.react rank r) := by
  obtain ⟨hnone, hsize, hbag, hline⟩ := Mailboxes.sendAll_carried hletters rank
  have hseat : ∀ q, (g.react rank r).seats[q]? =
      if rank = q then some ⟨r.member, r.verdict.ending? none⟩ else g.seats[q]? := by
    intro q
    simp only [react, hnone, Array.getElem?_setIfInBounds]
    by_cases hq : rank = q
    · subst hq
      simp [hrank]
    · simp [hq]
  refine ⟨Array.size_setIfInBounds, hsize, fun q => ?_, fun q => ?_, hbag, hline⟩
  · simp only [Group.member, hseat]
    split <;> rfl
  · simp only [ending?, hseat]
    split <;> rfl

/-! ## The start -/

variable {jobs : List Job} {sharing : Sharing}

/-- Every job has its seat. -/
@[simp]
theorem size_seats_start : (start jobs sharing).seats.size = jobs.length := by
  simp [start]

/-- Every rank starts with its own job and its share of the positions (`Member.start`), and its run
has not ended. -/
theorem start_seat {job : Job} (h : jobs[rank]? = some job) :
    (start jobs sharing).seats[rank]? =
      some ⟨.start job sharing jobs.length rank, none⟩ := by
  simp [start, h]

/-- No run has ended at the start: `ending?` is `none` for every rank. -/
theorem ending?_start : (start jobs sharing).ending? rank = none := by
  cases h : jobs[rank]? with
  | none => simp [ending?, start, h]
  | some job => simp [ending?, start_seat h]

/-- The `greeting` of a rank other than the coordinator is one letter, and tells the coordinator
what the rank loaded. The coordinator has none. -/
theorem greeting_recipient {letter : Letter} (h : letter ∈ m.greeting) :
    m.rank ≠ 0 ∧ letter = ⟨0, .handshake m.job.size m.job.length⟩ := by
  unfold Member.greeting at h
  split at h
  · cases h
  · next hrank =>
    refine ⟨fun heq => hrank ?_, List.mem_singleton.mp h⟩
    exact decide_eq_true heq

/-- After the greetings of some `members`, nothing but greetings is on its way beyond what was
before. The induction is on the members, with any mailboxes. -/
theorem mem_inFlight_greetings (members : List Member) {mail : Mailboxes} (hmail : 0 < mail.size) :
    (members.foldl (fun mail m => (mail.sendAll m.rank m.greeting).2) mail).size = mail.size ∧
    ∀ p ∈ (members.foldl (fun mail m => (mail.sendAll m.rank m.greeting).2) mail).inFlight,
      p ∈ mail.inFlight ∨ ∃ m ∈ members, m.rank ≠ 0 ∧
        p = ⟨m.rank, 0, .handshake m.job.size m.job.length⟩ := by
  induction members generalizing mail with
  | nil => exact ⟨rfl, fun p hp => .inl hp⟩
  | cons m members ih =>
    have hgreeting : ∀ letter ∈ m.greeting, letter.recipient < mail.size := by
      intro letter hletter
      rw [(greeting_recipient hletter).2]
      exact hmail
    obtain ⟨-, hsize, hbag, -⟩ := Mailboxes.sendAll_carried hgreeting m.rank
    obtain ⟨hsize', hmem⟩ := ih (hsize ▸ hmail)
    refine ⟨hsize'.trans hsize, fun p hp => ?_⟩
    rcases hmem p hp with hp | ⟨n, hn, hp⟩
    · rw [hbag, Multiset.mem_add, Multiset.mem_coe, List.mem_map] at hp
      rcases hp with hp | ⟨letter, hletter, rfl⟩
      · exact .inl hp
      · obtain ⟨hrank, rfl⟩ := greeting_recipient hletter
        exact .inr ⟨m, List.mem_cons_self, hrank, rfl⟩
    · exact .inr ⟨n, List.mem_cons_of_mem m hn, hp⟩

/-- At the start, every letter tells the coordinator what another rank loaded (`.handshake`). -/
theorem mem_inFlight_start (jobs : List Job) (sharing : Sharing) (hjobs : 0 < jobs.length) :
    (start jobs sharing).mail.size = jobs.length ∧
    ∀ p ∈ (start jobs sharing).mail.inFlight, ∃ job, jobs[p.sender]? = some job ∧
      p.sender ≠ 0 ∧ p.recipient = 0 ∧ p.message = .handshake job.size job.length := by
  have hsize : (Mailboxes.ofSize jobs.length).size = jobs.length := Array.size_replicate
  obtain ⟨hmail, hmem⟩ := mem_inFlight_greetings
    (jobs.zipIdx.map fun p => Member.start p.1 sharing jobs.length p.2) (hsize.symm ▸ hjobs)
  refine ⟨hmail.trans hsize, fun p hp => ?_⟩
  rcases hmem p hp with hp | ⟨m, hm, hrank, rfl⟩
  · rw [Mailboxes.inFlight_ofSize] at hp
    cases hp
  · obtain ⟨⟨job, r⟩, hjob, rfl⟩ := List.mem_map.mp hm
    exact ⟨job, List.mem_zipIdx_iff_getElem?.mp hjob, hrank, rfl, rfl⟩

end Group

end Detachment.Cluster
