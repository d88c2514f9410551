import Detachment.Proofs.Courses
import Detachment.Proofs.ShuffledOrder
import Detachment.Proofs.SlicePositions

/-! # Desks

What concerns one rank of a group: its state, the letters of its search for more positions, and what
it has reported and the coordinator has not read yet. Every step of a group changes one desk, or two
if a rank answers another one.

* `Desk.Sound` says how the three parts fit together; `Search` follows a search from the moment the
  worker runs out of positions, and `Backlog` the reports up to the last one.
* `Desk.holding` counts how often a desk accounts for a position: in the slice, or granted by
  another rank and not taken over yet.
* `Desk.Proceeds` is what the steps that tell the coordinator nothing leave as it is. -/

namespace Detachment.Cluster

/-! ## Messages -/

/-- The rank in whose search for positions a message is sent: the one that asks, be it the sender of
a request or the recipient of an answer. -/
def Parcel.asker? (p : Parcel) : Option Nat :=
  match p.message with
  | .offerRequest => some p.sender
  | .offer _ => some p.recipient
  | .claim _ => some p.sender
  | .claimAnswer _ => some p.recipient
  | _ => none

/-- The messages that are sent in a group whose ranks all have the job `job`. Reports go to the
coordinator, only the coordinator ends runs, and nobody gives up (`.abort`). -/
def Parcel.Lawful (job : Job) (size : Nat) (p : Parcel) : Prop :=
  (p.sender < size ∧ p.recipient < size ∧ p.sender ≠ p.recipient) ∧
  match p.message with
  | .handshake candidates length =>
    p.recipient = Member.coordinator ∧ candidates = job.size ∧ length = job.length
  | .abort _ => False
  | .redundant _ => p.recipient = Member.coordinator
  | .finished => p.recipient = Member.coordinator
  | .terminate => p.recipient ≠ Member.coordinator
  | _ => True

/-- The event that a message passes on to the coordinator, if it is a report. -/
def Message.report? : Message → Option Event
  | .redundant i => some (.redundant i)
  | .finished => some .stopped
  | _ => none

/-- Messages of a search (`asker?`) report nothing. -/
theorem Parcel.report?_of_asker? {p : Parcel} {rank : Nat} (h : p.asker? = some rank) :
    p.message.report? = none := by
  unfold asker? at h
  cases hmessage : p.message <;> simp_all [Message.report?]

/-- Reports (`report?`) belong to no search. -/
theorem Parcel.asker?_of_report? {p : Parcel} {event : Event} (h : p.message.report? = some event) :
    p.asker? = none := by
  refine Option.eq_none_iff_forall_ne_some.mpr fun rank hasker => ?_
  rw [report?_of_asker? hasker] at h
  cases h

/-! ## Findings -/

/-- The redundant indices at a position, in the order in which `Order.ofCount` goes through them:
one or none. -/
def Job.findings (job : Job) (position : Nat) : List Nat :=
  ((Order.ofCount job.size).index? position).toList.filter job.isRedundant

/-- Once every position was checked, the `findings` are the redundant indices: `Order.ofCount`
reaches each index from some position. -/
theorem Job.mem_findings_iff {job : Job} {checks : List Check}
    (hall : ∀ position < job.size, ∃ check ∈ checks, check.position = position) (i : Nat) :
    i ∈ checks.flatMap (job.findings ·.position) ↔ i < job.size ∧ job.isRedundant i = true := by
  simp only [List.mem_flatMap, findings, List.mem_filter, Option.mem_toList]
  constructor
  · rintro ⟨check, -, hindex, hredundant⟩
    exact ⟨Order.lt_of_index? hindex, hredundant⟩
  · rintro ⟨hi, hredundant⟩
    obtain ⟨position, hposition, hindex⟩ := Order.exists_index? hi
    obtain ⟨check, hcheck, rfl⟩ := hall position hposition
    exact ⟨check, hcheck, hindex, hredundant⟩

/-- Checking a position leaves an event `.redundant` for what is found there (`Job.findings`). -/
theorem Member.check_eq {m : Member} {job : Job} (hjob : m.job = job)
    (horder : m.order = .ofCount job.size) (position : Nat) :
    m.check position =
      { m with events := m.events ++ (job.findings position).map .redundant } := by
  subst hjob
  unfold check Job.findings
  rw [← horder]
  cases m.order.index? position with
  | none => simp
  | some i => by_cases hi : m.job.isRedundant i <;> simp [hi]

/-- What a step of the worker can be: it checks a position, runs out of positions, stops, or looks
again. -/
theorem Member.work?_eq_some {m n : Member} (h : m.work? = some n) :
    (m.phase = .working ∧ ∃ position slice, m.slice.next? = some (position, slice) ∧
      n = check { m with slice } position) ∨
    (m.phase = .working ∧ m.slice.next? = none ∧
      n = { m with phase := .waiting, events := m.events ++ [.idle] }) ∨
    (m.phase = .woken ∧ m.exhausted = true ∧
      n = { m with phase := .stopped, events := m.events ++ [.stopped] }) ∨
    (m.phase = .woken ∧ m.exhausted = false ∧ n = { m with phase := .working }) := by
  unfold work? at h
  split at h
  · next hphase =>
    split at h
    · next position slice hnext =>
      exact .inl ⟨hphase, position, slice, hnext, (Option.some.inj h).symm⟩
    · next hnext => exact .inr (.inl ⟨hphase, hnext, (Option.some.inj h).symm⟩)
  · next hphase =>
    split at h
    · next hexhausted =>
      exact .inr (.inr (.inl ⟨hphase, hexhausted, (Option.some.inj h).symm⟩))
    · next hexhausted =>
      exact .inr (.inr (.inr ⟨hphase, Bool.eq_false_iff.mpr hexhausted,
        (Option.some.inj h).symm⟩))
  · cases h
  · cases h

/-! ## Searches and backlogs -/

/-- How far the search of a rank is, and the letters `q` that belong to it. The constructors are the
states of the search, from the moment the worker runs out of positions to the answer of the
owner. -/
inductive Search (m : Member) (q : Multiset Parcel) : Prop where
  /-- There is no search. -/
  | resting (hphase : m.phase ≠ .waiting) (hidle : m.events.count .idle = 0) (hq : q = 0)
  /-- The worker waits, and the communicator has not noticed. -/
  | unnoticed (hphase : m.phase = .waiting) (hidle : m.events.count .idle = 1) (hq : q = 0)
  /-- Each rank that did not answer yet has a request or has sent an offer. -/
  | asking (hphase : m.phase = .waiting) (hidle : m.events.count .idle = 0)
      (hq : ∀ p ∈ q, p.message = .offerRequest ∨ ∃ span, p.message = .offer span)
      (hpending : q.card = m.pending) (hpos : 0 < m.pending)
  /-- The best offer is asked for. -/
  | claiming (offer : Offer) (hphase : m.phase = .waiting) (hidle : m.events.count .idle = 0)
      (hbest : m.best = some offer) (hq : q = {⟨m.rank, offer.owner, .claim offer.span⟩})
  /-- The owner of the best offer has answered. -/
  | answered (offer : Offer) (granted : Bool) (hphase : m.phase = .waiting)
      (hidle : m.events.count .idle = 0) (hbest : m.best = some offer)
      (hq : q = {⟨offer.owner, m.rank, .claimAnswer granted⟩})

/-- A `Search` depends on what the worker is doing (`phase`, `.idle` among the events) and on what
the communicator noted (`pending`, `best`). -/
theorem Search.congr {m n : Member} {q : Multiset Parcel} (h : Search m q)
    (hphase : n.phase = m.phase) (hidle : n.events.count .idle = m.events.count .idle)
    (hpending : n.pending = m.pending) (hbest : n.best = m.best) (hrank : n.rank = m.rank) :
    Search n q := by
  cases h with
  | resting h₁ h₂ h₃ => exact .resting (hphase ▸ h₁) (hidle.trans h₂) h₃
  | unnoticed h₁ h₂ h₃ => exact .unnoticed (hphase.trans h₁) (hidle.trans h₂) h₃
  | asking h₁ h₂ h₃ h₄ h₅ =>
    exact .asking (hphase.trans h₁) (hidle.trans h₂) h₃ (h₄.trans hpending.symm) (hpending ▸ h₅)
  | claiming offer h₁ h₂ h₃ h₄ =>
    exact .claiming offer (hphase.trans h₁) (hidle.trans h₂) (hbest.trans h₃) (hrank ▸ h₄)
  | answered offer granted h₁ h₂ h₃ h₄ =>
    exact .answered offer granted (hphase.trans h₁) (hidle.trans h₂) (hbest.trans h₃) (hrank ▸ h₄)

/-- As long as requests or offers are on their way, the search is `.asking` and `pending` counts
them. -/
theorem Search.of_offer {m : Member} {q : Multiset Parcel} {p : Parcel} (h : Search m (q + {p}))
    (hmessage : p.message = .offerRequest ∨ ∃ span, p.message = .offer span) :
    m.phase = .waiting ∧ m.events.count .idle = 0 ∧
    (∀ p ∈ q, p.message = .offerRequest ∨ ∃ span, p.message = .offer span) ∧
    q.card + 1 = m.pending := by
  have hp : p ∈ q + {p} := Multiset.mem_add.mpr (.inr (Multiset.mem_singleton_self p))
  -- In the other states, the letters of the search are none or of another kind.
  cases h with
  | resting _ _ hq => simp [hq] at hp
  | unnoticed _ _ hq => simp [hq] at hp
  | asking hphase hidle hq hpending _ =>
    refine ⟨hphase, hidle, fun p hp => hq p (Multiset.mem_add.mpr (.inl hp)), ?_⟩
    simpa using hpending
  | claiming _ _ _ _ hq =>
    obtain rfl := Multiset.mem_singleton.mp (hq ▸ hp)
    simp at hmessage
  | answered _ _ _ _ _ hq =>
    obtain rfl := Multiset.mem_singleton.mp (hq ▸ hp)
    simp at hmessage

/-- A span that is asked for (`.claim`) is the best offer, and there is no other letter of the
search. -/
theorem Search.of_claim {m : Member} {q : Multiset Parcel} {sender owner : Nat} {span : Span}
    (h : Search m (q + {⟨sender, owner, .claim span⟩})) :
    m.phase = .waiting ∧ m.events.count .idle = 0 ∧ m.best = some ⟨owner, span⟩ ∧ q = 0 := by
  generalize he : q + {⟨sender, owner, .claim span⟩} = e at h
  have hp : ⟨sender, owner, .claim span⟩ ∈ e := by simp [← he]
  cases h with
  | resting _ _ hq => simp [hq] at hp
  | unnoticed _ _ hq => simp [hq] at hp
  | asking _ _ hq _ _ => simpa using hq _ hp
  | claiming offer hphase hidle hbest hq =>
    have hcard : q.card + 1 = 1 := by simpa [hq] using congrArg Multiset.card he
    simp only [hq, Multiset.mem_singleton, Parcel.mk.injEq, Message.claim.injEq] at hp
    obtain ⟨-, rfl, rfl⟩ := hp
    exact ⟨hphase, hidle, hbest, Multiset.card_eq_zero.mp (Nat.succ.inj hcard)⟩
  | answered _ _ _ _ _ hq => simp [hq] at hp

/-- A span that was asked for and answered (`.claimAnswer`) is the best offer, and there is no other
letter of the search. -/
theorem Search.of_claimAnswer {m : Member} {q : Multiset Parcel} {owner rank : Nat}
    {granted : Bool} (h : Search m (q + {⟨owner, rank, .claimAnswer granted⟩})) :
    m.phase = .waiting ∧ m.events.count .idle = 0 ∧ (∃ span, m.best = some ⟨owner, span⟩) ∧
    q = 0 := by
  generalize he : q + {⟨owner, rank, .claimAnswer granted⟩} = e at h
  have hp : ⟨owner, rank, .claimAnswer granted⟩ ∈ e := by simp [← he]
  cases h with
  | resting _ _ hq => simp [hq] at hp
  | unnoticed _ _ hq => simp [hq] at hp
  | asking _ _ hq _ _ => simpa using hq _ hp
  | claiming _ _ _ _ hq => simp [hq] at hp
  | answered offer granted hphase hidle hbest hq =>
    have hcard : q.card + 1 = 1 := by simpa [hq] using congrArg Multiset.card he
    simp only [hq, Multiset.mem_singleton, Parcel.mk.injEq] at hp
    obtain ⟨rfl, -, -⟩ := hp
    exact ⟨hphase, hidle, ⟨offer.span, hbest⟩, Multiset.card_eq_zero.mp (Nat.succ.inj hcard)⟩

/-- What a rank has still to tell the coordinator: redundant indices, and at the end that it
`.stopped`. -/
inductive Backlog (phase : Phase) (b : List Event) : Prop where
  /-- The worker has not stopped. -/
  | running (found : List Nat) (hphase : phase ≠ .stopped) (hb : b = found.map .redundant)
  /-- The worker has stopped, and the coordinator does not know. -/
  | closing (found : List Nat) (hphase : phase = .stopped)
      (hb : b = found.map .redundant ++ [.stopped])
  /-- The coordinator knows that the worker has stopped. -/
  | closed (hphase : phase = .stopped) (hb : b = [])

namespace Backlog

variable {phase : Phase} {b : List Event}

/-- The backlog gets shorter from the front; the news that the worker has stopped is the last, so
nothing is left exactly after it. -/
theorem tail {event : Event} (h : Backlog phase (event :: b)) :
    Backlog phase b ∧ (phase = .stopped ∧ b = [] ↔ event = .stopped) := by
  cases h with
  | running found hphase hb =>
    cases found with
    | nil => cases hb
    | cons i found =>
      obtain ⟨rfl, rfl⟩ := List.cons.inj hb
      exact ⟨.running found hphase rfl, by simp [hphase]⟩
  | closing found hphase hb =>
    cases found with
    | nil =>
      obtain ⟨rfl, rfl⟩ := List.cons.inj hb
      exact ⟨.closed hphase rfl, by simp [hphase]⟩
    | cons i found =>
      obtain ⟨rfl, rfl⟩ := List.cons.inj hb
      exact ⟨.closing found hphase rfl, by simp⟩
  | closed hphase hb => cases hb

end Backlog

/-! ## Desks -/

/-- What concerns a rank: its state, the letters of its search, and its reports on their way. -/
structure Desk where
  /-- The state of the rank. -/
  member : Member
  /-- The letters of its search. -/
  errand : Multiset Parcel
  /-- What it reported and the coordinator has not read, first things first. -/
  reports : List Event

namespace Desk

variable {d e : Desk} {job : Job} {size rank sender : Nat} {q : Multiset Parcel} {found : List Nat}

/-- What the coordinator has still to learn from a rank, in this order: its `reports`, and its
events other than `.idle`. -/
def backlog (d : Desk) : List Event :=
  d.reports ++ d.member.events.filter (· ≠ .idle)

/-- Whether the worker has stopped and the coordinator has learned everything, an empty
`backlog`. -/
def isClosed (d : Desk) : Bool :=
  d.member.phase = .stopped && d.backlog.isEmpty

/-- How often the rank holds a position that was granted to it and not taken over yet: once for each
`.claimAnswer true` on its way, if the position is in the span of the `best` offer. -/
def granted (d : Desk) (position : Nat) : Nat :=
  d.member.best.elim 0 fun offer =>
    d.errand.count ⟨offer.owner, d.member.rank, .claimAnswer true⟩ * offer.span.copies position

/-- How often the rank holds a position: in its slice, or `granted`. -/
def holding (d : Desk) (position : Nat) : Nat :=
  d.member.slice.copies position + d.granted position

/-- How the parts of a desk fit together. -/
structure Sound (job : Job) (size rank : Nat) (d : Desk) : Prop where
  -- Whose desk it is, and what the rank has loaded.
  rank_lt : rank < size
  rank_eq : d.member.rank = rank
  size_eq : d.member.size = size
  job_eq : d.member.job = job
  order_eq : d.member.order = .ofCount job.size
  -- Nothing is left of the slice while the worker waits, or when it stops.
  tidy : d.member.slice.Tidy
  usedUp : d.member.phase = .waiting ∨ d.member.exhausted = true → d.member.slice.isUsedUp = true
  exhausted : d.member.exhausted = true → d.member.phase = .woken ∨ d.member.phase = .stopped
  stopped : d.member.phase = .stopped → d.member.exhausted = true
  -- The letters of the search and the reports, up to where they have come.
  best : ∀ offer, d.member.best = some offer → offer.owner < size ∧ offer.owner ≠ rank
  search : Search d.member d.errand
  backlog : Backlog d.member.phase d.backlog
  coordinator : rank = Member.coordinator → d.reports = []

/-- A desk goes on: it finds the redundant indices `found`, and the coordinator learns nothing from
it. -/
structure Proceeds (job : Job) (size rank : Nat) (found : List Nat) (d e : Desk) : Prop where
  sound : e.Sound job size rank
  announced : ∀ i, Event.redundant i ∈ e.backlog ↔ Event.redundant i ∈ d.backlog ∨ i ∈ found
  isClosed : e.isClosed = d.isClosed
  books : rank = Member.coordinator → e.member.redundant = d.member.redundant ∧
    e.member.workerDone = d.member.workerDone ∧ e.member.finishedPeers = d.member.finishedPeers

/-- A desk may stay as it is, finding nothing. -/
theorem Sound.proceeds (h : d.Sound job size rank) : d.Proceeds job size rank [] d :=
  ⟨h, by simp, rfl, fun _ => ⟨rfl, rfl, rfl⟩⟩

/-- A desk `Proceeds` if its backlog stays the same and the worker does not stop. -/
theorem Sound.proceeds_of_backlog (h : e.Sound job size rank) (hbacklog : e.backlog = d.backlog)
    (hphase : e.member.phase = .stopped ↔ d.member.phase = .stopped)
    (hbooks : rank = Member.coordinator → e.member.redundant = d.member.redundant ∧
      e.member.workerDone = d.member.workerDone ∧
      e.member.finishedPeers = d.member.finishedPeers) :
    d.Proceeds job size rank [] e := by
  refine ⟨h, by simp [hbacklog], ?_, hbooks⟩
  simp only [Desk.isClosed, hbacklog, hphase]

/-- A desk is not closed before its worker has stopped. -/
theorem isClosed_of_phase (h : d.member.phase ≠ .stopped) : d.isClosed = false := by
  simp [isClosed, h]

/-- A desk is not closed before the coordinator has learned everything. -/
theorem isClosed_of_backlog (h : d.backlog ≠ []) : d.isClosed = false := by
  simp [isClosed, h]

/-- A search without a letter `.claimAnswer true` holds nothing: `granted` is zero. -/
theorem granted_eq_zero (h : ∀ p ∈ d.errand, p.message ≠ .claimAnswer true) (position : Nat) :
    d.granted position = 0 := by
  unfold granted
  cases d.member.best with
  | none => rfl
  | some offer =>
    have hcount : d.errand.count ⟨offer.owner, d.member.rank, .claimAnswer true⟩ = 0 :=
      Multiset.count_eq_zero.mpr fun hmem => h _ hmem rfl
    simp [hcount]

/-- Without a search (the worker does not wait) there are no letters, and the communicator has
nothing to notice. -/
theorem Sound.resting_of_phase (h : d.Sound job size rank) (hphase : d.member.phase ≠ .waiting) :
    d.member.events.count .idle = 0 ∧ d.errand = 0 := by
  cases h.search with
  | resting _ hidle hq => exact ⟨hidle, hq⟩
  | unnoticed hwaiting _ _ => exact absurd hwaiting hphase
  | asking hwaiting _ _ _ _ => exact absurd hwaiting hphase
  | claiming _ hwaiting _ _ _ => exact absurd hwaiting hphase
  | answered _ _ hwaiting _ _ _ => exact absurd hwaiting hphase

/-- A worker that goes through positions or waits for more was not told that none will come
(`exhausted`). -/
theorem Sound.exhausted_of_phase (h : d.Sound job size rank)
    (hphase : d.member.phase = .working ∨ d.member.phase = .waiting) :
    d.member.exhausted ≠ true := by
  intro hexhausted
  rcases h.exhausted hexhausted with hwoken | hstopped <;> rcases hphase with hphase | hphase <;>
    simp_all

/-- As long as the worker has not stopped, the backlog holds indices only (`.redundant`). -/
theorem Sound.backlog_of_phase (h : d.Sound job size rank) (hphase : d.member.phase ≠ .stopped) :
    ∃ found : List Nat, d.backlog = found.map .redundant := by
  cases h.backlog with
  | running found _ hb => exact ⟨found, hb⟩
  | closing _ hstopped _ => exact absurd hstopped hphase
  | closed hstopped _ => exact absurd hstopped hphase

/-- A closed desk holds nothing: its slice is used up, and there is no search. -/
theorem Sound.holding_of_isClosed (h : d.Sound job size rank) (hclosed : d.isClosed = true)
    (position : Nat) : d.holding position = 0 := by
  simp only [Desk.isClosed, Bool.and_eq_true, decide_eq_true_eq] at hclosed
  have hwaiting : d.member.phase ≠ .waiting := by simp [hclosed.1]
  have hgranted : d.granted position = 0 :=
    granted_eq_zero (by simp [(h.resting_of_phase hwaiting).2]) position
  rw [holding, hgranted, Slice.copies_of_isUsedUp (h.usedUp (.inr (h.stopped hclosed.1)))]

/-! ## The worker -/

/-- The worker checks the first position of its slice: the desk announces the `findings` there, and
holds this position one time less. -/
theorem Sound.check (h : d.Sound job size rank) (hphase : d.member.phase = .working)
    {first : Nat} {slice : Slice} (hnext : d.member.slice.next? = some (first, slice)) :
    d.Proceeds job size rank (job.findings first)
      ⟨Member.check { d.member with slice } first, d.errand, d.reports⟩ ∧
    ∀ position, d.holding position =
      (Desk.mk (Member.check { d.member with slice } first) d.errand d.reports).holding position +
        if position = first then 1 else 0 := by
  obtain ⟨htidy, hcopies⟩ := Slice.copies_next? h.tidy hnext
  have hwaiting : d.member.phase ≠ .waiting := by simp [hphase]
  have hstopped : d.member.phase ≠ .stopped := by simp [hphase]
  have hexhausted := h.exhausted_of_phase (.inl hphase)
  obtain ⟨hidle, herrand⟩ := h.resting_of_phase hwaiting
  obtain ⟨old, hold⟩ := h.backlog_of_phase hstopped
  rw [@Member.check_eq { d.member with slice } job h.job_eq h.order_eq]
  -- From here on it does not matter what was found, only that it goes to the end of the backlog.
  generalize job.findings first = found
  have hbacklog : (Desk.mk { d.member with
      slice, events := d.member.events ++ found.map .redundant } d.errand d.reports).backlog =
      (old ++ found).map .redundant := by
    rw [List.map_append, ← hold]
    simp [Desk.backlog]
  refine ⟨⟨{ h with tidy := htidy, usedUp := ?_, search := ?_, backlog := ?_ }, ?_, ?_, ?_⟩, ?_⟩
  · rintro (hw | he)
    · exact absurd hw hwaiting
    · exact absurd he hexhausted
  · refine .resting hwaiting ?_ herrand
    simp [hidle, List.count_eq_zero]
  · exact .running _ hstopped hbacklog
  · intro i
    simp [hbacklog, hold]
  · rw [isClosed_of_phase hstopped]
    exact isClosed_of_phase hstopped
  · exact fun _ => ⟨rfl, rfl, rfl⟩
  · intro position
    have hposition := hcopies position
    simp only [holding, granted] at hposition ⊢
    omega

/-- The worker runs out of positions and waits, so the search is `.unnoticed`. Its backlog stays as
it was, as an idle event is no report. -/
theorem Sound.idle (h : d.Sound job size rank) (hphase : d.member.phase = .working)
    (hnext : d.member.slice.next? = none) :
    d.Proceeds job size rank []
      ⟨{ d.member with phase := .waiting, events := d.member.events ++ [.idle] },
        d.errand, d.reports⟩ := by
  have hexhausted := h.exhausted_of_phase (.inl hphase)
  obtain ⟨hidle, herrand⟩ := h.resting_of_phase (by simp [hphase])
  obtain ⟨old, hold⟩ := h.backlog_of_phase (by simp [hphase])
  have hbacklog : (Desk.mk { d.member with
      phase := .waiting, events := d.member.events ++ [.idle] } d.errand d.reports).backlog =
      d.backlog := by
    simp [Desk.backlog]
  refine Sound.proceeds_of_backlog { h with
    usedUp := fun _ => Slice.isUsedUp_of_next? hnext, exhausted := ?_, stopped := ?_, search := ?_,
    backlog := ?_ } hbacklog ?_ fun _ => ⟨rfl, rfl, rfl⟩
  · exact fun he => absurd he hexhausted
  · simp
  · exact .unnoticed rfl (by simp [hidle]) herrand
  · exact .running old (by simp) (hbacklog.trans hold)
  · simp [hphase]

/-- The worker, which was told that no positions will come, stops; this is the last of its
`Backlog`. -/
theorem Sound.stop (h : d.Sound job size rank) (hphase : d.member.phase = .woken)
    (hexhausted : d.member.exhausted = true) :
    d.Proceeds job size rank []
      ⟨{ d.member with phase := .stopped, events := d.member.events ++ [.stopped] },
        d.errand, d.reports⟩ := by
  obtain ⟨hidle, herrand⟩ := h.resting_of_phase (by simp [hphase])
  have hstopped : d.member.phase ≠ .stopped := by simp [hphase]
  obtain ⟨old, hold⟩ := h.backlog_of_phase hstopped
  have hbacklog : (Desk.mk { d.member with
      phase := .stopped, events := d.member.events ++ [.stopped] } d.errand d.reports).backlog =
      d.backlog ++ [.stopped] := by
    simp [Desk.backlog]
  -- The desk is not closed yet: the news that the worker stopped is still in its backlog.
  refine ⟨{ h with
    usedUp := fun _ => h.usedUp (.inr hexhausted), exhausted := fun _ => .inr rfl,
    stopped := fun _ => hexhausted, search := ?_, backlog := ?_ }, ?_, ?_, fun _ => ⟨rfl, rfl, rfl⟩⟩
  · exact .resting (by simp) (by simp [hidle]) herrand
  · exact .closing old rfl (by rw [hbacklog, hold])
  · simp [hbacklog]
  · rw [isClosed_of_phase hstopped]
    exact isClosed_of_backlog (by simp [hbacklog])

/-- The worker looks again for positions, as it was woken up after a grant. Nobody was asked
meanwhile, so its search is `.resting`. -/
theorem Sound.resume (h : d.Sound job size rank) (hphase : d.member.phase = .woken)
    (hexhausted : d.member.exhausted = false) :
    d.Proceeds job size rank []
      ⟨{ d.member with phase := .working }, d.errand, d.reports⟩ := by
  obtain ⟨hidle, herrand⟩ := h.resting_of_phase (by simp [hphase])
  obtain ⟨old, hold⟩ := h.backlog_of_phase (by simp [hphase])
  refine Sound.proceeds_of_backlog { h with
    usedUp := ?_, exhausted := ?_, stopped := by simp, search := ?_, backlog := ?_ } rfl ?_
    fun _ => ⟨rfl, rfl, rfl⟩
  · simp [hexhausted]
  · simp [hexhausted]
  · exact .resting (by simp) hidle herrand
  · exact .running old (by simp) hold
  · simp [hphase]

/-- A step of the worker (`Member.work?`) takes the position that it checks (`nextPosition?`) out of
the slice, and announces what it finds there (`Job.findings`). -/
theorem Sound.work (h : d.Sound job size rank) {n : Member} (hn : d.member.work? = some n) :
    d.Proceeds job size rank (d.member.nextPosition?.toList.flatMap job.findings)
      ⟨n, d.errand, d.reports⟩ ∧
    ∀ position, d.holding position = (Desk.mk n d.errand d.reports).holding position +
      d.member.nextPosition?.toList.count position := by
  obtain ⟨hphase, first, slice, hnext, rfl⟩ | ⟨hphase, hnext, rfl⟩ | ⟨hphase, hexhausted, rfl⟩ |
    ⟨hphase, hexhausted, rfl⟩ := Member.work?_eq_some hn
  · have hposition : d.member.nextPosition? = some first := by
      simp [Member.nextPosition?, hphase, hnext]
    obtain ⟨hproceeds, hholding⟩ := h.check hphase hnext
    rw [hposition]
    refine ⟨by simpa using hproceeds, fun position => ?_⟩
    rw [hholding, Option.toList_some, List.count_singleton]
    simp only [beq_iff_eq, @eq_comm _ first position]
  · have hposition : d.member.nextPosition? = none := by
      simp [Member.nextPosition?, hphase, hnext]
    rw [hposition]
    exact ⟨h.idle hphase hnext, fun _ => rfl⟩
  · have hposition : d.member.nextPosition? = none := by simp [Member.nextPosition?, hphase]
    rw [hposition]
    exact ⟨h.stop hphase hexhausted, fun _ => rfl⟩
  · have hposition : d.member.nextPosition? = none := by simp [Member.nextPosition?, hphase]
    rw [hposition]
    exact ⟨h.resume hphase hexhausted, fun _ => rfl⟩

end Desk

end Detachment.Cluster
