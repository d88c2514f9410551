import Detachment.Proofs.Interleavings

/-! # Taking turns

A group whose ranks take turns comes to an end. Every worker uses up its positions at its first
turn, so that nobody ever has a span to give away; every request is answered with an empty offer
before the rank that sent it has its next turn. So each turn brings a rank nearer to its end.

* `Member.delay` bounds the number of turns that a rank still needs.
* `Parcel.Since` says that a letter was sent after the last turn of its recipient.
* `Group.Calm` says what holds between two turns as long as no run has ended, and `Group.Turning`
  what holds within a turn.
* `Group.Calm.turn` says that a turn keeps a group calm and brings its rank nearer to its end. -/

namespace Detachment.Cluster

/-! ## How far a rank is from its end -/

/-- The number of turns that a worker needs at most from its phase on, besides those for its
positions. -/
def Phase.turns : Phase → Nat
  | working => 4
  | waiting => 3
  | woken => 2
  | stopped => 1

namespace Member

variable {m n : Member}

/-- The number of turns that a rank needs at most until its worker has stopped and all its events
were handled, and one more. -/
def delay (m : Member) : Nat :=
  m.events.length + m.phase.turns + if m.phase = .working then m.slice.workload else 0

/-- A worker that goes through positions may leave an event for each. -/
theorem delay_of_working (h : m.phase = .working) :
    m.delay = m.events.length + 4 + m.slice.workload := by
  rw [delay, if_pos h, h]
  rfl

/-- Any other worker leaves no events but those of its phase. -/
theorem delay_of_ne_working (h : m.phase ≠ .working) :
    m.delay = m.events.length + m.phase.turns := by
  rw [delay, if_neg h, Nat.add_zero]

/-- At its end (`delay` is one), the worker of a rank has stopped and all its events were
handled. -/
theorem stopped_of_delay_le (h : m.delay ≤ 1) : m.phase = .stopped ∧ m.events = [] := by
  unfold delay at h
  cases hphase : m.phase with
  | stopped =>
    rw [hphase, Phase.turns] at h
    exact ⟨rfl, List.length_eq_zero_iff.mp (by omega)⟩
  | working | waiting | woken =>
    rw [hphase, Phase.turns] at h
    omega

/-- A rank whose worker was woken was told that no more positions will come (`exhausted`). -/
def Resigned (m : Member) : Prop :=
  m.phase = .woken → m.exhausted = true

/-- Checking a position (`check`) adds at most one event. -/
theorem check_events_length (m : Member) (position : Nat) :
    (m.check position).events.length ≤ m.events.length + 1 := by
  unfold check
  split
  · exact Nat.le_succ _
  · split
    · simp
    · exact Nat.le_succ _

/-- Checking a position leaves the notes of the communicator alone. -/
theorem check_best (m : Member) (position : Nat) : (m.check position).best = m.best := by
  unfold check
  split
  · rfl
  · split <;> rfl

/-- A step of the worker (`work?`) does not put off the end: `delay` does not grow. The four cases
are those of `work?_eq_some`. -/
theorem delay_work? (hresigned : m.Resigned) (h : m.work? = some n) :
    n.Resigned ∧ n.delay ≤ m.delay ∧ n.best = m.best := by
  obtain ⟨hphase, position, slice, hnext, rfl⟩ | ⟨hphase, hnext, rfl⟩ | ⟨hphase, hexhausted, rfl⟩ |
    ⟨hphase, hexhausted, rfl⟩ := work?_eq_some h
  · -- A check may leave one more event behind, but takes a position away.
    have hworking : (check { m with slice } position).phase = .working :=
      (check_phase _ position).trans hphase
    have hevents : (check { m with slice } position).events.length ≤ m.events.length + 1 :=
      check_events_length { m with slice } position
    have hslice : (check { m with slice } position).slice.workload < m.slice.workload := by
      rw [check_slice]
      exact Slice.workload_next? hnext
    refine ⟨fun hwoken => ?_, ?_, check_best _ position⟩
    · rw [hworking] at hwoken
      cases hwoken
    · rw [delay_of_working hworking, delay_of_working hphase]
      omega
  · refine ⟨fun hwoken => Phase.noConfusion hwoken, ?_, rfl⟩
    rw [delay_of_working hphase, delay_of_ne_working Phase.noConfusion, List.length_append]
    exact Nat.le_add_right _ _
  · refine ⟨fun hwoken => Phase.noConfusion hwoken, ?_, rfl⟩
    simp [delay, hphase, Phase.turns]
  · -- A worker that looks again would have to be told that more positions came.
    rw [hresigned hphase] at hexhausted
    cases hexhausted

/-- A worker that settles (`settle`) waits or has stopped, and its end is not put off. By induction
on the steps of the worker, each of which is `delay_work?`. -/
theorem settle_spec (m : Member) (hresigned : m.Resigned) :
    (m.settle.phase = .waiting ∨ m.settle.phase = .stopped) ∧ m.settle.delay ≤ m.delay ∧
      m.settle.best = m.best := by
  fun_induction settle m with
  | case1 m hnone =>
    refine ⟨?_, Nat.le_refl _, rfl⟩
    unfold work? at hnone
    split at hnone
    · split at hnone <;> cases hnone
    · split at hnone <;> cases hnone
    · next hphase => exact .inl hphase
    · next hphase => exact .inr hphase
  | case2 m n hsome ih =>
    obtain ⟨hresigned', hdelay, hbest⟩ := delay_work? hresigned hsome
    obtain ⟨hphase, hle, hsame⟩ := ih hresigned'
    exact ⟨hphase, hle.trans hdelay, hsame.trans hbest⟩

end Member

/-! ## Reactions while nobody has anything to give away -/

/-- The messages that are sent as long as nobody has a span to give away and no run has ended:
offers are empty, and nothing is claimed. -/
def Message.Quiet : Message → Prop
  | .offer span => span.isEmpty = true
  | .claim _ => False
  | .claimAnswer _ => False
  | .terminate => False
  | _ => True

/-- What hearing of something does to a rank: its events stay, and the worker is left alone or
woken. -/
structure Member.Heard (m n : Member) : Prop where
  events : n.events = m.events
  phase : n.phase = m.phase ∨ m.phase = .waiting ∧ n.phase = .woken

/-- A reaction to a message that is `Quiet`, or to an event: the run goes on, the letters are quiet,
and the worker is left alone or told to stop. -/
structure Reaction.Quiet (size : Nat) (m : Member) (r : Reaction) : Prop where
  verdict : r.verdict = .goesOn
  letters : ∀ letter ∈ r.letters,
    letter.recipient < size ∧ letter.recipient ≠ m.rank ∧ letter.message.Quiet
  best : r.member.best = none
  resigned : r.member.Resigned
  heard : m.Heard r.member

namespace Member

variable {m : Member} {size sender : Nat}

/-- Nothing may happen. -/
theorem Heard.refl (m : Member) : m.Heard m := ⟨rfl, .inl rfl⟩

/-- A worker is woken once at most. -/
theorem Heard.trans {n k : Member} (h : m.Heard n) (h' : n.Heard k) : m.Heard k := by
  refine ⟨h'.events.trans h.events, ?_⟩
  rcases h'.phase with hsame | ⟨hwaiting, hwoken⟩
  · rw [hsame]
    exact h.phase
  · rcases h.phase with hsame | ⟨-, hwoken'⟩
    · exact .inr ⟨hsame ▸ hwaiting, hwoken⟩
    · rw [hwoken'] at hwaiting
      cases hwaiting

/-- Nobody is put to work by what they hear. -/
theorem Heard.ne_working {n : Member} (h : m.Heard n) (hm : m.phase ≠ .working) :
    n.phase ≠ .working := by
  rcases h.phase with hsame | ⟨-, hwoken⟩
  · exact hsame ▸ hm
  · exact hwoken ▸ Phase.noConfusion

/-- A rank that was woken has one turn less to wait (`Phase.turns`). -/
theorem Heard.turns_le {n : Member} (h : m.Heard n) :
    n.phase.turns ≤ m.phase.turns ∧ (n.phase = m.phase ∨ n.phase.turns + 1 = m.phase.turns) := by
  rcases h.phase with hsame | ⟨hwaiting, hwoken⟩
  · exact ⟨Nat.le_of_eq (congrArg Phase.turns hsame), .inl hsame⟩
  · rw [hwaiting, hwoken]
    exact ⟨by decide, .inr rfl⟩

/-- A reaction that changes nothing but the notes and the books of the communicator is `Quiet`. -/
theorem quiet_goesOn {n : Member} {letters : List Letter} (hresigned : m.Resigned)
    (hletters : ∀ letter ∈ letters,
      letter.recipient < size ∧ letter.recipient ≠ m.rank ∧ letter.message.Quiet)
    (hbest : n.best = none) (hevents : n.events = m.events) (hphase : n.phase = m.phase)
    (hexhausted : n.exhausted = m.exhausted) : (n.goesOn letters).Quiet size m where
  verdict := rfl
  letters := hletters
  best := hbest
  resigned hwoken := hexhausted.trans (hresigned (hphase.symm.trans hwoken))
  heard := ⟨hevents, .inl hphase⟩

/-- To tell the worker that no more positions will come (`wake true`) is `Quiet`. -/
theorem quiet_wake {n : Member} (hbest : n.best = none) (hevents : n.events = m.events)
    (hphase : n.phase = m.phase) : ((n.wake true).goesOn []).Quiet size m where
  verdict := rfl
  letters := List.forall_mem_nil _
  best := hbest
  resigned _ := Bool.or_true _
  heard := by
    refine ⟨hevents, ?_⟩
    by_cases hwaiting : m.phase = .waiting
    · exact .inr ⟨hwaiting, by simp [goesOn, wake, hphase, hwaiting]⟩
    · exact .inl (by simp [goesOn, wake, hphase, hwaiting])

/-- To ask every other rank, or to stop if there is none (`askPeers`), is `Quiet`. -/
theorem quiet_askPeers (hbest : m.best = none) (hresigned : m.Resigned) (hsize : m.size = size) :
    m.askPeers.Quiet size m := by
  unfold askPeers
  split
  · exact quiet_wake hbest rfl rfl
  · refine quiet_goesOn hresigned (fun letter hletter => ?_) rfl rfl rfl rfl
    obtain ⟨⟨hlt, hne⟩, hmessage⟩ := mem_circular hletter
    exact ⟨hsize ▸ hlt, hne, hmessage ▸ trivial⟩

/-- Empty offers leave a rank without anything to ask for, so `noteOffer` sends no letters. -/
theorem quiet_noteOffer {span : Span} (hbest : m.best = none) (hresigned : m.Resigned)
    (hspan : span.isEmpty = true) :
    (m.noteOffer ⟨sender, span⟩).Quiet size m ∧ (m.noteOffer ⟨sender, span⟩).letters = [] := by
  have hbetter : better m.best ⟨sender, span⟩ = none := by
    unfold better
    rw [if_pos hspan, hbest]
  unfold noteOffer
  simp only [hbetter]
  split
  · exact ⟨quiet_goesOn hresigned (List.forall_mem_nil _) rfl rfl rfl rfl, rfl⟩
  · exact ⟨quiet_wake rfl rfl rfl, rfl⟩

/-- A letter to the coordinator from another rank is `Quiet` if its message is. -/
theorem quiet_letter {message : Message} (hzero : m.rank ≠ coordinator)
    (hsize : coordinator < size) (hquiet : message.Quiet) :
    ∀ letter ∈ [(⟨coordinator, message⟩ : Letter)],
      letter.recipient < size ∧ letter.recipient ≠ m.rank ∧ letter.message.Quiet := by
  intro letter hletter
  rw [List.mem_singleton.mp hletter]
  exact ⟨hsize, hzero.symm, hquiet⟩

/-- Handling an event (`attend`) is `Quiet`. The coordinator notes an event in its books, and other
ranks send it a letter. -/
theorem quiet_attend (hbest : m.best = none) (hresigned : m.Resigned) (hsize : m.size = size)
    (hpos : coordinator < size) (event : Event) : (m.attend event).Quiet size m := by
  cases event with
  | idle => exact quiet_askPeers hbest hresigned hsize
  | redundant i =>
    by_cases hzero : m.rank = coordinator
    · rw [@attend_redundant_coordinator m i m.events hzero]
      exact quiet_goesOn hresigned (List.forall_mem_nil _) hbest rfl rfl rfl
    · rw [@attend_redundant_other m i m.events hzero]
      exact quiet_goesOn hresigned (quiet_letter hzero hpos trivial) hbest rfl rfl rfl
  | stopped =>
    by_cases hzero : m.rank = coordinator
    · rw [@attend_stopped_coordinator m m.events hzero]
      exact quiet_goesOn hresigned (List.forall_mem_nil _) hbest rfl rfl rfl
    · rw [@attend_stopped_other m m.events hzero]
      exact quiet_goesOn hresigned (quiet_letter hzero hpos trivial) hbest rfl rfl rfl

/-- Handling a message that is `Quiet` (`receive`) is so, too; the only answer is an empty offer, as
the slice is used up. -/
theorem quiet_receive {message : Message} (hquiet : message.Quiet)
    (hlawful : (Parcel.mk sender m.rank message).Lawful m.job size) (hbest : m.best = none)
    (hresigned : m.Resigned) (husedUp : m.slice.isUsedUp = true) :
    (m.receive sender message).Quiet size m ∧
      ∀ letter ∈ (m.receive sender message).letters, letter.message = .offer .none := by
  have hsilent : ∀ n : Member, n.best = none → n.events = m.events → n.phase = m.phase →
      n.exhausted = m.exhausted → (n.goesOn []).Quiet size m ∧
        ∀ letter ∈ (n.goesOn []).letters, letter.message = .offer .none :=
    fun n h₁ h₂ h₃ h₄ =>
      ⟨quiet_goesOn hresigned (List.forall_mem_nil _) h₁ h₂ h₃ h₄, List.forall_mem_nil _⟩
  obtain ⟨⟨hsender, -, hne⟩, hmessage⟩ := hlawful
  cases message with
  | handshake candidates length =>
    obtain ⟨hzero, rfl, rfl⟩ := hmessage
    have hgoesOn : m.receive sender (.handshake m.job.size m.job.length) = m.goesOn [] := by
      simp [receive, compareLoad, isCoordinator, load, show m.rank = coordinator from hzero]
    rw [hgoesOn]
    exact hsilent m hbest rfl rfl rfl
  | abort reason => exact hmessage.elim
  | redundant i => exact hsilent _ hbest rfl rfl rfl
  | finished => exact hsilent _ hbest rfl rfl rfl
  | offerRequest =>
    -- The slice is used up, so that there is no reserve to offer.
    have hoffered : m.slice.offered = .none := by
      simp only [Slice.isUsedUp, Bool.and_eq_true, Option.isNone_iff_eq_none] at husedUp
      rw [Slice.offered, husedUp.2]
      rfl
    rw [receive, hoffered]
    refine ⟨quiet_goesOn hresigned ?_ hbest rfl rfl rfl, ?_⟩
    · intro letter hletter
      rw [List.mem_singleton.mp hletter]
      exact ⟨hsender, hne, rfl⟩
    · intro letter hletter
      rw [List.mem_singleton.mp hletter]
  | offer span =>
    obtain ⟨hnote, hletters⟩ := @quiet_noteOffer m size sender span hbest hresigned hquiet
    rw [receive]
    exact ⟨hnote, hletters ▸ List.forall_mem_nil _⟩
  | claim span => exact hquiet.elim
  | claimAnswer granted => exact hquiet.elim
  | terminate => exact hquiet.elim

end Member

/-! ## Letters and turns -/

/-- A letter that was sent after the last turn of its recipient, when `next` has the next turn. The
ranks before `next` had their last turn in this round, the others in the round before. -/
def Parcel.Since (next : Nat) (p : Parcel) : Prop :=
  (p.recipient < next → p.recipient < p.sender ∧ p.sender < next) ∧
    (next ≤ p.recipient → p.recipient < p.sender ∨ p.sender < next)

/-- When a rank has its turn, all its letters were read: each other rank had a turn since. -/
theorem Parcel.Since.sender_ne {p : Parcel} {next : Nat} (h : p.Since next) : p.sender ≠ next := by
  obtain ⟨hbefore, hafter⟩ := h
  intro heq
  rcases Nat.lt_or_ge p.recipient next with hlt | hge
  · have := hbefore hlt
    omega
  · have := hafter hge
    omega

/-- After a turn, the letters to other ranks are those from before and those that were sent, so
`Since` goes on to `next + 1`. -/
theorem Parcel.Since.succ {p : Parcel} {next : Nat} (h : p.Since next)
    (hne : p.recipient ≠ next) : p.Since (next + 1) := by
  obtain ⟨hbefore, hafter⟩ := h
  refine ⟨fun hlt => ?_, fun hge => ?_⟩
  · have := hbefore (by omega)
    omega
  · have := hafter (by omega)
    omega

/-- What a rank sends at its turn is new to everyone else. -/
theorem Parcel.since_of_sender {p : Parcel} {next : Nat} (h : p.sender = next)
    (hne : p.recipient ≠ next) : p.Since (next + 1) :=
  ⟨fun hlt => by omega, fun hge => by omega⟩

/-- The bag `inFlight` holds as many letters to a rank as its box. The bag is the sum of the boxes,
and each letter in a box is to its rank. -/
theorem Mailboxes.card_filter_inFlight {m : Mailboxes} {rank : Nat} (hrank : rank < m.size) :
    (m.inFlight.filter (·.recipient = rank)).card = (m.box rank).size := by
  have hcount : ∀ b, (m.inbox b).countP (·.recipient = rank) =
      if rank = b then (m.box b).size else 0 := by
    intro b
    rw [inbox, Multiset.coe_countP, List.countP_map]
    split
    · next heq =>
      subst heq
      exact (List.countP_eq_length.mpr fun _ _ => decide_eq_true rfl).trans Array.length_toList
    · next hne => exact List.countP_eq_zero.mpr fun _ _ => by simpa using Ne.symm hne
  rw [← Multiset.countP_eq_card_filter, inFlight,
    show ∀ s : Multiset Parcel, s.countP (·.recipient = rank) =
      Multiset.countPAddMonoidHom (·.recipient = rank) s from fun _ => rfl, map_sum]
  simp only [Multiset.coe_countPAddMonoidHom, hcount, Finset.sum_ite_eq, Finset.mem_range, hrank,
    if_true]

namespace Group

variable {g g₀ : Group} {job : Job} {size rank : Nat} {r : Reaction} {m : Member}
  {checks : List Check}

/-- A rank of the group whose run has not ended (`ending?`) still runs. -/
theorem running?_of_ending? (hrank : rank < g.seats.size) (h : g.ending? rank = none) :
    g.running? rank = some (g.member rank) := by
  have hseat : g.seats[rank]? = some g.seats[rank] := Array.getElem?_eq_getElem hrank
  rw [ending?, hseat, Option.bind_some] at h
  rw [running?, member, hseat]
  cases hs : g.seats[rank] with
  | mk m ending =>
    rw [hs] at h
    obtain rfl : ending = none := h
    rfl

/-- A reaction without letters (`goesOn []`) changes the seat of its rank and no mailbox. -/
theorem react_goesOn (g : Group) (rank : Nat) (m : Member) :
    g.react rank (m.goesOn []) = ⟨g.seats.setIfInBounds rank ⟨m, none⟩, g.mail⟩ := rfl

/-- To set the seat of a rank to what it was changes nothing. -/
theorem react_self (hm : g.running? rank = some m) : g.react rank (m.goesOn []) = g := by
  have hrank := (running?_eq_some hm).1
  have hseat : g.seats[rank] = ⟨m, none⟩ := by
    unfold running? at hm
    split at hm
    · next heq =>
      obtain rfl := Option.some.inj hm
      exact (Array.getElem?_eq_some_iff.mp heq).2
    · cases hm
  rw [react_goesOn, ← hseat, Array.setIfInBounds, dif_pos hrank, Array.set_getElem_self]

/-- A worker that settles takes its steps one by one, so `Course.Invariant` holds after all of
them. -/
theorem exists_invariant_settle (h : Course.Invariant job size ⟨checks, g⟩)
    (hm : g.running? rank = some m) :
    ∃ checks, Course.Invariant job size ⟨checks, g.react rank (m.settle.goesOn [])⟩ := by
  have hrank := (running?_eq_some hm).1
  fun_induction Member.settle m generalizing g checks with
  | case1 m hnone => exact ⟨checks, (react_self hm).symm ▸ h⟩
  | case2 m n hsome ih =>
    have hwork : g.work? rank = some (g.react rank (n.goesOn [])) := by
      rw [work?, hm, Option.bind_some, hsome]
    have hsize : rank < (g.react rank (n.goesOn [])).seats.size := by
      rw [react_goesOn, Array.size_setIfInBounds]
      exact hrank
    have hnext : (g.react rank (n.goesOn [])).running? rank = some n := by
      rw [react_goesOn, running?, Array.getElem?_setIfInBounds_self_of_lt hrank]
    obtain ⟨checks', hsettled⟩ := ih (h.work hwork) hnext hsize
    rw [react_goesOn, react_goesOn, Array.setIfInBounds_setIfInBounds] at hsettled
    exact ⟨checks', hsettled⟩

/-- What holds between two turns as long as no run has ended. -/
structure Calm (job : Job) (size : Nat) (g : Group) : Prop where
  sound : ∃ checks, Course.Invariant job size ⟨checks, g⟩
  running : ∀ rank < size, g.ending? rank = none
  quiet : ∀ p ∈ g.mail.inFlight, p.message.Quiet
  best : ∀ rank < size, (g.member rank).best = none
  resigned : ∀ rank < size, (g.member rank).Resigned

/-- All ranks of a calm group still run. -/
theorem Calm.running? (h : g.Calm job size) (hrank : rank < size) :
    g.running? rank = some (g.member rank) := by
  obtain ⟨checks, hsound⟩ := h.sound
  exact running?_of_ending? (hsound.seats_size.symm ▸ hrank) (h.running rank hrank)

/-- A quiet reaction keeps a group `Calm`, if it keeps the invariant. The letters on their way are
those that were there (`Opened`) and those of the reaction. -/
theorem Calm.react (h : g.Calm job size) (ho : g.Opened g₀) (hrank : rank < size)
    (hverdict : r.verdict = .goesOn)
    (hletters : ∀ letter ∈ r.letters, letter.recipient < size ∧ letter.message.Quiet)
    (hbest : r.member.best = none) (hresigned : r.member.Resigned)
    (hsound : ∃ checks, Course.Invariant job size ⟨checks, g₀.react rank r⟩) :
    (g₀.react rank r).Calm job size ∧ g₀.Reacted rank r (g₀.react rank r) := by
  obtain ⟨checks, hinvariant⟩ := h.sound
  have hreacted : g₀.Reacted rank r (g₀.react rank r) :=
    hinvariant.toStaffed.reacted ho hrank fun letter hletter => (hletters letter hletter).1
  have hmember : ∀ q, g₀.member q = g.member q := fun q => by rw [member, ho.seats, member]
  -- Only the rank that reacts has changed, and the other ranks were calm before.
  refine ⟨⟨hsound, fun q hq => ?_, fun p hp => ?_, fun q hq => ?_, fun q hq => ?_⟩, hreacted⟩
  · rw [hreacted.ending, hverdict, ending?, ho.seats]
    split
    · rfl
    · exact h.running q hq
  · rw [hreacted.inFlight, Multiset.mem_add] at hp
    rcases hp with hp | hp
    · exact h.quiet p (Multiset.mem_of_le ho.inFlight hp)
    · obtain ⟨letter, hletter, rfl⟩ := List.mem_map.mp hp
      exact (hletters letter hletter).2
  · rw [hreacted.member, hmember]
    split
    · exact hbest
    · exact h.best q hq
  · rw [hreacted.member, hmember]
    split
    · exact hresigned
    · exact h.resigned q hq

/-! ## The parts of a turn -/

/-- What holds within the turn of a rank, after its worker has settled and before it handles an
event: it has no request on its way. -/
structure Turning (job : Job) (size rank : Nat) (g : Group) : Prop extends Calm job size g where
  settled : (g.member rank).phase ≠ .working
  since : ∀ p ∈ g.mail.inFlight, p.recipient ≠ rank → p.Since (rank + 1)
  own : ∀ p ∈ g.mail.inFlight, p.sender = rank → p.message ≠ .offerRequest

/-- The worker of a rank settles (`settle`), and the group is `Turning`; the end of the rank is not
put off. -/
theorem Calm.settle (h : g.Calm job size) (hrank : rank < size)
    (hsince : ∀ p ∈ g.mail.inFlight, p.Since rank) :
    (g.settle rank).Turning job size rank ∧
      (∀ q, rank ≠ q → (g.settle rank).member q = g.member q) ∧
      (((g.settle rank).member rank).phase = .waiting ∨
        ((g.settle rank).member rank).phase = .stopped) ∧
      ((g.settle rank).member rank).delay ≤ (g.member rank).delay := by
  obtain ⟨checks, hinvariant⟩ := h.sound
  have hsettle : g.settle rank = g.react rank ((g.member rank).settle.goesOn []) := by
    rw [Group.settle, h.running? hrank]
  obtain ⟨hphase, hdelay, hbest⟩ := (g.member rank).settle_spec (h.resigned rank hrank)
  have hresigned : (g.member rank).settle.Resigned := by
    intro hwoken
    rcases hphase with hphase | hphase <;> rw [hphase] at hwoken <;> cases hwoken
  obtain ⟨hcalm, hreacted⟩ := h.react g.opened_self hrank
    (r := (g.member rank).settle.goesOn []) rfl (List.forall_mem_nil _)
    (hbest.trans (h.best rank hrank)) hresigned
    (exists_invariant_settle hinvariant (h.running? hrank))
  have hself : (g.settle rank).member rank = (g.member rank).settle := by
    rw [hsettle, hreacted.member, if_pos rfl]
    rfl
  -- The worker sends nothing, so that the same letters are on their way.
  have hflight : (g.settle rank).mail.inFlight = g.mail.inFlight := by
    rw [hsettle]
    rfl
  refine ⟨⟨hsettle ▸ hcalm, ?_, fun p hp hne => ?_, fun p hp hsender => ?_⟩, fun q hq => ?_, ?_, ?_⟩
  · rw [hself]
    rcases hphase with hphase | hphase <;> rw [hphase] <;> exact Phase.noConfusion
  · rw [hflight] at hp
    exact (hsince p hp).succ hne
  · rw [hflight] at hp
    exact absurd hsender (hsince p hp).sender_ne
  · rw [hsettle, hreacted.member, if_neg hq]
  · rw [hself]
    exact hphase
  · rw [hself]
    exact hdelay

/-- A rank that has settled has used up its positions: `isUsedUp`. -/
theorem Turning.isUsedUp (h : g.Turning job size rank) (hrank : rank < size) :
    (g.member rank).slice.isUsedUp = true := by
  obtain ⟨checks, hinvariant⟩ := h.sound
  have hdesk := hinvariant.sound rank hrank
  refine hdesk.usedUp ?_
  cases hphase : (g.member rank).phase with
  | working => exact absurd hphase h.settled
  | waiting => exact .inl hphase
  | woken => exact .inr (h.resigned rank hrank hphase)
  | stopped => exact .inr (hdesk.stopped hphase)

/-- A rank handles the first message in its box, which leaves one message less there and keeps the
group `Turning`. -/
theorem Turning.receive (h : g.Turning job size rank) (hrank : rank < size) {first : Received}
    (hfirst : (g.mail.box rank)[0]? = some first) :
    (g.receive rank (g.member rank) first).Turning job size rank ∧
      (∀ q, rank ≠ q → (g.receive rank (g.member rank) first).member q = g.member q) ∧
      (g.member rank).Heard ((g.receive rank (g.member rank) first).member rank) ∧
      (g.mail.inFlight.filter (·.recipient = rank)).card =
        ((g.receive rank (g.member rank) first).mail.inFlight.filter (·.recipient = rank)).card
          + 1 := by
  obtain ⟨checks, hinvariant⟩ := h.sound
  have hdesk := hinvariant.sound rank hrank
  have hrank_eq : (g.member rank).rank = rank := hdesk.rank_eq
  have hjob_eq : (g.member rank).job = job := hdesk.job_eq
  have hfrom := firstFrom?_sender hfirst
  have hflight := Mailboxes.inFlight_dropFrom hfrom
  have hmem := Mailboxes.mem_inFlight_of_firstFrom? hfrom
  have hlawful : (Parcel.mk first.sender (g.member rank).rank first.message).Lawful
      (g.member rank).job size := by
    rw [hrank_eq, hjob_eq]
    exact hinvariant.lawful _ hmem
  obtain ⟨hquiet, hoffers⟩ := Member.quiet_receive (h.quiet _ hmem) hlawful (h.best rank hrank)
    (h.resigned rank hrank) (h.isUsedUp hrank)
  have hsound := hinvariant.receive (receiveFrom?_sender (h.running? hrank) hfirst)
  obtain ⟨hcalm, hreacted⟩ := h.react (opened_without hfrom) hrank
    hquiet.verdict (fun letter hletter =>
      ⟨(hquiet.letters letter hletter).1, (hquiet.letters letter hletter).2.2⟩)
    hquiet.best hquiet.resigned ⟨_, hsound⟩
  have hself : (g.receive rank (g.member rank) first).member rank =
      ((g.member rank).receive first.sender first.message).member :=
    (hreacted.member rank).trans (if_pos rfl)
  have hinFlight : (g.receive rank (g.member rank) first).mail.inFlight = _ := hreacted.inFlight
  -- The letters that are on their way now were there before, or answer the message.
  have hnew : ∀ p ∈ (g.receive rank (g.member rank) first).mail.inFlight,
      p ∈ g.mail.inFlight ∨
        p.sender = rank ∧ p.recipient ≠ rank ∧ p.message = .offer .none := by
    intro p hp
    rw [hinFlight, Multiset.mem_add] at hp
    rcases hp with hp | hp
    · rw [hflight]
      exact .inl (Multiset.mem_add.mpr (.inl hp))
    · obtain ⟨letter, hletter, rfl⟩ := List.mem_map.mp hp
      exact .inr ⟨rfl, hrank_eq ▸ (hquiet.letters letter hletter).2.1, hoffers letter hletter⟩
  refine ⟨⟨hcalm, ?_, fun p hp hne => ?_, fun p hp hsender => ?_⟩, fun q hq => ?_, ?_, ?_⟩
  · rw [hself]
    exact hquiet.heard.ne_working h.settled
  · rcases hnew p hp with hold | ⟨hsender, -, -⟩
    · exact h.since p hold hne
    · exact Parcel.since_of_sender hsender hne
  · rcases hnew p hp with hold | ⟨-, -, hmessage⟩
    · exact h.own p hold hsender
    · rw [hmessage]
      exact Message.noConfusion
  · exact (hreacted.member q).trans (if_neg hq)
  · rw [hself]
    exact hquiet.heard
  · have hothers : (Multiset.ofList (((g.member rank).receive first.sender
        first.message).letters.map (·.parcel rank))).filter (·.recipient = rank) = 0 := by
      refine Multiset.filter_eq_nil.mpr fun p hp heq => ?_
      obtain ⟨letter, hletter, rfl⟩ := List.mem_map.mp hp
      exact (hquiet.letters letter hletter).2.1 (hrank_eq.symm ▸ heq)
    rw [hinFlight, hflight, Multiset.filter_add, Multiset.filter_add, hothers,
      Multiset.filter_singleton, if_pos rfl]
    simp [without]

/-- A rank handles all messages in its box (`drain`): `Turning.receive` once for each of them. By
induction on a bound of how many there are. -/
theorem Turning.drain (h : g.Turning job size rank) (hrank : rank < size) {count : Nat}
    (hcount : (g.mail.inFlight.filter (·.recipient = rank)).card ≤ count) :
    (Group.drain rank count g).Turning job size rank ∧
      (∀ p ∈ (Group.drain rank count g).mail.inFlight, p.recipient ≠ rank) ∧
      (∀ q, rank ≠ q → (Group.drain rank count g).member q = g.member q) ∧
      (g.member rank).Heard ((Group.drain rank count g).member rank) := by
  have hread : ∀ {g : Group}, (g.mail.inFlight.filter (·.recipient = rank)).card = 0 →
      ∀ p ∈ g.mail.inFlight, p.recipient ≠ rank := by
    intro g hzero
    exact Multiset.filter_eq_nil.mp (Multiset.card_eq_zero.mp hzero)
  -- Every message that is handled leaves one fewer in the box, as no rank writes to itself.
  induction count generalizing g with
  | zero => exact ⟨h, hread (Nat.le_zero.mp hcount), fun _ _ => rfl, .refl _⟩
  | succ count ih =>
    rw [Group.drain, h.running? hrank]
    cases hfirst : (g.mail.box rank)[0]? with
    | none =>
      obtain ⟨checks, hinvariant⟩ := h.sound
      refine ⟨h, hread ?_, fun _ _ => rfl, .refl _⟩
      rw [Mailboxes.card_filter_inFlight (hinvariant.mail_size.symm ▸ hrank)]
      exact Nat.le_zero.mp (Array.getElem?_eq_none_iff.mp hfirst)
    | some first =>
      obtain ⟨hturning, hothers, hheard, hcard⟩ := h.receive hrank hfirst
      obtain ⟨hdrained, hempty, hothers', hheard'⟩ := ih hturning (by omega)
      exact ⟨hdrained, hempty, fun q hq => (hothers' q hq).trans (hothers q hq),
        hheard.trans hheard'⟩

/-- Once its box is empty, nothing of the search of a rank is on its way (`errand`): its requests
were answered, and it has read the answers. -/
theorem Turning.errand_eq_zero (h : g.Turning job size rank)
    (hread : ∀ p ∈ g.mail.inFlight, p.recipient ≠ rank) : (g.desk rank).errand = 0 := by
  refine Multiset.filter_eq_nil.mpr fun p hp hasker => ?_
  have hquiet := h.quiet p hp
  unfold Parcel.asker? at hasker
  split at hasker
  · next hmessage => exact h.own p hp (Option.some.inj hasker) hmessage
  · exact hread p hp (Option.some.inj hasker)
  · next hmessage =>
    rw [hmessage] at hquiet
    exact hquiet
  · next hmessage =>
    rw [hmessage] at hquiet
    exact hquiet
  · cases hasker

/-- So a rank that still waits has not handled the event `.idle` that says so. In every other case
of `Search` something of its errand would be on its way. -/
theorem Turning.events_ne_nil (h : g.Turning job size rank) (hrank : rank < size)
    (hread : ∀ p ∈ g.mail.inFlight, p.recipient ≠ rank)
    (hwaiting : (g.member rank).phase = .waiting) : (g.member rank).events ≠ [] := by
  obtain ⟨checks, hinvariant⟩ := h.sound
  have herrand := h.errand_eq_zero hread
  cases (hinvariant.sound rank hrank).search with
  | resting hphase _ _ => exact absurd hwaiting hphase
  | unnoticed _ hidle _ =>
    intro hnil
    rw [show (g.desk rank).member.events = [] from hnil] at hidle
    cases hidle
  | asking _ _ _ hpending hpos =>
    rw [herrand, Multiset.card_zero] at hpending
    omega
  | claiming _ _ _ _ hq =>
    rw [herrand] at hq
    exact absurd hq.symm (Multiset.singleton_ne_zero _)
  | answered _ _ _ _ _ hq =>
    rw [herrand] at hq
    exact absurd hq.symm (Multiset.singleton_ne_zero _)

/-- A rank after its worker has settled and its communicator has read all its messages. -/
def handled (g : Group) (rank : Nat) : Group :=
  Group.drain rank ((g.settle rank).mail.box rank).size (g.settle rank)

/-- A turn ends the run (`conclude?`) or handles an event (`attend?`). -/
theorem turn_eq (g : Group) (rank : Nat) :
    Group.turn false g rank = match (g.handled rank).conclude? rank with
      | some g => g
      | none => ((g.handled rank).attend? rank).getD (g.handled rank) := rfl

/-- A rank that has no event to handle now (`handled`) is at its end, or nearer to it than before
its turn. -/
theorem Calm.handled (h : g.Calm job size) (hrank : rank < size)
    (hsince : ∀ p ∈ g.mail.inFlight, p.Since rank) :
    (g.handled rank).Turning job size rank ∧
      (∀ p ∈ (g.handled rank).mail.inFlight, p.recipient ≠ rank) ∧
      (∀ q, rank ≠ q → (g.handled rank).member q = g.member q) ∧
      ((g.handled rank).member rank).delay ≤ (g.member rank).delay ∧
      (((g.handled rank).member rank).events = [] →
        ((g.handled rank).member rank).delay = 1 ∨
          ((g.handled rank).member rank).delay + 1 ≤ (g.member rank).delay) := by
  obtain ⟨hturning, hothers, hphase, hdelay⟩ := h.settle hrank hsince
  obtain ⟨checks, hinvariant⟩ := hturning.sound
  have hcard := Mailboxes.card_filter_inFlight (hinvariant.mail_size.symm ▸ hrank)
  obtain ⟨hdrained, hread, hothers', hheard⟩ := hturning.drain hrank (Nat.le_of_eq hcard)
  change (g.handled rank).Turning job size rank at hdrained
  have hbefore := Member.delay_of_ne_working hturning.settled
  have hafter := Member.delay_of_ne_working hdrained.settled
  have hevents : ((g.handled rank).member rank).events =
      ((g.settle rank).member rank).events := hheard.events
  rw [hevents] at hafter
  obtain ⟨hturns, hstep⟩ := hheard.turns_le
  change ((g.handled rank).member rank).phase.turns ≤ _ at hturns
  refine ⟨hdrained, hread, fun q hq => (hothers' q hq).trans (hothers q hq), by omega,
    fun hnil => ?_⟩
  rcases hstep with hsame | hwoken
  · change ((g.handled rank).member rank).phase = _ at hsame
    -- A worker that still waits would have an event: that it is idle.
    rcases hphase with hwaiting | hstopped
    · exact absurd hnil (hdrained.events_ne_nil hrank hread (hsame.trans hwaiting))
    · refine .inl ?_
      rw [hafter, ← hevents, hnil, hsame, hstopped]
      rfl
  · change ((g.handled rank).member rank).phase.turns + 1 = _ at hwoken
    exact .inr (by omega)

/-- Without events there is nothing to attend to. -/
theorem attend?_of_nil (hm : g.running? rank = some m) (hevents : m.events = []) :
    g.attend? rank = none := by
  rw [attend?, hm]
  dsimp only
  rw [hevents]

/-- The first event is attended to. -/
theorem attend?_of_cons {event : Event} {events : List Event} (hm : g.running? rank = some m)
    (hevents : m.events = event :: events) :
    g.attend? rank = some (g.react rank (Member.attend { m with events } event)) := by
  rw [attend?, hm]
  dsimp only
  rw [hevents]

/-- A rank that has read its messages handles an event (`attend?`), if there is one, and is nearer
to its end. -/
theorem Turning.attend (h : g.Turning job size rank) (hrank : rank < size)
    (hread : ∀ p ∈ g.mail.inFlight, p.recipient ≠ rank) :
    ((g.attend? rank).getD g).Calm job size ∧
      (∀ p ∈ ((g.attend? rank).getD g).mail.inFlight, p.Since (rank + 1)) ∧
      (∀ q, rank ≠ q → ((g.attend? rank).getD g).member q = g.member q) ∧
      ((g.member rank).events = [] ∧ ((g.attend? rank).getD g).member rank = g.member rank ∨
        (((g.attend? rank).getD g).member rank).delay + 1 ≤ (g.member rank).delay) := by
  obtain ⟨checks, hinvariant⟩ := h.sound
  have hdesk := hinvariant.sound rank hrank
  have hrank_eq : (g.member rank).rank = rank := hdesk.rank_eq
  have hsize_eq : (g.member rank).size = size := hdesk.size_eq
  have hold : ∀ p ∈ g.mail.inFlight, p.Since (rank + 1) :=
    fun p hp => h.since p hp (hread p hp)
  cases hevents : (g.member rank).events with
  | nil =>
    rw [attend?_of_nil (h.running? hrank) hevents, Option.getD_none]
    exact ⟨h.toCalm, hold, fun _ _ => rfl, .inl ⟨rfl, rfl⟩⟩
  | cons event events =>
    have hsome := attend?_of_cons (h.running? hrank) hevents
    have hquiet := Member.quiet_attend (m := { g.member rank with events }) (h.best rank hrank)
      (h.resigned rank hrank) hsize_eq hinvariant.pos event
    obtain ⟨hcalm, hreacted⟩ := h.react g.opened_self hrank hquiet.verdict
      (fun letter hletter =>
        ⟨(hquiet.letters letter hletter).1, (hquiet.letters letter hletter).2.2⟩)
      hquiet.best hquiet.resigned ⟨_, hinvariant.attend hsome⟩
    rw [hsome, Option.getD_some]
    refine ⟨hcalm, fun p hp => ?_, fun q hq => (hreacted.member q).trans (if_neg hq), .inr ?_⟩
    · -- A letter is an old one, or the rank has just sent it to another.
      rw [hreacted.inFlight, Multiset.mem_add] at hp
      rcases hp with hp | hp
      · exact hold p hp
      · obtain ⟨letter, hletter, rfl⟩ := List.mem_map.mp hp
        exact Parcel.since_of_sender rfl
          (ne_of_ne_of_eq (hquiet.letters letter hletter).2.1 hrank_eq)
    · -- The event is gone, and the worker was left alone or woken.
      have hworking := hquiet.heard.ne_working h.settled
      have hturns : _ ≤ (g.member rank).phase.turns := hquiet.heard.turns_le.1
      have hrest : _ = events := hquiet.heard.events
      rw [hreacted.member, if_pos rfl, Member.delay_of_ne_working hworking,
        Member.delay_of_ne_working h.settled, hrest, hevents, List.length_cons]
      omega

/-- The step lemma: a turn (`Group.turn`) in which the coordinator does not end the run keeps the
group `Calm` and brings its rank nearer to its end. -/
theorem Calm.turn (h : g.Calm job size) (hrank : rank < size)
    (hsince : ∀ p ∈ g.mail.inFlight, p.Since rank)
    (hnone : (g.handled rank).conclude? rank = none) {bound : Nat} (hbound : 1 ≤ bound)
    (hdelay : (g.member rank).delay ≤ bound + 1) :
    (Group.turn false g rank).Calm job size ∧
      (∀ p ∈ (Group.turn false g rank).mail.inFlight, p.Since (rank + 1)) ∧
      (∀ q, rank ≠ q → (Group.turn false g rank).member q = g.member q) ∧
      ((Group.turn false g rank).member rank).delay ≤ bound := by
  have hturn : Group.turn false g rank =
      ((g.handled rank).attend? rank).getD (g.handled rank) := by rw [turn_eq, hnone]
  obtain ⟨hturning, hread, hothers, hle, hnil⟩ := h.handled hrank hsince
  obtain ⟨hcalm, hafter, hothers', hevent⟩ := hturning.attend hrank hread
  rw [hturn]
  refine ⟨hcalm, hafter, fun q hq => (hothers' q hq).trans (hothers q hq), ?_⟩
  rcases hevent with ⟨hevents, hsame⟩ | hevent
  · rw [hsame]
    rcases hnil hevents with hone | hless <;> omega
  · omega

end Group

end Detachment.Cluster
