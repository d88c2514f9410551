import Detachment.Proofs.Turns

/-! # Runs with a result

A group that takes turns ends with a result. As long as the coordinator has not ended the run, every
round of turns brings all ranks nearer to their ends. Once all workers have stopped and all their
events were handled, the coordinator learns of that at its next turn. Then it tells everyone, and
all runs end in the same round.

* `Group.Closing` says what holds once the coordinator has ended.
* `Group.Round` says what holds within a round of turns.
* `Group.exists_run` says that a run ends with the set of redundant indices. -/

namespace Detachment.Cluster

namespace Group

variable {g g' : Group} {job : Job} {size rank next bound : Nat} {m : Member}

/-! ## The end of the run -/

/-- What holds once the coordinator has ended: the ranks before `next` have ended, too, and the
others have stopped and were told to end. -/
structure Closing (job : Job) (size next : Nat) (g : Group) : Prop where
  sound : ∃ checks, Course.Invariant job size ⟨checks, g⟩
  found : ∃ found, g.ending? Member.coordinator = some (.result (some found))
  told : ∀ rank, Member.coordinator < rank → rank < next → g.ending? rank = some (.result none)
  running : ∀ rank, next ≤ rank → rank < size →
    g.ending? rank = none ∧ (g.member rank).phase = .stopped
  terminate : ∀ rank, next ≤ rank → rank < size →
    (∃ p ∈ g.mail.inFlight, p.recipient = rank) ∧
      ∀ p ∈ g.mail.inFlight, p.recipient = rank → p.message = .terminate

/-- When all workers have stopped, the only letters on their way go to the coordinator: no search
goes on, and a calm group sends no `.terminate`. -/
theorem Calm.recipient_eq (h : g.Calm job size)
    (hstopped : ∀ rank < size, (g.member rank).phase = .stopped) {p : Parcel}
    (hp : p ∈ g.mail.inFlight) : p.recipient = Member.coordinator := by
  obtain ⟨checks, hinvariant⟩ := h.sound
  have hquiet := h.quiet p hp
  obtain ⟨⟨hsender, hrecipient, -⟩, hmessage⟩ := hinvariant.lawful p hp
  -- A worker that has stopped is not looking for positions.
  have hasker : ∀ rank < size, p.asker? ≠ some rank := by
    intro rank hrank hasker
    have hphase : (g.desk rank).member.phase ≠ .waiting :=
      ne_of_eq_of_ne (hstopped rank hrank) Phase.noConfusion
    have herrand := ((hinvariant.sound rank hrank).resting_of_phase hphase).2
    exact Multiset.filter_eq_nil.mp herrand p hp hasker
  cases hcase : p.message with
  | handshake candidates length =>
    rw [hcase] at hmessage
    exact hmessage.1
  | abort reason =>
    rw [hcase] at hmessage
    exact hmessage.elim
  | redundant i =>
    rw [hcase] at hmessage
    exact hmessage
  | finished =>
    rw [hcase] at hmessage
    exact hmessage
  | offerRequest => exact absurd (by rw [Parcel.asker?, hcase]) (hasker _ hsender)
  | offer span => exact absurd (by rw [Parcel.asker?, hcase]) (hasker _ hrecipient)
  | claim span =>
    rw [hcase] at hquiet
    exact hquiet.elim
  | claimAnswer granted =>
    rw [hcase] at hquiet
    exact hquiet.elim
  | terminate =>
    rw [hcase] at hquiet
    exact hquiet.elim

/-- The coordinator ends the run (`conclude?`) and tells everyone, so the group is `Closing` behind
it. -/
theorem Calm.conclude (h : g.Calm job size) (hg : g.conclude? rank = some g') :
    rank = Member.coordinator ∧ g'.Closing job size (rank + 1) := by
  obtain ⟨checks, hinvariant⟩ := h.sound
  have hsound := hinvariant.conclude hg
  obtain ⟨m, r, hm, hconclude, rfl⟩ := conclude?_eq_some hg
  obtain ⟨hlt, rfl, -⟩ := running?_eq_some hm
  have hrank : rank < size := hinvariant.seats_size ▸ hlt
  have hrank_eq : (g.member rank).rank = rank := (hinvariant.sound rank hrank).rank_eq
  have hsize_eq : (g.member rank).size = size := (hinvariant.sound rank hrank).size_eq
  obtain ⟨hzero, hdone, hpeers, rfl⟩ := Member.conclude?_eq_some hconclude
  obtain rfl : rank = Member.coordinator := hrank_eq.symm.trans hzero
  -- The coordinator ends the run only when everyone has told that its worker stopped.
  have hstopped : ∀ q < size, (g.member q).phase = .stopped := by
    intro q hq
    have hclosed := hinvariant.isClosed_of_finished hdone (hsize_eq ▸ hpeers) hq
    simp only [Desk.isClosed, Bool.and_eq_true, decide_eq_true_eq] at hclosed
    exact hclosed.1
  have hcarried : ∀ letter ∈ (g.member Member.coordinator).tellPeers .terminate,
      letter.recipient < g.mail.size := by
    intro letter hletter
    rw [hinvariant.mail_size, ← hsize_eq]
    exact (mem_circular hletter).1.1
  have hreacted := reacted (r := ⟨g.member Member.coordinator,
    (g.member Member.coordinator).tellPeers .terminate,
    .ends (some (g.member Member.coordinator).redundant)⟩) hlt hcarried
  refine ⟨rfl, ⟨_, hsound⟩, ⟨_, (hreacted.ending _).trans (if_pos rfl)⟩,
    fun q hpos hlt => absurd hpos (by omega), fun q hnext hq => ?_, fun q hnext hq => ?_⟩
  · have hne : Member.coordinator ≠ q := Nat.ne_of_lt hnext
    rw [hreacted.ending, hreacted.member, if_neg hne, if_neg hne]
    exact ⟨h.running q hq, hstopped q hq⟩
  · have hne : q ≠ Member.coordinator := Nat.ne_of_gt hnext
    rw [hreacted.inFlight]
    constructor
    · -- Everyone but the coordinator gets a letter.
      have hletter : (⟨q, .terminate⟩ : Letter) ∈
          (g.member Member.coordinator).tellPeers .terminate := by
        rw [Member.tellPeers, circular, hsize_eq, hrank_eq]
        refine List.mem_map.mpr ⟨q, List.mem_filter.mpr ⟨List.mem_range.mpr hq, ?_⟩, rfl⟩
        exact decide_eq_true hne
      exact ⟨⟨Member.coordinator, q, .terminate⟩,
        Multiset.mem_add.mpr (.inr (List.mem_map.mpr ⟨_, hletter, rfl⟩)), rfl⟩
    · -- All other letters are for the coordinator.
      intro p hp hrecipient
      rcases Multiset.mem_add.mp hp with hp | hp
      · exact absurd (hrecipient.symm.trans (h.recipient_eq hstopped hp)) hne
      · obtain ⟨letter, hletter, rfl⟩ := List.mem_map.mp hp
        exact (mem_circular hletter).2

/-- A worker that has stopped does nothing more, so `settle` leaves the group as it is. -/
theorem settle_of_stopped (hm : g.running? rank = some m) (hphase : m.phase = .stopped) :
    g.settle rank = g := by
  have hnone : m.work? = none := by rw [Member.work?, hphase]
  have hself : m.settle = m := by
    rw [Member.settle]
    split
    · rfl
    · next hsome =>
      rw [hnone] at hsome
      cases hsome
  simp only [Group.settle, hm, hself]
  exact react_self hm

/-- A run that has ended does not go on. -/
theorem running?_of_ended {e : Ending} (h : g.ending? rank = some e) : g.running? rank = none := by
  cases hrunning : g.running? rank with
  | none => rfl
  | some m =>
    rw [(running?_eq_some hrunning).2.2] at h
    cases h

/-- A rank whose run has ended handles no more messages (`drain`). -/
theorem drain_of_ended (h : g.running? rank = none) (count : Nat) : drain rank count g = g := by
  cases count with
  | zero => rfl
  | succ count => rw [drain, h]

/-- At its turn, a rank whose worker has stopped handles the first message in its box. If this ends
the run, it is all that the rank does. -/
theorem turn_of_ended {first : Received} (hm : g.running? rank = some m)
    (hphase : m.phase = .stopped) (hfirst : (g.mail.box rank)[0]? = some first)
    (hended : (g.receive rank m first).running? rank = none) :
    Group.turn false g rank = g.receive rank m first := by
  obtain ⟨count, hcount⟩ : ∃ count, (g.mail.box rank).size = count + 1 :=
    Nat.exists_eq_add_one.mpr (Array.getElem?_eq_some_iff.mp hfirst).1
  have hdrain : drain rank (g.mail.box rank).size g = g.receive rank m first := by
    simp only [hcount, drain, hm, hfirst]
    exact drain_of_ended hended count
  simp only [Group.turn, Bool.false_eq_true, if_false, settle_of_stopped hm hphase, hdrain, conclude?,
    attend?, hended, Option.bind_none, Option.getD_none]

/-- A rank other than the coordinator that receives `Message.terminate` ends its run. -/
theorem receive_terminate {first : Received} (hrank : m.rank ≠ Member.coordinator)
    (hmessage : first.message = .terminate) :
    g.receive rank m first = (g.without rank first.sender).react rank ⟨m, [], .ends none⟩ := by
  rw [← Member.receive_terminate hrank first.sender, ← hmessage]
  rfl

/-- The first message in the box of a rank that was told to end is `Message.terminate`. -/
theorem Closing.exists_first (h : g.Closing job size rank) (hrank : rank < size) :
    ∃ first, (g.mail.box rank)[0]? = some first ∧ first.message = .terminate := by
  obtain ⟨checks, hinvariant⟩ := h.sound
  obtain ⟨⟨p, hp, hrecipient⟩, hterminate⟩ := h.terminate rank (Nat.le_refl _) hrank
  have hsize : 0 < (g.mail.box rank).size := by
    rw [← Mailboxes.card_filter_inFlight (hinvariant.mail_size.symm ▸ hrank), Multiset.card_pos]
    exact fun hzero => Multiset.filter_eq_nil.mp hzero p hp hrecipient
  have hfirst : (g.mail.box rank)[0]? = some (g.mail.box rank)[0] :=
    Array.getElem?_eq_getElem hsize
  exact ⟨_, hfirst,
    hterminate _ (Mailboxes.mem_inFlight_of_firstFrom? (firstFrom?_sender hfirst)) rfl⟩

/-- A rank takes a message out of its box and ends its run (`Reacted`); all other ranks are as they
were. -/
theorem Closing.step (h : g.Closing job size rank) (hpos : Member.coordinator < rank) {sender : Nat}
    {received : Received} (hfrom : g.mail.firstFrom? rank sender = some received)
    (hreacted : (g.without rank sender).Reacted rank ⟨g.member rank, [], .ends none⟩ g')
    (hsound : ∃ checks, Course.Invariant job size ⟨checks, g'⟩) :
    g'.Closing job size (rank + 1) := by
  have hended : g'.ending? rank = some (.result none) := (hreacted.ending rank).trans (if_pos rfl)
  have hothers : ∀ q, rank ≠ q → g'.ending? q = g.ending? q ∧ g'.member q = g.member q :=
    fun q hq => ⟨(hreacted.ending q).trans (if_neg hq), (hreacted.member q).trans (if_neg hq)⟩
  have hflight : g.mail.inFlight = g'.mail.inFlight + {⟨sender, rank, received.message⟩} := by
    rw [hreacted.inFlight, Mailboxes.inFlight_dropFrom hfrom]
    exact congrArg (· + _) (add_zero _).symm
  refine ⟨hsound, ?_, fun q hq hlt => ?_, fun q hnext hq => ?_, fun q hnext hq => ?_⟩
  · rw [(hothers Member.coordinator (Nat.ne_of_gt hpos)).1]
    exact h.found
  · by_cases hsame : rank = q
    · exact hsame ▸ hended
    · rw [(hothers q hsame).1]
      exact h.told q hq (by omega)
  · obtain ⟨hsame, hsame'⟩ := hothers q (Nat.ne_of_lt hnext)
    rw [hsame, hsame']
    exact h.running q (by omega) hq
  · -- The message that was read was for `rank`, and all others are still on their way.
    obtain ⟨⟨p, hp, hrecipient⟩, hall⟩ := h.terminate q (by omega) hq
    rw [hflight] at hp hall
    refine ⟨⟨p, (Multiset.mem_add.mp hp).resolve_right fun hsame => ?_, hrecipient⟩,
      fun p hp => hall p (Multiset.mem_add.mpr (.inl hp))⟩
    rw [Multiset.mem_singleton.mp hsame] at hrecipient
    exact Nat.ne_of_lt hnext hrecipient

/-- A rank that was told to end does so at its turn (`Group.turn`), and the group is `Closing`
behind it. -/
theorem Closing.turn (h : g.Closing job size rank) (hpos : Member.coordinator < rank)
    (hrank : rank < size) : (Group.turn false g rank).Closing job size (rank + 1) := by
  obtain ⟨checks, hinvariant⟩ := h.sound
  obtain ⟨hending, hphase⟩ := h.running rank (Nat.le_refl _) hrank
  obtain ⟨first, hfirst, hmessage⟩ := h.exists_first hrank
  have hlt : rank < g.seats.size := hinvariant.seats_size.symm ▸ hrank
  have hm := running?_of_ending? hlt hending
  have hzero : (g.member rank).rank ≠ Member.coordinator :=
    ne_of_eq_of_ne (hinvariant.sound rank hrank).rank_eq (Nat.ne_of_gt hpos)
  have hreacted : (g.without rank first.sender).Reacted rank ⟨g.member rank, [], .ends none⟩
      (g.receive rank (g.member rank) first) :=
    receive_terminate hzero hmessage ▸ reacted hlt (List.forall_mem_nil _)
  have hended : (g.receive rank (g.member rank) first).ending? rank = some (.result none) :=
    (hreacted.ending rank).trans (if_pos rfl)
  rw [turn_of_ended hm hphase hfirst (running?_of_ended hended)]
  exact h.step hpos (firstFrom?_sender hfirst) hreacted
    ⟨_, hinvariant.receive (receiveFrom?_sender hm hfirst)⟩

/-! ## Rounds of turns -/

/-- What holds within a round of turns when `next` has the next one: the ranks before it are nearer
to their ends (`Member.delay`) than those behind it have to be. -/
structure Round (job : Job) (size bound next : Nat) (g : Group) : Prop extends Calm job size g where
  since : ∀ p ∈ g.mail.inFlight, p.Since next
  behind : ∀ rank < next, (g.member rank).delay ≤ bound
  ahead : ∀ rank, next ≤ rank → rank < size → (g.member rank).delay ≤ bound + 1

/-- A turn (`Group.turn`) of a rank that may not be at its end yet: its delay gets smaller, or the
coordinator ends the run. -/
theorem Round.turn (h : g.Round job size bound next) (hnext : next < size) (hbound : 1 ≤ bound) :
    (Group.turn false g next).Round job size bound (next + 1) ∨
      (Group.turn false g next).Closing job size (next + 1) := by
  cases hconclude : (g.handled next).conclude? next with
  | none =>
    obtain ⟨hcalm, hsince, hothers, hdelay⟩ := h.toCalm.turn hnext h.since hconclude hbound
      (h.ahead next (Nat.le_refl _) hnext)
    refine .inl ⟨hcalm, hsince, fun rank hlt => ?_, fun rank hle hlt => ?_⟩
    · by_cases hsame : next = rank
      · exact hsame ▸ hdelay
      · rw [hothers rank hsame]
        exact h.behind rank (by omega)
    · rw [hothers rank (Nat.ne_of_lt hle)]
      exact h.ahead rank (by omega) hlt
  | some g' =>
    have hturn : Group.turn false g next = g' := by rw [turn_eq, hconclude]
    have hturning := (h.toCalm.handled hnext h.since).1
    exact .inr (hturn ▸ (hturning.toCalm.conclude hconclude).2)

/-- Once all workers have stopped and the coordinator has read everything, it ends the run: by
`Invariant` the books then count every desk as closed, which is what `conclude?` asks for. -/
theorem Calm.exists_conclude (h : g.Calm job size)
    (hread : ∀ p ∈ g.mail.inFlight, p.recipient ≠ Member.coordinator)
    (hstopped : ∀ rank < size, (g.member rank).phase = .stopped ∧ (g.member rank).events = []) :
    ∃ g', g.conclude? Member.coordinator = some g' := by
  obtain ⟨checks, hinvariant⟩ := h.sound
  have hpos := hinvariant.pos
  have hclosed : ∀ rank < size, (g.desk rank).isClosed = true := by
    intro rank hrank
    obtain ⟨hphase, hevents⟩ := hstopped rank hrank
    have hline : g.mail.line rank Member.coordinator = [] := by
      refine List.eq_nil_iff_forall_not_mem.mpr fun message hmessage => ?_
      exact hread _ (Mailboxes.mem_inFlight_of_mem_line (hinvariant.mail_size.symm ▸ hpos)
        hmessage) rfl
    simp [Desk.isClosed, Desk.backlog, desk, hphase, hevents, hline]
  have hrank_eq : (g.member Member.coordinator).rank = Member.coordinator :=
    (hinvariant.sound _ hpos).rank_eq
  have hsize_eq : (g.member Member.coordinator).size = size := (hinvariant.sound _ hpos).size_eq
  have hdone : (g.member Member.coordinator).workerDone = true :=
    hinvariant.workerDone.trans (hclosed _ hpos)
  -- Everyone who has stopped was counted, since no report is left to be read.
  have hpeers : (g.member Member.coordinator).finishedPeers + 1 = size := by
    rw [← Course.sum_others hpos]
    refine congrArg (· + 1) (hinvariant.finishedPeers.trans (Finset.sum_congr rfl fun q hq => ?_))
    simp [hclosed q (Finset.mem_range.mp hq)]
  have hready : (g.member Member.coordinator).conclude? = some ⟨g.member Member.coordinator,
      (g.member Member.coordinator).tellPeers .terminate,
      .ends (some (g.member Member.coordinator).redundant)⟩ := by
    simp [Member.conclude?, Member.isCoordinator, hrank_eq, hdone, hsize_eq, hpeers]
  exact ⟨g.react Member.coordinator _, by rw [conclude?, h.running? hpos, Option.bind_some, hready]⟩

/-- When every rank is at its end (the bound is 0), the coordinator ends the run at its turn.
All workers have stopped by then (`Member.stopped_of_delay_le`), and `exists_conclude` gives the
result. -/
theorem Round.conclude (h : g.Round job size 0 Member.coordinator) :
    (Group.turn false g Member.coordinator).Closing job size (Member.coordinator + 1) := by
  obtain ⟨checks, hinvariant⟩ := h.sound
  have hpos := hinvariant.pos
  obtain ⟨hturning, hread, hothers, hdelay, -⟩ := h.toCalm.handled hpos h.since
  have hend : ∀ rank < size, (g.member rank).delay ≤ 1 :=
    fun rank hrank => h.ahead rank (Nat.zero_le _) hrank
  have hstopped : ∀ rank < size, ((g.handled Member.coordinator).member rank).phase = .stopped ∧
      ((g.handled Member.coordinator).member rank).events = [] := by
    intro rank hrank
    refine Member.stopped_of_delay_le ?_
    by_cases hsame : Member.coordinator = rank
    · rw [← hsame]
      exact hdelay.trans (hend _ hpos)
    · rw [hothers rank hsame]
      exact hend rank hrank
  obtain ⟨g', hconclude⟩ := hturning.toCalm.exists_conclude hread hstopped
  have hturn : Group.turn false g Member.coordinator = g' := by rw [turn_eq, hconclude]
  exact hturn ▸ (hturning.toCalm.conclude hconclude).2

/-- The ranks before `next` take their turns. -/
def takeTurns (g : Group) (next : Nat) : Group :=
  (List.range next).foldl (Group.turn false) g

/-- One rank more takes its turn last. -/
theorem takeTurns_succ (g : Group) (next : Nat) :
    g.takeTurns (next + 1) = Group.turn false (g.takeTurns next) next := by
  rw [takeTurns, List.range_succ, List.foldl_append]
  rfl

/-- Once the coordinator has ended, every turn ends a run (`Closing.turn`), by induction on
`next`. -/
theorem closing_takeTurns (h : (g.takeTurns (Member.coordinator + 1)).Closing job size
    (Member.coordinator + 1)) (hpos : Member.coordinator < next) (hnext : next ≤ size) :
    (g.takeTurns next).Closing job size next := by
  induction next, hpos using Nat.le_induction with
  | base => exact h
  | succ next hle ih =>
    rw [takeTurns_succ]
    exact (ih (by omega)).turn hle hnext

/-- As long as the coordinator does not end, every turn brings a rank nearer to its end
(`Round.turn`), by induction on `next`. -/
theorem Round.takeTurns (h : g.Round job size bound 0) (hbound : 1 ≤ bound) (hnext : next ≤ size) :
    (g.takeTurns next).Round job size bound next ∨
      Member.coordinator < next ∧ (g.takeTurns next).Closing job size next := by
  induction next with
  | zero => exact .inl h
  | succ next ih =>
    rw [takeTurns_succ]
    rcases ih (by omega) with hround | ⟨hpos, hclosing⟩
    · exact (hround.turn hnext hbound).imp id fun hclosing => ⟨Nat.succ_pos next, hclosing⟩
    · exact .inr ⟨Nat.succ_pos next, hclosing.turn hpos hnext⟩

/-- After a round the next one begins, with a bound that is smaller by one. -/
theorem Round.restart (h : g.Round job size (bound + 1) size) : g.Round job size bound 0 := by
  obtain ⟨checks, hinvariant⟩ := h.sound
  refine ⟨h.toCalm, fun p hp => ⟨fun hlt => absurd hlt (Nat.not_lt_zero _), fun _ => .inl ?_⟩,
    fun rank hlt => absurd hlt (Nat.not_lt_zero _), fun rank _ hrank => h.behind rank hrank⟩
  exact ((h.since p hp).1 (hinvariant.lawful p hp).1.2.1).1

/-! ## Runs -/

/-- A rank of the group has ended if its seat says so. -/
theorem ending?_eq (hrank : rank < g.seats.size) : g.ending? rank = g.seats[rank].ending := by
  rw [ending?, Array.getElem?_eq_getElem hrank, Option.bind_some]

/-- In the end everyone has ended, so the group `isOver`. The coordinator has its result, and the
other ranks were told. -/
theorem Closing.isOver (h : g.Closing job size size) : g.isOver = true := by
  obtain ⟨checks, hinvariant⟩ := h.sound
  rw [Group.isOver, Array.all_eq_true]
  intro rank hrank
  rw [← ending?_eq hrank]
  obtain ⟨found, hfound⟩ := h.found
  rcases Nat.eq_zero_or_pos rank with rfl | hpos
  · rw [show g.ending? 0 = _ from hfound]
    rfl
  · rw [h.told rank hpos (hinvariant.seats_size ▸ hrank)]
    rfl

/-- As long as a group is `Calm`, nobody has ended. -/
theorem Calm.isOver (h : g.Calm job size) : g.isOver = false := by
  obtain ⟨checks, hinvariant⟩ := h.sound
  have hlt : Member.coordinator < g.seats.size := hinvariant.seats_size.symm ▸ hinvariant.pos
  rw [Group.isOver, Array.all_eq_false]
  refine ⟨Member.coordinator, hlt, ?_⟩
  rw [← ending?_eq hlt, h.running _ hinvariant.pos]
  exact Bool.false_ne_true

/-- A group that `isOver` stays as it is. -/
theorem rounds_of_isOver (h : g.isOver = true) (count : Nat) : rounds false count g = g := by
  cases count with
  | zero => rfl
  | succ count => rw [rounds, if_pos h]

/-- With as many `rounds` as the ranks need at most, everyone ends. The induction is on the bound,
which `Round.restart` lowers. -/
theorem Round.rounds (h : g.Round job size bound 0) {count : Nat} (hcount : bound < count) :
    (Group.rounds false count g).Closing job size size := by
  induction bound generalizing g count with
  | zero =>
    -- Everyone is at its end: the coordinator ends the run, and the others follow in this round.
    obtain ⟨count, rfl⟩ := Nat.exists_eq_succ_of_ne_zero (Nat.ne_of_gt hcount)
    obtain ⟨checks, hinvariant⟩ := h.sound
    have hfirst : (g.takeTurns (Member.coordinator + 1)).Closing job size
        (Member.coordinator + 1) := by
      rw [takeTurns_succ]
      exact h.conclude
    have hclosing := closing_takeTurns hfirst hinvariant.pos (Nat.le_refl size)
    rw [Nat.succ_eq_add_one, Group.rounds, h.isOver, if_neg Bool.false_ne_true,
      hinvariant.seats_size]
    change (Group.rounds false count (g.takeTurns size)).Closing job size size
    rwa [rounds_of_isOver hclosing.isOver]
  | succ bound ih =>
    -- A round brings every rank nearer to its end, unless the coordinator ends the run in it.
    obtain ⟨count, rfl⟩ := Nat.exists_eq_succ_of_ne_zero (Nat.ne_of_gt (Nat.zero_lt_of_lt hcount))
    obtain ⟨checks, hinvariant⟩ := h.sound
    rw [Nat.succ_eq_add_one, Group.rounds, h.isOver, if_neg Bool.false_ne_true,
      hinvariant.seats_size]
    change (Group.rounds false count (g.takeTurns size)).Closing job size size
    rcases h.takeTurns (Nat.succ_pos bound) (Nat.le_refl size) with hround | ⟨-, hclosing⟩
    · exact ih hround.restart (by omega)
    · rwa [rounds_of_isOver hclosing.isOver]

/-- At the start every rank has its share of the positions ahead, so its delay is at most
`job.size + 5`. -/
theorem round_start (job : Job) (sharing : Sharing) (hsize : 0 < size)
    (hcount : job.size < Text.bound64) :
    (start (List.replicate size job) sharing).Round job size (job.size + 4) 0 := by
  have hinvariant : Course.Invariant job size _ := Course.invariant_start sharing hsize hcount
  have hlength : 0 < (List.replicate size job).length := by rwa [List.length_replicate]
  obtain ⟨-, hflight⟩ := mem_inFlight_start (List.replicate size job) sharing hlength
  have hmember : ∀ rank < size, (start (List.replicate size job) sharing).member rank =
      .start job sharing size rank :=
    fun rank hrank => congrArg Desk.member (Course.desk_start hrank)
  refine ⟨⟨⟨[], hinvariant⟩, fun rank _ => ending?_start, fun p hp => ?_, fun rank hrank => ?_,
    fun rank hrank hwoken => ?_⟩, fun p hp => ?_, fun rank hlt => absurd hlt (Nat.not_lt_zero _),
    fun rank _ hrank => ?_⟩
  · -- Nothing but greetings is on its way, and they go to the coordinator.
    obtain ⟨job', -, -, -, hmessage⟩ := hflight p hp
    rw [hmessage]
    trivial
  · rw [hmember rank hrank]
    rfl
  · rw [hmember rank hrank] at hwoken
    cases hwoken
  · obtain ⟨job', -, hsender, hrecipient, -⟩ := hflight p hp
    rw [Parcel.Since, hrecipient]
    exact ⟨fun hlt => absurd hlt (Nat.lt_irrefl 0), fun _ => .inl (Nat.pos_of_ne_zero hsender)⟩
  · -- The share of a rank has at most as many positions as there are candidates.
    have hstop := boundary_eq hsize hcount hrank
    have hspan : (share job.size size rank).stop ≤ job.size := by
      rw [share, hstop]
      exact Nat.div_le_of_le_mul (Nat.mul_comm size _ ▸ Nat.mul_le_mul_left _ hrank)
    have hremaining : (Slice.ofSpan (share job.size size rank) sharing).remaining ≤ job.size := by
      rw [Slice.ofSpan, Slice.remaining_split]
      simp only [Slice.remaining, Span.size, Option.map_none, Option.getD_none]
      omega
    have hworkload : (Slice.ofSpan (share job.size size rank) sharing).workload ≤ job.size + 1 := by
      unfold Slice.workload
      split <;> omega
    rw [hmember rank hrank, Member.delay_of_working rfl]
    exact Nat.add_le_add_left hworkload 4 |>.trans (by omega)

/-- Ranks that were told to end (`.result none`) add nothing to the `answer`. -/
theorem answer_of_told {endings : List (Option Ending)}
    (h : ∀ ending ∈ endings, ending = some (.result none)) :
    answer endings = some (.error (.violation .noResult)) := by
  induction endings with
  | nil => rfl
  | cons ending rest ih =>
    obtain ⟨rfl, hrest⟩ := List.forall_mem_cons.mp h
    rw [answer, ih hrest]

/-- A run of a job on any number of ranks (`Group.run`) ends with the set of its redundant indices
(`Job.isRedundant`). -/
theorem exists_run (job : Job) (ranks : Nat) (sharing : Sharing)
    (hcount : job.size < Text.bound64) :
    ∃ found, run job ranks sharing false = some (.ok found) ∧
      ∀ i, i ∈ found ↔ i < job.size ∧ job.isRedundant i = true := by
  have hsize : 0 < max ranks 1 := Nat.lt_of_lt_of_le Nat.zero_lt_one (Nat.le_max_right _ _)
  have hclosing := (round_start job sharing hsize hcount).rounds
    (show job.size + 4 < job.size + 16 by omega)
  rw [run]
  generalize Group.rounds false (job.size + 16)
    (start (List.replicate (max ranks 1) job) sharing) = g at hclosing
  obtain ⟨checks, hinvariant⟩ := hclosing.sound
  obtain ⟨found, hfound⟩ := hclosing.found
  -- The coordinator has the first seat, and nobody else has a result.
  have hlength : g.seats.size = max ranks 1 := hinvariant.seats_size
  refine ⟨found, ?_, ?_⟩
  · have hseats : g.seats.toList.map (·.ending) =
        some (.result (some found)) :: (g.seats.toList.drop 1).map (·.ending) := by
      cases hlist : g.seats.toList with
      | nil =>
        rw [← Array.length_toList, hlist] at hlength
        rw [← hlength] at hsize
        cases hsize
      | cons first rest =>
        have hfirst : g.ending? Member.coordinator = first.ending := by
          rw [ending?, ← Array.getElem?_toList, hlist]
          rfl
        rw [List.map_cons, ← hfirst, hfound]
        rfl
    have htold : ∀ ending ∈ (g.seats.toList.drop 1).map (·.ending),
        ending = some (.result none) := by
      intro ending hending
      obtain ⟨seat, hseat, rfl⟩ := List.mem_map.mp hending
      obtain ⟨i, hi⟩ := List.mem_iff_getElem?.mp hseat
      rw [List.getElem?_drop, Array.getElem?_toList] at hi
      have hlt := (Array.getElem?_eq_some_iff.mp hi).1
      have hend := hclosing.told (1 + i) (Nat.lt_add_right i Nat.zero_lt_one) (hlength ▸ hlt)
      rw [ending?, hi] at hend
      exact hend
    rw [hseats, answer, answer_of_told htold]
  · cases hinvariant.ended _ _ hfound with
    | found _ hexact _ => exact hexact

end Group

end Detachment.Cluster
