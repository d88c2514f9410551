import Detachment.Proofs.Desks

/-! # Reactions at a desk

What the communicator of a rank does to the desks of a group: it carries on its own search, answers
the search of another rank, or passes a report on.

* `Desk.Sound.attendIdle`, `Desk.Sound.noteOffer` and `Desk.Sound.answerClaim` are the steps of a
  search.
* `Desk.Sound.serveOffer`, `Desk.Sound.serveClaim` and `Desk.Sound.grant` answer another rank.
* `Desk.Sound.pass` and `Desk.Sound.tail` move reports on. -/

namespace Detachment.Cluster

/-- To `wake` a worker that waits, its phase becomes `.woken`; it may learn that it is
`exhausted`. -/
theorem Member.wake_of_waiting {m : Member} (h : m.phase = .waiting) (exhausted : Bool) :
    m.wake exhausted = { m with phase := .woken, exhausted := m.exhausted || exhausted } := by
  simp [wake, h]

/-- The `better` of two offers is one of them. -/
theorem Member.better_eq_some {best : Option Offer} {new offer : Offer}
    (h : better best new = some offer) : best = some offer ∨ new = offer := by
  unfold better at h
  split at h
  · exact .inl h
  · split at h
    · exact .inr (Option.some.inj h)
    · split at h
      · exact .inr (Option.some.inj h)
      · exact .inl h

namespace Desk

variable {d e : Desk} {job : Job} {size rank sender owner pending : Nat} {q : Multiset Parcel}
  {events : List Event} {best : Option Offer} {span : Span}

/-! ## Searches -/

/-- The reaction `r` carries on the search of its rank; `q` are the letters of the search that stay
on their way. Its own letters are lawful and belong to the search (`Parcel.asker?`), the desk
`Proceeds` without news, and it holds what it held. -/
structure Searches (job : Job) (size rank : Nat) (q : Multiset Parcel) (d : Desk) (r : Reaction) :
    Prop where
  verdict : r.verdict = .goesOn
  letters : ∀ letter ∈ r.letters,
    (letter.parcel rank).Lawful job size ∧ (letter.parcel rank).asker? = some rank
  proceeds : d.Proceeds job size rank []
    ⟨r.member, q + Multiset.ofList (r.letters.map (·.parcel rank)), d.reports⟩
  holding : ∀ position,
    (Desk.mk r.member (q + Multiset.ofList (r.letters.map (·.parcel rank))) d.reports).holding
      position = d.holding position

/-- Without a grant before (`hgranted`) and after (`h`), `holding` is what is in the slice. -/
theorem holding_eq (hslice : e.member.slice = d.member.slice)
    (hgranted : ∀ position, d.granted position = 0)
    (h : ∀ p ∈ e.errand, p.message ≠ .claimAnswer true) {position : Nat} :
    e.holding position = d.holding position := by
  rw [holding, holding, hgranted, granted_eq_zero h, hslice]

/-- While the worker waits, the communicator may change its notes `pending` and `best`, and take
`.idle` from its events, if the search agrees with them (`Search`). -/
theorem Sound.note (h : d.Sound job size rank) (hphase : d.member.phase = .waiting)
    (hevents : events.filter (· ≠ .idle) = d.member.events.filter (· ≠ .idle))
    (hbest : ∀ offer, best = some offer → offer.owner < size ∧ offer.owner ≠ rank)
    (hsearch : Search { d.member with events, pending, best } q) :
    d.Proceeds job size rank [] ⟨{ d.member with events, pending, best }, q, d.reports⟩ := by
  obtain ⟨old, hold⟩ := h.backlog_of_phase (by simp [hphase])
  have hbacklog : (Desk.mk { d.member with events, pending, best } q d.reports).backlog =
      d.backlog := by
    simp only [Desk.backlog, hevents]
  refine Sound.proceeds_of_backlog
    { h with best := hbest, search := hsearch, backlog := ?_ } hbacklog Iff.rfl
    fun _ => ⟨rfl, rfl, rfl⟩
  exact .running old (by simp [hphase]) (hbacklog.trans hold)

/-- The search ends, and the worker is told that no more positions will come: it wakes up
`exhausted`. -/
theorem Sound.giveUp (h : d.Sound job size rank) (hphase : d.member.phase = .waiting)
    (hidle : events.count .idle = 0)
    (hevents : events.filter (· ≠ .idle) = d.member.events.filter (· ≠ .idle))
    (hbest : ∀ offer, best = some offer → offer.owner < size ∧ offer.owner ≠ rank)
    (hgranted : ∀ position, d.granted position = 0) :
    d.Searches job size rank 0
      ((Member.wake { d.member with events, pending, best } true).goesOn []) := by
  obtain ⟨old, hold⟩ := h.backlog_of_phase (by simp [hphase])
  rw [Member.wake_of_waiting (m := { d.member with events, pending, best }) hphase, Bool.or_true]
  have hbacklog : ∀ q, (Desk.mk { d.member with
      phase := .woken, exhausted := true, events, pending, best } q d.reports).backlog =
      d.backlog := by
    simp only [Desk.backlog, hevents, implies_true]
  refine ⟨rfl, List.forall_mem_nil _, ?_, ?_⟩
  · refine Sound.proceeds_of_backlog { h with
      usedUp := fun _ => h.usedUp (.inl hphase), exhausted := fun _ => .inl rfl, stopped := ?_,
      best := hbest, search := ?_, backlog := ?_ } (hbacklog _) ?_ fun _ => ⟨rfl, rfl, rfl⟩
    · simp [Member.goesOn]
    · exact .resting (by simp [Member.goesOn]) hidle rfl
    · exact .running old (by simp [Member.goesOn]) ((hbacklog _).trans hold)
    · simp [Member.goesOn, hphase]
  · refine fun position => holding_eq ?_ hgranted (by simp [Member.goesOn])
    rfl

/-- The communicator asks every other rank (`Member.askPeers`), or gives up if there is none. The
requests are as many as `pending` says afterwards, so the search is `.asking`. -/
theorem Sound.askPeers (h : d.Sound job size rank) (hphase : d.member.phase = .waiting)
    (hidle : events.count .idle = 0)
    (hevents : events.filter (· ≠ .idle) = d.member.events.filter (· ≠ .idle))
    (hbest : ∀ offer, best = some offer → offer.owner < size ∧ offer.owner ≠ rank)
    (hgranted : ∀ position, d.granted position = 0) :
    d.Searches job size rank 0 (Member.askPeers { d.member with events, best }) := by
  unfold Member.askPeers
  split
  · exact h.giveUp hphase hidle hevents hbest hgranted
  · next hsize =>
    -- Every other rank gets a request, so there are as many letters as answers to wait for.
    have hletter : ∀ letter ∈ circular d.member.size d.member.rank .offerRequest,
        letter.recipient < size ∧ letter.recipient ≠ rank ∧ letter.message = .offerRequest := by
      intro letter hletter
      obtain ⟨⟨hlt, hne⟩, hmessage⟩ := mem_circular hletter
      exact ⟨h.size_eq ▸ hlt, h.rank_eq ▸ hne, hmessage⟩
    have hparcel : ∀ p ∈ (0 : Multiset Parcel) + Multiset.ofList
        ((circular d.member.size d.member.rank .offerRequest).map (·.parcel rank)),
        p.message = .offerRequest := by
      intro p hp
      rw [zero_add, Multiset.mem_coe, List.mem_map] at hp
      obtain ⟨letter, hmem, rfl⟩ := hp
      exact (hletter letter hmem).2.2
    refine ⟨rfl, fun letter hmem => ?_, ?_, fun position => ?_⟩
    · obtain ⟨hlt, hne, hmessage⟩ := hletter letter hmem
      simp only [Parcel.Lawful, Parcel.asker?, Letter.parcel, hmessage]
      exact ⟨⟨⟨h.rank_lt, hlt, hne.symm⟩, trivial⟩, trivial⟩
    · refine h.note hphase hevents (by simp) (.asking hphase hidle ?_ ?_ ?_)
      · exact fun p hp => .inl (hparcel p hp)
      · simp only [zero_add, Multiset.coe_card, List.length_map]
        refine length_circular ?_ _
        rw [h.rank_eq, h.size_eq]
        exact h.rank_lt
      · simp only at hsize ⊢
        omega
    · refine holding_eq ?_ hgranted fun p hp => ?_
      · rfl
      · rw [hparcel p hp]
        simp

/-- The communicator notices that the worker waits: it handles `.idle`, for which the search was
`.unnoticed`. -/
theorem Sound.attendIdle (h : d.Sound job size rank) (hevents : d.member.events = .idle :: events) :
    d.errand = 0 ∧ d.Searches job size rank 0 (Member.attend { d.member with events } .idle) := by
  have hcount : d.member.events.count .idle = events.count .idle + 1 := by simp [hevents]
  -- The event is in the queue only before the search starts.
  obtain ⟨hphase, hidle, herrand⟩ :
      d.member.phase = .waiting ∧ d.member.events.count .idle = 1 ∧ d.errand = 0 := by
    cases h.search with
    | resting _ hidle _ => omega
    | unnoticed hphase hidle hq => exact ⟨hphase, hidle, hq⟩
    | asking _ hidle _ _ _ => omega
    | claiming _ _ hidle _ _ => omega
    | answered _ _ _ hidle _ _ => omega
  refine ⟨herrand, h.askPeers hphase (by omega) ?_ h.best (granted_eq_zero (by simp [herrand]))⟩
  simp [hevents]

/-- An offer is noted (`Member.noteOffer`). After the last one, the best is asked for, or the search
is given up if there is none. -/
theorem Sound.noteOffer (h : d.Sound job size rank)
    (herrand : d.errand = q + {⟨sender, rank, .offer span⟩})
    (hsender : sender < size ∧ sender ≠ rank) :
    d.Searches job size rank q (d.member.noteOffer ⟨sender, span⟩) := by
  obtain ⟨hphase, hidle, hq, hpending⟩ := (herrand ▸ h.search).of_offer (.inr ⟨span, rfl⟩)
  have hother : ∀ p ∈ q, p.message ≠ .claimAnswer true := by
    intro p hp
    rcases hq p hp with hp | ⟨span, hp⟩ <;> rw [hp] <;> simp
  have hgranted : ∀ position, d.granted position = 0 := by
    refine granted_eq_zero fun p hp => ?_
    rcases Multiset.mem_add.mp (herrand ▸ hp) with hp | hp
    · exact hother p hp
    · rw [Multiset.mem_singleton.mp hp]
      simp
  have hbest : ∀ offer, Member.better d.member.best ⟨sender, span⟩ = some offer →
      offer.owner < size ∧ offer.owner ≠ rank := by
    intro offer hoffer
    rcases Member.better_eq_some hoffer with hold | rfl
    · exact h.best offer hold
    · exact hsender
  simp only [Member.noteOffer]
  split
  · next hmore =>
    refine ⟨rfl, List.forall_mem_nil _, h.note hphase rfl hbest (.asking hphase hidle ?_ ?_ ?_), ?_⟩
    · simpa [Member.goesOn] using hq
    · simp only [Member.goesOn, List.map_nil, Multiset.coe_nil, add_zero]
      omega
    · exact Nat.pos_of_ne_zero hmore
    · refine fun position => holding_eq ?_ hgranted (by simpa [Member.goesOn] using hother)
      rfl
  · next hlast =>
    -- That was the last answer, so no letter of the search is left.
    obtain rfl : q = 0 := by
      rw [← Multiset.card_eq_zero]
      omega
    split
    · next offer hoffer =>
      obtain ⟨hlt, hne⟩ := hbest offer hoffer
      refine ⟨rfl, ?_, h.note hphase rfl hbest (.claiming offer hphase hidle hoffer ?_), ?_⟩
      · simp only [Member.goesOn, List.mem_singleton, forall_eq]
        exact ⟨⟨⟨h.rank_lt, hlt, hne.symm⟩, trivial⟩, rfl⟩
      · simp [Member.goesOn, Letter.parcel, h.rank_eq]
      · refine fun position => holding_eq ?_ hgranted (by simp [Member.goesOn, Letter.parcel])
        rfl
    · exact h.giveUp hphase hidle rfl hbest hgranted

/-- The span asked for is taken over, or the communicator asks again (`Member.answerClaim`). What
was `granted` to the desk is then in its slice, so `holding` stays the same. -/
theorem Sound.answerClaim {granted : Bool} (h : d.Sound job size rank)
    (herrand : d.errand = q + {⟨sender, rank, .claimAnswer granted⟩}) :
    d.Searches job size rank q (d.member.answerClaim granted) := by
  obtain ⟨hphase, hidle, ⟨span, hbest⟩, rfl⟩ := (herrand ▸ h.search).of_claimAnswer
  have husedUp := h.usedUp (.inl hphase)
  unfold Member.answerClaim
  cases granted with
  | false =>
    exact h.askPeers hphase hidle rfl (by simp) (granted_eq_zero (by simp [herrand]))
  | true =>
    -- The worker waits, so its slice is used up and the span can be taken over.
    obtain ⟨old, hold⟩ := h.backlog_of_phase (by simp [hphase])
    simp only [hbest, Slice.adopt?_of_isUsedUp husedUp, Bool.not_true, Bool.false_eq_true, if_false]
    rw [Member.wake_of_waiting (m := { d.member with
      slice := .ofSpan span d.member.slice.sharing, best := none }) hphase, Bool.or_false]
    have hexhausted := h.exhausted_of_phase (.inr hphase)
    refine ⟨rfl, List.forall_mem_nil _, ?_, fun position => ?_⟩
    · refine Sound.proceeds_of_backlog { h with
        tidy := Slice.tidy_ofSpan _ _, usedUp := ?_, exhausted := ?_, stopped := ?_, best := ?_,
        search := .resting ?_ hidle rfl, backlog := .running old ?_ hold } rfl ?_
        fun _ => ⟨rfl, rfl, rfl⟩
      · simp [Member.goesOn, hexhausted]
      · exact fun he => absurd he hexhausted
      -- The rest says that the worker is woken and that no offer is kept.
      all_goals simp [Member.goesOn, hphase]
    · -- The granted span was held besides the empty slice; now it is the slice.
      simp [Desk.holding, Desk.granted, Member.goesOn, Slice.copies_ofSpan, hbest, herrand, h.rank_eq,
        Slice.copies_of_isUsedUp husedUp]

/-! ## Answering another rank -/

/-- At the desk of the rank that asked, the answer `.offer span` takes the place of
`.offerRequest`. -/
theorem Sound.serveOffer (h : d.Sound job size rank)
    (herrand : d.errand = q + {⟨rank, owner, .offerRequest⟩}) (span : Span) :
    d.Proceeds job size rank [] ⟨d.member, q + {⟨owner, rank, .offer span⟩}, d.reports⟩ ∧
    ∀ position, (Desk.mk d.member (q + {⟨owner, rank, .offer span⟩}) d.reports).holding position =
      d.holding position := by
  obtain ⟨hphase, hidle, hq, hpending⟩ := (herrand ▸ h.search).of_offer (.inl rfl)
  have hall : ∀ p ∈ q + {⟨owner, rank, .offer span⟩},
      p.message = .offerRequest ∨ ∃ span, p.message = .offer span := by
    intro p hp
    rcases Multiset.mem_add.mp hp with hp | hp
    · exact hq p hp
    · rw [Multiset.mem_singleton.mp hp]
      exact .inr ⟨span, rfl⟩
  refine ⟨Sound.proceeds_of_backlog { h with
    search := .asking hphase hidle hall (by simpa using hpending) (by simp only; omega) } rfl
    Iff.rfl fun _ => ⟨rfl, rfl, rfl⟩, fun position => holding_eq ?_ ?_ fun p hp => ?_⟩
  · rfl
  · refine granted_eq_zero fun p hp => ?_
    rcases Multiset.mem_add.mp (herrand ▸ hp) with hp | hp
    · rcases hq p hp with hp | ⟨span, hp⟩ <;> rw [hp] <;> simp
    · rw [Multiset.mem_singleton.mp hp]
      simp
  · rcases hall p hp with hp | ⟨span, hp⟩ <;> rw [hp] <;> simp

/-- At the desk of the rank that asked, `.claimAnswer granted` takes the place of `.claim span`; a
span that is granted is held from then on. -/
theorem Sound.serveClaim (h : d.Sound job size rank)
    (herrand : d.errand = q + {⟨rank, owner, .claim span⟩}) (granted : Bool) :
    d.Proceeds job size rank []
      ⟨d.member, q + {⟨owner, rank, .claimAnswer granted⟩}, d.reports⟩ ∧
    ∀ position, (Desk.mk d.member (q + {⟨owner, rank, .claimAnswer granted⟩}) d.reports).holding
      position = d.holding position + if granted then span.copies position else 0 := by
  obtain ⟨hphase, hidle, hbest, rfl⟩ := (herrand ▸ h.search).of_claim
  refine ⟨Sound.proceeds_of_backlog { h with
    search := .answered ⟨owner, span⟩ granted hphase hidle hbest (by simp [h.rank_eq]) } rfl
    Iff.rfl fun _ => ⟨rfl, rfl, rfl⟩, fun position => ?_⟩
  cases granted <;>
    simp [Desk.holding, Desk.granted, hbest, herrand, h.rank_eq]

/-- A span that `Slice.grant` gives away leaves the slice, and the desk holds its positions no
longer. -/
theorem Sound.grant {granted : Bool} {slice : Slice} (h : d.Sound job size rank)
    (hgrant : d.member.slice.grant span = (granted, slice)) :
    d.Proceeds job size rank [] ⟨{ d.member with slice }, d.errand, d.reports⟩ ∧
    ∀ position, d.holding position =
      (Desk.mk { d.member with slice } d.errand d.reports).holding position +
        if granted then span.copies position else 0 := by
  cases granted with
  | false =>
    obtain rfl := Slice.eq_of_grant hgrant
    exact ⟨h.proceeds, fun position => rfl⟩
  | true =>
    obtain ⟨htidy, hcopies⟩ := Slice.copies_grant hgrant
    refine ⟨Sound.proceeds_of_backlog { h with
      tidy := htidy, usedUp := fun hdry => ?_, search := h.search.congr rfl rfl rfl rfl rfl } rfl
      Iff.rfl fun _ => ⟨rfl, rfl, rfl⟩, fun position => ?_⟩
    · -- A slice that is used up has no reserve to give away.
      rw [Slice.grant_of_isUsedUp (h.usedUp hdry)] at hgrant
      cases hgrant
    · have hposition := hcopies position
      simp only [Desk.holding, Desk.granted, if_true] at hposition ⊢
      omega

/-! ## Reports -/

variable {event : Event} {reports : List Event}

/-- The first event leaves the queue without a change to the `Search`, unless it is `.idle`. -/
theorem Sound.search_tail (h : d.Sound job size rank) (hevents : d.member.events = event :: events)
    (hevent : event ≠ .idle) (workerDone : Bool) (redundant : IndexSet) :
    Search { d.member with events, workerDone, redundant } d.errand := by
  refine h.search.congr rfl ?_ rfl rfl rfl
  simp [hevents, hevent]

/-- A rank other than the coordinator passes an event on: it goes from the queue to the end of
`reports`, so the backlog stays the same. -/
theorem Sound.pass (h : d.Sound job size rank) (hrank : rank ≠ Member.coordinator)
    (hevents : d.member.events = event :: events) (hevent : event ≠ .idle) (workerDone : Bool) :
    d.Proceeds job size rank []
      ⟨{ d.member with events, workerDone }, d.errand, d.reports ++ [event]⟩ := by
  have hbacklog : (Desk.mk { d.member with events, workerDone } d.errand
      (d.reports ++ [event])).backlog = d.backlog := by
    simp [Desk.backlog, hevents, hevent]
  exact Sound.proceeds_of_backlog { h with
    search := h.search_tail hevents hevent workerDone d.member.redundant,
    backlog := hbacklog ▸ h.backlog,
    coordinator := fun heq => absurd heq hrank } hbacklog Iff.rfl fun heq => absurd heq hrank

/-- Something is entered into the books: the desk holds what it held (`holding`), and its worker
does what it did (`phase`). -/
structure Keeps (job : Job) (size rank : Nat) (d e : Desk) : Prop where
  sound : e.Sound job size rank
  phase : e.member.phase = d.member.phase
  holding : ∀ position, e.holding position = d.holding position

/-- A desk may stay as it is. -/
theorem Sound.keeps (h : d.Sound job size rank) : d.Keeps job size rank d :=
  ⟨h, rfl, fun _ => rfl⟩

/-- Whether a desk is closed (`isClosed`) depends on its phase and its backlog. -/
theorem Keeps.isClosed_eq (h : d.Keeps job size rank e) (hbacklog : e.backlog = d.backlog) :
    e.isClosed = d.isClosed := by
  rw [isClosed, h.phase, hbacklog, isClosed]

/-- The coordinator enters an event of its own worker into its books, and the event leaves the
backlog. -/
theorem Sound.enter (h : d.Sound job size rank) (hrank : rank = Member.coordinator)
    (hevents : d.member.events = event :: events) (hevent : event ≠ .idle) (workerDone : Bool)
    (redundant : IndexSet) :
    d.Keeps job size rank
      ⟨{ d.member with events, workerDone, redundant }, d.errand, d.reports⟩ ∧
    d.backlog = event ::
      (Desk.mk { d.member with events, workerDone, redundant } d.errand d.reports).backlog := by
  have hbacklog : d.backlog = event ::
      (Desk.mk { d.member with events, workerDone, redundant } d.errand d.reports).backlog := by
    simp [Desk.backlog, h.coordinator hrank, hevents, hevent]
  refine ⟨⟨{ h with search := h.search_tail hevents hevent workerDone redundant, backlog := ?_ },
    rfl, fun _ => rfl⟩, hbacklog⟩
  exact (hbacklog ▸ h.backlog).tail.1

/-- The coordinator reads the first report of another rank, which leaves the backlog of that
rank. -/
theorem Sound.read (h : d.Sound job size rank) (hreports : d.reports = event :: reports) :
    d.Keeps job size rank ⟨d.member, d.errand, reports⟩ ∧
    d.backlog = event :: (Desk.mk d.member d.errand reports).backlog := by
  have hbacklog : d.backlog = event :: (Desk.mk d.member d.errand reports).backlog := by
    simp [Desk.backlog, hreports]
  refine ⟨⟨{ h with backlog := (hbacklog ▸ h.backlog).tail.1, coordinator := fun heq => ?_ },
    rfl, fun _ => rfl⟩, hbacklog⟩
  rw [h.coordinator heq] at hreports
  cases hreports

/-- The coordinator enters what it reads into its books, which are no part of what a desk holds. -/
theorem Sound.enterReport (h : d.Sound job size rank) (redundant : IndexSet) (finishedPeers : Nat) :
    d.Keeps job size rank
      ⟨{ d.member with redundant, finishedPeers }, d.errand, d.reports⟩ :=
  ⟨{ h with search := h.search.congr rfl rfl rfl rfl rfl }, rfl, fun _ => rfl⟩

/-- A desk is closed (`isClosed`) by the news that the worker has stopped, which is the last of its
`Backlog`. -/
theorem Sound.isClosed_tail (h : d.Sound job size rank) (hbacklog : d.backlog = event :: e.backlog)
    (hphase : e.member.phase = d.member.phase) :
    d.isClosed = false ∧ (e.isClosed = true ↔ event = .stopped) := by
  have hshorter : Backlog d.member.phase (event :: e.backlog) := hbacklog ▸ h.backlog
  refine ⟨isClosed_of_backlog (by simp [hbacklog]), ?_⟩
  rw [← hshorter.tail.2]
  simp [Desk.isClosed, hphase]

end Desk

end Detachment.Cluster
