import Mathlib.Algebra.Order.BigOperators.Group.Finset
import Detachment.Proofs.Ownership

/-! # Interleavings

Every step of a group keeps the invariant of its courses, so the invariant holds at the end of every
course, in whatever order the ranks take their steps.

* `Course.Invariant.work`, `Course.Invariant.attend`, `Course.Invariant.receive` and
  `Course.Invariant.conclude` are the steps, `Course.invariant_start` is the start.
* `Course.invariant_follow?` puts them together. -/

namespace Detachment.Cluster

/-- The run ends (`conclude?`) once the coordinator's worker and every other rank are done, with the
result and a letter to each peer. -/
theorem Member.conclude?_eq_some {m : Member} {r : Reaction} (h : m.conclude? = some r) :
    m.rank = coordinator ∧ m.workerDone = true ∧ m.size ≤ m.finishedPeers + 1 ∧
    r = ⟨m, m.tellPeers .terminate, .ends (some m.redundant)⟩ := by
  unfold conclude? at h
  split at h
  · next hready =>
    simp only [isCoordinator, Bool.and_eq_true, decide_eq_true_eq] at hready
    exact ⟨hready.1.1, hready.1.2, hready.2, (Option.some.inj h).symm⟩
  · cases h

namespace Course

variable {c d : Course} {g : Group} {job : Job} {size rank sender : Nat}

/-! ## Steps of a rank -/

/-- The worker of a rank goes on, and makes the checks `Group.checks`. -/
theorem Invariant.work (h : c.Invariant job size) (hg : c.group.work? rank = some g) :
    Invariant job size ⟨c.checks ++ c.group.checks (.work rank), g⟩ := by
  obtain ⟨m, n, hm, hwork, rfl⟩ := Group.work?_eq_some hg
  obtain ⟨hlt, rfl, -⟩ := Group.running?_eq_some hm
  rw [Group.checks, hm, Option.bind_some]
  exact h.advance_lasting (h.toStaffed.work (h.seats_size ▸ hlt) hwork) (.inl rfl)

/-- The communicator of a rank handles an event (`Group.attend?`), without a check. -/
theorem Invariant.attend (h : c.Invariant job size) (hg : c.group.attend? rank = some g) :
    Invariant job size ⟨c.checks ++ [], g⟩ := by
  obtain ⟨m, event, events, hm, hevents, rfl⟩ := Group.attend?_eq_some hg
  obtain ⟨hlt, rfl, -⟩ := Group.running?_eq_some hm
  exact h.advance_lasting (h.toStaffed.attend (h.seats_size ▸ hlt) hevents)
    (.inl (Member.verdict_attend _ event))

/-- The communicator of a rank handles a message (`Group.receiveFrom?`). What another rank loaded is
always the same. -/
theorem Invariant.receive (h : c.Invariant job size)
    (hg : c.group.receiveFrom? rank sender = some g) :
    Invariant job size ⟨c.checks ++ [], g⟩ := by
  obtain ⟨m, received, hm, hfirst, rfl⟩ := Group.receiveFrom?_eq_some hg
  obtain ⟨hlt, rfl, -⟩ := Group.running?_eq_some hm
  obtain ⟨hadvances, hlasting⟩ :=
    h.toStaffed.receive (h.seats_size ▸ hlt) hfirst fun _ => rfl
  exact h.advance_lasting hadvances hlasting

/-! ## The end -/

/-- There is one rank less if the coordinator does not count. -/
theorem sum_others (hpos : Member.coordinator < size) :
    ∑ q ∈ Finset.range size, (if q ≠ Member.coordinator then 1 else 0) + 1 = size := by
  have hone : ∀ q ∈ Finset.range size, (if q ≠ Member.coordinator then 1 else 0) +
      (if Member.coordinator = q then 1 else 0) = 1 := by
    intro q _
    by_cases hq : q = Member.coordinator
    · simp [hq]
    · simp [hq, Ne.symm hq]
  rw [← Finset.sum_range_add_ite hpos, Finset.sum_congr rfl hone]
  simp

/-- Every desk is closed (`Desk.isClosed`) when the coordinator ends the run: `finishedPeers` counts
the closed ones, and it has reached the number of peers. -/
theorem Invariant.isClosed_of_finished (h : c.Invariant job size)
    (hdone : (c.group.member Member.coordinator).workerDone = true)
    (hpeers : size ≤ (c.group.member Member.coordinator).finishedPeers + 1) {q : Nat}
    (hq : q < size) : (c.group.desk q).isClosed = true := by
  by_cases hzero : q = Member.coordinator
  · rw [hzero, ← h.workerDone, hdone]
  · -- The coordinator counts at most the other ranks, so it has counted each of them.
    have hle : ∀ q ∈ Finset.range size,
        (if q ≠ Member.coordinator ∧ (c.group.desk q).isClosed = true then 1 else 0) ≤
          if q ≠ Member.coordinator then 1 else 0 := by
      intro q _
      split_ifs <;> simp_all
    have hothers := sum_others h.pos
    have hsum : ∑ q ∈ Finset.range size,
        (if q ≠ Member.coordinator ∧ (c.group.desk q).isClosed = true then 1 else 0) =
        ∑ q ∈ Finset.range size, if q ≠ Member.coordinator then 1 else 0 := by
      refine le_antisymm (Finset.sum_le_sum hle) ?_
      rw [← h.finishedPeers]
      omega
    have hcounted := (Finset.sum_eq_sum_iff_of_le hle).mp hsum q (Finset.mem_range.mpr hq)
    simpa [hzero] using hcounted

/-- Once every desk is closed, the result is `Right`: no desk holds a position any more, so every
position was checked, and no backlog is left, so the books hold what was found. -/
theorem Invariant.right_of_closed (h : c.Invariant job size)
    (hclosed : ∀ q < size, (c.group.desk q).isClosed = true) :
    Right job c.checks (.result (some (c.group.member Member.coordinator).redundant)) := by
  have hchecks : ∀ position < job.size, ∃ check ∈ c.checks, check.position = position := by
    intro position hposition
    have howned := h.owned position
    rw [if_pos hposition, Finset.sum_eq_zero fun q hq => ?_, add_zero] at howned
    · have hpos : 0 < c.checks.countP (·.position = position) := by omega
      simpa using List.countP_pos_iff.mp hpos
    · exact (h.sound q (Finset.mem_range.mp hq)).holding_of_isClosed
        (hclosed q (Finset.mem_range.mp hq)) position
  refine .found _ (fun i => ?_) hchecks
  rw [← Job.mem_findings_iff hchecks i, ← h.found i, or_iff_left]
  rintro ⟨q, hq, hi⟩
  have hempty := hclosed q hq
  simp only [Desk.isClosed, Bool.and_eq_true, List.isEmpty_iff] at hempty
  rw [hempty.2] at hi
  cases hi

/-- The coordinator ends the run (`Group.conclude?`), and ends it `Right`. All ranks are closed
(`isClosed_of_finished`), so every position was checked. -/
theorem Invariant.conclude (h : c.Invariant job size) (hg : c.group.conclude? rank = some g) :
    Invariant job size ⟨c.checks ++ [], g⟩ := by
  obtain ⟨m, r, hm, hconclude, rfl⟩ := Group.conclude?_eq_some hg
  obtain ⟨hlt, rfl, -⟩ := Group.running?_eq_some hm
  have hrank : rank < size := h.seats_size ▸ hlt
  have hrank_eq : (c.group.member rank).rank = rank := (h.sound rank hrank).rank_eq
  have hsize_eq : (c.group.member rank).size = size := (h.sound rank hrank).size_eq
  obtain ⟨hzero, hdone, hpeers, rfl⟩ := Member.conclude?_eq_some hconclude
  obtain rfl : rank = Member.coordinator := hrank_eq.symm.trans hzero
  -- The last letters of the coordinator change no desk, so only the result has to be looked at.
  have hletters : ∀ letter ∈ (c.group.member Member.coordinator).tellPeers .terminate,
      ((letter.parcel Member.coordinator).Lawful job size ∧ letter.message.isHandshake = false) ∧
      (letter.parcel Member.coordinator).asker? = none ∧ letter.message.report? = none := by
    intro letter hletter
    obtain ⟨⟨hlt, hne⟩, hmessage⟩ := mem_circular hletter
    rw [hsize_eq] at hlt
    rw [hrank_eq] at hne
    simp only [Parcel.Lawful, Parcel.asker?, Letter.parcel, Message.report?, Message.isHandshake,
      hmessage]
    exact ⟨⟨⟨⟨hrank, hlt, hne.symm⟩, hne⟩, trivial⟩, trivial, trivial⟩
  refine h.advance (h.toStaffed.ignore c.group.opened_self hrank rfl
    (fun letter hletter => (hletters letter hletter).1)
    (fun letter hletter => (hletters letter hletter).2) fun _ => rfl) fun e he => ?_
  obtain rfl := Option.some.inj he
  rw [List.append_nil]
  exact h.right_of_closed fun q hq => h.isClosed_of_finished hdone (hsize_eq ▸ hpeers) hq

/-! ## Courses -/

/-- The desks of ranks that all have the same job, with no letters and no reports. -/
theorem desk_start {sharing : Sharing} (hrank : rank < size) :
    (start (List.replicate size job) sharing).group.desk rank =
      ⟨.start job sharing size rank, 0, []⟩ := by
  have hjob : (List.replicate size job)[rank]? = some job := by simp [hrank]
  rw [start, Group.desk_start hjob, List.length_replicate]

/-- The invariant holds at the start: the shares of the ranks (`Member.start`) hold each position
once, and nothing is found or finished. -/
theorem invariant_start (sharing : Sharing) (hsize : 0 < size) (hcount : job.size < Text.bound64) :
    Invariant job size (start (List.replicate size job) sharing) := by
  have hlength : (List.replicate size job).length = size := List.length_replicate
  have hmember : (start (List.replicate size job) sharing).group.member Member.coordinator =
      .start job sharing size Member.coordinator := congrArg Desk.member (desk_start hsize)
  have hopen : ∀ rank < size,
      ((start (List.replicate size job) sharing).group.desk rank).isClosed = false := by
    intro rank hrank
    rw [desk_start hrank]
    exact Desk.isClosed_of_phase (by simp [Member.start])
  have hjob : ∀ rank < (List.replicate size job).length,
      (List.replicate size job)[rank]? = some job := by
    intro rank hrank
    rw [List.getElem?_replicate, if_pos (hlength ▸ hrank)]
  constructor
  case toStaffed =>
    have hstaffed : (start (List.replicate size job) sharing).group.Staffed (fun _ => job) _ :=
      Group.staffed_start sharing (hlength.symm ▸ hsize) hjob
    rwa [hlength] at hstaffed
  case owned =>
    -- Nothing was checked, and the slices are the shares.
    intro position
    rw [← sum_copies_share hsize hcount position]
    refine (Nat.zero_add _).trans (Finset.sum_congr rfl fun rank hrank => ?_)
    rw [desk_start (Finset.mem_range.mp hrank)]
    exact Slice.copies_ofSpan _ sharing position
  case workerDone =>
    rw [hmember]
    exact (hopen _ hsize).symm
  case finishedPeers =>
    rw [hmember, Finset.sum_eq_zero fun rank hrank => ?_]
    · rfl
    · simp [hopen rank (Finset.mem_range.mp hrank)]
  case found =>
    intro i
    have hnone : ¬∃ rank < size, Event.redundant i ∈
        ((start (List.replicate size job) sharing).group.desk rank).backlog := by
      rintro ⟨rank, hrank, hi⟩
      rw [desk_start hrank] at hi
      cases hi
    rw [hmember, or_iff_left hnone]
    simp [Member.start, start]
  case ended =>
    intro rank e he
    have hnone : (start (List.replicate size job) sharing).group.ending? rank = none :=
      Group.ending?_start
    rw [hnone] at he
    cases he

/-- The step lemma: whatever step is taken (`move?`), it keeps the invariant. -/
theorem Invariant.move {move : Move} (h : c.Invariant job size) (hd : c.move? move = some d) :
    d.Invariant job size := by
  obtain ⟨g, hg, rfl⟩ := Option.map_eq_some_iff.mp hd
  cases move with
  | work rank => exact h.work hg
  | attend rank => exact h.attend hg
  | receive rank sender => exact h.receive hg
  | conclude rank => exact h.conclude hg

/-- The run lemma: the invariant holds at the end of every course (`follow?`). -/
theorem invariant_follow? {sharing : Sharing} {moves : List Move} (hsize : 0 < size)
    (hcount : job.size < Text.bound64)
    (hc : (start (List.replicate size job) sharing).follow? moves = some c) :
    c.Invariant job size :=
  follow?_induction (fun _ _ _ h hd => h.move hd) (invariant_start sharing hsize hcount) hc

end Course

end Detachment.Cluster
