import Detachment.Proofs.GroupSteps

/-! # Who holds which position

In a group whose ranks all have the same job, every position was checked by one rank or is held by
one desk, however the steps of the ranks interleave; and the coordinator's books agree with the
desks.

* `Course.Right job checks e` says how a run may end.
* `Course.Invariant job size c` is what holds of every course.
* `Course.Invariant.advance` says that everything that advances the group (`Group.Advances`) keeps
  it. -/

namespace Detachment.Cluster

namespace Course

variable {c : Course} {job : Job} {size : Nat}

/-! ## The invariant -/

/-- How a run may end: the coordinator has found exactly the redundant indices, and every position
was checked. -/
inductive Right (job : Job) (checks : List Check) : Ending → Prop where
  /-- A rank was told that the run is over. -/
  | told : Right job checks (.result none)
  /-- The coordinator has its result. -/
  | found (found : IndexSet) (hfound : ∀ i, i ∈ found ↔ i < job.size ∧ job.isRedundant i = true)
      (hchecks : ∀ position < job.size, ∃ check ∈ checks, check.position = position) :
      Right job checks (.result (some found))

/-- What is `Right` after some `checks` stays so after more of them. -/
theorem Right.append {checks : List Check} {e : Ending} (h : Right job checks e)
    (new : List Check) : Right job (checks ++ new) e := by
  cases h with
  | told => exact .told
  | found found hfound hchecks =>
    refine .found found hfound fun position hposition => ?_
    obtain ⟨check, hcheck, heq⟩ := hchecks position hposition
    exact ⟨check, List.mem_append_left new hcheck, heq⟩

/-- What every step of a group keeps whose ranks all have the job `job`: the group is `Staffed`,
every position is `owned`, and the coordinator's books agree with the desks. -/
structure Invariant (job : Job) (size : Nat) (c : Course) : Prop
    extends Group.Staffed (fun _ => job) size c.group where
  -- Every position was checked once or is held once.
  owned : ∀ position, c.checks.countP (·.position = position) +
    ∑ rank ∈ Finset.range size, (c.group.desk rank).holding position =
      if position < job.size then 1 else 0
  -- The coordinator's books count the closed desks, and hold what was found and is not on its way.
  workerDone : (c.group.member Member.coordinator).workerDone =
    (c.group.desk Member.coordinator).isClosed
  finishedPeers : (c.group.member Member.coordinator).finishedPeers =
    ∑ rank ∈ Finset.range size,
      if rank ≠ Member.coordinator ∧ (c.group.desk rank).isClosed = true then 1 else 0
  found : ∀ i, (i ∈ (c.group.member Member.coordinator).redundant ∨
      ∃ rank < size, Event.redundant i ∈ (c.group.desk rank).backlog) ↔
    i ∈ c.checks.flatMap (job.findings ·.position)
  ended : ∀ rank e, c.group.ending? rank = some e → Right job c.checks e

/-! ## Steps -/

variable {g₀ g' : Group} {rank : Nat} {r : Reaction} {new : List Check}

/-- A run that ended before a reaction ended `Right`, and the reaction may end one more. -/
theorem Invariant.ended_reacted (h : c.Invariant job size) (ho : c.group.Opened g₀)
    (hreacted : g₀.Reacted rank r g')
    (hverdict : ∀ e, r.verdict.ending? none = some e → Right job (c.checks ++ new) e) :
    ∀ q e, g'.ending? q = some e → Right job (c.checks ++ new) e := by
  intro q e he
  rw [hreacted.ending] at he
  split at he
  · exact hverdict e he
  · rw [Group.ending?, ho.seats] at he
    exact (h.ended q e he).append new

/-- The invariant holds after `Group.Change.proceed`: the positions that the desks do not hold any
more are those that were checked, and the books stay as they are. -/
theorem Invariant.proceed (h : c.Invariant job size) (hstaffed : g'.Staffed (fun _ => job) size)
    (hended : ∀ q e, g'.ending? q = some e → Right job (c.checks ++ new) e) {found : Nat → List Nat}
    (hdesk : ∀ q < size, (c.group.desk q).Proceeds job size q (found q) (g'.desk q))
    (hfound : ∀ i, (∃ q < size, i ∈ found q) ↔ i ∈ new.flatMap (job.findings ·.position))
    (hholding : ∀ position,
      ∑ q ∈ Finset.range size, (c.group.desk q).holding position =
        ∑ q ∈ Finset.range size, (g'.desk q).holding position +
          new.countP (·.position = position)) :
    Invariant job size ⟨c.checks ++ new, g'⟩ := by
  obtain ⟨hredundant, hdone, hpeers⟩ := (hdesk Member.coordinator h.pos).books rfl
  have hclosed : ∀ q < size, (g'.desk q).isClosed = (c.group.desk q).isClosed :=
    fun q hq => (hdesk q hq).isClosed
  refine ⟨hstaffed, fun position => ?_, ?_, ?_, fun i => ?_, hended⟩
  · have howned := h.owned position
    rw [hholding position] at howned
    simp only [List.countP_append]
    omega
  · exact hdone.trans (h.workerDone.trans (hclosed _ h.pos).symm)
  · refine hpeers.trans (h.finishedPeers.trans (Finset.sum_congr rfl fun q hq => ?_))
    rw [hclosed q (Finset.mem_range.mp hq)]
  · rw [List.flatMap_append, List.mem_append, ← h.found i, ← hfound i]
    have hannounced : (∃ q < size, Event.redundant i ∈ (g'.desk q).backlog) ↔
        (∃ q < size, Event.redundant i ∈ (c.group.desk q).backlog) ∨ ∃ q < size, i ∈ found q := by
      constructor
      · rintro ⟨q, hq, hi⟩
        rcases ((hdesk q hq).announced i).mp hi with hi | hi
        · exact .inl ⟨q, hq, hi⟩
        · exact .inr ⟨q, hq, hi⟩
      · rintro (⟨q, hq, hi⟩ | ⟨q, hq, hi⟩)
        · exact ⟨q, hq, ((hdesk q hq).announced i).mpr (.inl hi)⟩
        · exact ⟨q, hq, ((hdesk q hq).announced i).mpr (.inr hi)⟩
    have hbooks : (g'.member Member.coordinator).redundant =
        (c.group.member Member.coordinator).redundant := hredundant
    rw [hbooks, hannounced, or_assoc]

/-- The invariant holds after `Group.Change.settle`: an event goes from the backlog of the rank `s`
into the coordinator's books, and the desks hold what they held. -/
theorem Invariant.settle (h : c.Invariant job size) (hstaffed : g'.Staffed (fun _ => job) size)
    (hended : ∀ q e, g'.ending? q = some e → Right job c.checks e) {s : Nat} {event : Event}
    (hs : s < size) (hkeeps : ∀ q < size, (c.group.desk q).Keeps job size q (g'.desk q))
    (hbacklog : (c.group.desk s).backlog = event :: (g'.desk s).backlog)
    (hothers : ∀ q < size, q ≠ s → (g'.desk q).backlog = (c.group.desk q).backlog)
    (hredundant : ∀ i, i ∈ (g'.member Member.coordinator).redundant ↔
      i ∈ (c.group.member Member.coordinator).redundant ∨ event = .redundant i)
    (hdone : (g'.member Member.coordinator).workerDone =
      ((c.group.member Member.coordinator).workerDone ||
        decide (s = Member.coordinator ∧ event = .stopped)))
    (hpeers : (g'.member Member.coordinator).finishedPeers =
      (c.group.member Member.coordinator).finishedPeers +
        if s ≠ Member.coordinator ∧ event = .stopped then 1 else 0) :
    Invariant job size ⟨c.checks, g'⟩ := by
  obtain ⟨hopen, hclosed⟩ := (h.sound s hs).isClosed_tail hbacklog (hkeeps s hs).phase
  have hsame : ∀ q < size, q ≠ s → (g'.desk q).isClosed = (c.group.desk q).isClosed :=
    fun q hq hne => (hkeeps q hq).isClosed_eq (hothers q hq hne)
  refine ⟨hstaffed, fun position => ?_, ?_, ?_, fun i => ?_, hended⟩
  · rw [← h.owned position]
    congr 1
    exact Finset.sum_congr rfl fun q hq => (hkeeps q (Finset.mem_range.mp hq)).holding position
  · rw [hdone, h.workerDone]
    by_cases hzero : s = Member.coordinator
    · rw [← hzero, hopen, Bool.false_or, Bool.eq_iff_iff, hclosed]
      simp
    · simp only [hzero, false_and, decide_false, Bool.or_false]
      exact (hsame Member.coordinator h.pos (Ne.symm hzero)).symm
  · -- Only the rank whose backlog gets shorter may count as finished now.
    rw [hpeers, h.finishedPeers, ← Finset.sum_range_add_ite hs]
    refine Finset.sum_congr rfl fun q hq => ?_
    by_cases hq' : s = q
    · subst hq'
      simp [hopen, hclosed]
    · simp [hq', hsame q (Finset.mem_range.mp hq) (Ne.symm hq')]
  · have hmoved : (∃ q < size, Event.redundant i ∈ (c.group.desk q).backlog) ↔
        event = .redundant i ∨ ∃ q < size, Event.redundant i ∈ (g'.desk q).backlog := by
      constructor
      · rintro ⟨q, hq, hi⟩
        by_cases hq' : q = s
        · subst hq'
          rw [hbacklog, List.mem_cons] at hi
          exact hi.imp Eq.symm fun hi => ⟨q, hq, hi⟩
        · exact .inr ⟨q, hq, hothers q hq hq' ▸ hi⟩
      · rintro (rfl | ⟨q, hq, hi⟩)
        · exact ⟨s, hs, hbacklog ▸ List.mem_cons_self⟩
        · by_cases hq' : q = s
          · subst hq'
            exact ⟨q, hq, hbacklog ▸ List.mem_cons_of_mem event hi⟩
          · exact ⟨q, hq, hothers q hq hq' ▸ hi⟩
    rw [← h.found i, hredundant, hmoved, or_assoc]

/-- Whatever advances a group (`Group.Advances`) keeps the `Invariant`, if a run that ends by it
ends `Right`. -/
theorem Invariant.advance (h : c.Invariant job size)
    (ha : Group.Advances (fun _ => job) size rank r new c.group g₀ g')
    (hverdict : ∀ e, r.verdict.ending? none = some e → Right job (c.checks ++ new) e) :
    Invariant job size ⟨c.checks ++ new, g'⟩ := by
  have hstaffed := h.toStaffed.advance ha
  have hended := h.ended_reacted ha.opened ha.reacted hverdict
  cases ha.change with
  | proceed found hdesk hfound hholding => exact h.proceed hstaffed hended hdesk hfound hholding
  | settle hs hkeeps hbacklog hothers hredundant hdone hpeers =>
    rw [List.append_nil] at hended ⊢
    exact h.settle hstaffed hended hs hkeeps hbacklog hothers hredundant hdone hpeers

/-- The invariant is kept by a step after which the run of the rank goes on, or the rank was told to
end it (`Reaction.Lasting`). -/
theorem Invariant.advance_lasting (h : c.Invariant job size)
    (ha : Group.Advances (fun _ => job) size rank r new c.group g₀ g') (hlasting : r.Lasting rank) :
    Invariant job size ⟨c.checks ++ new, g'⟩ := by
  refine h.advance ha fun e he => ?_
  rcases hlasting with hverdict | ⟨-, hverdict⟩
  · rw [hverdict] at he
    cases he
  · rw [hverdict] at he
    obtain rfl := Option.some.inj he
    exact .told

end Course

end Detachment.Cluster
