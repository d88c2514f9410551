import Mathlib
import Detachment.Proofs.Interleavings

/-! # The filter is exact

However the ranks of a group interleave, every position is in one place: a rank has checked it, it
is in the active span or the reserve of a rank, or it was granted to a rank that has not taken it
over. So the coordinator's result is the set of redundant indices.

* `Course.places` lists the places of a position.
* `Course.filter_exact` is the main result.

Mathlib is imported whole for the equations by which `cbv` evaluates whole courses. -/

namespace Detachment.Cluster

/-- A place where a position can be. -/
inductive Place where
  /-- A rank has checked it. -/
  | checked (rank : Nat)
  /-- It is in the active span of a rank. -/
  | active (rank : Nat)
  /-- It is in the reserve of a rank. -/
  | reserve (rank : Nat)
  /-- Its owner has granted it to a rank that has not taken it over yet. -/
  | granted (owner rank : Nat)
  deriving DecidableEq, Repr

/-- The places of a position in the slice of a rank: its `active` span and its `reserve`. -/
def Slice.places (s : Slice) (position rank : Nat) : List Place :=
  (if position ∈ s.active then [.active rank] else []) ++
    match s.reserve with
    | some span => if position ∈ span then [.reserve rank] else []
    | none => []

namespace Group

/-- The grants of a position that are on their way to a rank, one for each `.claimAnswer true` in
its box from the owner of its `best` offer. -/
def grants (g : Group) (best : Option Offer) (position rank : Nat) : List Place :=
  match best with
  | some offer =>
    if position ∈ offer.span then
      ((g.mail.box rank).toList.filter (· = ⟨offer.owner, .claimAnswer true⟩)).map
        fun _ => .granted offer.owner rank
    else []
  | none => []

/-- The places of a position at a rank, in its slice or on the way to it (`grants`). -/
def places (g : Group) (position rank : Nat) : List Place :=
  match g.seats[rank]? with
  | some ⟨m, _⟩ => m.slice.places position rank ++ g.grants m.best position rank
  | none => []

end Group

namespace Course

variable {c : Course} {job : Job} {size rank : Nat} {sharing : Sharing} {moves : List Move}

/-- All places of a position: the checks of it, and its places at the ranks. -/
def places (c : Course) (position : Nat) : List Place :=
  (c.checks.filter (·.position = position)).map (fun check => .checked check.rank) ++
    (List.range c.group.seats.size).flatMap (c.group.places position)

/-- Whether the coordinator has its result, and not only ended. -/
def isComplete (c : Course) : Bool :=
  match c.group.ending? Member.coordinator with
  | some (.result (some _)) => true
  | _ => false

/-- A course that `isComplete` has a result. -/
theorem exists_result_of_isComplete (h : c.isComplete = true) :
    ∃ found, c.group.ending? Member.coordinator = some (.result (some found)) := by
  unfold isComplete at h
  split at h
  · next found heq => exact ⟨found, heq⟩
  · cases h

/-! ## Counting places -/

/-- A slice has as many places for a position as it has `copies` of it. -/
theorem length_slice_places (s : Slice) (position rank : Nat) :
    (s.places position rank).length = s.copies position := by
  unfold Slice.places Slice.copies Span.copies
  rw [List.length_append]
  cases s.reserve with
  | none => split_ifs <;> rfl
  | some span =>
    simp only [Option.elim]
    split_ifs <;> rfl

/-- A position has as many places at a rank as the desk of the rank holds it (`Desk.holding`). The
letters of the search that are grants are those in the box of the rank. -/
theorem Invariant.length_group_places (h : c.Invariant job size) (hrank : rank < size)
    (position : Nat) :
    (c.group.places position rank).length = (c.group.desk rank).holding position := by
  have hlt : rank < c.group.seats.size := h.seats_size.symm ▸ hrank
  have hseat : c.group.seats[rank]? = some c.group.seats[rank] := Array.getElem?_eq_getElem hlt
  have hmember : c.group.member rank = c.group.seats[rank].member := by
    rw [Group.member, hseat]
    rfl
  -- A grant on its way is found in the box of the rank and among the letters of its search.
  have hgrants : (c.group.grants (c.group.member rank).best position rank).length =
      (c.group.desk rank).granted position := by
    have hrank_eq : (c.group.desk rank).member.rank = rank := (h.sound rank hrank).rank_eq
    unfold Group.grants Desk.granted
    rw [hrank_eq, Group.desk]
    cases (c.group.member rank).best with
    | none => rfl
    | some offer =>
      have hcount : (c.group.mail.inFlight.filter (·.asker? = some rank)).count
          ⟨offer.owner, rank, .claimAnswer true⟩ =
          (c.group.mail.box rank).toList.count ⟨offer.owner, .claimAnswer true⟩ := by
        rw [Multiset.count_filter_of_pos (p := fun p : Parcel => p.asker? = some rank) rfl,
          Mailboxes.count_inFlight (h.mail_size.symm ▸ hrank)]
      rw [Option.elim_some, hcount, Span.copies]
      by_cases hmem : position ∈ offer.span
      · simp only [if_pos hmem, List.length_map, ← List.countP_eq_length_filter, Nat.mul_one,
          List.count, beq_eq_decide]
      · simp only [if_neg hmem, List.length_nil, Nat.mul_zero]
  rw [Group.places, hseat]
  change (c.group.seats[rank].member.slice.places position rank ++
    c.group.grants c.group.seats[rank].member.best position rank).length = _
  rw [List.length_append, length_slice_places, ← hmember, hgrants]
  rfl

/-- Every position of the job has one place, and there are no other positions: this is
`Invariant.owned`, read off `places`. -/
theorem Invariant.length_places (h : c.Invariant job size) (position : Nat) :
    (c.places position).length = if position < job.size then 1 else 0 := by
  have hranks : ((List.range size).flatMap (c.group.places position)).length =
      ∑ rank ∈ Finset.range size, (c.group.desk rank).holding position := by
    rw [← Finset.sum_congr rfl fun rank hrank =>
      h.length_group_places (Finset.mem_range.mp hrank) position]
    exact List.length_flatMap
  rw [places, List.length_append, List.length_map, h.seats_size, hranks,
    ← List.countP_eq_length_filter, h.owned position]

/-- A position that was checked is in no other place, as it has only one (`length_places`). -/
theorem Invariant.places_of_checked (h : c.Invariant job size) {check : Check}
    (hcheck : check ∈ c.checks) (hposition : check.position < job.size) :
    c.places check.position = [.checked check.rank] := by
  have hlength := h.length_places check.position
  rw [if_pos hposition] at hlength
  obtain ⟨place, hplace⟩ := List.length_eq_one_iff.mp hlength
  have hmem : Place.checked check.rank ∈ c.places check.position := by
    refine List.mem_append_left _ (List.mem_map.mpr ⟨check, ?_, rfl⟩)
    exact List.mem_filter.mpr ⟨hcheck, by simp⟩
  rw [hplace] at hmem ⊢
  rw [List.mem_singleton.mp hmem]

/-! ## The main result -/

/-- In a group whose ranks all have the same job, whatever steps the ranks take, every position is
in one of its `places`. Every run that has ended has ended with a result, so no span was ever to be
taken over while positions were left. When the coordinator has its result, that is the set of
redundant indices, and every position was checked once. -/
theorem filter_exact (hsize : 0 < size) (hcount : job.size < Text.bound64)
    (hc : (start (List.replicate size job) sharing).follow? moves = some c) :
    (∀ position < job.size, ∃ place, c.places position = [place]) ∧
    (∀ rank e, c.group.ending? rank = some e → ∃ result, e = .result result) ∧
    ∀ found, c.group.ending? Member.coordinator = some (.result (some found)) →
      (∀ i, i ∈ found ↔ i < job.size ∧ job.isRedundant i = true) ∧
      ∀ position < job.size, ∃ rank, c.places position = [.checked rank] := by
  have h := invariant_follow? hsize hcount hc
  refine ⟨fun position hposition => ?_, fun rank e he => ?_, fun found hfound => ?_⟩
  · refine List.length_eq_one_iff.mp ?_
    rw [h.length_places, if_pos hposition]
  · cases h.ended rank e he with
    | told => exact ⟨none, rfl⟩
    | found found _ _ => exact ⟨some found, rfl⟩
  · cases h.ended _ _ hfound with
    | found _ hexact hchecks =>
      refine ⟨hexact, fun position hposition => ?_⟩
      obtain ⟨check, hcheck, rfl⟩ := hchecks position hposition
      exact ⟨check.rank, h.places_of_checked hcheck hposition⟩

/-- Four candidates; the second and the fourth are instances of the first. -/
def twoInstances : Job :=
  ⟨1, ⟨[(3, [⟨"C0.0", 1, .implies (.var 0) (.var 0)⟩])], 1⟩,
    [⟨.symbol 0, "C0.0", 1, .implies (.var 0) (.var 0)⟩,
      ⟨.symbol 1, "CC0.0C0.0", 1,
        .implies (.implies (.var 0) (.var 0)) (.implies (.var 0) (.var 0))⟩,
      ⟨.symbol 2, "C0C1.0", 1, .implies (.var 0) (.implies (.var 1) (.var 0))⟩,
      ⟨.symbol 3, "CC0.1C0.1", 1,
        .implies (.implies (.var 0) (.var 1)) (.implies (.var 0) (.var 1))⟩]⟩

/-- Two ranks have two positions each, and the second takes one over from the first. -/
def takeover : List Move :=
  [.work 1, .work 1, .work 1, .attend 1, .attend 1, .receive 0 1, .receive 0 1, .receive 0 1,
    .receive 1 0, .receive 0 1, .receive 1 0, .work 1, .work 1, .work 1, .attend 1, .attend 1,
    .receive 0 1, .receive 0 1, .receive 1 0, .work 1, .attend 1, .receive 0 1, .work 0, .work 0,
    .attend 0, .receive 1 0, .receive 0 1, .work 0, .attend 0, .conclude 0, .receive 1 0]

/-- Two ranks end with a result, after one has taken a position over from the other. -/
theorem filter_exact_takeover :
    ∃ c found, (start (List.replicate 2 twoInstances) ⟨2, 1⟩).follow? takeover = some c ∧
      c.checks = [⟨1, 2⟩, ⟨1, 3⟩, ⟨1, 1⟩, ⟨0, 0⟩] ∧
      c.group.ending? Member.coordinator = some (.result (some found)) ∧
      (∀ i, i ∈ found ↔ i < 4 ∧ twoInstances.isRedundant i = true) ∧
      ∀ position < 4, ∃ rank, c.places position = [.checked rank] := by
  have hrun : ((start (List.replicate 2 twoInstances) ⟨2, 1⟩).follow? takeover).map
      (fun c => (c.checks, c.isComplete)) = some ([⟨1, 2⟩, ⟨1, 3⟩, ⟨1, 1⟩, ⟨0, 0⟩], true) := by
    cbv
  obtain ⟨c, hc, heq⟩ := Option.map_eq_some_iff.mp hrun
  obtain ⟨hchecks, hcomplete⟩ := Prod.mk.inj heq
  obtain ⟨found, hfound⟩ := exists_result_of_isComplete hcomplete
  obtain ⟨-, -, hexact⟩ := filter_exact (by decide) (by decide) hc
  exact ⟨c, found, hc, hchecks, hfound, hexact found hfound⟩

end Course

end Detachment.Cluster
