import Mathlib.Algebra.BigOperators.Group.Finset.Basic
import Detachment.Cluster.Slice

/-! # The positions of a slice

Splitting a slice, handing out a position and giving the reserve away move positions around without
losing or doubling any. This is said by counting how often a slice holds a position.

* `Slice.copies` is the number of times that a slice holds a position.
* `Slice.copies_next?` and `Slice.copies_grant` say what leaves a slice, `Slice.copies_ofSpan` what
  comes in when a span is taken over.
* `sum_copies_share` says that the shares at the start hold every position once. -/

namespace Detachment.Cluster

variable {position : Nat}

namespace Span

instance (s : Span) (position : Nat) : Decidable (position ∈ s) :=
  inferInstanceAs (Decidable (s.first ≤ position ∧ position < s.stop))

/-- How often a span holds a position: once or not at all. -/
def copies (s : Span) (position : Nat) : Nat :=
  if position ∈ s then 1 else 0

/-- A span without positions holds none: `copies` is zero. -/
theorem copies_of_le {s : Span} (h : s.stop ≤ s.first) : s.copies position = 0 := by
  refine if_neg fun hmem => ?_
  rw [mem_def] at hmem
  omega

/-- A `cut` divides the positions of a span between its two parts. -/
theorem copies_cut {first cut stop : Nat} (hfirst : first ≤ cut) (hstop : cut ≤ stop) :
    (⟨first, cut⟩ : Span).copies position + (⟨cut, stop⟩ : Span).copies position =
      (⟨first, stop⟩ : Span).copies position := by
  simp only [copies, mem_def]
  split_ifs <;> omega

/-- The first position of a span is held besides those after it. -/
theorem copies_first {s : Span} (h : s.first < s.stop) :
    s.copies position =
      (⟨s.first + 1, s.stop⟩ : Span).copies position + if position = s.first then 1 else 0 := by
  simp only [copies, mem_def]
  split_ifs <;> omega

end Span

namespace Slice

variable {s t : Slice} {span : Span}

/-- How often a slice holds a position, in its `active` span or in its `reserve`. -/
def copies (s : Slice) (position : Nat) : Nat :=
  s.active.copies position + s.reserve.elim 0 (·.copies position)

/-- The reserve is never empty. -/
def Tidy (s : Slice) : Prop :=
  ∀ span, s.reserve = some span → span.first < span.stop

/-! ## Splitting -/

/-- Splitting (`split`) leaves the reserve alone or makes one that is not empty. That it is not
empty is how `split` decides. -/
theorem Tidy.split (h : s.Tidy) : s.split.Tidy := by
  unfold Slice.split
  split
  · exact h
  · split
    · exact h
    · next hreserved =>
      intro span hspan
      obtain rfl := Option.some.inj hspan
      -- The reserve takes some of the active positions, and never more than half of them.
      have hle := s.reserved_le
      simp only [Span.size] at hle ⊢
      omega

/-- Splitting (`split`) keeps every position. The active span is cut in two (`Span.copies_cut`). -/
theorem copies_split (s : Slice) (position : Nat) : s.split.copies position = s.copies position := by
  unfold Slice.split
  split
  · rfl
  · next hreserve =>
    split
    · rfl
    · have hle := s.reserved_le
      simp only [Span.size] at hle
      simp only [copies, hreserve, Option.elim]
      rw [Nat.add_zero]
      exact Span.copies_cut (by omega) (by omega)

/-- Without a reserve there is nothing to be `Tidy` about. -/
theorem tidy_of_reserve_eq_none (h : s.reserve = none) : s.Tidy := by
  intro span hspan
  rw [h] at hspan
  cases hspan

/-- The slice `ofSpan` of a span is `Tidy`. -/
theorem tidy_ofSpan (span : Span) (sharing : Sharing) : (ofSpan span sharing).Tidy :=
  Tidy.split (tidy_of_reserve_eq_none rfl)

/-- The slice `ofSpan` holds the positions of the span. -/
theorem copies_ofSpan (span : Span) (sharing : Sharing) (position : Nat) :
    (ofSpan span sharing).copies position = span.copies position := by
  rw [ofSpan, copies_split]
  simp only [copies, Option.elim, Nat.add_zero, Span.copies, Span.mem_def]
  split_ifs <;> omega

/-! ## Handing out positions -/

/-- Handing out an active position (`advance`) takes it out of the slice. -/
theorem copies_advance (h : s.active.first < s.active.stop) :
    s.copies position =
      s.advance.2.copies position + if position = s.active.first then 1 else 0 := by
  have hfirst : s.active.copies position = _ := Span.copies_first h
  simp only [copies, advance]
  omega

/-- A position that `next?` hands out is taken out of the slice, and no other one. The position is
the first one of the active span, or of the reserve if that is empty. -/
theorem copies_next? (hs : s.Tidy) {first : Nat} (h : s.next? = some (first, t)) :
    t.Tidy ∧ ∀ position,
      s.copies position = t.copies position + if position = first then 1 else 0 := by
  unfold next? at h
  split at h
  · next hactive =>
    obtain ⟨rfl, rfl⟩ := Prod.mk.inj (Option.some.inj h)
    exact ⟨hs, fun position => copies_advance hactive⟩
  · next hactive =>
    split at h
    · cases h
    · next span hreserve =>
      obtain ⟨rfl, rfl⟩ := Prod.mk.inj (Option.some.inj h)
      -- The reserve becomes the active span; it is not empty, and splitting leaves a position
      -- there.
      generalize htaken : ({ s with active := span, reserve := none } : Slice) = taken
      have hpos : taken.active.first < taken.active.stop := by
        rw [← htaken]
        exact hs span hreserve
      have htidy : taken.Tidy := tidy_of_reserve_eq_none (by rw [← htaken])
      refine ⟨htidy.split, fun position => ?_⟩
      have hempty : s.active.copies position = 0 := Span.copies_of_le (Nat.not_lt.mp hactive)
      have hcopies : s.copies position = taken.copies position := by
        rw [← htaken]
        simp only [copies, hempty, hreserve, Option.elim]
        omega
      rw [hcopies, ← copies_split taken]
      exact copies_advance (split_active_pos hpos)

/-- When no position can be handed out (`next?`), none is left. The active span was empty then, and
there was no reserve. -/
theorem isUsedUp_of_next? (h : s.next? = none) : s.isUsedUp = true := by
  unfold next? at h
  split at h
  · cases h
  · next hactive =>
    split at h
    · next hreserve =>
      simp only [isUsedUp, hreserve, Option.isNone_none, Bool.and_true, Span.isEmpty,
        decide_eq_true_eq]
      omega
    · cases h

/-- A slice that `isUsedUp` holds no position. -/
theorem copies_of_isUsedUp (h : s.isUsedUp = true) : s.copies position = 0 := by
  simp only [isUsedUp, Bool.and_eq_true, Span.isEmpty, decide_eq_true_eq,
    Option.isNone_iff_eq_none] at h
  simp only [copies, Span.copies_of_le h.1, h.2, Option.elim]

/-! ## Giving the reserve away -/

/-- A span that `grant` gives away is taken out of the slice. -/
theorem copies_grant (h : s.grant span = (true, t)) :
    t.Tidy ∧ ∀ position, s.copies position = t.copies position + span.copies position := by
  unfold grant at h
  split at h
  · next hreserve =>
    simp only [Bool.and_eq_true, decide_eq_true_eq] at hreserve
    obtain ⟨-, rfl⟩ := Prod.mk.inj h
    refine ⟨Tidy.split (tidy_of_reserve_eq_none rfl), fun position => ?_⟩
    rw [copies_split]
    simp only [copies, hreserve.2, Option.elim, Nat.add_zero]
  · cases h

/-- A request that `grant` refuses changes nothing. -/
theorem eq_of_grant (h : s.grant span = (false, t)) : t = s := by
  unfold grant at h
  split at h
  · cases h
  · exact (Prod.mk.inj h).2.symm

/-- Nothing is given away by `grant` once the slice `isUsedUp`. -/
theorem grant_of_isUsedUp (h : s.isUsedUp = true) (span : Span) : s.grant span = (false, s) := by
  simp only [isUsedUp, Bool.and_eq_true, Option.isNone_iff_eq_none] at h
  simp [grant, h.2]

/-- A slice that `isUsedUp` takes over any span (`adopt?`). -/
theorem adopt?_of_isUsedUp (h : s.isUsedUp = true) (span : Span) :
    s.adopt? span = some (ofSpan span s.sharing) := by
  rw [adopt?, if_pos h]

end Slice

/-! ## Shares -/

section share

variable {count size rank : Nat}

/-- No `boundary` within the group is cut off at 64 bits. -/
theorem boundary_eq (hsize : 0 < size) (hcount : count < Text.bound64) (hrank : rank ≤ size) :
    boundary count size rank = count * rank / size := by
  have hle : count * rank / size ≤ count :=
    Nat.div_le_of_le_mul (by rw [Nat.mul_comm]; exact Nat.mul_le_mul_right count hrank)
  rw [boundary, Nat.max_eq_left hsize, Nat.mod_eq_of_lt (Nat.lt_of_le_of_lt hle hcount)]

/-- The first ranks of a group share the positions below their `boundary`, each once. The induction
is on the number of ranks. -/
theorem sum_copies_share_le (hsize : 0 < size) (hcount : count < Text.bound64)
    (hrank : rank ≤ size) (position : Nat) :
    ∑ r ∈ Finset.range rank, (share count size r).copies position =
      if position < count * rank / size then 1 else 0 := by
  induction rank with
  | zero => simp
  | succ rank ih =>
    have hfirst := boundary_eq hsize hcount (Nat.le_of_succ_le hrank)
    have hstop := boundary_eq hsize hcount hrank
    have hle : count * rank / size ≤ count * (rank + 1) / size :=
      Nat.div_le_div_right (Nat.mul_le_mul_left count (Nat.le_succ rank))
    rw [Finset.sum_range_succ, ih (Nat.le_of_succ_le hrank)]
    simp only [share, Span.copies, Span.mem_def, hfirst, hstop]
    split_ifs <;> omega

/-- All ranks together share all positions, each once. -/
theorem sum_copies_share (hsize : 0 < size) (hcount : count < Text.bound64) (position : Nat) :
    ∑ r ∈ Finset.range size, (share count size r).copies position =
      if position < count then 1 else 0 := by
  rw [sum_copies_share_le hsize hcount (Nat.le_refl size), Nat.mul_div_cancel count hsize]

end share

end Detachment.Cluster
