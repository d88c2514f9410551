import Detachment.Cluster.Span

/-! # Slices of the work

The positions that a rank is responsible for: the active span that it works through, and a reserve
right behind it that another rank may take over. Whenever the reserve is gone, the end of the active
span becomes the new reserve, as long as enough is active.

* `Slice.next?` hands out the next position.
* `Slice.grant` gives the reserve away.
* `Slice.adopt?` takes over a span that another rank gave away. -/

namespace Detachment.Cluster

/-- How a rank shares its work: one part in `denominator` is kept for others. -/
structure Sharing where
  /-- The part of the active span that becomes the reserve. -/
  denominator : Nat
  /-- The least number of active positions of which a part becomes the reserve. -/
  least : Nat
  deriving DecidableEq, Repr

/-- An eighth is kept in reserve, as long as there are 64 positions. -/
def Sharing.standard : Sharing := ⟨8, 64⟩

/-- The positions that a rank is responsible for. The reserve is right behind the active span. -/
structure Slice where
  /-- The positions that the rank works through. -/
  active : Span
  /-- The positions that another rank may take over. -/
  reserve : Option Span
  /-- How the rank shares its work. -/
  sharing : Sharing
  deriving DecidableEq, Repr

namespace Slice

/-- The number of active positions that the reserve takes; it takes at most a half, whatever the
`denominator` is. -/
def reserved (s : Slice) : Nat :=
  if s.active.size < s.sharing.least then 0
  else s.active.size / max s.sharing.denominator 2

/-- Move the end of the active span into the reserve, if the reserve is gone and enough is active
(`reserved`). -/
def split (s : Slice) : Slice :=
  match s.reserve with
  | some _ => s
  | none =>
    if s.reserved = 0 then s
    else
      let cut := s.active.stop - s.reserved
      { s with active := ⟨s.active.first, cut⟩, reserve := some ⟨cut, s.active.stop⟩ }

/-- The slice of a span, after `split`; a span that ends before it starts is empty. -/
def ofSpan (span : Span) (sharing : Sharing) : Slice :=
  split ⟨⟨span.first, max span.stop span.first⟩, none, sharing⟩

/-- Hand out the first active position, for a slice that has one. -/
def advance (s : Slice) : Nat × Slice :=
  (s.active.first, { s with active := ⟨s.active.first + 1, s.active.stop⟩ })

/-- Hand out the next position (`advance`). Once the active span is used up, the rank takes its
reserve back, and splits it again. -/
def next? (s : Slice) : Option (Nat × Slice) :=
  if s.active.first < s.active.stop then some s.advance
  else
    match s.reserve with
    | none => none
    | some span => some (split { s with active := span, reserve := none }).advance

/-- The span that the rank offers: its reserve, or `Span.none`. -/
def offered (s : Slice) : Span :=
  s.reserve.getD .none

/-- Give the reserve away, if it still is exactly this span; then `split` makes a new one. -/
def grant (s : Slice) (span : Span) : Bool × Slice :=
  if !span.isEmpty && s.reserve = some span then (true, split { s with reserve := none })
  else (false, s)

/-- Whether no position is left, neither active nor in reserve. -/
def isUsedUp (s : Slice) : Bool :=
  s.active.isEmpty && s.reserve.isNone

/-- Take over a span that another rank gave away; refused as long as a position is left
(`isUsedUp`). -/
def adopt? (s : Slice) (span : Span) : Option Slice :=
  if s.isUsedUp then some (ofSpan span s.sharing) else none

/-- The number of positions left, active or in reserve. -/
def remaining (s : Slice) : Nat :=
  s.active.size + (s.reserve.map Span.size).getD 0

/-! ## Splitting and handing out -/

/-- The reserve takes at most half of the active positions. -/
theorem reserved_le (s : Slice) : 2 * s.reserved ≤ s.active.size := by
  unfold reserved
  split
  · omega
  · have hm : 2 ≤ max s.sharing.denominator 2 := Nat.le_max_right _ _
    have := Nat.div_le_div_left hm (by omega) (a := s.active.size)
    omega

/-- Splitting keeps the number of positions, `remaining`. What the reserve gets is taken from the
active span. -/
theorem remaining_split (s : Slice) : s.split.remaining = s.remaining := by
  unfold split
  split
  · rfl
  · rename_i h
    split
    · rfl
    · have hr := s.reserved_le
      simp only [remaining, h, Span.size, Option.map_some, Option.map_none, Option.getD_some,
        Option.getD_none] at hr ⊢
      omega

/-- Splitting leaves an active position, if there was one, as `reserved_le` shows. -/
theorem split_active_pos {s : Slice} (h : s.active.first < s.active.stop) :
    s.split.active.first < s.split.active.stop := by
  unfold split
  split
  · exact h
  · split
    · exact h
    · have hr := s.reserved_le
      simp only [Span.size] at hr ⊢
      omega

/-- One position less is left after `advance`. -/
theorem remaining_advance {s : Slice} (h : s.active.first < s.active.stop) :
    s.advance.2.remaining + 1 = s.remaining := by
  simp only [advance, remaining, Span.size]
  omega

/-- A number that every position handed out makes smaller: taking the reserve back and splitting it
again cannot go on for ever. -/
def workload (s : Slice) : Nat :=
  s.remaining + if s.reserve.isSome then 1 else 0

/-- Handing out a position makes the `workload` smaller. The cases are those of `next?`: an active
position, or the reserve that is taken back. -/
theorem workload_next? {s t : Slice} {position : Nat} (h : s.next? = some (position, t)) :
    t.workload < s.workload := by
  unfold next? at h
  split at h
  · rename_i ha
    obtain rfl : s.advance.2 = t := by simp_all
    have := remaining_advance ha
    have hr : s.advance.2.reserve = s.reserve := rfl
    simp only [workload, hr]
    omega
  · split at h
    · simp at h
    · -- The reserve is active again: it counted for its positions and for one more.
      rename_i ha span hr
      obtain rfl : (split { s with active := span, reserve := none }).advance.2 = t := by simp_all
      generalize hu : ({ s with active := span, reserve := none } : Slice) = u
      have hs := remaining_split u
      have hw : s.workload = u.remaining + 1 := by
        subst hu
        simp only [workload, remaining, hr, Span.size, Option.map_some, Option.map_none,
          Option.getD_some, Option.getD_none, Option.isSome_some] at ha ⊢
        simp only [if_true]
        omega
      by_cases hp : u.active.first < u.active.stop
      · have := remaining_advance (split_active_pos hp)
        rw [hw]
        simp only [workload]
        split <;> omega
      · -- An empty reserve leaves nothing to split, but it is not in reserve any more.
        have hz : u.split = u := by
          have hr0 : u.reserved = 0 := by
            have := u.reserved_le
            simp only [Span.size] at this
            omega
          subst hu
          simp [split, hr0]
        rw [hz, hw]
        subst hu
        simp only [workload, advance, remaining, Span.size, Option.map_none, Option.getD_none,
          Option.isSome_none] at hp ⊢
        simp
        omega

end Slice

end Detachment.Cluster
