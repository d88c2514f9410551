import Detachment.Text.Numeral

/-! # Spans of positions

A span is a range of positions, the first included and the last excluded. At the start the positions
are divided evenly among the ranks of a group. -/

namespace Detachment.Cluster

/-- The positions from `first` up to, and without, `stop`. -/
structure Span where
  /-- The first position. -/
  first : Nat
  /-- The position behind the last. -/
  stop : Nat
  deriving DecidableEq, Repr

namespace Span

/-- The number of positions, zero if `stop` is not behind `first`. -/
def size (s : Span) : Nat :=
  s.stop - s.first

/-- Whether there is no position: `stop ≤ first`. -/
def isEmpty (s : Span) : Bool :=
  s.stop ≤ s.first

/-- The span without positions that stands for no offer in `Slice.offered`. -/
def none : Span := ⟨0, 0⟩

instance : Membership Nat Span where
  mem s p := s.first ≤ p ∧ p < s.stop

/-- The positions of a span are those from `first` up to, and without, `stop`. -/
theorem mem_def {s : Span} {p : Nat} : p ∈ s ↔ s.first ≤ p ∧ p < s.stop := Iff.rfl

end Span

/-- The boundary `count * rank / size` below which the first `rank` of `size` ranks work, in 64
bits. -/
def boundary (count size rank : Nat) : Nat :=
  count * rank / max size 1 % Text.bound64

/-- The positions of a rank at the start, out of `count` positions: from its `boundary` to the
next. -/
def share (count size rank : Nat) : Span :=
  ⟨boundary count size rank, boundary count size (rank + 1)⟩

end Detachment.Cluster
