import Detachment.Proofs.SlicePositions
import Detachment.Proofs.Steps

/-! # Even shares

At the start the positions are divided among the ranks of a group: the share of each begins where
that of the rank before ends, and no share has two positions more than another. The boundaries are
quotients of products that may need 128 bits, and none of them is cut off.

* `share_eq` gives the share of a rank without reduction to 64 bits.
* `size_share` says that a share has one of two sizes.
* `checkedShare?` computes a share so that it fails where a number does not fit, and
  `checkedShare?_eq` says that it does not fail.
* `share_partition` puts these together. -/

namespace Detachment.Cluster

variable {count size rank position : Nat}

/-- The shares in a group are cut at the quotients `count * rank / size` themselves: nothing is cut
off at 64 bits. -/
theorem share_eq (hsize : 0 < size) (hcount : count < Text.bound64) (hrank : rank < size) :
    share count size rank = ⟨count * rank / size, count * (rank + 1) / size⟩ := by
  rw [share, boundary_eq hsize hcount (Nat.le_of_lt hrank), boundary_eq hsize hcount hrank]

/-- The quotients `count * rank / size` do not decrease from rank to rank. -/
theorem monotone_quotient (count size : Nat) : Monotone fun rank => count * rank / size :=
  fun _ _ hle => Nat.div_le_div_right (Nat.mul_le_mul_left count hle)

/-! ## Sizes -/

/-- The share of a rank has `count / size` positions, or one position more. It lies between two
quotients, whose difference is `Nat.add_div`. -/
theorem size_share (hsize : 0 < size) (hcount : count < Text.bound64) (hrank : rank < size) :
    (share count size rank).size = count / size ∨
      (share count size rank).size = count / size + 1 := by
  have hstop : count * (rank + 1) / size = count * rank / size + count / size +
      if size ≤ count * rank % size + count % size then 1 else 0 := by
    rw [Nat.mul_succ, Nat.add_div hsize]
  have hshare : (share count size rank).size =
      count * (rank + 1) / size - count * rank / size := by
    rw [share_eq hsize hcount hrank]
    rfl
  rw [hshare, hstop, Nat.add_assoc, Nat.add_sub_cancel_left]
  -- The remainders of the boundary and of the count may make up for one more position.
  split
  · exact .inr rfl
  · exact .inl rfl

/-! ## Positions -/

/-- Every position is in the `share` of exactly one rank: the quotients cut the positions into
intervals. -/
theorem existsUnique_share (hsize : 0 < size) (hcount : count < Text.bound64)
    (hposition : position < count) :
    ∃! rank, rank < size ∧ position ∈ share count size rank := by
  have hmem : ∀ rank < size, position ∈ share count size rank ↔
      count * rank / size ≤ position ∧ position < count * (rank + 1) / size := by
    intro rank hrank
    rw [share_eq hsize hcount hrank, Span.mem_def]
  have hstart : count * 0 / size ≤ position := by simp
  have hstop : position < count * size / size := by rwa [Nat.mul_div_cancel count hsize]
  obtain ⟨rank, hrank, hstep⟩ := exists_step (f := fun rank => count * rank / size) hstart hstop
  refine ⟨rank, ⟨hrank, (hmem rank hrank).mpr hstep⟩, ?_⟩
  rintro other ⟨hother, hposition'⟩
  exact step_unique (monotone_quotient count size) ((hmem other hother).mp hposition') hstep

/-! ## Widths -/

/-- The first number that 128 bits cannot hold. -/
def bound128 : Nat := 340282366920938463463374607431768211456

/-- A number, as long as it is below a `bound`. -/
def below? (bound n : Nat) : Option Nat :=
  if n < bound then some n else none

/-- A boundary where the product must fit into 128 bits and the quotient into 64. -/
def checkedBoundary? (count size rank : Nat) : Option Nat := do
  let product ← below? bound128 (count * rank)
  below? Text.bound64 (product / max size 1)

/-- The positions of a rank at the start, where every number on the way must fit. -/
def checkedShare? (count size rank : Nat) : Option Span := do
  let first ← checkedBoundary? count size rank
  let next ← below? bound128 (rank + 1)
  let stop ← checkedBoundary? count size next
  return ⟨first, stop⟩

/-- A number that fits is given back. -/
theorem below?_of_lt {bound n : Nat} (h : n < bound) : below? bound n = some n :=
  if_pos h

/-- Everything fits on the way to a `boundary`. The product of two numbers of 64 bits has 128 bits,
and the quotient is at most the count. -/
theorem checkedBoundary?_eq (hsize : 0 < size) (hcount : count < Text.bound64)
    (hwidth : size < Text.bound64) (hrank : rank ≤ size) :
    checkedBoundary? count size rank = some (boundary count size rank) := by
  have hproduct : count * rank < bound128 :=
    calc count * rank ≤ count * size := Nat.mul_le_mul_left count hrank
      _ < Text.bound64 * Text.bound64 := Nat.mul_lt_mul'' hcount hwidth
      _ = bound128 := by decide
  have hboundary := boundary_eq hsize hcount hrank
  have hquotient : count * rank / size < Text.bound64 := by
    rw [← hboundary]
    exact Nat.mod_lt _ (by decide)
  rw [checkedBoundary?, below?_of_lt hproduct, Option.bind_eq_bind, Option.bind_some,
    Nat.max_eq_left hsize, below?_of_lt hquotient, hboundary]

/-- Everything fits on the way to a `share`. -/
theorem checkedShare?_eq (hsize : 0 < size) (hcount : count < Text.bound64)
    (hwidth : size < Text.bound64) (hrank : rank < size) :
    checkedShare? count size rank = some (share count size rank) := by
  have hnext : rank + 1 < bound128 :=
    Nat.lt_of_le_of_lt hrank (Nat.lt_trans hwidth (by decide))
  rw [checkedShare?, checkedBoundary?_eq hsize hcount hwidth (Nat.le_of_lt hrank),
    below?_of_lt hnext]
  simp only [Option.bind_eq_bind, Option.bind_some]
  rw [checkedBoundary?_eq hsize hcount hwidth hrank]
  rfl

/-! ## The main result -/

/-- The shares of a group lie one behind the other from the first position to the last, so that each
position is in one of them. None ends before it begins, none has two positions more than another,
and no number on the way to them is cut off (`checkedShare?`). -/
theorem share_partition (hsize : 0 < size) (hcount : count < Text.bound64)
    (hwidth : size < Text.bound64) :
    (share count size 0).first = 0 ∧ (share count size (size - 1)).stop = count ∧
      (∀ rank, rank + 1 < size →
        (share count size (rank + 1)).first = (share count size rank).stop) ∧
      (∀ rank < size, (share count size rank).first ≤ (share count size rank).stop) ∧
      (∀ position < count, ∃! rank, rank < size ∧ position ∈ share count size rank) ∧
      (∀ rank < size, ∀ other < size,
        (share count size rank).size ≤ (share count size other).size + 1) ∧
      ∀ rank < size, checkedShare? count size rank = some (share count size rank) := by
  refine ⟨?_, ?_, fun rank _ => rfl, fun rank hrank => ?_, fun position hposition => ?_,
    fun rank hrank other hother => ?_, fun rank hrank => ?_⟩
  · rw [share_eq hsize hcount hsize]
    simp
  · rw [share_eq hsize hcount (Nat.sub_one_lt_of_lt hsize)]
    show count * (size - 1 + 1) / size = count
    rw [Nat.sub_add_cancel hsize, Nat.mul_div_cancel count hsize]
  · rw [share_eq hsize hcount hrank]
    exact monotone_quotient count size (Nat.le_succ rank)
  · exact existsUnique_share hsize hcount hposition
  · have hrank' := size_share hsize hcount hrank
    have hother' := size_share hsize hcount hother
    omega
  · exact checkedShare?_eq hsize hcount hwidth hrank

/-- As many positions and ranks as 64 bits can count, where the products need 128 bits. -/
theorem share_partition_widest :
    let most := 18446744073709551615
    (0 < most ∧ most < Text.bound64 ∧ Text.bound64 < most * (most - 1)) ∧
      (share most most (most - 1)).stop = most ∧
      checkedShare? most most (most - 1) = some (share most most (most - 1)) := by
  have hpos : 0 < 18446744073709551615 := by decide
  have hlt : 18446744073709551615 < Text.bound64 := by decide
  have hpartition := share_partition hpos hlt hlt
  refine ⟨⟨hpos, hlt, by decide⟩, hpartition.2.1, ?_⟩
  exact hpartition.2.2.2.2.2.2 _ (by decide)

-- With more ranks than positions some shares are empty.
example : (List.range 5).map (share 2 5) = [⟨0, 0⟩, ⟨0, 0⟩, ⟨0, 1⟩, ⟨1, 1⟩, ⟨1, 2⟩] := by decide

end Detachment.Cluster
