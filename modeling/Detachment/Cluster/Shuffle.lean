import Detachment.Text.Numeral

/-! # The shuffled order

Candidates are stored roughly in the order of their cost. A fixed permutation of their indices makes
spans of positions cost about the same. Every rank computes the same permutation from the number of
candidates alone. -/

namespace Detachment.Cluster

/-- The factor of the key; it is odd, so different indices below `Text.bound64` have different
keys. -/
def keyFactor : Nat := 6364136223846793005

/-- The summand of the key in `shuffleKey`. -/
def keySummand : Nat := 1442695040888963407

/-- The key by which an index is ordered: `index * keyFactor + keySummand` in 64 bits. -/
def shuffleKey (index : Nat) : Nat :=
  (index * keyFactor + keySummand) % Text.bound64

/-- The indices below `count` in the order of their keys (`shuffleKey`). -/
def shuffled (count : Nat) : List Nat :=
  (List.range count).mergeSort fun i j => shuffleKey i ≤ shuffleKey j

/-- A permutation of indices: `Order.index?` is the index at a position. -/
structure Order where
  /-- The index at each position. -/
  indices : Array Nat
  deriving DecidableEq, Repr

namespace Order

/-- The shuffled order of `count` indices. -/
def ofCount (count : Nat) : Order := ⟨(shuffled count).toArray⟩

/-- The number of indices. -/
def size (o : Order) : Nat :=
  o.indices.size

/-- The index at a position, if the position is below the `size`. -/
def index? (o : Order) (position : Nat) : Option Nat :=
  o.indices[position]?

end Order

end Detachment.Cluster
