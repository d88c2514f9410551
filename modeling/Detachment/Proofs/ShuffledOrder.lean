import Mathlib.Data.Nat.ModEq
import Mathlib.Data.Nat.Prime.Basic
import Mathlib.Data.Set.Function
import Mathlib.Order.Fin.Basic
import Mathlib.Order.Interval.Set.Defs
import Mathlib.Order.WellFounded
import Detachment.Cluster.Shuffle

/-! # The shuffled order is the only one

Every rank sorts the indices by their keys on its own, and no two ranks may come to different
orders. They cannot, since different indices have different keys: there is one way to put the
indices in the order of their keys, and any way of sorting finds it.

* `shuffleKey_injOn` says that different indices of 64 bits have different keys.
* `IsShuffle` says what makes a function from positions to indices a shuffled order.
* `IsShuffle.unique` says that there is only one, and `eq_shuffled_of_perm` that sorting finds it.
* `Order.ofCount_unique` puts these together. -/

namespace Detachment.Cluster

variable {count position i j : Nat} {indexAt indexAt' : Nat → Option Nat}

/-! ## Keys -/

/-- The factor `keyFactor` is odd, so it has no divisor in common with the bound, which is a power
of two. -/
theorem coprime_keyFactor : Text.bound64.Coprime keyFactor := by
  have hbound : Text.bound64 = 2 ^ 64 := by decide
  have hodd : Odd keyFactor := by decide
  rw [hbound]
  exact Nat.Coprime.pow_left 64 (Nat.coprime_two_left.mpr hodd)

/-- Different indices of 64 bits have different keys: `shuffleKey` multiplies by a factor that can
be cancelled modulo the bound. -/
theorem shuffleKey_injOn : Set.InjOn shuffleKey (Set.Iio Text.bound64) := by
  intro i hi j hj heq
  have hsum : i * keyFactor + keySummand ≡ j * keyFactor + keySummand [MOD Text.bound64] := heq
  have hproduct : i * keyFactor ≡ j * keyFactor [MOD Text.bound64] :=
    Nat.ModEq.add_right_cancel' keySummand hsum
  have hindex : i ≡ j [MOD Text.bound64] :=
    Nat.ModEq.cancel_right_of_coprime coprime_keyFactor hproduct
  exact hindex.eq_of_lt_of_lt hi hj

/-- Different indices below a count of 64 bits have different keys (`shuffleKey`). -/
theorem eq_of_shuffleKey_eq (hcount : count ≤ Text.bound64) (hi : i < count) (hj : j < count)
    (heq : shuffleKey i = shuffleKey j) : i = j :=
  shuffleKey_injOn (Nat.lt_of_lt_of_le hi hcount) (Nat.lt_of_lt_of_le hj hcount) heq

/-! ## Sorting by keys -/

/-- The order `shuffled count` of the candidates is a permutation of their indices. -/
theorem perm_shuffled (count : Nat) : (shuffled count).Perm (List.range count) :=
  List.mergeSort_perm _ _

/-- There are as many positions in `shuffled count` as indices. -/
theorem length_shuffled (count : Nat) : (shuffled count).length = count := by
  rw [(perm_shuffled count).length_eq, List.length_range]

/-- No index has two positions in `shuffled count`. -/
theorem nodup_shuffled (count : Nat) : (shuffled count).Nodup :=
  (perm_shuffled count).nodup_iff.mpr List.nodup_range

/-- The indices below the count stand in the order, and no others. -/
theorem mem_shuffled : i ∈ shuffled count ↔ i < count := by
  rw [(perm_shuffled count).mem_iff, List.mem_range]

/-- The indices in `shuffled count` are in the order of their keys. -/
theorem pairwise_shuffled (count : Nat) :
    (shuffled count).Pairwise fun i j => shuffleKey i ≤ shuffleKey j := by
  have hsorted : (shuffled count).Pairwise fun i j => decide (shuffleKey i ≤ shuffleKey j) := by
    refine List.pairwise_mergeSort (fun i j k hij hjk => ?_) (fun i j => ?_) (List.range count)
    · exact decide_eq_true (Nat.le_trans (of_decide_eq_true hij) (of_decide_eq_true hjk))
    · rw [Bool.or_eq_true, decide_eq_true_eq, decide_eq_true_eq]
      exact Nat.le_total _ _
  exact hsorted.imp of_decide_eq_true

/-- The keys of a count of 64 bits are all different, so in `shuffled count` they increase from one
index to the next. -/
theorem pairwise_lt_shuffled (hcount : count ≤ Text.bound64) :
    (shuffled count).Pairwise fun i j => shuffleKey i < shuffleKey j := by
  refine ((pairwise_shuffled count).and (nodup_shuffled count)).imp_of_mem ?_
  intro i j hi hj hle
  refine Nat.lt_of_le_of_ne hle.1 fun heq => hle.2 ?_
  exact eq_of_shuffleKey_eq hcount (mem_shuffled.mp hi) (mem_shuffled.mp hj) heq

/-- Whatever way of sorting is used, it comes to the same order, `shuffled count`. -/
theorem eq_shuffled_of_perm (hcount : count ≤ Text.bound64) {indices : List Nat}
    (hperm : indices.Perm (List.range count))
    (hsorted : indices.Pairwise fun i j => shuffleKey i ≤ shuffleKey j) :
    indices = shuffled count := by
  refine List.Perm.eq_of_pairwise ?_ hsorted (pairwise_shuffled count)
    (hperm.trans (perm_shuffled count).symm)
  -- Two indices that may stand in either order have the same key.
  intro i j hi hj hle hge
  have hi' : i < count := List.mem_range.mp (hperm.mem_iff.mp hi)
  exact eq_of_shuffleKey_eq hcount hi' (mem_shuffled.mp hj) (Nat.le_antisymm hle hge)

namespace Order

/-- A position of the order `ofCount` is one of the sorted indices. -/
theorem index?_ofCount (count position : Nat) :
    (ofCount count).index? position = (shuffled count)[position]? := by
  rw [ofCount, index?, List.getElem?_toArray]

/-- Only indices below the count stand in the order `ofCount`. -/
theorem lt_of_index? (h : (ofCount count).index? position = some i) : i < count := by
  rw [index?_ofCount] at h
  exact mem_shuffled.mp (List.mem_of_getElem? h)

/-- Every index stands in the order `ofCount`, at a position below the count. -/
theorem exists_index? (h : i < count) :
    ∃ position < count, (ofCount count).index? position = some i := by
  obtain ⟨position, hposition⟩ := List.mem_iff_getElem?.mp (mem_shuffled.mpr h)
  have hlt := (List.getElem?_eq_some_iff.mp hposition).1
  rw [length_shuffled] at hlt
  exact ⟨position, hlt, by rw [index?_ofCount, hposition]⟩

end Order

/-! ## Shuffled orders -/

/-- The positions below `count` lead to the indices below `count`, each to one of its own and with
increasing keys, and other positions lead nowhere. -/
structure IsShuffle (count : Nat) (indexAt : Nat → Option Nat) : Prop where
  /-- Every index has one position. -/
  bijOn : Set.BijOn indexAt (Set.Iio count) (some '' Set.Iio count)
  /-- Behind the last position there is nothing. -/
  eq_none : ∀ position, count ≤ position → indexAt position = none
  /-- The keys increase with the positions. -/
  increasing : ∀ position later i j, position < later → indexAt position = some i →
    indexAt later = some j → shuffleKey i < shuffleKey j

namespace IsShuffle

/-- The key of the index at a position below the count, along which a shuffled order increases. -/
def keyAt (count : Nat) (indexAt : Nat → Option Nat) (position : Fin count) : Nat :=
  (indexAt position).elim 0 shuffleKey

-- The keys are not to be unfolded: the factor is too large for the kernel to multiply step by step.
/-- The key belongs to the index. -/
theorem keyAt_eq {position : Fin count} (h : indexAt position = some i) :
    keyAt count indexAt position = shuffleKey i := by
  rw [keyAt, h, Option.elim_some]

/-- A position below the count leads to an index below the count. -/
theorem exists_index (h : IsShuffle count indexAt) (hposition : position < count) :
    ∃ i < count, indexAt position = some i := by
  obtain ⟨i, hi, heq⟩ := h.bijOn.mapsTo hposition
  exact ⟨i, hi, heq.symm⟩

/-- The keys along the positions are strictly increasing: `keyAt` is `StrictMono`. -/
theorem strictMono_keyAt (h : IsShuffle count indexAt) :
    StrictMono (keyAt count indexAt) := by
  intro p q hlt
  obtain ⟨i, -, hi⟩ := h.exists_index p.isLt
  obtain ⟨j, -, hj⟩ := h.exists_index q.isLt
  rw [keyAt_eq hi, keyAt_eq hj]
  exact h.increasing p q i j hlt hi hj

/-- The keys along the positions are those of the indices, so the range of `keyAt` does not depend
on the order. -/
theorem range_keyAt (h : IsShuffle count indexAt) :
    Set.range (keyAt count indexAt) = shuffleKey '' Set.Iio count := by
  ext key
  constructor
  · rintro ⟨p, rfl⟩
    obtain ⟨i, hi, heq⟩ := h.exists_index p.isLt
    exact ⟨i, hi, (keyAt_eq heq).symm⟩
  · rintro ⟨i, hi, rfl⟩
    obtain ⟨p, hp, heq⟩ := h.bijOn.surjOn ⟨i, hi, rfl⟩
    exact ⟨⟨p, hp⟩, keyAt_eq heq⟩

/-- There is only one shuffled order of a number of indices: two strictly increasing functions
`keyAt` with the same range are the same, and keys tell indices apart. -/
theorem unique (hcount : count ≤ Text.bound64) (h : IsShuffle count indexAt)
    (h' : IsShuffle count indexAt') : indexAt = indexAt' := by
  -- Increasing functions with the same values are the same.
  have hkeys : keyAt count indexAt = keyAt count indexAt' :=
    (h.strictMono_keyAt.range_inj h'.strictMono_keyAt).mp (h.range_keyAt.trans h'.range_keyAt.symm)
  funext position
  by_cases hposition : position < count
  · obtain ⟨i, hi, heq⟩ := h.exists_index hposition
    obtain ⟨j, hj, heq'⟩ := h'.exists_index hposition
    have hkey := congrFun hkeys ⟨position, hposition⟩
    rw [keyAt_eq heq, keyAt_eq heq'] at hkey
    rw [heq, heq', eq_of_shuffleKey_eq hcount hi hj hkey]
  · rw [h.eq_none position (Nat.not_lt.mp hposition), h'.eq_none position (Nat.not_lt.mp hposition)]

end IsShuffle

namespace Order

/-- The order `ofCount` of a count of 64 bits is a shuffled order. It goes through the list
`shuffled`, which is sorted by `shuffleKey` and lists every index once. -/
theorem isShuffle_ofCount (hcount : count ≤ Text.bound64) :
    IsShuffle count (ofCount count).index? := by
  refine ⟨⟨?_, ?_, ?_⟩, ?_, ?_⟩
  · intro position hposition
    have hlt : position < (shuffled count).length := (length_shuffled count).symm ▸ hposition
    rw [index?_ofCount, List.getElem?_eq_getElem hlt]
    exact ⟨_, mem_shuffled.mp (List.getElem_mem hlt), rfl⟩
  · intro position hposition other _ heq
    rw [index?_ofCount, index?_ofCount] at heq
    have hlt : position < (shuffled count).length := (length_shuffled count).symm ▸ hposition
    exact (List.getElem?_inj hlt (nodup_shuffled count)).mp heq
  · rintro _ ⟨i, hi, rfl⟩
    exact exists_index? hi
  · intro position hposition
    rw [index?_ofCount, List.getElem?_eq_none ((length_shuffled count).symm ▸ hposition)]
  · intro position later i j hlt hi hj
    rw [index?_ofCount, List.getElem?_eq_some_iff] at hi hj
    obtain ⟨hposition, rfl⟩ := hi
    obtain ⟨hlater, rfl⟩ := hj
    exact List.pairwise_iff_getElem.mp (pairwise_lt_shuffled hcount) position later hposition hlater hlt

/-- Different indices have different keys (`shuffleKey`). The positions of the order `ofCount` lead
to all indices, to each once and with increasing keys, and behind them there is nothing. No other
function from positions to indices does so, and sorting the indices by their keys, stable or not,
always makes this order. -/
theorem ofCount_unique (hcount : count ≤ Text.bound64) :
    Set.InjOn shuffleKey (Set.Iio Text.bound64) ∧
      IsShuffle count (ofCount count).index? ∧
      (∀ indexAt, IsShuffle count indexAt → indexAt = (ofCount count).index?) ∧
      ∀ indices : List Nat, indices.Perm (List.range count) →
        indices.Pairwise (fun i j => shuffleKey i ≤ shuffleKey j) →
        (⟨indices.toArray⟩ : Order) = ofCount count := by
  refine ⟨shuffleKey_injOn, isShuffle_ofCount hcount, fun indexAt h => ?_,
    fun indices hperm hsorted => ?_⟩
  · exact h.unique hcount (isShuffle_ofCount hcount)
  · rw [ofCount, eq_shuffled_of_perm hcount hperm hsorted]

/-- Four indices, of which the last one comes second: its key is the first that is reduced to 64
bits. -/
theorem ofCount_unique_four :
    4 ≤ Text.bound64 ∧ [0, 3, 1, 2].Perm (List.range 4) ∧
      [0, 3, 1, 2].Pairwise (fun i j => shuffleKey i ≤ shuffleKey j) ∧
      (⟨#[0, 3, 1, 2]⟩ : Order) = ofCount 4 := by
  have hcount : 4 ≤ Text.bound64 := by decide
  have hperm : [0, 3, 1, 2].Perm (List.range 4) := by decide
  have hsorted : [0, 3, 1, 2].Pairwise (fun i j => shuffleKey i ≤ shuffleKey j) := by decide
  exact ⟨hcount, hperm, hsorted, (ofCount_unique hcount).2.2.2 _ hperm hsorted⟩

end Order

end Detachment.Cluster
