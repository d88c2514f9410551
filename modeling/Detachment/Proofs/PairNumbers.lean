import Mathlib.Algebra.Ring.Parity
import Mathlib.Tactic.Ring
import Detachment.Proofs.Productions

/-! # The table of length pairs

The table holds the pairs of premise lengths whose detachment is beyond the limit. Without
necessitation, and for an odd limit, their number is a polynomial in the limit: the pairs of known
lengths fill a triangle, and the pairs with a longer premise two sides along it.

* `mem_premiseLengths_iff` says which lengths a premise has.
* `length_minorLengths_known` counts the minor premises of one known major premise, and
  `two_mul_length_pairsOf` those of the first known major premises together.
* `premisePairs_exact` gives the members and the size of the table. -/

namespace Detachment

variable {limit m i n : Nat} {necessitation : Bool} {major : PremiseLength}

/-! ## Members -/

/-- A premise length is longer than the limit, or a number up to it that is odd unless there is
necessitation. -/
def PremiseLength.Admissible (limit : Nat) (necessitation : Bool) : PremiseLength → Prop
  | known length => 1 ≤ length ∧ length ≤ limit ∧ (necessitation = true ∨ Odd length)
  | longer => True

/-- Proofs have odd lengths unless there is necessitation. -/
theorem canHaveLength_iff {length : Nat} :
    canHaveLength necessitation length ↔ necessitation = true ∨ Odd length := by
  rw [canHaveLength, Bool.or_eq_true, beq_iff_eq, Nat.odd_iff]

/-- The lengths listed for a premise (`premiseLengths`) are the `Admissible` ones. -/
theorem mem_premiseLengths_iff :
    major ∈ premiseLengths limit necessitation ↔ major.Admissible limit necessitation := by
  rw [mem_premiseLengths]
  cases major with
  | known length =>
    simp [PremiseLength.Admissible, mem_knownLengths, canHaveLength_iff]
  | longer => simp [PremiseLength.Admissible]

/-- The lengths of a minor premise that bring a detachment with `major` beyond the limit, at its
`least` length. -/
def minorLengths (limit : Nat) (necessitation : Bool) (major : PremiseLength) :
    List PremiseLength :=
  (premiseLengths limit necessitation).filter fun minor =>
    limit < 1 + major.least limit + minor.least limit

/-- The table `premisePairs` goes through the major premises and lists the `minorLengths` of
each. -/
theorem premisePairs_eq (limit : Nat) (necessitation : Bool) :
    premisePairs limit necessitation = (premiseLengths limit necessitation).flatMap fun major =>
      (minorLengths limit necessitation major).map (major, ·) :=
  rfl

/-! ## Numbers -/

/-- The lengths without necessitation up to an odd limit are `2 * i + 1` for `i ≤ m`. By induction
on `m`, with two lengths more at each step. -/
theorem knownLengths_odd (m : Nat) :
    knownLengths (2 * m + 1) false = (List.range (m + 1)).map fun i => 2 * i + 1 := by
  induction m with
  | zero => rfl
  | succ m ih =>
    -- Of the two lengths that are new, the even one is left out.
    have hsplit : List.range' 1 (2 * (m + 1) + 1) =
        List.range' 1 (2 * m + 1) ++ [2 * m + 1 + 1, 2 * (m + 1) + 1] := by
      rw [Nat.mul_succ, Nat.add_right_comm, ← List.range'_append_1, Nat.add_comm 1]
      rfl
    have heven : canHaveLength false (2 * m + 1 + 1) = false := by
      rw [canHaveLength, Bool.false_or, beq_eq_false_iff_ne]
      omega
    have hodd : canHaveLength false (2 * (m + 1) + 1) = true := by
      rw [canHaveLength, Bool.false_or, beq_iff_eq]
      omega
    rw [List.range_succ, List.map_append, ← ih, knownLengths, hsplit, List.filter_append,
      List.filter_cons, heven, List.filter_cons, hodd]
    rfl

/-- The lengths of a premise without necessitation and with an odd limit: the known ones, and
`.longer`. -/
theorem premiseLengths_odd (m : Nat) :
    premiseLengths (2 * m + 1) false =
      ((List.range (m + 1)).map fun i => .known (2 * i + 1)) ++ [.longer] := by
  rw [premiseLengths, knownLengths_odd, List.map_map]
  rfl

/-- There are `i + 1` numbers up to `m` that make at least `m` together with `i`. They are the last
ones of the range, from `m - i` on. -/
theorem length_filter_range (h : i ≤ m) :
    ((List.range (m + 1)).filter fun j => m ≤ i + j).length = i + 1 := by
  obtain ⟨d, rfl⟩ := Nat.exists_eq_add_of_le' h
  rw [Nat.add_assoc, List.range_add, List.filter_append]
  have hbelow : (List.range d).filter (fun j => d + i ≤ i + j) = [] := by
    simp only [List.filter_eq_nil_iff, List.mem_range, decide_eq_true_eq]
    omega
  have habove : ((List.range (i + 1)).map (d + ·)).filter (fun j => d + i ≤ i + j) =
      (List.range (i + 1)).map (d + ·) := by
    simp only [List.filter_eq_self, List.mem_map, List.mem_range, decide_eq_true_eq]
    rintro _ ⟨j, -, rfl⟩
    omega
  rw [hbelow, habove, List.nil_append, List.length_map, List.length_range]

/-- A longer premise has one symbol more than the limit at least. -/
theorem PremiseLength.least_longer (limit : Nat) : longer.least limit = limit + 1 := rfl

/-- A known major premise `2 * i + 1` has a minor premise for each known length from its counterpart
to the limit, and one that is longer: `i + 2`. -/
theorem length_minorLengths_known (h : i ≤ m) :
    (minorLengths (2 * m + 1) false (.known (2 * i + 1))).length = i + 2 := by
  have hknown : ∀ j, 2 * m + 1 < 1 + (2 * i + 1) + (2 * j + 1) ↔ m ≤ i + j := by
    omega
  have hlonger : 2 * m + 1 < 1 + (2 * i + 1) + (2 * m + 1 + 1) := by
    omega
  rw [minorLengths, premiseLengths_odd, List.filter_append, List.length_append, List.filter_map,
    List.length_map]
  simp only [Function.comp_def, PremiseLength.least, hknown,
    List.filter_cons, List.filter_nil, hlonger, decide_true, if_true, List.length_singleton]
  rw [length_filter_range h]

/-- A longer major premise goes with every length of a minor premise: `m + 2`. -/
theorem length_minorLengths_longer (m : Nat) :
    (minorLengths (2 * m + 1) false .longer).length = m + 2 := by
  have hall : minorLengths (2 * m + 1) false .longer = premiseLengths (2 * m + 1) false := by
    refine List.filter_eq_self.mpr fun minor _ => ?_
    rw [decide_eq_true_eq, PremiseLength.least_longer]
    omega
  rw [hall, premiseLengths_odd, List.length_append, List.length_map, List.length_range]
  rfl

/-- The pairs whose major premise is the `i`-th known length, counted from zero. -/
def pairsOf (m i : Nat) : List (PremiseLength × PremiseLength) :=
  (minorLengths (2 * m + 1) false (.known (2 * i + 1))).map (.known (2 * i + 1), ·)

/-- The number of pairs whose major premise is one of the first `n` known lengths,
`n * (n + 3) / 2`, by induction on `n`. -/
theorem two_mul_length_pairsOf (h : n ≤ m + 1) :
    2 * ((List.range n).flatMap (pairsOf m)).length = n * (n + 3) := by
  induction n with
  | zero => rfl
  | succ n ih =>
    rw [List.range_succ, List.flatMap_append, List.length_append, Nat.mul_add,
      ih (Nat.le_of_succ_le h), List.flatMap_singleton, pairsOf, List.length_map,
      length_minorLengths_known (Nat.le_of_succ_le_succ h)]
    ring

/-- The number of pairs for an odd limit, without division: those of `pairsOf`, and those with a
longer major premise. -/
theorem eight_mul_length_premisePairs (m : Nat) :
    8 * (premisePairs (2 * m + 1) false).length + 17 = (2 * m + 1 + 6) ^ 2 := by
  have hlength : (premisePairs (2 * m + 1) false).length =
      ((List.range (m + 1)).flatMap (pairsOf m)).length + (m + 2) := by
    rw [premisePairs_eq, premiseLengths_odd, List.flatMap_append, List.length_append,
      List.flatMap_map, List.flatMap_singleton, List.length_map, length_minorLengths_longer]
    rfl
  have hknown := two_mul_length_pairsOf (Nat.le_refl (m + 1))
  calc 8 * (premisePairs (2 * m + 1) false).length + 17
      = 4 * (2 * ((List.range (m + 1)).flatMap (pairsOf m)).length) + 8 * (m + 2) + 17 := by
        rw [hlength]
        ring
    _ = 4 * ((m + 1) * (m + 1 + 3)) + 8 * (m + 2) + 17 := by rw [hknown]
    _ = (2 * m + 1 + 6) ^ 2 := by ring

/-! ## The main result -/

/-- The table `premisePairs` holds the pairs of `Admissible` lengths whose detachment is beyond the
limit, each once. Without necessitation and for an odd limit `k` there are `((k + 6) ^ 2 - 17) / 8`
of them. -/
theorem premisePairs_exact (limit : Nat) (necessitation : Bool) :
    (∀ major minor, (major, minor) ∈ premisePairs limit necessitation ↔
      major.Admissible limit necessitation ∧ minor.Admissible limit necessitation ∧
        limit < 1 + major.least limit + minor.least limit) ∧
      (premisePairs limit necessitation).Nodup ∧
      (Odd limit → (premisePairs limit false).length = ((limit + 6) ^ 2 - 17) / 8) := by
  refine ⟨fun major minor => ?_, nodup_premisePairs limit necessitation, ?_⟩
  · rw [mem_premisePairs, mem_premiseLengths_iff, mem_premiseLengths_iff]
  · rintro ⟨m, rfl⟩
    have hlength := eight_mul_length_premisePairs m
    omega

/-- For the limit 43 the lengths 1 and 43 make a pair, and 1 and 41 do not: their detachment has the
length 43, which the limit covers. -/
theorem premisePairs_exact_fortyThree :
    Odd 43 ∧ (premisePairs 43 false).length = 298 ∧
      (.known 1, .known 43) ∈ premisePairs 43 false ∧
      (.known 1, .known 41) ∉ premisePairs 43 false := by
  have hodd : Odd 43 := by decide
  obtain ⟨hmem, -, hlength⟩ := premisePairs_exact 43 false
  refine ⟨hodd, hlength hodd, (hmem _ _).mpr ?_, fun h => ?_⟩
  · exact ⟨⟨by decide, by decide, .inr (by decide)⟩, ⟨by decide, by decide, .inr (by decide)⟩,
      by decide⟩
  · exact absurd ((hmem _ _).mp h).2.2 (by decide)

end Detachment
