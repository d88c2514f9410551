import Detachment.Proofs.Lists
import Detachment.Proofs.Steps
import Detachment.Representatives

/-! # References to the entries of a table

The entries of a table are numbered through all rows, whatever was published and in which order. The
number of an entry adds up the rows before it; the entry of a number is found by taking row after
row off the number.

* `Representatives.offset` is the number of entries before a row.
* `Representatives.known?_eq_some_iff` gives the number of an entry, and
  `Representatives.bijOn_known?` says that each number below the total is that of one entry.
* `Representatives.resolve?_known` says that the number of an entry leads back to it.
* `Representatives.references_exact` puts these together with the list of all entries. -/

namespace Detachment

namespace Representatives

variable {t : Representatives} {length index position : Nat}

/-! ## Rows joined together -/

/-- Taking row after row off a number (`nth?`) finds the same entry as joining the rows does. -/
theorem nth?_eq_getElem?_flatten (rows : List (List String)) (index : Nat) :
    nth? rows index = rows.flatten[index]? := by
  induction rows generalizing index with
  | nil => rfl
  | cons row rest ih => rw [nth?, List.flatten_cons, List.getElem?_append, ih]

/-- The rows with their length in front of each entry. -/
def labelledRows (t : Representatives) : List (List (Nat × String)) :=
  t.rows.zipIdx.map fun r => r.1.map fun p => (r.2, p)

/-- The list `toList` of all entries joins the rows. -/
theorem toList_eq_flatten (t : Representatives) : t.toList = t.labelledRows.flatten :=
  List.flatMap_def

/-- A row of `labelledRows` has its own length in front of its entries. -/
theorem getD_labelledRows (t : Representatives) (length : Nat) :
    t.labelledRows.getD length [] = (t.row length).map (length, ·) := by
  rw [labelledRows, row, List.getD_eq_getElem?_getD, List.getElem?_map, List.getElem?_zipIdx,
    List.getD_eq_getElem?_getD]
  cases t.rows[length]? <;> simp

/-- Without the lengths, `labelledRows` are the rows of the table. -/
theorem map_labelledRows (t : Representatives) :
    t.labelledRows.map (List.map Prod.snd) = t.rows := by
  rw [labelledRows, List.map_map]
  conv_rhs => rw [← List.zipIdx_map_fst 0 t.rows]
  refine List.map_congr_left fun r _ => ?_
  simp

/-! ## Numbers of entries -/

/-- The number of entries in the rows before that of `length`. -/
def offset (t : Representatives) (length : Nat) : Nat :=
  sumOf List.length (t.rows.take length)

/-- A row adds its entries to those before it (`offset`); a row that is missing adds none. -/
theorem offset_succ (t : Representatives) (length : Nat) :
    t.offset (length + 1) = t.offset length + (t.row length).length := by
  rw [offset, List.take_add_one, sumOf_append, offset, row, List.getD_eq_getElem?_getD]
  cases t.rows[length]? <;> simp

/-- More rows have no fewer entries: `offset` is monotone. -/
theorem offset_mono (t : Representatives) : Monotone t.offset :=
  monotone_nat_of_le_succ fun length => by
    rw [offset_succ]
    exact Nat.le_add_right _ _

/-- Behind all rows stand all entries, `total` of them. -/
theorem offset_length_rows (t : Representatives) : t.offset t.rows.length = t.total := by
  rw [offset, List.take_length, total]

/-- No row begins behind the last entry: `offset` stays up to `total`. -/
theorem offset_le_total (t : Representatives) (length : Nat) : t.offset length ≤ t.total := by
  rcases Nat.le_total length t.rows.length with hle | hle
  · exact t.offset_length_rows ▸ t.offset_mono hle
  · rw [offset, List.take_of_length_le hle, total]

/-- The number `known?` of an entry is its place behind the entries of the rows before its own,
`offset length + index`. -/
theorem known?_eq_some_iff :
    t.known? length index = some position ↔
      index < (t.row length).length ∧ t.offset length + index = position := by
  rw [known?, Option.ite_none_right_eq_some, Option.some.injEq, offset]

/-- The entries by length and place within their row, as pairs `(length, index)`. -/
def places (t : Representatives) : Set (Nat × Nat) :=
  {place | place.2 < (t.row place.1).length}

/-- Each number below the `total` is the number of exactly one entry, and no other number is:
`known?` is a bijection from `places`. -/
theorem bijOn_known? (t : Representatives) :
    Set.BijOn (fun place => t.known? place.1 place.2) t.places (some '' Set.Iio t.total) := by
  refine ⟨?_, ?_, ?_⟩
  · rintro ⟨length, index⟩ (hindex : index < (t.row length).length)
    refine ⟨t.offset length + index, ?_, (known?_eq_some_iff.mpr ⟨hindex, rfl⟩).symm⟩
    have hle := t.offset_le_total (length + 1)
    rw [offset_succ] at hle
    show t.offset length + index < t.total
    omega
  · rintro ⟨length, index⟩ (hindex : index < (t.row length).length) ⟨other, index'⟩
      (hindex' : index' < (t.row other).length) heq
    have hknown : t.known? length index = some (t.offset other + index') :=
      heq.trans (known?_eq_some_iff.mpr ⟨hindex', rfl⟩)
    obtain ⟨-, hnumber⟩ := known?_eq_some_iff.mp hknown
    -- Both entries have the same number, so their rows are the same, and then their places are.
    have hlt : t.offset length + index < t.offset (length + 1) := by
      rw [offset_succ]
      omega
    have hlt' : t.offset other + index' < t.offset (other + 1) := by
      rw [offset_succ]
      omega
    obtain rfl : length = other :=
      step_unique t.offset_mono ⟨Nat.le_add_right _ _, hlt⟩ (hnumber ▸ ⟨Nat.le_add_right _ _, hlt'⟩)
    rw [Nat.add_left_cancel hnumber]
  · rintro _ ⟨position, hposition, rfl⟩
    rw [Set.mem_Iio, ← offset_length_rows] at hposition
    obtain ⟨length, -, hge, hlt⟩ := exists_step (Nat.zero_le position) hposition
    rw [offset_succ] at hlt
    have hindex : position - t.offset length < (t.row length).length := by omega
    refine ⟨(length, position - t.offset length), hindex, known?_eq_some_iff.mpr ⟨hindex, ?_⟩⟩
    exact Nat.add_sub_of_le hge

/-! ## Entries by their numbers -/

/-- Every entry of a row has a place among all entries, which `resolve?` leads back to it. -/
theorem resolve?_known (hindex : index < (t.row length).length) :
    t.known? length index = some (t.offset length + index) ∧
      t.resolve? (.known (t.offset length + index)) = (t.row length)[index]? := by
  refine ⟨known?_eq_some_iff.mpr ⟨hindex, rfl⟩, ?_⟩
  rw [resolve?, nth?_eq_getElem?_flatten]
  exact List.getElem?_flatten_of_lt hindex

/-- The list `toList` has each entry at its number, with the length of its row. -/
theorem getElem?_toList (hindex : index < (t.row length).length) :
    t.toList[t.offset length + index]? = (t.row length)[index]?.map (length, ·) := by
  have hoffset : t.offset length = sumOf List.length (t.labelledRows.take length) := by
    conv_lhs => rw [offset, ← map_labelledRows, ← List.map_take, sumOf_map]
    simp
  have hlt : index < (t.labelledRows.getD length []).length := by
    rwa [getD_labelledRows, List.length_map]
  rw [toList_eq_flatten, hoffset, List.getElem?_flatten_of_lt hlt, getD_labelledRows, List.getElem?_map]

/-- A number resolves to the entry that stands there in `toList`. -/
theorem resolve?_known_eq (t : Representatives) (position : Nat) :
    t.resolve? (.known position) = t.toList[position]?.map Prod.snd := by
  rw [resolve?, nth?_eq_getElem?_flatten, toList_eq_flatten, ← List.getElem?_map,
    List.map_flatten, map_labelledRows]

/-- The list `toList` is as long as `total` says. -/
theorem length_toList (t : Representatives) : t.toList.length = t.total := by
  rw [total, ← map_labelledRows, toList_eq_flatten, sumOf_map]
  induction t.labelledRows with
  | nil => rfl
  | cons row rest ih =>
    rw [List.flatten_cons, List.length_append, ih, sumOf_cons, List.length_map]

/-- In every table, whatever was published and in which order, exactly the `places` of the rows have
numbers (`known?`), and these are the numbers below the `total`, each that of one place. The number
of an entry resolves to the entry. Resolving the numbers one after the other gives `toList`, and
from the total on they resolve to nothing. -/
theorem references_exact (t : Representatives) :
    (∀ length index, (t.known? length index).isSome ↔ (length, index) ∈ t.places) ∧
      Set.BijOn (fun place => t.known? place.1 place.2) t.places (some '' Set.Iio t.total) ∧
      (∀ length index, (length, index) ∈ t.places → ∃ position proof,
        t.known? length index = some position ∧ (t.row length)[index]? = some proof ∧
          t.resolve? (.known position) = some proof ∧
          t.toList[position]? = some (length, proof)) ∧
      (List.range t.total).map (fun position => t.resolve? (.known position)) =
        t.toList.map (fun entry => some entry.2) ∧
      ∀ position, t.total ≤ position → t.resolve? (.known position) = none := by
  refine ⟨fun length index => ?_, t.bijOn_known?, fun length index hplace => ?_, ?_, ?_⟩
  · rw [known?]
    exact Option.isSome_ite
  · have hindex : index < (t.row length).length := hplace
    obtain ⟨hknown, hresolve⟩ := resolve?_known hindex
    have hentry := getElem?_toList hindex
    rw [List.getElem?_eq_getElem hindex] at hresolve hentry
    exact ⟨_, _, hknown, List.getElem?_eq_getElem hindex, hresolve, hentry⟩
  · refine List.ext_getElem ?_ fun position hrange hentry => ?_
    · rw [List.length_map, List.length_range, List.length_map, length_toList]
    · rw [List.length_map] at hentry
      rw [List.getElem_map, List.getElem_range, resolve?_known_eq, List.getElem?_eq_getElem hentry,
        Option.map_some, List.getElem_map]
  · intro position hposition
    rw [resolve?_known_eq, List.getElem?_eq_none (t.length_toList ▸ hposition)]
    rfl

/-- Three lengths published out of order, one of them without entries and others left out: the entry
of length five comes behind the two axioms. -/
theorem references_exact_gaps :
    let t := ((empty.publish 5 ["DD211"]).publish 3 []).publish 1 ["2", "1"]
    (5, 0) ∈ t.places ∧ t.total = 3 ∧ ∃ position proof,
      t.known? 5 0 = some position ∧ (t.row 5)[0]? = some proof ∧
        t.resolve? (.known position) = some proof ∧ t.toList[position]? = some (5, proof) := by
  have hrows : ((empty.publish 5 ["DD211"]).publish 3 []).publish 1 ["2", "1"] =
      ⟨[[], ["1", "2"], [], [], [], ["DD211"]], []⟩ := by
    have hle : Proof.le "2" "1" = false := by decide +kernel
    have hsort : ["2", "1"].mergeSort Proof.le = ["1", "2"] := by simp [List.mergeSort, hle]
    simp only [publish, publish?, List.mergeSort_nil, List.mergeSort_singleton, hsort]
    decide +kernel
  rw [hrows]
  have hplace : (5, 0) ∈ places ⟨[[], ["1", "2"], [], [], [], ["DD211"]], []⟩ := Nat.zero_lt_one
  exact ⟨hplace, rfl, (references_exact _).2.2.1 5 0 hplace⟩

end Representatives

end Detachment
