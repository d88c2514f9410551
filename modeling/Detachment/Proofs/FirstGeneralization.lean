import Mathlib.Data.List.Basic
import Detachment.Proofs.SchemaSearch

/-! # The first more general conclusion

Of the conclusions that make a formula redundant, the search finds the first one: small formulas
come before larger ones, then short proofs before longer ones, then the order is that of the keys,
and conclusions that agree in all this keep the order in which they were listed.

* `SchemaIndex.searchOrder` is this order.
* `SchemaIndex.findIn?_first` says what is found in one bucket, and `SchemaIndex.find?_least` what
  is found in all of them.
* `SchemaIndex.exists_first` says that there is a first conclusion.
* `SchemaIndex.find?_build_first` says that an index finds the first conclusion, or none if there is
  none. -/

namespace Detachment.SchemaIndex

variable {f : Formula} {proofLength : Nat} {key found : String} {entries bucket : List Indexed}

/-- The order in which the conclusions of a list are tried, each with its place in the list: by the
size of the formula, the length of the proof, the key and the place. -/
def searchOrder (a b : Indexed × Nat) : Ordering :=
  (compare a.1.formula.size b.1.formula.size).then
    ((compare a.1.proofLength b.1.proofLength).then
      ((compare a.1.key b.1.key).then (compare a.2 b.2)))

instance : Std.TransCmp searchOrder :=
  inferInstanceAs (Std.TransCmp (compareLex (compareOn fun a : Indexed × Nat => a.1.formula.size)
    (compareLex (compareOn fun a => a.1.proofLength)
      (compareLex (compareOn fun a => a.1.key) (compareOn Prod.snd)))))

/-- Within a size, the order of the search is `Indexed.order`, that of the bucket, and then that of
the places. -/
theorem searchOrder_eq (a b : Indexed × Nat) :
    searchOrder a b = (compare a.1.formula.size b.1.formula.size).then
      ((a.1.order b.1).then (compare a.2 b.2)) := by
  rw [searchOrder, Indexed.order, Ordering.then_assoc]

/-- Conclusions that take the same place in a bucket (`order` gives `.eq`) have the same key. -/
theorem key_eq_of_order {a b : Indexed} (h : a.order b = .eq) : a.key = b.key := by
  rw [Indexed.order, Ordering.then_eq_eq] at h
  exact Std.LawfulEqCmp.compare_eq_iff_eq.mp h.2

/-- Of the conclusions with a property, one comes first in `searchOrder`, which is total and
transitive. -/
theorem exists_first {p : Indexed × Nat → Prop} {places : List (Indexed × Nat)}
    (h : ∃ x ∈ places, p x) :
    ∃ x ∈ places, p x ∧ ∀ y ∈ places, p y → (searchOrder x y).isLE := by
  induction places with
  | nil =>
    obtain ⟨x, hx, -⟩ := h
    exact absurd hx List.not_mem_nil
  | cons a rest ih =>
    by_cases hrest : ∃ x ∈ rest, p x
    · -- The first one of the rest has to be compared with the head of the list.
      obtain ⟨x, hx, hpx, hfirst⟩ := ih hrest
      by_cases ha : p a ∧ (searchOrder a x).isLE
      · refine ⟨a, List.mem_cons_self, ha.1, fun y hy hpy => ?_⟩
        rcases List.mem_cons.mp hy with rfl | hy
        · exact Std.ReflCmp.isLE_rfl
        · exact Std.TransCmp.isLE_trans ha.2 (hfirst y hy hpy)
      · refine ⟨x, List.mem_cons_of_mem _ hx, hpx, fun y hy hpy => ?_⟩
        rcases List.mem_cons.mp hy with rfl | hy
        · -- The first of the list does not come before the one found in the rest.
          have hgt : ¬(searchOrder y x).isLE := fun hle => ha ⟨hpy, hle⟩
          have hswap : searchOrder x y = (searchOrder y x).swap := Std.OrientedCmp.eq_swap
          rw [hswap]
          cases hcompare : searchOrder y x <;> simp_all
        · exact hfirst y hy hpy
    · obtain ⟨x, hx, hpx⟩ := h
      rcases List.mem_cons.mp hx with rfl | hx
      · refine ⟨x, List.mem_cons_self, hpx, fun y hy hpy => ?_⟩
        rcases List.mem_cons.mp hy with rfl | hy
        · exact Std.ReflCmp.isLE_rfl
        · exact absurd ⟨y, hy, hpy⟩ hrest
      · exact absurd ⟨x, hx, hpx⟩ hrest

/-! ## What is found -/

/-- What `findIn?` finds in a sorted bucket comes before everything else in it that makes the
formula redundant (`Subsumes`). -/
theorem findIn?_first (hsorted : bucket.Pairwise fun a b => a.le b)
    (h : findIn? f proofLength key bucket = some found) :
    ∃ e ∈ bucket, Subsumes e f proofLength key ∧ e.key = found ∧
      ∀ d ∈ bucket, Subsumes d f proofLength key → e.le d := by
  induction bucket with
  | nil => cases h
  | cons e rest ih =>
    obtain ⟨hfirst, hrest⟩ := List.pairwise_cons.mp hsorted
    rw [findIn?] at h
    split at h
    · cases h
    · next hshort =>
      split at h
      · next hfits =>
        rw [Bool.and_eq_true, isSchema_iff, bne_iff_ne] at hfits
        refine ⟨e, List.mem_cons_self, ⟨hfits.2, Nat.not_lt.mp hshort, hfits.1⟩,
          Option.some.inj h, fun d hd _ => ?_⟩
        rcases List.mem_cons.mp hd with rfl | hd
        · exact Std.ReflCmp.isLE_rfl
        · exact hfirst d hd
      · next hfits =>
        obtain ⟨e', he', hsubsumes, hkey, hleast⟩ := ih hrest h
        refine ⟨e', List.mem_cons_of_mem _ he', hsubsumes, hkey, fun d hd hd' => ?_⟩
        rcases List.mem_cons.mp hd with rfl | hd
        · rw [Bool.and_eq_true, isSchema_iff, bne_iff_ne] at hfits
          exact absurd ⟨hd'.2.2, hd'.1⟩ hfits
        · exact hleast d hd hd'

/-- Every bucket of an index (`build`) is sorted. -/
theorem pairwise_of_mem_build {b : Nat × List Indexed} (h : b ∈ (build entries).buckets) :
    b.2.Pairwise fun a b => a.le b := by
  obtain ⟨old, -, rfl⟩ := List.mem_map.mp h
  exact pairwise_mergeSort old.2

/-- What `find?` finds in an index has the smallest formula of all that `Subsumes` the formula, and
comes first in its bucket: the buckets are tried by increasing size. -/
theorem find?_least (h : (build entries).find? f proofLength key = some found) :
    ∃ e ∈ entries, Subsumes e f proofLength key ∧ e.key = found ∧
      ∀ d ∈ entries, Subsumes d f proofLength key →
        e.formula.size < d.formula.size ∨ e.formula.size = d.formula.size ∧ e.le d := by
  have hholds := holds_build entries
  have hordered := hholds.filed.ordered
  rw [find?, List.findSome?_eq_some_iff] at h
  obtain ⟨before, b, after, hbuckets, hfound, hnone⟩ := h
  have hmem : ∀ b' ∈ before ++ b :: after, b' ∈ (build entries).buckets := by
    intro b' hb'
    rw [← hbuckets] at hb'
    exact ((mem_takeWhile_iff hordered).mp hb').1
  have hb := hmem b (List.mem_append_right _ List.mem_cons_self)
  obtain ⟨e, he, hsubsumes, hkey, hleast⟩ := findIn?_first (pairwise_of_mem_build hb) hfound
  refine ⟨e, (hholds.mem_iff e).mp (List.mem_flatMap.mpr ⟨b, hb, he⟩), hsubsumes, hkey,
    fun d hd hd' => ?_⟩
  -- The bucket of the other conclusion is gone through as well, as its formula is small enough.
  obtain ⟨b', hb', hdb'⟩ := List.mem_flatMap.mp ((hholds.mem_iff d).mpr hd)
  have hsize := hholds.filed.sizes b' hb' d hdb'
  rw [hholds.filed.sizes b hb e he, hsize]
  have hvisited : b' ∈ before ++ b :: after := by
    rw [← hbuckets]
    exact (mem_takeWhile_iff hordered).mpr ⟨hb', hsize ▸ hd'.2.2.size_le⟩
  rcases List.mem_append.mp hvisited with hbefore | hnext
  · have hsome := (findIn?_isSome_iff (hholds.sorted b' hb')).mpr ⟨d, hdb', hd'⟩
    rw [hnone b' hbefore] at hsome
    cases hsome
  · rcases List.mem_cons.mp hnext with rfl | hafter
    · exact .inr ⟨rfl, hleast d hdb' hd'⟩
    · have hsorted : (before ++ b :: after).Pairwise fun a b => a.1 < b.1 := by
        rw [← hbuckets]
        exact hordered.sublist (List.takeWhile_sublist _)
      exact .inl ((List.pairwise_cons.mp (List.pairwise_append.mp hsorted).2.1).1 b' hafter)

/-- The conclusion that comes first in `searchOrder` is the one that `find?` finds. What `find?`
gives is least in the order of sizes and then of `order`, and entries that tie have the same key. -/
theorem find?_eq_of_first {x : Indexed × Nat} (hx : x ∈ entries.zipIdx)
    (hsubsumes : Subsumes x.1 f proofLength key)
    (hfirst : ∀ y ∈ entries.zipIdx, Subsumes y.1 f proofLength key → (searchOrder x y).isLE) :
    (build entries).find? f proofLength key = some x.1.key := by
  have hentry : x.1 ∈ entries := List.fst_mem_of_mem_zipIdx hx
  have hsome := (find?_isSome_iff (holds_build entries)).mpr ⟨x.1, hentry, hsubsumes⟩
  obtain ⟨found, hfound⟩ := Option.isSome_iff_exists.mp hsome
  obtain ⟨e, he, hsubsumes', rfl, hleast⟩ := find?_least hfound
  obtain ⟨place, hplace⟩ := List.mem_iff_getElem?.mp he
  have hle := hfirst (e, place) (List.mem_zipIdx_iff_getElem?.mpr hplace) hsubsumes'
  rw [searchOrder_eq] at hle
  -- Each of the two comes no later than the other, so they differ in their places at most.
  rcases hleast x.1 hentry hsubsumes with hlt | ⟨hsize, hle'⟩
  · rw [Nat.compare_eq_gt.mpr hlt] at hle
    cases hle
  · rw [Nat.compare_eq_eq.mpr hsize.symm, Ordering.eq_then] at hle
    have horder : e.order x.1 = .eq :=
      Std.OrientedCmp.isLE_antisymm hle' (Ordering.isLE_left_of_isLE_then hle)
    rw [hfound, key_eq_of_order horder]

/-- A search `find?` comes back empty if no conclusion makes the formula redundant (`Subsumes`), and
otherwise with the key of the first such conclusion in `searchOrder`: the one with the smallest
formula, then the shortest proof, then the least key, then the earliest place in the list. -/
theorem find?_build_first (entries : List Indexed) (f : Formula) (proofLength : Nat)
    (key : String) :
    ((build entries).find? f proofLength key = none ↔
      ∀ e ∈ entries, ¬Subsumes e f proofLength key) ∧
    ∀ found, (build entries).find? f proofLength key = some found ↔
      ∃ x ∈ entries.zipIdx, Subsumes x.1 f proofLength key ∧ x.1.key = found ∧
        ∀ y ∈ entries.zipIdx, Subsumes y.1 f proofLength key → (searchOrder x y).isLE := by
  have hsome : ((build entries).find? f proofLength key).isSome ↔
      ∃ e ∈ entries, Subsumes e f proofLength key := find?_isSome_iff (holds_build entries)
  refine ⟨?_, fun found => ⟨fun hfound => ?_, ?_⟩⟩
  · rw [← Option.not_isSome_iff_eq_none, hsome]
    push Not
    rfl
  · obtain ⟨e, he, hsubsumes⟩ := hsome.mp (Option.isSome_iff_exists.mpr ⟨found, hfound⟩)
    obtain ⟨place, hplace⟩ := List.mem_iff_getElem?.mp he
    obtain ⟨x, hx, hsubsumes, hfirst⟩ := exists_first (p := fun x => Subsumes x.1 f proofLength key)
      ⟨(e, place), List.mem_zipIdx_iff_getElem?.mpr hplace, hsubsumes⟩
    have hkey := find?_eq_of_first hx hsubsumes hfirst
    exact ⟨x, hx, hsubsumes, Option.some.inj (hkey.symm.trans hfound), hfirst⟩
  · rintro ⟨x, hx, hsubsumes, rfl, hfirst⟩
    exact find?_eq_of_first hx hsubsumes hfirst

end Detachment.SchemaIndex
