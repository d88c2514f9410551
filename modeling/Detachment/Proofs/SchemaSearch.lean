import Mathlib.Data.List.Basic
import Detachment.Proofs.Matching
import Detachment.SchemaIndex

/-! # Searching for more general conclusions

The buckets of an index and the order inside them only save work: the search finds a conclusion that
makes a formula redundant whenever there is one.

* `SchemaIndex.Filed` says that the buckets are in order and hold the right sizes.
* `SchemaIndex.holds_build` and `SchemaIndex.holds_buildParts` say what an index holds.
* `SchemaIndex.find?_isSome_iff` says when the search is successful. -/

namespace Detachment

/-- A formula is no larger than its instances: what is put in for a variable has a size of one at
least. -/
theorem Formula.Generalizes.size_le {f g : Formula} (h : f.Generalizes g) : f.size ≤ g.size := by
  obtain ⟨s, rfl⟩ := h
  induction f with
  | var id => exact Formula.size_pos _
  | unary op f ih => exact Nat.succ_le_succ ih
  | binary op f g ihf ihg => exact Nat.succ_le_succ (Nat.add_le_add ihf ihg)

namespace SchemaIndex

variable {f : Formula} {proofLength size : Nat} {key : String} {e : Indexed}
  {new entries bucket : List Indexed} {buckets : List (Nat × List Indexed)}

/-! ## One bucket -/

/-- The conclusion `e` makes the formula `f` redundant: it has another key, a proof that is not
longer, and is more general. -/
def Subsumes (e : Indexed) (f : Formula) (proofLength : Nat) (key : String) : Prop :=
  e.key ≠ key ∧ e.proofLength ≤ proofLength ∧ e.formula.Generalizes f

/-- In the order `le` of a bucket, proofs do not get shorter. -/
theorem proofLength_le_of_le {a b : Indexed} (h : a.le b) : a.proofLength ≤ b.proofLength := by
  by_contra hlt
  have hgt : compare a.proofLength b.proofLength = .gt :=
    Nat.compare_eq_gt.mpr (Nat.not_le.mp hlt)
  rw [Indexed.le, Indexed.order, hgt] at h
  cases h

instance : Std.TransCmp Indexed.order :=
  inferInstanceAs
    (Std.TransCmp (compareLex (compareOn Indexed.proofLength) (compareOn Indexed.key)))

/-- The order of a bucket is transitive. -/
theorem order_trans (a b c : Indexed) (hab : a.le b) (hbc : b.le c) : a.le c := by
  rw [Indexed.le] at hab hbc ⊢
  exact Std.TransCmp.isLE_trans hab hbc

/-- Of two conclusions, one does not come after the other (`le`). -/
theorem order_total (a b : Indexed) : (a.le b || b.le a) = true := by
  have hswap : b.order a = (a.order b).swap := Std.OrientedCmp.eq_swap
  rw [Indexed.le, Indexed.le, hswap]
  cases a.order b <;> rfl

/-- A sorted bucket is in order, for `le`. -/
theorem pairwise_mergeSort (bucket : List Indexed) :
    (bucket.mergeSort Indexed.le).Pairwise fun a b => a.le b :=
  List.pairwise_mergeSort order_trans order_total bucket

/-- In a sorted bucket, proofs do not get shorter, so `findIn?` may stop at the first that is too
long. -/
theorem pairwise_mergeSort_le (bucket : List Indexed) :
    (bucket.mergeSort Indexed.le).Pairwise fun a b => a.proofLength ≤ b.proofLength :=
  (pairwise_mergeSort bucket).imp proofLength_le_of_le

/-- The search `findIn?` in a sorted bucket succeeds if the bucket has something that `Subsumes` the
formula. -/
theorem findIn?_isSome_iff (hsorted : bucket.Pairwise fun a b => a.proofLength ≤ b.proofLength) :
    (findIn? f proofLength key bucket).isSome ↔
      ∃ e ∈ bucket, Subsumes e f proofLength key := by
  induction bucket with
  | nil => simp [findIn?]
  | cons e rest ih =>
    obtain ⟨hfirst, hrest⟩ := List.pairwise_cons.mp hsorted
    rw [findIn?]
    by_cases hlong : proofLength < e.proofLength
    · -- All later proofs are too long, too.
      rw [if_pos hlong]
      refine ⟨fun h => (Bool.false_ne_true h).elim, ?_⟩
      rintro ⟨d, hd, -, hle, -⟩
      rcases List.mem_cons.mp hd with rfl | hd
      · omega
      · have := hfirst d hd
        omega
    · rw [if_neg hlong]
      by_cases hfits : isSchema e.formula f && e.key != key
      · -- The first conclusion of the bucket will do.
        rw [if_pos hfits]
        rw [Bool.and_eq_true, isSchema_iff, bne_iff_ne] at hfits
        refine ⟨fun _ => ⟨e, List.mem_cons_self, hfits.2, Nat.not_lt.mp hlong, hfits.1⟩,
          fun _ => rfl⟩
      · -- It will not do, so another one has to.
        rw [if_neg hfits, ih hrest]
        rw [Bool.and_eq_true, isSchema_iff, bne_iff_ne] at hfits
        constructor
        · rintro ⟨d, hd, hsub⟩
          exact ⟨d, List.mem_cons_of_mem _ hd, hsub⟩
        · rintro ⟨d, hd, hkey, hle, hgeneral⟩
          rcases List.mem_cons.mp hd with rfl | hd
          · exact absurd ⟨hgeneral, hkey⟩ hfits
          · exact ⟨d, hd, hkey, hle, hgeneral⟩

/-! ## Filing conclusions -/

/-- The conclusions of some buckets, one bucket after the other. -/
def members (buckets : List (Nat × List Indexed)) : List Indexed :=
  buckets.flatMap (·.2)

/-- Buckets in the order of their sizes, each with formulas of its size. -/
structure Filed (buckets : List (Nat × List Indexed)) : Prop where
  /-- The smallest size comes first, and no size twice. -/
  ordered : buckets.Pairwise fun a b => a.1 < b.1
  /-- Every formula is in the bucket of its size. -/
  sizes : ∀ b ∈ buckets, ∀ e ∈ b.2, e.formula.size = b.1

/-- There is nothing to put in order at first: no buckets are `Filed`. -/
theorem filed_nil : Filed [] :=
  ⟨List.Pairwise.nil, fun _ hb => absurd hb List.not_mem_nil⟩

/-- What `addToBucket` puts in a bucket is added to the conclusions. By induction on the buckets,
with the three cases of `addToBucket`. -/
theorem mem_members_addToBucket :
    e ∈ members (addToBucket size new buckets) ↔ e ∈ new ∨ e ∈ members buckets := by
  induction buckets with
  | nil => simp [addToBucket, members]
  | cons b rest ih =>
    obtain ⟨s, bucket⟩ := b
    rw [addToBucket]
    split
    · simp [members]
    · split
      · simp only [members, List.flatMap_cons, List.mem_append]
        tauto
      · simp only [members, List.flatMap_cons, List.mem_append] at ih ⊢
        rw [ih]
        tauto

/-- Every bucket after `addToBucket` is old, or has the size of what was added. By induction on the
buckets, as the others stay as they are. -/
theorem eq_or_exists_of_mem_addToBucket {b : Nat × List Indexed}
    (h : b ∈ addToBucket size new buckets) : b.1 = size ∨ ∃ old ∈ buckets, b.1 = old.1 := by
  induction buckets with
  | nil =>
    rw [addToBucket, List.mem_singleton] at h
    exact .inl (by rw [h])
  | cons old rest ih =>
    obtain ⟨s, bucket⟩ := old
    rw [addToBucket] at h
    split at h
    · rcases List.mem_cons.mp h with rfl | h
      · exact .inl rfl
      · exact .inr ⟨b, h, rfl⟩
    · split at h
      · rcases List.mem_cons.mp h with rfl | h
        · exact .inr ⟨_, List.mem_cons_self, rfl⟩
        · exact .inr ⟨b, List.mem_cons_of_mem _ h, rfl⟩
      · rcases List.mem_cons.mp h with rfl | h
        · exact .inr ⟨_, List.mem_cons_self, rfl⟩
        · rcases ih h with heq | ⟨old, hold, heq⟩
          · exact .inl heq
          · exact .inr ⟨old, List.mem_cons_of_mem _ hold, heq⟩

/-- Putting formulas of one size in their bucket (`addToBucket`) keeps the buckets `Filed`. By
induction on the buckets, which stay in the order of their sizes. -/
theorem Filed.addToBucket (h : Filed buckets) (hnew : ∀ e ∈ new, e.formula.size = size) :
    Filed (addToBucket size new buckets) := by
  induction buckets with
  | nil =>
    refine ⟨List.pairwise_singleton _ _, fun b hb e he => ?_⟩
    obtain rfl := List.mem_singleton.mp hb
    exact hnew e he
  | cons old rest ih =>
    obtain ⟨s, bucket⟩ := old
    obtain ⟨hfirst, hordered⟩ := List.pairwise_cons.mp h.ordered
    have hrest : Filed rest := ⟨hordered, fun b hb => h.sizes b (List.mem_cons_of_mem _ hb)⟩
    have hbucket := h.sizes (s, bucket) List.mem_cons_self
    rw [SchemaIndex.addToBucket]
    split
    · next hlt =>
      -- A new bucket comes before all others.
      refine ⟨List.pairwise_cons.mpr ⟨fun b hb => ?_, h.ordered⟩, fun b hb => ?_⟩
      · rcases List.mem_cons.mp hb with rfl | hb
        · exact hlt
        · exact Nat.lt_trans hlt (hfirst b hb)
      · rcases List.mem_cons.mp hb with rfl | hb
        · exact hnew
        · exact h.sizes b hb
    · split
      · next heq =>
        -- The bucket of this size is there and gets longer.
        refine ⟨List.pairwise_cons.mpr ⟨hfirst, hordered⟩, fun b hb => ?_⟩
        rcases List.mem_cons.mp hb with rfl | hb
        · intro e he
          rcases List.mem_append.mp he with he | he
          · exact hbucket e he
          · exact (hnew e he).trans heq
        · exact h.sizes b (List.mem_cons_of_mem _ hb)
      · next hlt hne =>
        -- The bucket is further back. What stands there has the new size or a size that was there.
        refine ⟨List.pairwise_cons.mpr ⟨fun b hb => ?_, (ih hrest).ordered⟩, fun b hb => ?_⟩
        · rcases eq_or_exists_of_mem_addToBucket hb with heq | ⟨old, hold, heq⟩
          · show s < b.1
            omega
          · show s < b.1
            rw [heq]
            exact hfirst old hold
        · rcases List.mem_cons.mp hb with rfl | hb
          · exact hbucket
          · exact (ih hrest).sizes b hb

/-- Sorting the buckets (`sortBuckets`) keeps their conclusions. -/
theorem mem_members_sortBuckets : e ∈ members (sortBuckets buckets) ↔ e ∈ members buckets := by
  simp [members, sortBuckets, List.flatMap_map]

/-- Sorting the buckets (`sortBuckets`) keeps them `Filed`. -/
theorem Filed.sortBuckets (h : Filed buckets) : Filed (sortBuckets buckets) := by
  refine ⟨List.pairwise_map.mpr h.ordered, fun b hb e he => ?_⟩
  obtain ⟨old, hold, rfl⟩ := List.mem_map.mp hb
  exact h.sizes old hold e (List.mem_mergeSort.mp he)

/-- Filing several groups of conclusions, each of one size: the buckets stay `Filed`, and all
conclusions are in them. -/
theorem foldl_addToBucket_spec {groups : List (Nat × List Indexed)}
    (hgroups : ∀ b ∈ groups, ∀ e ∈ b.2, e.formula.size = b.1) (h : Filed buckets) :
    Filed (groups.foldl (fun bs b => addToBucket b.1 b.2 bs) buckets) ∧
      ∀ e, e ∈ members (groups.foldl (fun bs b => addToBucket b.1 b.2 bs) buckets) ↔
        e ∈ members buckets ∨ e ∈ members groups := by
  induction groups generalizing buckets with
  | nil => exact ⟨h, fun e => by simp [members]⟩
  | cons group groups ih =>
    have hgroup := h.addToBucket (hgroups group List.mem_cons_self)
    obtain ⟨hfiled, hmem⟩ := ih (fun b hb => hgroups b (List.mem_cons_of_mem _ hb)) hgroup
    refine ⟨hfiled, fun e => ?_⟩
    rw [List.foldl_cons, hmem, mem_members_addToBucket, or_right_comm]
    simp only [members, List.flatMap_cons, List.mem_append]
    tauto

/-! ## Indexes -/

/-- The index has buckets that are in order and sorted, with the conclusions `entries`. -/
structure Holds (index : SchemaIndex) (entries : List Indexed) : Prop where
  /-- The buckets are in order. -/
  filed : Filed index.buckets
  /-- In each bucket short proofs come first. -/
  sorted : ∀ b ∈ index.buckets, b.2.Pairwise fun a b => a.proofLength ≤ b.proofLength
  /-- The conclusions are in the buckets. -/
  mem_iff : ∀ e, e ∈ members index.buckets ↔ e ∈ entries

/-- Buckets that are `Filed` make an index once they are sorted. -/
theorem Filed.holds (h : Filed buckets) (hmem : ∀ e, e ∈ members buckets ↔ e ∈ entries) :
    Holds ⟨SchemaIndex.sortBuckets buckets, size⟩ entries := by
  refine ⟨h.sortBuckets, fun b hb => ?_, fun e => mem_members_sortBuckets.trans (hmem e)⟩
  obtain ⟨old, -, rfl⟩ := List.mem_map.mp hb
  exact pairwise_mergeSort_le old.2

/-- The index `build entries` holds the conclusions that it was built from. -/
theorem holds_build (entries : List Indexed) : (build entries).Holds entries := by
  have hsizes : ∀ b ∈ entries.map fun e => (e.formula.size, [e]),
      ∀ e ∈ b.2, e.formula.size = b.1 := by
    intro b hb e he
    obtain ⟨d, -, rfl⟩ := List.mem_map.mp hb
    rw [List.mem_singleton.mp he]
  obtain ⟨hfiled, hmem⟩ := foldl_addToBucket_spec hsizes filed_nil
  rw [List.foldl_map] at hfiled hmem
  refine hfiled.holds fun e => (hmem e).trans ?_
  simp [members, List.flatMap_map]

/-- Joined indexes (`join`) hold the conclusions of all parts. The buckets of all parts are put
together by `addToBucket`, one after the other. -/
theorem holds_join (parts : List (List Indexed)) :
    (join (parts.map build)).Holds parts.flatten := by
  have hsizes : ∀ b ∈ (parts.map build).flatMap (·.buckets), ∀ e ∈ b.2, e.formula.size = b.1 := by
    intro b hb
    obtain ⟨index, hindex, hb⟩ := List.mem_flatMap.mp hb
    obtain ⟨part, -, rfl⟩ := List.mem_map.mp hindex
    exact (holds_build part).filed.sizes b hb
  obtain ⟨hfiled, hmem⟩ := foldl_addToBucket_spec hsizes filed_nil
  refine hfiled.holds fun e => (hmem e).trans ?_
  have hparts : members ((parts.map build).flatMap (·.buckets)) =
      parts.flatMap fun part => members (build part).buckets := by
    rw [members, List.flatMap_assoc, List.flatMap_map]
    rfl
  rw [hparts, List.mem_flatMap, List.mem_flatten]
  constructor
  · rintro (hnone | ⟨part, hpart, he⟩)
    · exact absurd hnone List.not_mem_nil
    · exact ⟨part, hpart, ((holds_build part).mem_iff e).mp he⟩
  · rintro ⟨part, hpart, he⟩
    exact .inr ⟨part, hpart, ((holds_build part).mem_iff e).mpr he⟩

/-- Cutting a list into pieces (`chunks`) loses nothing and keeps the order. -/
theorem flatten_chunks (size pieces : Nat) (entries : List Indexed) :
    (chunks size pieces entries).flatten = entries := by
  induction pieces generalizing entries with
  | zero => simp [chunks]
  | succ pieces ih =>
    rw [chunks]
    split
    · simp
    · rw [List.flatten_cons, ih, List.take_append_drop]

/-- An index holds the same conclusions when it is built in parts (`buildParts`). -/
theorem holds_buildParts (entries : List Indexed) (workers : Nat) :
    (buildParts entries workers).Holds entries := by
  rw [buildParts]
  split
  · exact holds_build entries
  · have hjoin := holds_join (chunks ((entries.length + workers - 1) / workers) workers entries)
    rw [flatten_chunks] at hjoin
    exact hjoin

/-! ## The search -/

/-- In increasing order, the sizes up to a bound come first, so `takeWhile` finds all of them. By
induction on the buckets: behind the first larger size there are only larger ones. -/
theorem mem_takeWhile_iff {b : Nat × List Indexed} (h : buckets.Pairwise fun a b => a.1 < b.1) :
    b ∈ buckets.takeWhile (·.1 ≤ size) ↔ b ∈ buckets ∧ b.1 ≤ size := by
  induction buckets with
  | nil => simp
  | cons a rest ih =>
    obtain ⟨hfirst, hrest⟩ := List.pairwise_cons.mp h
    by_cases ha : a.1 ≤ size
    · rw [List.takeWhile_cons_of_pos (by simpa using ha), List.mem_cons, ih hrest, List.mem_cons]
      constructor
      · rintro (rfl | ⟨hb, hle⟩)
        · exact ⟨.inl rfl, ha⟩
        · exact ⟨.inr hb, hle⟩
      · rintro ⟨rfl | hb, hle⟩
        · exact .inl rfl
        · exact .inr ⟨hb, hle⟩
    · rw [List.takeWhile_cons_of_neg (by simpa using ha)]
      refine ⟨fun hb => absurd hb List.not_mem_nil, ?_⟩
      rintro ⟨hb, hle⟩
      rcases List.mem_cons.mp hb with rfl | hb
      · exact absurd hle ha
      · have := hfirst b hb
        omega

/-- The search `find?` succeeds if some conclusion of the index `Subsumes` the formula. Larger
formulas can be left out, as none of them is more general (`size_le`). -/
theorem find?_isSome_iff {index : SchemaIndex} (h : index.Holds entries) :
    (index.find? f proofLength key).isSome ↔ ∃ e ∈ entries, Subsumes e f proofLength key := by
  rw [find?, List.findSome?_isSome_iff]
  constructor
  · rintro ⟨b, hb, hfound⟩
    have hb := ((mem_takeWhile_iff h.filed.ordered).mp hb).1
    obtain ⟨e, he, hsub⟩ := (findIn?_isSome_iff (h.sorted b hb)).mp hfound
    exact ⟨e, (h.mem_iff e).mp (List.mem_flatMap.mpr ⟨b, hb, he⟩), hsub⟩
  · rintro ⟨e, he, hsub⟩
    obtain ⟨b, hb, heb⟩ := List.mem_flatMap.mp ((h.mem_iff e).mpr he)
    have hsize : b.1 ≤ f.size := by
      rw [← h.filed.sizes b hb e heb]
      exact hsub.2.2.size_le
    exact ⟨b, (mem_takeWhile_iff h.filed.ordered).mpr ⟨hb, hsize⟩,
      (findIn?_isSome_iff (h.sorted b hb)).mpr ⟨e, heb, hsub⟩⟩

end SchemaIndex

end Detachment
