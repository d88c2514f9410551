import Mathlib.Data.List.Sort
import Detachment.Proofs.SchemaSearch

/-! # Indexes built in parts

An index that is joined from the indexes of parts is the index of all conclusions. Sorting keeps the
order of conclusions that tie, so it makes no difference whether the parts of a bucket were sorted
before they were put together.

* `SchemaIndex.eq_of_filter_ties_eq` says that the conclusions in a sorted bucket are determined by
  those that tie with each other.
* `SchemaIndex.Grouped.mem_filing_iff` says which buckets come out of filing groups of conclusions.
* `SchemaIndex.join_map_build` joins the indexes of parts.
* `SchemaIndex.buildParts_exact` is the main result. -/

open scoped List

namespace Detachment.SchemaIndex

variable {size : Nat} {a : Indexed} {new entries bucket bucket' : List Indexed}
  {buckets groups groups' : List (Nat × List Indexed)}

/-! ## Stable sorting -/

/-- Whether neither of two conclusions comes before the other, by `Indexed.le`. -/
def ties (a b : Indexed) : Bool :=
  a.le b && b.le a

/-- Every conclusion ties with itself. -/
theorem ties_self (a : Indexed) : ties a a = true := by
  have htotal := order_total a a
  rw [Bool.or_self] at htotal
  rw [ties, htotal, Bool.and_self]

/-- Sorting (`mergeSort`) keeps the order of the conclusions that tie with each other. This is that
the sort is stable, `List.sublist_mergeSort`. -/
theorem filter_ties_mergeSort (a : Indexed) (bucket : List Indexed) :
    (bucket.mergeSort Indexed.le).filter (ties a) = bucket.filter (ties a) := by
  have hpairwise : (bucket.filter (ties a)).Pairwise fun b c => b.le c := by
    refine List.pairwise_of_forall_mem_list fun b hb c hc => ?_
    have hb := (List.mem_filter.mp hb).2
    have hc := (List.mem_filter.mp hc).2
    rw [ties, Bool.and_eq_true] at hb hc
    exact order_trans b a c hb.2 hc.1
  -- What ties was in order before, so it is found in the same order afterwards, and nothing else
  -- ties.
  have hsublist : bucket.filter (ties a) <+ bucket.mergeSort Indexed.le :=
    List.sublist_mergeSort order_trans order_total hpairwise List.filter_sublist
  have htied := hsublist.filter (ties a)
  simp only [List.filter_filter, Bool.and_self] at htied
  exact (htied.eq_of_length ((List.mergeSort_perm bucket _).symm.filter _).length_eq).symm

/-- Buckets with the same conclusions that tie (`ties a`) have the conclusion `a` both or not. -/
theorem mem_iff_of_filter_ties_eq (h : bucket.filter (ties a) = bucket'.filter (ties a)) :
    a ∈ bucket ↔ a ∈ bucket' := by
  have hiff := congrArg (a ∈ ·) h
  simp only [List.mem_filter, ties_self, and_true] at hiff
  exact iff_of_eq hiff

/-- In a sorted bucket, the first conclusion comes no later than any other (`le`). -/
theorem le_of_mem_cons {first : Indexed} (h : (first :: bucket).Pairwise fun a b => a.le b)
    (ha : a ∈ first :: bucket) : first.le a := by
  rcases List.mem_cons.mp ha with rfl | ha
  · have hself := ties_self a
    rw [ties, Bool.and_self] at hself
    exact hself
  · exact List.rel_of_pairwise_cons h ha

/-- Two sorted buckets are the same if they have the same conclusions that tie, in the same order.
The induction is on one bucket: the first conclusions of the two tie, so they are the same by the
filter for either. -/
theorem eq_of_filter_ties_eq (h : bucket.Pairwise fun a b => a.le b)
    (h' : bucket'.Pairwise fun a b => a.le b)
    (hties : ∀ a, bucket.filter (ties a) = bucket'.filter (ties a)) : bucket = bucket' := by
  have hmem := fun a => mem_iff_of_filter_ties_eq (hties a)
  induction bucket generalizing bucket' with
  | nil => exact (List.eq_nil_iff_forall_not_mem.mpr fun a ha => by simpa using (hmem a).mpr ha).symm
  | cons a bucket ih =>
    cases bucket' with
    | nil => exact absurd ((hmem a).mp List.mem_cons_self) List.not_mem_nil
    | cons b bucket' =>
      -- Each of the two first conclusions is in both buckets, so they tie.
      have hab : a.le b := le_of_mem_cons h ((hmem b).mpr List.mem_cons_self)
      have hba : b.le a := le_of_mem_cons h' ((hmem a).mp List.mem_cons_self)
      have htie : ties a b = true := by rw [ties, hab, hba, Bool.and_self]
      have hfirst := hties a
      rw [List.filter_cons_of_pos (ties_self a), List.filter_cons_of_pos htie] at hfirst
      obtain rfl : a = b := (List.cons.inj hfirst).1
      have htail : ∀ c, bucket.filter (ties c) = bucket'.filter (ties c) := by
        intro c
        have hc := hties c
        rw [List.filter_cons, List.filter_cons] at hc
        split at hc
        · exact (List.cons.inj hc).2
        · exact hc
      rw [ih h.of_cons h'.of_cons htail fun c => mem_iff_of_filter_ties_eq (htail c)]

/-- It makes no difference whether the parts of a bucket are sorted before the bucket is, by
`eq_of_filter_ties_eq`. -/
theorem mergeSort_flatMap_mergeSort (parts : List (List Indexed)) :
    (parts.flatMap fun part => part.mergeSort Indexed.le).mergeSort Indexed.le =
      parts.flatten.mergeSort Indexed.le := by
  refine eq_of_filter_ties_eq (pairwise_mergeSort _) (pairwise_mergeSort _) fun a => ?_
  rw [filter_ties_mergeSort, filter_ties_mergeSort, List.filter_flatMap, List.filter_flatten]
  simp only [filter_ties_mergeSort]
  rfl

/-! ## Conclusions of one size -/

/-- The conclusions of a size, in the order of a list. -/
def ofSize (size : Nat) (entries : List Indexed) : List Indexed :=
  entries.filter fun e => e.formula.size == size

/-- Lists one behind the other keep this order within a size. -/
theorem ofSize_append (size : Nat) (entries entries' : List Indexed) :
    ofSize size (entries ++ entries') = ofSize size entries ++ ofSize size entries' :=
  List.filter_append ..

/-- All conclusions of the size are left. -/
theorem ofSize_eq_self (h : ∀ e ∈ entries, e.formula.size = size) : ofSize size entries = entries :=
  List.filter_eq_self.mpr fun e he => beq_iff_eq.mpr (h e he)

/-- No conclusions of other sizes are left. -/
theorem ofSize_eq_nil (h : ∀ e ∈ entries, e.formula.size ≠ size) : ofSize size entries = [] :=
  List.filter_eq_nil_iff.mpr fun e he => by simpa using h e he

/-- The order between conclusions of different sizes does not count for `ofSize`. -/
theorem ofSize_append_comm (hnew : ∀ e ∈ new, e.formula.size = size)
    (hentries : ∀ e ∈ entries, e.formula.size ≠ size) (s : Nat) :
    ofSize s (new ++ entries) = ofSize s (entries ++ new) := by
  rw [ofSize_append, ofSize_append]
  by_cases hs : size = s
  · subst hs
    rw [ofSize_eq_nil hentries, List.nil_append, List.append_nil]
  · rw [ofSize_eq_nil fun e he => hnew e he ▸ hs, List.nil_append, List.append_nil]

/-- The conclusions in the first bucket come first. -/
theorem members_cons (b : Nat × List Indexed) (buckets : List (Nat × List Indexed)) :
    members (b :: buckets) = b.2 ++ members buckets :=
  List.flatMap_cons

/-- Without its first bucket, a filing stays in order. -/
theorem Filed.of_cons {b : Nat × List Indexed} (h : Filed (b :: buckets)) : Filed buckets :=
  ⟨h.ordered.of_cons, fun b' hb' => h.sizes b' (List.mem_cons_of_mem _ hb')⟩

/-- The conclusions behind a bucket have larger sizes, as buckets are `Filed` by size. -/
theorem Filed.lt_of_mem {b : Nat × List Indexed} (h : Filed (b :: buckets)) {e : Indexed}
    (he : e ∈ members buckets) : b.1 < e.formula.size := by
  obtain ⟨b', hb', he⟩ := List.mem_flatMap.mp he
  rw [h.of_cons.sizes b' hb' e he]
  exact List.rel_of_pairwise_cons h.ordered hb'

/-- What `addToBucket` puts in a bucket comes behind all other conclusions of its size. By induction
on the buckets, which are in the order of their sizes. -/
theorem Filed.ofSize_addToBucket (h : Filed buckets) (hnew : ∀ e ∈ new, e.formula.size = size)
    (s : Nat) :
    ofSize s (members (SchemaIndex.addToBucket size new buckets)) =
      ofSize s (members buckets ++ new) := by
  induction buckets with
  | nil => simp [SchemaIndex.addToBucket, members]
  | cons b rest ih =>
    obtain ⟨t, bucket⟩ := b
    have hbucket := h.sizes (t, bucket) List.mem_cons_self
    rw [SchemaIndex.addToBucket]
    split
    · -- A new bucket comes first, and all others have larger sizes.
      next hlt =>
      rw [members_cons]
      refine ofSize_append_comm hnew (fun e he => ?_) s
      rw [members_cons, List.mem_append] at he
      rcases he with he | he
      · rw [hbucket e he]
        exact Nat.ne_of_gt hlt
      · exact Nat.ne_of_gt (Nat.lt_trans hlt (h.lt_of_mem he))
    · split
      · -- The bucket is there already, and those behind it have larger sizes.
        next heq =>
        have hrest : ∀ e ∈ members rest, e.formula.size ≠ size := fun e he =>
          Nat.ne_of_gt (heq ▸ h.lt_of_mem he)
        rw [members_cons, members_cons, List.append_assoc, List.append_assoc, ofSize_append,
          ofSize_append_comm hnew hrest, ← ofSize_append]
      · -- The bucket is further back.
        rw [members_cons, members_cons, List.append_assoc, ofSize_append, ih h.of_cons,
          ← ofSize_append]

/-- Groups of conclusions are filed in the order of the list, for each size: `ofSize_addToBucket`
along the groups. -/
theorem ofSize_foldl_addToBucket (h : Filed buckets)
    (hgroups : ∀ b ∈ groups, ∀ e ∈ b.2, e.formula.size = b.1) (s : Nat) :
    ofSize s (members (groups.foldl (fun bs b => addToBucket b.1 b.2 bs) buckets)) =
      ofSize s (members buckets ++ members groups) := by
  induction groups generalizing buckets with
  | nil => rw [List.foldl_nil, show members [] = [] from rfl, List.append_nil]
  | cons group groups ih =>
    obtain ⟨hgroup, hrest⟩ := List.forall_mem_cons.mp hgroups
    rw [List.foldl_cons, ih (h.addToBucket hgroup) hrest, ofSize_append,
      h.ofSize_addToBucket hgroup, ← ofSize_append, members_cons, List.append_assoc]

/-- The conclusions of the size of a bucket (`ofSize`) are those in the bucket. By induction on the
buckets, as those before it and behind it have other sizes. -/
theorem Filed.ofSize_eq (h : Filed buckets) {b : Nat × List Indexed} (hb : b ∈ buckets) :
    ofSize b.1 (members buckets) = b.2 := by
  induction buckets with
  | nil => exact absurd hb List.not_mem_nil
  | cons first rest ih =>
    rw [members_cons, ofSize_append]
    rcases List.mem_cons.mp hb with rfl | hb
    · rw [ofSize_eq_self (h.sizes b List.mem_cons_self),
        ofSize_eq_nil fun e he => Nat.ne_of_gt (h.lt_of_mem he), List.append_nil]
    · have hlt := List.rel_of_pairwise_cons h.ordered hb
      rw [ih h.of_cons hb, ofSize_eq_nil fun e he => ?_, List.nil_append]
      rw [h.sizes first List.mem_cons_self e he]
      exact Nat.ne_of_lt hlt

/-- Sorting the buckets (`sortBuckets`) sorts the conclusions of each size. A size has one bucket at
most, which is `Filed.ofSize_eq`. -/
theorem Filed.ofSize_sortBuckets (h : Filed buckets) (s : Nat) :
    ofSize s (members (SchemaIndex.sortBuckets buckets)) =
      (ofSize s (members buckets)).mergeSort Indexed.le := by
  by_cases hs : ∃ b ∈ buckets, b.1 = s
  · obtain ⟨b, hb, rfl⟩ := hs
    rw [h.ofSize_eq hb]
    exact h.sortBuckets.ofSize_eq (List.mem_map_of_mem hb)
  · -- A size without a bucket has no conclusions, sorted or not.
    have hnone : ∀ e ∈ members buckets, e.formula.size ≠ s := by
      intro e he hsize
      obtain ⟨b, hb, he⟩ := List.mem_flatMap.mp he
      exact hs ⟨b, hb, (h.sizes b hb e he).symm.trans hsize⟩
    rw [ofSize_eq_nil hnone, ofSize_eq_nil fun e he => hnone e (mem_members_sortBuckets.mp he),
      List.mergeSort_nil]

/-! ## Filing groups -/

/-- Groups of conclusions, each with a size and without conclusions of other sizes. -/
structure Grouped (groups : List (Nat × List Indexed)) : Prop where
  /-- Every conclusion has the size of its group. -/
  sizes : ∀ b ∈ groups, ∀ e ∈ b.2, e.formula.size = b.1
  /-- No group is empty. -/
  ne_nil : ∀ b ∈ groups, b.2 ≠ []

/-- The sorted buckets in which groups are filed, one `addToBucket` after another. -/
def filing (groups : List (Nat × List Indexed)) : List (Nat × List Indexed) :=
  sortBuckets (groups.foldl (fun bs b => addToBucket b.1 b.2 bs) [])

/-- No bucket is empty if none was and what `addToBucket` puts in one is not. By induction on the
buckets, with the three cases of `addToBucket`. -/
theorem ne_nil_of_mem_addToBucket (hnew : new ≠ []) (h : ∀ b ∈ buckets, b.2 ≠ []) :
    ∀ b ∈ addToBucket size new buckets, b.2 ≠ [] := by
  induction buckets with
  | nil => simpa [addToBucket] using hnew
  | cons b rest ih =>
    obtain ⟨hb, hrest⟩ := List.forall_mem_cons.mp h
    rw [addToBucket]
    split
    · exact List.forall_mem_cons.mpr ⟨hnew, h⟩
    · split
      · exact List.forall_mem_cons.mpr ⟨List.append_ne_nil_of_left_ne_nil hb _, hrest⟩
      · exact List.forall_mem_cons.mpr ⟨hb, ih hrest⟩

/-- The same for groups that are filed in turn. -/
theorem ne_nil_of_mem_foldl (hgroups : ∀ b ∈ groups, b.2 ≠ []) (h : ∀ b ∈ buckets, b.2 ≠ []) :
    ∀ b ∈ groups.foldl (fun bs b => addToBucket b.1 b.2 bs) buckets, b.2 ≠ [] := by
  induction groups generalizing buckets with
  | nil => exact h
  | cons group groups ih =>
    obtain ⟨hgroup, hrest⟩ := List.forall_mem_cons.mp hgroups
    exact ih hrest (ne_nil_of_mem_addToBucket hgroup h)

/-- Groups are filed in buckets that are in order (`Filed`). -/
theorem Grouped.filed (h : Grouped groups) : Filed (filing groups) :=
  (foldl_addToBucket_spec h.sizes filed_nil).1.sortBuckets

/-- The buckets of a `filing` are `Grouped` themselves, so indexes can be filed again. -/
theorem Grouped.filing (h : Grouped groups) : Grouped (filing groups) := by
  refine ⟨h.filed.sizes, fun b hb hnil => ?_⟩
  obtain ⟨old, hold, rfl⟩ := List.mem_map.mp hb
  refine ne_nil_of_mem_foldl h.ne_nil (List.forall_mem_nil _) old hold ?_
  exact List.Perm.eq_nil (hnil ▸ (List.mergeSort_perm old.2 _).symm)

/-- The conclusions of each size are filed in order: `filing` sorts `ofSize`. -/
theorem Grouped.ofSize_filing (h : Grouped groups) (s : Nat) :
    ofSize s (members (SchemaIndex.filing groups)) =
      (ofSize s (members groups)).mergeSort Indexed.le := by
  rw [SchemaIndex.filing, (foldl_addToBucket_spec h.sizes filed_nil).1.ofSize_sortBuckets,
    ofSize_foldl_addToBucket filed_nil h.sizes]
  rfl

/-- There is a bucket in a `filing` for each size that occurs, with the conclusions of that size in
order. -/
theorem Grouped.mem_filing_iff (h : Grouped groups) (b : Nat × List Indexed) :
    b ∈ SchemaIndex.filing groups ↔
      b.2 ≠ [] ∧ b.2 = (ofSize b.1 (members groups)).mergeSort Indexed.le := by
  rw [← h.ofSize_filing]
  refine ⟨fun hb => ⟨h.filing.ne_nil b hb, (h.filed.ofSize_eq hb).symm⟩, ?_⟩
  rintro ⟨hne, heq⟩
  -- One of the conclusions is in some bucket, and the size says which.
  obtain ⟨e, he⟩ := List.exists_mem_of_ne_nil _ hne
  rw [heq, ofSize, List.mem_filter, beq_iff_eq] at he
  obtain ⟨b', hb', heb'⟩ := List.mem_flatMap.mp he.1
  have hsize : b'.1 = b.1 := (h.filed.sizes b' hb' e heb').symm.trans he.2
  have hbucket : b'.2 = b.2 := by rw [heq, ← hsize, h.filed.ofSize_eq hb']
  rwa [← Prod.ext hsize hbucket]

/-- Groups have the same `filing` if they have the same conclusions of each size, up to their order
before sorting. -/
theorem Grouped.filing_eq (h : Grouped groups) (h' : Grouped groups')
    (heq : ∀ s, (ofSize s (members groups)).mergeSort Indexed.le =
      (ofSize s (members groups')).mergeSort Indexed.le) :
    SchemaIndex.filing groups = SchemaIndex.filing groups' := by
  have hantisymm : Std.Antisymm fun a b : Nat × List Indexed => a.1 < b.1 :=
    ⟨fun a b hab hba => absurd hab (Nat.lt_asymm hba)⟩
  have hirrefl : Std.Irrefl fun a b : Nat × List Indexed => a.1 < b.1 :=
    ⟨fun a => Nat.lt_irrefl a.1⟩
  -- Both lists of buckets are in order, so it is enough that they have the same buckets.
  refine List.Pairwise.eq_of_mem_iff h.filed.ordered h'.filed.ordered fun b => ?_
  rw [h.mem_filing_iff, h'.mem_filing_iff, heq]

/-! ## Indexes -/

/-- Every conclusion as a group of its own. -/
def singletons (entries : List Indexed) : List (Nat × List Indexed) :=
  entries.map fun e => (e.formula.size, [e])

/-- Conclusions on their own are groups. -/
theorem grouped_singletons (entries : List Indexed) : Grouped (singletons entries) := by
  constructor
  · intro b hb e he
    obtain ⟨d, -, rfl⟩ := List.mem_map.mp hb
    rw [List.mem_singleton.mp he]
  · intro b hb
    obtain ⟨d, -, rfl⟩ := List.mem_map.mp hb
    exact List.cons_ne_nil _ _

/-- Nothing is added or left out. -/
@[simp]
theorem members_singletons (entries : List Indexed) : members (singletons entries) = entries := by
  rw [members, singletons, List.flatMap_map]
  exact List.flatMap_singleton' entries

/-- Building an index files every conclusion on its own. -/
theorem buckets_build (entries : List Indexed) :
    (build entries).buckets = filing (singletons entries) := by
  rw [build, filing, singletons, List.foldl_map]

/-- The conclusions of a size in an index (`build`) are in order. -/
theorem ofSize_members_build (s : Nat) (entries : List Indexed) :
    ofSize s (members (build entries).buckets) = (ofSize s entries).mergeSort Indexed.le := by
  rw [buckets_build, (grouped_singletons entries).ofSize_filing, members_singletons]

/-- The buckets of several indexes (`build`) are groups, which can be filed. Each of them comes from
one index, which is a `filing` of single conclusions. -/
theorem grouped_flatMap_buckets (parts : List (List Indexed)) :
    Grouped ((parts.map build).flatMap (·.buckets)) := by
  have hpart : ∀ b ∈ (parts.map build).flatMap (·.buckets),
      ∃ part, b ∈ filing (singletons part) := by
    intro b hb
    obtain ⟨index, hindex, hb⟩ := List.mem_flatMap.mp hb
    obtain ⟨part, -, rfl⟩ := List.mem_map.mp hindex
    exact ⟨part, buckets_build part ▸ hb⟩
  constructor
  · intro b hb
    obtain ⟨part, hb⟩ := hpart b hb
    exact (grouped_singletons part).filing.sizes b hb
  · intro b hb
    obtain ⟨part, hb⟩ := hpart b hb
    exact (grouped_singletons part).filing.ne_nil b hb

/-- Indexes of parts have as many conclusions (`size`) as the parts together. -/
theorem sumOf_size_map_build (parts : List (List Indexed)) :
    sumOf (·.size) (parts.map build) = parts.flatten.length := by
  rw [sumOf_map]
  induction parts with
  | nil => rfl
  | cons part parts ih =>
    rw [sumOf_cons, ih, List.flatten_cons, List.length_append]
    rfl

/-- Indexes of parts are joined (`join`) to the index of all conclusions: by `filing_eq` only the
conclusions of each size count, and `mergeSort_flatMap_mergeSort` sorts the parts. -/
theorem join_map_build (parts : List (List Indexed)) :
    join (parts.map build) = build parts.flatten := by
  have hmembers : ∀ s, ofSize s (members ((parts.map build).flatMap (·.buckets))) =
      (parts.map (ofSize s)).flatMap fun part => part.mergeSort Indexed.le := by
    intro s
    rw [members, List.flatMap_assoc, List.flatMap_map, ofSize, List.filter_flatMap, List.flatMap_map]
    exact List.flatMap_congr fun part _ => ofSize_members_build s part
  have hbuckets : filing ((parts.map build).flatMap (·.buckets)) =
      filing (singletons parts.flatten) := by
    refine (grouped_flatMap_buckets parts).filing_eq (grouped_singletons _) fun s => ?_
    rw [hmembers, mergeSort_flatMap_mergeSort, members_singletons, ofSize, List.filter_flatten]
    rfl
  rw [join, sumOf_size_map_build]
  exact congrArg (SchemaIndex.mk · parts.flatten.length) (hbuckets.trans (buckets_build _).symm)

/-- However many workers there are, an index that is built in parts (`buildParts`) is the index that
is built in one go (`build`). It has one bucket for each size that occurs, the smallest size first,
and in it the conclusions of that size: short proofs first, then in the order of the keys, and those
that tie in the order of the list. -/
theorem buildParts_exact (entries : List Indexed) (workers : Nat) :
    buildParts entries workers = build entries ∧
    (buildParts entries workers).size = entries.length ∧
    ((buildParts entries workers).buckets.Pairwise fun a b => a.1 < b.1) ∧
    ∀ b, b ∈ (buildParts entries workers).buckets ↔
      b.2 ≠ [] ∧ b.2 = (ofSize b.1 entries).mergeSort Indexed.le := by
  have heq : buildParts entries workers = build entries := by
    rw [buildParts]
    split
    · rfl
    · exact (join_map_build _).trans (congrArg build (flatten_chunks _ _ _))
  have hgrouped := grouped_singletons entries
  rw [heq, buckets_build]
  refine ⟨rfl, rfl, hgrouped.filed.ordered, fun b => ?_⟩
  rw [hgrouped.mem_filing_iff, members_singletons]

end Detachment.SchemaIndex
