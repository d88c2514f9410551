import Detachment.Proofs.LateFiltering
import Detachment.Proofs.Lists
import Detachment.Proofs.Offers
import Detachment.Proofs.Resuming

/-! # Tables from files

Resuming puts every line of a file into the table, but registers only the best proof of each
conclusion. Files that list a conclusion twice, in one of them or in two, leave a table with proofs
that are not registered.

* `Collection.Stocked` says what a collection has that was taken over from files;
  `Collection.Stocked.takeOver` and `Collection.Stocked.takeOverFrom` say that this stays so from
  file to file.
* `Collection.Stocked.row_eq` and `Collection.nodup_conclusions` say when the table lists what is
  registered.
* `Cluster.Job.isSome_ofCollection?_iff` says when there is a filter job.
* `Collection.resume_registers_best` puts this together. -/

namespace Detachment

/-! ## Reading files -/

namespace Store

variable {store : Store} {t : FileTree} {length : Nat} {offFrom : Option Nat}

/-- A line that `parseLine` accepts has a proof of the length. The line is refused unless its proof
has this size, whatever layout it has. -/
theorem length_of_parseLine {layout : Option Bool} {line : List Char} {stored : StoredProof}
    {expected : Bool} (h : parseLine length layout line = .ok (stored, expected)) :
    Proof.length stored.proof = length := by
  rw [parseLine] at h
  split at h
  next proof conclusion _ =>
    dsimp only at h
    split at h
    · cases h
    · by_cases hsize : proof.utf8ByteSize = length
      · rw [if_neg (not_not.mpr hsize)] at h
        split at h
        · cases h
        · split at h
          · obtain ⟨rfl, -⟩ := Prod.mk.inj (Except.ok.inj h)
            exact hsize
          · split at h
            · cases h
            · obtain ⟨rfl, -⟩ := Prod.mk.inj (Except.ok.inj h)
              exact hsize
      · rw [if_pos hsize] at h
        split at h <;> cases h

/-- A file that `parseFile` accepts has proofs of the length, by induction on its lines. -/
theorem length_of_parseFile {path : Path} {number : Nat} {layout : Option Bool}
    {lines : List Contents} {proofs : List StoredProof}
    (h : parseFile path length number layout lines = .ok proofs) :
    ∀ stored ∈ proofs, Proof.length stored.proof = length := by
  induction lines generalizing number layout proofs with
  | nil =>
    obtain rfl : [] = proofs := Except.ok.inj h
    exact fun stored hmem => absurd hmem List.not_mem_nil
  | cons line lines ih =>
    rw [parseFile] at h
    split at h
    · cases h
    · split at h
      · cases h
      · next stored expected hline =>
        split at h
        · cases h
        · next rest hrest =>
          obtain rfl := Except.ok.inj h
          exact List.forall_mem_cons.mpr ⟨length_of_parseLine hline, ih hrest⟩

/-- The same for the file of a length in a store. What `loadRepresentatives` returns is what
`parseFile` makes of its lines. -/
theorem length_of_loadRepresentatives {proofs : List StoredProof}
    (h : store.loadRepresentatives t length offFrom = .ok (some proofs)) :
    ∀ stored ∈ proofs, Proof.length stored.proof = length := by
  rw [loadRepresentatives] at h
  split at h
  · cases h
  · cases h
  · next contents _ =>
    cases hparse : parseFile (store.representativesPath length offFrom) length 1 none
        contents.lines with
    | error e =>
      rw [hparse] at h
      cases h
    | ok read =>
      rw [hparse] at h
      obtain rfl := Option.some.inj (Except.ok.inj h)
      exact length_of_parseFile hparse

end Store

/-! ## Listed proofs -/

namespace Representatives

variable {t : Representatives} {length : Nat} {proof : String}

/-- A row is a part of what is listed, `rows.flatten`. -/
theorem sublist_flatten_rows (t : Representatives) (length : Nat) :
    (t.row length).Sublist t.rows.flatten := by
  by_cases hlt : length < t.rows.length
  · rw [row, List.getD_eq_getElem _ _ hlt]
    exact List.sublist_flatten_of_mem (List.getElem_mem hlt)
  · rw [row, List.getD_eq_default _ _ (Nat.not_lt.mp hlt)]
    exact List.nil_sublist _

/-- A proof is listed if it is in some `row`. -/
theorem mem_flatten_rows : proof ∈ t.rows.flatten ↔ ∃ length, proof ∈ t.row length := by
  constructor
  · intro hproof
    obtain ⟨row, hrow, hproof⟩ := List.mem_flatten.mp hproof
    obtain ⟨length, hlt, rfl⟩ := List.mem_iff_getElem.mp hrow
    exact ⟨length, by rwa [Representatives.row, List.getD_eq_getElem _ _ hlt]⟩
  · rintro ⟨length, hproof⟩
    exact (t.sublist_flatten_rows length).subset hproof

/-- Publishing a length that had no proofs (`publish`) adds to what is listed. Both sides are read
by `mem_flatten_rows`, as rows of single lengths. -/
theorem mem_flatten_publish {proofs : List String} (h : ∀ p ∈ proofs, Proof.length p = length)
    (hnew : t.row length = []) :
    proof ∈ (t.publish length proofs).rows.flatten ↔
      proof ∈ t.rows.flatten ∨ proof ∈ proofs := by
  rw [mem_flatten_rows, mem_flatten_rows]
  simp only [row_publish h]
  constructor
  · rintro ⟨other, hproof⟩
    split at hproof
    · exact .inr (List.mem_mergeSort.mp hproof)
    · exact .inl ⟨other, hproof⟩
  · rintro (⟨other, hproof⟩ | hproof)
    · refine ⟨other, ?_⟩
      rw [if_neg fun heq => ?_]
      · exact hproof
      · rw [heq, hnew] at hproof
        cases hproof
    · exact ⟨length, by rw [if_pos rfl]; exact List.mem_mergeSort.mpr hproof⟩

end Representatives

/-! ## Filter jobs -/

namespace Cluster.Job

/-- A registered proof is refused as a candidate (`candidate?`) if the table has another proof in
its place. -/
theorem isOk_candidate?_iff {table : Representatives} {length i : Nat} {proof : String}
    {conclusion : Formula} :
    (candidate? table length proof conclusion i).isOk ↔
      ∀ other, (table.row length)[i]? = some other → proof = other := by
  rw [candidate?]
  by_cases hindex : i < (table.row length).length
  · obtain ⟨hknown, hresolve⟩ := Representatives.resolve?_known hindex
    rw [hknown]
    dsimp only
    rw [hresolve, List.getElem?_eq_getElem hindex]
    split
    · next heq =>
      exact iff_of_true rfl fun other hother => Option.some.inj (heq.symm.trans hother)
    · next hne => exact iff_of_false Bool.false_ne_true fun h => hne (congrArg some (h _ rfl).symm)
  · rw [Representatives.known?, if_neg hindex, List.getElem?_eq_none (Nat.not_lt.mp hindex)]
    simp [Except.isOk, Except.toBool]

/-- There is a job (`ofCollection?`) unless a registered proof and the proof in its place in the
table differ. -/
theorem isSome_ofCollection?_iff {c : Collection} {length : Nat} :
    (ofCollection? c length).isSome ↔
      ∀ (i : Nat) (proof other : String),
        (Collection.proofsOf (c.registry.withLengths [length]))[i]? = some proof →
        (c.table.row length)[i]? = some other → proof = other := by
  have hall : (ofCollection? c length).isSome ↔
      ((c.representatives length).zipIdx.mapM fun x =>
        candidate? c.table length x.1.1 x.1.2 x.2).isOk := by
    rw [ofCollection?]
    dsimp only
    split
    · next heq => exact iff_of_true rfl (by rw [heq]; rfl)
    · next heq => exact iff_of_false Bool.false_ne_true (by rw [heq]; exact Bool.false_ne_true)
  have hproofs : Collection.proofsOf (c.registry.withLengths [length]) =
      (c.representatives length).map (·.1) := by
    rw [Collection.proofsOf, Collection.representatives, List.map_map]
    rfl
  rw [hall, List.isOk_mapM_iff, hproofs]
  constructor
  · intro h i proof other hproof hother
    rw [List.getElem?_map, Option.map_eq_some_iff] at hproof
    obtain ⟨x, hx, rfl⟩ := hproof
    exact isOk_candidate?_iff.mp (h (x, i) (List.mem_zipIdx_iff_getElem?.mpr hx)) other hother
  · rintro h ⟨x, i⟩ hmem
    have hx := List.mem_zipIdx_iff_getElem?.mp hmem
    refine isOk_candidate?_iff.mpr fun other hother => h i x.1 other ?_ hother
    rw [List.getElem?_map, hx]
    rfl

end Cluster.Job

namespace Collection

variable {store : Store} {t : FileTree} {basis : Basis} {settings : Settings} {c d : Collection}
  {length : Nat} {key : String} {e : Entry}

/-! ## Restoring proofs -/

/-- What is restored has the conclusion that it is registered with. A stored conclusion is taken
over only if it is the one that the proof has. -/
theorem conclusion_of_restore {stored : StoredProof} {f : Formula}
    (h : restore basis stored = .ok f) : Proof.conclusion basis stored.proof = .ok f := by
  rw [restore] at h
  split at h
  · cases h
  · next conclusion hconclusion =>
    rw [hconclusion]
    split at h
    · exact congrArg _ (Except.ok.inj h)
    · split at h
      · exact congrArg _ (Except.ok.inj h)
      · cases h

/-- Stored proofs that `restoreAll` accepts have conclusions, and are considered in turn
(`Registry.consider`). -/
theorem restoreAll_eq_ok {stored : List StoredProof} {r r' : Registry}
    (h : restoreAll basis r stored = .ok r') :
    r' = (stored.map (·.proof)).foldl (Registry.consider basis) r ∧
      ∀ p ∈ stored.map (·.proof), ∃ f, Proof.conclusion basis p = .ok f := by
  induction stored generalizing r with
  | nil => exact ⟨(Except.ok.inj h).symm, fun p hp => absurd hp List.not_mem_nil⟩
  | cons first rest ih =>
    rw [restoreAll] at h
    split at h
    · cases h
    · next f hf =>
      have hconclusion := conclusion_of_restore hf
      obtain ⟨heq, hrest⟩ := ih h
      refine ⟨?_, List.forall_mem_cons.mpr ⟨⟨f, hconclusion⟩, hrest⟩⟩
      rw [heq, List.map_cons, List.foldl_cons, Registry.consider, hconclusion]

/-! ## Taking over files -/

/-- The rows list proofs of their lengths as the files of the store do, and the best listed proof of
each conclusion is registered. -/
structure Stocked (store : Store) (t : FileTree) (c : Collection) : Prop where
  /-- Every entry has a proof of its conclusion. -/
  sound : c.registry.Sound c.basis
  /-- A row lists proofs of its length. -/
  proves : ∀ length, ∀ p ∈ c.table.row length,
    Proof.length p = length ∧ ∃ f, Proof.conclusion c.basis p = .ok f
  /-- A row is in order. -/
  sorted : ∀ length, (c.table.row length).Pairwise fun a b => Proof.le a b
  /-- Beyond the axioms a row is empty or has the lines of a file. -/
  lines : ∀ length, 1 < length → c.table.row length = [] ∨
    ∃ stored, store.loadRepresentatives t length (c.settings.filter.offFrom? length) =
        .ok (some stored) ∧
      c.table.row length = (stored.map (·.proof)).mergeSort Proof.le
  /-- The best listed proof of a conclusion is registered. -/
  keeps : ∀ key, c.registry.Keeps key fun w =>
    w ∈ c.table.rows.flatten ∧ Proof.HasKey c.basis key w

/-- A `Consistent` collection registers what it lists: `Keeps` the best of it. -/
theorem Consistent.keeps_listed (h : c.Consistent) (key : String) :
    c.registry.Keeps key fun w => w ∈ c.table.rows.flatten ∧ Proof.HasKey c.basis key w := by
  -- The only listed proof of a conclusion is the one that is registered for it.
  have hlisted : ∀ w, w ∈ c.table.rows.flatten ∧ Proof.HasKey c.basis key w ↔
      ∃ e, c.registry.get? key = some e ∧ e.proof = w := by
    intro w
    rw [Representatives.mem_flatten_rows]
    constructor
    · rintro ⟨⟨length, hw⟩, f, hf, rfl⟩
      obtain ⟨key, e, he, rfl, -⟩ := (h.mem_row length w).mp hw
      obtain ⟨rfl, hconclusion⟩ := h.sound key e he
      rw [Except.ok.inj (hf.symm.trans hconclusion)]
      exact ⟨e, he, rfl⟩
    · rintro ⟨e, he, rfl⟩
      obtain ⟨hkey, hconclusion⟩ := h.sound key e he
      exact ⟨⟨_, (h.mem_row _ _).mpr ⟨key, e, he, rfl, rfl⟩⟩, e.conclusion, hconclusion, hkey⟩
  exact (Registry.keeps_self c.registry key).congr fun w => (hlisted w).symm

/-- The axioms are `Stocked`, taken over from no files. Everything but the order of the rows is
`consistent_start`. -/
theorem stocked_start (store : Store) (t : FileTree) (basis : Basis) (settings : Settings) :
    Stocked store t (start basis settings) := by
  have h := consistent_start basis settings
  refine ⟨h.sound, fun length p hp => ?_, fun length => ?_, fun length hlong => .inl ?_,
    h.keeps_listed⟩
  · obtain ⟨key, e, he, rfl, hlength⟩ := (h.mem_row length p).mp hp
    exact ⟨hlength, e.conclusion, (h.sound key e he).2⟩
  · rw [h.row_eq]
    exact List.pairwise_map.mpr (Registry.pairwise_withLengths _ _)
  · refine Representatives.row_of_knownLimit_lt ?_
    rw [← knownLimit, knownLimit_start]
    exact hlong

/-- The step lemma: taking over the file of a length beyond the known limit (`takeOver`) keeps
`Stocked`. -/
theorem Stocked.takeOver (h : Stocked store t c) (hlt : c.knownLimit < length)
    {stored : List StoredProof} {metadata : Option Metadata}
    (hload : store.loadRepresentatives t length (c.settings.filter.offFrom? length) =
      .ok (some stored))
    (hok : c.takeOver metadata length stored = .ok d) :
    Stocked store t d ∧ d.knownLimit = length ∧ d.basis = c.basis ∧ d.settings = c.settings := by
  have hlengths : ∀ p ∈ stored.map (·.proof), Proof.length p = length :=
    List.forall_mem_map.mpr (Store.length_of_loadRepresentatives hload)
  rw [Collection.takeOver] at hok
  split at hok
  · cases hok
  · next registry hrestore =>
    obtain rfl := Except.ok.inj hok
    obtain ⟨rfl, hproves⟩ := restoreAll_eq_ok hrestore
    -- The row of the file is new, and the others stay.
    have hrow : ∀ other, (c.table.publish length (stored.map (·.proof))).row other =
        if other = length then (stored.map (·.proof)).mergeSort Proof.le
        else c.table.row other := fun other => Representatives.row_publish hlengths
    have hnew : c.table.row length = [] := Representatives.row_of_knownLimit_lt hlt
    refine ⟨⟨(Registry.foldl_consider h.sound _).sound, fun other p hp => ?_, fun other => ?_,
      fun other hlong => ?_, fun key => ?_⟩, ?_, rfl, rfl⟩
    · rw [hrow] at hp
      split at hp
      · next heq =>
        rw [List.mem_mergeSort] at hp
        exact ⟨(hlengths p hp).trans heq.symm, hproves p hp⟩
      · exact h.proves other p hp
    · rw [hrow]
      split
      · have htrans : ∀ a b c : String, Proof.le a b → Proof.le b c → Proof.le a c :=
          fun _ _ _ => Proof.le_trans
        exact List.pairwise_mergeSort htrans Proof.le_total _
      · exact h.sorted other
    · rw [hrow]
      split
      · next heq => exact .inr ⟨stored, heq ▸ hload, rfl⟩
      · exact h.lines other hlong
    · refine ((h.keeps key).foldl_consider c.basis (stored.map (·.proof))).congr fun w => ?_
      rw [← or_and_right, Representatives.mem_flatten_publish hlengths hnew]
    · have hlimit : (c.table.publish length (stored.map (·.proof))).knownLimit =
          max c.knownLimit length := Representatives.knownLimit_publish hlengths
      exact hlimit.trans (Nat.max_eq_right (Nat.le_of_lt hlt))

/-- The run lemma: taking over files one after the other (`takeOverFrom`) keeps `Stocked`. It is by
induction on the lengths that may follow, with `Stocked.takeOver` for one file; the limit grows with
each of them. -/
theorem Stocked.takeOverFrom {metadata : Option Metadata} {fuel : Nat} (h : Stocked store t c)
    (hlt : c.knownLimit < length)
    (hok : Collection.takeOverFrom store t metadata fuel length c = .ok d) :
    Stocked store t d ∧ d.basis = c.basis ∧ d.settings = c.settings := by
  induction fuel generalizing length c with
  | zero =>
    obtain rfl : c = d := Except.ok.inj hok
    exact ⟨h, rfl, rfl⟩
  | succ fuel ih =>
    rw [Collection.takeOverFrom] at hok
    split at hok
    · cases hok
    · obtain rfl : c = d := Except.ok.inj hok
      exact ⟨h, rfl, rfl⟩
    · next stored hload =>
      split at hok
      · cases hok
      · next next hnext =>
        obtain ⟨hstocked, hlimit, hbasis, hsettings⟩ := h.takeOver hlt hload hnext
        have hstep := step_pos next.settings.necessitation
        obtain ⟨hd, hbasis', hsettings'⟩ := ih hstocked (by omega) hok
        exact ⟨hd, hbasis'.trans hbasis, hsettings'.trans hsettings⟩

/-- Whatever is resumed is `Stocked`. -/
theorem stocked_of_resume (hok : resume store t basis settings = .ok c) :
    Stocked store t c ∧ c.basis = basis ∧ c.settings = settings := by
  rw [resume] at hok
  split at hok
  · cases hok
  · refine (stocked_start store t basis settings).takeOverFrom ?_ hok
    have hstep := step_pos settings.necessitation
    rw [knownLimit_start]
    omega

/-! ## What is listed and what is registered -/

/-- What is registered is listed, in the row of its length. -/
theorem Stocked.mem_row (h : Stocked store t c) (he : c.registry.get? key = some e) :
    e.proof ∈ c.table.row (Proof.length e.proof) := by
  obtain ⟨⟨hlisted, -⟩, -⟩ := (h.keeps key).best e he
  obtain ⟨length, hmem⟩ := Representatives.mem_flatten_rows.mp hlisted
  rwa [(h.proves length _ hmem).1]

/-- Where every conclusion is listed once, the rows list what is registered (`withLengths`), in the
same order. -/
theorem Stocked.row_eq (h : Stocked store t c)
    (hnodup : (c.table.rows.flatten.map (Proof.conclusion c.basis)).Nodup) (length : Nat) :
    c.table.row length = proofsOf (c.registry.withLengths [length]) := by
  have hmem : ∀ p, p ∈ c.table.row length ↔ p ∈ proofsOf (c.registry.withLengths [length]) := by
    intro p
    rw [mem_proofsOf_iff]
    constructor
    · intro hp
      obtain ⟨hlength, f, hf⟩ := h.proves length p hp
      have hlisted := (c.table.sublist_flatten_rows length).subset hp
      cases he : c.registry.get? f.polish with
      | none => exact absurd ⟨hlisted, f, hf, rfl⟩ ((h.keeps f.polish).absent he p)
      | some e =>
        -- The registered proof has the same conclusion, so that it is the listed one.
        obtain ⟨hlisted', f', hf', hkey⟩ := ((h.keeps f.polish).best e he).1
        obtain rfl := Formula.polish_inj hkey
        have hsame := List.inj_on_of_nodup_map hnodup hlisted' hlisted (hf'.trans hf.symm)
        exact ⟨f'.polish, e, he, hsame, hlength⟩
    · rintro ⟨key, e, he, rfl, rfl⟩
      exact h.mem_row he
  have hrow : (c.table.row length).Nodup :=
    hnodup.of_map.sublist (c.table.sublist_flatten_rows length)
  have hperm := (List.perm_ext_iff_of_nodup hrow (nodup_proofsOf h.sound [length])).mpr hmem
  exact hperm.eq_of_pairwise (fun _ _ _ _ => Proof.le_antisymm) (h.sorted length)
    (List.pairwise_map.mpr (Registry.pairwise_withLengths _ _))

/-- Where the rows list what is registered (`withLengths`), every conclusion is listed once: a
`Sound` registry has one entry for it. -/
theorem nodup_conclusions (hsound : c.registry.Sound c.basis)
    (hrow : ∀ length, c.table.row length = proofsOf (c.registry.withLengths [length])) :
    (c.table.rows.flatten.map (Proof.conclusion c.basis)).Nodup := by
  -- All rows together are the registered proofs, each in one row.
  have hrows : ∀ (i : Nat) (hi : i < c.table.rows.length),
      c.table.rows[i] = proofsOf (c.registry.withLengths [i]) := by
    intro i hi
    rw [← hrow i, Representatives.row, List.getD_eq_getElem _ _ hi]
  have hlisted : ∀ p ∈ c.table.rows.flatten, ∃ key e, c.registry.get? key = some e ∧ e.proof = p := by
    intro p hp
    obtain ⟨length, hp⟩ := Representatives.mem_flatten_rows.mp hp
    rw [hrow] at hp
    obtain ⟨key, e, he, hproof, -⟩ := mem_proofsOf_iff.mp hp
    exact ⟨key, e, he, hproof⟩
  refine List.Nodup.map_on (fun p hp q hq hsame => ?_)
    (List.nodup_flatten.mpr ⟨fun row hmem => ?_, List.pairwise_iff_getElem.mpr ?_⟩)
  · -- Registered proofs with the same conclusion have the same key, so they are one.
    obtain ⟨key, e, he, rfl⟩ := hlisted p hp
    obtain ⟨key', e', he', rfl⟩ := hlisted q hq
    obtain ⟨rfl, hconclusion⟩ := hsound key e he
    obtain ⟨rfl, hconclusion'⟩ := hsound key' e' he'
    rw [hconclusion, hconclusion'] at hsame
    rw [Except.ok.inj hsame] at he
    rw [Option.some.inj (he.symm.trans he')]
  · obtain ⟨i, hi, rfl⟩ := List.mem_iff_getElem.mp hmem
    rw [hrows i hi]
    exact nodup_proofsOf hsound [i]
  · -- Different rows hold proofs of different lengths.
    intro i j hi hj hlt p hp hp'
    rw [hrows i hi] at hp
    rw [hrows j hj] at hp'
    have := length_of_mem_proofsOf hp
    have := length_of_mem_proofsOf hp'
    omega

/-- There is a filter job (`ofCollection?`) exactly if the registered proofs of a length are the
first ones in its row. -/
theorem Stocked.isSome_ofCollection?_iff (h : Stocked store t c) (length : Nat) :
    (Cluster.Job.ofCollection? c length).isSome ↔
      proofsOf (c.registry.withLengths [length]) <+: c.table.row length := by
  rw [Cluster.Job.isSome_ofCollection?_iff]
  constructor
  · intro hsame
    have hsubset : proofsOf (c.registry.withLengths [length]) ⊆ c.table.row length := by
      intro p hp
      obtain ⟨key, e, he, rfl, rfl⟩ := mem_proofsOf_iff.mp hp
      exact h.mem_row he
    have hle := (List.subperm_of_subset (nodup_proofsOf h.sound [length]) hsubset).length_le
    refine List.prefix_iff_getElem?.mpr fun i hi => ?_
    have hi' := Nat.lt_of_lt_of_le hi hle
    rw [List.getElem?_eq_getElem hi']
    exact congrArg some
      (hsame i _ _ (List.getElem?_eq_getElem hi) (List.getElem?_eq_getElem hi')).symm
  · rintro ⟨rest, hrest⟩ i proof other hproof hother
    have hi := (List.getElem?_eq_some_iff.mp hproof).1
    rw [← hrest, List.getElem?_append_left hi, hproof] at hother
    exact Option.some.inj hother

/-! ## The main result -/

/-- Whatever the files hold, a collection that is resumed (`resume`) lists the lines of its files in
order, with proofs that have conclusions, and registers the best listed proof of every conclusion
(`Keeps`). Its rows list exactly what is registered if and only if no conclusion is listed twice.
There is a filter job for a length if and only if the registered proofs of the length are the first
ones in its row. -/
theorem resume_registers_best (hok : resume store t basis settings = .ok c) :
    (∀ length, 1 < length → c.table.row length = [] ∨
      ∃ stored, store.loadRepresentatives t length (settings.filter.offFrom? length) =
          .ok (some stored) ∧
        c.table.row length = (stored.map (·.proof)).mergeSort Proof.le) ∧
    (∀ length, ∀ p ∈ c.table.row length,
      Proof.length p = length ∧ ∃ f, Proof.conclusion basis p = .ok f) ∧
    (∀ key, c.registry.Keeps key fun w =>
      w ∈ c.table.rows.flatten ∧ Proof.HasKey basis key w) ∧
    ((∀ length, c.table.row length = proofsOf (c.registry.withLengths [length])) ↔
      (c.table.rows.flatten.map (Proof.conclusion basis)).Nodup) ∧
    ∀ length, (Cluster.Job.ofCollection? c length).isSome ↔
      proofsOf (c.registry.withLengths [length]) <+: c.table.row length := by
  obtain ⟨h, rfl, rfl⟩ := stocked_of_resume hok
  exact ⟨h.lines, h.proves, h.keeps, ⟨nodup_conclusions h.sound, h.row_eq⟩,
    h.isSome_ofCollection?_iff⟩

/-! ## One file -/

/-- A store at the top of a tree. -/
def topStore : Store := ⟨⟨""⟩, weakenings.fingerprint⟩

/-- The tree with one file at its top. -/
def oneFile (name text : String) : FileTree := ⟨[([name], .file (.ofText text))]⟩

/-- What is read from a tree with one file (`oneFile`): this file, or nothing. The path leads to a
single name (`Path.location_join`), which is looked up in a list of one node. -/
theorem readAt_oneFile {name other text : String} (hname : Path.IsName other)
    (hsize : other.utf8ByteSize ≤ Path.maxSize) :
    (oneFile name text).readAt (topStore.root.join other) =
      if other = name then .ok (.ofText text) else .error .missing := by
  have hsize : (topStore.root.join other).text.utf8ByteSize ≤ Path.maxSize := hsize
  have hlocation : (topStore.root.join other).location = [other] :=
    Path.location_join topStore.root hname
  have htop : Location.isTop [other] = false := FileTree.isTop_append [] hname
  have hbelow : (oneFile name text).isBelowFile [other] = false := rfl
  rw [FileTree.readAt, Path.locate_of_le hsize]
  dsimp only
  rw [hlocation, FileTree.read, hbelow, if_neg Bool.false_ne_true, FileTree.node?, htop,
    if_neg Bool.false_ne_true, oneFile]
  by_cases heq : other = name
  · rw [heq, if_pos rfl, List.lookup_cons_self]
  · have hne : ([other] == [name]) = false := by simpa using heq
    rw [if_neg heq, List.lookup, hne, List.lookup]

/-- Resuming from one file with representatives of length three: what is parsed from its lines is
taken over, and no other file is there. -/
theorem resume_oneFile {text : String} {stored : List StoredProof} {registered : List String}
    (hparse : ∀ path, Store.parseFile path 3 1 none (Contents.ofText text).lines = .ok stored)
    (hproofs : (restoreAll weakenings (start weakenings ⟨.disabled, .always, 1⟩).registry stored).map
      (fun r => proofsOf (r.withLengths [3])) = .ok registered) :
    ∃ c, resume topStore (oneFile "dProofs3.txt" text) weakenings ⟨.disabled, .always, 1⟩ = .ok c ∧
      c.table = (start weakenings ⟨.disabled, .always, 1⟩).table.publish 3 (stored.map (·.proof)) ∧
      proofsOf (c.registry.withLengths [3]) = registered := by
  have hmetadata : topStore.loadMetadata (oneFile "dProofs3.txt" text) = .ok none := by
    rw [Store.loadMetadata, Store.metadataPath,
      readAt_oneFile Store.isName_metadataName (by decide)]
    rfl
  have hname : Store.representativesName 3 none = "dProofs3.txt" := by cbv
  have hname' : Store.representativesName 5 none = "dProofs5.txt" := by cbv
  have hload : topStore.loadRepresentatives (oneFile "dProofs3.txt" text) 3 none =
      .ok (some stored) := by
    rw [Store.loadRepresentatives, Store.representativesPath,
      readAt_oneFile (Store.isName_representativesName 3 none) (by rw [hname]; decide), if_pos hname]
    dsimp only
    rw [hparse]
    rfl
  have hnext : topStore.loadRepresentatives (oneFile "dProofs3.txt" text) 5 none = .ok none := by
    rw [Store.loadRepresentatives, Store.representativesPath,
      readAt_oneFile (Store.isName_representativesName 5 none) (by rw [hname']; decide),
      if_neg (by rw [hname']; decide)]
  obtain ⟨d, htake, hsettings, hd⟩ :
      ∃ d, (start weakenings ⟨.disabled, .always, 1⟩).takeOver none 3 stored = .ok d ∧
        d.settings = ⟨.disabled, .always, 1⟩ ∧
        d.table = (start weakenings ⟨.disabled, .always, 1⟩).table.publish 3
          (stored.map (·.proof)) ∧
        proofsOf (d.registry.withLengths [3]) = registered := by
    rw [takeOver]
    split
    · next e he =>
      rw [show restoreAll weakenings _ _ = _ from he] at hproofs
      cases hproofs
    · next r hr =>
      rw [show restoreAll weakenings _ _ = _ from hr] at hproofs
      exact ⟨_, rfl, rfl, rfl, Except.ok.inj hproofs⟩
  refine ⟨d, ?_, hd⟩
  -- There are no more than two lengths to look at.
  have hlast : takeOverFrom topStore (oneFile "dProofs3.txt" text) none 1 5 d = .ok d := by
    rw [takeOverFrom, hsettings, show InstanceFilter.always.offFrom? 5 = none from rfl, hnext]
  have hfirst : takeOverFrom topStore (oneFile "dProofs3.txt" text) none 2 3
      (start weakenings ⟨.disabled, .always, 1⟩) = .ok d := by
    rw [takeOverFrom, show (start weakenings ⟨.disabled, .always, 1⟩).settings.filter.offFrom? 3 =
      none from rfl, hload]
    dsimp only
    rw [htake]
    dsimp only
    rw [hsettings]
    exact hlast
  rw [resume, hmetadata]
  exact hfirst

/-- A file that lists two conclusions once each gives a table of what is registered. -/
theorem resume_registers_best_weakenings :
    ∃ c, resume topStore (oneFile "dProofs3.txt" "D11\nD12\n") weakenings
        ⟨.disabled, .always, 1⟩ = .ok c ∧
      c.table.row 3 = ["D11", "D12"] ∧
      (∀ length, c.table.row length = proofsOf (c.registry.withLengths [length])) ∧
      (Cluster.Job.ofCollection? c 3).isSome := by
  have hparse : ∀ path, Store.parseFile path 3 1 none (Contents.ofText "D11\nD12\n").lines =
      .ok [⟨"D11", none⟩, ⟨"D12", none⟩] := by
    intro path
    cbv
  have hproofs : (restoreAll weakenings (start weakenings ⟨.disabled, .always, 1⟩).registry
      [⟨"D11", none⟩, ⟨"D12", none⟩]).map (fun r => proofsOf (r.withLengths [3])) =
        .ok ["D11", "D12"] := by cbv
  obtain ⟨c, hresume, htable, hregistered⟩ := resume_oneFile hparse hproofs
  have hrow : c.table.row 3 = ["D11", "D12"] := by
    rw [htable]
    cbv
  have hlisted : c.table.rows.flatten = ["1", "2", "D11", "D12"] := by
    rw [htable]
    cbv
  have hnodup : (c.table.rows.flatten.map (Proof.conclusion weakenings)).Nodup := by
    rw [hlisted]
    exact of_decide_eq_true (by cbv)
  obtain ⟨-, -, -, hrows, hjob⟩ := resume_registers_best hresume
  refine ⟨c, hresume, hrow, hrows.mpr hnodup, (hjob 3).mpr ?_⟩
  rw [hregistered, hrow]

/-- A file that lists a conclusion twice is accepted as well. Then a line of the table is not
registered, and there is no filter job. -/
theorem not_resume_registers_all :
    ∃ c, resume topStore (oneFile "dProofs3.txt" "D11\nD11\nD12\n") weakenings
        ⟨.disabled, .always, 1⟩ = .ok c ∧
      c.table.row 3 = ["D11", "D11", "D12"] ∧
      proofsOf (c.registry.withLengths [3]) = ["D11", "D12"] ∧
      Cluster.Job.ofCollection? c 3 = none := by
  have hparse : ∀ path, Store.parseFile path 3 1 none
      (Contents.ofText "D11\nD11\nD12\n").lines =
        .ok [⟨"D11", none⟩, ⟨"D11", none⟩, ⟨"D12", none⟩] := by
    intro path
    cbv
  have hproofs : (restoreAll weakenings (start weakenings ⟨.disabled, .always, 1⟩).registry
      [⟨"D11", none⟩, ⟨"D11", none⟩, ⟨"D12", none⟩]).map
        (fun r => proofsOf (r.withLengths [3])) = .ok ["D11", "D12"] := by cbv
  obtain ⟨c, hresume, htable, hregistered⟩ := resume_oneFile hparse hproofs
  have hrow : c.table.row 3 = ["D11", "D11", "D12"] := by
    rw [htable]
    cbv
  refine ⟨c, hresume, hrow, hregistered, ?_⟩
  -- The second proof in the row is not the second one that is registered.
  rw [← Option.not_isSome_iff_eq_none, Cluster.Job.isSome_ofCollection?_iff, hregistered, hrow]
  intro hsame
  exact absurd (hsame 1 "D12" "D11" rfl rfl) (by decide)

end Collection

end Detachment
