import Mathlib.Data.List.Basic
import Detachment.Proofs.StoreFolder

/-! # Files of representatives

The representatives of a length are saved in a file of their own, and loaded as they were saved.

* `Store.saveRepresentatives_eq_ok_iff` says that saving representatives is writing their file, and
  `Store.saveRepresentatives_ok` what is read in the store then.
* `Store.representatives_roundtrip` is the main result. -/

namespace Detachment

/-! ## Saving representatives -/

namespace Store

variable {store : Store} {t t' : FileTree} {length : Nat} {offFrom : Option Nat}

/-- Loading the run information (`loadMetadata`) depends on its file alone. -/
theorem loadMetadata_congr
    (h : t'.read store.metadataPath.location = t.read store.metadataPath.location) :
    store.loadMetadata t' = store.loadMetadata t := by
  have hread : t'.readAt store.metadataPath = t.readAt store.metadataPath := by
    rw [FileTree.readAt, FileTree.readAt]
    cases hlocate : store.metadataPath.locate with
    | error e => rfl
    | ok l =>
      obtain ⟨-, rfl⟩ := Path.locate_eq_ok.mp hlocate
      exact h
  rw [loadMetadata, hread, loadMetadata]

/-- The file of a length stands in the folder of the store. -/
theorem location_representativesPath (store : Store) (length : Nat) (offFrom : Option Nat) :
    (store.representativesPath length offFrom).location =
      store.root.location ++ [representativesName length offFrom] :=
  Path.location_join _ (isName_representativesName length offFrom)

/-- Saving representatives (`saveRepresentatives`) is writing their file, `representativesText`. -/
theorem saveRepresentatives_eq_ok_iff {entries : List (String × Formula)} {withConclusions : Bool}
    {path : Path} :
    store.saveRepresentatives t length entries withConclusions offFrom = (.ok path, t') ↔
      path = store.representativesPath length offFrom ∧
        store.writeFile t (representativesName length offFrom)
          (representativesText withConclusions entries) = (.ok (), t') := by
  rw [saveRepresentatives]
  split
  · next hwrite => simp [hwrite]
  · next hwrite => simp [hwrite, eq_comm]

/-- Representatives that were saved can be read, and nothing else in the store has changed: neither
the files of other lengths nor the run information. -/
theorem saveRepresentatives_ok {entries : List (String × Formula)} {withConclusions : Bool}
    {path : Path}
    (hok : store.saveRepresentatives t length entries withConclusions offFrom = (.ok path, t')) :
    (store.representativesPath length offFrom).text.utf8ByteSize ≤ Path.maxSize ∧
      t'.read (store.representativesPath length offFrom).location =
        .ok (.ofText (representativesText withConclusions entries)) ∧
      (∀ other offFrom', other ≠ length →
        t'.read (store.representativesPath other offFrom').location =
          t.read (store.representativesPath other offFrom').location) ∧
      store.loadMetadata t' = store.loadMetadata t := by
  have hname := isName_representativesName length offFrom
  obtain ⟨-, hwrite⟩ := saveRepresentatives_eq_ok_iff.mp hok
  have haccepts := ((writeFile_eq_ok_iff hname).mp hwrite).1
  -- No other file has the name of this one, or the name under which it is written first.
  refine ⟨haccepts.size_le, ?_, fun other offFrom' hne => ?_, ?_⟩
  · rw [location_representativesPath]
    exact read_writeFile hname hwrite
  · rw [location_representativesPath]
    refine read_writeFile_other hname hwrite (fun heq => hne (representativesName_inj heq)) ?_
    refine representativesName_ne ?_
    rw [toList_temporaryName]
    exact fun hhead => absurd (Option.some.inj hhead) (by decide)
  · refine loadMetadata_congr ?_
    rw [metadataPath, Path.location_join _ isName_metadataName]
    refine read_writeFile_other hname hwrite ?_ ?_
    · exact (representativesName_ne (by decide)).symm
    · intro heq
      have hchars := congrArg (·.toList.head?) heq
      rw [toList_temporaryName, List.head?_cons] at hchars
      exact absurd hchars (by decide)

/-! ## Loading what was saved -/

/-- Representatives are saved exactly if the store `Accepts` their file, and are loaded from it as
they were saved: the same proofs in the same order, each with its conclusion if conclusions were
saved, and with none if not (`stored`). The proofs have a length that is not zero and stand on one
line without a colon (`Writable`). -/
theorem representatives_roundtrip (hlength : 1 ≤ length) {withConclusions : Bool}
    {entries : List (String × Formula)} (hentries : ∀ e ∈ entries, Writable length e.1)
    (hfits : withConclusions = true → ∀ e ∈ entries, e.2.Fits) (store : Store) (t : FileTree)
    (offFrom : Option Nat) :
    ((∃ path t', store.saveRepresentatives t length entries withConclusions offFrom = (.ok path, t')) ↔
      store.Accepts t (representativesName length offFrom)) ∧
    ∀ path t', store.saveRepresentatives t length entries withConclusions offFrom = (.ok path, t') →
      path = store.representativesPath length offFrom ∧
      t'.readAt path = .ok (.ofText (representativesText withConclusions entries)) ∧
      ∀ u : FileTree, u.readAt path = t'.readAt path →
        store.loadRepresentatives u length offFrom =
          .ok (some (entries.map (stored withConclusions))) := by
  have hname := isName_representativesName length offFrom
  refine ⟨⟨?_, fun haccepts => ?_⟩, fun path t' hsave => ?_⟩
  · rintro ⟨path, t', hsave⟩
    obtain ⟨-, hwrite⟩ := saveRepresentatives_eq_ok_iff.mp hsave
    exact ((writeFile_eq_ok_iff hname).mp hwrite).1
  · obtain ⟨t', hwrite⟩ := haccepts.exists_writeFile hname _
    exact ⟨_, t', saveRepresentatives_eq_ok_iff.mpr ⟨rfl, hwrite⟩⟩
  · obtain ⟨hsize, hread, -⟩ := saveRepresentatives_ok hsave
    obtain ⟨rfl, -⟩ := saveRepresentatives_eq_ok_iff.mp hsave
    have hfile := FileTree.readAt_eq_ok_iff.mpr ⟨hsize, hread⟩
    refine ⟨rfl, hfile, fun u hu => ?_⟩
    -- Loading depends on this file alone.
    obtain ⟨-, hread'⟩ := FileTree.readAt_eq_ok_iff.mp (hu.trans hfile)
    exact loadRepresentatives_of_read hlength hentries hfits hsize hread'

/-- A store at the top `Accepts` files while there are none. The two paths are short enough, and
nothing stands at either. -/
theorem accepts_empty {name : String} (hname : Path.IsName name)
    (hsize : (temporaryName name).utf8ByteSize < Path.maxSize) (fingerprint : String) :
    Accepts ⟨⟨""⟩, fingerprint⟩ .empty name := by
  have hlocation : Path.location ⟨""⟩ = [] := rfl
  have hnode : ∀ other, Path.IsName other → FileTree.empty.node? [other] = none := by
    intro other hother
    rw [FileTree.node?, ← List.nil_append [other], FileTree.isTop_append [] hother]
    rfl
  constructor
  · have hhigh := (Path.size_join ⟨""⟩ (temporaryName name)).2
    have hempty : "".utf8ByteSize = 0 := rfl
    dsimp only at hhigh ⊢
    omega
  · rw [hlocation]
    rfl
  · rw [hlocation]
    exact Option.some_ne_none _
  · rw [hlocation, List.nil_append, hnode _ (isName_temporaryName hname)]
    exact (Option.some_ne_none _).symm
  · rw [hlocation, List.nil_append, hnode _ hname]
    exact (Option.some_ne_none _).symm

/-- Two proofs of three bytes, one of which has a character of two bytes. -/
def threeBytes : List (String × Formula) :=
  [("D12", .binary .implication (.var 0) (.var 12)), ("é1", .unary .negation (.var 3))]

/-- Two proofs are saved with their conclusions in a store without files, and loaded again. -/
theorem representatives_roundtrip_threeBytes :
    1 ≤ 3 ∧ (∀ e ∈ threeBytes, Writable 3 e.1) ∧ (∀ e ∈ threeBytes, e.2.Fits) ∧
    ∃ t', saveRepresentatives ⟨⟨""⟩, "default"⟩ .empty 3 threeBytes true none =
        (.ok (representativesPath ⟨⟨""⟩, "default"⟩ 3 none), t') ∧
      loadRepresentatives ⟨⟨""⟩, "default"⟩ t' 3 none =
        .ok (some [⟨"D12", some (.binary .implication (.var 0) (.var 12))⟩,
          ⟨"é1", some (.unary .negation (.var 3))⟩]) := by
  have hwritable : ∀ e ∈ threeBytes, Writable 3 e.1 := by
    refine List.forall_mem_cons.mpr ⟨⟨rfl, by decide, by decide⟩, ?_⟩
    exact List.forall_mem_singleton.mpr ⟨rfl, by decide, by decide⟩
  have hfits : ∀ e ∈ threeBytes, e.2.Fits :=
    List.forall_mem_cons.mpr ⟨by decide, List.forall_mem_singleton.mpr (by decide)⟩
  have haccepts : Accepts ⟨⟨""⟩, "default"⟩ .empty (representativesName 3 none) :=
    accepts_empty (isName_representativesName 3 none) (by decide) _
  obtain ⟨hsaved, hloaded⟩ := representatives_roundtrip (by decide) hwritable
    (fun (_ : true = true) => hfits) ⟨⟨""⟩, "default"⟩ .empty none
  obtain ⟨path, t', hsave⟩ := hsaved.mpr haccepts
  obtain ⟨rfl, -, hload⟩ := hloaded path t' hsave
  exact ⟨by decide, hwritable, hfits, t', hsave, hload t' rfl⟩

end Store

end Detachment
