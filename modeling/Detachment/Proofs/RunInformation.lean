import Detachment.Proofs.NewStore

/-! # Run information

The run information of a system is read back as it was written, whatever was noted about rounds.

* `Basis.filter_splitCommas_intercalate` cuts a list at the commas that it was put together with.
* `Metadata.parseCounters_countersText` reads counters back.
* `Metadata.About` says that run information is about a system. What is noted about rounds keeps
  this (`Metadata.About.recordAll`), and the information is read back from its lines
  (`Metadata.About.parse_renderLines`).
* `Store.metadata_roundtrip` is the main result. -/

namespace Detachment

/-! ## Lists with commas -/

namespace Basis

/-- A text without commas is one entry for `splitCommas`. -/
theorem splitCommas_of_notMem {s : List Char} (h : ',' ∉ s) : splitCommas s = [s] := by
  induction s with
  | nil => rfl
  | cons c s ih =>
    obtain ⟨hc, hs⟩ := List.ne_and_not_mem_of_not_mem_cons h
    rw [splitCommas, ih hs]
    exact fun heq => hc heq.symm

/-- What stands before the first comma is an entry of `splitCommas`. -/
theorem splitCommas_append {s : List Char} (h : ',' ∉ s) (rest : List Char) :
    splitCommas (s ++ ',' :: rest) = s :: splitCommas rest := by
  induction s with
  | nil => rfl
  | cons c s ih =>
    obtain ⟨hc, hs⟩ := List.ne_and_not_mem_of_not_mem_cons h
    rw [List.cons_append, splitCommas, ih hs]
    exact fun heq => hc heq.symm

/-- Entries with commas between them are cut apart again: `splitCommas` inverts `intercalate`. -/
theorem splitCommas_intercalate {parts : List (List Char)} (hne : parts ≠ [])
    (h : ∀ part ∈ parts, ',' ∉ part) : splitCommas ([','].intercalate parts) = parts := by
  induction parts with
  | nil => exact absurd rfl hne
  | cons part parts ih =>
    obtain ⟨hpart, hparts⟩ := List.forall_mem_cons.mp h
    cases parts with
    | nil => rw [List.intercalate_singleton, splitCommas_of_notMem hpart]
    | cons next parts =>
      rw [List.intercalate_cons_cons, List.append_assoc, List.singleton_append,
        splitCommas_append hpart, ih (List.cons_ne_nil _ _) hparts]

/-- Entries with commas between them are cut apart again, also if there are none, where
`splitCommas` gives an empty one. -/
theorem filter_splitCommas_intercalate {parts : List (List Char)}
    (h : ∀ part ∈ parts, part ≠ [] ∧ ',' ∉ part) :
    (splitCommas ([','].intercalate parts)).filter (!·.isEmpty) = parts := by
  by_cases hnil : parts = []
  · rw [hnil]
    rfl
  · rw [splitCommas_intercalate hnil fun part hpart => (h part hpart).2, List.filter_eq_self.mpr]
    intro part hpart
    simpa using (h part hpart).1

end Basis

/-! ## Counters -/

/-- A number is read back from its `digits`, if it stays below the bound. They do not begin with a
plus sign, so it is a matter of `readDigits?_digits`. -/
theorem Text.readNumeral?_digits {bound n : Nat} (h : n < bound) :
    readNumeral? bound (digits n) = some n := by
  obtain ⟨first, rest, hdigits⟩ :=
    List.exists_cons_of_ne_nil (Nat.toDigits_ne_nil (n := n) (b := 10))
  have hdigits : digits n = first :: rest := hdigits
  have hfirst : first ≠ '+' := by
    rintro rfl
    have hplus : '+' ∈ digits n := by rw [hdigits]; exact List.mem_cons_self
    exact absurd (isDigit_of_mem_digits hplus) (by decide)
  have hread := readDigits?_digits h
  rw [hdigits] at hread ⊢
  rw [readNumeral?]
  · exact hread
  · exact fun _ heq => hfirst (List.cons.inj heq).1

namespace Metadata

/-- The lengths in `counters` fit into 32 bits, and their numbers into 64 bits. -/
def CountersFit (counters : Counters) : Prop :=
  ∀ length count, counters[length]? = some count → length < Text.bound32 ∧ count < Text.bound64

/-- A counter is written as a length, a colon and a number. -/
theorem toList_counterText (counter : Nat × Nat) :
    (counterText counter).toList = Text.digits counter.1 ++ ':' :: Text.digits counter.2 :=
  String.toList_ofList

/-- A character that is no digit is not among the `digits` of a number. -/
theorem notMem_digits {c : Char} (hc : c.isDigit = false) (n : Nat) : c ∉ Text.digits n := by
  intro hmem
  rw [Text.isDigit_of_mem_digits hmem] at hc
  cases hc

/-- A counter is read back (`parseCounter`) if its numbers fit. -/
theorem parseCounter_counterText {counter : Nat × Nat} (hlength : counter.1 < Text.bound32)
    (hcount : counter.2 < Text.bound64) : parseCounter (counterText counter).toList = .ok counter := by
  rw [toList_counterText, parseCounter, Store.splitColon?_append (notMem_digits (by decide) _)]
  dsimp only
  rw [Text.readNumeral?_digits hlength]
  dsimp only
  rw [Text.readNumeral?_digits hcount]

/-- Counters are read one after another (`parseParts`), and each is entered into the map. -/
theorem parseParts_counterText {list : List (Nat × Nat)}
    (h : ∀ counter ∈ list, counter.1 < Text.bound32 ∧ counter.2 < Text.bound64) (counters : Counters) :
    parseParts counters (list.map fun counter => (counterText counter).toList) =
      .ok (counters.insertMany list) := by
  induction list generalizing counters with
  | nil => simp [parseParts]
  | cons counter list ih =>
    obtain ⟨⟨hlength, hcount⟩, hrest⟩ := List.forall_mem_cons.mp h
    obtain ⟨length, count⟩ := counter
    rw [List.map_cons, parseParts, parseCounter_counterText hlength hcount,
      Std.ExtTreeMap.insertMany_cons]
    exact ih hrest _

/-- A map holds nothing but its list of entries: entering `toList` into an empty map gives the map
back. -/
theorem insertMany_toList (counters : Counters) : (∅ : Counters).insertMany counters.toList = counters := by
  refine Std.ExtTreeMap.ext_getElem? fun length => ?_
  cases hget : counters[length]? with
  | some count =>
    exact Std.ExtTreeMap.getElem?_insertMany_list_of_mem (Std.ReflCmp.compare_self)
      Std.ExtTreeMap.distinct_keys_toList (Std.ExtTreeMap.mem_toList_iff_getElem?_eq_some.mpr hget)
  | none =>
    have hkeys : (counters.toList.map Prod.fst).contains length = false := by
      rw [Std.ExtTreeMap.map_fst_toList_eq_keys, Std.ExtTreeMap.contains_keys,
        Std.ExtTreeMap.contains_eq_isSome_getElem?, hget, Option.isSome_none]
    rw [Std.ExtTreeMap.getElem?_insertMany_list_of_contains_eq_false hkeys]
    exact Std.ExtTreeMap.getElem?_empty

/-- Counters are read back from their text (`countersText`) if they fit. The text is cut at its
commas into the texts of the single counters. -/
theorem parseCounters_countersText {counters : Counters} (h : CountersFit counters) :
    parseCounters (countersText counters).toList = .ok counters := by
  have hparts : (Basis.splitCommas (countersText counters).toList).filter (!·.isEmpty) =
      counters.toList.map fun counter => (counterText counter).toList := by
    rw [countersText, Text.join, String.toList_intercalate, List.map_map]
    refine Basis.filter_splitCommas_intercalate fun part hpart => ?_
    obtain ⟨counter, -, rfl⟩ := List.mem_map.mp hpart
    rw [Function.comp, toList_counterText, List.mem_append, List.mem_cons, not_or, not_or]
    exact ⟨by simp, notMem_digits (by decide) _, by decide, notMem_digits (by decide) _⟩
  rw [parseCounters, hparts, parseParts_counterText, insertMany_toList]
  rintro ⟨length, count⟩ hmem
  exact h length count (Std.ExtTreeMap.mem_toList_iff_getElem?_eq_some.mp hmem)

/-- One more number that fits keeps `CountersFit`. -/
theorem CountersFit.insert {counters : Counters} (h : CountersFit counters) {length count : Nat}
    (hlength : length < Text.bound32) (hcount : count < Text.bound64) :
    CountersFit (counters.insert length count) := by
  intro other n hother
  rw [Std.ExtTreeMap.getElem?_insert] at hother
  split at hother
  · next heq =>
    obtain rfl := Std.LawfulEqCmp.eq_of_compare heq
    obtain rfl := Option.some.inj hother
    exact ⟨hlength, hcount⟩
  · exact h other n hother

/-! ## What is noted about rounds -/

/-- What is noted about a length: the candidates tried and the conclusions removed. -/
structure Tally where
  /-- The length. -/
  length : Nat
  /-- The candidates tried. -/
  iterations : Nat
  /-- The conclusions removed. -/
  removals : Nat

/-- A length fits into 32 bits, and its numbers into 64 bits. -/
structure Tally.Fits (tally : Tally) : Prop where
  length_lt : tally.length < Text.bound32
  iterations_lt : tally.iterations < Text.bound64
  removals_lt : tally.removals < Text.bound64

/-- Note the numbers of some lengths one after another (`record`). -/
def recordAll (m : Metadata) (tallies : List Tally) : Metadata :=
  tallies.foldl (fun m tally => m.record tally.length tally.iterations tally.removals) m

/-- Run information about a system, with numbers that fit (`CountersFit`). -/
structure About (m : Metadata) (basis : Basis) : Prop where
  /-- It has the name of the system. -/
  hash_eq : m.hash = basis.fingerprint
  /-- It has the axioms of the system. -/
  axioms_eq : m.axioms = basis.describe
  /-- The numbers of candidates fit. -/
  iterations_fit : CountersFit m.iterations
  /-- The numbers of conclusions fit. -/
  removals_fit : CountersFit m.removals

variable {m : Metadata} {basis : Basis}

/-- The information before the first round (`ofBasis`) is `About` its system. -/
theorem about_ofBasis (basis : Basis) : (ofBasis basis).About basis := by
  have hempty : CountersFit ∅ := by
    intro length count hcount
    rw [Std.ExtTreeMap.getElem?_empty] at hcount
    cases hcount
  exact ⟨hash_ofBasis basis, axioms_ofBasis basis, hempty, hempty⟩

/-- The step lemma: noting the numbers of a length (`record`) keeps the information `About` the
system. -/
theorem About.record (h : m.About basis) {tally : Tally} (hfits : tally.Fits) :
    (m.record tally.length tally.iterations tally.removals).About basis where
  hash_eq := h.hash_eq
  axioms_eq := h.axioms_eq
  iterations_fit := h.iterations_fit.insert hfits.length_lt hfits.iterations_lt
  removals_fit := h.removals_fit.insert hfits.length_lt hfits.removals_lt

/-- The run lemma: noting the numbers of any lengths (`recordAll`) keeps the information `About` the
system. -/
theorem About.recordAll (h : m.About basis) {tallies : List Tally} (hfits : ∀ tally ∈ tallies, tally.Fits) :
    (m.recordAll tallies).About basis := by
  induction tallies generalizing m with
  | nil => exact h
  | cons tally tallies ih =>
    obtain ⟨hfirst, hrest⟩ := List.forall_mem_cons.mp hfits
    exact ih (h.record hfirst) hrest

/-- Run information `About` a system is read back from its lines (`renderLines`). -/
theorem About.parse_renderLines (h : m.About basis) (path : Path) :
    parse path (m.renderLines.map String.toList) = .ok m := by
  refine Metadata.parse_renderLines path (fun line hline => ?_)
    (parseCounters_countersText h.iterations_fit) (parseCounters_countersText h.removals_fit)
  rw [h.axioms_eq] at hline
  exact Basis.ne_of_mem_describe hline

/-- The text of run information `About` a system is cut into its lines, as none of them has a line
break. -/
theorem About.textLines?_render (h : m.About basis) :
    Store.textLines? (.ofText m.render) = some (m.renderLines.map String.toList) :=
  Store.textLines?_ofText fun _ => isLine_of_mem_renderLines h.hash_eq h.axioms_eq

end Metadata

/-! ## Saving and loading -/

namespace Store

variable {store : Store} {t t' : FileTree}

/-- An opened store (`openIn`) is the folder of the system, and keeps its name. It is the same
whether its run information was there or was written. -/
theorem eq_of_openIn {dir : Path} {basis : Basis} {limit : NecessitationLimit}
    (h : openIn dir basis limit t = (.ok store, t')) :
    store = ⟨dir.join (folderName basis limit), basis.fingerprint⟩ := by
  rw [openIn] at h
  dsimp only at h
  split at h
  · cases h
  · split at h
    · cases h
    · exact (Except.ok.inj (Prod.mk.inj h).1).symm
    · split at h
      · cases h
      · exact (Except.ok.inj (Prod.mk.inj h).1).symm

/-- Run information about the system of a store is loaded after it was saved (`saveMetadata`). -/
theorem loadMetadata_of_saveMetadata {m : Metadata} {basis : Basis} (h : m.About basis)
    (hfingerprint : store.fingerprint = basis.fingerprint)
    (hsave : store.saveMetadata t m = (.ok (), t')) : store.loadMetadata t' = .ok (some m) := by
  have haccepts := ((writeFile_eq_ok_iff isName_metadataName).mp hsave).1
  refine loadMetadata_of_read (fun _ => Metadata.isLine_of_mem_renderLines h.hash_eq h.axioms_eq)
    (h.parse_renderLines _) (hfingerprint.trans h.hash_eq.symm) haccepts.size_le ?_
  rw [metadataPath, Path.location_join _ isName_metadataName]
  exact read_writeFile isName_metadataName hsave

/-- Run information on which any rounds were noted (`recordAll`) is read back from its text as it
is. In a store that was opened for the same system it is saved exactly if the store `Accepts` its
file, and is loaded as it was saved. -/
theorem metadata_roundtrip (basis : Basis) {tallies : List Metadata.Tally}
    (hfits : ∀ tally ∈ tallies, tally.Fits) :
    (∀ path, (textLines? (.ofText ((Metadata.ofBasis basis).recordAll tallies).render)).map
      (Metadata.parse path) = some (.ok ((Metadata.ofBasis basis).recordAll tallies))) ∧
    ∀ dir limit t t' store, openIn dir basis limit t = (.ok store, t') → ∀ u : FileTree,
      ((∃ u', store.saveMetadata u ((Metadata.ofBasis basis).recordAll tallies) = (.ok (), u')) ↔
        store.Accepts u metadataName) ∧
      ∀ u', store.saveMetadata u ((Metadata.ofBasis basis).recordAll tallies) = (.ok (), u') →
        store.loadMetadata u' = .ok (some ((Metadata.ofBasis basis).recordAll tallies)) := by
  have habout := (Metadata.about_ofBasis basis).recordAll hfits
  generalize (Metadata.ofBasis basis).recordAll tallies = m at habout
  refine ⟨fun path => ?_, fun dir limit t t' store hopen u => ⟨⟨?_, fun haccepts => ?_⟩, ?_⟩⟩
  · rw [habout.textLines?_render, Option.map_some, habout.parse_renderLines]
  · rintro ⟨u', hsave⟩
    exact ((writeFile_eq_ok_iff isName_metadataName).mp hsave).1
  · exact haccepts.exists_writeFile isName_metadataName m.render
  · intro u' hsave
    have hstore := eq_of_openIn hopen
    exact loadMetadata_of_saveMetadata habout (congrArg Store.fingerprint hstore) hsave

/-- Three rounds, the last of which has the length of the first and the largest number that fits. -/
def threeRounds : List Metadata.Tally :=
  [⟨3, 9, 0⟩, ⟨5, 36, 3⟩, ⟨3, 18446744073709551615, 1⟩]

/-- The numbers of three rounds are saved in a new store of the standard system, and loaded
again. -/
theorem metadata_roundtrip_threeRounds :
    (∀ tally ∈ threeRounds, tally.Fits) ∧
    ∃ store t u, openIn (.slashes 0) .standard .disabled .empty = (.ok store, t) ∧
      store.saveMetadata t ((Metadata.ofBasis .standard).recordAll threeRounds) = (.ok (), u) ∧
      store.loadMetadata u = .ok (some ((Metadata.ofBasis .standard).recordAll threeRounds)) := by
  have hfits : ∀ tally ∈ threeRounds, tally.Fits :=
    List.forall_mem_cons.mpr ⟨⟨by decide, by decide, by decide⟩,
      List.forall_mem_cons.mpr ⟨⟨by decide, by decide, by decide⟩,
        List.forall_mem_singleton.mpr ⟨by decide, by decide, by decide⟩⟩⟩
  have hfolder := size_folderName_disabled .standard
  have hdir := Path.size_slashes 0
  have hnames := Path.names_slashes 0
  obtain ⟨store, hstore⟩ : ∃ store : Store, store =
    ⟨(Path.slashes 0).join (folderName .standard .disabled), Basis.standard.fingerprint⟩ := ⟨_, rfl⟩
  obtain ⟨t, hopen, hready, -⟩ := openIn_empty hnames (by rw [FileTree.maxNameSize]; omega)
    (by rw [Path.maxSize]; omega) hstore
  have hsize : (store.root.join (temporaryName metadataName)).text.utf8ByteSize ≤ Path.maxSize := by
    have hroot := (Path.size_join (.slashes 0) (folderName .standard .disabled)).2
    have hhigh := (Path.size_join store.root (temporaryName metadataName)).2
    have hname : (temporaryName metadataName).utf8ByteSize = 17 := rfl
    rw [hstore] at hhigh ⊢
    rw [Path.maxSize]
    dsimp only at hhigh ⊢
    omega
  obtain ⟨-, hstored⟩ := metadata_roundtrip .standard hfits
  obtain ⟨hsaved, hloaded⟩ := hstored (.slashes 0) .disabled .empty t store hopen t
  obtain ⟨u, hsave⟩ := hsaved.mpr (hready.accepts isName_metadataName hsize)
  exact ⟨hfits, store, t, u, hopen, hsave, hloaded u hsave⟩

end Store

end Detachment
