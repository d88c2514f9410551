import Detachment.Collection.Saving
import Detachment.Proofs.NewStore
import Detachment.Proofs.RepresentativeFiles
import Detachment.Proofs.Restoring
import Detachment.Proofs.Survivors

/-! # Saving and resuming

A collection whose rounds are all saved can be resumed from the store, with nothing lost.

* `Collection.Filing` says what may happen to the files while some lengths are saved, and
  `Collection.Records` that collections were collected with every round saved.
* `Collection.Kept` says that the files hold a collection; `Collection.Kept.round` and
  `Collection.Records.kept` say that saving rounds keeps this.
* `Collection.takeOverFrom_eq` goes through the files of a collection, and `Collection.Kept.resume`
  says what that leads to.
* `Collection.archive` is an observer that saves every round.
* `Collection.resume_saved` is the main result. -/

namespace Detachment

namespace Collection

variable {store : Store} {basis : Basis} {settings : Settings} {c d : Collection}
  {t t' u : FileTree} {lengths : List Nat} {last target : Nat}

/-- Where the representatives of a length are saved, in a file that is named for the filter, too
(`offFrom?`). -/
def savedPath (c : Collection) (store : Store) (length : Nat) : Path :=
  store.representativesPath length (c.settings.filter.offFrom? length)

/-- What may happen to the files while the representatives of some lengths are saved, in the order
of `lengths`. -/
inductive Filing (store : Store) (c : Collection) : FileTree → List Nat → FileTree → Prop
  /-- Everything is saved. -/
  | done (t : FileTree) : Filing store c t [] t
  /-- The representatives of the next length are saved, with their conclusions or without. -/
  | save {t t' u : FileTree} {length : Nat} {lengths : List Nat} {path : Path}
    (withConclusions : Bool)
    (hsave : store.saveRepresentatives t length (c.representatives length) withConclusions
      (c.settings.filter.offFrom? length) = (.ok path, t'))
    (hrest : Filing store c t' lengths u) : Filing store c t (length :: lengths) u
  /-- Something else happens that changes no representatives and leaves run information. -/
  | other {t t' u : FileTree} {lengths : List Nat}
    (hread : ∀ length offFrom, t'.read (store.representativesPath length offFrom).location =
      t.read (store.representativesPath length offFrom).location)
    (hmetadata : ∃ m, store.loadMetadata t' = .ok m) (hrest : Filing store c t' lengths u) :
    Filing store c t lengths u

/-- The files hold the representatives of a length at `savedPath`, with their conclusions or
without. -/
def Saved (store : Store) (c : Collection) (t : FileTree) (length : Nat) : Prop :=
  (c.savedPath store length).text.utf8ByteSize ≤ Path.maxSize ∧
    ∃ withConclusions, t.read (c.savedPath store length).location =
      .ok (.ofText (Store.representativesText withConclusions (c.representatives length)))

/-- After `Filing`, all lengths that it should save are `Saved`, no others have changed, and there
is run information. -/
theorem Filing.spec (h : Filing store c t lengths u) (hmetadata : ∃ m, store.loadMetadata t = .ok m) :
    (∀ length ∈ lengths, Saved store c u length) ∧
      (∀ length, length ∉ lengths → u.read (c.savedPath store length).location =
        t.read (c.savedPath store length).location) ∧
      ∃ m, store.loadMetadata u = .ok m := by
  induction h with
  | done t => exact ⟨fun _ hlength => absurd hlength List.not_mem_nil, fun _ _ => rfl, hmetadata⟩
  | @save t t' u length lengths path withConclusions hsave _ ih =>
    obtain ⟨hsize, hread, hothers, hload⟩ := Store.saveRepresentatives_ok hsave
    obtain ⟨hsaved, hkept, hmetadata'⟩ := ih (hload ▸ hmetadata)
    refine ⟨fun other hother => ?_, fun other hother => ?_, hmetadata'⟩
    · by_cases hlater : other ∈ lengths
      · exact hsaved other hlater
      · obtain rfl := (List.mem_cons.mp hother).resolve_right hlater
        exact ⟨hsize, withConclusions, (hkept other hlater).trans hread⟩
    · obtain ⟨hne, hlater⟩ := List.ne_and_not_mem_of_not_mem_cons hother
      exact (hkept other hlater).trans (hothers other _ hne)
  | other hread hmetadata' _ ih =>
    obtain ⟨hsaved, hkept, hload⟩ := ih hmetadata'
    exact ⟨hsaved, fun length hlength => (hkept length hlength).trans (hread _ _), hload⟩

/-- An observer that saves every length of each round that it accepts (`Filing`); its state holds
the files, `tree`. -/
def Saves {β : Type} (store : Store) (tree : β → FileTree)
    (observe : β → Collection → RoundReport → Except Error Unit × β) : Prop :=
  ∀ state c report state', observe state c report = (.ok (), state') →
    Filing store c (tree state) (report.perLength.map (·.length)) (tree state')

/-- Collecting up to one target after another (`collectUpTo`), with every round saved (`Saves`),
leads from a collection and files to others. -/
inductive Records (store : Store) : Collection → FileTree → Collection → FileTree → Prop
  /-- Nothing is collected. -/
  | done (c : Collection) (t : FileTree) : Records store c t c t
  /-- All lengths up to a target are collected first. -/
  | next {β : Type} {tree : β → FileTree}
    {observe : β → Collection → RoundReport → Except Error Unit × β} {state : β} {target : Nat}
    {strategy : Strategy} {cancelled : Bool} {reports : List RoundReport} {c d : Collection}
    {u : FileTree} (hsaves : Saves store tree observe)
    (hok : (c.collectUpTo target strategy cancelled observe state).outcome = .ok reports)
    (hrest : Records store (c.collectUpTo target strategy cancelled observe state).collection
      (tree (c.collectUpTo target strategy cancelled observe state).state) d u) :
    Records store c (tree state) d u

/-! ## Files that hold a collection -/

/-- The files of a store hold a collection: all its lengths are `Saved` and no others, and there is
run information. -/
structure Kept (store : Store) (c : Collection) (t : FileTree) : Prop where
  /-- Every length that proofs can have is saved. -/
  saved : ∀ length, 1 < length → length ≤ c.knownLimit →
    canHaveLength c.settings.necessitation.isEnabled length → Saved store c t length
  /-- No other length is saved. -/
  missing : ∀ length, c.knownLimit < length →
    t.read (c.savedPath store length).location = .error .missing
  /-- There is run information. -/
  metadata : ∃ m, store.loadMetadata t = .ok m

/-- The step lemma: after a round over all lengths that proofs can have up to its last one, the
files hold the collection again (`Kept`) once the round is saved (`Filing`). -/
theorem Kept.round (hkept : Kept store c t) (h : c.Consistent) (hcontinues : c.Continues lengths last)
    (hall : ∀ length, c.knownLimit < length → length ≤ last →
      canHaveLength c.settings.necessitation.isEnabled length → length ∈ lengths)
    (hfiling : Filing store (c.round lengths).2 t lengths t') :
    Kept store (c.round lengths).2 t' := by
  obtain ⟨hsaved, hothers, hmetadata⟩ := hfiling.spec hkept.metadata
  have hlimit := knownLimit_round hcontinues
  have hlast := (hcontinues.bounds last hcontinues.last_mem).1
  refine ⟨fun length hlong hle hparity => ?_, fun length hlt => ?_, hmetadata⟩
  · by_cases hmem : length ∈ lengths
    · exact hsaved length hmem
    · -- The length was known before, and its representatives stay.
      have hold : length ≤ c.knownLimit := by
        by_contra hbeyond
        exact hmem (hall length (Nat.not_le.mp hbeyond) (hlimit ▸ hle) hparity)
      obtain ⟨hsize, withConclusions, hread⟩ := hkept.saved length hlong hold hparity
      refine ⟨hsize, withConclusions, ?_⟩
      rw [hothers length hmem, representatives, withLengths_round_of_not_mem h hcontinues hmem]
      exact hread
  · rw [hlimit] at hlt
    have hnew : length ∉ lengths := fun hmem =>
      Nat.not_lt.mpr (hcontinues.bounds length hmem).2 hlt
    rw [hothers length hnew]
    exact hkept.missing length (by omega)

/-- The run lemma: running a `Plan` keeps the files up with the collection (`Kept`). -/
theorem Kept.runRounds {β : Type} {tree : β → FileTree}
    {observe : β → Collection → RoundReport → Except Error Unit × β} {cancelled : Bool} {state : β}
    {done reports : List RoundReport} {rounds : List (List Nat)} (hsaves : Saves store tree observe)
    (hkept : Kept store c (tree state)) (h : c.Consistent) (hplan : c.Plan rounds target)
    (hok : (Collection.runRounds observe cancelled c state done rounds).outcome = .ok reports) :
    Kept store (Collection.runRounds observe cancelled c state done rounds).collection
      (tree (Collection.runRounds observe cancelled c state done rounds).state) := by
  induction rounds generalizing c state done with
  | nil => exact hkept
  | cons lengths rest ih =>
    obtain ⟨hvalid, state', hobserve, hrest⟩ := runRounds_cons_of_ok hok
    obtain ⟨last, -, hcontinues, hall, -⟩ := hplan.continues
    have hfiling := hsaves _ _ _ _ hobserve
    rw [lengths_round] at hfiling
    rw [hrest] at hok ⊢
    exact ih (hkept.round h hcontinues hall hfiling) (h.round hcontinues) hplan.next hok

/-- Collecting with every round saved (`Records`) goes through rounds (`Leads`) and keeps the files
up with the collection (`Kept`). -/
theorem Records.kept (hrecords : Records store c t d u) (h : c.Consistent)
    (hkept : Kept store c t) : (∃ rounds, c.Leads rounds d) ∧ Kept store d u := by
  induction hrecords with
  | done c t => exact ⟨⟨[], .done c⟩, hkept⟩
  | next hsaves hok _ ih =>
    have hleads := leads_runRounds hok
    have hkept' := hkept.runRounds hsaves h (plan_rounds h _ _) hok
    obtain ⟨⟨rounds, hrounds⟩, hlater⟩ := ih (hleads.consistent h) hkept'
    exact ⟨⟨_, hleads.append hrounds⟩, hlater⟩

/-! ## Going through the files -/

/-- Steps from one length that proofs can have (`canHaveLength`) lead through all others. -/
theorem canHaveLength_add_mul_step {limit : NecessitationLimit} {length : Nat}
    (h : canHaveLength limit.isEnabled length) (count : Nat) :
    canHaveLength limit.isEnabled (length + count * limit.step) := by
  rw [NecessitationLimit.step]
  cases henabled : limit.isEnabled with
  | true => rfl
  | false =>
    rw [henabled] at h
    simp only [canHaveLength, Bool.false_or, beq_iff_eq, Bool.false_eq_true, if_false] at h ⊢
    omega

/-- Axioms have length one, which `canHaveLength` admits. -/
theorem canHaveLength_one (necessitation : Bool) : canHaveLength necessitation 1 = true :=
  Bool.or_true _

/-- Resuming goes forward. -/
theorem step_pos (limit : NecessitationLimit) : 0 < limit.step := by
  rw [NecessitationLimit.step]
  split <;> decide

/-- Representatives that are `Saved` are loaded as they were saved (`Store.stored`). -/
theorem Saved.load {length : Nat} (h : Saved store c t length) (hc : c.Consistent)
    (hlength : 1 ≤ length) (hfits : ∀ key e, c.registry.get? key = some e → e.conclusion.Fits) :
    ∃ withConclusions, store.loadRepresentatives t length (c.settings.filter.offFrom? length) =
      .ok (some ((c.representatives length).map (Store.stored withConclusions))) := by
  obtain ⟨hsize, withConclusions, hread⟩ := h
  refine ⟨withConclusions, Store.loadRepresentatives_of_read hlength (fun e => hc.writable)
    (fun _ e he => ?_) hsize hread⟩
  obtain ⟨⟨key, entry⟩, hmem, rfl⟩ := List.mem_map.mp he
  exact hfits key entry (Registry.mem_withLengths.mp hmem).1

/-- Taking over the files of a collection from one of its parts (`UpTo`) leads to all of it, and to
the file after its last one. The induction is on `count`, the number of files ahead. -/
theorem takeOverFrom_eq (hc : c.Consistent) (hkept : Kept store c t)
    (hfits : ∀ key e, c.registry.get? key = some e → e.conclusion.Fits) (metadata : Option Metadata)
    (fuel : Nat) {limit count : Nat} {d : Collection} (hd : c.UpTo limit d) (hlimit : 1 ≤ limit)
    (hparity : canHaveLength c.settings.necessitation.isEnabled limit)
    (hcount : limit + count * c.settings.necessitation.step = c.knownLimit) :
    ∃ d', c.UpTo c.knownLimit d' ∧
      takeOverFrom store t metadata (fuel + count) (limit + c.settings.necessitation.step) d =
        takeOverFrom store t metadata fuel (c.knownLimit + c.settings.necessitation.step) d' := by
  have hstep := step_pos c.settings.necessitation
  induction count generalizing limit d with
  | zero =>
    rw [Nat.zero_mul, Nat.add_zero] at hcount
    exact ⟨d, hcount ▸ hd, by rw [hcount, Nat.add_zero]⟩
  | succ count ih =>
    rw [Nat.succ_mul, Nat.add_comm (count * _), ← Nat.add_assoc] at hcount
    have hnext : canHaveLength c.settings.necessitation.isEnabled
        (limit + c.settings.necessitation.step) := by
      simpa using canHaveLength_add_mul_step hparity 1
    -- Lengths that are skipped are none that proofs can have.
    have hbetween : ∀ other, limit < other → other < limit + c.settings.necessitation.step →
        c.registry.withLengths [other] = [] := by
      intro other hlow hhigh
      refine hc.withLengths_eq_nil ?_
      rw [Bool.eq_false_iff, Ne, ← sub_mod_step_iff hparity hlow, Nat.mod_eq_of_lt (by omega)]
      omega
    have hle : limit + c.settings.necessitation.step ≤ c.knownLimit :=
      hcount ▸ Nat.le_add_right _ _
    obtain ⟨withConclusions, hload⟩ :=
      (hkept.saved _ (by omega) hle hnext).load hc (by omega) hfits
    obtain ⟨d', htakeOver, hd'⟩ := hd.takeOver hc (by omega) hbetween metadata withConclusions
    obtain ⟨d'', hd'', heq⟩ := ih hd' (by omega) hnext hcount
    refine ⟨d'', hd'', ?_⟩
    rw [← heq, ← Nat.add_assoc, takeOverFrom, hd.settings, hload]
    dsimp only
    rw [htakeOver]
    dsimp only
    rw [hd'.settings]

/-- There are at least as many nodes as files of a collection, so the number of nodes is fuel enough
for `takeOverFrom`. -/
theorem Kept.le_nodes (hkept : Kept store c t) {count : Nat}
    (hcount : 1 + count * c.settings.necessitation.step = c.knownLimit) : count ≤ t.nodes.length := by
  have hstep := step_pos c.settings.necessitation
  have hlength : ∀ i < count,
      1 + (i + 1) * c.settings.necessitation.step ≤ c.knownLimit := by
    intro i hi
    rw [← hcount]
    exact Nat.add_le_add_left (Nat.mul_le_mul_right _ hi) 1
  have hpos : ∀ i, 0 < (i + 1) * c.settings.necessitation.step :=
    fun i => Nat.mul_pos (Nat.succ_pos i) hstep
  -- The files stand at different places, and each place is that of a node.
  let places := (List.range count).map fun i =>
    (c.savedPath store (1 + (i + 1) * c.settings.necessitation.step)).location
  have hsubset : places ⊆ t.nodes.map (·.1) := by
    intro place hplace
    obtain ⟨i, hi, rfl⟩ := List.mem_map.mp hplace
    have hparity : canHaveLength c.settings.necessitation.isEnabled
        (1 + (i + 1) * c.settings.necessitation.step) :=
      canHaveLength_add_mul_step (canHaveLength_one _) (i + 1)
    obtain ⟨-, withConclusions, hread⟩ := hkept.saved _ (by have := hpos i; omega)
      (hlength i (List.mem_range.mp hi)) hparity
    exact FileTree.mem_nodes_of_read hread
  have hnodup : places.Nodup := by
    refine List.nodup_range.map_on fun i _ j _ heq => ?_
    rw [savedPath, savedPath, Store.location_representativesPath,
      Store.location_representativesPath] at heq
    have hname := List.head_eq_of_cons_eq (List.append_cancel_left heq)
    have hsame := Nat.add_left_cancel (Store.representativesName_inj hname)
    exact Nat.succ_injective (Nat.eq_of_mul_eq_mul_right hstep hsame)
  have hle := (List.subperm_of_subset hnodup hsubset).length_le
  rwa [List.length_map, List.length_range, List.length_map] at hle

/-- The file behind the last one is missing, if its path is short enough to ask for it
(`Path.maxSize`). -/
theorem Kept.load_next (hkept : Kept store c t) {length : Nat} (hlt : c.knownLimit < length) :
    store.loadRepresentatives t length (c.settings.filter.offFrom? length) =
      if (c.savedPath store length).text.utf8ByteSize ≤ Path.maxSize then .ok none
      else .error (.file (c.savedPath store length) (.refused .nameTooLong)) := by
  have hmissing := hkept.missing length hlt
  have hpath : store.representativesPath length (c.settings.filter.offFrom? length) =
      c.savedPath store length := rfl
  rw [Store.loadRepresentatives, hpath, FileTree.readAt, Path.locate]
  by_cases hsize : (c.savedPath store length).text.utf8ByteSize ≤ Path.maxSize
  · rw [if_neg (Nat.not_lt.mpr hsize), if_pos hsize]
    dsimp only
    rw [hmissing]
  · rw [if_pos (Nat.not_le.mp hsize), if_neg hsize]

/-- Resuming (`resume`) leads to the collection that the files hold, unless the path of the file
behind the last one is too long. -/
theorem Kept.resume {rounds : List (List Nat)} (hkept : Kept store c t)
    (hleads : (start basis settings).Leads rounds c)
    (hfits : ∀ key e, c.registry.get? key = some e → e.conclusion.Fits) :
    ∃ d, c.Agree d ∧ d.settings = settings ∧ Collection.resume store t basis settings =
      if (c.savedPath store (c.knownLimit + settings.necessitation.step)).text.utf8ByteSize ≤
        Path.maxSize then .ok d
      else .error (.store (.file (c.savedPath store (c.knownLimit + settings.necessitation.step))
        (.refused .nameTooLong))) := by
  have hstart := consistent_start basis settings
  have hc := hleads.consistent hstart
  have hupTo := hleads.upTo hstart
  rw [knownLimit_start] at hupTo
  obtain rfl : c.settings = settings := hleads.settings_eq
  have hstep := step_pos c.settings.necessitation
  -- The known limit is some steps beyond the axioms.
  obtain ⟨count, hcount⟩ : ∃ count,
      1 + count * c.settings.necessitation.step = c.knownLimit := by
    have hone := hc.one_le
    rcases Nat.eq_or_lt_of_le hone with heq | hlt
    · exact ⟨0, by rw [← heq, Nat.zero_mul]⟩
    · have hmod := (sub_mod_step_iff (canHaveLength_one _) hlt).mpr hc.parity
      refine ⟨(c.knownLimit - 1) / c.settings.necessitation.step, ?_⟩
      rw [Nat.div_mul_cancel (Nat.dvd_of_mod_eq_zero hmod)]
      omega
  obtain ⟨m, hmetadata⟩ := hkept.metadata
  obtain ⟨d, hd, htakeOver⟩ := takeOverFrom_eq hc hkept hfits m
    (t.nodes.length - count + 1) hupTo (Nat.le_refl 1) (canHaveLength_one _) hcount
  refine ⟨d, hd.agree hc, hd.settings, ?_⟩
  have hfuel : t.nodes.length - count + 1 + count = t.nodes.length + 1 := by
    have := hkept.le_nodes hcount
    omega
  rw [hfuel] at htakeOver
  rw [Collection.resume, hmetadata]
  dsimp only
  rw [htakeOver, takeOverFrom, hd.settings, hkept.load_next (by omega)]
  by_cases hsize : (c.savedPath store
      (c.knownLimit + c.settings.necessitation.step)).text.utf8ByteSize ≤ Path.maxSize
  · rw [if_pos hsize, if_pos hsize]
  · rw [if_neg hsize, if_neg hsize]

/-! ## Saving as it is done -/

/-- Save every length of a round (`saveLengths`), and object if that fails. -/
def archive (store : Store) (withConclusions : Bool) (t : FileTree) (c : Collection)
    (report : RoundReport) : Except Error Unit × FileTree :=
  let s := c.saveLengths store withConclusions t (.ofBasis c.basis) report
  match s.fault with
  | none => (.ok (), s.tree)
  | some fault => (.error (.store fault), s.tree)

/-- A fault ends saving: no later length changes it. -/
theorem Saving.foldl_add_of_fault {withConclusions : Bool} {s : Saving} {fault : StoreError}
    (h : s.fault = some fault) (reports : List LengthReport) :
    (reports.foldl (Saving.add store c withConclusions) s).fault = some fault := by
  induction reports generalizing s with
  | nil => exact h
  | cons report reports ih =>
    refine ih ?_
    rw [Saving.add, h]
    exact h

/-- A length that cannot be saved (`saveRepresentatives` fails) is a fault. -/
theorem Saving.add_of_error {withConclusions : Bool} {s : Saving} {report : LengthReport}
    (h : s.fault = none) {fault : StoreError} {tree : FileTree}
    (hsave : store.saveRepresentatives s.tree report.length (c.representatives report.length)
      withConclusions (c.settings.filter.offFrom? report.length) = (.error fault, tree)) :
    (Saving.add store c withConclusions s report).fault = some fault := by
  rw [Saving.add, h]
  dsimp only
  rw [hsave]

/-- A length that was saved (`saveRepresentatives` succeeds) is no fault, and leaves the files that
it wrote. -/
theorem Saving.add_of_ok {withConclusions : Bool} {s : Saving} {report : LengthReport}
    (h : s.fault = none) {path : Path} {tree : FileTree}
    (hsave : store.saveRepresentatives s.tree report.length (c.representatives report.length)
      withConclusions (c.settings.filter.offFrom? report.length) = (.ok path, tree)) :
    (Saving.add store c withConclusions s report).fault = none ∧
      (Saving.add store c withConclusions s report).tree = tree := by
  rw [Saving.add, h]
  dsimp only
  rw [hsave]
  exact ⟨rfl, rfl⟩

/-- Saving the lengths of a round without a fault is `Filing` them all. By induction on the reports,
as a fault would stay to the end. -/
theorem filing_foldl_add {withConclusions : Bool} {s : Saving} {reports : List LengthReport}
    (hs : s.fault = none)
    (hok : (reports.foldl (Saving.add store c withConclusions) s).fault = none) :
    Filing store c s.tree (reports.map (·.length))
      (reports.foldl (Saving.add store c withConclusions) s).tree := by
  induction reports generalizing s with
  | nil => exact .done _
  | cons report reports ih =>
    rw [List.foldl_cons] at hok ⊢
    rcases hsave : store.saveRepresentatives s.tree report.length (c.representatives report.length)
      withConclusions (c.settings.filter.offFrom? report.length) with ⟨fault | path, tree⟩
    · rw [Saving.foldl_add_of_fault (Saving.add_of_error hs hsave)] at hok
      cases hok
    · obtain ⟨hfault, htree⟩ := Saving.add_of_ok hs hsave
      have hrest := ih hfault hok
      rw [htree] at hrest
      exact .save withConclusions hsave hrest

/-- The observer `archive` saves every round that it accepts. -/
theorem saves_archive (store : Store) (withConclusions : Bool) :
    Saves store id (archive store withConclusions) := by
  intro t c report t' hok
  rw [archive] at hok
  split at hok
  · next hfault =>
    obtain rfl := (Prod.mk.inj hok).2
    exact filing_foldl_add rfl hfault
  · cases hok

/-- Saving has no fault if the store takes files (`Ready`) and all paths are short enough. By
induction on the reports, with `Ready.writeFile` for each of them. -/
theorem fault_foldl_add {withConclusions : Bool} {s : Saving} {reports : List LengthReport}
    (hs : s.fault = none) (hready : store.Ready s.tree)
    (hsize : ∀ report ∈ reports, (store.root.join (Store.temporaryName (Store.representativesName
      report.length (c.settings.filter.offFrom? report.length)))).text.utf8ByteSize ≤ Path.maxSize) :
    (reports.foldl (Saving.add store c withConclusions) s).fault = none := by
  induction reports generalizing s with
  | nil => exact hs
  | cons report reports ih =>
    obtain ⟨hfirst, hrest⟩ := List.forall_mem_cons.mp hsize
    obtain ⟨tree, hwrite, hready'⟩ := hready.writeFile (Store.isName_representativesName _ _) hfirst
      (Store.representativesText withConclusions (c.representatives report.length))
    have hsave : store.saveRepresentatives s.tree report.length (c.representatives report.length)
        withConclusions (c.settings.filter.offFrom? report.length) =
          (.ok (c.savedPath store report.length), tree) := by
      rw [Store.saveRepresentatives, hwrite]
      rfl
    obtain ⟨hfault, htree⟩ := Saving.add_of_ok hs hsave
    exact ih hfault (htree.symm ▸ hready') hrest

/-- Two weakenings are collected up to length three and saved in a store that takes files, so
`Records` is not empty. -/
theorem exists_records_weakenings (hready : store.Ready t)
    (hsize : (store.root.join (Store.temporaryName (Store.representativesName 3
      none))).text.utf8ByteSize ≤ Path.maxSize) :
    ∃ c u, Records store (start weakenings ⟨.disabled, .always, 1⟩) t c u ∧
      c.table.row 3 = ["D11", "D12"] ∧ c.knownLimit = 3 ∧
      ∀ key e, c.registry.get? key = some e → e.conclusion.Fits := by
  let settings : Settings := ⟨.disabled, .always, 1⟩
  have hvalid : (start weakenings settings).validLengths [3] := by cbv
  have hrounds : Strategy.stepwise.rounds ((start weakenings settings).nextLengths 3) = [[3]] := by
    cbv
  obtain ⟨hrow, hlimit, hfits⟩ :
      ((start weakenings settings).round [3]).2.table.row 3 = ["D11", "D12"] ∧
        ((start weakenings settings).round [3]).2.knownLimit = 3 ∧
        ((start weakenings settings).round [3]).2.registry.toList.all
          (fun p => decide p.2.conclusion.Fits) = true := by
    cbv
  have hlengths := lengths_round (start weakenings settings) [3]
  have hsettings : ((start weakenings settings).round [3]).2.settings = settings := rfl
  generalize hround : (start weakenings settings).round [3] = result at *
  obtain ⟨report, c⟩ := result
  -- The one round is saved.
  obtain ⟨u, hobserve⟩ : ∃ u, archive store true t c report = (.ok (), u) := by
    have hfault : (c.saveLengths store true t (.ofBasis c.basis) report).fault = none := by
      refine fault_foldl_add rfl hready fun one hone => ?_
      have hlength : one.length ∈ report.perLength.map (·.length) := List.mem_map_of_mem hone
      rw [hlengths, List.mem_singleton] at hlength
      rw [hlength, hsettings]
      exact hsize
    exact ⟨_, by rw [archive, hfault]⟩
  have hcollect : (start weakenings settings).collectUpTo 3 .stepwise false (archive store true) t =
      ⟨c, u, .ok [report]⟩ := by
    rw [collectUpTo, hrounds, runRounds_cons hvalid (by rw [hround]; exact hobserve), hround]
    rfl
  refine ⟨c, u, ?_, hrow, hlimit, fun key e he => ?_⟩
  · refine .next (saves_archive store true) (congrArg Progress.outcome hcollect) ?_
    rw [hcollect]
    exact .done c u
  · exact of_decide_eq_true (List.all_eq_true.mp hfits (key, e) (Registry.mem_toList.mpr he))

/-! ## The main result -/

/-- The files of a new store hold a collection of axioms: `Kept` asks for no file. -/
theorem kept_start (basis : Basis) (settings : Settings) (hmetadata : ∃ m, store.loadMetadata t = .ok m)
    (hfresh : ∀ length offFrom,
      t.read (store.representativesPath length offFrom).location = .error .missing) :
    Kept store (start basis settings) t := by
  refine ⟨fun length hlong hle => ?_, fun length _ => hfresh _ _, hmetadata⟩
  rw [knownLimit_start] at hle
  exact absurd hlong (Nat.not_lt.mpr hle)

/-- Nothing is lost by saving and resuming. In a store that was opened (`openIn`) and holds no
representatives, all lengths are collected up to one target after another and every round is saved,
with conclusions or without (`Records`). Resuming from the files then leads to the same collection,
with another history (`withHistory`). It goes on as the other one does: whenever both succeed they
know the same afterwards, and under an observer that takes no notice of the history they also fail
alike. Resuming fails only if the path of the file after the last one is too long to ask whether
there is such a file. Variables are numbers of 32 bits (`Fits`). -/
theorem resume_saved {dir : Path} {t₀ t₁ : FileTree}
    (hopen : Store.openIn dir basis settings.necessitation t₀ = (.ok store, t₁))
    (hfresh : ∀ length offFrom,
      t₁.read (store.representativesPath length offFrom).location = .error .missing)
    (hrecords : Records store (start basis settings) t₁ c t)
    (hfits : ∀ key e, c.registry.get? key = some e → e.conclusion.Fits) :
    let next := c.knownLimit + settings.necessitation.step
    let path := store.representativesPath next (settings.filter.offFrom? next)
    (path.text.utf8ByteSize ≤ Path.maxSize →
      ∃ history, resume store t basis settings = .ok (c.withHistory history) ∧
        (∀ target strategy cancelled cancelled' observer observer',
          (c.serve (.upTo target strategy cancelled observer)).1.isOk →
          ((c.withHistory history).serve (.upTo target strategy cancelled' observer')).1.isOk →
          (c.serve (.upTo target strategy cancelled observer)).2.Agree
            ((c.withHistory history).serve (.upTo target strategy cancelled' observer')).2) ∧
        ∀ (β : Type) (observe : β → Collection → RoundReport → Except Error Unit × β),
          IgnoresHistory observe → ∀ target strategy cancelled state, ∃ history',
            (c.withHistory history).collectUpTo target strategy cancelled observe state =
              (c.collectUpTo target strategy cancelled observe state).withHistory history') ∧
    (Path.maxSize < path.text.utf8ByteSize →
      resume store t basis settings = .error (.store (.file path (.refused .nameTooLong)))) := by
  intro next path
  have hnew := kept_start basis settings (Store.exists_loadMetadata_of_openIn hopen) hfresh
  obtain ⟨⟨rounds, hleads⟩, hkept⟩ := hrecords.kept (consistent_start basis settings) hnew
  obtain ⟨d, hagree, hsettings, hresume⟩ := hkept.resume hleads hfits
  have hsettings' : c.settings = settings := hleads.settings_eq
  have hpath : c.savedPath store next = path := by rw [savedPath, hsettings']
  -- What was resumed has everything but the history of the collection.
  have hd := hagree.eq_withHistory (hsettings.trans hsettings'.symm)
  rw [hpath] at hresume
  constructor
  · intro hsize
    rw [if_pos hsize, hd] at hresume
    refine ⟨d.history, hresume, ?_, fun β observe hignores target strategy cancelled state => ?_⟩
    · intro target strategy cancelled cancelled' observer observer' hok hok'
      have hsame : c.Agree (c.withHistory d.history) := ⟨rfl, rfl, rfl, rfl⟩
      exact hsame.serve rfl hok hok'
    · exact collectUpTo_withHistory hignores c d.history target strategy cancelled state
  · intro hsize
    rwa [if_neg (Nat.not_le.mpr hsize)] at hresume

/-- Two weakenings are collected up to length three, and what was saved is resumed. -/
theorem resume_saved_weakenings :
    ∃ store t₁ c t history, Store.openIn (.slashes 0) weakenings .disabled .empty = (.ok store, t₁) ∧
      Records store (start weakenings ⟨.disabled, .always, 1⟩) t₁ c t ∧
      c.table.row 3 = ["D11", "D12"] ∧
      resume store t weakenings ⟨.disabled, .always, 1⟩ = .ok (c.withHistory history) := by
  have hfolder := Store.size_folderName_disabled weakenings
  have hdir : (Path.slashes 0).text.utf8ByteSize = 1 := Path.size_slashes 0
  obtain ⟨store, hstore⟩ : ∃ store : Store, store =
    ⟨Path.join (.slashes 0) (Store.folderName weakenings .disabled), weakenings.fingerprint⟩ := ⟨_, rfl⟩
  obtain ⟨t₁, hopen, hready, hfresh⟩ := Store.openIn_empty (Path.names_slashes 0)
    (hfolder.trans (by decide)) (by rw [hdir, Path.maxSize]; omega) hstore
  have hpath : ∀ name : String, name.utf8ByteSize ≤ 17 →
      (store.root.join name).text.utf8ByteSize ≤ Path.maxSize := by
    intro name hname
    have hroot := (Path.size_join (.slashes 0) (Store.folderName weakenings .disabled)).2
    have hhigh := (Path.size_join store.root name).2
    rw [hstore] at hhigh ⊢
    rw [Path.maxSize]
    dsimp only at hhigh ⊢
    omega
  have hfirst : (Store.temporaryName (Store.representativesName 3 none)).utf8ByteSize ≤ 17 := by
    cbv
  have hnext : (Store.representativesName 5 none).utf8ByteSize ≤ 17 := by cbv
  obtain ⟨c, t, hrecords, hrow, hlimit, hfits⟩ := exists_records_weakenings hready (hpath _ hfirst)
  have hresumed := (@resume_saved store weakenings ⟨.disabled, .always, 1⟩ c t (.slashes 0) .empty t₁
    hopen hfresh hrecords hfits).1
  rw [hlimit] at hresumed
  obtain ⟨history, hresume, -⟩ := hresumed (hpath _ hnext)
  exact ⟨store, t₁, c, t, history, hopen, hrecords, hrow, hresume⟩

/-- Resuming fails where the path of the first file is too long, although the store could be
opened. -/
theorem not_resume_of_long_path :
    ∃ store t, Store.openIn (.slashes 4063) .standard .disabled .empty = (.ok store, t) ∧
      (∀ length offFrom,
        t.read (store.representativesPath length offFrom).location = .error .missing) ∧
      Records store (start .standard ⟨.disabled, ⟨some 3⟩, 1⟩) t
        (start .standard ⟨.disabled, ⟨some 3⟩, 1⟩) t ∧
      resume store t .standard ⟨.disabled, ⟨some 3⟩, 1⟩ =
        .error (.store (.file (store.representativesPath 3 (some 3)) (.refused .nameTooLong))) := by
  let settings : Settings := ⟨.disabled, ⟨some 3⟩, 1⟩
  have hfolder : (Store.folderName .standard .disabled).utf8ByteSize = 7 := by
    rw [Store.folderName_disabled, Basis.fingerprint, if_pos rfl]
    rfl
  -- Nothing but its size is needed of the path.
  have hdir := Path.size_slashes 4063
  have hnames := Path.names_slashes 4063
  generalize Path.slashes 4063 = dir at hdir hnames ⊢
  obtain ⟨store, hstore⟩ : ∃ store : Store, store =
    ⟨dir.join (Store.folderName .standard .disabled), Basis.standard.fingerprint⟩ := ⟨_, rfl⟩
  obtain ⟨t, hopen, -, hfresh⟩ := Store.openIn_empty hnames (by rw [hfolder]; decide)
    (by rw [hdir, hfolder]; decide) hstore
  refine ⟨store, t, hopen, hfresh, .done _ t, ?_⟩
  have hkept := kept_start .standard settings (Store.exists_loadMetadata_of_openIn hopen) hfresh
  have hfits : (start .standard settings).registry.toList.all
      (fun p => decide p.2.conclusion.Fits) = true := by cbv
  obtain ⟨d, -, -, hresume⟩ := hkept.resume (.done _) fun key e he =>
    of_decide_eq_true (List.all_eq_true.mp hfits (key, e) (Registry.mem_toList.mpr he))
  -- The path is a little longer than that of the run information, which could be written.
  have hlong : Path.maxSize < (store.representativesPath 3 (some 3)).text.utf8ByteSize := by
    have hname : (Store.representativesName 3 (some 3)).utf8ByteSize = 25 := by cbv
    have hroot : 4071 ≤ store.root.text.utf8ByteSize := by
      have hlow := (Path.size_join dir (Store.folderName .standard .disabled)).1
      rw [hdir, hfolder] at hlow
      rw [hstore]
      exact hlow
    have hlow := (Path.size_join store.root (Store.representativesName 3 (some 3))).1
    rw [hname] at hlow
    calc Path.maxSize < 4071 + 25 := by decide
      _ ≤ store.root.text.utf8ByteSize + 25 := Nat.add_le_add_right hroot 25
      _ ≤ (store.representativesPath 3 (some 3)).text.utf8ByteSize := hlow
  have hpath : (start .standard settings).savedPath store
      ((start .standard settings).knownLimit + settings.necessitation.step) =
        store.representativesPath 3 (some 3) := by
    rw [knownLimit_start]
    rfl
  rw [hpath, if_neg (Nat.not_le.mpr hlong)] at hresume
  exact hresume

end Collection

end Detachment
