import Mathlib
import Detachment.Proofs.Rounds

/-! # Enumerations

Both strategies collect every length that proofs can have, in increasing order, so that what one
round keeps true holds at the end.

* `Collection.Plan` says that the rounds ahead cover all lengths up to the target.
* `Collection.runRounds_induction` carries what one round keeps true to the end of a run.
* `Collection.underway_collectUpTo` says that a collection is complete when all rounds were run.
* `Collection.exists_outcome` says that they all are run if nobody objects.
* `Collection.exists_representative` says that every proof up to the target has a representative.
* `Collection.representative_shortest` says that no representative has a shorter proof.

Mathlib is imported whole for the equations by which `cbv` evaluates whole rounds on texts. -/

namespace Detachment.Collection

variable {basis : Basis} {settings : Settings} {c : Collection} {target : Nat}

/-! ## The axioms -/

/-- At first the axioms have been considered: the registry of `start` folds `Registry.consider` over
`basis.proofs`. -/
theorem registry_start_eq (basis : Basis) (settings : Settings) :
    (start basis settings).registry = basis.proofs.foldl (Registry.consider basis) .empty :=
  Trial.registry_foldl_attempt (Necessitations.agrees_empty basis) _ _

/-- At first the empty registry has absorbed the axioms (`Registry.Absorbs`). -/
theorem registry_start (basis : Basis) (settings : Settings) :
    Registry.empty.Absorbs basis basis.proofs (start basis settings).registry := by
  rw [registry_start_eq]
  exact Registry.foldl_consider (Registry.sound_empty basis) _

/-- At first every entry is an axiom, proved by the leaf of its name. -/
theorem exists_name_of_start {key : String} {e : Entry}
    (he : (start basis settings).registry.get? key = some e) :
    ∃ name : basis.Name, (ProofTree.leaf name).text = e.proof := by
  rcases (registry_start basis settings).origin key e he with hempty | hproof
  · rw [Registry.get?_empty] at hempty
    cases hempty
  · exact Basis.mem_proofs_iff.mp hproof

/-- At first all proofs have length one, that of a name. -/
theorem length_of_start {key : String} {e : Entry}
    (he : (start basis settings).registry.get? key = some e) : Proof.length e.proof = 1 := by
  obtain ⟨name, htext⟩ := exists_name_of_start he
  rw [← htext]
  exact ProofTree.length_text _

/-- At first the axioms are known: `knownLimit = 1`. -/
theorem knownLimit_start (basis : Basis) (settings : Settings) :
    (start basis settings).knownLimit = 1 := by
  have hstart : (start basis settings).knownLimit =
      max (Representatives.ofBasis basis).knownLimit 1 :=
    Representatives.knownLimit_publish fun _ => length_of_mem_proofsOf
  rw [hstart, Representatives.knownLimit_ofBasis]
  rfl

/-- The collection of the axioms is `Consistent`. Everything that is registered is the name of an
axiom (`exists_name_of_start`). -/
theorem consistent_start (basis : Basis) (settings : Settings) :
    (start basis settings).Consistent := by
  have hsound := (registry_start basis settings).sound
  have hrow : ∀ length, (start basis settings).table.row length =
      if length = 1 then
        (proofsOf ((start basis settings).registry.withLengths [1])).mergeSort Proof.le
      else (Representatives.ofBasis basis).row length :=
    fun length => Representatives.row_publish fun _ => length_of_mem_proofsOf
  refine ⟨hsound, fun length => ?_, ?_, ?_, fun key e he => ?_, fun key e he => ?_⟩
  · -- Only the row of length one has proofs, and these are the registered axioms.
    rw [hrow, Representatives.row_ofBasis]
    split
    · next hone =>
      rw [hone]
      exact mergeSort_proofsOf _ _
    · next hone =>
      symm
      rw [List.eq_nil_iff_forall_not_mem]
      intro proof hproof
      obtain ⟨key, e, he, rfl, rfl⟩ := mem_proofsOf_iff.mp hproof
      exact hone (length_of_start he)
  · rw [knownLimit_start]
  · rw [knownLimit_start]
    exact Bool.or_true _
  · rw [knownLimit_start, length_of_start he]
  · -- A proof that is the name of an axiom has no necessitations.
    obtain ⟨name, htext⟩ := exists_name_of_start he
    rw [← htext, ProofTree.toList_text, ProofTree.symbols,
      NecessitationLimit.runsAllowed_cons (Basis.name_spec name).2.1]
    exact ⟨NecessitationLimit.allows_zero _, NecessitationLimit.allows_zero _⟩

/-- The collection of the axioms is `Complete`: only leaves are within the known limit. -/
theorem complete_start (basis : Basis) (settings : Settings) :
    (start basis settings).Complete := by
  refine ⟨fun t f hconclude _ hlength => ?_, fun key e he hlong => ?_⟩
  · rw [knownLimit_start] at hlength
    have habsorbs := registry_start basis settings
    cases t with
    | leaf name =>
      have hread := ProofTree.conclusion_text (.leaf name : ProofTree basis)
      have hproof := Basis.mem_proofs_iff.mpr ⟨name, rfl⟩
      obtain ⟨e, he, -⟩ := habsorbs.accepts _ hproof f (hread.trans hconclude)
      refine ⟨f.polish, e, he, Nat.le_of_eq (length_of_start he), ?_⟩
      rw [Formula.polish_inj (habsorbs.sound _ e he).1]
      exact .refl f
    | necessitate inner =>
      have := inner.length_pos
      rw [ProofTree.length] at hlength
      omega
    | detach major minor =>
      have := major.length_pos
      rw [ProofTree.length] at hlength
      omega
  · rw [length_of_start he] at hlong
    exact absurd hlong (Nat.lt_irrefl 1)

/-! ## The rounds ahead -/

/-- The rounds ahead go through all lengths that proofs can have (`canHaveLength`) up to the target,
in order. -/
structure Plan (c : Collection) (rounds : List (List Nat)) (target : Nat) : Prop where
  /-- Every round has a length. -/
  nonempty : ∀ lengths ∈ rounds, lengths ≠ []
  /-- The lengths increase. -/
  sorted : rounds.flatten.Pairwise (· < ·)
  /-- The lengths are those beyond the known limit that proofs can have. -/
  mem_iff : ∀ length, length ∈ rounds.flatten ↔
    c.knownLimit < length ∧ length ≤ target ∧
      canHaveLength c.settings.necessitation.isEnabled length

/-- The first round of a plan covers all lengths up to its `last` one (`Continues`), and the other
rounds lie beyond. -/
theorem Plan.continues {lengths : List Nat} {rest : List (List Nat)}
    (h : c.Plan (lengths :: rest) target) :
    ∃ last ≤ target, c.Continues lengths last ∧
      (∀ length, c.knownLimit < length → length ≤ last →
        canHaveLength c.settings.necessitation.isEnabled length → length ∈ lengths) ∧
      ∀ length ∈ rest.flatten, last < length := by
  have hne := h.nonempty lengths List.mem_cons_self
  have hsorted := h.sorted
  have hmem := h.mem_iff
  rw [List.flatten_cons] at hsorted hmem
  obtain ⟨hfirst, -, hacross⟩ := List.pairwise_append.mp hsorted
  have hlast := (hmem (lengths.getLast hne)).mp (List.mem_append_left _ (List.getLast_mem hne))
  refine ⟨lengths.getLast hne, hlast.2.1, ⟨?_, List.getLast_mem hne, ?_, hlast.2.2⟩, ?_, ?_⟩
  · rw [List.getLastD_eq_getLast?, List.getLast?_eq_some_getLast hne, Option.getD_some]
  · intro length hlength
    exact ⟨((hmem length).mp (List.mem_append_left _ hlength)).1,
      (hfirst.imp Nat.le_of_lt).rel_getLast hlength⟩
  · -- A length of a later round would be larger than the last one of this round.
    intro length hbeyond hle hparity
    rcases List.mem_append.mp ((hmem length).mpr
      ⟨hbeyond, Nat.le_trans hle hlast.2.1, hparity⟩) with hlength | hlength
    · exact hlength
    · exact absurd (hacross _ (List.getLast_mem hne) length hlength) (Nat.not_lt.mpr hle)
  · exact fun length hlength => hacross _ (List.getLast_mem hne) length hlength

/-- After the first round of a plan the others are ahead: the known limit is then the last length of
that round. -/
theorem Plan.next {lengths : List Nat} {rest : List (List Nat)}
    (h : c.Plan (lengths :: rest) target) : (c.round lengths).2.Plan rest target := by
  obtain ⟨last, -, hcontinues, -, hacross⟩ := h.continues
  have hbounds := hcontinues.bounds last hcontinues.last_mem
  have hmem := h.mem_iff
  have hsorted := h.sorted
  rw [List.flatten_cons] at hsorted hmem
  refine ⟨fun other hother => h.nonempty other (List.mem_cons_of_mem _ hother),
    (List.pairwise_append.mp hsorted).2.1, fun length => ?_⟩
  rw [knownLimit_round hcontinues]
  constructor
  · intro hlength
    have hspec := (hmem length).mp (List.mem_append_right _ hlength)
    exact ⟨hacross length hlength, hspec.2⟩
  · rintro ⟨hbeyond, hspec⟩
    rcases List.mem_append.mp ((hmem length).mpr ⟨by omega, hspec⟩) with hlength | hlength
    · exact absurd (hcontinues.bounds length hlength).2 (Nat.not_le.mpr hbeyond)
    · exact hlength

/-- Lengths that keep the distance `limit.step` from the known limit are those that proofs can
have. -/
theorem sub_mod_step_iff {limit : NecessitationLimit} {known length : Nat}
    (hknown : canHaveLength limit.isEnabled known) (hlt : known < length) :
    (length - known) % limit.step = 0 ↔ canHaveLength limit.isEnabled length := by
  rw [NecessitationLimit.step]
  cases henabled : limit.isEnabled with
  | true => simp [canHaveLength, Nat.mod_one]
  | false =>
    rw [henabled] at hknown
    simp only [canHaveLength, Bool.false_or, beq_iff_eq] at hknown ⊢
    rw [if_neg Bool.false_ne_true]
    omega

/-- Both strategies go through the lengths in order: `rounds` only groups them. -/
theorem flatten_rounds (strategy : Strategy) (lengths : List Nat) :
    (strategy.rounds lengths).flatten = lengths := by
  cases strategy with
  | stepwise =>
    induction lengths with
    | nil => rfl
    | cons length lengths ih => exact congrArg (length :: ·) ih
  | combined => cases lengths <;> simp [Strategy.rounds]

/-- No strategy has a round without lengths. A combined plan has no round if it has no lengths. -/
theorem ne_nil_of_mem_rounds {strategy : Strategy} {all lengths : List Nat}
    (h : lengths ∈ strategy.rounds all) : lengths ≠ [] := by
  cases strategy with
  | stepwise =>
    obtain ⟨length, -, rfl⟩ := List.mem_map.mp h
    exact List.cons_ne_nil _ _
  | combined =>
    rw [Strategy.rounds] at h
    split at h
    · cases h
    · next hne =>
      rw [List.mem_singleton.mp h]
      exact fun hnil => hne (List.isEmpty_iff.mpr hnil)

/-- Both strategies go through all lengths up to the target: `rounds` of `nextLengths` is a
`Plan`. -/
theorem plan_rounds (h : c.Consistent) (strategy : Strategy) (target : Nat) :
    c.Plan (strategy.rounds (c.nextLengths target)) target := by
  refine ⟨fun lengths => ne_nil_of_mem_rounds, ?_, fun length => ?_⟩
  · rw [flatten_rounds]
    exact (List.pairwise_lt_range' 1).filter _
  · rw [flatten_rounds, nextLengths, List.mem_filter, List.mem_range'_1, beq_iff_eq]
    constructor
    · rintro ⟨⟨hbeyond, hle⟩, hstep⟩
      exact ⟨hbeyond, by omega, (sub_mod_step_iff h.parity hbeyond).mp hstep⟩
    · rintro ⟨hbeyond, hle, hparity⟩
      exact ⟨⟨hbeyond, by omega⟩, (sub_mod_step_iff h.parity hbeyond).mpr hparity⟩

/-! ## Running the rounds -/

section runRounds

variable {β : Type} {observe : β → Collection → RoundReport → Except Error Unit × β}
  {cancelled : Bool} {state : β} {done : List RoundReport} {rounds : List (List Nat)}

/-- Lengths that continue the collection (`validLengths`) are collected, unless the request is
cancelled. -/
theorem collectRound_of_validLengths {lengths : List Nat} (hvalid : c.validLengths lengths) :
    c.collectRound lengths false = .ok (c.round lengths) := by
  rw [collectRound, hvalid]
  rfl

/-- Other lengths are refused with `.invalidLengths`, cancelled or not. -/
theorem collectRound_of_not_validLengths {lengths : List Nat} (hvalid : ¬c.validLengths lengths)
    (cancelled : Bool) :
    c.collectRound lengths cancelled = .error (.invalidLengths lengths c.knownLimit) := by
  rw [collectRound, Bool.eq_false_iff.mpr hvalid]
  rfl

/-- After a round the observer is content with, the other rounds are run, with the report behind
those in `done`. -/
theorem runRounds_cons {lengths : List Nat} {state' : β} (hvalid : c.validLengths lengths)
    (hobserve : observe state (c.round lengths).2 (c.round lengths).1 = (.ok (), state')) :
    runRounds observe false c state done (lengths :: rounds) =
      runRounds observe false (c.round lengths).2 state' (done ++ [(c.round lengths).1])
        rounds := by
  have hcollect := collectRound_of_validLengths hvalid
  simp only [runRounds, Bool.false_eq_true, if_false, hcollect, hobserve]

/-- The observer's error after a round is the outcome of `runRounds`. -/
theorem runRounds_cons_of_error {lengths : List Nat} {e : Error} {state' : β}
    (hvalid : c.validLengths lengths)
    (hobserve : observe state (c.round lengths).2 (c.round lengths).1 = (.error e, state')) :
    (runRounds observe false c state done (lengths :: rounds)).outcome = .error e := by
  have hcollect := collectRound_of_validLengths hvalid
  simp only [runRounds, Bool.false_eq_true, if_false, hcollect, hobserve]

/-- Where all rounds were run, the first one was, the observer was content with it, and then the
others were run: the inversion of `runRounds_cons`. -/
theorem runRounds_cons_of_ok {lengths : List Nat} {reports : List RoundReport}
    (hok : (runRounds observe cancelled c state done (lengths :: rounds)).outcome = .ok reports) :
    c.validLengths lengths ∧ ∃ state',
      observe state (c.round lengths).2 (c.round lengths).1 = (.ok (), state') ∧
      runRounds observe cancelled c state done (lengths :: rounds) =
        runRounds observe cancelled (c.round lengths).2 state' (done ++ [(c.round lengths).1])
          rounds := by
  cases cancelled with
  | true =>
    rw [runRounds, if_pos rfl] at hok
    cases hok
  | false =>
    by_cases hvalid : c.validLengths lengths
    · rcases hobserve : observe state (c.round lengths).2 (c.round lengths).1 with ⟨e | _, state'⟩
      · rw [runRounds_cons_of_error hvalid hobserve] at hok
        cases hok
      · exact ⟨hvalid, state', rfl, runRounds_cons hvalid hobserve⟩
    · rw [runRounds, if_neg Bool.false_ne_true, collectRound_of_not_validLengths hvalid] at hok
      cases hok

/-- What every round keeps true holds when all rounds were run: the run lemma for all invariants of
`runRounds`. The motive `P` also sees the rounds that are still ahead. -/
theorem runRounds_induction {P : Collection → List (List Nat) → Prop}
    (hround : ∀ c lengths rest, P c (lengths :: rest) → P (c.round lengths).2 rest)
    {reports : List RoundReport} (h : P c rounds)
    (hok : (runRounds observe cancelled c state done rounds).outcome = .ok reports) :
    P (runRounds observe cancelled c state done rounds).collection [] := by
  induction rounds generalizing c state done with
  | nil => exact h
  | cons lengths rest ih =>
    obtain ⟨-, state', -, hrest⟩ := runRounds_cons_of_ok hok
    rw [hrest] at hok ⊢
    exact ih (hround c lengths rest h) hok

/-- Lengths with `Pairwise (· < ·)` pass the check `increasing`. -/
theorem increasing_of_sorted {lengths : List Nat} (h : lengths.Pairwise (· < ·)) :
    increasing lengths = true := by
  induction lengths with
  | nil => rfl
  | cons a rest ih =>
    cases rest with
    | nil => rfl
    | cons b rest =>
      obtain ⟨hfirst, hrest⟩ := List.pairwise_cons.mp h
      rw [increasing, ih hrest, Bool.and_true]
      exact decide_eq_true (hfirst b List.mem_cons_self)

/-- The first round of a plan continues the collection (`validLengths`). The lengths are increasing
and beyond the known limit, as those of the whole plan are. -/
theorem Plan.validLengths {lengths : List Nat} {rest : List (List Nat)}
    (hplan : c.Plan (lengths :: rest) target) (h : c.Consistent) : c.validLengths lengths := by
  have hsorted := hplan.sorted
  rw [List.flatten_cons] at hsorted
  have hne := hplan.nonempty lengths List.mem_cons_self
  rw [Collection.validLengths, Bool.and_eq_true, Bool.and_eq_true, List.all_eq_true]
  refine ⟨⟨?_, increasing_of_sorted (List.pairwise_append.mp hsorted).1⟩, fun length hlength => ?_⟩
  · rw [Bool.not_eq_true', List.isEmpty_eq_false_iff]
    exact hne
  · have hspec := (hplan.mem_iff length).mp (List.mem_append_left _ hlength)
    rw [Bool.and_eq_true, decide_eq_true_eq, beq_iff_eq]
    exact ⟨hspec.1, (sub_mod_step_iff h.parity hspec.1).mpr hspec.2.2⟩

/-- A plan is carried out if it is not cancelled and the observer has no objection: each round
passes `validLengths`, by `Plan.validLengths`. -/
theorem exists_outcome (h : c.Consistent) (hplan : c.Plan rounds target)
    (hobserve : ∀ state c report, (observe state c report).1 = .ok ()) :
    ∃ reports, (runRounds observe false c state done rounds).outcome = .ok reports := by
  induction rounds generalizing c state done with
  | nil => exact ⟨done, rfl⟩
  | cons lengths rest ih =>
    obtain ⟨last, -, hcontinues, -⟩ := hplan.continues
    rcases hresult : observe state (c.round lengths).2 (c.round lengths).1 with ⟨result, state'⟩
    obtain rfl : result = .ok () := by
      rw [← hobserve state (c.round lengths).2 (c.round lengths).1, hresult]
    rw [runRounds_cons (hplan.validLengths h) hresult]
    exact ih (h.round hcontinues) hplan.next

end runRounds

/-! ## Collecting up to a target -/

/-- A collection on its way to a target, with the `rounds` that are still ahead. -/
structure OnCourse (basis : Basis) (settings : Settings) (target : Nat) (c : Collection)
    (rounds : List (List Nat)) : Prop where
  /-- The axioms stay the same. -/
  basis_eq : c.basis = basis
  /-- The settings stay the same. -/
  settings_eq : c.settings = settings
  /-- The collection is consistent. -/
  consistent : c.Consistent
  /-- The rounds ahead lead to the target. -/
  plan : c.Plan rounds target
  /-- The known limit never goes beyond the target, unless that is before the axioms. -/
  le_target : c.knownLimit ≤ max target 1
  /-- The axioms stay registered, and no other proof has their length. -/
  axioms_iff : ∀ key e, Proof.length e.proof = 1 →
    (c.registry.get? key = some e ↔ (start basis settings).registry.get? key = some e)

/-- All known lengths can be referred to (`Grammar.longestEntry`), if the target can. -/
theorem OnCourse.le_longest {rounds : List (List Nat)}
    (h : OnCourse basis settings target c rounds) (htarget : target ≤ Grammar.longestEntry) :
    c.knownLimit ≤ Grammar.longestEntry :=
  Nat.le_trans h.le_target (Nat.max_le.mpr ⟨htarget, by decide⟩)

/-- A collection that is `OnCourse` and complete so far. -/
structure Underway (basis : Basis) (settings : Settings) (target : Nat) (c : Collection)
    (rounds : List (List Nat)) : Prop extends OnCourse basis settings target c rounds where
  /-- The collection is complete. -/
  complete : c.Complete

/-- The axioms are `Underway` to any target. -/
theorem underway_start (basis : Basis) (settings : Settings) (strategy : Strategy)
    (target : Nat) :
    Underway basis settings target (start basis settings)
      (strategy.rounds ((start basis settings).nextLengths target)) where
  basis_eq := rfl
  settings_eq := rfl
  consistent := consistent_start basis settings
  complete := complete_start basis settings
  plan := plan_rounds (consistent_start basis settings) strategy target
  le_target := by
    rw [knownLimit_start]
    exact Nat.le_max_right _ _
  axioms_iff _ _ _ := Iff.rfl

/-- The step lemma for `OnCourse`: a round leads one step further. Entries of length one stay, as
the lengths of a round are larger. -/
theorem OnCourse.round {lengths : List Nat} {rest : List (List Nat)}
    (h : OnCourse basis settings target c (lengths :: rest)) :
    OnCourse basis settings target (c.round lengths).2 rest := by
  obtain ⟨last, hlast, hcontinues, -, -⟩ := h.plan.continues
  refine ⟨h.basis_eq, h.settings_eq, h.consistent.round hcontinues, h.plan.next, ?_,
    fun key e hone => ?_⟩
  · rw [knownLimit_round hcontinues]
    exact Nat.le_trans hlast (Nat.le_max_left _ _)
  · have hshort : Proof.length e.proof ∉ lengths := by
      intro hmem
      have hbeyond := (hcontinues.bounds _ hmem).1
      have hknown := h.consistent.one_le
      omega
    rw [get?_round_of_not_mem h.consistent hcontinues hshort]
    exact h.axioms_iff key e hone

/-- The step lemma for `Underway`: a round of a complete collection leads one step further, if known
proofs may be replaced (`Flexible`). -/
theorem Underway.round (hfilter : settings.filter = .always)
    (htarget : target ≤ Grammar.longestEntry) {lengths : List Nat} {rest : List (List Nat)}
    (h : Underway basis settings target c (lengths :: rest))
    (hflexible : settings.necessitation.Flexible basis c.knownLimit target) :
    Underway basis settings target (c.round lengths).2 rest := by
  obtain ⟨last, hlast, hcontinues, hevery, -⟩ := h.plan.continues
  rw [← h.settings_eq] at hfilter
  refine ⟨h.toOnCourse.round, ?_⟩
  refine h.complete.round h.consistent (h.le_longest htarget) ?_ hfilter hcontinues hevery
  rw [h.settings_eq, h.basis_eq]
  exact hflexible.mono hlast

/-- At the target, with no rounds ahead, everything up to it is known. -/
theorem Underway.length_le (h : Underway basis settings target c []) {s : String} {f : Formula}
    (hs : Proof.conclusion basis s = .ok f)
    (hruns : settings.necessitation.RunsAllowed 0 s.toList)
    (hlength : Proof.length s ≤ target) : Proof.length s ≤ c.knownLimit := by
  obtain ⟨t, rfl⟩ := ProofTree.exists_tree_of_conclusion hs
  rw [ProofTree.length_text] at hlength ⊢
  rw [ProofTree.toList_text, ← h.settings_eq] at hruns
  -- No length that proofs can have is left beyond the known limit.
  by_contra hbeyond
  have hleft := (h.plan.mem_iff t.length).mpr
    ⟨Nat.not_le.mp hbeyond, hlength, ProofTree.canHaveLength_of_runsAllowed hruns⟩
  exact absurd hleft List.not_mem_nil

/-- A limit of one of three kinds is uniform (`IsUniform`): a known proof may take the place of any
other. -/
theorem isUniform_of_or {limit : NecessitationLimit}
    (h : limit = .disabled ∨ limit = .bounded 0 ∨ limit = .unbounded) : limit.IsUniform := by
  rcases h with rfl | rfl | rfl
  · exact .inl rfl
  · exact .inl rfl
  · exact .inr rfl

/-- A proof has `RunsAllowed` if there is no limit or there are no necessitations in it. -/
theorem runsAllowed_of_or {limit : NecessitationLimit} {s : String}
    (h : limit = .unbounded ∨ Proof.necessitateSymbol ∉ s.toList) :
    limit.RunsAllowed 0 s.toList := by
  rcases h with rfl | hfree
  · exact NecessitationLimit.runsAllowed_unbounded _ _
  · exact NecessitationLimit.runsAllowed_of_not_mem hfree

section collectUpTo

variable {β : Type} {observe : β → Collection → RoundReport → Except Error Unit × β}
  {cancelled : Bool} {state : β} {strategy : Strategy} {reports : List RoundReport}

/-- All lengths up to a target are collected by `collectUpTo` unless the request is cancelled or the
observer objects. -/
theorem exists_outcome_collectUpTo (basis : Basis) (settings : Settings) (strategy : Strategy)
    (target : Nat) (observe : β → Collection → RoundReport → Except Error Unit × β)
    (hobserve : ∀ state c report, (observe state c report).1 = .ok ()) (state : β) :
    ∃ reports, ((start basis settings).collectUpTo target strategy false observe state).outcome =
      .ok reports := by
  have h := underway_start basis settings strategy target
  exact exists_outcome h.consistent h.plan hobserve

/-- The run lemma for `OnCourse`: a collection that was completed is at its target, whatever the
limit. -/
theorem onCourse_collectUpTo
    (hok : ((start basis settings).collectUpTo target strategy cancelled observe state).outcome =
      .ok reports) :
    OnCourse basis settings target
      ((start basis settings).collectUpTo target strategy cancelled observe state).collection [] :=
  runRounds_induction (fun _ _ _ => OnCourse.round)
    (underway_start basis settings strategy target).toOnCourse hok

/-- The run lemma for `Underway`: if known proofs may always be replaced (`Flexible`), a collection
that was completed is complete. -/
theorem underway_of_flexible (hfilter : settings.filter = .always)
    (htarget : target ≤ Grammar.longestEntry)
    (hflexible : ∀ known, settings.necessitation.Flexible basis known target)
    (hok : ((start basis settings).collectUpTo target strategy cancelled observe state).outcome =
      .ok reports) :
    Underway basis settings target
      ((start basis settings).collectUpTo target strategy cancelled observe state).collection [] :=
  runRounds_induction (fun _ _ _ h => h.round hfilter htarget (hflexible _))
    (underway_start basis settings strategy target) hok

/-- A collection that was completed is `Underway` with nothing ahead, for the three limits that are
uniform. -/
theorem underway_collectUpTo
    (hlimit : settings.necessitation = .disabled ∨ settings.necessitation = .bounded 0 ∨
      settings.necessitation = .unbounded)
    (hfilter : settings.filter = .always) (htarget : target ≤ Grammar.longestEntry)
    (hok : ((start basis settings).collectUpTo target strategy cancelled observe state).outcome =
      .ok reports) :
    Underway basis settings target
      ((start basis settings).collectUpTo target strategy cancelled observe state).collection [] :=
  underway_of_flexible hfilter htarget (fun _ => (isUniform_of_or hlimit).flexible) hok

/-- When all lengths up to a target were collected, every proof up to the target has a
representative in the table that is not longer and whose registered conclusion is more general
(`isSchema`). Necessitations have to be allowed in any number or not at all. -/
theorem exists_representative
    (hlimit : settings.necessitation = .disabled ∨ settings.necessitation = .bounded 0 ∨
      settings.necessitation = .unbounded)
    (hfilter : settings.filter = .always) (htarget : target ≤ Grammar.longestEntry)
    (hok : ((start basis settings).collectUpTo target strategy cancelled observe state).outcome =
      .ok reports)
    {s : String} {f : Formula} (hs : Proof.conclusion basis s = .ok f)
    (hlength : Proof.length s ≤ target)
    (hfree : settings.necessitation = .unbounded ∨ Proof.necessitateSymbol ∉ s.toList) :
    ∃ key e,
      ((start basis settings).collectUpTo target strategy cancelled observe
        state).collection.registry.get? key = some e ∧
      e.proof ∈ ((start basis settings).collectUpTo target strategy cancelled observe
        state).collection.table.row (Proof.length e.proof) ∧
      Proof.length e.proof ≤ Proof.length s ∧ isSchema e.conclusion f := by
  have h := underway_collectUpTo hlimit hfilter htarget hok
  have hruns := runsAllowed_of_or hfree
  have hknown := h.length_le hs hruns hlength
  rw [← h.basis_eq] at hs
  rw [← h.settings_eq] at hruns
  obtain ⟨key, e, he, hle, hgeneral⟩ := h.complete.exists_entry hs hruns hknown
  exact ⟨key, e, he, (h.consistent.mem_row _ _).mpr ⟨key, e, he, rfl, rfl⟩, hle,
    isSchema_iff.mpr hgeneral⟩

/-- The standard system with necessitation has a representative for the necessity of `p → p`, whose
proof `NDD211` has length six. -/
theorem exists_representative_standard :
    ∃ reports key e,
      ((start .standard ⟨.unbounded, .always, 2⟩).collectUpTo 7 .combined false
        (fun (_ : Unit) _ _ => (.ok (), ())) ()).outcome = .ok reports ∧
      Proof.conclusion .standard "NDD211" =
        .ok (Formula.necessarily (.implies (.var 0) (.var 0))) ∧
      ((start .standard ⟨.unbounded, .always, 2⟩).collectUpTo 7 .combined false
        (fun (_ : Unit) _ _ => (.ok (), ())) ()).collection.registry.get? key = some e ∧
      e.proof ∈ ((start .standard ⟨.unbounded, .always, 2⟩).collectUpTo 7 .combined false
        (fun (_ : Unit) _ _ => (.ok (), ())) ()).collection.table.row (Proof.length e.proof) ∧
      Proof.length e.proof ≤ 6 ∧
      isSchema e.conclusion (Formula.necessarily (.implies (.var 0) (.var 0))) := by
  have hread : Proof.conclusion .standard "NDD211" =
      .ok (Formula.necessarily (.implies (.var 0) (.var 0))) := rfl
  obtain ⟨reports, hok⟩ := exists_outcome_collectUpTo .standard ⟨.unbounded, .always, 2⟩ .combined
    7 (fun (_ : Unit) _ _ => (.ok (), ())) (fun _ _ _ => rfl) ()
  obtain ⟨key, e, hspec⟩ := exists_representative (.inr (.inr rfl)) rfl (by decide) hok hread
    (by decide) (.inl rfl)
  exact ⟨reports, key, e, hok, hread, hspec⟩

/-- When all lengths up to a target were collected, no proof at all that is shorter than a
representative has a conclusion with the same notation (`polish`). Necessitations have to be allowed
in any number or not at all. -/
theorem representative_shortest
    (hlimit : settings.necessitation = .disabled ∨ settings.necessitation = .bounded 0 ∨
      settings.necessitation = .unbounded)
    (hfilter : settings.filter = .always) (htarget : target ≤ Grammar.longestEntry)
    (hok : ((start basis settings).collectUpTo target strategy cancelled observe state).outcome =
      .ok reports)
    {length : Nat} {p : String}
    (hp : p ∈ ((start basis settings).collectUpTo target strategy cancelled observe
      state).collection.table.row length) :
    ∃ f, Proof.conclusion basis p = .ok f ∧
      ∀ s g, Proof.conclusion basis s = .ok g → Proof.length s < length →
        (settings.necessitation = .unbounded ∨ Proof.necessitateSymbol ∉ s.toList) →
        g.polish ≠ f.polish := by
  have h := underway_collectUpTo hlimit hfilter htarget hok
  obtain ⟨key, e, he, rfl, rfl⟩ := (h.consistent.mem_row length p).mp hp
  have hproof := (h.consistent.sound key e he).2
  rw [h.basis_eq] at hproof
  refine ⟨e.conclusion, hproof, fun s g hs hshort hfree hkey => ?_⟩
  have hruns := runsAllowed_of_or hfree
  rw [← h.settings_eq] at hruns
  rw [Formula.polish_inj hkey, ← h.basis_eq] at hs
  exact h.complete.conclusion_ne h.consistent he hruns hshort hs

/-- From the axiom `p → (q → p)` alone, no proof shorter than `D11` proves the same. -/
theorem representative_shortest_weakening :
    "D11" ∈ ((start (.ofFormulas [.implies (.var 0) (.implies (.var 1) (.var 0))])
      ⟨.disabled, .always, 1⟩).collectUpTo 3 .stepwise false
        (fun (_ : Unit) _ _ => (.ok (), ())) ()).collection.table.row 3 ∧
      ∃ f, Proof.conclusion (.ofFormulas [.implies (.var 0) (.implies (.var 1) (.var 0))]) "D11" =
          .ok f ∧
        ∀ s g, Proof.conclusion (.ofFormulas [.implies (.var 0) (.implies (.var 1) (.var 0))]) s =
            .ok g → Proof.length s < 3 →
          (NecessitationLimit.disabled = .unbounded ∨ Proof.necessitateSymbol ∉ s.toList) →
          g.polish ≠ f.polish := by
  have hrow : ((start (.ofFormulas [.implies (.var 0) (.implies (.var 1) (.var 0))])
      ⟨.disabled, .always, 1⟩).collectUpTo 3 .stepwise false
        (fun (_ : Unit) _ _ => (.ok (), ())) ()).collection.table.row 3 = ["D11"] := by cbv
  have hp := hrow ▸ List.mem_singleton_self "D11"
  obtain ⟨reports, hok⟩ := exists_outcome_collectUpTo
    (.ofFormulas [.implies (.var 0) (.implies (.var 1) (.var 0))]) ⟨.disabled, .always, 1⟩ .stepwise
    3 (fun (_ : Unit) _ _ => (.ok (), ())) (fun _ _ _ => rfl) ()
  exact ⟨hp, representative_shortest (.inl rfl) rfl (by decide) hok hp⟩

end collectUpTo

end Detachment.Collection
