import Detachment.Proofs.Redundancy

/-! # Rounds

What a round keeps true of a collection, and what it adds.

* `Collection.Consistent` says that the table lists the registered proofs, and that these are codes
  of the right lengths; `Collection.Consistent.round` says that a round keeps this.
* `Collection.Pruned` says that nothing is redundant where the filter applies;
  `Collection.Pruned.round` says that a round keeps this.
* `Collection.Complete` says that every proof up to the known limit is represented and that no
  representative is redundant; `Collection.Complete.round` says that a round over all lengths up to
  some number keeps this. -/

namespace Detachment.Collection

variable {c : Collection} {lengths : List Nat} {last : Nat} {key : String} {e : Entry}

/-! ## The proofs of a registry -/

/-- The published proofs of a length (`proofsOf`) are the registered ones. -/
theorem mem_proofsOf_iff {r : Registry} {length : Nat} {proof : String} :
    proof ∈ proofsOf (r.withLengths [length]) ↔
      ∃ key e, r.get? key = some e ∧ e.proof = proof ∧ Proof.length proof = length := by
  rw [proofsOf, List.mem_map]
  constructor
  · rintro ⟨⟨key, e⟩, hentry, rfl⟩
    obtain ⟨he, hlength⟩ := Registry.mem_withLengths.mp hentry
    exact ⟨key, e, he, rfl, List.mem_singleton.mp hlength⟩
  · rintro ⟨key, e, he, rfl, hlength⟩
    exact ⟨(key, e), Registry.mem_withLengths.mpr ⟨he, List.mem_singleton.mpr hlength⟩, rfl⟩

/-- The proofs of a registry with one length (`withLengths`) have it. -/
theorem length_of_mem_proofsOf {r : Registry} {length : Nat} {proof : String}
    (h : proof ∈ proofsOf (r.withLengths [length])) : Proof.length proof = length := by
  obtain ⟨key, e, -, -, hlength⟩ := mem_proofsOf_iff.mp h
  exact hlength

/-- No proof is published twice, as a `Sound` registry has one entry for each proof. -/
theorem nodup_proofsOf {basis : Basis} {r : Registry} (h : r.Sound basis) (lengths : List Nat) :
    (proofsOf (r.withLengths lengths)).Nodup := by
  refine (Registry.nodup_withLengths r lengths).map_on ?_
  rintro ⟨key, e⟩ hentry ⟨key', e'⟩ hentry' hproof
  have he := (Registry.mem_withLengths.mp hentry).1
  have he' := (Registry.mem_withLengths.mp hentry').1
  obtain rfl := h.key_eq he he' hproof
  rw [Option.some.inj (he.symm.trans he')]

/-- The proofs of some lengths are already in order, so `mergeSort` leaves them alone. -/
theorem mergeSort_proofsOf (r : Registry) (lengths : List Nat) :
    (proofsOf (r.withLengths lengths)).mergeSort Proof.le = proofsOf (r.withLengths lengths) :=
  List.mergeSort_of_pairwise (List.pairwise_map.mpr (r.pairwise_withLengths lengths))

/-! ## Consistent collections -/

/-- The table and the registry agree, and hold proofs of the lengths collected so far. -/
structure Consistent (c : Collection) : Prop where
  /-- Every entry has a proof of its conclusion. -/
  sound : c.registry.Sound c.basis
  /-- A row lists the registered proofs of its length. -/
  row_eq : ∀ length, c.table.row length = proofsOf (c.registry.withLengths [length])
  /-- The axioms are known. -/
  one_le : 1 ≤ c.knownLimit
  /-- The known limit is a length that proofs can have. -/
  parity : canHaveLength c.settings.necessitation.isEnabled c.knownLimit
  /-- No registered proof is longer than the known limit. -/
  length_le : ∀ key e, c.registry.get? key = some e → Proof.length e.proof ≤ c.knownLimit
  /-- Registered proofs have allowed runs of necessitations. -/
  runs : ∀ key e, c.registry.get? key = some e →
    c.settings.necessitation.RunsAllowed 0 e.proof.toList

/-- A row of a `Consistent` collection holds the registered proofs of its length. -/
theorem Consistent.mem_row (h : c.Consistent) (length : Nat) (proof : String) :
    proof ∈ c.table.row length ↔
      ∃ key e, c.registry.get? key = some e ∧ e.proof = proof ∧ Proof.length proof = length := by
  rw [h.row_eq]
  exact mem_proofsOf_iff

/-- No row of a `Consistent` collection holds a proof twice. -/
theorem Consistent.nodup (h : c.Consistent) (length : Nat) : (c.table.row length).Nodup := by
  rw [h.row_eq]
  exact nodup_proofsOf h.sound _

/-- A registered proof is the code of a tree that has its conclusion (`ProofTree.conclude`). -/
theorem Consistent.exists_tree (h : c.Consistent) (he : c.registry.get? key = some e) :
    ∃ t : ProofTree c.basis, t.text = e.proof ∧ t.length = Proof.length e.proof ∧
      t.conclude 0 = .ok e.conclusion ∧ c.settings.necessitation.RunsAllowed 0 t.symbols := by
  have hconclusion := (h.sound key e he).2
  obtain ⟨t, ht⟩ := ProofTree.exists_tree_of_conclusion hconclusion
  have hruns := h.runs key e he
  rw [← ht, ProofTree.toList_text] at hruns
  rw [← ht, ProofTree.conclusion_text] at hconclusion
  exact ⟨t, ht, by rw [← ht, ProofTree.length_text], hconclusion, hruns⟩

/-- Registered proofs have lengths that proofs can have, `Detachment.canHaveLength`. -/
theorem Consistent.canHaveLength (h : c.Consistent) (he : c.registry.get? key = some e) :
    Detachment.canHaveLength c.settings.necessitation.isEnabled (Proof.length e.proof) := by
  obtain ⟨t, -, hlength, -, hruns⟩ := h.exists_tree he
  rw [← hlength]
  exact ProofTree.canHaveLength_of_runsAllowed hruns

/-- A length that proofs cannot have (`canHaveLength`) has no representatives. -/
theorem Consistent.withLengths_eq_nil (h : c.Consistent)
    (hlength : Detachment.canHaveLength c.settings.necessitation.isEnabled length = false) :
    c.registry.withLengths [length] = [] := by
  refine List.eq_nil_iff_forall_not_mem.mpr fun ⟨key, e⟩ hmem => ?_
  obtain ⟨he, hmem⟩ := Registry.mem_withLengths.mp hmem
  have hcan := h.canHaveLength he
  rw [List.mem_singleton.mp hmem, hlength] at hcan
  cases hcan

/-- The table of a `Consistent` collection is `Proper`. Each of its entries is a tree with allowed
runs, by `Consistent.exists_tree`. -/
theorem Consistent.proper (h : c.Consistent) :
    c.table.Proper c.basis c.settings.necessitation c.knownLimit := by
  have htree : ∀ length, ∀ proof ∈ c.table.row length,
      ∃ t : ProofTree c.basis, t.text = proof ∧ t.length = length ∧
        c.settings.necessitation.RunsAllowed 0 t.symbols := by
    intro length proof hproof
    obtain ⟨key, e, he, rfl, rfl⟩ := (h.mem_row length proof).mp hproof
    obtain ⟨t, ht, hlength, -, hruns⟩ := h.exists_tree he
    exact ⟨t, ht, hlength, hruns⟩
  refine ⟨fun length _ => h.nodup length, fun length _ proof hproof => ?_,
    fun length _ proof hproof => ?_⟩
  · obtain ⟨t, ht, hlength, -⟩ := htree length proof hproof
    exact ⟨t, ht, hlength⟩
  · obtain ⟨t, rfl, -, hruns⟩ := htree length proof hproof
    rw [← NecessitationLimit.runsAllowed_zero_iff, ProofTree.toList_text]
    exact hruns

/-- The grammar has the limit of the collection. -/
@[simp] theorem grammar_necessitation (c : Collection) (maxLength : Nat) :
    (c.grammar maxLength).necessitation = c.settings.necessitation :=
  Grammar.prepare_necessitation ..

/-- The grammar knows the lengths of the collection. -/
@[simp] theorem grammar_knownLimit (c : Collection) (maxLength : Nat) :
    (c.grammar maxLength).knownLimit = c.knownLimit :=
  Grammar.prepare_knownLimit ..

/-- The grammar has the table of the collection. -/
@[simp] theorem grammar_table (c : Collection) (maxLength : Nat) :
    (c.grammar maxLength).table = c.table :=
  Grammar.prepare_table ..

/-- The grammar of a `Consistent` collection is `Prepared`. -/
theorem Consistent.prepared (h : c.Consistent) (hlongest : c.knownLimit ≤ Grammar.longestEntry)
    (maxLength : Nat) : (c.grammar maxLength).Prepared c.basis :=
  Grammar.prepared_prepare h.proper h.one_le hlongest maxLength

/-! ## Trying the candidates of a round -/

/-- Lengths beyond the known limit, the last of which is the largest. -/
structure Continues (c : Collection) (lengths : List Nat) (last : Nat) : Prop where
  /-- The last length ends the list. -/
  last_eq : lengths.getLastD 0 = last
  /-- There is a last length. -/
  last_mem : last ∈ lengths
  /-- All lengths lie between the known limit and the last length. -/
  bounds : ∀ length ∈ lengths, c.knownLimit < length ∧ length ≤ last
  /-- The last length is one that proofs can have. -/
  parity : canHaveLength c.settings.necessitation.isEnabled last

/-- The grammar for the last length is prepared for all lengths of the round (`maxLength`). -/
theorem Continues.prepared (h : c.Continues lengths last) :
    ∀ length ∈ lengths, length ≤ (c.grammar last).maxLength := by
  intro length hlength
  rw [grammar, Grammar.prepare_maxLength]
  exact Nat.le_trans (h.bounds length hlength).2 (Nat.le_max_left _ _)

/-- The candidates of a round are codes that the grammar `Builds`. -/
theorem exists_tree_of_mem_candidates (h : c.Consistent) {w : String}
    (hw : w ∈ lengths.flatMap (c.grammar last).found) :
    ∃ t : ProofTree c.basis,
      t.length ∈ lengths ∧ (c.grammar last).Builds 0 t ∧ t.text = w := by
  have hproper : (c.grammar last).table.Proper c.basis (c.grammar last).necessitation
      (c.grammar last).knownLimit := by
    rw [grammar_table, grammar_necessitation, grammar_knownLimit]
    exact h.proper
  obtain ⟨length, hlength, hw⟩ := List.mem_flatMap.mp hw
  obtain ⟨t, rfl, hbuilds, htext⟩ :=
    Grammar.exists_tree_of_mem_found (Grammar.wellPaired_prepare ..) hproper hw
  exact ⟨t, hlength, hbuilds, htext⟩

/-- What the grammar `Builds` for a round is a candidate. -/
theorem mem_candidates_of_builds (h : c.Consistent)
    (hlongest : c.knownLimit ≤ Grammar.longestEntry) (hlengths : c.Continues lengths last)
    {t : ProofTree c.basis} (hlength : t.length ∈ lengths)
    (hbuilds : (c.grammar last).Builds 0 t) :
    t.text ∈ lengths.flatMap (c.grammar last).found := by
  refine List.mem_flatMap.mpr ⟨t.length, hlength, ?_⟩
  exact (Grammar.mem_found_iff (h.prepared hlongest last) (hlengths.prepared _ hlength)).mpr
    ⟨t, rfl, hbuilds, rfl⟩

/-- A round offers its candidates to the registry, which `Absorbs` them. -/
theorem triedRegistry_absorbs (h : c.Consistent) (hlengths : c.Continues lengths last) :
    c.registry.Absorbs c.basis (lengths.flatMap (c.grammar last).found)
      (c.triedRegistry lengths) := by
  rw [triedRegistry, hlengths.last_eq, registry_tryCandidates h.sound hlengths.prepared]
  exact Registry.foldl_consider h.sound _

/-- An entry of `triedRegistry` that was not there before has a proof of one of the lengths of the
round. -/
theorem length_mem_or (h : c.Consistent) (hlengths : c.Continues lengths last)
    (he : (c.triedRegistry lengths).get? key = some e) :
    c.registry.get? key = some e ∨
      Proof.length e.proof ∈ lengths ∧
        c.settings.necessitation.RunsAllowed 0 e.proof.toList := by
  rcases (triedRegistry_absorbs h hlengths).origin key e he with hold | hnew
  · exact .inl hold
  · obtain ⟨t, hlength, hbuilds, htext⟩ := exists_tree_of_mem_candidates h hnew
    refine .inr ⟨by rwa [← htext, ProofTree.length_text], ?_⟩
    rw [← htext, ProofTree.toList_text]
    have hruns := hbuilds.1
    rwa [grammar_necessitation] at hruns

/-- Candidates are longer than all known proofs, so that no old entry changes in `triedRegistry`. -/
theorem get?_triedRegistry_of_get? (h : c.Consistent) (hlengths : c.Continues lengths last)
    (he : c.registry.get? key = some e) : (c.triedRegistry lengths).get? key = some e := by
  obtain ⟨e', he', hle⟩ := (triedRegistry_absorbs h hlengths).keeps key e he
  rcases length_mem_or h hlengths he' with hold | ⟨hlength, -⟩
  · rw [he', ← hold, he]
  · have hbeyond := (hlengths.bounds _ hlength).1
    have hshort := Proof.length_le_of_le hle
    have hknown := h.length_le key e he
    omega

/-- An entry of `triedRegistry` with a proof of a length before the round is an old one. -/
theorem get?_of_get?_triedRegistry (h : c.Consistent) (hlengths : c.Continues lengths last)
    (he : (c.triedRegistry lengths).get? key = some e)
    (hlength : Proof.length e.proof ∉ lengths) : c.registry.get? key = some e :=
  (length_mem_or h hlengths he).resolve_right fun hnew => hlength hnew.1

/-! ## Publishing -/

/-- The report of a round (`perLength`) has its lengths. -/
theorem lengths_round (c : Collection) (lengths : List Nat) :
    (c.round lengths).1.perLength.map (·.length) = lengths := by
  rw [round, finishRound, List.map_map]
  exact List.map_id lengths

/-- A round replaces the rows of its lengths by the proofs that are registered after it, in
order. -/
theorem row_round (c : Collection) (lengths : List Nat) (length : Nat) :
    (c.round lengths).2.table.row length =
      if length ∈ lengths then
        (proofsOf ((c.round lengths).2.registry.withLengths [length])).mergeSort Proof.le
      else c.table.row length :=
  Representatives.row_foldl_publish (fun _ _ => length_of_mem_proofsOf) c.table

/-- After a round everything up to its last length is known: `knownLimit` is `last`. -/
theorem knownLimit_round (h : c.Continues lengths last) :
    (c.round lengths).2.knownLimit = last := by
  refine Representatives.knownLimit_foldl_publish (fun _ _ => length_of_mem_proofsOf)
    (fun length hlength => (h.bounds length hlength).2) ?_ (.inl h.last_mem)
  have hbounds := h.bounds last h.last_mem
  exact Nat.le_of_lt hbounds.1

/-- An entry of another length is there after a round exactly if it was before. -/
theorem get?_round_of_not_mem (h : c.Consistent) (hlengths : c.Continues lengths last)
    (hlength : Proof.length e.proof ∉ lengths) :
    (c.round lengths).2.registry.get? key = some e ↔ c.registry.get? key = some e := by
  rw [get?_round]
  constructor
  · rintro ⟨he, -⟩
    exact get?_of_get?_triedRegistry h hlengths he hlength
  · intro he
    exact ⟨get?_triedRegistry_of_get? h hlengths he, fun hspec => hlength hspec.1⟩

/-- Every entry after a round has a proof of its conclusion (`Sound`). -/
theorem sound_round (h : c.Consistent) (hlengths : c.Continues lengths last) :
    (c.round lengths).2.registry.Sound c.basis :=
  fun key e he => (triedRegistry_absorbs h hlengths).sound key e (get?_round.mp he).1

/-- A round leaves the entries of all other lengths (`withLengths`) as they are. -/
theorem withLengths_round_of_not_mem (h : c.Consistent) (hlengths : c.Continues lengths last)
    {length : Nat} (hlength : length ∉ lengths) :
    (c.round lengths).2.registry.withLengths [length] = c.registry.withLengths [length] := by
  refine h.sound.eq_withLengths (Registry.nodup_withLengths _ _)
    (Registry.pairwise_withLengths _ _) ?_
  rintro ⟨key, e⟩
  rw [Registry.mem_withLengths, Registry.mem_withLengths, and_congr_left_iff, List.mem_singleton]
  rintro rfl
  exact get?_round_of_not_mem h hlengths hlength

/-- The step lemma for `Consistent`: a round that `Continues` the collection keeps it. An entry
afterwards was there before or has one of the new lengths (`length_mem_or`). -/
theorem Consistent.round (h : c.Consistent) (hlengths : c.Continues lengths last) :
    (c.round lengths).2.Consistent := by
  have hsound := sound_round h hlengths
  have hlast := hlengths.bounds last hlengths.last_mem
  have hone := h.one_le
  refine ⟨hsound, fun length => ?_, ?_, ?_, fun key e he => ?_, fun key e he => ?_⟩
  · rw [row_round]
    split
    · exact mergeSort_proofsOf _ _
    · next hlength => rw [h.row_eq, withLengths_round_of_not_mem h hlengths hlength]
  · rw [knownLimit_round hlengths]
    omega
  · rw [knownLimit_round hlengths]
    exact hlengths.parity
  · rw [knownLimit_round hlengths]
    rcases length_mem_or h hlengths (get?_round.mp he).1 with hold | ⟨hlength, -⟩
    · have := h.length_le key e hold
      omega
    · exact (hlengths.bounds _ hlength).2
  · rcases length_mem_or h hlengths (get?_round.mp he).1 with hold | ⟨-, hruns⟩
    · exact h.runs key e hold
    · exact hruns

/-- A round changes no entry that was there before it, as the filter only removes entries of its
lengths. -/
theorem get?_round_of_get? (h : c.Consistent) (hlengths : c.Continues lengths last)
    (he : c.registry.get? key = some e) : (c.round lengths).2.registry.get? key = some e := by
  refine (get?_round_of_not_mem h hlengths fun hmem => ?_).mpr he
  have hbeyond := (hlengths.bounds _ hmem).1
  have hknown := h.length_le key e he
  omega

/-! ## Pruned collections -/

/-- No entry beyond the axioms is `Redundant` where the filter applies (`appliesTo`). -/
def Pruned (c : Collection) : Prop :=
  ∀ key e, c.registry.get? key = some e → 1 < Proof.length e.proof →
    c.settings.filter.appliesTo (Proof.length e.proof) → ¬c.registry.Redundant key e

/-- The step lemma for `Pruned`: a round keeps it, since what the filter leaves is not redundant and
stays so. -/
theorem Pruned.round (hpruned : c.Pruned) (h : c.Consistent) (hlengths : c.Continues lengths last) :
    (c.round lengths).2.Pruned := by
  rintro key e he hlong happlies ⟨key', e', he', hne, hle, hgeneral⟩
  by_cases hlength : Proof.length e.proof ∈ lengths
  · -- A redundant entry of the round would have been removed.
    exact (get?_round.mp he).2
      ⟨hlength, happlies, key', e', (get?_round.mp he').1, hne, hle, hgeneral⟩
  · -- An old entry is only made redundant by an old entry, as the new ones have longer proofs.
    have hold := (get?_round_of_not_mem h hlengths hlength).mp he
    have hlength' : Proof.length e'.proof ∉ lengths := by
      intro hmem
      have := (hlengths.bounds _ hmem).1
      have := h.length_le key e hold
      omega
    have hold' := (get?_round_of_not_mem h hlengths hlength').mp he'
    exact hpruned key e hold hlong happlies ⟨key', e', hold', hne, hle, hgeneral⟩

/-! ## Complete collections -/

/-- Every proof up to the known limit is represented, and no representative but the axioms is
`Redundant`. -/
structure Complete (c : Collection) : Prop where
  /-- Each proof has a representative that is not longer and proves something more general. -/
  covers : ∀ (t : ProofTree c.basis) (f : Formula), t.conclude 0 = .ok f →
    c.settings.necessitation.RunsAllowed 0 t.symbols → t.length ≤ c.knownLimit →
    ∃ key e, c.registry.get? key = some e ∧ Proof.length e.proof ≤ t.length ∧
      e.conclusion.Generalizes f
  /-- No entry beyond the axioms is redundant. -/
  irredundant : ∀ key e, c.registry.get? key = some e → 1 < Proof.length e.proof →
    ¬c.registry.Redundant key e

/-- A proof up to the known limit has a representative: `Complete.covers`, for texts. -/
theorem Complete.exists_entry (hcomplete : c.Complete) {s : String} {f : Formula}
    (hs : Proof.conclusion c.basis s = .ok f)
    (hruns : c.settings.necessitation.RunsAllowed 0 s.toList)
    (hlength : Proof.length s ≤ c.knownLimit) :
    ∃ key e, c.registry.get? key = some e ∧ Proof.length e.proof ≤ Proof.length s ∧
      e.conclusion.Generalizes f := by
  obtain ⟨t, rfl⟩ := ProofTree.exists_tree_of_conclusion hs
  rw [ProofTree.conclusion_text] at hs
  rw [ProofTree.length_text] at hlength ⊢
  rw [ProofTree.toList_text] at hruns
  exact hcomplete.covers t f hs hruns hlength

/-- No shorter proof has the conclusion of a representative, which would be `Redundant`
otherwise. -/
theorem Complete.conclusion_ne (hcomplete : c.Complete) (h : c.Consistent)
    (he : c.registry.get? key = some e) {s : String}
    (hruns : c.settings.necessitation.RunsAllowed 0 s.toList)
    (hshort : Proof.length s < Proof.length e.proof) :
    Proof.conclusion c.basis s ≠ .ok e.conclusion := by
  intro hs
  have hknown := h.length_le key e he
  obtain ⟨key', e', he', hle, hgeneral⟩ := hcomplete.exists_entry hs hruns (by omega)
  have hne : key' ≠ key := by
    rintro rfl
    obtain rfl : e' = e := Option.some.inj (he'.symm.trans he)
    omega
  have hpos := ProofTree.length_pos_of_conclusion hs
  exact hcomplete.irredundant key e he (by omega) ⟨key', e', he', hne, by omega, hgeneral⟩

/-- The grammar of a complete collection represents the known proofs (`RepresentsKnown`), if these
may be replaced (`Flexible`). -/
theorem Complete.representsKnown {bound : Nat} (hcomplete : c.Complete) (h : c.Consistent)
    (hflexible : c.settings.necessitation.Flexible c.basis c.knownLimit bound) (maxLength : Nat) :
    (c.grammar maxLength).RepresentsKnown c.basis bound := by
  intro t f run hconclude hruns hlength hbound
  rw [grammar_necessitation] at hruns
  rw [grammar_knownLimit] at hlength
  have hzero := ((NecessitationLimit.runsAllowed_iff t.symbols).mp hruns).2
  obtain ⟨key, e, he, hle, hgeneral⟩ := hcomplete.covers t f hconclude hzero hlength
  obtain ⟨r, htext, hrlength, hrconclude, hrruns⟩ := h.exists_tree he
  refine ⟨r, e.conclusion, by omega, ⟨?_, fun part hpart => ?_⟩, hrconclude, hgeneral⟩
  · rw [grammar_necessitation]
    exact hflexible t r run hlength (by omega) hbound hruns hrruns
  · rw [grammar_knownLimit,
      ProofTree.maximalWithin_of_le (by omega), List.mem_singleton] at hpart
    rw [hpart, grammar_table, h.mem_row]
    exact ⟨key, e, he, htext.symm, ProofTree.length_text r⟩

/-- What a grammar `Builds` for a round is registered after the candidates were tried
(`triedRegistry`), be it as a candidate or because it was known. -/
theorem exists_entry_of_builds (h : c.Consistent) (hlongest : c.knownLimit ≤ Grammar.longestEntry)
    (hlengths : c.Continues lengths last)
    (hevery : ∀ length, c.knownLimit < length → length ≤ last →
      canHaveLength c.settings.necessitation.isEnabled length → length ∈ lengths)
    {r : ProofTree c.basis} {f : Formula} (hbuilds : (c.grammar last).Builds 0 r)
    (hconclude : r.conclude 0 = .ok f) (hlength : r.length ≤ last) :
    ∃ key e, (c.triedRegistry lengths).get? key = some e ∧
      Proof.length e.proof ≤ r.length ∧ e.conclusion = f := by
  have hread := ProofTree.conclusion_text r
  rw [hconclude] at hread
  by_cases hknown : r.length ≤ c.knownLimit
  · -- A known tree is its own largest known part, so that it is in the table.
    have hrow := hbuilds.2 r (by
      rw [grammar_knownLimit, ProofTree.maximalWithin_of_le hknown]
      exact List.mem_singleton_self r)
    rw [grammar_table, h.mem_row] at hrow
    obtain ⟨key, e, he, hproof, -⟩ := hrow
    have hconclusion := (h.sound key e he).2
    rw [hproof, hread] at hconclusion
    refine ⟨key, e, get?_triedRegistry_of_get? h hlengths he, ?_,
      (Except.ok.inj hconclusion).symm⟩
    rw [hproof, ProofTree.length_text]
  · -- A longer tree is a candidate of the round, since its length is not left out.
    have hparity := hbuilds.canHaveLength
    rw [grammar_necessitation] at hparity
    have hmem := hevery r.length (Nat.not_le.mp hknown) hlength hparity
    have hcandidate := mem_candidates_of_builds h hlongest hlengths hmem hbuilds
    have habsorbs := triedRegistry_absorbs h hlengths
    obtain ⟨e, he, hle⟩ := habsorbs.accepts r.text hcandidate f hread
    have hshort := Proof.length_le_of_le hle
    rw [ProofTree.length_text] at hshort
    exact ⟨f.polish, e, he, hshort, Formula.polish_inj (habsorbs.sound _ e he).1⟩

/-- The step lemma for `Complete`: a round over all lengths up to the last keeps it, if known proofs
may be replaced (`Flexible`). Each proof is `Represented` by what the grammar builds, and for an
entry that is removed one stays that stands for it (`exists_not_redundant`). -/
theorem Complete.round (hcomplete : c.Complete) (h : c.Consistent)
    (hlongest : c.knownLimit ≤ Grammar.longestEntry)
    (hflexible : c.settings.necessitation.Flexible c.basis c.knownLimit last)
    (hfilter : c.settings.filter = .always)
    (hlengths : c.Continues lengths last)
    (hevery : ∀ length, c.knownLimit < length → length ≤ last →
      canHaveLength c.settings.necessitation.isEnabled length → length ∈ lengths) :
    (c.round lengths).2.Complete := by
  have habsorbs := triedRegistry_absorbs h hlengths
  have happlies : ∀ length, c.settings.filter.appliesTo length := by
    rw [hfilter]
    exact fun _ => rfl
  have hpruned : c.Pruned := fun key e he hlong _ => hcomplete.irredundant key e he hlong
  refine ⟨fun t f hconclude hruns hlength => ?_, fun key e he hlong => ?_⟩
  · rw [knownLimit_round hlengths] at hlength
    have hrepresented : (c.grammar last).Represented c.basis 0 t.length f := by
      refine Grammar.represented_of_conclude ?_ (hcomplete.representsKnown h hflexible last)
        hconclude ?_ ?_
      · rw [grammar_knownLimit]
        exact h.one_le
      · rw [grammar_necessitation]
        exact hruns
      · rw [Nat.zero_add]
        exact hlength
    obtain ⟨r, f', hrlength, hbuilds, hrconclude, hgeneral⟩ := hrepresented
    obtain ⟨key, e, he, hle, rfl⟩ := exists_entry_of_builds h hlongest hlengths hevery hbuilds
      hrconclude (Nat.le_trans hrlength hlength)
    -- The entry may be removed, but then some other one stays in its place.
    obtain ⟨key', e', he', hfor, hstays⟩ := habsorbs.sound.exists_not_redundant he
    obtain ⟨hle', hgeneral'⟩ := Registry.standsFor_iff.mp hfor
    exact ⟨key', e', get?_round.mpr ⟨he', fun hspec => hstays hspec.2.2⟩,
      Nat.le_trans hle' (Nat.le_trans hle hrlength), hgeneral'.trans hgeneral⟩
  · exact hpruned.round h hlengths key e he hlong (happlies _)

end Detachment.Collection
