import Detachment.Proofs.Replacement
import Detachment.Proofs.Requests

/-! # Conclusions without reading

A candidate that puts necessitations before a registered proof is not read: its conclusion is put
together from the registered one. In every collection that rounds can lead to, this makes no
difference to what reading the candidate does.

* `Registry.Necessitates` says which candidates are not read, and `Necessitations.isSome_build_iff`
  that the index has a conclusion for these and for no others.
* `Collection.Trial.attempt_eq` says that an index that agrees with reading changes nothing.
* `Collection.conclusion?_build_of_leads` says this of the indexes of all collections. -/

namespace Detachment

variable {basis : Basis} {r : Registry} {knownLimit : Nat} {proof : String}

/-- A proof consists of necessitations, one at least, and a registered proof that does not start
with one and has at most the length `knownLimit`. -/
def Registry.Necessitates (r : Registry) (knownLimit : Nat) (proof : String) : Prop :=
  ∃ count key e, 0 < count ∧ r.get? key = some e ∧ Proof.length e.proof ≤ knownLimit ∧
    Proof.leadingNecessitations e.proof = 0 ∧
    proof.toList = List.replicate count Proof.necessitateSymbol ++ e.proof.toList

/-- Necessitations before a proof that does not start with one are all counted by
`leadingNecessitations`. -/
theorem Proof.leadingNecessitations_of_toList {rest : String} {count : Nat}
    (hrest : leadingNecessitations rest = 0)
    (h : proof.toList = List.replicate count necessitateSymbol ++ rest.toList) :
    leadingNecessitations proof = count := by
  rw [leadingNecessitations] at hrest ⊢
  have hrun : ∀ symbol ∈ List.replicate count necessitateSymbol,
      decide (symbol = necessitateSymbol) = true := by
    intro symbol hsymbol
    exact decide_eq_true (List.eq_of_mem_replicate hsymbol)
  rw [h, List.takeWhile_append_of_pos hrun, List.length_append, hrest, List.length_replicate,
    Nat.add_zero]

namespace Necessitations

/-- What was put in an index can be looked up, by induction on the `entries`. -/
theorem isSome_getElem?_foldl {entries : List Entry}
    {conclusions : Std.ExtTreeMap String Formula compare}
    (h : conclusions[proof]?.isSome ∨ ∃ e ∈ entries, e.proof = proof) :
    (entries.foldl (fun m e => m.insert e.proof e.conclusion) conclusions)[proof]?.isSome := by
  induction entries generalizing conclusions with
  | nil =>
    rcases h with hsome | ⟨e, he, -⟩
    · exact hsome
    · exact absurd he List.not_mem_nil
  | cons first entries ih =>
    rw [List.foldl_cons]
    refine ih ?_
    rw [Std.ExtTreeMap.getElem?_insert]
    split
    · exact .inl rfl
    · next hne =>
      rcases h with hsome | ⟨e, he, hproof⟩
      · exact .inl hsome
      · rcases List.mem_cons.mp he with rfl | he
        · exact absurd (Std.LawfulEqCmp.compare_eq_iff_eq.mpr hproof) hne
        · exact .inr ⟨e, he, hproof⟩

/-- An index (`build`) has the conclusions of the necessitations of all registered proofs up to its
length, and no others: those with `Necessitates`. -/
theorem isSome_build_iff :
    ((build r knownLimit).conclusion? proof).isSome ↔ r.Necessitates knownLimit proof := by
  rw [conclusion?]
  constructor
  · intro h
    split at h
    · cases h
    · next hcount =>
      rw [Option.isSome_map] at h
      -- What was looked up was put in for an entry of the registry.
      obtain ⟨f, hf⟩ := Option.isSome_iff_exists.mp h
      rcases exists_of_getElem?_foldl hf with hnone | ⟨e, he, hproof, -⟩
      · simp at hnone
      · obtain ⟨hlisted, hfits⟩ := List.mem_filter.mp he
        obtain ⟨⟨key, e'⟩, hentry, rfl⟩ := List.mem_map.mp hlisted
        rw [Bool.and_eq_true, decide_eq_true_eq, beq_iff_eq] at hfits
        refine ⟨Proof.leadingNecessitations proof, key, e', Nat.pos_of_ne_zero hcount,
          Registry.mem_toList.mp hentry, hfits.1, hfits.2, ?_⟩
        rw [hproof, String.toList_ofList]
        exact Proof.toList_eq_replicate_append proof
  · rintro ⟨count, key, e, hpos, he, hlength, hrest, htext⟩
    -- The rest does not start with a necessitation, so exactly `count` of them are dropped.
    have hcount := Proof.leadingNecessitations_of_toList hrest htext
    have hdrop : String.ofList (proof.toList.drop count) = e.proof := by
      rw [htext, List.drop_left' List.length_replicate, String.ofList_toList]
    rw [hcount, if_neg (Nat.ne_of_gt hpos), hdrop, Option.isSome_map]
    refine isSome_getElem?_foldl (.inr ⟨e, List.mem_filter.mpr ⟨?_, ?_⟩, rfl⟩)
    · exact List.mem_map.mpr ⟨(key, e), Registry.mem_toList.mpr he, rfl⟩
    · rw [Bool.and_eq_true, decide_eq_true_eq, beq_iff_eq]
      exact ⟨hlength, hrest⟩

/-- An index that `Agrees` with reading the proofs gives the conclusions of the proofs it knows. -/
theorem Agrees.conclusion?_eq_some_iff {known : Necessitations} (h : known.Agrees basis)
    {f : Formula} :
    known.conclusion? proof = some f ↔
      Proof.conclusion basis proof = .ok f ∧ (known.conclusion? proof).isSome := by
  constructor
  · intro hf
    exact ⟨h proof f hf, Option.isSome_iff_exists.mpr ⟨f, hf⟩⟩
  · rintro ⟨hread, hsome⟩
    obtain ⟨f', hf'⟩ := Option.isSome_iff_exists.mp hsome
    rw [hf', Except.ok.inj ((h proof f' hf').symm.trans hread)]

end Necessitations

namespace Collection

/-- Reading a candidate or looking its conclusion up does the same to a trial (`attempt`), if the
index `Agrees`. -/
theorem Trial.attempt_eq {known : Necessitations} (hknown : known.Agrees basis) (t : Trial)
    (proof : String) : t.attempt basis known proof = t.attempt basis .empty proof := by
  have hempty : Necessitations.empty.conclusion? proof = none := by
    simp [Necessitations.conclusion?, Necessitations.empty]
  rw [attempt, attempt, hempty]
  cases hshort : known.conclusion? proof with
  | none => rfl
  | some f => rw [hknown proof f hshort]

/-- In every collection that rounds lead to from the axioms (`Leads`), the index of the registered
proofs (`Necessitations.build`) gives the conclusions that reading gives, in canonical form, and
gives them exactly for the necessitations of the proofs it has (`Necessitates`). Trying a candidate
with the index leaves the same registry and the same counts as reading it. -/
theorem conclusion?_build_of_leads {settings : Settings} {rounds : List (List Nat)} {c : Collection}
    (hleads : (start basis settings).Leads rounds c) (knownLimit : Nat) (proof : String) :
    (∀ f, (Necessitations.build c.registry knownLimit).conclusion? proof = some f ↔
      Proof.conclusion basis proof = .ok f ∧ c.registry.Necessitates knownLimit proof) ∧
    (∀ f, (Necessitations.build c.registry knownLimit).conclusion? proof = some f →
      f.canonical = f) ∧
    ∀ t : Trial, t.attempt basis (Necessitations.build c.registry knownLimit) proof =
      t.attempt basis .empty proof := by
  have hsound := (hleads.consistent (consistent_start basis settings)).sound
  have hbasis : c.basis = basis := hleads.basis_eq
  rw [hbasis] at hsound
  have hagrees := Necessitations.agrees_build hsound knownLimit
  refine ⟨fun f => ?_, fun f hf => ?_, fun t => t.attempt_eq hagrees proof⟩
  · rw [hagrees.conclusion?_eq_some_iff, Necessitations.isSome_build_iff]
  · exact Proof.canonical_conclusion (hagrees proof f hf)

/-- After rounds of length two and three from the axiom `p → (q → p)`, the conclusion of `NND11` is
looked up. -/
theorem conclusion?_build_of_leads_weakening :
    ∃ basis c f, basis = Basis.ofFormulas [.implies (.var 0) (.implies (.var 1) (.var 0))] ∧
      (start basis ⟨.unbounded, .always, 1⟩).Leads [[2], [3]] c ∧
      (Necessitations.build c.registry 3).conclusion? "NND11" = some f ∧
      Proof.conclusion basis "NND11" = .ok f ∧ f.canonical = f ∧
      c.registry.Necessitates 3 "NND11" ∧
      ∀ t : Trial, t.attempt basis (Necessitations.build c.registry 3) "NND11" =
        t.attempt basis .empty "NND11" := by
  let basis := Basis.ofFormulas [.implies (.var 0) (.implies (.var 1) (.var 0))]
  have htwo : (start basis ⟨.unbounded, .always, 1⟩).validLengths [2] := by cbv
  have hthree : ((start basis ⟨.unbounded, .always, 1⟩).round [2]).2.validLengths [3] := by cbv
  have hleads := Leads.next htwo (.next hthree (.done _))
  have hsome : ((Necessitations.build (((start basis ⟨.unbounded, .always, 1⟩).round [2]).2.round
      [3]).2.registry 3).conclusion? "NND11").isSome := by cbv
  obtain ⟨f, hf⟩ := Option.isSome_iff_exists.mp hsome
  obtain ⟨hread, hcanonical, hattempt⟩ := conclusion?_build_of_leads hleads 3 "NND11"
  obtain ⟨hconclusion, hnecessitates⟩ := (hread f).mp hf
  exact ⟨basis, _, f, rfl, hleads, hf, hconclusion, hcanonical f hf, hnecessitates, hattempt⟩

end Collection

end Detachment
