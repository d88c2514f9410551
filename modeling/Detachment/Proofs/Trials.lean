import Detachment.Collection.Basic
import Detachment.Proofs.Conclusion
import Detachment.Proofs.RegistryContents
import Detachment.Proofs.Search

/-! # Trying candidates

Conclusions of candidates are read off an index where that is possible. This gives the conclusions
that reading the candidates gives, so that a trial offers every candidate with its own conclusion.

* `Necessitations.agrees_build` says that the index agrees with reading the candidates.
* `Collection.tryInTurn` tries candidates in any order; `Collection.tryCandidates_eq` says which one
  a round has, and `Collection.registry_tryCandidates` what this does to the registry. -/

namespace Detachment

variable {basis : Basis}

/-! ## Necessitations of a tree -/

/-- Necessitations before a code put its conclusion under as many necessities,
`Necessitations.under count`. -/
theorem ProofTree.exists_under {t : ProofTree basis} {f : Formula} (h : t.conclude 0 = .ok f)
    (count : Nat) :
    ∃ u : ProofTree basis,
      u.symbols = List.replicate count Proof.necessitateSymbol ++ t.symbols ∧
        u.conclude 0 = .ok (Necessitations.under count f) := by
  induction count with
  | zero => exact ⟨t, rfl, h⟩
  | succ count ih =>
    obtain ⟨u, hsymbols, hconclude⟩ := ih
    refine ⟨.necessitate u, ?_, ?_⟩
    · rw [ProofTree.symbols, hsymbols, List.replicate_succ, List.cons_append]
    · exact ProofTree.conclude_necessitate_eq_ok.mpr
        ⟨_, ProofTree.conclude_position hconclude _, rfl⟩

/-- A proof is its leading necessitations, `leadingNecessitations` of them, and the rest. -/
theorem Proof.toList_eq_replicate_append (proof : String) :
    proof.toList = List.replicate (Proof.leadingNecessitations proof) Proof.necessitateSymbol ++
      proof.toList.drop (Proof.leadingNecessitations proof) := by
  have hrun : proof.toList.takeWhile (· = Proof.necessitateSymbol) =
      List.replicate (Proof.leadingNecessitations proof) Proof.necessitateSymbol := by
    refine List.eq_replicate_iff.mpr ⟨rfl, fun symbol hsymbol => ?_⟩
    simpa using List.all_eq_true.mp List.all_takeWhile symbol hsymbol
  have htake : proof.toList.take (Proof.leadingNecessitations proof) =
      proof.toList.takeWhile (· = Proof.necessitateSymbol) :=
    List.prefix_iff_eq_take.mp (List.takeWhile_prefix _) |>.symm
  rw [← hrun, ← htake, List.take_append_drop]

namespace Necessitations

/-- The index gives the conclusions that reading the proofs gives: where `conclusion?` succeeds, so
does `Proof.conclusion`, with the same formula. -/
def Agrees (basis : Basis) (n : Necessitations) : Prop :=
  ∀ proof f, n.conclusion? proof = some f → Proof.conclusion basis proof = .ok f

/-- The empty index gives no conclusions, so it `Agrees` with reading. -/
theorem agrees_empty (basis : Basis) : empty.Agrees basis := by
  intro proof f h
  simp [conclusion?, empty] at h

/-- What is looked up was put there, by induction on the `entries`. -/
theorem exists_of_getElem?_foldl {entries : List Entry}
    {conclusions : Std.ExtTreeMap String Formula compare} {proof : String} {f : Formula}
    (h : (entries.foldl (fun m e => m.insert e.proof e.conclusion) conclusions)[proof]? = some f) :
    conclusions[proof]? = some f ∨ ∃ e ∈ entries, e.proof = proof ∧ e.conclusion = f := by
  induction entries generalizing conclusions with
  | nil => exact .inl h
  | cons e entries ih =>
    rw [List.foldl_cons] at h
    rcases ih h with hinsert | ⟨e', he', hspec⟩
    · rw [Std.ExtTreeMap.getElem?_insert] at hinsert
      split at hinsert
      · next heq =>
        refine .inr ⟨e, List.mem_cons_self, Std.LawfulEqCmp.compare_eq_iff_eq.mp heq, ?_⟩
        exact Option.some.inj hinsert
      · exact .inl hinsert
    · exact .inr ⟨e', List.mem_cons_of_mem _ he', hspec⟩

/-- The index `build` of a `Sound` registry `Agrees` with reading the proofs, by `exists_under`.
What the index holds is the conclusion of an entry, put under the necessitations before it. -/
theorem agrees_build {r : Registry} (h : r.Sound basis) (knownLimit : Nat) :
    (build r knownLimit).Agrees basis := by
  intro proof f hf
  rw [conclusion?] at hf
  split at hf
  · cases hf
  · -- The index holds the part of the proof that stands after the leading necessitations.
    obtain ⟨g, hg, rfl⟩ := Option.map_eq_some_iff.mp hf
    rcases exists_of_getElem?_foldl hg with hnone | ⟨e, he, hproof, rfl⟩
    · simp at hnone
    · obtain ⟨⟨key, e'⟩, hentry, rfl⟩ := List.mem_map.mp (List.mem_filter.mp he).1
      have hconclusion := (h key e' (Registry.mem_toList.mp hentry)).2
      obtain ⟨t, ht⟩ := ProofTree.exists_tree_of_conclusion hconclusion
      rw [← ht, ProofTree.conclusion_text] at hconclusion
      obtain ⟨u, hsymbols, hconclude⟩ :=
        ProofTree.exists_under hconclusion (Proof.leadingNecessitations proof)
      have htext : u.text = proof := by
        rw [← String.toList_inj, ProofTree.toList_text, hsymbols,
          Proof.toList_eq_replicate_append proof, ← ProofTree.toList_text, ht, hproof,
          String.toList_ofList]
      have hread := ProofTree.conclusion_text u
      rw [htext, hconclude] at hread
      exact hread

end Necessitations

namespace Collection

/-- A trial offers a candidate with its own conclusion: `attempt` does to the registry what
`Registry.consider` does. -/
theorem Trial.registry_attempt {known : Necessitations} (hknown : known.Agrees basis) (t : Trial)
    (proof : String) :
    (t.attempt basis known proof).registry = t.registry.consider basis proof := by
  have hregister : ∀ (t : Trial) (c : Formula),
      (t.register proof c).registry = (t.registry.insert c.polish proof c).2 := by
    intro t c
    rw [register]
    rcases t.registry.insert c.polish proof c with ⟨_ | _ | _, registry⟩ <;> rfl
  rw [attempt, Registry.consider]
  cases hshort : known.conclusion? proof with
  | some c => rw [hregister, hknown proof c hshort]
  | none =>
    cases Proof.conclusion basis proof with
    | ok c => exact hregister _ c
    | error fault => rfl

/-- A trial offers all candidates in turn (`Registry.consider`). -/
theorem Trial.registry_foldl_attempt {known : Necessitations} (hknown : known.Agrees basis)
    (t : Trial) (proofs : List String) :
    (proofs.foldl (Trial.attempt basis known) t).registry =
      proofs.foldl (Registry.consider basis) t.registry := by
  induction proofs generalizing t with
  | nil => rfl
  | cons proof proofs ih => rw [List.foldl_cons, List.foldl_cons, ih, registry_attempt hknown]

variable {c : Collection} {g : Grammar} {lengths : List Nat}

/-- The index `necessitations` that a round starts with `Agrees` with reading the candidates. -/
theorem agrees_necessitations (hsound : c.registry.Sound c.basis) : c.necessitations.Agrees c.basis := by
  rw [necessitations]
  split
  · exact Necessitations.agrees_build hsound _
  · exact Necessitations.agrees_empty _

/-- Try candidates in a given `order`, beginning with what is registered before the round. -/
def tryInTurn (c : Collection) (order : List String) : Trial :=
  order.foldl (Trial.attempt c.basis c.necessitations) (.start c.registry)

/-- Trying the candidates of prepared lengths (`tryCandidates`) tries them in the order in which the
grammar finds them, shortest ones first. -/
theorem tryCandidates_eq (hprepared : ∀ length ∈ lengths, length ≤ g.maxLength) :
    c.tryCandidates g lengths = c.tryInTurn (lengths.flatMap g.found) := by
  rw [tryCandidates, Grammar.generate_eq g _ _ hprepared]
  rfl

/-- Trying candidates in turn offers each of them to the registry, which considers them in this
order. -/
theorem registry_tryInTurn (hsound : c.registry.Sound c.basis) (order : List String) :
    (c.tryInTurn order).registry = order.foldl (Registry.consider c.basis) c.registry :=
  Trial.registry_foldl_attempt (agrees_necessitations hsound) _ _

/-- Trying the candidates of prepared lengths (`tryCandidates`) offers each of them to the
registry. -/
theorem registry_tryCandidates (hsound : c.registry.Sound c.basis)
    (hprepared : ∀ length ∈ lengths, length ≤ g.maxLength) :
    (c.tryCandidates g lengths).registry =
      (lengths.flatMap g.found).foldl (Registry.consider c.basis) c.registry := by
  rw [tryCandidates_eq hprepared, registry_tryInTurn hsound]

end Collection

end Detachment
