import Detachment.Proofs.Replacement
import Detachment.Proofs.SchemaSearch
import Detachment.Proofs.Trials

/-! # Redundant conclusions

A conclusion is redundant if another one with a proof that is not longer is more general. Removing
all redundant conclusions at once loses nothing, because generality between conclusions with
different keys is a strict order.

* `Registry.Sound.exists_not_redundant` finds a conclusion that stays in place of a removed one.
* `Collection.mem_instances_iff` says that a collection removes exactly the redundant conclusions.
* `Collection.get?_round` says which entries are left after a round. -/

namespace Detachment

variable {basis : Basis}

namespace Registry

variable {r : Registry} {key : String} {e : Entry}

/-- Another conclusion with a proof that is not longer is more general (`Generalizes`). -/
def Redundant (r : Registry) (key : String) (e : Entry) : Prop :=
  ∃ key' e', r.get? key' = some e' ∧ key' ≠ key ∧
    Proof.length e'.proof ≤ Proof.length e.proof ∧ e'.conclusion.Generalizes e.conclusion

/-- Whether the entry `e'` could stand for `e`: its proof is not longer, and `isSchema` holds. -/
def standsFor (e' e : Entry) : Bool :=
  Proof.length e'.proof ≤ Proof.length e.proof && isSchema e'.conclusion e.conclusion

/-- Being a schema is being more general. -/
theorem standsFor_iff {e' e : Entry} :
    standsFor e' e ↔
      Proof.length e'.proof ≤ Proof.length e.proof ∧ e'.conclusion.Generalizes e.conclusion := by
  rw [standsFor, Bool.and_eq_true, decide_eq_true_eq, isSchema_iff]

/-- Every entry could stand for itself. -/
theorem standsFor_refl (e : Entry) : standsFor e e :=
  standsFor_iff.mpr ⟨Nat.le_refl _, .refl _⟩

/-- What could stand for a stand-in could stand for the entry. -/
theorem standsFor_trans {e₁ e₂ e₃ : Entry} (h₁₂ : standsFor e₁ e₂) (h₂₃ : standsFor e₂ e₃) :
    standsFor e₁ e₃ := by
  rw [standsFor_iff] at h₁₂ h₂₃ ⊢
  exact ⟨Nat.le_trans h₁₂.1 h₂₃.1, h₁₂.2.trans h₂₃.2⟩

/-- Entries with different keys cannot stand for each other (`standsFor`): their conclusions would
have the same canonical form. -/
theorem Sound.standsFor_antisymm (h : r.Sound basis) {key' : String} {e' : Entry}
    (he : r.get? key = some e) (he' : r.get? key' = some e') (hfor : standsFor e' e)
    (hfor' : standsFor e e') : key = key' := by
  obtain ⟨hkey, hconclusion⟩ := h key e he
  obtain ⟨hkey', hconclusion'⟩ := h key' e' he'
  have hsame := Proof.conclusion_antisymm hconclusion hconclusion' (standsFor_iff.mp hfor').2
    (standsFor_iff.mp hfor).2
  rw [← hkey, ← hkey', hsame]

/-- The number of entries that could stand for an entry (`standsFor`), itself included. -/
def standIns (r : Registry) (e : Entry) : Nat :=
  (r.toList.filter fun x => standsFor x.2 e).length

/-- What makes an entry redundant has fewer `standIns`: by transitivity all of them stand for the
entry, too, and the entry does not stand for what makes it redundant. -/
theorem Sound.standIns_lt (h : r.Sound basis) {key' : String} {e' : Entry}
    (he : r.get? key = some e) (he' : r.get? key' = some e') (hne : key' ≠ key)
    (hfor : standsFor e' e) : r.standIns e' < r.standIns e := by
  have hfilter : (r.toList.filter fun x => standsFor x.2 e') =
      (r.toList.filter fun x => standsFor x.2 e).filter fun x => standsFor x.2 e' := by
    rw [List.filter_filter]
    refine List.filter_congr fun x _ => ?_
    rw [Bool.eq_iff_iff, Bool.and_eq_true]
    exact ⟨fun hx => ⟨hx, standsFor_trans hx hfor⟩, fun hx => hx.1⟩
  rw [standIns, hfilter, standIns, List.length_filter_lt_length_iff_exists]
  -- The entry itself could stand for itself, but not for what makes it redundant.
  refine ⟨(key, e), List.mem_filter.mpr ⟨mem_toList.mpr he, standsFor_refl e⟩, fun hback => ?_⟩
  exact hne (h.standsFor_antisymm he he' hfor hback).symm

/-- For every entry there is one that `standsFor` it and is not redundant. The induction is on
`standIns`. -/
theorem Sound.exists_not_redundant (h : r.Sound basis) (he : r.get? key = some e) :
    ∃ key' e', r.get? key' = some e' ∧ standsFor e' e ∧ ¬r.Redundant key' e' := by
  -- Going from an entry to what makes it redundant ends, as fewer and fewer can stand for it.
  induction hcount : r.standIns e using Nat.strongRecOn generalizing key e with
  | _ count ih =>
    by_cases hredundant : r.Redundant key e
    · obtain ⟨key', e', he', hne, hlength, hgeneral⟩ := hredundant
      have hfor : standsFor e' e := standsFor_iff.mpr ⟨hlength, hgeneral⟩
      obtain ⟨key'', e'', he'', hfor', hstays⟩ :=
        ih _ (hcount ▸ h.standIns_lt he he' hne hfor) he' rfl
      exact ⟨key'', e'', he'', standsFor_trans hfor' hfor, hstays⟩
    · exact ⟨key, e, he, standsFor_refl e, hredundant⟩

end Registry

namespace Collection

variable {c : Collection} {lengths : List Nat} {key : String} {e : Entry}

/-- The registered conclusions are in the index `schemaIndex`, so a search in it finds out what is
`Redundant`. -/
theorem find?_schemaIndex_isSome :
    (c.schemaIndex.find? e.conclusion (Proof.length e.proof) key).isSome ↔
      c.registry.Redundant key e := by
  rw [schemaIndex, SchemaIndex.find?_isSome_iff (SchemaIndex.holds_buildParts _ _)]
  constructor
  · rintro ⟨x, hx, hkey, hlength, hgeneral⟩
    obtain ⟨⟨key', e'⟩, hentry, rfl⟩ := List.mem_map.mp hx
    exact ⟨key', e', Registry.mem_toList.mp hentry, hkey, hlength, hgeneral⟩
  · rintro ⟨key', e', he', hkey, hlength, hgeneral⟩
    exact ⟨⟨key', Proof.length e'.proof, e'.conclusion⟩,
      List.mem_map.mpr ⟨(key', e'), Registry.mem_toList.mpr he', rfl⟩, hkey, hlength, hgeneral⟩

/-- The entries that are removed (`instances`) are the `Redundant` ones of the given lengths. -/
theorem mem_instances_iff :
    (key, e) ∈ c.instances lengths ↔
      c.registry.get? key = some e ∧ Proof.length e.proof ∈ lengths ∧
        c.registry.Redundant key e := by
  rw [instances]
  split
  · next hempty =>
    rw [List.isEmpty_iff.mp hempty]
    simp
  · rw [List.mem_filter, Registry.mem_withLengths, find?_schemaIndex_isSome, and_assoc]

/-- The registry after all candidates of a round were tried (`tryCandidates`), and before the
filter. -/
def triedRegistry (c : Collection) (lengths : List Nat) : Registry :=
  (c.tryCandidates (c.grammar (lengths.getLastD 0)) lengths).registry

/-- The entries that a round removes again: the `instances` of its lengths where the filter
applies. -/
def removedIn (c : Collection) (lengths : List Nat) : List (String × Entry) :=
  ({ c with registry := c.triedRegistry lengths } : Collection).instances
    (lengths.filter c.settings.filter.appliesTo)

/-- A round removes the `Redundant` entries of its lengths where the filter applies
(`appliesTo`). -/
theorem mem_removedIn_iff :
    (key, e) ∈ c.removedIn lengths ↔
      (c.triedRegistry lengths).get? key = some e ∧
        (Proof.length e.proof ∈ lengths ∧ c.settings.filter.appliesTo (Proof.length e.proof)) ∧
        (c.triedRegistry lengths).Redundant key e := by
  rw [removedIn, mem_instances_iff, List.mem_filter]

/-- What is left after a round: `triedRegistry` without the keys of `removedIn`. -/
theorem registry_round (c : Collection) (lengths : List Nat) :
    (c.round lengths).2.registry =
      (c.triedRegistry lengths).eraseAll ((c.removedIn lengths).map (·.1)) := rfl

/-- After a round all entries of `triedRegistry` are left that are not filtered or not
`Redundant`. -/
theorem get?_round :
    (c.round lengths).2.registry.get? key = some e ↔
      (c.triedRegistry lengths).get? key = some e ∧
        ¬(Proof.length e.proof ∈ lengths ∧ c.settings.filter.appliesTo (Proof.length e.proof) ∧
          (c.triedRegistry lengths).Redundant key e) := by
  have hremoved : (c.triedRegistry lengths).get? key = some e →
      (key ∈ (c.removedIn lengths).map (·.1) ↔
        Proof.length e.proof ∈ lengths ∧ c.settings.filter.appliesTo (Proof.length e.proof) ∧
          (c.triedRegistry lengths).Redundant key e) := by
    intro he
    rw [List.mem_map, ← and_assoc]
    constructor
    · rintro ⟨⟨key', e'⟩, hentry, rfl⟩
      obtain ⟨he', hspec⟩ := mem_removedIn_iff.mp hentry
      obtain rfl : e = e' := Option.some.inj (he.symm.trans he')
      exact hspec
    · intro hspec
      exact ⟨(key, e), mem_removedIn_iff.mpr ⟨he, hspec⟩, rfl⟩
  rw [registry_round, Registry.get?_eraseAll]
  constructor
  · intro h
    split at h
    · cases h
    · next hkey => exact ⟨h, fun hspec => hkey ((hremoved h).mpr hspec)⟩
  · rintro ⟨he, hspec⟩
    rw [if_neg fun hkey => hspec ((hremoved he).mp hkey)]
    exact he

end Collection

end Detachment
