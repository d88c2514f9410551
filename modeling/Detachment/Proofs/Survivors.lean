import Detachment.Proofs.Requests

/-! # Survivors of the filter

The filter looks for redundant conclusions in the registry as it was before any of them was removed,
so that a conclusion may be removed because of another one that is removed with it. Still nothing is
lost: whatever is removed in any round is an instance of something that stays in all later rounds.

* `Collection.removedInAll` are the entries removed in some rounds.
* `Collection.Leads.pruned` says that rounds leave nothing redundant where the filter applies.
* `Collection.Leads.exists_survivor` finds what stays in place of a removed entry.
* `Collection.filter_removes_redundant` says both of all requests that succeed. -/

namespace Detachment.Collection

variable {basis : Basis} {settings : Settings} {c d : Collection} {lengths : List Nat}
  {last : Nat} {rounds : List (List Nat)} {key : String} {e : Entry}

/-- The entries that rounds in turn remove again (`removedIn`), each round in the collection that it
is run in. -/
def removedInAll (c : Collection) : List (List Nat) → List (String × Entry)
  | [] => []
  | lengths :: rest => c.removedIn lengths ++ (c.round lengths).2.removedInAll rest

/-- At first only axioms are registered, and `Pruned` asks nothing of these. -/
theorem pruned_start (basis : Basis) (settings : Settings) : (start basis settings).Pruned := by
  intro key e he hlong
  rw [length_of_start he] at hlong
  exact absurd hlong (Nat.lt_irrefl 1)

/-- The run lemma for `Pruned`: rounds keep it. -/
theorem Leads.pruned (hleads : c.Leads rounds d) (h : c.Consistent) (hpruned : c.Pruned) :
    d.Pruned :=
  (hleads.induction (fun _ _ _ h hcontinues hpruned => hpruned.round h hcontinues) h hpruned).2

/-- Rounds change no entry that was there before them (`get?_round_of_get?`). -/
theorem Leads.get?_of_get? (hleads : c.Leads rounds d) (h : c.Consistent)
    (he : c.registry.get? key = some e) : d.registry.get? key = some e :=
  (hleads.induction (P := fun d => d.registry.get? key = some e)
    (fun _ _ _ h hcontinues he => get?_round_of_get? h hcontinues he) h he).2

/-- Rounds add no entry of a length that was known before them, up to `knownLimit`. By
`Leads.induction`, with `get?_round_of_not_mem` for a round. -/
theorem Leads.get?_iff (hleads : c.Leads rounds d) (h : c.Consistent)
    (hlength : Proof.length e.proof ≤ c.knownLimit) :
    d.registry.get? key = some e ↔ c.registry.get? key = some e := by
  have hround : ∀ (x : Collection) lengths last, x.Consistent → x.Continues lengths last →
      c.knownLimit ≤ x.knownLimit ∧
        (x.registry.get? key = some e ↔ c.registry.get? key = some e) →
      c.knownLimit ≤ (x.round lengths).2.knownLimit ∧
        ((x.round lengths).2.registry.get? key = some e ↔ c.registry.get? key = some e) := by
    rintro x lengths last hx hcontinues ⟨hle, hiff⟩
    have hlast := (hcontinues.bounds last hcontinues.last_mem).1
    have hold : Proof.length e.proof ∉ lengths := by
      intro hmem
      have := (hcontinues.bounds _ hmem).1
      omega
    rw [knownLimit_round hcontinues, get?_round_of_not_mem hx hcontinues hold]
    exact ⟨by omega, hiff⟩
  exact (hleads.induction hround h ⟨Nat.le_refl _, Iff.rfl⟩).2.2

/-- What a round leaves is enough to tell which of the tried conclusions are `Redundant`: for
whatever makes one redundant and is removed itself, something stays that does the same. -/
theorem redundant_round_iff (h : c.Consistent) (hcontinues : c.Continues lengths last)
    (he : (c.triedRegistry lengths).get? key = some e) :
    (c.round lengths).2.registry.Redundant key e ↔ (c.triedRegistry lengths).Redundant key e := by
  constructor
  · rintro ⟨key', e', he', hspec⟩
    exact ⟨key', e', (get?_round.mp he').1, hspec⟩
  · intro hredundant
    have hsound := (triedRegistry_absorbs h hcontinues).sound
    obtain ⟨key', e', he', hfor, hstays⟩ := hsound.exists_not_redundant he
    obtain ⟨hle, hgeneral⟩ := Registry.standsFor_iff.mp hfor
    refine ⟨key', e', get?_round.mpr ⟨he', fun hspec => hstays hspec.2.2⟩, ?_, hle, hgeneral⟩
    -- What stays is not redundant, unlike the entry itself.
    rintro rfl
    obtain rfl : e' = e := Option.some.inj (he'.symm.trans he)
    exact hstays hredundant

/-- What any of some rounds removes (`removedInAll`) is an instance of something that is left after
all of them and `standsFor` it. -/
theorem Leads.exists_survivor (hleads : c.Leads rounds d) (h : c.Consistent)
    (hremoved : (key, e) ∈ c.removedInAll rounds) :
    ∃ key' e', d.registry.get? key' = some e' ∧ key' ≠ key ∧ Registry.standsFor e' e := by
  induction hleads with
  | done c => cases hremoved
  | next hvalid hrest ih =>
    obtain ⟨last, hcontinues⟩ := exists_continues h hvalid
    have hnext := h.round hcontinues
    rcases List.mem_append.mp hremoved with hfirst | hlater
    · -- The survivor of the first round is an old entry for the others.
      obtain ⟨he, -, hredundant⟩ := mem_removedIn_iff.mp hfirst
      obtain ⟨key', e', he', hne, hspec⟩ := (redundant_round_iff h hcontinues he).mpr hredundant
      exact ⟨key', e', hrest.get?_of_get? hnext he', hne, Registry.standsFor_iff.mpr hspec⟩
    · exact ih hnext hlater

/-- After requests that succeed, no registered conclusion beyond the axioms is an instance
(`isSchema`) of another one with a proof that is not longer, where the filter applies. Whatever was
removed in any of the rounds (`removedInAll`) is an instance of another conclusion that is
registered now and has a proof that is not longer. -/
theorem filter_removes_redundant {requests : List Request}
    (hok : (start basis settings).succeeds requests) :
    (∀ key e, ((start basis settings).serveAll requests).registry.get? key = some e →
      1 < Proof.length e.proof → settings.filter.appliesTo (Proof.length e.proof) →
      ∀ key' e', ((start basis settings).serveAll requests).registry.get? key' = some e' →
        key' ≠ key → Proof.length e'.proof ≤ Proof.length e.proof →
        isSchema e'.conclusion e.conclusion = false) ∧
    ∀ key e, (key, e) ∈ (start basis settings).removedInAll
        ((start basis settings).roundsOf requests) →
      ∃ key' e', ((start basis settings).serveAll requests).registry.get? key' = some e' ∧
        key' ≠ key ∧ Proof.length e'.proof ≤ Proof.length e.proof ∧
        isSchema e'.conclusion e.conclusion := by
  have hleads := leads_serveAll hok
  have h := consistent_start basis settings
  constructor
  · intro key e he hlong happlies key' e' he' hne hle
    rw [← show ((start basis settings).serveAll requests).settings = settings from
      hleads.settings_eq] at happlies
    have hstays := hleads.pruned h (pruned_start basis settings) key e he hlong happlies
    rw [Bool.eq_false_iff, Ne, isSchema_iff]
    exact fun hgeneral => hstays ⟨key', e', he', hne, hle, hgeneral⟩
  · intro key e hremoved
    obtain ⟨key', e', he', hne, hfor⟩ := hleads.exists_survivor h hremoved
    obtain ⟨hle, hgeneral⟩ := Registry.standsFor_iff.mp hfor
    exact ⟨key', e', he', hne, hle, isSchema_iff.mpr hgeneral⟩

/-- The axioms `p → (q → p)` and `p → (q → (q → q))`. -/
def weakenings : Basis :=
  .ofFormulas [.implies (.var 0) (.implies (.var 1) (.var 0)),
    .implies (.var 0) (.implies (.var 1) (.implies (.var 1) (.var 1)))]

/-- With two weakenings as axioms, `D21` proves an instance of the first one and is removed, while
`D11` stays, as nothing else is more general. -/
theorem filter_removes_redundant_weakenings :
    (start weakenings ⟨.disabled, .always, 1⟩).succeeds [.round [3] false] ∧
    (∃ key e key' e', (key, e) ∈ (start weakenings ⟨.disabled, .always, 1⟩).removedInAll
        ((start weakenings ⟨.disabled, .always, 1⟩).roundsOf [.round [3] false]) ∧
      e.proof = "D21" ∧
      ((start weakenings ⟨.disabled, .always, 1⟩).serveAll
        [.round [3] false]).registry.get? key' = some e' ∧ key' ≠ key ∧
      Proof.length e'.proof ≤ Proof.length e.proof ∧ isSchema e'.conclusion e.conclusion) ∧
    ∃ key e, ((start weakenings ⟨.disabled, .always, 1⟩).serveAll
        [.round [3] false]).registry.get? key = some e ∧ e.proof = "D11" ∧
      ∀ key' e', ((start weakenings ⟨.disabled, .always, 1⟩).serveAll
          [.round [3] false]).registry.get? key' = some e' → key' ≠ key →
        Proof.length e'.proof ≤ 3 → isSchema e'.conclusion e.conclusion = false := by
  have hvalid : (start weakenings ⟨.disabled, .always, 1⟩).validLengths [3] := by cbv
  have hserve : (start weakenings ⟨.disabled, .always, 1⟩).serve (.round [3] false) =
      (.ok [((start weakenings ⟨.disabled, .always, 1⟩).round [3]).1],
        ((start weakenings ⟨.disabled, .always, 1⟩).round [3]).2) := by
    rw [serve, collectRound_of_validLengths hvalid]
  have hok : (start weakenings ⟨.disabled, .always, 1⟩).succeeds [.round [3] false] := by
    rw [succeeds, hserve]
    rfl
  have hremoved : ((start weakenings ⟨.disabled, .always, 1⟩).removedIn [3]).map (·.2.proof) =
      ["D21"] := by cbv
  have hrow : ((start weakenings ⟨.disabled, .always, 1⟩).round [3]).2.table.row 3 =
      ["D11", "D12"] := by cbv
  have hspec := filter_removes_redundant hok
  have h := (leads_serveAll hok).consistent (consistent_start _ _)
  refine ⟨hok, ?_, ?_⟩
  · obtain ⟨⟨key, e⟩, hentry, hproof⟩ := List.mem_map.mp (hremoved ▸ List.mem_singleton_self "D21")
    obtain ⟨key', e', hsurvivor⟩ := hspec.2 key e (List.mem_append_left _ hentry)
    exact ⟨key, e, key', e', List.mem_append_left _ hentry, hproof, hsurvivor⟩
  · have hmem : "D11" ∈ ((start weakenings ⟨.disabled, .always, 1⟩).serveAll
        [.round [3] false]).table.row 3 := by
      rw [serveAll, List.foldl_cons, hserve, List.foldl_nil, hrow]
      exact List.mem_cons_self
    obtain ⟨key, e, he, hproof, hlength⟩ := (h.mem_row 3 "D11").mp hmem
    rw [← hproof] at hlength
    refine ⟨key, e, he, hproof, fun key' e' he' hne hle => ?_⟩
    exact hspec.1 key e he (by omega) rfl key' e' he' hne (hlength ▸ hle)

end Detachment.Collection
