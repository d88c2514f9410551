import Detachment.Proofs.Enumeration

/-! # Comparing the strategies

Collecting length by length builds on representatives only, while collecting all lengths at once
builds on the axioms. Complete collections at the same target have the same conclusions at every
length, because what one of them keeps the other one can neither miss nor remove.

* `Collection.conclusionKeys` are the keys of the conclusions whose best proofs have some length.
* `Collection.Underway.conclusionKeys_eq` compares two complete collections.
* `Collection.strategies_agree` says that both strategies collect the same conclusions, if
  necessitations are allowed in any number or not at all.
* `Collection.strategies_agree_within_budget` says what is left of this under a budget: collecting
  all lengths at once misses nothing, and collecting them one by one misses nothing as long as the
  budget cannot be used up.
* `Collection.not_strategies_agree_of_budget` is a case in which it does miss a conclusion. -/

namespace Detachment.Collection

variable {basis : Basis} {settings : Settings} {c d : Collection} {target length : Nat}
  {key : String} {e : Entry}

/-- The keys of the conclusions that have a representative of a length, which do not depend on the
proofs that represent them. -/
def conclusionKeys (c : Collection) (length : Nat) : Set String :=
  {key | ∃ representative ∈ c.representatives length, representative.2.key = key}

/-- Conclusions of a `Consistent` collection are registered under their keys. -/
theorem Consistent.key_eq (h : c.Consistent) (he : c.registry.get? key = some e) :
    e.conclusion.key = key := by
  obtain ⟨hkey, hconclusion⟩ := h.sound key e he
  rw [Formula.key, Proof.canonical_conclusion hconclusion, hkey]

/-- The `conclusionKeys` of a length are those of the registered proofs of this length. -/
theorem Consistent.mem_conclusionKeys (h : c.Consistent) :
    key ∈ c.conclusionKeys length ↔
      ∃ e, c.registry.get? key = some e ∧ Proof.length e.proof = length := by
  simp only [conclusionKeys, representatives, Set.mem_ofPred_eq, List.mem_map, Prod.exists,
    Registry.mem_withLengths, List.mem_singleton]
  constructor
  · rintro ⟨proof, conclusion, ⟨key', e, ⟨he, hlength⟩, hpair⟩, hkey⟩
    obtain ⟨rfl, rfl⟩ := Prod.mk.inj hpair
    have hsame : key' = key := by rw [← hkey, h.key_eq he]
    exact ⟨e, hsame ▸ he, hlength⟩
  · rintro ⟨e, he, hlength⟩
    exact ⟨e.proof, e.conclusion, ⟨key, e, ⟨he, hlength⟩, rfl⟩, h.key_eq he⟩

/-! ## Two collections at the same target -/

/-- Without rounds ahead, nothing that proofs can have as a length is missing up to the target, so
one collection knows no more lengths than another. -/
theorem OnCourse.knownLimit_le (hc : OnCourse basis settings target c [])
    (hd : OnCourse basis settings target d []) : c.knownLimit ≤ d.knownLimit := by
  by_contra hlt
  have hle := hc.le_target
  have hone := hd.consistent.one_le
  have hparity := hc.consistent.parity
  rw [hc.settings_eq, ← hd.settings_eq] at hparity
  have hmem := (hd.plan.mem_iff c.knownLimit).mpr ⟨by omega, by omega, hparity⟩
  exact absurd hmem List.not_mem_nil

/-- At the same target, the same lengths are known: `knownLimit` agrees. -/
theorem OnCourse.knownLimit_eq (hc : OnCourse basis settings target c [])
    (hd : OnCourse basis settings target d []) : c.knownLimit = d.knownLimit :=
  Nat.le_antisymm (hc.knownLimit_le hd) (hd.knownLimit_le hc)

/-- What one collection has registered is an instance of what a complete one has: some entry
`standsFor` it. -/
theorem Underway.exists_standsFor (hc : OnCourse basis settings target c [])
    (hd : Underway basis settings target d []) (he : c.registry.get? key = some e) :
    ∃ key' e', d.registry.get? key' = some e' ∧ Registry.standsFor e' e := by
  have hconclusion := (hc.consistent.sound key e he).2
  have hruns := hc.consistent.runs key e he
  have hlength := hc.consistent.length_le key e he
  rw [hc.basis_eq, ← hd.basis_eq] at hconclusion
  rw [hc.settings_eq, ← hd.settings_eq] at hruns
  rw [hc.knownLimit_eq hd.toOnCourse] at hlength
  obtain ⟨key', e', he', hle, hgeneral⟩ := hd.complete.exists_entry hconclusion hruns hlength
  exact ⟨key', e', he', Registry.standsFor_iff.mpr ⟨hle, hgeneral⟩⟩

/-- Complete collections at the same target keep the same conclusions beyond the axioms, with proofs
of the same length. What stands for an entry in the other collection has something that stands for
it in the first one, which can only be the entry itself, as it is not redundant. -/
theorem Underway.exists_same (hc : Underway basis settings target c [])
    (hd : Underway basis settings target d []) (he : c.registry.get? key = some e)
    (hlong : 1 < Proof.length e.proof) :
    ∃ e', d.registry.get? key = some e' ∧ Proof.length e'.proof = Proof.length e.proof := by
  -- What stands for the entry in `d` has something that stands for it in `c`, in turn.
  obtain ⟨key₁, e₁, he₁, hfor₁⟩ := hd.exists_standsFor hc.toOnCourse he
  obtain ⟨key₂, e₂, he₂, hfor₂⟩ := hc.exists_standsFor hd.toOnCourse he₁
  have hfor := Registry.standsFor_iff.mp (Registry.standsFor_trans hfor₂ hfor₁)
  -- That is the entry itself, because nothing else may stand for it.
  have hkey : key₂ = key := by
    by_contra hne
    exact hc.complete.irredundant key e he hlong ⟨key₂, e₂, he₂, hne, hfor⟩
  subst hkey
  obtain rfl : e₂ = e := Option.some.inj (he₂.symm.trans he)
  obtain ⟨hle₁, hgeneral₁⟩ := Registry.standsFor_iff.mp hfor₁
  obtain ⟨hle₂, hgeneral₂⟩ := Registry.standsFor_iff.mp hfor₂
  -- So the two conclusions are as general as each other.
  have hconclusion := (hc.consistent.sound key₂ e₂ he).2
  obtain ⟨hkey₁, hconclusion₁⟩ := hd.consistent.sound key₁ e₁ he₁
  rw [hc.basis_eq] at hconclusion
  rw [hd.basis_eq] at hconclusion₁
  have hsame := Proof.conclusion_antisymm hconclusion hconclusion₁ hgeneral₂ hgeneral₁
  have hkeys : key₁ = key₂ := by
    rw [← hkey₁, ← hsame, (hc.consistent.sound key₂ e₂ he).1]
  exact ⟨e₁, hkeys ▸ he₁, Nat.le_antisymm hle₁ hle₂⟩

/-- Complete collections at the same target have the same `conclusionKeys` at every length. Beyond
the axioms this is `exists_same`, in both directions. -/
theorem Underway.conclusionKeys_eq (hc : Underway basis settings target c [])
    (hd : Underway basis settings target d []) (length : Nat) :
    c.conclusionKeys length = d.conclusionKeys length := by
  have hsubset : ∀ {c d : Collection}, Underway basis settings target c [] →
      Underway basis settings target d [] → c.conclusionKeys length ⊆ d.conclusionKeys length := by
    intro c d hc hd key hkey
    obtain ⟨e, he, hlength⟩ := hc.consistent.mem_conclusionKeys.mp hkey
    rw [hd.consistent.mem_conclusionKeys]
    by_cases hlong : 1 < Proof.length e.proof
    · obtain ⟨e', he', hlength'⟩ := hc.exists_same hd he hlong
      exact ⟨e', he', hlength'.trans hlength⟩
    · -- The axioms are registered from the start and never removed.
      have hpos : 0 < Proof.length e.proof := by
        obtain ⟨t, -, ht, -⟩ := hc.consistent.exists_tree he
        rw [← ht]
        exact t.length_pos
      have hone : Proof.length e.proof = 1 := by omega
      exact ⟨e, (hd.axioms_iff key e hone).mpr ((hc.axioms_iff key e hone).mp he), hlength⟩
  exact Set.Subset.antisymm (hsubset hc hd) (hsubset hd hc)

/-! ## Both strategies -/

section collectUpTo

variable {β γ : Type} {observe : β → Collection → RoundReport → Except Error Unit × β}
  {observe' : γ → Collection → RoundReport → Except Error Unit × γ} {cancelled cancelled' : Bool}
  {state : β} {state' : γ} {reports reports' : List RoundReport}

/-- When all lengths are collected at once (`.combined`), only axioms are replaced (`flexible_one`),
so that the collection is complete whatever the limit. -/
theorem underway_combined (hfilter : settings.filter = .always)
    (htarget : target ≤ Grammar.longestEntry)
    (hok : ((start basis settings).collectUpTo target .combined cancelled observe state).outcome =
      .ok reports) :
    Underway basis settings target
      ((start basis settings).collectUpTo target .combined cancelled observe state).collection
      [] := by
  have hstart := underway_start basis settings .combined target
  rw [collectUpTo] at hok ⊢
  by_cases hempty : (start basis settings).nextLengths target = []
  · rw [hempty] at hstart ⊢
    exact hstart
  · have hrounds : Strategy.combined.rounds ((start basis settings).nextLengths target) =
        [(start basis settings).nextLengths target] :=
      if_neg fun h => hempty (List.isEmpty_iff.mp h)
    rw [hrounds] at hstart hok ⊢
    obtain ⟨-, state', -, hrest⟩ := runRounds_cons_of_ok hok
    rw [hrest]
    -- The only round starts with the axioms.
    refine hstart.round hfilter htarget ?_
    rw [knownLimit_start]
    exact NecessitationLimit.flexible_one

/-- Collecting length by length (`.stepwise`) and collecting all lengths at once (`.combined`) lead
to the same known limit and, at every length, to the same conclusions (`conclusionKeys`).
Necessitations have to be allowed in any number or not at all. -/
theorem strategies_agree
    (hlimit : settings.necessitation = .disabled ∨ settings.necessitation = .bounded 0 ∨
      settings.necessitation = .unbounded)
    (hfilter : settings.filter = .always) (htarget : target ≤ Grammar.longestEntry)
    (hok : ((start basis settings).collectUpTo target .stepwise cancelled observe state).outcome =
      .ok reports)
    (hok' : ((start basis settings).collectUpTo target .combined cancelled' observe'
      state').outcome = .ok reports') :
    ((start basis settings).collectUpTo target .stepwise cancelled observe
        state).collection.knownLimit =
      ((start basis settings).collectUpTo target .combined cancelled' observe'
        state').collection.knownLimit ∧
    ∀ length,
      ((start basis settings).collectUpTo target .stepwise cancelled observe
        state).collection.conclusionKeys length =
      ((start basis settings).collectUpTo target .combined cancelled' observe'
        state').collection.conclusionKeys length := by
  have hstepwise := underway_collectUpTo hlimit hfilter htarget hok
  have hcombined := underway_collectUpTo hlimit hfilter htarget hok'
  exact ⟨hstepwise.knownLimit_eq hcombined.toOnCourse, hstepwise.conclusionKeys_eq hcombined⟩

/-- The strategies agree on the standard system with any number of necessitations, up to length
nine. -/
theorem strategies_agree_standard :
    ∃ reports reports',
      ((start .standard ⟨.unbounded, .always, 2⟩).collectUpTo 9 .stepwise false
        (fun (_ : Unit) _ _ => (.ok (), ())) ()).outcome = .ok reports ∧
      ((start .standard ⟨.unbounded, .always, 2⟩).collectUpTo 9 .combined false
        (fun (_ : Unit) _ _ => (.ok (), ())) ()).outcome = .ok reports' ∧
      ((start .standard ⟨.unbounded, .always, 2⟩).collectUpTo 9 .stepwise false
          (fun (_ : Unit) _ _ => (.ok (), ())) ()).collection.knownLimit =
        ((start .standard ⟨.unbounded, .always, 2⟩).collectUpTo 9 .combined false
          (fun (_ : Unit) _ _ => (.ok (), ())) ()).collection.knownLimit ∧
      ∀ length,
        ((start .standard ⟨.unbounded, .always, 2⟩).collectUpTo 9 .stepwise false
          (fun (_ : Unit) _ _ => (.ok (), ())) ()).collection.conclusionKeys length =
        ((start .standard ⟨.unbounded, .always, 2⟩).collectUpTo 9 .combined false
          (fun (_ : Unit) _ _ => (.ok (), ())) ()).collection.conclusionKeys length := by
  have houtcome := fun strategy => exists_outcome_collectUpTo .standard ⟨.unbounded, .always, 2⟩
    strategy 9 (fun (_ : Unit) _ _ => (.ok (), ())) (fun _ _ _ => rfl) ()
  obtain ⟨reports, hok⟩ := houtcome .stepwise
  obtain ⟨reports', hok'⟩ := houtcome .combined
  exact ⟨reports, reports', hok, hok',
    strategies_agree (.inr (.inr rfl)) rfl (by decide) hok hok'⟩

/-- Under a budget for consecutive necessitations (`.bounded most`), both strategies lead to the
same known limit, and whatever is collected length by length is an instance (`isSchema`) of
something that is collected all at once with a proof that is not longer. The strategies collect the
same conclusions if no proof up to the target is long enough to use up the budget. -/
theorem strategies_agree_within_budget {most : Nat}
    (hlimit : settings.necessitation = .bounded most) (hfilter : settings.filter = .always)
    (htarget : target ≤ Grammar.longestEntry)
    (hok : ((start basis settings).collectUpTo target .stepwise cancelled observe state).outcome =
      .ok reports)
    (hok' : ((start basis settings).collectUpTo target .combined cancelled' observe'
      state').outcome = .ok reports') :
    ((start basis settings).collectUpTo target .stepwise cancelled observe
        state).collection.knownLimit =
      ((start basis settings).collectUpTo target .combined cancelled' observe'
        state').collection.knownLimit ∧
    (∀ key e, ((start basis settings).collectUpTo target .stepwise cancelled observe
        state).collection.registry.get? key = some e →
      ∃ key' e', ((start basis settings).collectUpTo target .combined cancelled' observe'
          state').collection.registry.get? key' = some e' ∧
        Proof.length e'.proof ≤ Proof.length e.proof ∧ isSchema e'.conclusion e.conclusion) ∧
    (target ≤ most + 1 → ∀ length,
      ((start basis settings).collectUpTo target .stepwise cancelled observe
        state).collection.conclusionKeys length =
      ((start basis settings).collectUpTo target .combined cancelled' observe'
        state').collection.conclusionKeys length) := by
  have hstepwise := onCourse_collectUpTo hok
  have hcombined := underway_combined hfilter htarget hok'
  refine ⟨hstepwise.knownLimit_eq hcombined.toOnCourse, fun key e he => ?_, fun hshort => ?_⟩
  · obtain ⟨key', e', he', hfor⟩ := hcombined.exists_standsFor hstepwise he
    obtain ⟨hle, hgeneral⟩ := Registry.standsFor_iff.mp hfor
    exact ⟨key', e', he', hle, isSchema_iff.mpr hgeneral⟩
  · have hflexible : ∀ known, settings.necessitation.Flexible basis known target := by
      intro known
      rw [hlimit]
      exact NecessitationLimit.flexible_of_le hshort
    exact (underway_of_flexible hfilter htarget hflexible hok).conclusionKeys_eq hcombined

/-- Collect the axioms `p → p` and `p → □(q → q)` up to length four, with a budget of consecutive
necessitations. -/
def boxedIdentityUpToFour (most : Nat) (strategy : Strategy) : Progress Unit :=
  (start (.ofFormulas [.implies (.var 0) (.var 0),
    .implies (.var 0) (.necessarily (.implies (.var 1) (.var 1)))])
    ⟨.bounded most, .always, 1⟩).collectUpTo 4 strategy false (fun _ _ _ => (.ok (), ())) ()

/-- Nothing keeps the axioms `p → p` and `p → □(q → q)` from being collected. -/
theorem exists_outcome_boxedIdentity (most : Nat) (strategy : Strategy) :
    ∃ reports, (boxedIdentityUpToFour most strategy).outcome = .ok reports :=
  exists_outcome_collectUpTo _ _ strategy 4 _ (fun _ _ _ => rfl) ()

/-- Proofs of length four cannot use up a budget of three. -/
theorem strategies_agree_within_budget_three :
    ∃ reports reports',
      (boxedIdentityUpToFour 3 .stepwise).outcome = .ok reports ∧
      (boxedIdentityUpToFour 3 .combined).outcome = .ok reports' ∧
      ∀ length, (boxedIdentityUpToFour 3 .stepwise).collection.conclusionKeys length =
        (boxedIdentityUpToFour 3 .combined).collection.conclusionKeys length := by
  obtain ⟨reports, hok⟩ := exists_outcome_boxedIdentity 3 .stepwise
  obtain ⟨reports', hok'⟩ := exists_outcome_boxedIdentity 3 .combined
  exact ⟨reports, reports', hok, hok',
    (strategies_agree_within_budget rfl rfl (by decide) hok hok').2.2 (by decide)⟩

/-- With a budget of one, the strategies do not agree. The best proof of `□(p → p)` is `N1`, to
which no further necessitation may be applied. The longer proof `D21` of the same conclusion is
thrown away when lengths are collected one by one, and with it `ND21`. -/
theorem not_strategies_agree_of_budget :
    ∃ reports reports',
      (boxedIdentityUpToFour 1 .stepwise).outcome = .ok reports ∧
      (boxedIdentityUpToFour 1 .combined).outcome = .ok reports' ∧
      ¬∀ length, (boxedIdentityUpToFour 1 .stepwise).collection.conclusionKeys length =
        (boxedIdentityUpToFour 1 .combined).collection.conclusionKeys length := by
  obtain ⟨reports, hok⟩ := exists_outcome_boxedIdentity 1 .stepwise
  obtain ⟨reports', hok'⟩ := exists_outcome_boxedIdentity 1 .combined
  refine ⟨reports, reports', hok, hok', fun hagree => ?_⟩
  have hstepwise : (boxedIdentityUpToFour 1 .stepwise).collection.representatives 4 = [] := by cbv
  have hcombined : (boxedIdentityUpToFour 1 .combined).collection.representatives 4 =
      [("ND21", .necessarily (.necessarily (.implies (.var 0) (.var 0))))] := by cbv
  have hfour := Set.ext_iff.mp (hagree 4)
    (Formula.necessarily (.necessarily (.implies (.var 0) (.var 0)))).key
  rw [conclusionKeys, conclusionKeys, hstepwise, hcombined] at hfour
  obtain ⟨representative, hmem, -⟩ := hfour.mpr ⟨_, List.mem_cons_self, rfl⟩
  exact absurd hmem List.not_mem_nil

end collectUpTo

end Detachment.Collection
