import Detachment.Proofs.Conclusion
import Detachment.Proofs.Language

/-! # Replacing parts of a proof

When the parts of a proof are replaced by proofs of more general conclusions, the whole proves
something more general, unless the major premise of a detachment becomes a mere variable, which is
more general than everything.

* `ProofTree.detachConclusions_of_generalizes` replaces the premises of one detachment.
* `NecessitationLimit.Flexible` says that a known proof fits wherever a longer known one does.
* `Grammar.represented_of_conclude` replaces all known parts of a proof by entries of a table that
  has a more general one for each of them. -/

namespace Detachment

variable {basis : Basis}

/-! ## Conclusions -/

/-- Conclusions are in canonical form: `canonical` leaves them as they are. -/
theorem Proof.canonical_conclusion {proof : String} {c : Formula}
    (h : Proof.conclusion basis proof = .ok c) : c.canonical = c := by
  rw [Proof.conclusion, Proof.conclusionChars] at h
  split at h
  · cases h
  · split at h
    · cases h
    · obtain rfl := Except.ok.inj h
      exact Formula.canonical_canonical _
    · cases h

/-- Conclusions that generalize each other are the same, as both are canonical. -/
theorem Proof.conclusion_antisymm {proof proof' : String} {c c' : Formula}
    (h : Proof.conclusion basis proof = .ok c) (h' : Proof.conclusion basis proof' = .ok c')
    (hgen : c.Generalizes c') (hgen' : c'.Generalizes c) : c = c' := by
  rw [← Proof.canonical_conclusion h, ← Proof.canonical_conclusion h']
  exact Formula.canonical_eq_iff.mpr ⟨hgen, hgen'⟩

/-- More general premises can still be detached (`detachConclusions`), and what follows is more
general, unless the major premise is a variable. -/
theorem ProofTree.detachConclusions_of_generalizes {f g c f' g' : Formula} {position : Nat}
    (h : detachConclusions position f g = .ok c) (hf : f'.Generalizes f) (hg : g'.Generalizes g)
    (position' : Nat) :
    (∃ id, f' = .var id) ∨
      ∃ c', detachConclusions position' f' g' = .ok c' ∧ c'.Generalizes c := by
  obtain ⟨x, hmajor, hminor⟩ := (generalizes_iff_of_detachConclusions h c).mp (.refl c)
  rcases (hf.trans hmajor).isImplication with hvariable | ⟨a, b, rfl⟩
  · exact .inl hvariable
  · have hshift : (g'.shift (a.implies b).span).Generalizes x :=
      (shift_generalizes_iff _).mpr (hg.trans hminor)
    obtain ⟨k, hk, hle⟩ :=
      exists_detach?_of_generalizes (apart_shift_span _ _) (hf.trans hmajor) hshift
    exact .inr ⟨k.canonical, detachConclusions_eq_ok.mpr ⟨⟨a, b, rfl⟩, k, hk, rfl⟩,
      Formula.canonical_generalizes_iff.mpr hle⟩

/-! ## Limits without a budget -/

namespace NecessitationLimit

variable {limit : NecessitationLimit} {known bound : Nat}

/-- Necessitations are not allowed at all, or in any number; there is no budget to use up. -/
def IsUniform (limit : NecessitationLimit) : Prop :=
  limit.isEnabled = false ∨ limit = .unbounded

/-- Without a limit all runs are allowed (`RunsAllowed`). -/
theorem runsAllowed_unbounded (run : Nat) (symbols : List Char) :
    NecessitationLimit.unbounded.RunsAllowed run symbols :=
  (runsAllowed_iff_replicate symbols).mpr fun _ _ => rfl

/-- A code without necessitations has no runs, so it has `RunsAllowed`. -/
theorem runsAllowed_of_not_mem {symbols : List Char}
    (h : Proof.necessitateSymbol ∉ symbols) : limit.RunsAllowed 0 symbols := by
  induction symbols with
  | nil => exact limit.allows_zero
  | cons symbol rest ih =>
    rw [List.mem_cons, not_or] at h
    exact (runsAllowed_cons (Ne.symm h.1)).mpr ⟨limit.allows_zero, ih h.2⟩

/-- A code of at most `most + 1` symbols, with the run before it, has no run of more than `most`
necessitations. -/
theorem runsAllowed_of_length_le {most run : Nat} {t : ProofTree basis}
    (h : run + t.length ≤ most + 1) : (bounded most).RunsAllowed run t.symbols := by
  induction t generalizing run with
  | leaf name =>
    have hrun : run ≤ most := Nat.le_of_succ_le_succ h
    rw [ProofTree.symbols, runsAllowed_cons (Basis.name_spec name).2.1]
    exact ⟨decide_eq_true hrun, allows_zero _⟩
  | necessitate inner ih =>
    rw [ProofTree.length] at h
    rw [ProofTree.symbols, runsAllowed_necessitate]
    exact ih (by omega)
  | detach major minor ih₁ ih₂ =>
    rw [ProofTree.length] at h
    have hrun : run ≤ most := by omega
    exact ProofTree.runsAllowed_detach.mpr ⟨decide_eq_true hrun, ih₁ (by omega), ih₂ (by omega)⟩

/-- A known proof fits wherever a longer known one does, as long as what it becomes a part of has at
most the length `bound`. -/
def Flexible (limit : NecessitationLimit) (basis : Basis) (known bound : Nat) : Prop :=
  ∀ (t r : ProofTree basis) (run : Nat), t.length ≤ known → r.length ≤ t.length →
    run + t.length ≤ bound → limit.RunsAllowed run t.symbols → limit.RunsAllowed 0 r.symbols →
    limit.RunsAllowed run r.symbols

/-- A smaller `bound` leaves as much freedom. -/
theorem Flexible.mono {bound' : Nat} (h : limit.Flexible basis known bound)
    (hle : bound' ≤ bound) : limit.Flexible basis known bound' :=
  fun t r run ht hr hrun => h t r run ht hr (Nat.le_trans hrun hle)

/-- Without a budget (`IsUniform`) all proofs fit wherever one does. -/
theorem IsUniform.flexible (h : limit.IsUniform) : limit.Flexible basis known bound := by
  intro t r run _ _ _ ht hr
  rcases h with hdisabled | rfl
  · cases run with
    | zero => exact hr
    | succ run =>
      have hrun := allows_of_runsAllowed ht
      rw [not_allows_succ hdisabled] at hrun
      cases hrun
  · exact runsAllowed_unbounded _ _

/-- Axioms fit wherever axioms do, so every limit is `Flexible` when only they are known. -/
theorem flexible_one : limit.Flexible basis 1 bound := by
  -- Nothing else has length one.
  have hleaf : ∀ t : ProofTree basis, t.length ≤ 1 → ∃ name, t = .leaf name := by
    intro t ht
    cases t with
    | leaf name => exact ⟨name, rfl⟩
    | necessitate inner =>
      have := inner.length_pos
      rw [ProofTree.length] at ht
      omega
    | detach major minor =>
      have := major.length_pos
      rw [ProofTree.length] at ht
      omega
  intro t r run ht hr _ hruns _
  obtain ⟨name, rfl⟩ := hleaf r (Nat.le_trans hr ht)
  rw [ProofTree.symbols, runsAllowed_cons (Basis.name_spec name).2.1]
  exact ⟨allows_of_runsAllowed hruns, limit.allows_zero⟩

/-- A budget does not matter for proofs that are too short to use it up (`bound ≤ most + 1`). -/
theorem flexible_of_le {most : Nat} (h : bound ≤ most + 1) :
    (bounded most).Flexible basis known bound :=
  fun t r run _ hr hrun _ _ => runsAllowed_of_length_le (by omega)

end NecessitationLimit

/-! ## Representing conclusions -/

namespace Grammar

variable {g : Grammar} {run bound m n : Nat} {f h : Formula}

/-- After `run` necessitations, the grammar builds a proof of at most the length `most` that proves
something more general than `f`. -/
def Represented (g : Grammar) (basis : Basis) (run most : Nat) (f : Formula) : Prop :=
  ∃ (r : ProofTree basis) (c : Formula),
    r.length ≤ most ∧ g.Builds run r ∧ r.conclude 0 = .ok c ∧ c.Generalizes f

/-- Longer proofs and less general conclusions are `Represented`, too. -/
theorem Represented.mono (hf : g.Represented basis run m f) (hmn : m ≤ n)
    (hgen : f.Generalizes h) : g.Represented basis run n h := by
  obtain ⟨r, c, hlength, hbuilds, hconclude, hc⟩ := hf
  exact ⟨r, c, Nat.le_trans hlength hmn, hbuilds, hconclude, hc.trans hgen⟩

/-- What the known proofs prove is `Represented` after every run that they fit after, up to a length
`bound` of the whole. -/
def RepresentsKnown (g : Grammar) (basis : Basis) (bound : Nat) : Prop :=
  ∀ (t : ProofTree basis) (f : Formula) (run : Nat), t.conclude 0 = .ok f →
    g.necessitation.RunsAllowed run t.symbols → t.length ≤ g.knownLimit →
    run + t.length ≤ bound → g.Represented basis run t.length f

/-- A tree whose parts are built is `Represented`, either by itself or because it is known. -/
theorem represented_of_builds (hknown : g.RepresentsKnown basis bound) {t : ProofTree basis}
    (hconclude : t.conclude 0 = .ok f) (hruns : g.necessitation.RunsAllowed run t.symbols)
    (hbound : run + t.length ≤ bound) (hbuilds : g.knownLimit < t.length → g.Builds run t) :
    g.Represented basis run t.length f := by
  by_cases hle : t.length ≤ g.knownLimit
  · exact hknown t f run hconclude hruns hle hbound
  · exact ⟨t, f, Nat.le_refl _, hbuilds (Nat.not_le.mp hle), hconclude, .refl f⟩

/-- The necessity of what is `Represented` after one necessitation more is represented. The
necessitation of the tree that represents it is built, or is known and represented by another. -/
theorem Represented.necessitate (hknown : g.RepresentsKnown basis bound)
    (hf : g.Represented basis (run + 1) n f) (hbound : run + (n + 1) ≤ bound) :
    g.Represented basis run (n + 1) f.necessarily := by
  obtain ⟨r, c, hlength, hbuilds, hconclude, hgen⟩ := hf
  have hnecessitate : (ProofTree.necessitate r).conclude 0 = .ok c.necessarily :=
    ProofTree.conclude_necessitate_eq_ok.mpr ⟨c, ProofTree.conclude_position hconclude _, rfl⟩
  have hruns : g.necessitation.RunsAllowed run (ProofTree.necessitate r).symbols :=
    NecessitationLimit.runsAllowed_necessitate.mpr hbuilds.1
  refine (represented_of_builds hknown hnecessitate hruns ?_ fun hbeyond => ?_).mono
    (Nat.succ_le_succ hlength) (Formula.unary_generalizes_iff.mpr hgen)
  · rw [ProofTree.length]
    omega
  · exact (builds_necessitate_iff hbeyond).mpr hbuilds

/-- A proof of a variable does not start with a necessitation, so that it fits after every run: it
is built (`Builds`) after each that is allowed. -/
theorem Builds.of_conclude_var {r : ProofTree basis} {id : Nat} (hbuilds : g.Builds 0 r)
    (hconclude : r.conclude 0 = .ok (.var id)) (hrun : g.necessitation.allows run) :
    g.Builds run r := by
  refine ⟨?_, hbuilds.2⟩
  cases r with
  | leaf name =>
    rw [ProofTree.symbols, NecessitationLimit.runsAllowed_cons (Basis.name_spec name).2.1]
    exact ⟨hrun, g.necessitation.allows_zero⟩
  | necessitate inner =>
    obtain ⟨c, -, hc⟩ := ProofTree.conclude_necessitate_eq_ok.mp hconclude
    cases hc
  | detach major minor =>
    have hparts := (ProofTree.runsAllowed_detach.mp hbuilds.1).2
    exact ProofTree.runsAllowed_detach.mpr ⟨hrun, hparts⟩

/-- What follows from represented premises is `Represented`: by a detachment of their
representatives, or by the major one alone if that proves a variable. -/
theorem Represented.detach (hknown : g.RepresentsKnown basis bound)
    (hf : g.Represented basis 0 m f) (hh : g.Represented basis 0 n h) {position : Nat} {c : Formula}
    (hc : ProofTree.detachConclusions position f h = .ok c) (hrun : g.necessitation.allows run)
    (hbound : run + (m + n + 1) ≤ bound) :
    g.Represented basis run (m + n + 1) c := by
  -- Detach the proofs that represent the premises, in place of the premises.
  obtain ⟨r, f', hlength, hbuilds, hconclude, hgen⟩ := hf
  obtain ⟨s, h', hlength', hbuilds', hconclude', hgen'⟩ := hh
  rcases ProofTree.detachConclusions_of_generalizes hc hgen hgen' 0 with ⟨id, rfl⟩ | ⟨c', hc', hle⟩
  · -- A variable as major premise cannot be detached, but it is more general than the conclusion.
    exact ⟨r, .var id, by omega, hbuilds.of_conclude_var hconclude hrun, hconclude,
      Formula.var_generalizes id c⟩
  · have hdetach : (ProofTree.detach r s).conclude 0 = .ok c' :=
      ProofTree.conclude_detach_eq_ok.mpr ⟨f', h', ProofTree.conclude_position hconclude _,
        ProofTree.conclude_position hconclude' _, hc'⟩
    have hruns := ProofTree.runsAllowed_detach.mpr ⟨hrun, hbuilds.1, hbuilds'.1⟩
    refine (represented_of_builds hknown hdetach hruns ?_ fun hbeyond => ?_).mono ?_ hle
    · rw [ProofTree.length]
      omega
    · exact (builds_detach_iff hrun hbeyond).mpr ⟨hbuilds, hbuilds'⟩
    · rw [ProofTree.length]
      omega

/-- If the known proofs are represented (`RepresentsKnown`), then all are, by induction on the
tree. -/
theorem represented_of_conclude (hone : 1 ≤ g.knownLimit) (hknown : g.RepresentsKnown basis bound)
    {t : ProofTree basis} (hconclude : t.conclude 0 = .ok f)
    (hruns : g.necessitation.RunsAllowed run t.symbols) (hbound : run + t.length ≤ bound) :
    g.Represented basis run t.length f := by
  induction t generalizing f run with
  | leaf name => exact hknown _ f run hconclude hruns hone hbound
  | necessitate inner ih =>
    -- The proof that represents the premise has to fit after one necessitation more.
    rw [ProofTree.symbols, NecessitationLimit.runsAllowed_necessitate] at hruns
    rw [ProofTree.length] at hbound ⊢
    obtain ⟨c, hinner, rfl⟩ := ProofTree.conclude_necessitate_eq_ok.mp hconclude
    have hpremise := ih (ProofTree.conclude_position hinner 0) hruns (by omega)
    exact hpremise.necessitate hknown hbound
  | detach major minor ih₁ ih₂ =>
    obtain ⟨hrun, hmajorRuns, hminorRuns⟩ := ProofTree.runsAllowed_detach.mp hruns
    rw [ProofTree.length] at hbound ⊢
    obtain ⟨a, b, hmajor, hminor, hc⟩ := ProofTree.conclude_detach_eq_ok.mp hconclude
    have hmajor := ih₁ (ProofTree.conclude_position hmajor 0) hmajorRuns (by omega)
    have hminor := ih₂ (ProofTree.conclude_position hminor 0) hminorRuns (by omega)
    exact hmajor.detach hknown hminor hc hrun hbound

end Grammar

end Detachment
