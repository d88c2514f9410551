import Detachment.Matching
import Detachment.Proofs.Generality

/-! # What matching decides

A matching stands for the replacements that agree with it.

* `Matching.extend_spec` says that extending a matching cuts these down to those that send the
  general formula to the special one, and fails only if there are none.
* `isSchema_iff` says that `isSchema` decides `Formula.Generalizes`. -/

namespace Detachment

namespace Matching

/-- The replacement `s` sends every mapped variable to what it stands for. -/
def Agrees (m : Matching) (s : Nat → Formula) : Prop :=
  ∀ id f, m.get? id = some f → s id = f

/-- Every replacement `Agrees` with the matching that maps nothing. -/
theorem agrees_empty (s : Nat → Formula) : empty.Agrees s := by
  intro id f h
  cases h

/-- Replacing the mapped variables and no others `Agrees` with the matching. -/
theorem agrees_getD (m : Matching) : m.Agrees fun id => (m.get? id).getD (.var id) := by
  intro id f h
  simp [h]

/-- Looking up a variable (`get?`) after mapping one more. -/
theorem get?_cons (m : Matching) (id other : Nat) (f : Formula) :
    get? ⟨(id, f) :: m.bindings⟩ other = if other = id then some f else m.get? other := by
  unfold get?
  rw [List.lookup_cons]
  by_cases h : other = id
  · simp [h]
  · simp [h, beq_false_of_ne h]

/-- Mapping a new variable asks one thing more of the replacements, `s id = f`. The variable was not
mapped, so the new pair hides no other. -/
theorem agrees_cons_iff {m : Matching} {id : Nat} {f : Formula} (h : m.get? id = none)
    (s : Nat → Formula) :
    Agrees ⟨(id, f) :: m.bindings⟩ s ↔ m.Agrees s ∧ s id = f := by
  simp only [Agrees, get?_cons]
  constructor
  · intro hs
    refine ⟨?_, hs id f (by simp)⟩
    intro other g hg
    have hne : other ≠ id := by
      rintro rfl
      rw [h] at hg
      cases hg
    exact hs other g (by rw [if_neg hne]; exact hg)
  · rintro ⟨hs, hid⟩ other g hg
    by_cases hother : other = id
    · rw [if_pos hother, Option.some.injEq] at hg
      rw [hother, hid, hg]
    · rw [if_neg hother] at hg
      exact hs other g hg

/-- The replacements that an attempt to match two formulas leaves: those that send `general` to
`special`, and if it fails, there are none. -/
def Narrows (m : Matching) (general special : Formula) (result : Bool × Matching) : Prop :=
  if result.1 then ∀ s, result.2.Agrees s ↔ m.Agrees s ∧ general.subst s = special
  else ∀ s, m.Agrees s → general.subst s ≠ special

/-- Letting a variable stand for a formula (`matchVariable`) keeps the replacements that send it
there. -/
theorem matchVariable_narrows (m : Matching) (id : Nat) (special : Formula) :
    m.Narrows (.var id) special (m.matchVariable id special) := by
  unfold matchVariable
  cases h : m.get? id with
  | none => exact agrees_cons_iff h
  | some f =>
    by_cases hf : f = special
    · simp only [Narrows, hf, decide_true, if_true]
      intro s
      refine ⟨fun hs => ⟨hs, ?_⟩, And.left⟩
      exact (hs id f h).trans hf
    · simp only [Narrows, hf, decide_false, Bool.false_eq_true, if_false]
      intro s hs hspecial
      exact hf ((hs id f h).symm.trans hspecial)

/-- Left arguments matched before the right ones match the formulas: `Narrows` is composed. If
the right ones do not match, neither do the formulas. -/
theorem Narrows.binary {m m' : Matching} {p : Connective} {f₁ f₂ g₁ g₂ : Formula}
    {result : Bool × Matching} (hleft : m.Narrows f₁ g₁ (true, m'))
    (hright : m'.Narrows f₂ g₂ result) :
    m.Narrows (.binary p f₁ f₂) (.binary p g₁ g₂) result := by
  have hagrees : ∀ s, m'.Agrees s ↔ m.Agrees s ∧ f₁.subst s = g₁ := hleft
  unfold Narrows at hright ⊢
  by_cases hresult : result.1 = true
  · rw [if_pos hresult] at hright ⊢
    intro s
    rw [hright s, hagrees s]
    simp only [Formula.subst, Formula.binary.injEq, true_and, and_assoc]
  · rw [if_neg hresult] at hright ⊢
    intro s hs heq
    obtain ⟨-, heq₁, heq₂⟩ := Formula.binary.inj heq
    exact hright s ((hagrees s).mpr ⟨hs, heq₁⟩) heq₂

/-- Extending a matching (`extend`) keeps the replacements that agree with it and send the general
formula to the special one. It fails only if there are none, as long as `allowed` lets instances
through. The induction is on the general formula, for any matching. -/
theorem extend_spec (allowed : Formula → Formula → Bool)
    (hallowed : ∀ f g : Formula, f.Generalizes g → allowed f g = true) (m : Matching)
    (general special : Formula) : m.Narrows general special (m.extend allowed general special) := by
  induction general generalizing m special with
  | var id =>
    unfold extend
    exact matchVariable_narrows m id special
  | unary p f ih =>
    cases special with
    | var id =>
      intro s _ h
      cases h
    | binary q g₁ g₂ =>
      intro s _ h
      cases h
    | unary q g =>
      simp only [extend]
      -- A pair that `allowed` does not let through has no instance, by `hallowed`.
      by_cases hpass : (p = q && allowed (.unary p f) (.unary q g)) = true
      · rw [if_pos hpass]
        simp only [Bool.and_eq_true, decide_eq_true_eq] at hpass
        obtain ⟨rfl, -⟩ := hpass
        simpa only [Narrows, Formula.subst, Formula.unary.injEq, true_and, ne_eq] using ih m g
      · rw [if_neg hpass]
        intro s _ h
        obtain ⟨rfl, -⟩ := Formula.unary.inj h
        exact hpass (by simp [hallowed _ _ ⟨s, h⟩])
  | binary p f₁ f₂ ih₁ ih₂ =>
    cases special with
    | var id =>
      intro s _ h
      cases h
    | unary q g =>
      intro s _ h
      cases h
    | binary q g₁ g₂ =>
      simp only [extend]
      by_cases hpass : (p = q && allowed (.binary p f₁ f₂) (.binary q g₁ g₂)) = true
      · rw [if_pos hpass]
        simp only [Bool.and_eq_true, decide_eq_true_eq] at hpass
        obtain ⟨rfl, -⟩ := hpass
        have hleft := ih₁ m g₁
        -- The right arguments are matched with what the left ones have left.
        cases hresult : m.extend allowed f₁ g₁ with
        | mk unified m' =>
          rw [hresult] at hleft
          cases unified with
          | false =>
            intro s hs h
            exact hleft s hs (Formula.binary.inj h).2.1
          | true => exact hleft.binary (ih₂ m' g₂)
      · rw [if_neg hpass]
        intro s _ h
        obtain ⟨rfl, -⟩ := Formula.binary.inj h
        exact hpass (by simp [hallowed _ _ ⟨s, h⟩])

end Matching

/-- The function `isSchema` decides `Generalizes`: whether replacing variables turns one formula
into another. -/
theorem isSchema_iff {general special : Formula} :
    isSchema general special = true ↔ general.Generalizes special := by
  have hspec := Matching.extend_spec (fun _ _ => true) (fun _ _ _ => rfl) .empty
    general special
  unfold Matching.Narrows at hspec
  unfold isSchema
  constructor
  · intro h
    rw [if_pos h] at hspec
    exact ⟨_, ((hspec _).mp (Matching.agrees_getD _)).2⟩
  · rintro ⟨s, hs⟩
    by_contra hfail
    rw [if_neg hfail] at hspec
    exact hspec s (Matching.agrees_empty s) hs

end Detachment
