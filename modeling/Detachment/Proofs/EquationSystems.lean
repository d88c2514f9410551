import Detachment.Proofs.Unification

/-! # Systems of equations

Several pairs of formulas unified one after another on one substitution. Later pairs extend the
bindings that earlier ones made, so that the solutions left at the end are those that make the two
sides of every pair equal.

* `Substitution.unifyEach` unifies the pairs in turn.
* `Substitution.unifyEach_settles` says what is left of the solutions, whatever was bound before.
* `Substitution.unifyEach_mostGeneral` says that a system that can be solved is solved, and in the
  most general way. -/

namespace Detachment.Substitution

variable {σ : Substitution} {s : Nat → Formula} {pairs : List (Formula × Formula)}

/-- What came of some pairs: whether each of them was unified, and the bindings at the end. -/
structure Settlement where
  /-- For each pair whether it was unified. -/
  answers : List Bool
  /-- The bindings at the end. -/
  substitution : Substitution

/-- Unify the two sides of each pair in turn (`unify`), also after a pair that cannot be unified.
The bindings that were made before are kept. -/
def unifyEach (σ : Substitution) : List (Formula × Formula) → Settlement
  | [] => ⟨[], σ⟩
  | (left, right) :: rest =>
    let first := σ.unify left right
    let others := first.substitution.unifyEach rest
    ⟨first.unified :: others.answers, others.substitution⟩

/-- The replacement `s` makes the two sides of every pair equal. -/
def Unifies (s : Nat → Formula) (pairs : List (Formula × Formula)) : Prop :=
  ∀ pair ∈ pairs, pair.1.subst s = pair.2.subst s

/-- Nothing is asked of `s` without pairs. -/
@[simp] theorem unifies_nil (s : Nat → Formula) : Unifies s [] :=
  fun _ h => absurd h List.not_mem_nil

/-- One pair more asks for one equality more. -/
@[simp] theorem unifies_cons {left right : Formula} :
    Unifies s ((left, right) :: pairs) ↔ left.subst s = right.subst s ∧ Unifies s pairs :=
  List.forall_mem_cons

/-- Unifying pairs makes no cycle, whether they can be unified or not: `unify` keeps `Acyclic`. -/
theorem Acyclic.unifyEach (hσ : σ.Acyclic) (pairs : List (Formula × Formula)) :
    (σ.unifyEach pairs).substitution.Acyclic := by
  induction pairs generalizing σ with
  | nil => exact hσ
  | cons pair rest ih => exact ih (unify_settles hσ pair.1 pair.2).within.acyclic

/-- Unifying pairs leaves the solutions that unify them all; if one pair cannot be unified, there
are none. The induction is on the pairs, for any bindings made before. -/
theorem unifyEach_settles (hσ : σ.Acyclic) (pairs : List (Formula × Formula)) :
    ((∀ answer ∈ (σ.unifyEach pairs).answers, answer = true) ∧
      ∀ s, Solves s (σ.unifyEach pairs).substitution ↔ Solves s σ ∧ Unifies s pairs) ∨
    (false ∈ (σ.unifyEach pairs).answers ∧ ∀ s, Solves s σ → ¬Unifies s pairs) := by
  induction pairs generalizing σ with
  | nil => exact .inl ⟨fun _ h => absurd h List.not_mem_nil, fun s => by simp [unifyEach]⟩
  | cons pair rest ih =>
    obtain ⟨left, right⟩ := pair
    have hfirst := unify_settles hσ left right
    have hrest := ih hfirst.within.acyclic
    simp only [unifyEach, unifies_cons]
    cases hunified : (σ.unify left right).unified with
    | false =>
      refine .inr ⟨List.mem_cons_self, fun s hs h => ?_⟩
      exact hfirst.clash hunified s hs h.1
    | true =>
      have hsolves := hfirst.unified hunified
      rcases hrest with ⟨hall, hsolutions⟩ | ⟨hsome, hnone⟩
      · refine .inl ⟨List.forall_mem_cons.mpr ⟨rfl, hall⟩, fun s => ?_⟩
        rw [hsolutions s, hsolves s, and_assoc]
      · refine .inr ⟨List.mem_cons_of_mem _ hsome, fun s hs h => ?_⟩
        exact hnone s ((hsolves s).mpr ⟨hs, h.1⟩) h.2

/-- Replacing all bound variables a second time changes nothing: `apply` is the solution that
`subst_apply` factors through, also of itself. -/
theorem apply_apply (hσ : σ.Acyclic) (f : Formula) : σ.apply (σ.apply f) = σ.apply f := by
  rw [apply_eq_subst hσ (σ.apply f), subst_apply (solves_apply hσ), ← apply_eq_subst hσ]

/-- Pairs are unified one after another exactly if some `s` makes the two sides of every pair equal
(`Unifies`). Then replacing the bound variables (`apply`) makes them equal, doing so twice changes
nothing, and every other way to make them equal is a special case. -/
theorem unifyEach_mostGeneral (pairs : List (Formula × Formula)) :
    ((∀ answer ∈ (empty.unifyEach pairs).answers, answer = true) ↔ ∃ s, Unifies s pairs) ∧
    ((∀ answer ∈ (empty.unifyEach pairs).answers, answer = true) →
      (∀ pair ∈ pairs, (empty.unifyEach pairs).substitution.apply pair.1 =
        (empty.unifyEach pairs).substitution.apply pair.2) ∧
      (∀ f, (empty.unifyEach pairs).substitution.apply
        ((empty.unifyEach pairs).substitution.apply f) =
          (empty.unifyEach pairs).substitution.apply f) ∧
      ∀ s, Unifies s pairs → ∀ f,
        ((empty.unifyEach pairs).substitution.apply f).subst s = f.subst s) := by
  have hacyclic := acyclic_empty.unifyEach pairs
  rcases unifyEach_settles acyclic_empty pairs with ⟨hall, hsolutions⟩ | ⟨hsome, hnone⟩
  · have hsolves : ∀ s, Solves s (empty.unifyEach pairs).substitution ↔ Unifies s pairs :=
      fun s => (hsolutions s).trans (and_iff_right (solves_empty s))
    -- The replacement of the bound variables is itself a solution.
    have hunifies := (hsolves _).mp (solves_apply hacyclic)
    refine ⟨⟨fun _ => ⟨_, hunifies⟩, fun _ => hall⟩, fun _ => ⟨fun pair hpair => ?_,
      apply_apply hacyclic, fun s hs => subst_apply ((hsolves s).mpr hs)⟩⟩
    rw [apply_eq_subst hacyclic pair.1, apply_eq_subst hacyclic pair.2]
    exact hunifies pair hpair
  · have hfail : ¬∀ answer ∈ (empty.unifyEach pairs).answers, answer = true :=
      fun hall => Bool.false_ne_true (hall false hsome)
    refine ⟨⟨fun hall => absurd hall hfail, ?_⟩, fun hall => absurd hall hfail⟩
    rintro ⟨s, hs⟩
    exact absurd hs (hnone s (solves_empty s))

/-- The pairs `p = q → r` and `r = ¬q` bind `p` to a formula with the bound variable `r`; replacing
both makes the sides of the earlier pair equal, too. -/
theorem unifyEach_mostGeneral_chain :
    (∀ answer ∈ (empty.unifyEach [(.var 0, .implies (.var 1) (.var 2)),
      (.var 2, .unary .negation (.var 1))]).answers, answer = true) ∧
    (empty.unifyEach [(.var 0, .implies (.var 1) (.var 2)),
      (.var 2, .unary .negation (.var 1))]).substitution.apply (.var 0) =
    (empty.unifyEach [(.var 0, .implies (.var 1) (.var 2)),
      (.var 2, .unary .negation (.var 1))]).substitution.apply (.implies (.var 1) (.var 2)) := by
  have hanswers : (empty.unifyEach [(.var 0, .implies (.var 1) (.var 2)),
      (.var 2, .unary .negation (.var 1))]).answers = [true, true] := by decide
  have hall : ∀ answer ∈ (empty.unifyEach [(.var 0, .implies (.var 1) (.var 2)),
      (.var 2, .unary .negation (.var 1))]).answers, answer = true := by
    rw [hanswers]
    simp
  exact ⟨hall, ((unifyEach_mostGeneral _).2 hall).1 _ List.mem_cons_self⟩

end Detachment.Substitution
