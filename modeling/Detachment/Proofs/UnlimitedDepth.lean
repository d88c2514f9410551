import Detachment.Proofs.EquationSystems

/-! # Following bindings to any depth

The functions on triangular substitutions are given a depth. As long as bindings have no cycles it
is never used up, and the functions satisfy the equations of a recursion without a limit.

* `Substitution.Follows` is one step along a chain of bindings. Chains are finite, and
  `Substitution.resolve` goes to their end.
* `Substitution.head_apply`, `Substitution.arguments_apply` and
  `Substitution.occurs_eq_any_arguments` say how replacing and the occurs check go on with the
  arguments of a formula.
* `Substitution.unify_eq_unifyNodes` says that unification calls itself where it is given a depth;
  what it does with two formulas follows by cases on what they resolve to. -/

namespace Detachment

namespace Formula

/-- The `arguments` of a formula have no other variables. -/
theorem mem_occurrences_of_mem_arguments {f g : Formula} (h : g ∈ f.arguments) {id : Nat}
    (hid : id ∈ g.occurrences) : id ∈ f.occurrences := by
  cases f with
  | var other => exact absurd h List.not_mem_nil
  | unary op body =>
    obtain rfl := List.mem_singleton.mp h
    exact hid
  | binary op first second =>
    rw [occurrences_binary, List.mem_append]
    rcases List.mem_pair.mp h with rfl | rfl
    · exact .inl hid
    · exact .inr hid

/-- A test `anyVariable` after a replacement is a test on what is put in. -/
theorem anyVariable_subst (s : Nat → Formula) (test : Nat → Bool) (f : Formula) :
    (f.subst s).anyVariable test = f.anyVariable fun id => (s id).anyVariable test := by
  induction f with
  | var => rfl
  | unary op body ih => exact ih
  | binary op first second ihfirst ihsecond => simp only [subst, anyVariable, ihfirst, ihsecond]

end Formula

namespace Substitution

open Relation

variable {σ : Substitution} {scope : Finset Nat} {f g left right : Formula}

/-! ## Chains of bindings -/

/-- A bound variable `f` is followed to its formula `g`. -/
def Follows (σ : Substitution) (f g : Formula) : Prop :=
  ∃ id, f = .var id ∧ σ.get? id = some g

/-- Without cycles, chains of bindings (`Follows`) are finite. -/
theorem Acyclic.wellFounded_follows (hσ : σ.Acyclic) : WellFounded fun g f => σ.Follows f g := by
  refine Subrelation.wf ?_ (measure fun f => (σ.boundBelow f).card).wf
  rintro g f ⟨id, rfl, hg⟩
  exact hσ.card_boundBelow_lt (by simp) hg

/-- Following bindings (`follow`) goes along a chain, to any depth. By induction on the depth: each
step follows the binding of a variable. -/
theorem follows_follow (σ : Substitution) (depth : Nat) (f : Formula) :
    ReflTransGen σ.Follows f (σ.follow depth f) := by
  induction depth generalizing f with
  | zero => exact .refl
  | succ depth ih =>
    cases f with
    | unary op body => exact .refl
    | binary op first second => exact .refl
    | var id =>
      cases hg : σ.get? id with
      | none =>
        simp only [follow, hg]
        exact .refl
      | some g =>
        simp only [follow, hg]
        exact .head ⟨id, rfl, hg⟩ (ih g)

/-- Nothing `Follows` what a formula resolves to: `resolve` goes to the end of the chain. -/
theorem Acyclic.not_follows_resolve (hσ : σ.Acyclic) (f g : Formula) :
    ¬σ.Follows (σ.resolve f) g := by
  rintro ⟨id, hvar, hg⟩
  rw [(resolve_endsIn hσ f).unbound id hvar] at hg
  cases hg

/-- What is no bound variable resolves to itself (`resolve`). -/
theorem resolve_eq_self (h : ∀ id, f = .var id → σ.get? id = none) : σ.resolve f = f := by
  unfold resolve
  cases σ.size with
  | zero => rfl
  | succ depth =>
    cases f with
    | var id => simp only [follow, h id rfl]
    | unary op body => rfl
    | binary op first second => rfl

/-- A compound formula is at the end of its chain. -/
@[simp] theorem resolve_unary (σ : Substitution) (op : Modifier) (f : Formula) :
    σ.resolve (.unary op f) = .unary op f :=
  resolve_eq_self (by rintro id ⟨⟩)

/-- A compound formula is at the end of its chain. -/
@[simp] theorem resolve_binary (σ : Substitution) (op : Connective) (f g : Formula) :
    σ.resolve (.binary op f g) = .binary op f g :=
  resolve_eq_self (by rintro id ⟨⟩)

/-- Resolving a second time (`resolve`) changes nothing. -/
theorem Acyclic.resolve_resolve (hσ : σ.Acyclic) (f : Formula) :
    σ.resolve (σ.resolve f) = σ.resolve f :=
  resolve_eq_self (resolve_endsIn hσ f).unbound

/-! ## Replacing and the occurs check -/

/-- A formula and what it resolves to become the same under `apply`. -/
theorem apply_resolve (hσ : σ.Acyclic) (f : Formula) : σ.apply (σ.resolve f) = σ.apply f := by
  rw [apply_eq_subst hσ, apply_eq_subst hσ f]
  exact ((resolve_endsIn hσ f).subst_eq _ (solves_apply hσ)).symm

/-- Bound variables are replaced below a modifier. -/
theorem apply_unary (hσ : σ.Acyclic) (op : Modifier) (f : Formula) :
    σ.apply (.unary op f) = .unary op (σ.apply f) := by
  rw [apply_eq_subst hσ, Formula.subst, ← apply_eq_subst hσ]

/-- Bound variables are replaced on both sides of a connective. -/
theorem apply_binary (hσ : σ.Acyclic) (op : Connective) (f g : Formula) :
    σ.apply (.binary op f g) = .binary op (σ.apply f) (σ.apply g) := by
  rw [apply_eq_subst hσ, Formula.subst, ← apply_eq_subst hσ, ← apply_eq_subst hσ]

/-- Operators stay when bound variables are replaced (`apply`). -/
theorem head_apply (hσ : σ.Acyclic) (h : f.isVariable = false) : (σ.apply f).head = f.head := by
  cases f with
  | var id => cases h
  | unary op body => rw [apply_unary hσ, Formula.head, Formula.head]
  | binary op first second => rw [apply_binary hσ, Formula.head, Formula.head]

/-- Bound variables are replaced (`apply`) in each of the `arguments`. -/
theorem arguments_apply (hσ : σ.Acyclic) (h : f.isVariable = false) :
    (σ.apply f).arguments = f.arguments.map σ.apply := by
  cases f with
  | var id => cases h
  | unary op body => rw [apply_unary hσ]; rfl
  | binary op first second => rw [apply_binary hσ]; rfl

/-- The `arguments` of a formula become smaller than the formula, also all of them together. -/
theorem sumOf_size_apply_lt (hσ : σ.Acyclic) (f : Formula) :
    sumOf (fun g => (σ.apply g).size) f.arguments < (σ.apply f).size := by
  cases f with
  | var id => exact Formula.size_pos _
  | unary op body =>
    rw [apply_unary hσ]
    exact Nat.lt_succ_self _
  | binary op first second =>
    rw [apply_binary hσ]
    exact Nat.lt_succ_self _

/-- Without cycles, going from a formula to the `arguments` of what it resolves to comes to an end:
what they become under `apply` gets smaller. -/
theorem Acyclic.wellFounded_arguments (hσ : σ.Acyclic) :
    WellFounded fun g f => g ∈ (σ.resolve f).arguments := by
  refine Subrelation.wf ?_ (measure fun f => (σ.apply f).size).wf
  intro g f h
  have hlt := sumOf_size_apply_lt hσ (σ.resolve f)
  rw [apply_resolve hσ] at hlt
  exact Nat.lt_of_le_of_lt (le_sumOf_of_mem (fun g => (σ.apply g).size) h) hlt

/-- The occurs check `occurs` looks for a variable in what a formula becomes, `σ.apply f`. The two
agree at each depth, by induction on it, and both go to the depth `σ.size`. -/
theorem occurs_eq (σ : Substitution) (id : Nat) (f : Formula) :
    σ.occurs id f = (σ.apply f).anyVariable (· == id) := by
  have hwithin : ∀ depth f,
      σ.occursWithin id depth f = (σ.expand depth f).anyVariable (· == id) := by
    intro depth
    induction depth with
    | zero => exact fun _ => rfl
    | succ depth ih =>
      intro f
      rw [occursWithin, expand, Formula.anyVariable_subst]
      congr 1
      funext other
      cases σ.get? other with
      | none => rfl
      | some g => exact ih g
  exact hwithin σ.size f

/-- It makes no difference to follow a variable before. -/
theorem occurs_resolve (hσ : σ.Acyclic) (id : Nat) (f : Formula) :
    σ.occurs id (σ.resolve f) = σ.occurs id f := by
  rw [occurs_eq, occurs_eq, apply_resolve hσ]

/-- The occurs check goes on with the `arguments` of a compound formula. -/
theorem occurs_eq_any_arguments (hσ : σ.Acyclic) (h : f.isVariable = false) (id : Nat) :
    σ.occurs id f = f.arguments.any (σ.occurs id) := by
  cases f with
  | var other => cases h
  | unary op body =>
    rw [occurs_eq, apply_unary hσ, Formula.anyVariable, ← occurs_eq]
    simp [Formula.arguments]
  | binary op first second =>
    rw [occurs_eq, apply_binary hσ, Formula.anyVariable, ← occurs_eq, ← occurs_eq]
    simp [Formula.arguments]

/-! ## Unification -/

/-- An equation between two formulas gives a variable and what it is to be bound to; of two
variables it is the left one. -/
inductive Orients : Formula → Formula → Nat → Formula → Prop where
  /-- A variable on the left, and another formula on the right. -/
  | left {id : Nat} {f : Formula} (h : f ≠ .var id) : Orients (.var id) f id f
  /-- A variable on the right only. -/
  | right {id : Nat} {f : Formula} (h : f.isVariable = false) : Orients f (.var id) id f

/-- Two different formulas give a variable to bind (`Orients`) unless both are compound. -/
theorem exists_orients_or (h : f ≠ g) :
    (∃ id bound, Orients f g id bound) ∨ f.isVariable = false ∧ g.isVariable = false := by
  cases f with
  | var id => exact .inl ⟨id, g, .left h.symm⟩
  | unary op body =>
    cases g with
    | var id => exact .inl ⟨id, _, .right rfl⟩
    | unary op' body' => exact .inr ⟨rfl, rfl⟩
    | binary op' first second => exact .inr ⟨rfl, rfl⟩
  | binary op first second =>
    cases g with
    | var id => exact .inl ⟨id, _, .right rfl⟩
    | unary op' body' => exact .inr ⟨rfl, rfl⟩
    | binary op' first' second' => exact .inr ⟨rfl, rfl⟩

variable {deeper deeper' : Substitution → Formula → Formula → Unification}

/-- The variable that an equation gives (`Orients`) is bound, or it clashes: `bindOrClash`. The
cases of the left formula are those of `unifyNodes`. -/
theorem unifyNodes_of_orients {id : Nat} {bound : Formula}
    (h : Orients (σ.resolve left) (σ.resolve right) id bound) :
    unifyNodes deeper σ left right = σ.bindOrClash id bound := by
  cases left with
  | var other =>
    simp only [unifyNodes]
    -- Both sides are resolved here, and otherwise only the right one.
    generalize σ.resolve (.var other) = f at h ⊢
    generalize σ.resolve right = g at h ⊢
    cases h with
    | left hne => rw [if_neg (Ne.symm hne)]
    | right hcompound =>
      cases bound with
      | var x => cases hcompound
      | unary op body => rfl
      | binary op first second => rfl
  | unary op body =>
    rw [resolve_unary] at h
    simp only [unifyNodes]
    generalize σ.resolve right = g at h ⊢
    cases h with
    | right _ => rfl
  | binary op first second =>
    rw [resolve_binary] at h
    simp only [unifyNodes]
    generalize σ.resolve right = g at h ⊢
    cases h with
    | right _ => rfl

/-- Where a variable leads to a compound formula, `deeper` goes on with other compound formulas. -/
theorem unifyNodes_var_of_compound {id : Nat} (hne : σ.resolve (.var id) ≠ σ.resolve right)
    (hleft : (σ.resolve (.var id)).isVariable = false)
    (hright : (σ.resolve right).isVariable = false) :
    unifyNodes deeper σ (.var id) right = deeper σ (σ.resolve (.var id)) (σ.resolve right) := by
  simp only [unifyNodes, if_neg hne]
  generalize σ.resolve (.var id) = f at hleft ⊢
  generalize σ.resolve right = g at hright ⊢
  cases f with
  | var x => cases hleft
  | unary op body =>
    cases g with
    | var y => cases hright
    | unary op' body' => rfl
    | binary op' first second => rfl
  | binary op first second =>
    cases g with
    | var y => cases hright
    | unary op' body' => rfl
    | binary op' first' second' => rfl

/-- Going through two formulas node by node (`unifyNodes`) gives the same if the same is done
wherever a variable was followed. The induction is on the left formula; between two arguments,
`Settles` carries the scope along. -/
theorem unifyNodes_congr {depth : Nat}
    (hdeeper : ∀ (σ : Substitution) (f g : Formula), σ.Within scope → InScope scope f →
      InScope scope g → (σ.notAbove scope f).card ≤ depth →
        σ.Settles scope f g (deeper σ f g) ∧ deeper σ f g = deeper' σ f g)
    (hσ : σ.Within scope) (hleft : InScope scope left) (hright : InScope scope right)
    (hdepth : (σ.notAbove scope left).card ≤ depth + 1) :
    unifyNodes deeper σ left right = unifyNodes deeper' σ left right := by
  induction left generalizing σ right with
  | var id =>
    by_cases heq : σ.resolve (.var id) = σ.resolve right
    · simp only [unifyNodes, if_pos heq]
    · rcases exists_orients_or heq with ⟨other, bound, horients⟩ | ⟨hf, hg⟩
      · rw [unifyNodes_of_orients horients, unifyNodes_of_orients horients]
      · rw [unifyNodes_var_of_compound heq hf hg, unifyNodes_var_of_compound heq hf hg]
        have hends := resolve_endsIn hσ.acyclic (.var id)
        refine (hdeeper σ _ _ hσ (hends.inScope hσ hleft)
          ((resolve_endsIn hσ.acyclic right).inScope hσ hright) ?_).2
        -- The variable was followed, and it is one that the depth counts.
        rcases hends.chain with hself | ⟨start, hstart, hchain⟩
        · rw [hself] at hf
          cases hf
        · obtain rfl := Formula.var.inj hstart
          have hfewer := card_notAbove_lt hσ (hleft id (by simp)) hchain
          omega
  | unary p f ih =>
    have hgscope := (resolve_endsIn hσ.acyclic right).inScope hσ hright
    simp only [unifyNodes]
    generalize σ.resolve right = g at hgscope ⊢
    cases g with
    | var y => rfl
    | binary q g₁ g₂ => rfl
    | unary q g =>
      have hargument : unifyNodes deeper σ f g = unifyNodes deeper' σ f g :=
        ih hσ hleft hgscope hdepth
      simp only [hargument]
  | binary p f₁ f₂ ih₁ ih₂ =>
    have hgscope := (resolve_endsIn hσ.acyclic right).inScope hσ hright
    simp only [unifyNodes]
    generalize σ.resolve right = g at hgscope ⊢
    cases g with
    | var y => rfl
    | unary q g => rfl
    | binary q g₁ g₂ =>
      obtain ⟨hleft₁, hleft₂⟩ := inScope_binary.mp hleft
      obtain ⟨hgscope₁, hgscope₂⟩ := inScope_binary.mp hgscope
      have hdepth₂ : (σ.notAbove scope f₂).card ≤ depth + 1 :=
        Nat.le_trans (card_notAbove_le (.refl σ) fun id hid => by simp [hid]) hdepth
      have hsettles := unifyNodes_settles
        (fun σ f g hσ hf hg hdepth => (hdeeper σ f g hσ hf hg hdepth).1) hσ hleft₂ hgscope₂ hdepth₂
      have hsecond : unifyNodes deeper σ f₂ g₂ = unifyNodes deeper' σ f₂ g₂ :=
        ih₂ hσ hleft₂ hgscope₂ hdepth₂
      -- The left arguments are unified with the bindings that the right ones left.
      have hfirst : unifyNodes deeper (unifyNodes deeper σ f₂ g₂).substitution f₁ g₁ =
          unifyNodes deeper' (unifyNodes deeper σ f₂ g₂).substitution f₁ g₁ :=
        ih₁ hsettles.within hleft₁ hgscope₁
          (Nat.le_trans (card_notAbove_le hsettles.grows fun id hid => by simp [hid]) hdepth)
      simp only [← hsecond, hfirst]

/-- All depths that are enough give the same: `unifyWithin` does not change beyond the number of
variables in `notAbove`. -/
theorem unifyWithin_eq_unifyWithin {depth depth' : Nat} (hσ : σ.Within scope)
    (hleft : InScope scope left) (hright : InScope scope right)
    (h : (σ.notAbove scope left).card ≤ depth) (h' : (σ.notAbove scope left).card ≤ depth') :
    unifyWithin depth σ left right = unifyWithin depth' σ left right := by
  have hpos := card_notAbove_pos hσ hleft
  induction depth generalizing depth' σ left right with
  | zero => omega
  | succ depth ih =>
    cases depth' with
    | zero => omega
    | succ depth' =>
      -- Both depths allow for one level less, so the smaller one decides what is compared.
      have hmin : (σ.notAbove scope left).card ≤ min depth depth' + 1 := by omega
      refine unifyNodes_congr ?_ hσ hleft hright hmin
      intro τ f g hτ hf hg hdepth
      exact ⟨unifyWithin_settles hτ hf hg (by omega),
        ih hτ hf hg (by omega) (by omega) (card_notAbove_pos hτ hf)⟩

/-- Two formulas in a scope have their own scope (`scopeOf`) inside of it. -/
theorem scopeOf_subset (hσ : σ.Within scope) (hleft : InScope scope left)
    (hright : InScope scope right) : σ.scopeOf left right ⊆ scope := by
  intro id hid
  simp only [scopeOf, List.mem_toFinset, List.mem_append, List.mem_flatMap] at hid
  rcases hid with (hid | hid) | ⟨⟨other, f⟩, hmem, hid⟩
  · exact hleft id hid
  · exact hright id hid
  · exact hσ.leads other id ⟨f, Std.ExtTreeMap.mem_toList_iff_getElem?_eq_some.mp hmem, hid⟩

/-- Enough depth gives what `unify` gives, which has a depth of its own. -/
theorem unifyWithin_eq_unify {depth : Nat} (hσ : σ.Within scope) (hleft : InScope scope left)
    (hright : InScope scope right) (hdepth : (σ.notAbove scope left).card ≤ depth) :
    unifyWithin depth σ left right = σ.unify left right := by
  obtain ⟨hown, hownleft, hownright⟩ := hσ.acyclic.within_scopeOf left right
  refine unifyWithin_eq_unifyWithin hown hownleft hownright (Nat.le_trans ?_ hdepth)
    (card_notAbove_scopeOf_le σ left right)
  apply Finset.card_le_card
  intro id hid
  obtain ⟨hmem, hpath⟩ := mem_notAbove.mp hid
  exact mem_notAbove.mpr ⟨scopeOf_subset hσ hleft hright hmem, hpath⟩

/-- The equation of `unify` without a depth: it goes through two formulas node by node, and where a
variable was followed it starts again with what the variable leads to. -/
theorem unify_eq_unifyNodes (hσ : σ.Acyclic) (left right : Formula) :
    σ.unify left right = unifyNodes unify σ left right := by
  obtain ⟨hwithin, hleft, hright⟩ := hσ.within_scopeOf left right
  have hdepth := Nat.le_succ_of_le (card_notAbove_scopeOf_le σ left right)
  calc σ.unify left right
      = unifyWithin (σ.room left right + 1) σ left right :=
        (unifyWithin_eq_unify hwithin hleft hright hdepth).symm
    _ = unifyNodes (unifyWithin (σ.room left right)) σ left right := rfl
    _ = unifyNodes unify σ left right := by
        refine unifyNodes_congr ?_ hwithin hleft hright hdepth
        intro τ f g hτ hf hg h
        exact ⟨unifyWithin_settles hτ hf hg h, unifyWithin_eq_unify hτ hf hg h⟩

/-- Formulas with the same modifier are unified as their arguments are; others are not. -/
theorem unify_unary (hσ : σ.Acyclic) (p q : Modifier) (f g : Formula) :
    σ.unify (.unary p f) (.unary q g) = if p = q then σ.unify f g else ⟨false, σ⟩ := by
  rw [unify_eq_unifyNodes hσ, unify_eq_unifyNodes hσ f g]
  simp only [unifyNodes, resolve_unary]

/-- Formulas with the same connective are unified by their right arguments and then their left ones;
others are not. -/
theorem unify_binary (hσ : σ.Acyclic) (p q : Connective) (f₁ f₂ g₁ g₂ : Formula) :
    σ.unify (.binary p f₁ f₂) (.binary q g₁ g₂) =
      if p = q then
        if (σ.unify f₂ g₂).unified then (σ.unify f₂ g₂).substitution.unify f₁ g₁
        else σ.unify f₂ g₂
      else ⟨false, σ⟩ := by
  have hresult := (unify_settles hσ f₂ g₂).within.acyclic
  rw [unify_eq_unifyNodes hσ, unify_eq_unifyNodes hresult f₁ g₁, unify_eq_unifyNodes hσ f₂ g₂]
  simp only [unifyNodes, resolve_binary]

/-- Formulas that resolve to the same (`resolve`) are unified already. By induction on the left
formula, as the parts of the right one are the same. -/
theorem unify_of_resolve_eq (hσ : σ.Acyclic) (h : σ.resolve left = σ.resolve right) :
    σ.unify left right = ⟨true, σ⟩ := by
  induction left generalizing right with
  | var id =>
    rw [unify_eq_unifyNodes hσ]
    simp only [unifyNodes, if_pos h]
  | unary p f ih =>
    rw [resolve_unary] at h
    rw [unify_eq_unifyNodes hσ]
    simp only [unifyNodes, ← h, if_true]
    rw [← unify_eq_unifyNodes hσ, ih rfl]
  | binary p f₁ f₂ ih₁ ih₂ =>
    rw [resolve_binary] at h
    rw [unify_eq_unifyNodes hσ]
    simp only [unifyNodes, ← h, if_true]
    rw [← unify_eq_unifyNodes hσ f₂, ih₂ rfl, if_pos rfl, ← unify_eq_unifyNodes hσ, ih₁ rfl]

/-- The variable that an equation gives (`Orients`) is bound by `unify`, or it clashes. -/
theorem unify_of_orients (hσ : σ.Acyclic) {id : Nat} {bound : Formula}
    (h : Orients (σ.resolve left) (σ.resolve right) id bound) :
    σ.unify left right = σ.bindOrClash id bound := by
  rw [unify_eq_unifyNodes hσ, unifyNodes_of_orients h]

/-- Formulas that resolve to compound formulas (`resolve`) are unified as these are. Unless they are
the same, both calls come to the same case of `unifyNodes`. -/
theorem unify_resolve (hσ : σ.Acyclic) (hleft : (σ.resolve left).isVariable = false)
    (hright : (σ.resolve right).isVariable = false) :
    σ.unify (σ.resolve left) (σ.resolve right) = σ.unify left right := by
  by_cases heq : σ.resolve left = σ.resolve right
  · rw [unify_of_resolve_eq hσ heq, unify_of_resolve_eq hσ (by rw [heq])]
  · rw [unify_eq_unifyNodes hσ left]
    cases left with
    | var id => rw [unifyNodes_var_of_compound heq hleft hright]
    | unary op body =>
      rw [resolve_unary, unify_eq_unifyNodes hσ]
      simp only [unifyNodes, hσ.resolve_resolve]
    | binary op first second =>
      rw [resolve_binary, unify_eq_unifyNodes hσ]
      simp only [unifyNodes, hσ.resolve_resolve]

end Substitution

end Detachment
