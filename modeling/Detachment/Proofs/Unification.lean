import Detachment.Proofs.Bindings

/-! # What unification finds

Unification keeps the bindings free of cycles and cuts the solutions down to those that make the two
formulas equal; it fails only if there are none.

* `Substitution.Settles` says this of one result, `Substitution.unify_settles` of every unification.
* `detach?_eq_some` and `detach?_eq_none` say which formulas a detachment proves.

The variables that can be followed one inside the other are those that do not lead to the formula at
hand yet. There are fewer of them at each level, so the depth given to `Substitution.unifyWithin` is
enough. -/

namespace Detachment

namespace Substitution

open Relation

variable {σ τ : Substitution} {scope : Finset Nat}

/-- The substitution `τ` has all bindings of `σ`. -/
def Grows (σ τ : Substitution) : Prop :=
  ∀ id f, σ.get? id = some f → τ.get? id = some f

/-- Bindings stay as they are. -/
theorem Grows.refl (σ : Substitution) : σ.Grows σ := fun _ _ h => h

/-- Bindings are kept over several steps. -/
theorem Grows.trans {ρ : Substitution} (h : σ.Grows τ) (h' : τ.Grows ρ) : σ.Grows ρ :=
  fun id f hf => h' id f (h id f hf)

/-- Paths along `Leads` are kept as bindings are. -/
theorem Grows.transGen (h : σ.Grows τ) {a b : Nat} (hpath : TransGen σ.Leads a b) :
    TransGen τ.Leads a b :=
  TransGen.mono (fun a _ ⟨f, hf, hb⟩ => ⟨f, h a f hf, hb⟩) a b hpath

/-- There are no cycles, and bound formulas hold variables of the `scope` only. -/
structure Within (σ : Substitution) (scope : Finset Nat) : Prop where
  /-- There are no cycles. -/
  acyclic : σ.Acyclic
  /-- Bindings lead into the scope. -/
  leads : ∀ a b, σ.Leads a b → b ∈ scope

/-- All variables of a formula belong to the `scope`. -/
def InScope (scope : Finset Nat) (f : Formula) : Prop :=
  ∀ id ∈ f.occurrences, id ∈ scope

/-- The variables of a formula with two arguments are those of the arguments, for `InScope`. -/
theorem inScope_binary {op : Connective} {f g : Formula} :
    InScope scope (.binary op f g) ↔ InScope scope f ∧ InScope scope g := by
  simp only [InScope, Formula.occurrences_binary, List.mem_append, or_imp, forall_and]

/-- The end of a chain (`EndsIn`) belongs to the scope of its start. -/
theorem EndsIn.inScope {f g : Formula} (h : σ.EndsIn f g) (hσ : σ.Within scope)
    (hf : InScope scope f) : InScope scope g := by
  rcases h.chain with rfl | ⟨id, rfl, hchain⟩
  · exact hf
  · intro other hother
    obtain ⟨last, -, hlast⟩ := TransGen.tail'_iff.mp (hchain other hother)
    exact hσ.leads last other hlast

/-- What a unification made of a substitution: the bindings are kept and still without cycles, and
the solutions (`Solves`) are those that make the two formulas equal. -/
structure Settles (σ : Substitution) (scope : Finset Nat) (left right : Formula)
    (result : Unification) : Prop where
  /-- There are still no cycles, and the scope is the same. -/
  within : result.substitution.Within scope
  /-- Bindings are kept. -/
  grows : σ.Grows result.substitution
  /-- Success leaves the solutions that make the formulas equal. -/
  unified : result.unified = true →
    ∀ s, Solves s result.substitution ↔ Solves s σ ∧ left.subst s = right.subst s
  /-- Failure means that there are none. -/
  clash : result.unified = false → ∀ s, Solves s σ → left.subst s ≠ right.subst s

/-- A result that `Settles` two formulas does so for formulas that no solution tells apart from
them. -/
theorem Settles.congr {left right left' right' : Formula} {result : Unification}
    (h : σ.Settles scope left right result)
    (hleft : ∀ s, Solves s σ → left'.subst s = left.subst s)
    (hright : ∀ s, Solves s σ → right'.subst s = right.subst s) :
    σ.Settles scope left' right' result := by
  refine ⟨h.within, h.grows, ?_, ?_⟩
  · intro hunified s
    rw [h.unified hunified s]
    refine and_congr_right fun hs => ?_
    rw [hleft s hs, hright s hs]
  · intro hclash s hs
    rw [hleft s hs, hright s hs]
    exact h.clash hclash s hs

/-- A result that `Settles` two formulas does so for the formulas the other way round. -/
theorem Settles.symm {left right : Formula} {result : Unification}
    (h : σ.Settles scope left right result) : σ.Settles scope right left result := by
  refine ⟨h.within, h.grows, ?_, ?_⟩
  · intro hunified s
    rw [h.unified hunified s, eq_comm]
  · intro hclash s hs
    exact (h.clash hclash s hs).symm

/-- Nothing is to be done for formulas that no solution tells apart: `⟨true, σ⟩` settles them. -/
theorem settles_of_subst_eq {left right : Formula} (hσ : σ.Within scope)
    (h : ∀ s, Solves s σ → left.subst s = right.subst s) : σ.Settles scope left right ⟨true, σ⟩ :=
  ⟨hσ, .refl σ, fun _ s => ⟨fun hs => ⟨hs, h s hs⟩, And.left⟩, by simp⟩

/-- Nothing can be done for formulas that no solution makes equal: `⟨false, σ⟩` settles them. -/
theorem settles_of_subst_ne {left right : Formula} (hσ : σ.Within scope)
    (h : ∀ s, Solves s σ → left.subst s ≠ right.subst s) :
    σ.Settles scope left right ⟨false, σ⟩ :=
  ⟨hσ, .refl σ, by simp, fun _ => h⟩

/-- Arguments under the same modifier are settled with the formulas. -/
theorem Settles.unary {p : Modifier} {f g : Formula} {result : Unification}
    (h : σ.Settles scope f g result) : σ.Settles scope (.unary p f) (.unary p g) result := by
  refine ⟨h.within, h.grows, ?_, ?_⟩
  · intro hunified s
    rw [h.unified hunified s]
    simp only [Formula.subst, Formula.unary.injEq, true_and]
  · intro hclash s hs heq
    exact h.clash hclash s hs (Formula.unary.inj heq).2

/-- Left arguments settled after the right ones, with the bindings made there, settle the
formulas. -/
theorem Settles.binary {p : Connective} {f₁ f₂ g₁ g₂ : Formula} {result result' : Unification}
    (h : σ.Settles scope f₂ g₂ result) (hunified : result.unified = true)
    (h' : result.substitution.Settles scope f₁ g₁ result') :
    σ.Settles scope (.binary p f₁ f₂) (.binary p g₁ g₂) result' := by
  refine ⟨h'.within, h.grows.trans h'.grows, ?_, ?_⟩
  · intro hunified' s
    rw [h'.unified hunified' s, h.unified hunified s]
    simp only [Formula.subst, Formula.binary.injEq, true_and]
    tauto
  · intro hclash s hs heq
    obtain ⟨-, heq₁, heq₂⟩ := Formula.binary.inj heq
    exact h'.clash hclash s ((h.unified hunified s).mpr ⟨hs, heq₂⟩) heq₁

/-- Right arguments that clash settle the formulas, which then clash, too. -/
theorem Settles.binary_of_clash {p : Connective} {f₁ f₂ g₁ g₂ : Formula} {result : Unification}
    (h : σ.Settles scope f₂ g₂ result) (hclash : ¬result.unified = true) :
    σ.Settles scope (.binary p f₁ f₂) (.binary p g₁ g₂) result := by
  refine ⟨h.within, h.grows, fun hunified => absurd hunified hclash, ?_⟩
  intro hfail s hs heq
  exact h.clash hfail s hs (Formula.binary.inj heq).2.2

/-- Binding an unbound variable, or finding it inside of the formula (`bindOrClash`), settles the
equation between the two. If the variable is found, no solution makes the two equal, by
`subst_ne_of_reaches`. -/
theorem bindOrClash_settles (hσ : σ.Within scope) {id : Nat} (hid : σ.get? id = none)
    {f : Formula} (hf : InScope scope f) (hunbound : ∀ other, f = .var other → σ.get? other = none)
    (hne : f ≠ .var id) : σ.Settles scope (.var id) f (σ.bindOrClash id f) := by
  unfold bindOrClash
  by_cases hocc : σ.occurs id f = true
  · rw [if_pos hocc]
    have hreach := (occurs_iff hσ.acyclic hid f).mp hocc
    apply settles_of_subst_ne hσ
    intro s hs
    refine subst_ne_of_reaches hs ?_ hreach
    -- An unbound variable reaches only itself.
    rintro other rfl
    obtain ⟨first, hfirst, hpath⟩ := hreach
    rw [Formula.occurrences_var, List.mem_singleton] at hfirst
    rw [hfirst] at hpath
    exact hne (congrArg Formula.var (eq_of_reaches_unbound (hunbound other rfl) hpath).symm)
  · rw [if_neg hocc]
    have hreach : ¬σ.Reaches f id := fun h => hocc ((occurs_iff hσ.acyclic hid f).mpr h)
    refine ⟨⟨hσ.acyclic.bind hid hreach, ?_⟩, ?_, fun _ => solves_bind hid f, by simp⟩
    · intro a b hlead
      rcases (leads_bind hid f).mp hlead with ⟨-, hb⟩ | hlead
      · exact hf b hb
      · exact hσ.leads a b hlead
    · intro other g hg
      rw [get?_bind, if_neg]
      · exact hg
      · rintro rfl
        rw [hid] at hg
        cases hg

/-! ## How deep variables are followed -/

open Classical in
/-- The variables of a scope that do not lead to all variables of a formula, in one step or more.
Their number is the depth that is needed. -/
noncomputable def notAbove (σ : Substitution) (scope : Finset Nat) (f : Formula) : Finset Nat :=
  {id ∈ scope | ∃ other ∈ f.occurrences, ¬TransGen σ.Leads id other}

/-- The variables in `notAbove` are in the scope and do not lead to one of the variables of the
formula. -/
theorem mem_notAbove {f : Formula} {id : Nat} :
    id ∈ σ.notAbove scope f ↔
      id ∈ scope ∧ ∃ other ∈ f.occurrences, ¬TransGen σ.Leads id other := by
  simp only [notAbove, Finset.mem_filter]

/-- More bindings and fewer variables leave fewer variables in `notAbove`. -/
theorem card_notAbove_le {f g : Formula} (h : σ.Grows τ)
    (hvars : ∀ id ∈ g.occurrences, id ∈ f.occurrences) :
    (τ.notAbove scope g).card ≤ (σ.notAbove scope f).card := by
  apply Finset.card_le_card
  intro id hid
  obtain ⟨hscope, other, hother, hpath⟩ := mem_notAbove.mp hid
  exact mem_notAbove.mpr ⟨hscope, other, hvars other hother, fun hold => hpath (h.transGen hold)⟩

/-- The variables of a formula do not lead to the formula, as there are no cycles, so `notAbove` is
not empty. -/
theorem card_notAbove_pos (hσ : σ.Within scope) {f : Formula} (hf : InScope scope f) :
    0 < (σ.notAbove scope f).card := by
  obtain ⟨id, hid⟩ := f.exists_mem_occurrences
  exact Finset.card_pos.mpr ⟨id, mem_notAbove.mpr ⟨hf id hid, id, hid, hσ.acyclic id⟩⟩

/-- Following the variable `id` leaves fewer variables in `notAbove`: it leads to all variables of
the formula that it is bound to, and not to itself. -/
theorem card_notAbove_lt (hσ : σ.Within scope) {id : Nat} (hid : id ∈ scope) {f : Formula}
    (hf : ∀ other ∈ f.occurrences, TransGen σ.Leads id other) :
    (σ.notAbove scope f).card < (σ.notAbove scope (.var id)).card := by
  apply Finset.card_lt_card
  rw [Finset.ssubset_iff_of_subset]
  · refine ⟨id, mem_notAbove.mpr ⟨hid, id, by simp, hσ.acyclic id⟩, ?_⟩
    intro hmem
    obtain ⟨-, other, hother, hpath⟩ := mem_notAbove.mp hmem
    exact hpath (hf other hother)
  · intro a ha
    obtain ⟨hscope, other, hother, hpath⟩ := mem_notAbove.mp ha
    refine mem_notAbove.mpr ⟨hscope, id, by simp, fun hold => hpath ?_⟩
    exact hold.trans (hf other hother)

/-! ## Unifying -/

variable {deeper : Substitution → Formula → Formula → Unification} {right : Formula}

/-- A variable on the left is settled if `deeper` settles what it leads to: the variable is bound,
or `deeper` goes on with what both sides resolve to. -/
theorem unifyNodes_var_settles {id : Nat} (hσ : σ.Within scope) (hid : id ∈ scope)
    (hright : InScope scope right)
    (hdeeper : ∀ f g, InScope scope f → InScope scope g →
      (∀ other ∈ f.occurrences, TransGen σ.Leads id other) → σ.Settles scope f g (deeper σ f g)) :
    σ.Settles scope (.var id) right (unifyNodes deeper σ (.var id) right) := by
  have hleft : InScope scope (.var id) := by
    intro other hother
    rw [Formula.occurrences_var, List.mem_singleton] at hother
    rwa [hother]
  have hf := resolve_endsIn hσ.acyclic (.var id)
  have hg := resolve_endsIn hσ.acyclic right
  simp only [unifyNodes]
  generalize σ.resolve (.var id) = f at hf ⊢
  generalize σ.resolve right = g at hg ⊢
  by_cases heq : f = g
  · rw [if_pos heq]
    apply settles_of_subst_eq hσ
    intro s hs
    rw [hf.subst_eq s hs, hg.subst_eq s hs, heq]
  · rw [if_neg heq]
    refine Settles.congr ?_ hf.subst_eq hg.subst_eq
    have hfscope := hf.inScope hσ hleft
    have hgscope := hg.inScope hσ hright
    -- Compound formulas on both sides are left to `deeper`, after `id` was followed.
    have hfollowed : (∀ other, f ≠ .var other) → σ.Settles scope f g (deeper σ f g) := by
      intro hcompound
      rcases hf.chain with rfl | ⟨start, hstart, hchain⟩
      · exact absurd rfl (hcompound id)
      · obtain rfl := Formula.var.inj hstart
        exact hdeeper f g hfscope hgscope hchain
    cases f with
    | var x => exact bindOrClash_settles hσ (hf.unbound x rfl) hgscope hg.unbound (Ne.symm heq)
    | unary p f =>
      cases g with
      | var y => exact (bindOrClash_settles hσ (hg.unbound y rfl) hfscope hf.unbound heq).symm
      | unary q g => exact hfollowed (by rintro other ⟨⟩)
      | binary q g₁ g₂ => exact hfollowed (by rintro other ⟨⟩)
    | binary p f₁ f₂ =>
      cases g with
      | var y => exact (bindOrClash_settles hσ (hg.unbound y rfl) hfscope hf.unbound heq).symm
      | unary q g => exact hfollowed (by rintro other ⟨⟩)
      | binary q g₁ g₂ => exact hfollowed (by rintro other ⟨⟩)

/-- A unary formula on the left is settled by `unifyNodes` if its argument is. The cases are those
of the right formula, once it is resolved. -/
theorem unifyNodes_unary_settles {p : Modifier} {f : Formula} (hσ : σ.Within scope)
    (hleft : InScope scope (.unary p f)) (hright : InScope scope right)
    (hargument : ∀ g, InScope scope g → σ.Settles scope f g (unifyNodes deeper σ f g)) :
    σ.Settles scope (.unary p f) right (unifyNodes deeper σ (.unary p f) right) := by
  have hg := resolve_endsIn hσ.acyclic right
  simp only [unifyNodes]
  generalize σ.resolve right = g at hg ⊢
  refine Settles.congr ?_ (fun _ _ => rfl) hg.subst_eq
  have hgscope := hg.inScope hσ hright
  cases g with
  | var y =>
    exact (bindOrClash_settles hσ (hg.unbound y rfl) hleft (by rintro other ⟨⟩)
      (by rintro ⟨⟩)).symm
  | binary q g₁ g₂ =>
    apply settles_of_subst_ne hσ
    rintro s - ⟨⟩
  | unary q g =>
    dsimp only
    by_cases hpq : p = q
    · subst hpq
      rw [if_pos rfl]
      have hbody : InScope scope g := hgscope
      exact (hargument g hbody).unary
    · rw [if_neg hpq]
      apply settles_of_subst_ne hσ
      intro s _ heq
      exact hpq (Formula.unary.inj heq).1

/-- A binary formula on the left is settled by `unifyNodes` if its right argument is, and its left
argument is with the bindings made there. -/
theorem unifyNodes_binary_settles {p : Connective} {f₁ f₂ : Formula} (hσ : σ.Within scope)
    (hleft : InScope scope (.binary p f₁ f₂)) (hright : InScope scope right)
    (hsecond : ∀ g, InScope scope g → σ.Settles scope f₂ g (unifyNodes deeper σ f₂ g))
    (hfirst : ∀ τ g, τ.Within scope → σ.Grows τ → InScope scope g →
      τ.Settles scope f₁ g (unifyNodes deeper τ f₁ g)) :
    σ.Settles scope (.binary p f₁ f₂) right (unifyNodes deeper σ (.binary p f₁ f₂) right) := by
  have hg := resolve_endsIn hσ.acyclic right
  simp only [unifyNodes]
  generalize σ.resolve right = g at hg ⊢
  -- No solution tells `right` from what it resolves to.
  refine Settles.congr ?_ (fun _ _ => rfl) hg.subst_eq
  have hgscope := hg.inScope hσ hright
  cases g with
  | var y =>
    exact (bindOrClash_settles hσ (hg.unbound y rfl) hleft (by rintro other ⟨⟩)
      (by rintro ⟨⟩)).symm
  | unary q g =>
    apply settles_of_subst_ne hσ
    rintro s - ⟨⟩
  | binary q g₁ g₂ =>
    dsimp only
    by_cases hpq : p = q
    · subst hpq
      rw [if_pos rfl]
      obtain ⟨hgscope₁, hgscope₂⟩ := inScope_binary.mp hgscope
      -- The right arguments come first, and the left ones with the bindings made there.
      have hresult := hsecond g₂ hgscope₂
      generalize unifyNodes deeper σ f₂ g₂ = result at hresult ⊢
      by_cases hunified : result.unified = true
      · rw [if_pos hunified]
        exact hresult.binary hunified (hfirst _ g₁ hresult.within hresult.grows hgscope₁)
      · rw [if_neg hunified]
        exact hresult.binary_of_clash hunified
    · rw [if_neg hpq]
      apply settles_of_subst_ne hσ
      intro s _ heq
      exact hpq (Formula.binary.inj heq).1

/-- Going through two formulas node by node (`unifyNodes`) settles the equation between them, if
`deeper` does so wherever a variable was followed. The induction is on the left formula;
`card_notAbove_lt` pays for a variable that is followed. -/
theorem unifyNodes_settles {depth : Nat} {left : Formula}
    (hdeeper : ∀ (σ : Substitution) (f g : Formula), σ.Within scope → InScope scope f →
      InScope scope g → (σ.notAbove scope f).card ≤ depth → σ.Settles scope f g (deeper σ f g))
    (hσ : σ.Within scope) (hleft : InScope scope left) (hright : InScope scope right)
    (hdepth : (σ.notAbove scope left).card ≤ depth + 1) :
    σ.Settles scope left right (unifyNodes deeper σ left right) := by
  induction left generalizing σ right with
  | var id =>
    have hid : id ∈ scope := hleft id (by simp)
    refine unifyNodes_var_settles hσ hid hright fun f g hf hg hchain => ?_
    -- Following the variable leaves it behind, which is what the depth counts.
    have hfewer := card_notAbove_lt hσ hid hchain
    exact hdeeper σ f g hσ hf hg (by omega)
  | unary p f ih =>
    exact unifyNodes_unary_settles hσ hleft hright fun g hg => ih hσ hleft hg hdepth
  | binary p f₁ f₂ ih₁ ih₂ =>
    obtain ⟨hleft₁, hleft₂⟩ := inScope_binary.mp hleft
    refine unifyNodes_binary_settles hσ hleft hright ?_ ?_
    · intro g hg
      have hvars : ∀ id ∈ f₂.occurrences, id ∈ (Formula.binary p f₁ f₂).occurrences :=
        fun id hid => by simp [hid]
      exact ih₂ hσ hleft₂ hg (Nat.le_trans (card_notAbove_le (.refl σ) hvars) hdepth)
    · intro τ g hτ hgrows hg
      have hvars : ∀ id ∈ f₁.occurrences, id ∈ (Formula.binary p f₁ f₂).occurrences :=
        fun id hid => by simp [hid]
      exact ih₁ hτ hleft₁ hg (Nat.le_trans (card_notAbove_le hgrows hvars) hdepth)

/-- As much depth as there are variables in `notAbove` for the left formula is enough for
`unifyWithin`. The induction is on the depth. -/
theorem unifyWithin_settles {depth : Nat} {left : Formula} (hσ : σ.Within scope)
    (hleft : InScope scope left) (hright : InScope scope right)
    (hdepth : (σ.notAbove scope left).card ≤ depth) :
    σ.Settles scope left right (unifyWithin depth σ left right) := by
  induction depth generalizing σ left right with
  | zero =>
    have := card_notAbove_pos hσ hleft
    omega
  | succ depth ih =>
    rw [unifyWithin]
    exact unifyNodes_settles (fun σ f g hσ hf hg hdepth => ih hσ hf hg hdepth) hσ hleft hright
      hdepth

/-- A formula has no more variables than nodes (`size`). -/
theorem length_occurrences_le (f : Formula) : f.occurrences.length ≤ f.size := by
  induction f with
  | var => exact Nat.le_refl _
  | unary op f ih => exact Nat.le_succ_of_le ih
  | binary op f g ihf ihg =>
    rw [Formula.occurrences_binary, List.length_append, Formula.size]
    omega

/-- The variables of some bound formulas are no more than their nodes (`size`). -/
theorem length_flatMap_occurrences_le (bindings : List (Nat × Formula)) :
    (bindings.flatMap (·.2.occurrences)).length ≤ sumOf (·.2.size) bindings := by
  induction bindings with
  | nil => exact Nat.le_refl _
  | cons b rest ih =>
    rw [List.flatMap_cons, List.length_append, sumOf_cons]
    exact Nat.add_le_add (length_occurrences_le b.2) ih

/-- The variables of two formulas and of everything bound. -/
def scopeOf (σ : Substitution) (left right : Formula) : Finset Nat :=
  (left.occurrences ++ right.occurrences ++ σ.toList.flatMap (·.2.occurrences)).toFinset

/-- There is `room` for all variables of `scopeOf`. -/
theorem card_scopeOf_le (σ : Substitution) (left right : Formula) :
    (σ.scopeOf left right).card ≤ σ.room left right := by
  have hlength := length_flatMap_occurrences_le σ.toList
  have hleft := length_occurrences_le left
  have hright := length_occurrences_le right
  refine Nat.le_trans (List.toFinset_card_le _) ?_
  rw [List.length_append, List.length_append, room]
  omega

/-- Two formulas and everything bound stay inside of their own variables, `scopeOf`. -/
theorem Acyclic.within_scopeOf (hσ : σ.Acyclic) (left right : Formula) :
    σ.Within (σ.scopeOf left right) ∧ InScope (σ.scopeOf left right) left ∧
      InScope (σ.scopeOf left right) right := by
  refine ⟨⟨hσ, ?_⟩, fun id hid => by simp [scopeOf, hid], fun id hid => by simp [scopeOf, hid]⟩
  rintro a b ⟨f, hf, hb⟩
  have hmem : (a, f) ∈ σ.toList := Std.ExtTreeMap.mem_toList_iff_getElem?_eq_some.mpr hf
  simp only [scopeOf, List.mem_toFinset, List.mem_append, List.mem_flatMap]
  exact .inr ⟨(a, f), hmem, hb⟩

/-- There is `room` for all variables in `notAbove`, which is the depth that `unify` is given. -/
theorem card_notAbove_scopeOf_le (σ : Substitution) (left right : Formula) :
    (σ.notAbove (σ.scopeOf left right) left).card ≤ σ.room left right := by
  classical
  exact Nat.le_trans (Finset.card_le_card (Finset.filter_subset _ _)) (card_scopeOf_le σ left right)

/-- The function `unify` settles the equation between two formulas, for bindings without cycles. -/
theorem unify_settles (hσ : σ.Acyclic) (left right : Formula) :
    σ.Settles (σ.scopeOf left right) left right (σ.unify left right) := by
  obtain ⟨hwithin, hleft, hright⟩ := hσ.within_scopeOf left right
  exact unifyWithin_settles hwithin hleft hright (card_notAbove_scopeOf_le σ left right)

end Substitution

/-! ## Detachment -/

/-- The unifier of two formulas (`unifier?`) has no cycles, holds variables of the two formulas
only, and is solved by what makes them equal. -/
theorem unifier?_eq_some {left right : Formula} {σ : Substitution}
    (h : unifier? left right = some σ) :
    σ.Acyclic ∧ (∀ a b, σ.Leads a b → b ∈ left.occurrences ∨ b ∈ right.occurrences) ∧
      ∀ s, Substitution.Solves s σ ↔ left.subst s = right.subst s := by
  have hsettles := Substitution.unify_settles Substitution.acyclic_empty left right
  unfold unifier? at h
  generalize Substitution.empty.unify left right = result at h hsettles
  by_cases hunified : result.unified = true
  · simp only [hunified, if_true, Option.some.injEq] at h
    subst h
    refine ⟨hsettles.within.acyclic, ?_, ?_⟩
    · intro a b hlead
      have hb := hsettles.within.leads a b hlead
      simpa [Substitution.scopeOf, Substitution.toList, Substitution.empty] using hb
    · intro s
      rw [hsettles.unified hunified s]
      exact and_iff_right (Substitution.solves_empty s)
  · simp [hunified] at h

/-- Formulas without a unifier (`unifier?`) are never made equal. -/
theorem unifier?_eq_none {left right : Formula} (h : unifier? left right = none)
    (s : Nat → Formula) : left.subst s ≠ right.subst s := by
  have hsettles := Substitution.unify_settles Substitution.acyclic_empty left right
  unfold unifier? at h
  generalize Substitution.empty.unify left right = result at h hsettles
  by_cases hunified : result.unified = true
  · simp [hunified] at h
  · exact hsettles.clash (Bool.eq_false_iff.mpr hunified) s (Substitution.solves_empty s)

/-- A detachment `detach?` proves the consequents under the replacements that make the antecedent
equal to the minor premise, and it needs no other variables than those of the premises. -/
theorem detach?_eq_some {antecedent consequent minor f : Formula}
    (h : detach? (antecedent.implies consequent) minor = some f) :
    (∀ special, f.Generalizes special ↔
      ∃ s, antecedent.subst s = minor.subst s ∧ consequent.subst s = special) ∧
    ∀ id ∈ f.occurrences,
      id ∈ (antecedent.implies consequent).occurrences ∨ id ∈ minor.occurrences := by
  simp only [detach?, Formula.implication?, Option.map_eq_some_iff] at h
  obtain ⟨σ, hσ, rfl⟩ := h
  obtain ⟨hacyclic, hleads, hsolves⟩ := unifier?_eq_some hσ
  refine ⟨?_, ?_⟩
  · intro special
    constructor
    · rintro ⟨s, rfl⟩
      -- Replacing bound variables first and then by `s` is a solution.
      refine ⟨fun id => (σ.apply (.var id)).subst s, ?_, ?_⟩
      · rw [← hsolves]
        intro id g hg
        show (σ.apply (.var id)).subst s = _
        rw [← Formula.subst_subst, ← Substitution.apply_eq_subst hacyclic,
          Substitution.apply_var_bound hacyclic hg]
      · rw [← Formula.subst_subst, ← Substitution.apply_eq_subst hacyclic]
    · rintro ⟨s, hs, rfl⟩
      exact ⟨s, Substitution.subst_apply ((hsolves s).mpr hs) consequent⟩
  · intro id hid
    obtain ⟨first, hfirst, hpath⟩ := Substitution.reaches_of_mem_apply hid
    rcases hpath.cases_tail with rfl | ⟨last, -, hlast⟩
    · exact .inl (by simp [hfirst])
    · rcases hleads last id hlast with hid | hid
      · exact .inl (by simp [hid])
      · exact .inr hid

/-- A detachment `detach?` of an implication fails only if nothing makes its antecedent equal to the
minor premise. -/
theorem detach?_eq_none {antecedent consequent minor : Formula}
    (h : detach? (antecedent.implies consequent) minor = none) (s : Nat → Formula) :
    antecedent.subst s ≠ minor.subst s := by
  simp only [detach?, Formula.implication?, Option.map_eq_none_iff] at h
  exact unifier?_eq_none h s

/-- Two formulas share no variable. -/
def Formula.Apart (f g : Formula) : Prop :=
  ∀ id ∈ f.occurrences, id ∉ g.occurrences

/-- For premises that share no variable (`Apart`), one replacement for both does as much as two. Two
are joined by asking which of the formulas a variable occurs in. -/
theorem exists_subst_iff {antecedent consequent minor special : Formula}
    (hapart : (antecedent.implies consequent).Apart minor) :
    (∃ s, antecedent.subst s = minor.subst s ∧ consequent.subst s = special) ↔
      ∃ f : Formula, (antecedent.implies consequent).Generalizes (f.implies special) ∧
        minor.Generalizes f := by
  constructor
  · rintro ⟨s, hs, rfl⟩
    exact ⟨antecedent.subst s, ⟨s, rfl⟩, ⟨s, hs.symm⟩⟩
  · rintro ⟨f, ⟨s, hs⟩, ⟨t, ht⟩⟩
    let both : Nat → Formula := fun id =>
      if id ∈ (antecedent.implies consequent).occurrences then s id else t id
    have hmajor : (antecedent.implies consequent).subst both = f.implies special := by
      rw [← hs]
      exact Formula.subst_congr fun id hid => if_pos hid
    have hminor : minor.subst both = f := by
      rw [← ht]
      exact Formula.subst_congr fun id hid => if_neg fun hmem => hapart id hmem hid
    obtain ⟨-, hantecedent, hconsequent⟩ := Formula.binary.inj hmajor
    exact ⟨both, hantecedent.trans hminor.symm, hconsequent⟩

/-- A detachment of premises that share no variable (`Apart`) proves what instances of the premises
prove: its result is the most general one. -/
theorem generalizes_iff_of_detach? {antecedent consequent minor f : Formula}
    (h : detach? (antecedent.implies consequent) minor = some f)
    (hapart : (antecedent.implies consequent).Apart minor) (special : Formula) :
    f.Generalizes special ↔
      ∃ g : Formula, (antecedent.implies consequent).Generalizes (g.implies special) ∧
        minor.Generalizes g := by
  rw [(detach?_eq_some h).1 special, exists_subst_iff hapart]

/-- A detachment of premises that share no variable (`Apart`) fails only if no instances of them
fit. -/
theorem not_generalizes_of_detach? {antecedent consequent minor : Formula}
    (h : detach? (antecedent.implies consequent) minor = none)
    (hapart : (antecedent.implies consequent).Apart minor) (g special : Formula)
    (hmajor : (antecedent.implies consequent).Generalizes (g.implies special)) :
    ¬minor.Generalizes g := by
  intro hminor
  obtain ⟨s, hs, -⟩ := (exists_subst_iff hapart).mpr ⟨g, hmajor, hminor⟩
  exact detach?_eq_none h s hs

/-- Premises that share no variable (`Apart`) can be detached if some instances of them fit, and
what follows from these is an instance of the conclusion. -/
theorem exists_detach?_of_generalizes {antecedent consequent minor g special : Formula}
    (hapart : (antecedent.implies consequent).Apart minor)
    (hmajor : (antecedent.implies consequent).Generalizes (g.implies special))
    (hminor : minor.Generalizes g) :
    ∃ f, detach? (antecedent.implies consequent) minor = some f ∧ f.Generalizes special := by
  cases hresult : detach? (antecedent.implies consequent) minor with
  | none => exact absurd hminor (not_generalizes_of_detach? hresult hapart g special hmajor)
  | some f =>
    exact ⟨f, rfl, (generalizes_iff_of_detach? hresult hapart special).mpr ⟨g, hmajor, hminor⟩⟩

/-- A detachment with a major premise that is no implication (`implication?`) fails. -/
theorem detach?_of_implication?_eq_none {f : Formula} (h : f.implication? = none) (g : Formula) :
    detach? f g = none := by
  rw [detach?, h]

/-- The implications are the formulas that come apart as implications (`implication?`). -/
theorem Formula.eq_implies_of_implication? {f : Formula} (h : f.implication? ≠ none) :
    ∃ a c : Formula, f = a.implies c := by
  cases f with
  | var => exact absurd rfl h
  | unary => exact absurd rfl h
  | binary op a c =>
    cases op
    case implication => exact ⟨a, c, rfl⟩
    all_goals exact absurd rfl h

/-- The canonical form of a detachment depends on the canonical forms of its premises only, as long
as they share no variable (`Apart`): premises with the same canonical forms have the same
instances. -/
theorem detach?_canonical {f f' g g' : Formula} (hf : f.canonical = f'.canonical)
    (hg : g.canonical = g'.canonical) (hapart : f.Apart g) (hapart' : f'.Apart g') :
    (detach? f g).map Formula.canonical = (detach? f' g').map Formula.canonical := by
  have hinstF : ∀ special, f.Generalizes special ↔ f'.Generalizes special := by
    intro special
    rw [← Formula.canonical_generalizes_iff, hf, Formula.canonical_generalizes_iff]
  have hinstG : ∀ special, g.Generalizes special ↔ g'.Generalizes special := by
    intro special
    rw [← Formula.canonical_generalizes_iff, hg, Formula.canonical_generalizes_iff]
  have hkind : f.implication?.isSome = f'.implication?.isSome := by
    rw [← Formula.implication?_canonical f, hf, Formula.implication?_canonical]
  by_cases himp : f.implication? = none
  · have himp' : f'.implication? = none := by
      rw [himp] at hkind
      exact Option.isNone_iff_eq_none.mp (by rw [← Option.not_isSome, ← hkind]; rfl)
    rw [detach?_of_implication?_eq_none himp, detach?_of_implication?_eq_none himp']
  · have himp' : f'.implication? ≠ none := by
      rw [← Option.isSome_iff_ne_none, ← hkind, Option.isSome_iff_ne_none]
      exact himp
    obtain ⟨a, c, rfl⟩ := Formula.eq_implies_of_implication? himp
    obtain ⟨a', c', rfl⟩ := Formula.eq_implies_of_implication? himp'
    cases h : detach? (a.implies c) g with
    | none =>
      cases h' : detach? (a'.implies c') g' with
      | none => rfl
      | some k' =>
        -- What the second detachment proves would be proved by the first premises, too.
        obtain ⟨x, hmajor, hminor⟩ :=
          (generalizes_iff_of_detach? h' hapart' k').mp (.refl k')
        exact absurd ((hinstG x).mpr hminor)
          (not_generalizes_of_detach? h hapart x k' ((hinstF _).mpr hmajor))
    | some k =>
      have hk := generalizes_iff_of_detach? h hapart
      cases h' : detach? (a'.implies c') g' with
      | none =>
        obtain ⟨x, hmajor, hminor⟩ := (hk k).mp (.refl k)
        exact absurd ((hinstG x).mp hminor)
          (not_generalizes_of_detach? h' hapart' x k ((hinstF _).mp hmajor))
      | some k' =>
        refine congrArg some (Formula.canonical_eq_of_instances fun special => ?_)
        rw [hk special, generalizes_iff_of_detach? h' hapart' special]
        simp only [hinstF, hinstG]

end Detachment
