import Detachment.Proofs.UnlimitedDepth

/-! # Unification step by step

Unification without a limit on its depth: a list of equations is worked off from its front. An
equation whose sides resolve to the same is dropped, one that gives a variable becomes a binding,
and one between formulas with the same operator is replaced by the equations between their
arguments.

* `Agenda` holds the equations that are left and the bindings made so far. `Agenda.Step` is one
  step, and `Agenda.Clashes` says that the next equation cannot be satisfied.
* `Agenda.acc_step` says that there are no endless runs. A step binds one more variable of a finite
  scope, or what the formulas that are left become gets smaller.
* `Agenda.outcome_of_reflTransGen` says that a run does not change what comes of the equations.
* `Substitution.unifyEach_terminates` says that after any unifications, successful or not,
  resolving, the occurs check, replacing and unifying all come to an end. -/

namespace Detachment

open Relation

/-! ## Steps -/

/-- The equations still to be worked off, with the bindings made so far. -/
structure Agenda where
  /-- The bindings made so far. -/
  substitution : Substitution
  /-- The equations that are left, the next one first. -/
  pairs : List (Formula × Formula)

namespace Agenda

open Substitution

/-- Work off one equation. Equal compound formulas may be dropped or taken apart. -/
inductive Step : Agenda → Agenda → Prop where
  /-- The sides are the same. -/
  | drop {σ : Substitution} {left right : Formula} {rest : List (Formula × Formula)}
      (h : σ.resolve left = σ.resolve right) : Step ⟨σ, (left, right) :: rest⟩ ⟨σ, rest⟩
  /-- A variable is bound that does not occur in its formula. -/
  | bind {σ : Substitution} {left right : Formula} {rest : List (Formula × Formula)} {id : Nat}
      {bound : Formula} (h : Orients (σ.resolve left) (σ.resolve right) id bound)
      (hoccurs : σ.occurs id bound = false) :
      Step ⟨σ, (left, right) :: rest⟩ ⟨σ.bind id bound, rest⟩
  /-- Formulas with the same operator are taken apart; their last arguments come first. -/
  | descend {σ : Substitution} {left right : Formula} {rest : List (Formula × Formula)}
      (hleft : (σ.resolve left).isVariable = false) (hright : (σ.resolve right).isVariable = false)
      (hhead : (σ.resolve left).head = (σ.resolve right).head) :
      Step ⟨σ, (left, right) :: rest⟩
        ⟨σ, ((σ.resolve left).arguments.zip (σ.resolve right).arguments).reverse ++ rest⟩

/-- The next equation cannot be satisfied. -/
inductive Clashes : Agenda → Prop where
  /-- A variable occurs in the formula that it would be bound to. -/
  | occurs {σ : Substitution} {left right : Formula} {rest : List (Formula × Formula)} {id : Nat}
      {bound : Formula} (h : Orients (σ.resolve left) (σ.resolve right) id bound)
      (hoccurs : σ.occurs id bound = true) : Clashes ⟨σ, (left, right) :: rest⟩
  /-- The operators are different. -/
  | heads {σ : Substitution} {left right : Formula} {rest : List (Formula × Formula)}
      (hleft : (σ.resolve left).isVariable = false) (hright : (σ.resolve right).isVariable = false)
      (hhead : (σ.resolve left).head ≠ (σ.resolve right).head) :
      Clashes ⟨σ, (left, right) :: rest⟩

/-- Work goes on (`Step`) until no equation is left or one cannot be satisfied (`Clashes`). The
first equation decides: its sides are the same, one is a variable, or both are compound. -/
theorem step_or_clashes (a : Agenda) : (∃ b, Step a b) ∨ a.pairs = [] ∨ a.Clashes := by
  obtain ⟨σ, pairs⟩ := a
  cases pairs with
  | nil => exact .inr (.inl rfl)
  | cons pair rest =>
    obtain ⟨left, right⟩ := pair
    by_cases heq : σ.resolve left = σ.resolve right
    · exact .inl ⟨_, .drop heq⟩
    · rcases exists_orients_or heq with ⟨id, bound, horients⟩ | ⟨hleft, hright⟩
      · cases hoccurs : σ.occurs id bound with
        | false => exact .inl ⟨_, .bind horients hoccurs⟩
        | true => exact .inr (.inr (.occurs horients hoccurs))
      · by_cases hhead : (σ.resolve left).head = (σ.resolve right).head
        · exact .inl ⟨_, .descend hleft hright hhead⟩
        · exact .inr (.inr (.heads hleft hright hhead))

/-! ## What a step preserves -/

/-- There are no cycles, and all variables belong to the `scope`. -/
structure Within (a : Agenda) (scope : Finset Nat) : Prop where
  /-- The bindings have no cycles and stay in the scope. -/
  bindings : a.substitution.Within scope
  /-- The equations stay in the scope. -/
  pairs : ∀ pair ∈ a.pairs, InScope scope pair.1 ∧ InScope scope pair.2

variable {a b : Agenda} {σ : Substitution} {scope : Finset Nat} {left right bound : Formula}
  {id : Nat} {rest : List (Formula × Formula)}

/-- The next equation and the others stay in the scope: what both sides resolve to is `InScope`. -/
theorem Within.uncons (h : Within ⟨σ, (left, right) :: rest⟩ scope) :
    InScope scope (σ.resolve left) ∧ InScope scope (σ.resolve right) ∧
      Within ⟨σ, rest⟩ scope := by
  obtain ⟨⟨hleft, hright⟩, hrest⟩ := List.forall_mem_cons.mp h.pairs
  have hσ := h.bindings
  exact ⟨(resolve_endsIn hσ.acyclic left).inScope hσ hleft,
    (resolve_endsIn hσ.acyclic right).inScope hσ hright, hσ, hrest⟩

/-- A variable to bind (`Orients`) is unbound and in the scope, and binding it settles its
equation. -/
theorem Within.orients (ha : Within ⟨σ, (left, right) :: rest⟩ scope)
    (h : Orients (σ.resolve left) (σ.resolve right) id bound) :
    id ∈ scope ∧ σ.get? id = none ∧ σ.Settles scope (.var id) bound (σ.bindOrClash id bound) := by
  obtain ⟨hleft, hright, -⟩ := ha.uncons
  have hσ := ha.bindings
  have hf := (resolve_endsIn hσ.acyclic left).unbound
  have hg := (resolve_endsIn hσ.acyclic right).unbound
  generalize σ.resolve left = f at h hleft hf
  generalize σ.resolve right = g at h hright hg
  cases h with
  | left hne =>
    exact ⟨hleft id (by simp), hf id rfl, bindOrClash_settles hσ (hf id rfl) hright hg hne⟩
  | right hcompound =>
    refine ⟨hright id (by simp), hg id rfl, bindOrClash_settles hσ (hg id rfl) hleft hf ?_⟩
    rintro rfl
    cases hcompound

/-- A step makes no cycle and stays in the scope: `Within` is kept. For `descend`, the arguments
have no other variables than the formulas. -/
theorem Step.within (h : Step a b) (ha : a.Within scope) : b.Within scope := by
  cases h with
  | drop h => exact ha.uncons.2.2
  | bind h hoccurs =>
    -- The occurs check has found nothing, so the variable is bound and closes no cycle.
    obtain ⟨-, -, hsettles⟩ := ha.orients h
    rw [bindOrClash, hoccurs] at hsettles
    exact ⟨hsettles.within, ha.uncons.2.2.pairs⟩
  | descend hcompound hcompound' hhead =>
    obtain ⟨hleft, hright, hrest⟩ := ha.uncons
    refine ⟨hrest.bindings, fun pair hpair => ?_⟩
    rcases List.mem_append.mp hpair with hpair | hpair
    · obtain ⟨hfirst, hsecond⟩ := List.of_mem_zip (List.mem_reverse.mp hpair)
      exact ⟨fun id hid => hleft id (Formula.mem_occurrences_of_mem_arguments hfirst hid),
        fun id hid => hright id (Formula.mem_occurrences_of_mem_arguments hsecond hid)⟩
    · exact hrest.pairs pair hpair

/-! ## Runs are finite -/

/-- The variables of a scope that are not bound. -/
def unbound (σ : Substitution) (scope : Finset Nat) : Finset Nat :=
  scope.filter fun id => (σ.get? id).isNone

/-- Binding a variable of the scope (`bind`) leaves one less in `unbound`. The others stay unbound
or bound, so one set is a proper part of the other. -/
theorem card_unbound_bind_lt (hid : id ∈ scope) (h : σ.get? id = none) (f : Formula) :
    (unbound (σ.bind id f) scope).card < (unbound σ scope).card := by
  apply Finset.card_lt_card
  rw [Finset.ssubset_iff_of_subset]
  · exact ⟨id, by simp [unbound, hid, h], by simp [unbound, get?_bind]⟩
  · intro other hother
    simp only [unbound, Finset.mem_filter, get?_bind] at hother ⊢
    obtain ⟨hscope, hnone⟩ := hother
    by_cases heq : other = id
    · rw [if_pos heq] at hnone
      cases hnone
    · rw [if_neg heq] at hnone
      exact ⟨hscope, hnone⟩

/-- The nodes of what the two sides of an equation become under `apply`. -/
def weight (σ : Substitution) (pair : Formula × Formula) : Nat :=
  (σ.apply pair.1).size + (σ.apply pair.2).size

/-- Equations between the members of two lists weigh no more than these: `zip` may leave members
out. -/
theorem sumOf_weight_zip_le (σ : Substitution) (lefts rights : List Formula) :
    sumOf (weight σ) (lefts.zip rights) ≤
      sumOf (fun f => (σ.apply f).size) lefts + sumOf (fun f => (σ.apply f).size) rights := by
  induction lefts generalizing rights with
  | nil => exact Nat.zero_le _
  | cons f lefts ih =>
    cases rights with
    | nil => exact Nat.zero_le _
    | cons g rights =>
      have := ih rights
      simp only [List.zip_cons_cons, sumOf_cons, weight]
      omega

/-- The equations between `arguments` weigh less than the one between the formulas. -/
theorem sumOf_weight_arguments_lt (hσ : σ.Acyclic) (f g : Formula) :
    sumOf (weight σ) (f.arguments.zip g.arguments).reverse < weight σ (f, g) := by
  rw [sumOf_reverse]
  exact Nat.lt_of_le_of_lt (sumOf_weight_zip_le σ f.arguments g.arguments)
    (Nat.add_lt_add (sumOf_size_apply_lt hσ f) (sumOf_size_apply_lt hσ g))

/-- How much is left: the variables that can be bound (`unbound`), and then the `weight` of the
equations. -/
def rank (scope : Finset Nat) (a : Agenda) : Nat × Nat :=
  ((unbound a.substitution scope).card, sumOf (weight a.substitution) a.pairs)

/-- After a step less is left: `rank` gets smaller in the lexicographic order. -/
theorem Step.rank_lt (h : Step a b) (ha : a.Within scope) :
    Prod.Lex (· < ·) (· < ·) (b.rank scope) (a.rank scope) := by
  cases h with
  | drop h =>
    apply Prod.Lex.right
    rw [sumOf_cons]
    exact Nat.lt_add_of_pos_left (Nat.add_pos_left (Formula.size_pos _) _)
  | bind h hoccurs =>
    -- The other equations may weigh more with the new binding, so the variables count first.
    obtain ⟨hscope, hunbound, -⟩ := ha.orients h
    exact .left _ _ (card_unbound_bind_lt hscope hunbound _)
  | @descend σ left right rest hleft hright hhead =>
    -- Following bindings can lead to larger formulas, but not to any that become larger.
    have hσ := ha.bindings.acyclic
    have hlt := sumOf_weight_arguments_lt hσ (σ.resolve left) (σ.resolve right)
    apply Prod.Lex.right
    rw [sumOf_append, sumOf_cons]
    rw [weight, apply_resolve hσ, apply_resolve hσ] at hlt
    exact Nat.add_lt_add_right hlt _

/-- There are no endless runs of `Step`, by `rank_lt`. -/
theorem acc_step (ha : a.Within scope) : Acc (fun b a => Step a b) a := by
  have hrank : WellFounded (InvImage (Prod.Lex (· < ·) (· < ·)) (rank scope)) :=
    InvImage.wf (rank scope) (WellFounded.prod_lex wellFounded_lt wellFounded_lt)
  induction a using hrank.induction with
  | _ a ih => exact .intro a fun b hstep => ih b (hstep.rank_lt ha) (hstep.within ha)

/-! ## What comes of the equations -/

/-- Unify the two sides of each pair in turn (`unify`), up to the first that cannot be unified. -/
def unifyInTurn (σ : Substitution) : List (Formula × Formula) → Unification
  | [] => ⟨true, σ⟩
  | (left, right) :: rest =>
    let first := σ.unify left right
    if first.unified then unifyInTurn first.substitution rest else first

/-- The first pair is unified first, and the others with its bindings. -/
theorem unifyInTurn_cons (σ : Substitution) (left right : Formula)
    (rest : List (Formula × Formula)) :
    unifyInTurn σ ((left, right) :: rest) =
      if (σ.unify left right).unified then unifyInTurn (σ.unify left right).substitution rest
      else σ.unify left right := rfl

/-- One pair is unified by `unify`. -/
theorem unifyInTurn_singleton (σ : Substitution) (left right : Formula) :
    unifyInTurn σ [(left, right)] = σ.unify left right := by
  rw [unifyInTurn_cons]
  generalize σ.unify left right = result
  obtain ⟨_ | _, τ⟩ := result
  · rfl
  · rfl

/-- Equations behind others are unified with the bindings that these leave, if they can be
unified. -/
theorem unifyInTurn_append (σ : Substitution) (first second : List (Formula × Formula)) :
    unifyInTurn σ (first ++ second) =
      if (unifyInTurn σ first).unified then unifyInTurn (unifyInTurn σ first).substitution second
      else unifyInTurn σ first := by
  induction first generalizing σ with
  | nil => simp [unifyInTurn]
  | cons pair rest ih =>
    obtain ⟨left, right⟩ := pair
    rw [List.cons_append, unifyInTurn_cons, unifyInTurn_cons]
    by_cases h : (σ.unify left right).unified = true
    · simp only [if_pos h, ih]
    · simp only [if_neg h]

/-- Compound formulas with the same operator are unified by their `arguments`, from the last to the
first (`unifyInTurn`). -/
theorem unify_of_compound (hσ : σ.Acyclic) (hleft : (σ.resolve left).isVariable = false)
    (hright : (σ.resolve right).isVariable = false) :
    σ.unify left right =
      if (σ.resolve left).head = (σ.resolve right).head then
        unifyInTurn σ ((σ.resolve left).arguments.zip (σ.resolve right).arguments).reverse
      else ⟨false, σ⟩ := by
  rw [← unify_resolve hσ hleft hright]
  generalize σ.resolve left = f at hleft ⊢
  generalize σ.resolve right = g at hright ⊢
  cases f with
  | var id => cases hleft
  | unary p f =>
    cases g with
    | var id => cases hright
    | unary q g => simp [unify_unary hσ, Formula.head, Formula.arguments, unifyInTurn_singleton]
    | binary q g₁ g₂ =>
      simp [unify_eq_unifyNodes hσ, unifyNodes, Formula.head]
  | binary p f₁ f₂ =>
    cases g with
    | var id => cases hright
    | unary q g =>
      simp [unify_eq_unifyNodes hσ, unifyNodes, Formula.head]
    | binary q g₁ g₂ =>
      have harguments : unifyInTurn σ [(f₂, g₂), (f₁, g₁)] =
          if (σ.unify f₂ g₂).unified then (σ.unify f₂ g₂).substitution.unify f₁ g₁
          else σ.unify f₂ g₂ := by
        rw [unifyInTurn_cons, unifyInTurn_singleton]
      simp [unify_binary hσ, Formula.head, Formula.arguments, harguments]

/-- What comes of the equations of an agenda, by `unifyInTurn`. -/
def outcome (a : Agenda) : Unification :=
  unifyInTurn a.substitution a.pairs

/-- A `Step` does not change what comes of the equations. -/
theorem Step.outcome_eq (h : Step a b) (ha : a.substitution.Acyclic) : b.outcome = a.outcome := by
  cases h with
  | drop h => simp only [outcome, unifyInTurn, unify_of_resolve_eq ha h, if_true]
  | bind h hoccurs =>
    simp [outcome, unifyInTurn, unify_of_orients ha h, bindOrClash, hoccurs]
  | descend hleft hright hhead =>
    simp only [outcome, unifyInTurn, unifyInTurn_append, unify_of_compound ha hleft hright,
      if_pos hhead]

/-- An equation that cannot be satisfied (`Clashes`) ends in failure, with the bindings made so
far. -/
theorem Clashes.outcome_eq (h : a.Clashes) (ha : a.substitution.Acyclic) :
    a.outcome = ⟨false, a.substitution⟩ := by
  cases h with
  | occurs h hoccurs =>
    simp [outcome, unifyInTurn, unify_of_orients ha h, bindOrClash, hoccurs]
  | heads hleft hright hhead =>
    simp [outcome, unifyInTurn, unify_of_compound ha hleft hright, if_neg hhead]

/-- Over a whole run of `Step`, all stays in the scope and what comes of the equations does not
change. -/
theorem outcome_of_reflTransGen (h : ReflTransGen Step a b) (ha : a.Within scope) :
    b.Within scope ∧ b.outcome = a.outcome := by
  induction h with
  | refl => exact ⟨ha, rfl⟩
  | tail _ hstep ih =>
    obtain ⟨hwithin, houtcome⟩ := ih
    exact ⟨hstep.within hwithin, (hstep.outcome_eq hwithin.bindings.acyclic).trans houtcome⟩

end Agenda

namespace Substitution

/-! ## Everything comes to an end -/

variable {σ : Substitution}

/-- Everything that goes on along the bindings comes to an end, and its result is that of the
function with a limited depth. -/
structure Terminates (σ : Substitution) : Prop where
  /-- No variable leads back to itself. -/
  acyclic : σ.Acyclic
  /-- Chains of bindings are finite. -/
  chains : WellFounded fun g f => σ.Follows f g
  /-- Resolving a formula goes to the end of its chain. -/
  resolve : ∀ f, ReflTransGen σ.Follows f (σ.resolve f) ∧ ∀ g, ¬σ.Follows (σ.resolve f) g
  /-- Going on with the arguments of what a formula resolves to comes to an end. -/
  arguments : WellFounded fun g f => g ∈ (σ.resolve f).arguments
  /-- The occurs check compares a variable that a formula resolves to, and otherwise goes on with
  the arguments. -/
  occurs : ∀ id f,
    (∀ other, σ.resolve f = .var other → σ.occurs id f = (other == id)) ∧
    ((σ.resolve f).isVariable = false →
      σ.occurs id f = (σ.resolve f).arguments.any (σ.occurs id))
  /-- Replacing keeps a variable that a formula resolves to, and otherwise goes on with the
  arguments. -/
  apply : ∀ f,
    (∀ id, σ.resolve f = .var id → σ.apply f = .var id) ∧
    ((σ.resolve f).isVariable = false →
      (σ.apply f).head = (σ.resolve f).head ∧
      (σ.apply f).arguments = (σ.resolve f).arguments.map σ.apply)
  /-- Working off an equation has no endless runs, and a run that cannot go on has found what
  unification gives. -/
  unify : ∀ left right,
    Acc (fun b a => Agenda.Step a b) ⟨σ, [(left, right)]⟩ ∧
    ∀ a, ReflTransGen Agenda.Step ⟨σ, [(left, right)]⟩ a →
      (∃ b, Agenda.Step a b) ∨
      (a.pairs = [] ∧ σ.unify left right = ⟨true, a.substitution⟩) ∨
      (a.Clashes ∧ σ.unify left right = ⟨false, a.substitution⟩)

/-- Without cycles, a run of `Agenda.Step` is finite, and where it ends it has found what `unify`
gives. -/
theorem Acyclic.steps_unify (hσ : σ.Acyclic) (left right : Formula) :
    Acc (fun b a => Agenda.Step a b) ⟨σ, [(left, right)]⟩ ∧
    ∀ a, ReflTransGen Agenda.Step ⟨σ, [(left, right)]⟩ a →
      (∃ b, Agenda.Step a b) ∨
      (a.pairs = [] ∧ σ.unify left right = ⟨true, a.substitution⟩) ∨
      (a.Clashes ∧ σ.unify left right = ⟨false, a.substitution⟩) := by
  obtain ⟨hwithin, hleft, hright⟩ := hσ.within_scopeOf left right
  have hstart : Agenda.Within ⟨σ, [(left, right)]⟩ (σ.scopeOf left right) :=
    ⟨hwithin, List.forall_mem_singleton.mpr ⟨hleft, hright⟩⟩
  refine ⟨Agenda.acc_step hstart, fun a hrun => ?_⟩
  obtain ⟨ha, houtcome⟩ := Agenda.outcome_of_reflTransGen hrun hstart
  rw [Agenda.outcome, Agenda.outcome, Agenda.unifyInTurn_singleton] at houtcome
  rw [← houtcome]
  rcases a.step_or_clashes with hstep | hdone | hclash
  · exact .inl hstep
  · refine .inr (.inl ⟨hdone, ?_⟩)
    rw [hdone, Agenda.unifyInTurn]
  · exact .inr (.inr ⟨hclash, hclash.outcome_eq ha.bindings.acyclic⟩)

/-- Without cycles, everything comes to an end: `Acyclic` is all that `Terminates` needs. Each field
is a lemma about substitutions without cycles, read after resolving. -/
theorem Acyclic.terminates (hσ : σ.Acyclic) : σ.Terminates where
  acyclic := hσ
  chains := hσ.wellFounded_follows
  resolve f := ⟨follows_follow σ σ.size f, hσ.not_follows_resolve f⟩
  arguments := hσ.wellFounded_arguments
  occurs id f := by
    rw [← occurs_resolve hσ]
    refine ⟨fun other h => ?_, fun h => occurs_eq_any_arguments hσ h id⟩
    rw [h, occurs_eq, apply_var_unbound ((resolve_endsIn hσ f).unbound other h),
      Formula.anyVariable]
  apply f := by
    rw [← apply_resolve hσ]
    refine ⟨fun id h => ?_, fun h => ⟨head_apply hσ h, arguments_apply hσ h⟩⟩
    rw [h, apply_var_unbound ((resolve_endsIn hσ f).unbound id h)]
  unify := hσ.steps_unify

/-- After any unifications, successful or not (`unifyEach`), the bindings have no cycles. Resolving,
the occurs check, replacing and further unifications all come to an end (`Terminates`). -/
theorem unifyEach_terminates (pairs : List (Formula × Formula)) :
    (empty.unifyEach pairs).substitution.Terminates :=
  (acyclic_empty.unifyEach pairs).terminates

end Substitution

end Detachment
