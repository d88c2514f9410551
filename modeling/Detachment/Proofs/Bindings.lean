import Mathlib.Data.Finset.Card
import Mathlib.Logic.Relation
import Detachment.Proofs.Generality
import Detachment.Substitution.Unify

/-! # The graph of bindings

A bound variable leads to the variables of its formula. As long as no variable leads back to itself,
the number of bindings is enough depth to follow them to the end.

* `Substitution.Leads` is the graph, `Substitution.Acyclic` says that it has no cycles.
* `Substitution.Solves` says that a replacement respects every binding.
* `Substitution.resolve_endsIn`, `Substitution.occurs_iff` and `Substitution.subst_apply` say what
  following bindings finds: the end of a chain, the variables that can be reached, and the most
  general solution.
* `Substitution.Acyclic.bind` says that binding a variable to a formula that does not lead to it
  makes no cycle. -/

namespace Detachment.Substitution

open Relation

variable {σ : Substitution}

/-- The graph of bindings: `σ.Leads id other` if `id` is bound to a formula in which `other`
occurs. -/
def Leads (σ : Substitution) (id other : Nat) : Prop :=
  ∃ f, σ.get? id = some f ∧ other ∈ f.occurrences

/-- No variable leads back to itself, that is, `TransGen σ.Leads` has no loop. -/
def Acyclic (σ : Substitution) : Prop :=
  ∀ id, ¬TransGen σ.Leads id id

/-- The variable `id` is met when the bindings are followed from the formula `f`: some variable of
`f` leads to it in any number of steps. -/
def Reaches (σ : Substitution) (f : Formula) (id : Nat) : Prop :=
  ∃ other ∈ f.occurrences, ReflTransGen σ.Leads other id

/-- The replacement `s` respects every binding: where `id` is bound to `f`, it puts in for `id` what
it makes of `f`, `s id = f.subst s`. -/
def Solves (s : Nat → Formula) (σ : Substitution) : Prop :=
  ∀ id f, σ.get? id = some f → s id = f.subst s

/-- Nothing leads anywhere without bindings, so `empty` is `Acyclic`. -/
theorem acyclic_empty : empty.Acyclic := by
  intro id h
  obtain ⟨other, ⟨f, hf, -⟩, -⟩ := TransGen.head'_iff.mp h
  rw [get?_empty] at hf
  cases hf

/-- Every replacement `Solves` the empty substitution. -/
theorem solves_empty (s : Nat → Formula) : Solves s empty := by
  intro id f h
  rw [get?_empty] at h
  cases h

/-- A formula reaches its own variables, in no steps. -/
theorem reaches_of_mem {f : Formula} {id : Nat} (h : id ∈ f.occurrences) : σ.Reaches f id :=
  ⟨id, h, .refl⟩

/-- What the binding `g` of a variable reaches is reached by every formula `f` in which this
variable occurs. -/
theorem Reaches.of_get? {f g : Formula} {id other : Nat} (hid : id ∈ f.occurrences)
    (hg : σ.get? id = some g) (h : σ.Reaches g other) : σ.Reaches f other := by
  obtain ⟨first, hfirst, hpath⟩ := h
  exact ⟨id, hid, .head ⟨g, hg, hfirst⟩ hpath⟩

/-- An unbound variable leads to nothing, so a path from it ends where it starts. -/
theorem eq_of_reaches_unbound {id other : Nat} (h : σ.get? id = none)
    (hpath : ReflTransGen σ.Leads id other) : other = id := by
  rcases hpath.cases_head with rfl | ⟨next, ⟨f, hf, -⟩, -⟩
  · rfl
  · rw [h] at hf
    cases hf

/-! ## How deep bindings go -/

open Classical in
/-- The bound variables that a formula `Reaches`. Their number is the depth that is needed to follow
all bindings from the formula. -/
noncomputable def boundBelow (σ : Substitution) (f : Formula) : Finset Nat :=
  {id ∈ σ.bindings.keys.toFinset | σ.Reaches f id}

/-- Membership in `boundBelow`: the variable is bound, and it is reached. -/
theorem mem_boundBelow {f : Formula} {id : Nat} :
    id ∈ σ.boundBelow f ↔ (∃ g, σ.get? id = some g) ∧ σ.Reaches f id := by
  simp only [boundBelow, Finset.mem_filter, List.mem_toFinset, Std.ExtTreeMap.mem_keys]
  refine and_congr_left fun _ => ?_
  rw [get?, Std.ExtTreeMap.mem_iff_isSome_getElem?, Option.isSome_iff_exists]

/-- A formula reaches no more bound variables than there are, `(σ.boundBelow f).card ≤ σ.size`. This
is why `σ.size` is enough depth. -/
theorem card_boundBelow_le (σ : Substitution) (f : Formula) : (σ.boundBelow f).card ≤ σ.size := by
  calc (σ.boundBelow f).card ≤ σ.bindings.keys.toFinset.card :=
        Finset.card_le_card (by classical exact Finset.filter_subset _ _)
    _ ≤ σ.bindings.keys.length := List.toFinset_card_le _
    _ = σ.size := Std.ExtTreeMap.length_keys

/-- Without cycles, the binding `g` of `id` reaches fewer bound variables than a formula with `id`:
it does not reach `id` itself. Inductions on the depth go down by this. -/
theorem Acyclic.card_boundBelow_lt (hσ : σ.Acyclic) {f g : Formula} {id : Nat}
    (hid : id ∈ f.occurrences) (hg : σ.get? id = some g) :
    (σ.boundBelow g).card < (σ.boundBelow f).card := by
  apply Finset.card_lt_card
  rw [Finset.ssubset_iff_of_subset]
  · refine ⟨id, mem_boundBelow.mpr ⟨⟨g, hg⟩, reaches_of_mem hid⟩, ?_⟩
    intro hmem
    obtain ⟨other, hother, hpath⟩ := (mem_boundBelow.mp hmem).2
    exact hσ id (.head' ⟨g, hg, hother⟩ hpath)
  · intro other hother
    obtain ⟨hbound, hreach⟩ := mem_boundBelow.mp hother
    exact mem_boundBelow.mpr ⟨hbound, hreach.of_get? hid hg⟩

/-- A formula with an empty `boundBelow` holds no bound variable. -/
theorem get?_eq_none_of_card_eq_zero {f : Formula} (h : (σ.boundBelow f).card = 0) {id : Nat}
    (hid : id ∈ f.occurrences) : σ.get? id = none := by
  by_contra hbound
  obtain ⟨g, hg⟩ := Option.ne_none_iff_exists'.mp hbound
  have hmem : id ∈ σ.boundBelow f := mem_boundBelow.mpr ⟨⟨g, hg⟩, reaches_of_mem hid⟩
  rw [Finset.card_eq_zero.mp h] at hmem
  exact Finset.notMem_empty id hmem

/-! ## Following variables -/

/-- The formula `g` stands at the end of the chain of bindings that starts with `f`: what
`Substitution.follow` should find. -/
structure EndsIn (σ : Substitution) (f g : Formula) : Prop where
  /-- The end is no bound variable. -/
  unbound : ∀ id, g = .var id → σ.get? id = none
  /-- A chain that goes on starts with a variable that leads to all variables of the end. -/
  chain : g = f ∨ ∃ id, f = .var id ∧ ∀ other ∈ g.occurrences, TransGen σ.Leads id other
  /-- No solution tells the two apart. -/
  subst_eq : ∀ s, Solves s σ → f.subst s = g.subst s

/-- Enough depth leads to the end of a chain: `follow depth f` is at the end if
`(σ.boundBelow f).card ≤ depth`. The induction is on the depth, which `card_boundBelow_lt` keeps
sufficient. -/
theorem follow_endsIn (hσ : σ.Acyclic) {depth : Nat} {f : Formula}
    (h : (σ.boundBelow f).card ≤ depth) : σ.EndsIn f (σ.follow depth f) := by
  induction depth generalizing f with
  | zero =>
    refine ⟨?_, .inl rfl, fun _ _ => rfl⟩
    rintro id rfl
    exact get?_eq_none_of_card_eq_zero (Nat.le_zero.mp h) (by simp)
  | succ depth ih =>
    cases f with
    | unary op f => exact ⟨by rintro id ⟨⟩, .inl rfl, fun _ _ => rfl⟩
    | binary op f g => exact ⟨by rintro id ⟨⟩, .inl rfl, fun _ _ => rfl⟩
    | var id =>
      cases hg : σ.get? id with
      | none =>
        simp only [follow, hg]
        refine ⟨?_, .inl rfl, fun _ _ => rfl⟩
        intro other hother
        rwa [← Formula.var.inj hother]
      | some g =>
        simp only [follow, hg]
        -- Without cycles, fewer bound variables lie below what the variable is bound to.
        have hlt := hσ.card_boundBelow_lt (f := .var id) (by simp) hg
        obtain ⟨unbound, chain, subst_eq⟩ := ih (f := g) (by omega)
        refine ⟨unbound, .inr ⟨id, rfl, ?_⟩, fun s hs => ?_⟩
        · intro other hother
          rcases chain with heq | ⟨next, rfl, hnext⟩
          · rw [heq] at hother
            exact .single ⟨g, hg, hother⟩
          · exact .head ⟨_, hg, by simp⟩ (hnext other hother)
        · exact (hs id g hg).trans (subst_eq s hs)

/-- Resolving a formula (`resolve`, which follows to the depth `σ.size`) leads to the end of its
chain. -/
theorem resolve_endsIn (hσ : σ.Acyclic) (f : Formula) : σ.EndsIn f (σ.resolve f) :=
  follow_endsIn hσ (card_boundBelow_le σ f)

/-! ## The occurs check -/

/-- With enough depth, `occursWithin id` finds out whether the unbound variable `id` is reached. The
induction is on the depth, and within it on the formula. -/
theorem occursWithin_iff (hσ : σ.Acyclic) {id : Nat} (hid : σ.get? id = none) {depth : Nat}
    {f : Formula} (h : (σ.boundBelow f).card ≤ depth) :
    σ.occursWithin id depth f = true ↔ σ.Reaches f id := by
  induction depth generalizing f with
  | zero =>
    rw [occursWithin, Formula.anyVariable_eq, List.any_eq_true]
    constructor
    · rintro ⟨other, hother, heq⟩
      rw [beq_iff_eq] at heq
      exact reaches_of_mem (heq ▸ hother)
    · rintro ⟨other, hother, hpath⟩
      have hunbound := get?_eq_none_of_card_eq_zero (Nat.le_zero.mp h) hother
      exact ⟨other, hother, beq_iff_eq.mpr (eq_of_reaches_unbound hunbound hpath).symm⟩
  | succ depth ih =>
    -- What a variable of `f` is bound to reaches fewer bound variables than `f`.
    have hdeeper : ∀ other ∈ f.occurrences, ∀ g, σ.get? other = some g →
        (σ.occursWithin id depth g = true ↔ σ.Reaches g id) := by
      intro other hother g hg
      have hlt := hσ.card_boundBelow_lt hother hg
      exact ih (by omega)
    rw [occursWithin, Formula.anyVariable_eq, List.any_eq_true]
    constructor
    · rintro ⟨other, hother, htest⟩
      cases hg : σ.get? other with
      | none =>
        rw [hg] at htest
        exact reaches_of_mem (beq_iff_eq.mp htest ▸ hother)
      | some g =>
        rw [hg] at htest
        exact ((hdeeper other hother g hg).mp htest).of_get? hother hg
    · rintro ⟨other, hother, hpath⟩
      refine ⟨other, hother, ?_⟩
      cases hg : σ.get? other with
      | none => exact beq_iff_eq.mpr (eq_of_reaches_unbound hg hpath).symm
      | some g =>
        refine (hdeeper other hother g hg).mpr ?_
        rcases hpath.cases_head with rfl | ⟨next, ⟨g', hg', hnext⟩, hrest⟩
        · rw [hid] at hg
          cases hg
        · rw [hg, Option.some.injEq] at hg'
          exact ⟨next, hg' ▸ hnext, hrest⟩

/-- The occurs check `σ.occurs id f` holds exactly if `f` reaches the unbound variable `id`. -/
theorem occurs_iff (hσ : σ.Acyclic) {id : Nat} (hid : σ.get? id = none) (f : Formula) :
    σ.occurs id f = true ↔ σ.Reaches f id :=
  occursWithin_iff hσ hid (card_boundBelow_le σ f)

/-! ## Replacing all bound variables -/

/-- All depths that are enough give the same formula: `expand` stops changing at the number of
variables in `boundBelow`. -/
theorem expand_eq_expand (hσ : σ.Acyclic) {depth depth' : Nat} {f : Formula}
    (h : (σ.boundBelow f).card ≤ depth) (h' : (σ.boundBelow f).card ≤ depth') :
    σ.expand depth f = σ.expand depth' f := by
  -- Without bound variables in `f`, one more level changes nothing.
  have hbase : ∀ depth f, (σ.boundBelow f).card = 0 → σ.expand depth f = f := by
    intro depth f hf
    cases depth with
    | zero => rfl
    | succ depth =>
      refine (Formula.subst_congr (t := .var) ?_).trans (Formula.subst_var f)
      intro id hid
      rw [get?_eq_none_of_card_eq_zero hf hid]
  induction depth generalizing depth' f with
  | zero => rw [expand, hbase depth' f (Nat.le_zero.mp h)]
  | succ depth ih =>
    cases depth' with
    | zero => exact hbase (depth + 1) f (Nat.le_zero.mp h')
    | succ depth' =>
      apply Formula.subst_congr
      intro id hid
      cases hg : σ.get? id with
      | none => rfl
      | some g =>
        have hlt := hσ.card_boundBelow_lt hid hg
        exact ih (by omega) (by omega)

/-- An unbound variable stays as it is under `apply`. -/
theorem apply_var_unbound {id : Nat} (h : σ.get? id = none) : σ.apply (.var id) = .var id := by
  unfold apply
  cases σ.size with
  | zero => rfl
  | succ depth => simp only [expand, Formula.subst, h]

/-- A bound variable becomes under `apply` what its formula becomes. -/
theorem apply_var_bound (hσ : σ.Acyclic) {id : Nat} {g : Formula} (h : σ.get? id = some g) :
    σ.apply (.var id) = σ.apply g := by
  have hlt := hσ.card_boundBelow_lt (f := .var id) (by simp) h
  have hle := card_boundBelow_le σ (.var id)
  have hstep : ∀ depth, σ.expand (depth + 1) (.var id) = σ.expand depth g := by
    intro depth
    simp only [expand, Formula.subst, h]
  unfold apply
  rw [expand_eq_expand hσ hle (Nat.le_succ_of_le hle), hstep]

/-- Under `apply`, a formula has each of its variables replaced by what the variable itself becomes;
so `apply` is a `Formula.subst`. -/
theorem apply_eq_subst (hσ : σ.Acyclic) (f : Formula) :
    σ.apply f = f.subst fun id => σ.apply (.var id) := by
  have hle := card_boundBelow_le σ f
  have hone : σ.apply f = σ.expand (σ.size + 1) f :=
    expand_eq_expand hσ hle (Nat.le_succ_of_le hle)
  rw [hone, expand]
  apply Formula.subst_congr
  intro id _
  cases hg : σ.get? id with
  | none => exact (apply_var_unbound hg).symm
  | some g => exact (apply_var_bound hσ hg).symm

/-- The replacement that `apply` makes `Solves` the substitution. -/
theorem solves_apply (hσ : σ.Acyclic) : Solves (fun id => σ.apply (.var id)) σ := by
  intro id f h
  show σ.apply (.var id) = _
  rw [apply_var_bound hσ h, apply_eq_subst hσ]

/-- Every solution `s` factors through `apply`: `(σ.apply f).subst s = f.subst s`. So `solves_apply`
is the most general solution. -/
theorem subst_apply {s : Nat → Formula} (hs : Solves s σ) (f : Formula) :
    (σ.apply f).subst s = f.subst s := by
  have hexpand : ∀ depth f, (σ.expand depth f).subst s = f.subst s := by
    intro depth
    induction depth with
    | zero => exact fun _ => rfl
    | succ depth ih =>
      intro f
      rw [expand, Formula.subst_subst]
      apply Formula.subst_congr
      intro id _
      cases hg : σ.get? id with
      | none => rfl
      | some g => exact (ih g).trans (hs id g hg).symm
  exact hexpand σ.size f

/-- The variables that are left in `σ.apply f` are reached by `f`. By induction on the depth to
which bindings are followed. -/
theorem reaches_of_mem_apply {f : Formula} {id : Nat} (h : id ∈ (σ.apply f).occurrences) :
    σ.Reaches f id := by
  have hexpand : ∀ depth f, id ∈ (σ.expand depth f).occurrences → σ.Reaches f id := by
    intro depth
    induction depth with
    | zero => exact fun _ hid => reaches_of_mem hid
    | succ depth ih =>
      intro f hid
      rw [expand, Formula.mem_occurrences_subst] at hid
      obtain ⟨other, hother, hid⟩ := hid
      cases hg : σ.get? other with
      | none =>
        rw [hg, Formula.occurrences_var, List.mem_singleton] at hid
        exact reaches_of_mem (hid ▸ hother)
      | some g =>
        rw [hg] at hid
        exact (ih g hid).of_get? hother hg
  exact hexpand σ.size f h

/-! ## Binding one variable more -/

/-- A new binding `σ.bind id f` leads from `id` to the variables of `f`, and the others lead where
they led. -/
theorem leads_bind {id : Nat} (hid : σ.get? id = none) (f : Formula) {a b : Nat} :
    (σ.bind id f).Leads a b ↔ (a = id ∧ b ∈ f.occurrences) ∨ σ.Leads a b := by
  unfold Leads
  rw [get?_bind]
  by_cases h : a = id
  · subst h
    simp [hid]
  · simp [h]

/-- A new binding `σ.bind id f` asks one thing more of the solutions, `s id = f.subst s`. The
variable was unbound, so its binding takes the place of no other. -/
theorem solves_bind {id : Nat} (hid : σ.get? id = none) (f : Formula) (s : Nat → Formula) :
    Solves s (σ.bind id f) ↔ Solves s σ ∧ s id = f.subst s := by
  constructor
  · intro hs
    refine ⟨?_, hs id f (by simp [get?_bind])⟩
    intro other g hg
    have hne : other ≠ id := by
      rintro rfl
      rw [hid] at hg
      cases hg
    exact hs other g (by rw [get?_bind, if_neg hne]; exact hg)
  · rintro ⟨hs, hnew⟩ other g hg
    rw [get?_bind] at hg
    by_cases hother : other = id
    · rw [if_pos hother, Option.some.injEq] at hg
      rw [hother, hnew, hg]
    · rw [if_neg hother] at hg
      exact hs other g hg

/-- Binding an unbound variable to a formula that does not reach it makes no cycle: a loop would
pass through the new binding, and so lead from `f` to `id` in the old graph. -/
theorem Acyclic.bind (hσ : σ.Acyclic) {id : Nat} (hid : σ.get? id = none) {f : Formula}
    (hf : ¬σ.Reaches f id) : (σ.bind id f).Acyclic := by
  -- The new edges start at `id`, so a path to `id` needs none of them before its end.
  have hold : ∀ a, ReflTransGen (σ.bind id f).Leads a id → ReflTransGen σ.Leads a id := by
    intro a hpath
    induction hpath using ReflTransGen.head_induction_on with
    | refl => exact .refl
    | head hstep _ ih =>
      rcases (leads_bind hid f).mp hstep with ⟨rfl, -⟩ | hstep
      · exact .refl
      · exact .head hstep ih
  have hid' : ¬TransGen (σ.bind id f).Leads id id := by
    intro hcycle
    obtain ⟨first, hstep, hpath⟩ := TransGen.head'_iff.mp hcycle
    rcases (leads_bind hid f).mp hstep with ⟨-, hfirst⟩ | ⟨g, hg, -⟩
    · exact hf ⟨first, hfirst, hold first hpath⟩
    · rw [hid] at hg
      cases hg
  -- A cycle elsewhere passes through `id`, or it was there before.
  have hsplit : ∀ a b, TransGen (σ.bind id f).Leads a b →
      TransGen σ.Leads a b ∨
        (ReflTransGen (σ.bind id f).Leads a id ∧ TransGen (σ.bind id f).Leads id b) := by
    intro a b hpath
    induction hpath with
    | single hstep =>
      rcases (leads_bind hid f).mp hstep with ⟨rfl, -⟩ | hold
      · exact .inr ⟨.refl, .single hstep⟩
      · exact .inl (.single hold)
    | tail hpath hstep ih =>
      rcases ih with ih | ⟨hto, hfrom⟩
      · rcases (leads_bind hid f).mp hstep with ⟨rfl, -⟩ | hold
        · exact .inr ⟨hpath.to_reflTransGen, .single hstep⟩
        · exact .inl (.tail ih hold)
      · exact .inr ⟨hto, .tail hfrom hstep⟩
  intro a hcycle
  rcases hsplit a a hcycle with hcycle | ⟨hto, hfrom⟩
  · exact hσ a hcycle
  · exact hid' (hfrom.trans_left hto)

/-- A solution puts in at least as much for a variable as for the variables it leads to,
`(s b).size ≤ (s a).size`. -/
theorem size_le_of_reaches {s : Nat → Formula} (hs : Solves s σ) {a b : Nat}
    (h : ReflTransGen σ.Leads a b) : (s b).size ≤ (s a).size := by
  induction h with
  | refl => exact Nat.le_refl _
  | tail _ hstep ih =>
    obtain ⟨f, hf, hmem⟩ := hstep
    refine Nat.le_trans ?_ ih
    rw [hs _ f hf]
    exact Formula.size_le_size_subst hmem

/-- No solution makes the variable `id` equal to a formula around it: what is put in for `id` would
be larger than itself by `size_le_of_reaches`. -/
theorem subst_ne_of_reaches {s : Nat → Formula} (hs : Solves s σ) {id : Nat} {f : Formula}
    (hne : ∀ other, f ≠ .var other) (h : σ.Reaches f id) : s id ≠ f.subst s := by
  obtain ⟨other, hother, hpath⟩ := h
  have hle := size_le_of_reaches hs hpath
  have hlt : (s other).size < (f.subst s).size := by
    cases f with
    | var a => exact absurd rfl (hne a)
    | unary op a => exact Nat.lt_succ_of_le (Formula.size_le_size_subst hother)
    | binary op a b =>
      rw [Formula.occurrences_binary, List.mem_append] at hother
      simp only [Formula.subst, Formula.size]
      rcases hother with hother | hother
      · have := Formula.size_le_size_subst (s := s) hother
        omega
      · have := Formula.size_le_size_subst (s := s) hother
        omega
  intro heq
  rw [heq] at hle
  omega

end Detachment.Substitution
