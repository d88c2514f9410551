import Mathlib.Data.List.Basic
import Mathlib.Tactic.Choose
import Detachment.Formula.Canonical
import Detachment.Proofs.Lists

/-! # Generality of formulas

One formula is at least as general as another if replacing variables turns it into the other.

* `Formula.Generalizes` is this relation; it is reflexive and transitive.
* `Formula.canonical_map` says that renaming variables apart from one another does not change the
  canonical form.
* `Formula.canonical_eq_iff` says that the canonical form identifies a formula up to generality in
  both directions, so that each canonical form stands for one set of instances. -/

namespace Detachment.Formula

/-! ## Variables of renamed and replaced formulas -/

/-- Renaming renames the `occurrences`. -/
@[simp] theorem occurrences_map (rename : Nat → Nat) (f : Formula) :
    (f.map rename).occurrences = f.occurrences.map rename := by
  induction f with
  | var => rfl
  | unary op f ih => exact ih
  | binary op f g ihf ihg => simp [map, ihf, ihg]

/-- Every formula holds a variable, as there are no constants. -/
theorem exists_mem_occurrences (f : Formula) : ∃ id, id ∈ f.occurrences := by
  induction f with
  | var id => exact ⟨id, by simp⟩
  | unary op f ih => exact ih
  | binary op f g ihf _ =>
    obtain ⟨id, hid⟩ := ihf
    exact ⟨id, by simp [hid]⟩

/-- A variable of `f.subst s` comes from one of the formulas put in. By induction on the formula, as
its parts are replaced on their own. -/
theorem mem_occurrences_subst {s : Nat → Formula} {f : Formula} {id : Nat} :
    id ∈ (f.subst s).occurrences ↔ ∃ other ∈ f.occurrences, id ∈ (s other).occurrences := by
  induction f with
  | var => simp [subst]
  | unary op f ih => exact ih
  | binary op f g ihf ihg =>
    simp only [subst, occurrences_binary, List.mem_append, ihf, ihg]
    constructor
    · rintro (⟨o, ho, hid⟩ | ⟨o, ho, hid⟩)
      · exact ⟨o, .inl ho, hid⟩
      · exact ⟨o, .inr ho, hid⟩
    · rintro ⟨o, ho | ho, hid⟩
      · exact .inl ⟨o, ho, hid⟩
      · exact .inr ⟨o, ho, hid⟩

/-- The largest variable `maxVariable` bounds the occurrences. -/
theorem le_maxVariable {f : Formula} {id : Nat} (h : id ∈ f.occurrences) :
    id ≤ f.maxVariable := by
  induction f with
  | var other =>
    rw [occurrences_var, List.mem_singleton] at h
    exact Nat.le_of_eq h
  | unary op f ih => exact ih h
  | binary op f g ihf ihg =>
    rw [occurrences_binary, List.mem_append] at h
    rcases h with h | h
    · exact Nat.le_trans (ihf h) (Nat.le_max_left _ _)
    · exact Nat.le_trans (ihg h) (Nat.le_max_right _ _)

/-- Every variable lies below the `span`, which is `maxVariable + 1`. -/
theorem lt_span {f : Formula} {id : Nat} (h : id ∈ f.occurrences) : id < f.span :=
  Nat.lt_succ_of_le (le_maxVariable h)

/-- Replacing after renaming replaces the renamed variables: `subst s` after `map rename` is one
`subst`. -/
theorem subst_map (rename : Nat → Nat) (s : Nat → Formula) (f : Formula) :
    (f.map rename).subst s = f.subst fun id => s (rename id) := by
  rw [map_eq_subst, subst_subst]
  rfl

/-- Two renamings in turn are one, their composition. -/
theorem map_map (first second : Nat → Nat) (f : Formula) :
    (f.map first).map second = f.map fun id => second (first id) := by
  rw [map_eq_subst second, subst_map, map_eq_subst]

/-- Renamings that agree on the variables of a formula agree on the formula. -/
theorem map_congr {r t : Nat → Nat} {f : Formula} (h : ∀ id ∈ f.occurrences, r id = t id) :
    f.map r = f.map t := by
  rw [map_eq_subst, map_eq_subst]
  exact subst_congr fun id hid => congrArg var (h id hid)

/-- Replacements that agree on a formula agree on its variables: the converse of `subst_congr`. -/
theorem eq_of_subst_eq {s t : Nat → Formula} {f : Formula} (h : f.subst s = f.subst t) :
    ∀ id ∈ f.occurrences, s id = t id := by
  induction f with
  | var other =>
    intro id hid
    rw [occurrences_var, List.mem_singleton] at hid
    rw [hid]
    exact h
  | unary op f ih =>
    simp only [subst, unary.injEq, true_and] at h
    exact ih h
  | binary op f g ihf ihg =>
    simp only [subst, binary.injEq, true_and] at h
    intro id hid
    rw [occurrences_binary, List.mem_append] at hid
    rcases hid with hid | hid
    · exact ihf h.1 id hid
    · exact ihg h.2 id hid

/-- The size of a formula put in for a variable is part of the size of the whole, `f.subst s`. -/
theorem size_le_size_subst {s : Nat → Formula} {f : Formula} {id : Nat}
    (h : id ∈ f.occurrences) : (s id).size ≤ (f.subst s).size := by
  induction f with
  | var other =>
    rw [occurrences_var, List.mem_singleton] at h
    rw [h]
    exact Nat.le_refl _
  | unary op f ih => exact Nat.le_succ_of_le (ih h)
  | binary op f g ihf ihg =>
    rw [occurrences_binary, List.mem_append] at h
    simp only [subst, size]
    rcases h with h | h
    · have := ihf h
      omega
    · have := ihg h
      omega

/-! ## The relation -/

/-- Replacing variables turns the first formula into the second: `special` is an instance of
`general`. -/
def Generalizes (general special : Formula) : Prop :=
  ∃ replace : Nat → Formula, general.subst replace = special

/-- Every formula is an instance of itself. -/
theorem Generalizes.refl (f : Formula) : f.Generalizes f :=
  ⟨var, subst_var f⟩

/-- Instances of instances are instances, by `subst_subst`. -/
theorem Generalizes.trans {f g h : Formula} (hfg : f.Generalizes g) (hgh : g.Generalizes h) :
    f.Generalizes h := by
  obtain ⟨s, rfl⟩ := hfg
  obtain ⟨t, rfl⟩ := hgh
  exact ⟨_, (subst_subst s t f).symm⟩

/-- A variable generalizes every formula. -/
theorem var_generalizes (id : Nat) (f : Formula) : (var id).Generalizes f :=
  ⟨fun _ => f, rfl⟩

/-- Putting both formulas under one modifier keeps `Generalizes`. -/
theorem unary_generalizes_iff {op : Modifier} {f g : Formula} :
    (unary op f).Generalizes (unary op g) ↔ f.Generalizes g := by
  constructor
  · rintro ⟨s, h⟩
    exact ⟨s, (unary.inj h).2⟩
  · rintro ⟨s, rfl⟩
    exact ⟨s, rfl⟩

/-- A formula with an implication among its instances is a variable or an implication. -/
theorem Generalizes.isImplication {f antecedent consequent : Formula}
    (h : f.Generalizes (antecedent.implies consequent)) :
    (∃ id, f = var id) ∨ ∃ a c : Formula, f = a.implies c := by
  obtain ⟨s, h⟩ := h
  cases f with
  | var id => exact .inl ⟨id, rfl⟩
  | unary op f => cases h
  | binary op a c =>
    cases h
    exact .inr ⟨a, c, rfl⟩

/-- Renaming is a special case of replacing, so `f.map rename` is an instance of `f`. -/
theorem generalizes_map (rename : Nat → Nat) (f : Formula) : f.Generalizes (f.map rename) :=
  ⟨_, (map_eq_subst rename f).symm⟩

/-- The renaming keeps the members of a list apart: it is injective on `ids`. -/
def KeepsApart (rename : Nat → Nat) (ids : List Nat) : Prop :=
  ∀ a ∈ ids, ∀ b ∈ ids, rename a = rename b → a = b

/-- A renaming that keeps the variables apart can be undone, so `f` is an instance of
`f.map rename`. -/
theorem map_generalizes {rename : Nat → Nat} {f : Formula}
    (h : KeepsApart rename f.occurrences) : (f.map rename).Generalizes f := by
  -- Send each new name back to the first variable with this name.
  refine ⟨fun id => var ((f.occurrences.find? (rename · = id)).getD 0), ?_⟩
  rw [subst_map]
  refine (subst_congr (t := var) ?_).trans (subst_var f)
  intro id hid
  cases hfind : f.occurrences.find? (rename · = rename id) with
  | none =>
    have := List.find?_eq_none.mp hfind id hid
    simp at this
  | some other =>
    have hname : rename other = rename id := by simpa using List.find?_some hfind
    exact congrArg var (h other (List.mem_of_find?_eq_some hfind) id hid hname)

/-! ## Canonical forms -/

/-- Renaming list members apart from one another commutes with dropping repetitions
(`eraseDups`). -/
theorem eraseDups_map {rename : Nat → Nat} :
    ∀ {ids : List Nat}, KeepsApart rename ids →
      (ids.map rename).eraseDups = ids.eraseDups.map rename
  | [], _ => rfl
  | id :: ids, h => by
    have hrest : KeepsApart rename (ids.filter fun b => !b == id) := by
      intro a ha b hb
      exact h a (List.mem_cons_of_mem _ (List.mem_of_mem_filter ha))
        b (List.mem_cons_of_mem _ (List.mem_of_mem_filter hb))
    have hfilter : (ids.map rename).filter (fun b => !b == rename id) =
        (ids.filter fun b => !b == id).map rename := by
      rw [List.filter_map]
      congr 1
      apply List.filter_congr
      intro b hb
      have hiff : rename b = rename id ↔ b = id :=
        ⟨h b (List.mem_cons_of_mem _ hb) id List.mem_cons_self, congrArg rename⟩
      rw [Function.comp, Bool.eq_iff_iff]
      simp [hiff]
    rw [List.map_cons, List.eraseDups_cons, List.eraseDups_cons, List.map_cons, hfilter,
      eraseDups_map hrest]
termination_by ids => ids.length
decreasing_by
  simp only [List.length_cons]
  exact Nat.lt_succ_of_le (List.length_filter_le _ _)

/-- The `distinctVariables` are the variables. -/
@[simp] theorem mem_distinctVariables {f : Formula} {id : Nat} :
    id ∈ f.distinctVariables ↔ id ∈ f.occurrences :=
  List.mem_eraseDups

/-- Renaming variables apart from one another (`KeepsApart`) does not change the canonical form. -/
theorem canonical_map {rename : Nat → Nat} {f : Formula}
    (h : KeepsApart rename f.occurrences) : (f.map rename).canonical = f.canonical := by
  simp only [canonical, map_map, distinctVariables, occurrences_map]
  rw [eraseDups_map h]
  apply map_congr
  intro id hid
  apply List.idxOf_map_of_forall
  intro other hother
  exact h other (List.mem_eraseDups.mp hother) id hid

/-- Numbering by place (`idxOf` in `distinctVariables`) keeps variables apart. -/
theorem keepsApart_idxOf (f : Formula) :
    KeepsApart (f.distinctVariables.idxOf ·) f.occurrences := by
  intro a ha b _ hab
  exact (List.idxOf_inj (mem_distinctVariables.mpr ha)).mp hab

/-- The canonical form is an instance of the formula, as a renaming of it. -/
theorem generalizes_canonical (f : Formula) : f.Generalizes f.canonical :=
  generalizes_map _ f

/-- The formula is an instance of its canonical form, which keeps variables apart. -/
theorem canonical_generalizes (f : Formula) : f.canonical.Generalizes f :=
  map_generalizes (keepsApart_idxOf f)

/-- A canonical form is its own canonical form. -/
@[simp] theorem canonical_canonical (f : Formula) : f.canonical.canonical = f.canonical :=
  canonical_map (keepsApart_idxOf f)

/-- Necessity leaves the numbering of the variables alone: `canonical` commutes with
`necessarily`. -/
@[simp] theorem canonical_necessarily (f : Formula) :
    f.necessarily.canonical = f.canonical.necessarily := rfl

/-- A formula is an implication (`implication?`) exactly if its canonical form is. -/
theorem implication?_canonical (f : Formula) :
    f.canonical.implication?.isSome = f.implication?.isSome := by
  cases f with
  | var => rfl
  | unary => rfl
  | binary op a c => cases op <;> rfl

/-- Formulas that generalize each other differ by a renaming that keeps variables apart: one
replacement undoes the other, so neither puts in more than variables. -/
theorem Generalizes.exists_rename {f g : Formula} (hfg : f.Generalizes g) (hgf : g.Generalizes f) :
    ∃ rename, KeepsApart rename f.occurrences ∧ f.map rename = g := by
  obtain ⟨s, rfl⟩ := hfg
  obtain ⟨t, ht⟩ := hgf
  have hback : ∀ id ∈ f.occurrences, (s id).subst t = var id := by
    rw [subst_subst] at ht
    nth_rewrite 2 [← subst_var f] at ht
    exact eq_of_subst_eq ht
  -- What comes back to a variable was a variable.
  have hvar : ∀ id ∈ f.occurrences, ∃ other, s id = var other := by
    intro id hid
    have := hback id hid
    cases hs : s id with
    | var other => exact ⟨other, rfl⟩
    | unary op a => rw [hs] at this; cases this
    | binary op a b => rw [hs] at this; cases this
  choose! rename hrename using hvar
  refine ⟨rename, ?_, ?_⟩
  · intro a ha b hb hab
    have ha' := hback a ha
    have hb' := hback b hb
    rw [hrename a ha, hab, ← hrename b hb, hb'] at ha'
    exact (var.inj ha').symm
  · rw [map_eq_subst]
    exact subst_congr fun id hid => (hrename id hid).symm

/-- The canonical form identifies a formula up to `Generalizes` in both directions. Formulas that
generalize each other differ by a renaming (`exists_rename`), which `canonical` forgets. -/
theorem canonical_eq_iff {f g : Formula} :
    f.canonical = g.canonical ↔ f.Generalizes g ∧ g.Generalizes f := by
  constructor
  · intro h
    refine ⟨(generalizes_canonical f).trans ?_, (generalizes_canonical g).trans ?_⟩
    · rw [h]
      exact canonical_generalizes g
    · rw [← h]
      exact canonical_generalizes f
  · rintro ⟨hfg, hgf⟩
    obtain ⟨rename, hinj, rfl⟩ := hfg.exists_rename hgf
    exact (canonical_map hinj).symm

/-- Formulas have the same canonical form if they have the same instances (`Generalizes`). -/
theorem canonical_eq_of_instances {f g : Formula}
    (h : ∀ special, f.Generalizes special ↔ g.Generalizes special) : f.canonical = g.canonical :=
  canonical_eq_iff.mpr ⟨(h g).mpr (.refl g), (h f).mp (.refl f)⟩

/-- The canonical form has the instances of the formula. -/
theorem canonical_generalizes_iff {f special : Formula} :
    f.canonical.Generalizes special ↔ f.Generalizes special :=
  ⟨(generalizes_canonical f).trans, (canonical_generalizes f).trans⟩

end Detachment.Formula
