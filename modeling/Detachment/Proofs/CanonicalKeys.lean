import Mathlib.Data.List.Nodup
import Mathlib.Data.List.Perm.Subperm
import Detachment.Proofs.Matching
import Detachment.Proofs.PrefixNotation

/-! # Keys identify formulas up to renaming

The key of a formula is the notation of its canonical form. Two formulas have the same key exactly
if a renaming that keeps variables apart turns one into the other, and exactly if each is an
instance of the other.

* `Formula.renumber` numbers the variables along the notation, and `Formula.renumber_eq` says that
  this gives the canonical form.
* `Formula.maxVariable_canonical_le` says that the numbers do not grow.
* `Formula.key_identifies` is the main result. -/

namespace Detachment.Formula

/-! ## Numbering along the notation -/

/-- Note the variable `id` behind those that were `seen` before it, unless it is one of them. -/
def note (seen : List Nat) (id : Nat) : List Nat :=
  if id ∈ seen then seen else seen ++ [id]

/-- Renumber the variables along the notation: the first time that a variable is met, it gets the
next number `seen.length`. Goes with the variables that were met, in this order. -/
def renumber : List Nat → Formula → Formula × List Nat
  | seen, var id =>
    if id ∈ seen then (var (seen.idxOf id), seen) else (var seen.length, seen ++ [id])
  | seen, unary op f =>
    let body := renumber seen f
    (unary op body.1, body.2)
  | seen, binary op f g =>
    let left := renumber seen f
    let right := renumber left.2 g
    (binary op left.1 right.1, right.2)

/-- The variables that `renumber` has met are the ones `seen` before and those of the formula, each
noted (`note`) in turn. -/
theorem renumber_snd (seen : List Nat) (f : Formula) :
    (renumber seen f).2 = f.occurrences.foldl note seen := by
  induction f generalizing seen with
  | var id =>
    rw [renumber, occurrences_var, List.foldl_cons, List.foldl_nil, note]
    split <;> rfl
  | unary op f ih => exact ih seen
  | binary op f g ihf ihg => rw [renumber, occurrences_binary, List.foldl_append, ← ihf, ← ihg]

/-- Variables that were met keep their numbers, as `renumber` only appends to `seen`. -/
theorem prefix_renumber (seen : List Nat) (f : Formula) : seen <+: (renumber seen f).2 := by
  induction f generalizing seen with
  | var id =>
    rw [renumber]
    split
    · exact List.prefix_rfl
    · exact List.prefix_append seen [id]
  | unary op f ih => exact ih seen
  | binary op f g ihf ihg => exact (ihf seen).trans (ihg _)

/-- Each variable gets its place among those that were met, `names.idxOf`. Here `names` may have
more variables behind those that `renumber` has met, which is what the induction needs for the left
side of a binary formula. -/
theorem renumber_fst {seen names : List Nat} {f : Formula} (h : (renumber seen f).2 <+: names) :
    (renumber seen f).1 = f.map names.idxOf := by
  induction f generalizing seen with
  | var id =>
    obtain ⟨later, rfl⟩ := h
    rw [renumber, map]
    split
    · next hmem => rw [List.idxOf_append_of_mem hmem]
    · next hmem =>
      rw [List.append_assoc, List.idxOf_append_of_notMem hmem, List.singleton_append,
        List.idxOf_cons_self, Nat.add_zero]
  | unary op f ih => exact congrArg (unary op) (ih h)
  | binary op f g ihf ihg =>
    have hleft : (renumber seen f).2 <+: names := (prefix_renumber _ g).trans h
    exact congr (congrArg (binary op) (ihf hleft)) (ihg h)

/-- Noting variables in turn appends the distinct ones (`eraseDups`) among those that are new. By
induction on the variables, for every list of those that were seen. -/
theorem foldl_note_eq (seen ids : List Nat) :
    ids.foldl note seen = seen ++ (ids.filter (· ∉ seen)).eraseDups := by
  induction ids generalizing seen with
  | nil => simp
  | cons id ids ih =>
    rw [List.foldl_cons, note]
    by_cases hmem : id ∈ seen
    · rw [if_pos hmem, ih, List.filter_cons_of_neg (by simpa using hmem)]
    · rw [if_neg hmem, ih, List.filter_cons_of_pos (by simpa using hmem), List.eraseDups_cons,
        List.filter_filter, List.append_assoc, List.singleton_append]
      congr 4
      funext other
      rw [Bool.eq_iff_iff]
      simp [and_comm]

/-- Numbering along the notation from `[]` gives `Formula.canonical`, and meets
`distinctVariables`. -/
theorem renumber_eq (f : Formula) : renumber [] f = (f.canonical, f.distinctVariables) := by
  have hseen : (renumber [] f).2 = f.distinctVariables := by
    rw [renumber_snd, foldl_note_eq]
    simp [distinctVariables]
  refine Prod.ext ?_ hseen
  exact renumber_fst (hseen ▸ List.prefix_rfl)

/-! ## Size of the numbers -/

/-- The variables that were met are distinct: `note` keeps `List.Nodup`. By induction on the
variables, as one is appended only if it is new. -/
theorem nodup_foldl_note {seen : List Nat} (h : seen.Nodup) (ids : List Nat) :
    (ids.foldl note seen).Nodup := by
  induction ids generalizing seen with
  | nil => exact h
  | cons id ids ih =>
    refine ih ?_
    rw [note]
    split
    · exact h
    · next hmem =>
      rw [← List.concat_eq_append]
      exact List.Nodup.concat hmem h

/-- The largest variable `maxVariable` is one of the variables, as every formula has one. -/
theorem maxVariable_mem (f : Formula) : f.maxVariable ∈ f.occurrences := by
  induction f with
  | var id => exact List.mem_singleton_self id
  | unary op f ih => exact ih
  | binary op f g ihf ihg =>
    rw [occurrences_binary, List.mem_append, maxVariable]
    rcases Nat.le_total f.maxVariable g.maxVariable with h | h
    · rw [Nat.max_eq_right h]
      exact .inr ihg
    · rw [Nat.max_eq_left h]
      exact .inl ihf

/-- There are not more distinct variables than numbers below the `span`, that is, up to the largest
variable. -/
theorem length_distinctVariables_le (f : Formula) : f.distinctVariables.length ≤ f.span := by
  have hnodup : f.distinctVariables.Nodup := by
    have h := nodup_foldl_note List.nodup_nil f.occurrences
    rwa [← renumber_snd, renumber_eq] at h
  have hsub : f.distinctVariables ⊆ List.range f.span := fun id hid =>
    List.mem_range.mpr (lt_span (mem_distinctVariables.mp hid))
  simpa using (List.subperm_of_subset hnodup hsub).length_le

/-- The canonical form has no larger variable than the formula: its numbers are below the number of
`distinctVariables`. -/
theorem maxVariable_canonical_le (f : Formula) : f.canonical.maxVariable ≤ f.maxVariable := by
  have hmem := maxVariable_mem f.canonical
  rw [canonical, occurrences_map, List.mem_map] at hmem
  obtain ⟨id, hid, hmax⟩ := hmem
  have hlt := List.idxOf_lt_length_iff.mpr (mem_distinctVariables.mpr hid)
  have hle := f.length_distinctVariables_le
  rw [canonical, ← hmax]
  exact Nat.le_of_lt_succ (Nat.lt_of_lt_of_le hlt hle)

/-! ## The main result -/

/-- The `key` determines the canonical form, as the Polish notation is injective. -/
theorem key_eq_iff {f g : Formula} : f.key = g.key ↔ f.canonical = g.canonical :=
  ⟨polish_inj, congrArg polish⟩

/-- Renamings that keep variables apart (`KeepsApart`) are what makes formulas instances of each
other: `Generalizes` both ways. -/
theorem exists_rename_iff {f g : Formula} :
    (∃ rename, KeepsApart rename f.occurrences ∧ f.map rename = g) ↔
      f.Generalizes g ∧ g.Generalizes f := by
  constructor
  · rintro ⟨rename, hapart, rfl⟩
    exact ⟨generalizes_map rename f, map_generalizes hapart⟩
  · rintro ⟨hfg, hgf⟩
    exact hfg.exists_rename hgf

/-- Two formulas have the same `key` exactly if renaming variables apart from one another
(`KeepsApart`) turns one into the other, and exactly if each is a schema of the other (`isSchema`).
The canonical form is such a renaming of the formula, numbers variables in the order in which they
are met (`renumber`), needs no larger numbers, and is its own canonical form. -/
theorem key_identifies (f g : Formula) :
    (f.key = g.key ↔ ∃ rename, KeepsApart rename f.occurrences ∧ f.map rename = g) ∧
    (f.key = g.key ↔ isSchema f g = true ∧ isSchema g f = true) ∧
    f.canonical.canonical = f.canonical ∧
    (∃ rename, KeepsApart rename f.occurrences ∧ f.map rename = f.canonical) ∧
    f.canonical = (renumber [] f).1 ∧ f.canonical.maxVariable ≤ f.maxVariable := by
  refine ⟨?_, ?_, canonical_canonical f, ⟨_, keepsApart_idxOf f, rfl⟩, ?_, maxVariable_canonical_le f⟩
  · rw [key_eq_iff, canonical_eq_iff, exists_rename_iff]
  · rw [key_eq_iff, canonical_eq_iff, isSchema_iff, isSchema_iff]
  · rw [renumber_eq]

end Detachment.Formula
