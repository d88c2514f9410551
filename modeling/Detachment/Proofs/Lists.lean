import Mathlib.Data.List.Basic
import Detachment.Sums

/-! # Lists, texts and results

Facts that hold of lists with any members, of texts with any characters and of checks with any
results.

* `List.mapM_eq_ok` and `List.isOk_mapM_iff` say when checks in a row all succeed, and
  `Except.of_ite_error_eq_ok` what is known behind a check.
* `List.getElem?_flatten_of_lt` finds the members of joined lists. -/

namespace List

variable {α β γ ε : Type} {xs : List α}

/-- What `dropWhile` leaves behind a run of members does not continue it. -/
theorem eq_false_of_mem_head?_dropWhile (p : α → Bool) (xs : List α) :
    ∀ x ∈ (xs.dropWhile p).head?, p x = false := by
  intro x hx
  have hhead := List.head?_dropWhile_not p xs
  rw [Option.mem_def.mp hx] at hhead
  exact hhead

/-- A function that tells `a` from all other members of a list keeps its place (`idxOf`). -/
theorem idxOf_map_of_forall [DecidableEq α] [DecidableEq β] {f : α → β} {a : α}
    (h : ∀ x ∈ xs, f x = f a → x = a) : (xs.map f).idxOf (f a) = xs.idxOf a := by
  induction xs with
  | nil => rfl
  | cons x xs ih =>
    have hrest := ih fun y hy => h y (List.mem_cons_of_mem _ hy)
    rw [List.map_cons, List.idxOf_cons, List.idxOf_cons, hrest]
    by_cases heq : x = a
    · simp [heq]
    · have hne : f x ≠ f a := fun hxa => heq (h x List.mem_cons_self hxa)
      rw [beq_false_of_ne heq, beq_false_of_ne hne]

/-- A recursion over the members of a list, `xs.attach`, may forget that they are members. -/
theorem flatMap_attach (xs : List α) (f : α → List γ) :
    (xs.attach.flatMap fun x => f x.1) = xs.flatMap f :=
  calc xs.attach.flatMap (fun x => f x.1)
      = (xs.attach.map Subtype.val).flatMap f := by rw [List.flatMap_map]
    _ = xs.flatMap f := by rw [List.attach_map_subtype_val]

/-- In joined lists, a member stands behind all members of the lists before its own: the one at
`index` of the list at `row` has the place `sumOf length (rows.take row) + index`. -/
theorem getElem?_flatten_of_lt {rows : List (List α)} {row index : Nat}
    (hindex : index < (rows.getD row []).length) :
    rows.flatten[Detachment.sumOf List.length (rows.take row) + index]? =
      (rows.getD row [])[index]? := by
  induction rows generalizing row with
  | nil => exact absurd hindex (Nat.not_lt_zero index)
  | cons first rest ih =>
    cases row with
    | zero =>
      rw [List.getD_cons_zero] at hindex ⊢
      rw [List.take_zero, Detachment.sumOf_nil, Nat.zero_add, List.flatten_cons,
        List.getElem?_append_left hindex]
    | succ row =>
      rw [List.getD_cons_succ] at hindex ⊢
      rw [List.take_succ_cons, Detachment.sumOf_cons, Nat.add_assoc, List.flatten_cons,
        List.getElem?_append_right (Nat.le_add_right _ _), Nat.add_sub_cancel_left, ih hindex]

/-- Checks that all succeed, `f x = .ok (g x)`, give all their results. -/
theorem mapM_eq_ok {f : α → Except ε β} {g : α → β} (h : ∀ x ∈ xs, f x = .ok (g x)) :
    xs.mapM f = .ok (xs.map g) := by
  induction xs with
  | nil => rfl
  | cons x xs ih =>
    obtain ⟨hfirst, hrest⟩ := List.forall_mem_cons.mp h
    rw [List.mapM_cons, hfirst, ih hrest]
    rfl

/-- Checks in a row, `xs.mapM f`, succeed exactly if each does. -/
theorem isOk_mapM_iff {f : α → Except ε β} : (xs.mapM f).isOk ↔ ∀ x ∈ xs, (f x).isOk := by
  induction xs with
  | nil => simp [pure, Except.pure, Except.isOk, Except.toBool]
  | cons x xs ih =>
    rw [List.mapM_cons, List.forall_mem_cons, ← ih]
    cases f x with
    | error e => simp [bind, Except.bind, Except.isOk, Except.toBool]
    | ok y =>
      cases xs.mapM f <;> simp [bind, Except.bind, pure, Except.pure, Except.isOk, Except.toBool]

end List

/-- A result behind a check, `if c then .error e else rest`, has passed it. -/
theorem Except.of_ite_error_eq_ok {ε α : Type} {c : Prop} [Decidable c] {e : ε} {rest : Except ε α}
    {a : α} (h : (if c then .error e else rest) = .ok a) : ¬c ∧ rest = .ok a := by
  by_cases hc : c
  · rw [if_pos hc] at h
    cases h
  · rw [if_neg hc] at h
    exact ⟨hc, h⟩

namespace String

variable {chars : List Char}

/-- A text that is put together from characters is not empty if there are any. -/
theorem isEmpty_ofList_eq_false_iff : (String.ofList chars).isEmpty = false ↔ chars ≠ [] := by
  rw [Bool.eq_false_iff, Ne, String.isEmpty_iff, ← String.toList_eq_nil_iff, String.toList_ofList]

/-- The length of a text in bytes is the number of its characters if each is one byte long. -/
theorem utf8ByteSize_ofList_of_forall (h : ∀ c ∈ chars, c.utf8Size = 1) :
    (String.ofList chars).utf8ByteSize = chars.length := by
  induction chars with
  | nil => rfl
  | cons c rest ih =>
    have hrest := ih fun d hd => h d (List.mem_cons_of_mem _ hd)
    rw [String.ofList_cons, String.utf8ByteSize_append, hrest, String.utf8ByteSize_singleton,
      h c List.mem_cons_self, List.length_cons, Nat.add_comm]

end String
