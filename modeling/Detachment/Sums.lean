/-! # Sums

The sum of a number over the members of a list. -/

namespace Detachment

variable {α β : Type}

/-- The sum of the numbers `f a` over the members `a` of a list. -/
def sumOf (f : α → Nat) : List α → Nat
  | [] => 0
  | a :: rest => f a + sumOf f rest

/-- The sum over no members. -/
@[simp] theorem sumOf_nil (f : α → Nat) : sumOf f [] = 0 := rfl

/-- The sum over one more member. -/
@[simp] theorem sumOf_cons (f : α → Nat) (a : α) (rest : List α) :
    sumOf f (a :: rest) = f a + sumOf f rest := rfl

/-- The sum over the members of two lists. -/
@[simp] theorem sumOf_append (f : α → Nat) (xs ys : List α) :
    sumOf f (xs ++ ys) = sumOf f xs + sumOf f ys := by
  induction xs with
  | nil => simp
  | cons a rest ih => simp [ih, Nat.add_assoc]

/-- The sum over what a function makes of the members. -/
@[simp] theorem sumOf_map (f : β → Nat) (g : α → β) (xs : List α) :
    sumOf f (xs.map g) = sumOf (fun a => f (g a)) xs := by
  induction xs with
  | nil => rfl
  | cons a rest ih => simp [ih]

/-- The order of the members does not matter to `sumOf`. -/
@[simp] theorem sumOf_reverse (f : α → Nat) (xs : List α) : sumOf f xs.reverse = sumOf f xs := by
  induction xs with
  | nil => rfl
  | cons a rest ih => simp [ih, Nat.add_comm]

/-- A member adds no more than the sum, `f a ≤ sumOf f xs`. -/
theorem le_sumOf_of_mem (f : α → Nat) {a : α} {xs : List α} (h : a ∈ xs) : f a ≤ sumOf f xs := by
  induction xs with
  | nil => exact absurd h List.not_mem_nil
  | cons b rest ih =>
    rw [sumOf_cons]
    rcases List.mem_cons.mp h with rfl | h
    · exact Nat.le_add_right _ _
    · exact Nat.le_trans (ih h) (Nat.le_add_left _ _)

end Detachment
