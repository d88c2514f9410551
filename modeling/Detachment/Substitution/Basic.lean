import Std.Data.ExtTreeMap
import Detachment.Formula.Polish

/-! # Triangular substitutions

Finite maps from variables to formulas in which a bound formula may itself hold bound variables.
Nothing is replaced when a variable is bound: `Substitution.resolve` follows variables, and
`Substitution.apply` replaces them all.

Following a binding may lead to another bound variable. Bindings made by unification never lead back
to a variable already passed, so the number of bindings is enough depth for `resolve`, `occurs` and
`apply`. -/

namespace Detachment

/-- A finite map from variables to formulas. Formulas are kept as they were bound, so `apply` may
have to replace again. -/
structure Substitution where
  /-- The bound variables with their formulas. -/
  bindings : Std.ExtTreeMap Nat Formula compare

namespace Substitution

/-- The substitution that binds nothing. -/
def empty : Substitution := ⟨∅⟩

/-- The formula that a variable is bound to, as it was bound. -/
def get? (σ : Substitution) (id : Nat) : Option Formula :=
  σ.bindings[id]?

/-- The number of bound variables, which is the depth for `resolve`, `apply` and `occurs`. -/
def size (σ : Substitution) : Nat :=
  σ.bindings.size

/-- Bind a variable that is not bound yet. No other binding changes (`get?_bind`). -/
def bind (σ : Substitution) (id : Nat) (f : Formula) : Substitution :=
  ⟨σ.bindings.insert id f⟩

/-- Follow bindings from a variable to a formula that is no bound variable, `depth` times at most.
What is inside a formula is not looked at. -/
def follow (σ : Substitution) : Nat → Formula → Formula
  | depth + 1, .var id =>
    match σ.get? id with
    | none => .var id
    | some f => σ.follow depth f
  | _, f => f

/-- Follow bindings from a variable to a formula that is no bound variable, by `follow`. -/
def resolve (σ : Substitution) (f : Formula) : Formula :=
  σ.follow σ.size f

/-- Replace bound variables, and those of the formulas put in their place, `depth` levels deep, by
`Formula.subst`. -/
def expand (σ : Substitution) : Nat → Formula → Formula
  | 0, f => f
  | depth + 1, f =>
    f.subst fun id =>
      match σ.get? id with
      | none => .var id
      | some g => σ.expand depth g

/-- Replace every bound variable, also those of the formulas put in their place, by `expand`. -/
def apply (σ : Substitution) (f : Formula) : Formula :=
  σ.expand σ.size f

/-- Whether a variable is met in a formula when bindings are followed `depth` levels deep. -/
def occursWithin (σ : Substitution) (id : Nat) : Nat → Formula → Bool
  | 0, f => f.anyVariable (· == id)
  | depth + 1, f =>
    f.anyVariable fun other =>
      match σ.get? other with
      | none => other == id
      | some g => σ.occursWithin id depth g

/-- Whether an unbound variable is met in a formula when all bindings are followed
(`occursWithin`). -/
def occurs (σ : Substitution) (id : Nat) (f : Formula) : Bool :=
  σ.occursWithin id σ.size f

/-- The bindings in the order of the variables, with the formulas as they were bound. -/
def toList (σ : Substitution) : List (Nat × Formula) :=
  σ.bindings.toList

/-- The text of one binding, such as `x0 -> C1.2`. -/
def bindingText (binding : Nat × Formula) : String :=
  let id := binding.1
  s!"x{id} -> " ++ binding.2.polish

/-- The text of a list of bindings, in parentheses and with commas between them. -/
def bindingsText (bindings : List (Nat × Formula)) : String :=
  "(" ++ Text.join ", " (bindings.map bindingText) ++ ")"

/-- The text of a substitution: its bindings in the order of `toList`. -/
def text (σ : Substitution) : String :=
  bindingsText σ.toList

/-- No variable is bound at first. -/
@[simp] theorem get?_empty (id : Nat) : empty.get? id = none := by
  simp [empty, get?]

/-- Binding a variable changes what this variable is bound to and nothing else. -/
theorem get?_bind (σ : Substitution) (id other : Nat) (f : Formula) :
    (σ.bind id f).get? other = if other = id then some f else σ.get? other := by
  simp [bind, get?, Std.ExtTreeMap.getElem?_insert, eq_comm (a := other)]

end Substitution

end Detachment
