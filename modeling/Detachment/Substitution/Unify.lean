import Detachment.Substitution.Basic
import Detachment.Sums

/-! # Unification

Making two formulas equal by extending a triangular substitution.

* `Substitution.unifyNodes` goes through two formulas node by node, the right arguments of a binary
  formula before the left ones.
* `Substitution.unifyWithin` also follows bound variables on the left, a number of levels deep.
* `Substitution.unify` is the result for two formulas, and `unifier?` starts with no bindings.

The variables that are followed one inside the other are all different, because bindings never lead
back to a variable already passed. So as many levels as there are variables are enough. -/

namespace Detachment

namespace Substitution

/-- How a unification ended, and the bindings it made. -/
structure Unification where
  /-- Whether the formulas become equal. -/
  unified : Bool
  /-- The bindings at the end, also when the formulas cannot become equal. -/
  substitution : Substitution

/-- Bind a variable to a formula, unless it `occurs` in it. -/
def bindOrClash (σ : Substitution) (id : Nat) (f : Formula) : Unification :=
  if σ.occurs id f then ⟨false, σ⟩ else ⟨true, σ.bind id f⟩

/-- Unify two formulas node by node. Where a bound variable stands on the left, `deeper` takes over
from what it leads to (`resolve`), unless both sides lead to the same formula. -/
def unifyNodes (deeper : Substitution → Formula → Formula → Unification) :
    Substitution → Formula → Formula → Unification
  | σ, .var id, right =>
    let f := σ.resolve (.var id)
    let g := σ.resolve right
    if f = g then ⟨true, σ⟩
    else
      match f, g with
      | .var x, g => σ.bindOrClash x g
      | f, .var y => σ.bindOrClash y f
      | f, g => deeper σ f g
  | σ, .unary p f, right =>
    match σ.resolve right with
    | .var y => σ.bindOrClash y (.unary p f)
    | .unary q g => if p = q then unifyNodes deeper σ f g else ⟨false, σ⟩
    | .binary _ _ _ => ⟨false, σ⟩
  | σ, .binary p f₁ f₂, right =>
    match σ.resolve right with
    | .var y => σ.bindOrClash y (.binary p f₁ f₂)
    | .unary _ _ => ⟨false, σ⟩
    | .binary q g₁ g₂ =>
      if p = q then
        let result := unifyNodes deeper σ f₂ g₂
        if result.unified then unifyNodes deeper result.substitution f₁ g₁ else result
      else ⟨false, σ⟩

/-- Unify two formulas (`unifyNodes`), following bound variables on the left at most `depth` levels
deep. -/
def unifyWithin : Nat → Substitution → Formula → Formula → Unification
  | 0, σ, _, _ => ⟨false, σ⟩
  | depth + 1, σ, left, right => unifyNodes (unifyWithin depth) σ left right

/-- The number of nodes in two formulas and everything bound, which is more than the number of
variables there. It is the depth for `unify`. -/
def room (σ : Substitution) (left right : Formula) : Nat :=
  left.size + right.size + sumOf (·.2.size) σ.toList

/-- Extend a substitution so that two formulas become equal, by `unifyWithin` with enough `room`. -/
def unify (σ : Substitution) (left right : Formula) : Unification :=
  σ.unifyWithin (σ.room left right) left right

end Substitution

/-- The substitution that makes two formulas equal, if there is one: `unify` with no bindings
before. -/
def unifier? (left right : Formula) : Option Substitution :=
  let result := Substitution.empty.unify left right
  if result.unified then some result.substitution else none

/-- The conclusion of a conditional and its minor premise, in its most general form: the `unifier?`
of its antecedent and the minor premise, applied to its consequent. Variables that the two premises
share are the same variable. -/
def detach? (conditional minor : Formula) : Option Formula :=
  match conditional.implication? with
  | none => none
  | some (antecedent, consequent) => (unifier? antecedent minor).map (·.apply consequent)

end Detachment
