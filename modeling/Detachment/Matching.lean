import Detachment.Substitution.Basic

/-! # Matching

One-way matching: a `Matching` sends the variables of a general formula to formulas, and the
variables of the special formula are constants to it. `isSchema` says that one formula is an
instance of another. -/

namespace Detachment

/-- A finite map from the variables of general formulas to what they stand for. -/
structure Matching where
  /-- The mapped variables with their formulas, the newest first. -/
  bindings : List (Nat × Formula)
  deriving DecidableEq, Repr

namespace Matching

/-- The matching that maps nothing, from which `isSchema` starts. -/
def empty : Matching := ⟨[]⟩

/-- What a variable stands for: the newest of its `bindings`. -/
def get? (m : Matching) (id : Nat) : Option Formula :=
  m.bindings.lookup id

/-- One more than the largest mapped variable, or zero: `Matching.get?` is absent from there on. -/
def width (m : Matching) : Nat :=
  m.bindings.foldl (fun w b => max w (b.1 + 1)) 0

/-- Let a variable stand for `special`, unless it stands for another formula. -/
def matchVariable (m : Matching) (id : Nat) (special : Formula) : Bool × Matching :=
  match m.get? id with
  | none => (true, ⟨(id, special) :: m.bindings⟩)
  | some f => (f = special, m)

/-- Extend a matching so that it sends `general` to `special`, going only into pairs of formulas
that `allowed` lets through. On failure the matching keeps what was mapped on the way. -/
def extend (allowed : Formula → Formula → Bool) (m : Matching) :
    Formula → Formula → Bool × Matching
  | .var id, special => m.matchVariable id special
  | general@(.unary p f), special@(.unary q f') =>
    if p = q && allowed general special then m.extend allowed f f' else (false, m)
  | general@(.binary p f g), special@(.binary q f' g') =>
    if p = q && allowed general special then
      match m.extend allowed f f' with
      | (true, m') => m'.extend allowed g g'
      | (false, m') => (false, m')
    else (false, m)
  | _, _ => (false, m)

/-- Extend a matching so that it sends one formula to another. A formula is never larger than its
instances, so nothing is mapped for a pair of which the first has a larger `size`. -/
def matchFormula (m : Matching) (general special : Formula) : Bool × Matching :=
  m.extend (fun f g => f.size ≤ g.size) general special

/-- Replace the mapped variables of a formula, once; the others stay (`Formula.subst`). -/
def specialize (m : Matching) (f : Formula) : Formula :=
  f.subst fun id => (m.get? id).getD (.var id)

/-- The bindings in the order of the variables, for `Matching.text`. -/
def toList (m : Matching) : List (Nat × Formula) :=
  m.bindings.mergeSort fun a b => a.1 ≤ b.1

/-- The text of a matching, in the form of `Substitution.bindingsText`. -/
def text (m : Matching) : String :=
  Substitution.bindingsText m.toList

end Matching

/-- Whether replacing variables turns `general` into `special`. Sizes are not compared on the way,
unlike in `Matching.matchFormula`. -/
def isSchema (general special : Formula) : Bool :=
  (Matching.empty.extend (fun _ _ => true) general special).1

end Detachment
