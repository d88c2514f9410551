/-! # Propositional formulas

Formulas over numbered variables with the connectives of classical and modal propositional logic.

* `Formula` is the syntax, with the arity of each connective in its type.
* `Formula.size`, `Formula.occurrences` and `Formula.maxVariable?` measure a formula.
* `Formula.map` renames variables and `Formula.subst` replaces them by formulas. -/

namespace Detachment

/-- Connectives with one argument; see `Modifier.letter` for their notation. -/
inductive Modifier where
  /-- Classical negation. -/
  | negation
  /-- Modal necessity. -/
  | necessity
  deriving DecidableEq, Repr

/-- Connectives with two arguments; see `Connective.letter` for their notation. -/
inductive Connective where
  /-- Material implication. -/
  | implication
  /-- Conjunction. -/
  | conjunction
  /-- Disjunction. -/
  | disjunction
  /-- Material equivalence. -/
  | equivalence
  deriving DecidableEq, Repr

/-- The letter that stands for a modifier in prefix notation. -/
def Modifier.letter : Modifier → Char
  | .negation => 'N'
  | .necessity => 'L'

/-- The sign that stands for a modifier in infix notation. -/
def Modifier.sign : Modifier → Char
  | .negation => '¬'
  | .necessity => '□'

/-- The letter that stands for a connective in prefix notation. -/
def Connective.letter : Connective → Char
  | .implication => 'C'
  | .conjunction => 'K'
  | .disjunction => 'A'
  | .equivalence => 'E'

/-- The sign that stands for a connective in infix notation. -/
def Connective.sign : Connective → Char
  | .implication => '→'
  | .conjunction => '∧'
  | .disjunction => '∨'
  | .equivalence => '↔'

/-- An operator of either arity, as it is read from its letter (`Operator.ofLetter?`). -/
inductive Operator where
  /-- An operator with one argument. -/
  | unary (op : Modifier)
  /-- An operator with two arguments. -/
  | binary (op : Connective)
  deriving DecidableEq, Repr

namespace Operator

/-- The number of arguments an operator takes, `1` or `2`. -/
def arity : Operator → Nat
  | unary _ => 1
  | binary _ => 2

/-- The letter of an operator in prefix notation. -/
def letter : Operator → Char
  | unary op => op.letter
  | binary op => op.letter

/-- The sign of an operator in infix notation. -/
def sign : Operator → Char
  | unary op => op.sign
  | binary op => op.sign

/-- The operator that a letter stands for, if it is one of the six. -/
def ofLetter? : Char → Option Operator
  | 'C' => some (binary .implication)
  | 'N' => some (unary .negation)
  | 'L' => some (unary .necessity)
  | 'K' => some (binary .conjunction)
  | 'A' => some (binary .disjunction)
  | 'E' => some (binary .equivalence)
  | _ => none

/-- Each operator is read back from its `letter`. -/
@[simp] theorem ofLetter?_letter (op : Operator) : ofLetter? op.letter = some op := by
  cases op with
  | unary op => cases op <;> rfl
  | binary op => cases op <;> rfl

end Operator

/-- A propositional formula; variables are numbered. The constructors have the arities of their
operators. -/
inductive Formula where
  /-- A variable. -/
  | var (id : Nat)
  /-- A modifier applied to a formula. -/
  | unary (op : Modifier) (body : Formula)
  /-- A connective applied to two formulas. -/
  | binary (op : Connective) (left right : Formula)
  deriving DecidableEq, Repr, Inhabited

/-- What stands at the root of a formula, without its arguments. -/
inductive Head where
  /-- A variable. -/
  | var (id : Nat)
  /-- An operator. -/
  | operator (op : Operator)
  deriving DecidableEq, Repr

/-- The text of a head: `x` and the number, or the operator's letter. -/
def Head.text : Head → String
  | var id => s!"x{id}"
  | operator op => String.singleton op.letter

/-- The number of arguments that a head takes. -/
def Head.arity : Head → Nat
  | var _ => 0
  | operator op => op.arity

namespace Formula

/-- The implication from one formula to another. -/
abbrev implies (antecedent consequent : Formula) : Formula :=
  binary .implication antecedent consequent

/-- The necessity of a formula. -/
abbrev necessarily (f : Formula) : Formula :=
  unary .necessity f

/-- What stands at the root; the rest are the `arguments`. -/
def head : Formula → Head
  | var id => .var id
  | unary op _ => .operator (.unary op)
  | binary op _ _ => .operator (.binary op)

/-- The arguments of the root, from left to right. -/
def arguments : Formula → List Formula
  | var _ => []
  | unary _ f => [f]
  | binary _ f g => [f, g]

/-- The number of nodes, variables included, so it is never zero (`size_pos`). -/
def size : Formula → Nat
  | var _ => 1
  | unary _ f => f.size + 1
  | binary _ f g => f.size + g.size + 1

/-- The variables in the order of the notation, each as often as it stands there, in front of
others. It is `occurrences` without an append for each node. -/
def occurrencesOnto : Formula → List Nat → List Nat
  | var id, rest => id :: rest
  | unary _ f, rest => f.occurrencesOnto rest
  | binary _ f g, rest => f.occurrencesOnto (g.occurrencesOnto rest)

/-- The variables in the order of the notation, each as often as it stands there
(`occurrencesOnto`). -/
def occurrences (f : Formula) : List Nat :=
  f.occurrencesOnto []

/-- The distinct variables, in the order of their first occurrence in `occurrences`. -/
def distinctVariables (f : Formula) : List Nat :=
  f.occurrences.eraseDups

/-- The largest variable of a formula; each formula has one, as it has `occurrences`. -/
def maxVariable : Formula → Nat
  | var id => id
  | unary _ f => f.maxVariable
  | binary _ f g => max f.maxVariable g.maxVariable

/-- One more than the largest variable, so that a `shift` by it leaves the formula's variables. -/
def span (f : Formula) : Nat :=
  f.maxVariable + 1

/-- The antecedent and the consequent of an implication, and nothing for other formulas. -/
def implication? : Formula → Option (Formula × Formula)
  | binary .implication f g => some (f, g)
  | _ => none

/-- Rename every variable. It is the replacement of each by a variable (`map_eq_subst`). -/
def map (rename : Nat → Nat) : Formula → Formula
  | var id => var (rename id)
  | unary op f => unary op (f.map rename)
  | binary op f g => binary op (f.map rename) (g.map rename)

/-- Replace every variable by a formula, all at once. -/
def subst (replace : Nat → Formula) : Formula → Formula
  | var id => replace id
  | unary op f => unary op (f.subst replace)
  | binary op f g => binary op (f.subst replace) (g.subst replace)

/-- Whether some variable of the formula passes a `test`, from left to right. -/
def anyVariable (test : Nat → Bool) : Formula → Bool
  | var id => test id
  | unary _ f => f.anyVariable test
  | binary _ f g => f.anyVariable test || g.anyVariable test

/-- Add `offset` to every variable, so that formulas share none. -/
def shift (offset : Nat) (f : Formula) : Formula :=
  f.map (· + offset)

/-- The variables of a formula stand in front of all others: `occurrencesOnto` appends. -/
theorem occurrencesOnto_eq (f : Formula) (rest : List Nat) :
    f.occurrencesOnto rest = f.occurrences ++ rest := by
  induction f generalizing rest with
  | var => rfl
  | unary op f ih => exact ih rest
  | binary op f g ihf ihg =>
    rw [occurrences, occurrencesOnto, occurrencesOnto, ihf, ihf (g.occurrencesOnto []), ihg,
      List.append_assoc]
    rfl

/-- A variable holds itself. -/
@[simp] theorem occurrences_var (id : Nat) : (var id).occurrences = [id] := rfl

/-- A formula with two arguments holds the variables of the left one, then those of the right
one. -/
@[simp] theorem occurrences_binary (op : Connective) (f g : Formula) :
    (binary op f g).occurrences = f.occurrences ++ g.occurrences :=
  occurrencesOnto_eq f g.occurrences

/-- Every formula has at least one node: `size` is positive. -/
theorem size_pos (f : Formula) : 0 < f.size := by
  cases f <;> simp [size]

/-- Replacing each variable by itself changes nothing, `f.subst var = f`. -/
@[simp] theorem subst_var (f : Formula) : f.subst var = f := by
  induction f with
  | var => rfl
  | unary op f ih => simp [subst, ih]
  | binary op f g ihf ihg => simp [subst, ihf, ihg]

/-- Two replacements in turn are one: the second is made in what the first one puts in. -/
theorem subst_subst (s t : Nat → Formula) (f : Formula) :
    (f.subst s).subst t = f.subst fun id => (s id).subst t := by
  induction f with
  | var => rfl
  | unary op f ih => simp [subst, ih]
  | binary op f g ihf ihg => simp [subst, ihf, ihg]

/-- A renaming is a replacement by variables, so what holds of `subst` holds of `map`. -/
theorem map_eq_subst (rename : Nat → Nat) (f : Formula) :
    f.map rename = f.subst fun id => var (rename id) := by
  induction f with
  | var => rfl
  | unary op f ih => simp [map, subst, ih]
  | binary op f g ihf ihg => simp [map, subst, ihf, ihg]

/-- Replacements that agree on the `occurrences` of a formula agree on the formula. -/
theorem subst_congr {s t : Nat → Formula} {f : Formula}
    (h : ∀ id ∈ f.occurrences, s id = t id) : f.subst s = f.subst t := by
  induction f with
  | var id => exact h id (by simp)
  | unary op f ih => simp [subst, ih h]
  | binary op f g ihf ihg =>
    simp only [occurrences_binary, List.mem_append] at h
    simp [subst, ihf fun id m => h id (.inl m), ihg fun id m => h id (.inr m)]

/-- A test on variables is a test on the `occurrences`. -/
theorem anyVariable_eq (test : Nat → Bool) (f : Formula) :
    f.anyVariable test = f.occurrences.any test := by
  induction f with
  | var => simp [anyVariable]
  | unary op f ih => exact ih
  | binary op f g ihf ihg => simp [anyVariable, ihf, ihg]

end Formula

end Detachment
