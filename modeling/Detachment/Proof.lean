import Detachment.Basis
import Detachment.Substitution.Unify

/-! # Condensed proofs

A proof is a text: the name of an axiom, `N` before a proof, or `D` before two proofs, the first of
which proves an implication. Reading it from right to left with a stack of formulas gives the most
general formula it proves.

* `Proof.conclusion` is that formula in canonical form, or the reason why there is none.
* `Proof.order` prefers short proofs and then compares texts. -/

namespace Detachment.Proof

/-- Why a text proves nothing (`Proof.conclusion`); positions count bytes. -/
inductive Fault where
  /-- The text is empty. -/
  | empty
  /-- A character is neither a rule nor the name of an axiom. -/
  | unknownSymbol (symbol : Char) (position : Nat)
  /-- A rule has too few premises. -/
  | missingPremise (position : Nat)
  /-- The major premise of a detachment is no implication. -/
  | notAnImplication (position : Nat)
  /-- The premises of a detachment do not fit together. -/
  | notUnifiable (position : Nat)
  /-- More than one formula is left at the end. -/
  | unconsumed (count : Nat)
  deriving DecidableEq, Repr

/-- The wording of a `Fault`, with the position of the symbol at fault. -/
def Fault.message : Fault → String
  | empty => "empty proof"
  | unknownSymbol symbol position => s!"unknown symbol '{symbol}' at {position}"
  | missingPremise position => s!"missing premise for rule at {position}"
  | notAnImplication position =>
    s!"major premise of detachment at {position} is not an implication"
  | notUnifiable position => s!"premises of detachment at {position} do not unify"
  | unconsumed count => s!"{count} formulas left unconsumed"

/-- The symbol of detachment. -/
def detachSymbol : Char := 'D'

/-- The symbol of necessitation. -/
def necessitateSymbol : Char := 'N'

/-- The formulas proved so far, and the first variable that none of them holds: copies of axioms
start at `next`. -/
structure Machine where
  /-- The formulas, the one proved last first. -/
  stack : List Formula
  /-- The first unused variable. -/
  next : Nat
  deriving DecidableEq, Repr

/-- The machine before any symbol is read, with nothing on its `stack`. -/
def Machine.start : Machine := ⟨[], 0⟩

/-- Detach: the formula proved last is the major premise, the one before it the minor premise, and
`detach?` gives the conclusion. -/
def Machine.detach (position : Nat) (m : Machine) : Except Fault Machine :=
  match m.stack with
  | major :: minor :: rest =>
    match major.implication? with
    | none => .error (.notAnImplication position)
    | some _ =>
      match detach? major minor with
      | none => .error (.notUnifiable position)
      | some consequent => .ok { m with stack := consequent :: rest }
  | _ => .error (.missingPremise position)

/-- Put the formula proved last under necessity (`Formula.necessarily`). -/
def Machine.necessitate (position : Nat) (m : Machine) : Except Fault Machine :=
  match m.stack with
  | f :: rest => .ok { m with stack := f.necessarily :: rest }
  | [] => .error (.missingPremise position)

/-- Prove a copy of an axiom that shares no variable with the formulas proved so far, as its
variables start at `next`. -/
def Machine.assume (f : Formula) (m : Machine) : Machine :=
  ⟨f.shift m.next :: m.stack, m.next + f.span⟩

/-- Read one symbol: a rule (`detach` or `necessitate`), or the name of an axiom (`assume`). -/
def Machine.step (basis : Basis) (position : Nat) (symbol : Char) (m : Machine) :
    Except Fault Machine :=
  if symbol = detachSymbol then m.detach position
  else if symbol = necessitateSymbol then m.necessitate position
  else
    match basis.formula? symbol with
    | none => .error (.unknownSymbol symbol position)
    | some f => .ok (m.assume f)

/-- Read symbols from right to left (`step`); the first stands at the given `position`. -/
def Machine.run (basis : Basis) : Nat → List Char → Except Fault Machine
  | _, [] => .ok .start
  | position, symbol :: rest =>
    match run basis (position + symbol.utf8Size) rest with
    | .error fault => .error fault
    | .ok m => m.step basis position symbol

/-- The formula that a text proves, in canonical form: what is alone on the stack at the end of
`Machine.run`. -/
def conclusionChars (basis : Basis) (symbols : List Char) : Except Fault Formula :=
  if symbols.isEmpty then .error .empty
  else
    match Machine.run basis 0 symbols with
    | .error fault => .error fault
    | .ok ⟨[f], _⟩ => .ok f.canonical
    | .ok ⟨stack, _⟩ => .error (.unconsumed stack.length)

/-- The formula that a proof proves, in canonical form, by `conclusionChars`. -/
def conclusion (basis : Basis) (proof : String) : Except Fault Formula :=
  conclusionChars basis proof.toList

/-- The number of necessitations `N` that a proof starts with. -/
def leadingNecessitations (proof : String) : Nat :=
  (proof.toList.takeWhile (· = necessitateSymbol)).length

/-- The length of a proof in bytes; the name of every axiom and both rules have one byte. -/
def length (proof : String) : Nat :=
  proof.utf8ByteSize

/-- Shorter proofs (`length`) first, then in the order of their texts. -/
def order (a b : String) : Ordering :=
  (compare (length a) (length b)).then (compare a b)

/-- Whether the first proof does not come after the second in `order`. -/
def le (a b : String) : Bool :=
  (order a b).isLE

end Detachment.Proof
