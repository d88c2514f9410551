import Detachment.Formula.Polish

/-! # Canonical forms

Formulas up to renaming: `Formula.canonical` numbers the variables in the order of their first
occurrence, and `Formula.key` is the text of that form. -/

namespace Detachment.Formula

/-- The same formula with its variables numbered in the order of their first occurrence: a variable
gets its place in `distinctVariables`. -/
def canonical (f : Formula) : Formula :=
  let order := f.distinctVariables
  f.map order.idxOf

/-- The text that identifies a formula up to renaming: its `canonical` form in prefix notation. -/
def key (f : Formula) : String :=
  f.canonical.polish

/-- One more than the largest variable, `span`, unless 32 bits cannot hold it. -/
def span? (f : Formula) : Option Nat :=
  if f.span < Text.bound32 then some f.span else none

/-- Add `offset` to every variable (`shift`), unless 32 bits cannot hold the result. -/
def shift? (offset : Nat) (f : Formula) : Option Formula :=
  if f.maxVariable + offset < Text.bound32 then some (f.shift offset) else none

/-- Whether every variable fits into 32 bits, that is below `Text.bound32`. -/
def Fits (f : Formula) : Prop :=
  f.maxVariable < Text.bound32

instance (f : Formula) : Decidable f.Fits :=
  inferInstanceAs (Decidable (f.maxVariable < Text.bound32))

end Detachment.Formula
