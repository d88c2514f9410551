import Detachment.Sums

/-! # Round reports

What a round of collecting did, length by length. -/

namespace Detachment

/-- The numbers of one length, as `Collection.finishRound` counts them. -/
structure LengthReport where
  /-- The length. -/
  length : Nat
  /-- The candidates tried. -/
  iterations : Nat
  /-- The candidates that were expected, if 64 bits can hold the number. -/
  expected : Option Nat
  /-- The candidates that prove nothing. -/
  invalid : Nat
  /-- The proofs that lost to a better proof of the same conclusion. -/
  redundant : Nat
  /-- The conclusions removed as instances of others. -/
  removals : Nat
  /-- The proofs that represent their conclusions. -/
  representatives : Nat
  /-- Whether instances of others were kept. -/
  unfiltered : Bool
  deriving DecidableEq, Repr

/-- The numbers of a round, length by length; those of the whole round are sums. -/
structure RoundReport where
  /-- The numbers of each length. -/
  perLength : List LengthReport
  deriving DecidableEq, Repr

namespace RoundReport

/-- The lengths of the round. -/
def lengths (r : RoundReport) : List Nat :=
  r.perLength.map (·.length)

/-- The candidates tried, the sum of `LengthReport.iterations`. -/
def iterations (r : RoundReport) : Nat :=
  sumOf (·.iterations) r.perLength

/-- The candidates that prove nothing, the sum of `LengthReport.invalid`. -/
def invalid (r : RoundReport) : Nat :=
  sumOf (·.invalid) r.perLength

/-- The proofs that lost to a better proof of the same conclusion, the sum of
`LengthReport.redundant`. -/
def redundant (r : RoundReport) : Nat :=
  sumOf (·.redundant) r.perLength

/-- The conclusions removed as instances of others, the sum of `LengthReport.removals`. -/
def removals (r : RoundReport) : Nat :=
  sumOf (·.removals) r.perLength

/-- The conclusions that are left, the sum of `LengthReport.representatives`. -/
def conclusions (r : RoundReport) : Nat :=
  sumOf (·.representatives) r.perLength

end RoundReport

/-- The text of a list of lengths, such as `[3, 5]`. -/
def lengthsText (lengths : List Nat) : String :=
  "[" ++ String.intercalate ", " (lengths.map fun l => s!"{l}") ++ "]"

end Detachment
