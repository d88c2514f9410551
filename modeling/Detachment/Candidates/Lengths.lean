/-! # Lengths of premises

Which lengths proofs can have, and which pairs of lengths the premises of a detachment can have so
that the whole is longer than the proofs in the table. -/

namespace Detachment

/-- The length of a premise, as far as the table of known proofs is concerned. -/
inductive PremiseLength where
  /-- Exactly this length, which the table covers. -/
  | known (length : Nat)
  /-- Any length beyond the table. -/
  | longer
  deriving DecidableEq, Repr

namespace PremiseLength

/-- The least length that is meant, when the table covers lengths up to `limit`: `longer` starts at
`limit + 1`. -/
def least (limit : Nat) : PremiseLength → Nat
  | known length => length
  | longer => limit + 1

/-- The text of a premise length, with `A` for any length beyond the table. -/
def text : PremiseLength → String
  | known length => s!"{length}"
  | longer => "A"

end PremiseLength

/-- Whether proofs can have a length: without necessitation it is odd, as a detachment `Dab` of two
proofs of odd length is again of odd length. -/
def canHaveLength (necessitation : Bool) (length : Nat) : Bool :=
  necessitation || length % 2 == 1

/-- The lengths that proofs can have (`canHaveLength`) up to a limit, in order. -/
def knownLengths (limit : Nat) (necessitation : Bool) : List Nat :=
  (List.range' 1 limit).filter (canHaveLength necessitation)

/-- The lengths of one premise, in order: the `knownLengths` and then `longer`. -/
def premiseLengths (limit : Nat) (necessitation : Bool) : List PremiseLength :=
  (knownLengths limit necessitation).map .known ++ [.longer]

/-- The pairs of lengths of the major and the minor premise of a detachment whose length
`1 + major + minor` is beyond the limit, at `least`. -/
def premisePairs (limit : Nat) (necessitation : Bool) : List (PremiseLength × PremiseLength) :=
  let lengths := premiseLengths limit necessitation
  lengths.flatMap fun major =>
    (lengths.filter fun minor => limit < 1 + major.least limit + minor.least limit).map (major, ·)

end Detachment
