import Detachment.Candidates.Grammar

/-! # Counting candidates

The number of candidates of a length, without finding them. Numbers that 64 bits cannot hold are
absent, and so is everything that depends on them.

* `Grammar.tally` counts the ways to follow productions when the counts of shorter slots are given,
  and leaves off at the first number that is absent.
* `Grammar.tallies` fills in the counts of all prepared lengths, the shortest first. -/

namespace Detachment

/-- A number, if 64 bits can hold it: it is below `Text.bound64`. -/
def count64? (n : Nat) : Option Nat :=
  if n < Text.bound64 then some n else none

/-- The counts of the lengths beyond a table's limit, for each length and each run of necessitations
before it; `slotCount` looks them up. -/
abbrev Tallies := Array (Array (Option Nat))

namespace Grammar

/-- The run of necessitations whose counts are those of another run: without a limit (`unbounded`),
all runs have the same. -/
def distinctRun (g : Grammar) (run : Nat) : Nat :=
  if g.necessitation = .unbounded then 0 else run

/-- The number of ways to fill a slot after a `run` of necessitations: the entries that are
`fitting`, or what the `tallies` have. -/
def slotCount (g : Grammar) (tallies : Tallies) (slot : Slot) (run : Nat) : Option Nat :=
  match slot with
  | .known length => some (g.fitting length run).length
  | .longer length =>
    (tallies.getD (length - (g.knownLimit + 1)) #[]).getD (g.distinctRun run) none

/-- The number of ways to follow a production: a product for a detachment, and none for a
necessitation that the `run` does not allow. -/
def productionCount (g : Grammar) (tallies : Tallies) (run : Nat) : Production → Option Nat
  | .necessitate inner =>
    if g.necessitation.allows (run + 1) then g.slotCount tallies inner (run + 1) else some 0
  | .detach major minor =>
    match g.slotCount tallies major 0, g.slotCount tallies minor 0 with
    | some a, some b => count64? (a * b)
    | _, _ => none

/-- The number of ways to follow some productions after a `run` of necessitations, added to a
`total`. It is absent as soon as one `productionCount` or a sum is. -/
def tally (g : Grammar) (tallies : Tallies) (run : Nat) : Nat → List Production → Option Nat
  | total, [] => some total
  | total, p :: rest =>
    match g.productionCount tallies run p with
    | none => none
    | some n =>
      match count64? (total + n) with
      | none => none
      | some total => g.tally tallies run total rest

/-- The longest run of necessitations before a proof of a length that has a count of its own, given
the lengths that are prepared. See `distinctRun` for `unbounded`. -/
def longestRun (g : Grammar) (length : Nat) : Nat :=
  match g.necessitation with
  | .disabled => 0
  | .bounded most => min most (g.maxLength - length)
  | .unbounded => 0

/-- The counts of one length more, for each run up to its `longestRun`. -/
def extendTallies (g : Grammar) (tallies : Tallies) : Tallies :=
  let length := g.knownLimit + 1 + tallies.size
  let productions := g.productions length
  tallies.push ((Array.range (g.longestRun length + 1)).map fun run =>
    g.tally tallies run 0 productions)

/-- The counts of all prepared lengths beyond the table's limit, by `extendTallies` from the
shortest on. -/
def tallies (g : Grammar) : Tallies :=
  (List.range (g.maxLength - g.knownLimit)).foldl (fun t _ => g.extendTallies t) #[]

/-- The number of candidates of a length, looked up in the `tallies`. -/
def count (g : Grammar) (tallies : Tallies) (length : Nat) : Option Nat :=
  let slot := g.slotFor length
  if g.isRealizable slot then g.slotCount tallies slot 0 else some 0

/-- The number of candidates of some lengths in turn, or the first length that is not prepared
(`maxLength`). -/
def counts (g : Grammar) (lengths : List Nat) : Except Nat (List (Option Nat)) :=
  match lengths.find? (g.maxLength < ·) with
  | some length => .error length
  | none =>
    let tallies := g.tallies
    .ok (lengths.map (g.count tallies))

end Grammar

end Detachment
