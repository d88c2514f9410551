import Detachment.Collection.Basic
import Detachment.Text.Numeral

/-! # The profiler

A second program measures how long collecting takes. It collects the standard system up to a length,
and then generates the candidates of the next length without trying them. -/

namespace Detachment.CommandLine.Profile

/-- The line on how to use the program. -/
def usageLine : String := "Usage: profile_generation [max_length] [workers]"

/-- The length up to which to collect, `11` without arguments; none if the first argument is no
number of 32 bits. -/
def target? : List String → Option Nat
  | [] => some 11
  | text :: _ => Text.readNumeral? Text.bound32 text.toList

/-- The number of workers, if the second argument is a number, or else `1`. -/
def workers (arguments : List String) : Nat :=
  (arguments[1]?.bind fun text => Text.readNumeral? Text.bound64 text.toList).getD 1

/-- The collection at the start: the `standard` axioms, without necessitation, and all lengths
filtered. -/
def start (arguments : List String) : Collection :=
  .start .standard ⟨.disabled, .always, workers arguments⟩

/-- The line on a round, with the time `elapsed` at its end. -/
def roundLine (elapsed : String) (r : RoundReport) : String :=
  let lengths := lengthsText r.lengths
  let iterations := r.iterations
  let conclusions := r.conclusions
  s!"lengths {lengths}: {iterations} candidates, {conclusions} conclusions, {elapsed}s elapsed"

/-- The candidates of a length: their number, and the sum of their sizes in bytes. -/
structure Volume where
  /-- The length. -/
  length : Nat
  /-- The number of candidates. -/
  count : Nat
  /-- The sum of their sizes in bytes. -/
  bytes : Nat
  deriving DecidableEq, Repr

/-- Generate the candidates of the next length and add up their sizes (`Grammar.generate`). -/
def generate (c : Collection) : Volume :=
  let next := c.knownLimit + 2
  let g := (c.grammar next).generate false
    (fun (count, bytes) proof => ((count + 1, bytes + Proof.length proof), false)) (0, 0) [next]
  ⟨next, g.state.1, g.state.2⟩

/-- The line on the candidates of a length, from their `Volume`. -/
def volumeLine (elapsed : String) : Volume → String
  | ⟨length, count, bytes⟩ =>
    s!"generated {count} candidates of length {length} ({bytes} bytes) in {elapsed}s"

/-- The lines that the program prints, with the same text `elapsed` for every time that has
passed. -/
def lines (elapsed : String) (target : Nat) (c : Collection) : List String :=
  let p := c.collectUpTo target .stepwise false
    (fun shown _ r => (.ok (), shown ++ [roundLine elapsed r])) []
  p.state ++ [volumeLine elapsed (generate p.collection)]

end Detachment.CommandLine.Profile
