import Std.Data.ExtTreeMap
import Detachment.Basis
import Detachment.Storage.Error

/-! # Run information

What is kept next to the representatives: the name of the system, its axioms, and how many
candidates were tried and how many conclusions were removed for each length.

    [default]
    1: C0C1.0 = 0→(1→0)
    #iterations;3:9,5:36
    #removals;3:0,5:3

`Metadata.render` writes this text and `Metadata.parse` reads it. -/

namespace Detachment

/-- Numbers by length, in the order of the lengths. -/
abbrev Counters := Std.ExtTreeMap Nat Nat compare

/-- What is known about a run. -/
structure Metadata where
  /-- The name of the system. -/
  hash : String
  /-- One line for each axiom. -/
  axioms : List String
  /-- The candidates tried for each length. -/
  iterations : Counters
  /-- The conclusions removed for each length. -/
  removals : Counters

namespace Metadata

/-- The information before the first round: the system has a name and axioms, and there are no
numbers. -/
def ofBasis (basis : Basis) : Metadata where
  hash := basis.fingerprint
  axioms := basis.describe
  iterations := ∅
  removals := ∅

/-- Note the numbers of a length, in the place of earlier ones for the same `length`. -/
def record (m : Metadata) (length iterations removals : Nat) : Metadata :=
  { m with
    iterations := m.iterations.insert length iterations
    removals := m.removals.insert length removals }

/-- Add numbers in the order of their lengths. The first length at which the sum is no longer below
`Text.bound64` is reported. -/
def addUp : Nat → List (Nat × Nat) → Except StoreError Nat
  | total, [] => .ok total
  | total, (length, count) :: rest =>
    if total + count < Text.bound64 then addUp (total + count) rest
    else .error (.counterOverflow length)

/-- The number of candidates tried for all lengths, the sum of `iterations`. -/
def total (m : Metadata) : Except StoreError Nat :=
  addUp 0 m.iterations.toList

/-- A guess at the number of candidates of the length after `length`, from the growth between the
two last recorded lengths. With `current` candidates after `previous` ones it is
`current * ⌈current / previous⌉`; it never exceeds what 64 bits can hold. -/
def estimate? (m : Metadata) (length : Nat) : Option Nat :=
  match m.iterations[length]?, (m.iterations.toList.filter (·.1 < length)).getLast? with
  | some current, some (_, previous) =>
    if previous = 0 then none
    else some (min (current * max ((current + previous - 1) / previous) 1) (Text.bound64 - 1))
  | _, _ => none

/-! ## Writing -/

/-- One number with its length, such as `3:9`. -/
def counterText (counter : Nat × Nat) : String :=
  String.ofList (Text.digits counter.1 ++ ':' :: Text.digits counter.2)

/-- Numbers with their lengths and commas between them, such as `3:9,5:36`. -/
def countersText (counters : Counters) : String :=
  Text.join "," (counters.toList.map counterText)

/-- The word before the candidates tried, by which `parseLines` knows their line. -/
def iterationsMark : String := "#iterations;"

/-- The word before the conclusions removed, by which `parseLines` knows their line. -/
def removalsMark : String := "#removals;"

/-- The lines of the text: the name in brackets, the axioms, `iterations` and `removals`. -/
def renderLines (m : Metadata) : List String :=
  ("[" ++ m.hash ++ "]") :: m.axioms ++
    [iterationsMark ++ countersText m.iterations, removalsMark ++ countersText m.removals]

/-- The text of the information: `renderLines`, each with a line feed. -/
def render (m : Metadata) : String :=
  String.join (m.renderLines.map (· ++ "\n"))

/-! ## Reading -/

/-- The parts before and after the first colon, if there is one. -/
def splitColon? : List Char → Option (List Char × List Char)
  | [] => none
  | ':' :: rest => some ([], rest)
  | c :: rest => (splitColon? rest).map fun p => (c :: p.1, p.2)

/-- Read one number with its length, or say what is wrong with it. The length is below
`Text.bound32` and the number below `Text.bound64`. -/
def parseCounter (part : List Char) : Except String (Nat × Nat) :=
  match splitColon? part with
  | none =>
    let shown := String.ofList part
    .error s!"bad counter '{shown}'"
  | some (length, count) =>
    match Text.readNumeral? Text.bound32 length with
    | none =>
      let shown := String.ofList length
      .error s!"bad length '{shown}'"
    | some n =>
      match Text.readNumeral? Text.bound64 count with
      | none =>
        let shown := String.ofList count
        .error s!"bad count '{shown}'"
      | some k => .ok (n, k)

/-- Read numbers after those read so far; a length that comes again keeps the last number, as
`insert` replaces. -/
def parseParts : Counters → List (List Char) → Except String Counters
  | counters, [] => .ok counters
  | counters, part :: rest =>
    match parseCounter part with
    | .error reason => .error reason
    | .ok (length, count) => parseParts (counters.insert length count) rest

/-- Read numbers with commas between them, as `countersText` writes them; empty parts do not
count. -/
def parseCounters (s : List Char) : Except String Counters :=
  parseParts ∅ ((Basis.splitCommas s).filter (!·.isEmpty))

/-- What follows the word `mark`, if a line starts with it. -/
def after? (mark : String) (line : List Char) : Option (List Char) :=
  if mark.toList.isPrefixOf line then some (line.drop mark.toList.length) else none

/-- Read the lines after the first, the first of which has the given `number`. Lines with neither
`iterationsMark` nor `removalsMark` are axioms, unless they are empty. -/
def parseLines (path : Path) : Nat → Metadata → List (List Char) → Except StoreError Metadata
  | _, m, [] => .ok m
  | number, m, line :: rest =>
    match after? iterationsMark line with
    | some counters =>
      match parseCounters counters with
      | .error reason => .error (.malformed path number reason)
      | .ok iterations => parseLines path (number + 1) { m with iterations } rest
    | none =>
      match after? removalsMark line with
      | some counters =>
        match parseCounters counters with
        | .error reason => .error (.malformed path number reason)
        | .ok removals => parseLines path (number + 1) { m with removals } rest
      | none =>
        if line.isEmpty then parseLines path (number + 1) m rest
        else
          parseLines path (number + 1) { m with axioms := m.axioms ++ [String.ofList line] } rest

/-- The text between the brackets that a line consists of, such as `default` in `[default]`. -/
def bracketed? (line : List Char) : Option (List Char) :=
  if line.head? = some '[' ∧ line.getLast? = some ']' then some line.tail.dropLast else none

/-- Read the information from the lines of a file, as `render` writes it. -/
def parse (path : Path) (lines : List (List Char)) : Except StoreError Metadata :=
  match lines with
  | [] => .error (.malformed path 1 "missing [HASH] line")
  | first :: rest =>
    match bracketed? first with
    | none => .error (.malformed path 1 "missing [HASH] line")
    | some hash => parseLines path 2 ⟨String.ofList hash, [], ∅, ∅⟩ rest

end Metadata

end Detachment
