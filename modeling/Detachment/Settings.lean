import Detachment.Text.Blank
import Detachment.Text.Numeral

/-! # Settings

The choices that shape an enumeration: how many necessitations may follow one another, and from
which length on conclusions are kept without looking for more general ones. -/

namespace Detachment

/-- How many necessitations may follow one another in a proof; `allows` counts them. -/
inductive NecessitationLimit where
  /-- Proofs use detachment only. -/
  | disabled
  /-- At most this many in a row. -/
  | bounded (most : Nat)
  /-- Any number in a row. -/
  | unbounded
  deriving DecidableEq, Repr

namespace NecessitationLimit

/-- Whether any necessitation is allowed. The limit `bounded 0` is like `disabled`. -/
def isEnabled : NecessitationLimit → Bool
  | disabled => false
  | bounded most => most != 0
  | unbounded => true

/-- Whether this many necessitations may follow one another. -/
def allows : NecessitationLimit → Nat → Bool
  | disabled, count => count == 0
  | bounded most, count => count ≤ most
  | unbounded, _ => true

/-- The distance between two lengths that proofs can have; detachment alone gives odd lengths, so it
is `2` unless `isEnabled`. -/
def step (limit : NecessitationLimit) : Nat :=
  if limit.isEnabled then 1 else 2

/-- The text of a limit, which `parse` reads. -/
def text : NecessitationLimit → String
  | disabled => "0"
  | bounded most => String.ofList (Text.digits most)
  | unbounded => "unbounded"

/-- A text that `parse` finds to be no limit, without the blanks around it. -/
structure ParseError where
  /-- The text. -/
  text : String
  deriving DecidableEq, Repr

/-- The wording of a `ParseError`, with the text in quotes. -/
def ParseError.message (e : ParseError) : String :=
  let text := e.text
  s!"invalid necessitation limit: '{text}'"

/-- Read a limit: a number, `off`, or `unbounded`, for which `-1` also stands. -/
def parse (s : String) : Except ParseError NecessitationLimit :=
  let trimmed := Text.trim s
  if trimmed = "unbounded" ∨ trimmed = "-1" then .ok unbounded
  else if trimmed = "0" ∨ trimmed = "off" then .ok disabled
  else
    match Text.readNumeral? Text.bound32 trimmed.toList with
    | some most => .ok (bounded most)
    | none => .error ⟨trimmed⟩

end NecessitationLimit

/-- From which length on instances of other conclusions are kept; absent if they never are. -/
structure InstanceFilter where
  /-- The first length that is not filtered. -/
  offFrom : Option Nat
  deriving DecidableEq, Repr

namespace InstanceFilter

/-- The filter that applies to every length (`appliesTo`). -/
def always : InstanceFilter := ⟨none⟩

/-- Whether conclusions with proofs of a length are filtered: the length is below `offFrom`. -/
def appliesTo (filter : InstanceFilter) (length : Nat) : Bool :=
  match filter.offFrom with
  | none => true
  | some first => length < first

/-- The first length that is not filtered, if the given length is one of those. It names the files
of such lengths. -/
def offFrom? (filter : InstanceFilter) (length : Nat) : Option Nat :=
  match filter.offFrom with
  | none => none
  | some first => if first ≤ length then some first else none

end InstanceFilter

/-- The settings of an enumeration, with which `Collection.start` begins. -/
structure Settings where
  /-- How many necessitations may follow one another. -/
  necessitation : NecessitationLimit
  /-- Which lengths are filtered. -/
  filter : InstanceFilter
  /-- The number of parts in which an index is built. -/
  workers : Nat
  deriving DecidableEq, Repr

end Detachment
