import Detachment.Cluster.Span
import Detachment.Json.Quoted
import Detachment.Json.Value
import Detachment.Text.Blank

/-! # Messages between ranks

What the ranks of a group tell each other, and its text: each message is one line of JSON. Reading
is strict about numbers, strings and repeated or missing fields, and passes over unknown fields.

* `Message.encode` writes a message.
* `Message.decode?` reads one. -/

namespace Detachment.Cluster

/-- A message from one rank to another. -/
inductive Message where
  /-- What a rank loaded, told to the coordinator before anything else. -/
  | handshake (candidates length : Nat)
  /-- The coordinator gave up. -/
  | abort (reason : String)
  /-- The candidate with this index is redundant. -/
  | redundant (index : Nat)
  /-- The sender has no more indices to report. -/
  | finished
  /-- Asks which span the recipient would give away. -/
  | offerRequest
  /-- The span that the sender would give away; an empty one means none. -/
  | offer (span : Span)
  /-- Asks for exactly this span. -/
  | claim (span : Span)
  /-- Whether the span asked for now belongs to the recipient. -/
  | claimAnswer (granted : Bool)
  /-- The coordinator has every result. -/
  | terminate
  deriving DecidableEq, Repr

namespace Message

/-- The index that stands for the end of a rank's report, `Message.finished`: the largest that 64
bits can hold. -/
def lastIndex : Nat := Text.bound64 - 1

/-! ## Writing -/

/-- An object with one member, named `name`. -/
def member (name value : String) : String :=
  "\x7b" ++ Json.quote name ++ ":" ++ value ++ "\x7d"

/-- An object with two members `a` and `b` whose values are numbers. -/
def pair (a : String) (m : Nat) (b : String) (n : Nat) : String :=
  "\x7b" ++ Json.quote a ++ ":" ++ toString m ++ "," ++ Json.quote b ++ ":" ++ toString n ++ "\x7d"

/-- The text of a span, with the members `first` and `end`. -/
def spanText (s : Span) : String :=
  pair "first" s.first "end" s.stop

/-- The text of a message. Both `redundant` and `finished` are written as `IndexDone`. -/
def encode : Message → String
  | handshake candidates length => member "Handshake" (pair "candidates" candidates "length" length)
  | abort reason => member "Abort" (member "reason" (Json.quote reason))
  | redundant index => member "IndexDone" (toString index)
  | finished => member "IndexDone" (toString lastIndex)
  | offerRequest => Json.quote "ReservableRequest"
  | offer span => member "ReservableResponse" (spanText span)
  | claim span => member "ReservationAttempt" (spanText span)
  | claimAnswer granted => member "ReservationResponse" (if granted then "true" else "false")
  | terminate => Json.quote "Terminate"

/-! ## Reading -/

/-- A natural number below `bound`, written with digits only. -/
def natural? (bound : Nat) : Json.Value → Option Nat
  | .natural n => if n < bound then some n else none
  | _ => none

/-- The value of the member `name`, if it occurs once. -/
def once? (name : String) (members : List (String × Json.Value)) : Option Json.Value :=
  match members.filter fun m => m.1 = name with
  | [(_, value)] => some value
  | _ => none

/-- The members of an object by their names, if these are well formed (`Json.plain?`). -/
def named? (members : List (Json.Chars × Json.Value)) : Option (List (String × Json.Value)) :=
  members.mapM fun (key, value) => (Json.plain? key).map fun name => (name, value)

/-- The values of the fields with these names, written as an object or, in this order, as an array.
An object may have other fields, which are passed over. -/
def fields? (names : List String) : Json.Value → Option (List Json.Value)
  | .object members => (named? members).bind fun members => names.mapM fun name => once? name members
  | .array items => if items.length = names.length then some items else none
  | _ => none

/-- The message whose name stands alone: one without a content. -/
def bare? : String → Option Message
  | "ReservableRequest" => some offerRequest
  | "Terminate" => some terminate
  | _ => none

/-- A span of 64-bit positions, as `spanText` writes it. -/
def span? (value : Json.Value) : Option Span :=
  match fields? ["first", "end"] value with
  | some [first, stop] =>
    match natural? Text.bound64 first, natural? Text.bound64 stop with
    | some first, some stop => some ⟨first, stop⟩
    | _, _ => none
  | _ => none

/-- What a rank loaded: the number of candidates has 64 bits, and the length has 32. -/
def handshake? (value : Json.Value) : Option Message :=
  match fields? ["candidates", "length"] value with
  | some [candidates, length] =>
    match natural? Text.bound64 candidates, natural? Text.bound32 length with
    | some candidates, some length => some (handshake candidates length)
    | _, _ => none
  | _ => none

/-- The reason for giving up, a string. -/
def abort? (value : Json.Value) : Option Message :=
  match fields? ["reason"] value with
  | some [.string chars] => (Json.plain? chars).map abort
  | _ => none

/-- The message with a name and a content. A name that can stand alone (`bare?`) may also have the
content `null`. -/
def withContent? (name : String) (value : Json.Value) : Option Message :=
  match name with
  | "Handshake" => handshake? value
  | "Abort" => abort? value
  | "IndexDone" =>
    (natural? Text.bound64 value).map fun n => if n = lastIndex then finished else redundant n
  | "ReservableResponse" => (span? value).map offer
  | "ReservationAttempt" => (span? value).map claim
  | "ReservationResponse" =>
    match value with
    | .bool granted => some (claimAnswer granted)
    | _ => none
  | name =>
    match value with
    | .null => bare? name
    | _ => none

/-- The message that a value stands for: a name alone (`bare?`), or an object with one member
(`withContent?`). -/
def ofValue? : Json.Value → Option Message
  | .string chars => (Json.plain? chars).bind bare?
  | .object [(key, value)] => (Json.plain? key).bind fun name => withContent? name value
  | _ => none

/-- Read a message from a line, as `encode` writes it; blanks around it are passed over. -/
def decode? (line : String) : Option Message :=
  (Json.parse? (Text.trimBlanks line.toList)).bind ofValue?

end Message

end Detachment.Cluster
