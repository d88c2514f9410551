import Detachment.Cluster.Error
import Detachment.Cluster.Message

/-! # Mailboxes

The letters on their way within a group: one box per rank, in the order in which the letters were
sent. So letters between two ranks arrive in the order in which they were sent. -/

namespace Detachment.Cluster

/-- A message and the rank that it goes to. -/
structure Letter where
  /-- The rank that it goes to. -/
  recipient : Nat
  /-- What it says. -/
  message : Message
  deriving DecidableEq, Repr

/-- The letters with one `message` to every rank other than the sender, in the order of the
ranks. -/
def circular (size sender : Nat) (message : Message) : List Letter :=
  ((List.range size).filter (· ≠ sender)).map fun rank => ⟨rank, message⟩

/-- A message that arrived and the rank that sent it. -/
structure Received where
  /-- The rank that sent it. -/
  sender : Nat
  /-- What it says. -/
  message : Message
  deriving DecidableEq, Repr

/-- The box of each rank, with messages of all senders. -/
structure Mailboxes where
  /-- The messages that arrived, first ones first. -/
  boxes : Array (Array Received)
  deriving DecidableEq, Repr

namespace Mailboxes

/-- The empty boxes of a group of `size` ranks. -/
def ofSize (size : Nat) : Mailboxes := ⟨Array.replicate size #[]⟩

/-- The number of ranks. -/
def size (m : Mailboxes) : Nat :=
  m.boxes.size

/-- The messages that arrived at a rank; none if there is no such rank. -/
def box (m : Mailboxes) (rank : Nat) : Array Received :=
  m.boxes.getD rank #[]

/-- Put a letter into the box that it goes to, behind those that are there (`push`). -/
def send (m : Mailboxes) (sender : Nat) (letter : Letter) : Mailboxes :=
  ⟨m.boxes.modify letter.recipient (·.push ⟨sender, letter.message⟩)⟩

/-- Send letters in turn, up to the first that cannot be carried: `unknownRank` has its recipient.
Those before it have been sent. -/
def sendAll (m : Mailboxes) (sender : Nat) : List Letter → Option TransportError × Mailboxes
  | [] => (none, m)
  | letter :: rest =>
    if letter.recipient < m.size then (m.send sender letter).sendAll sender rest
    else (some (.unknownRank letter.recipient), m)

/-- The first message of `sender` in the box of `rank`. -/
def firstFrom? (m : Mailboxes) (rank sender : Nat) : Option Received :=
  (m.box rank).find? (·.sender = sender)

/-- Take the first message of `sender`, `firstFrom?`, out of the box of `rank`. -/
def dropFrom (m : Mailboxes) (rank sender : Nat) : Mailboxes :=
  ⟨m.boxes.modify rank (·.eraseP (·.sender = sender))⟩

/-- Take the first message out of a rank's box, whoever sent it. -/
def receive? (m : Mailboxes) (rank : Nat) : Option (Received × Mailboxes) :=
  (m.box rank)[0]?.map fun first => (first, m.dropFrom rank first.sender)

end Mailboxes

end Detachment.Cluster
