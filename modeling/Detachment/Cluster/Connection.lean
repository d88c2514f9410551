import Detachment.Cluster.Mailboxes
import Detachment.Text.Numeral

/-! # Connections

How one rank of a group of hosts is connected to the others. A group of one rank needs no
connection; from here, no other host can be reached. -/

namespace Detachment.Cluster

/-- A rank of a group of hosts that is connected to no other. -/
structure Connection where
  /-- The rank. -/
  rank : Nat
  /-- The number of ranks. -/
  size : Nat
  deriving DecidableEq, Repr

namespace Connection

/-- The first number that 16 bits cannot hold, for the numbers of ports. -/
def bound16 : Nat := 65536

/-- What is wrong with an address, if anything is. A number below `bound16` has to stand behind the
last colon. -/
def addressFault? (host : String) : Option AddressFault :=
  let number := host.toList.reverse.takeWhile (· ≠ ':')
  if number.length = host.toList.length then some .noColon
  else if (Text.readNumeral? bound16 number.reverse).isNone then some .badNumber
  else none

/-- Look up an address; `addressFault?` is all that can be wrong with it. -/
def lookUp (host : String) : Except TransportError Unit :=
  match addressFault? host with
  | some fault => .error (.address fault)
  | none => .ok ()

/-- Connect the rank to every other host: first its own address is looked up (`lookUp`), then the
rank connects to those before it, and those behind it connect to the rank. -/
def establish (rank : Nat) (hosts : List String) : Except TransportError Connection := do
  match hosts[rank]? with
  | none => .error (.unknownRank rank)
  | some own =>
    lookUp own
    match hosts.take rank, hosts.drop (rank + 1) with
    | [], [] => .ok ⟨rank, hosts.length⟩
    | host :: _, _ =>
      lookUp host
      .error (.unreachable host)
    | [], host :: _ => .error (.unreachable host)

/-- Send a letter; no rank is connected, not even the rank itself, so the recipient is always an
`unknownRank`. -/
def send (_ : Connection) (letter : Letter) : Except TransportError Unit :=
  .error (.unknownRank letter.recipient)

/-- Take the next message that arrived; none ever does. -/
def receive? (_ : Connection) : Option Received :=
  none

end Connection

end Detachment.Cluster
