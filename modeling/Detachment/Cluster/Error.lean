/-! # Errors of a group

Why a letter could not be carried, and why a rank's run failed. -/

namespace Detachment.Cluster

/-- What is wrong with the address of a host: it is not of the form `host:port`. -/
inductive AddressFault where
  /-- It has no colon. -/
  | noColon
  /-- What stands behind the last colon is no number of 16 bits. -/
  | badNumber
  deriving DecidableEq, Repr

/-- The wording of an `AddressFault`. -/
def AddressFault.message : AddressFault → String
  | noColon => "invalid socket address"
  | badNumber => "invalid port value"

/-- Why a letter could not be carried, or a group could not be connected. -/
inductive TransportError where
  /-- The group has no such rank. -/
  | unknownRank (rank : Nat)
  /-- A peer is gone. -/
  | disconnected (rank : Nat)
  /-- A peer could not be reached. -/
  | unreachable (host : String)
  /-- The address of a host cannot be used. -/
  | address (fault : AddressFault)
  deriving DecidableEq, Repr

/-- The wording of a `TransportError`. -/
def TransportError.message : TransportError → String
  | unknownRank rank => s!"no rank {rank}"
  | disconnected rank => s!"rank {rank} disconnected"
  | unreachable host => "could not connect to " ++ host
  | address fault => "i/o error: " ++ fault.message

/-- What a rank loaded: the number of candidates and their length. `Member.receive` compares it with
what the coordinator loaded. -/
structure Load where
  /-- The number of candidates. -/
  candidates : Nat
  /-- The length of their proofs. -/
  length : Nat
  deriving DecidableEq, Repr

/-- A message that should not have come, and what ends a run if it does. -/
inductive Violation where
  /-- A rank other than the coordinator was told what another rank loaded. -/
  | handshakeTo (rank : Nat)
  /-- A span was granted that nobody asked for. -/
  | unclaimedGrant
  /-- The coordinator was told to stop. -/
  | coordinatorTerminated
  /-- No rank was the coordinator. -/
  | noResult
  deriving DecidableEq, Repr

/-- The wording of a `Violation`. -/
def Violation.message : Violation → String
  | handshakeTo rank => s!"handshake sent to rank {rank}"
  | unclaimedGrant => "reservation granted without an attempt"
  | coordinatorTerminated => "terminate sent to the coordinator"
  | noResult => "no coordinator result"

/-- Why a rank's run failed: it ends with this in the place of a result. -/
inductive RunError where
  /-- A rank loaded something else than the coordinator. -/
  | mismatch (rank : Nat) (expected found : Load)
  /-- The coordinator gave up. -/
  | aborted (reason : String)
  /-- A letter could not be carried. -/
  | transport (e : TransportError)
  /-- A message came that should not have come. -/
  | violation (v : Violation)
  /-- The run was cancelled. -/
  | cancelled
  deriving DecidableEq, Repr

/-- The wording of a `RunError`; those of others are behind a word that says which they are. -/
def RunError.message : RunError → String
  | mismatch rank ⟨wanted, wantedLength⟩ ⟨count, length⟩ =>
    s!"rank {rank} loaded {count} candidates of length {length}, " ++
      s!"expected {wanted} of length {wantedLength}"
  | aborted reason => s!"aborted: {reason}"
  | transport e => "transport: " ++ e.message
  | violation v => "protocol violation: " ++ v.message
  | cancelled => "cancelled"

end Detachment.Cluster
