import Detachment.Collection.Basic
import Detachment.Storage.Store

/-! # Resuming

A collection is built again from the representatives in a store: length after length, as long as
there is a file for the next one. Every stored proof is read again, and a conclusion that was stored
with it must be the one that it proves. -/

namespace Detachment.Collection

/-- Read a stored proof again (`Proof.conclusion`). A conclusion that was stored with it has to be
the same, up to `canonical` form. -/
def restore (basis : Basis) (stored : StoredProof) : Except Error Formula :=
  match Proof.conclusion basis stored.proof with
  | .error fault => .error (.corruptProof stored.proof fault.message)
  | .ok conclusion =>
    match stored.conclusion with
    | none => .ok conclusion
    | some recorded =>
      if recorded.canonical = conclusion then .ok conclusion
      else
        let derived := conclusion.polish
        let claimed := recorded.polish
        .error (.corruptProof stored.proof s!"derives {derived}, but {claimed} was recorded")

/-- Register stored proofs in turn, up to the first that `restore` refuses. -/
def restoreAll (basis : Basis) : Registry → List StoredProof → Except Error Registry
  | r, [] => .ok r
  | r, stored :: rest =>
    match restore basis stored with
    | .error e => .error e
    | .ok conclusion =>
      restoreAll basis (r.insert conclusion.polish stored.proof conclusion).2 rest

/-- Take over the stored proofs of a length: they are registered (`restoreAll`), published and
reported with the numbers that the run information has. -/
def takeOver (c : Collection) (metadata : Option Metadata) (length : Nat)
    (stored : List StoredProof) : Except Error Collection :=
  match restoreAll c.basis c.registry stored with
  | .error e => .error e
  | .ok registry =>
    let numberOf := fun counters : Metadata → Counters =>
      (metadata.bind fun m => (counters m)[length]?).getD 0
    .ok { c with
      registry
      table := c.table.publish length (stored.map (·.proof))
      history := c.history ++ [⟨[{
        length
        iterations := numberOf (·.iterations)
        expected := none
        invalid := 0
        redundant := 0
        removals := numberOf (·.removals)
        representatives := stored.length
        unfiltered := (c.settings.filter.offFrom? length).isSome }]⟩] }

/-- Take over length after length (`takeOver`), as long as there is a file for the next one. There
are no more such files than nodes in the tree, which `fuel` exceeds. -/
def takeOverFrom (store : Store) (t : FileTree) (metadata : Option Metadata) :
    Nat → Nat → Collection → Except Error Collection
  | 0, _, c => .ok c
  | fuel + 1, length, c =>
    match store.loadRepresentatives t length (c.settings.filter.offFrom? length) with
    | .error e => .error (.store e)
    | .ok none => .ok c
    | .ok (some stored) =>
      match c.takeOver metadata length stored with
      | .error e => .error e
      | .ok c =>
        takeOverFrom store t metadata fuel (length + c.settings.necessitation.step) c

/-- Build the collection of a store again: `takeOverFrom` the length after that of the axioms, from
a collection that knows these. -/
def resume (store : Store) (t : FileTree) (basis : Basis) (settings : Settings) :
    Except Error Collection :=
  let c := start basis settings
  match store.loadMetadata t with
  | .error e => .error (.store e)
  | .ok metadata =>
    takeOverFrom store t metadata (t.nodes.length + 1) (1 + settings.necessitation.step) c

end Detachment.Collection
