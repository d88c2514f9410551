import Std.Data.ExtTreeMap
import Detachment.Proof

/-! # Registries of conclusions

A registry maps the key of each conclusion to the best proof of it seen so far, so that its contents
do not depend on the order in which proofs arrive. -/

namespace Detachment

/-- A conclusion and the best proof of it, in the order `Proof.order`. -/
structure Entry where
  /-- The proof. -/
  proof : String
  /-- The conclusion. -/
  conclusion : Formula
  deriving DecidableEq, Repr

/-- What became of a proof that was offered to `Registry.insert`. -/
inductive Outcome where
  /-- Its conclusion was new. -/
  | inserted
  /-- It took the place of a worse proof with this length. -/
  | replaced (displaced : Nat)
  /-- A proof at least as good was there. -/
  | redundant
  deriving DecidableEq, Repr

/-- Whether the conclusion was new: the outcome is `inserted`. -/
def Outcome.isNew : Outcome → Bool
  | inserted => true
  | _ => false

/-- Conclusions by key. `Registry.toList` has them in the order of their proofs. -/
structure Registry where
  /-- The entries. -/
  entries : Std.ExtTreeMap String Entry compare

namespace Registry

/-- The registry without entries. -/
def empty : Registry := ⟨∅⟩

/-- The entry of a key, if there is one. -/
def get? (r : Registry) (key : String) : Option Entry :=
  r.entries[key]?

/-- The number of entries. -/
def size (r : Registry) : Nat :=
  r.entries.size

/-- Offer a proof of a conclusion; the better of the two proofs in `Proof.order` stays, with the
first conclusion. -/
def insert (r : Registry) (key proof : String) (conclusion : Formula) : Outcome × Registry :=
  match r.get? key with
  | none => (.inserted, ⟨r.entries.insert key ⟨proof, conclusion⟩⟩)
  | some old =>
    if Proof.order proof old.proof = .lt then
      (.replaced (Proof.length old.proof), ⟨r.entries.insert key { old with proof }⟩)
    else (.redundant, r)

/-- Remove some keys. Those without an entry are passed over. -/
def eraseAll (r : Registry) (keys : List String) : Registry :=
  keys.foldl (fun r key => ⟨r.entries.erase key⟩) r

/-- How many of some keys have entries: by how many the `size` gets smaller if they are removed. -/
def countPresent (r : Registry) (keys : List String) : Nat :=
  r.size - (r.eraseAll keys).size

/-- All keys with their entries in the order of the proofs (`Proof.le`), and of the keys where
proofs are equal, as `mergeSort` is stable. -/
def toList (r : Registry) : List (String × Entry) :=
  r.entries.toList.mergeSort fun a b => Proof.le a.2.proof b.2.proof

/-- The keys and entries whose proofs have one of some lengths, in the order of the proofs
(`Proof.le`). -/
def withLengths (r : Registry) (lengths : List Nat) : List (String × Entry) :=
  (r.entries.toList.filter fun a => Proof.length a.2.proof ∈ lengths).mergeSort
    fun a b => Proof.le a.2.proof b.2.proof

end Registry

end Detachment
