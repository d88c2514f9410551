import Detachment.Registry

/-! # Necessitations of known proofs

The conclusions of registered proofs that do not start with a necessitation. They give the
conclusion of a candidate that puts necessitations before such a proof without reading it again. -/

namespace Detachment

/-- Conclusions by proof, for `Necessitations.conclusion?`. -/
structure Necessitations where
  /-- The conclusions of proofs that do not start with a necessitation. -/
  conclusions : Std.ExtTreeMap String Formula compare

namespace Necessitations

/-- The index without proofs, which gives no conclusion. -/
def empty : Necessitations := ⟨∅⟩

/-- Index the registered proofs up to a length that do not start with a necessitation
(`leadingNecessitations`). -/
def build (r : Registry) (knownLimit : Nat) : Necessitations :=
  ⟨((r.toList.map (·.2)).filter fun e =>
    Proof.length e.proof ≤ knownLimit && Proof.leadingNecessitations e.proof == 0).foldl
      (fun m e => m.insert e.proof e.conclusion) ∅⟩

/-- The number of proofs. -/
def size (n : Necessitations) : Nat :=
  n.conclusions.size

/-- A formula under a number of necessities: `necessarily`, `count` times. -/
def under : Nat → Formula → Formula
  | 0, f => f
  | count + 1, f => (under count f).necessarily

/-- The conclusion of a proof that starts with necessitations, if the rest of it is indexed: the
conclusion of the rest, `under` as many necessities. -/
def conclusion? (n : Necessitations) (proof : String) : Option Formula :=
  let count := Proof.leadingNecessitations proof
  if count = 0 then none
  else (n.conclusions[String.ofList (proof.toList.drop count)]?).map (under count)

end Necessitations

end Detachment
