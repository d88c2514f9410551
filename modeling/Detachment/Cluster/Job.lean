import Detachment.Collection.Basic
import Std.Data.ExtTreeSet

/-! # Filter jobs

The work of a group for one length: candidates, and the index that tells which of them are instances
of another conclusion. Every rank must hold the same candidates in the same order. -/

namespace Detachment.Cluster

/-- A set of candidates by their indices, such as those that are found redundant. -/
abbrev IndexSet := Std.ExtTreeSet Nat compare

/-- A conclusion to be checked by `SchemaIndex.find?`, and where its proof is. -/
structure Candidate where
  /-- Where its proof stands in the table of representatives. -/
  reference : Representatives.Reference
  /-- The canonical text of the conclusion. -/
  key : String
  /-- The length of its proof. -/
  proofLength : Nat
  /-- The conclusion. -/
  conclusion : Formula

/-- The candidates of one length, and the `index` that they are checked against. -/
structure Job where
  /-- The length. -/
  length : Nat
  /-- The conclusions that candidates may be instances of. -/
  index : SchemaIndex
  /-- The candidates. -/
  candidates : List Candidate

namespace Job

/-- The number of candidates. Positions and indices are below it. -/
def size (j : Job) : Nat :=
  j.candidates.length

/-- Whether the candidate at the index `i` is an instance of another conclusion: `SchemaIndex.find?`
has found one. -/
def isRedundant (j : Job) (i : Nat) : Bool :=
  match j.candidates[i]? with
  | some c => (j.index.find? c.conclusion c.proofLength c.key).isSome
  | none => false

/-- The proofs and conclusions of the candidates outside a set. The proofs are looked up in the
table (`resolve?`). -/
def survivors (j : Job) (redundant : IndexSet) (table : Representatives) : List (String × Formula) :=
  j.candidates.zipIdx.filterMap fun (c, i) =>
    if i ∈ redundant then none
    else (table.resolve? c.reference).map fun proof => (proof, c.conclusion)

/-- The candidate for a registered proof of a length, the `i`-th one. It is `none` if the table has
no `i`-th proof of that length; an error if that is another proof. -/
def candidate? (table : Representatives) (length : Nat) (proof : String) (conclusion : Formula)
    (i : Nat) : Except Unit (Option Candidate) :=
  match table.known? length i with
  | none => .ok none
  | some position =>
    if table.resolve? (.known position) = some proof then
      .ok (some ⟨.known position, conclusion.key, Proof.length proof, conclusion⟩)
    else .error ()

/-- Every registered proof of a length as a candidate (`candidate?`), checked against all registered
conclusions (`schemaIndex`). None if the registered proofs of that length are not the ones in the
table. -/
def ofCollection? (c : Collection) (length : Nat) : Option Job :=
  let entries := (c.representatives length).zipIdx
  match entries.mapM fun ((proof, conclusion), i) => candidate? c.table length proof conclusion i with
  | .ok candidates => some ⟨length, c.schemaIndex, candidates.filterMap id⟩
  | .error () => none

end Job

end Detachment.Cluster
