import Detachment.Proof
import Detachment.Sums

/-! # Tables of representatives

A table holds, for each length, the proofs that represent their conclusions, in the order of their
texts. Entries are named by length and place, by their place among all entries, or by their axiom.
-/

namespace Detachment

/-- Proofs by length. The row of a length has the place of the length in `rows`. -/
structure Representatives where
  /-- The proofs of each length from zero on. -/
  rows : List (List String)
  /-- The proofs that consist of one axiom, in the order of the axioms. -/
  symbols : List String
  deriving DecidableEq, Repr

namespace Representatives

/-- The name of a proof in a table, which `Representatives.resolve?` looks up. -/
inductive Reference where
  /-- A place among all entries, ordered by length and then within each length. -/
  | known (index : Nat)
  /-- The proof that consists of one axiom. -/
  | symbol (index : Nat)
  /-- A place among the entries of one length. -/
  | entry (length index : Nat)
  deriving DecidableEq, Repr

/-- The table without entries. It has no `rows` at all. -/
def empty : Representatives := ⟨[], []⟩

/-- The proofs of one length; none if there is no row for it. -/
def row (t : Representatives) (length : Nat) : List String :=
  t.rows.getD length []

/-- Put a row in its place, with empty rows before it where there are none, so that `row` finds
it. -/
def setRow (rows : List (List String)) (length : Nat) (proofs : List String) :
    List (List String) :=
  (rows ++ List.replicate (length + 1 - rows.length) []).set length proofs

/-- Make some proofs the entries of a length, in the order of their texts (`Proof.le`); each must
have this `Proof.length`. -/
def publish? (t : Representatives) (length : Nat) (proofs : List String) :
    Option Representatives :=
  if proofs.all fun p => Proof.length p = length then
    some { t with rows := setRow t.rows length (proofs.mergeSort Proof.le) }
  else none

/-- Make some proofs the entries of a length, if each has it; otherwise the table stays as it is
(`publish?`). -/
def publish (t : Representatives) (length : Nat) (proofs : List String) : Representatives :=
  (t.publish? length proofs).getD t

/-- The table with the axioms of a system: they are its entries of length one and its `symbols`. -/
def ofBasis (basis : Basis) : Representatives :=
  { empty.publish 1 basis.proofs with symbols := basis.proofs }

/-- The proof at a place among all entries of some rows, counted through the rows one after the
other. -/
def nth? : List (List String) → Nat → Option String
  | [], _ => none
  | proofs :: rest, index =>
    if index < proofs.length then proofs[index]? else nth? rest (index - proofs.length)

/-- The proof that a `Reference` names, if there is one. -/
def resolve? (t : Representatives) : Reference → Option String
  | .known index => nth? t.rows index
  | .symbol index => t.symbols[index]?
  | .entry length index => (t.row length)[index]?

/-- The place among all entries of the entry at a place of one length: all entries of smaller
lengths come before it. -/
def known? (t : Representatives) (length index : Nat) : Option Nat :=
  if index < (t.row length).length then
    some (sumOf List.length (t.rows.take length) + index)
  else none

/-- The largest length with a row. Shorter lengths have one, too, which may be empty. -/
def knownLimit (t : Representatives) : Nat :=
  t.rows.length - 1

/-- The number of entries of all `rows`. -/
def total (t : Representatives) : Nat :=
  sumOf List.length t.rows

/-- All entries with their lengths, in order of `Reference.known`. -/
def toList (t : Representatives) : List (Nat × String) :=
  t.rows.zipIdx.flatMap fun r => r.1.map fun p => (r.2, p)

end Representatives

end Detachment
