import Detachment.Matching
import Detachment.Sums

/-! # Schema indexes

An index holds conclusions in buckets by the size of the formula, so that a search for a more
general formula looks at small formulas first and never at larger ones.

* `SchemaIndex.build` fills the buckets in one go, `SchemaIndex.buildParts` from several parts.
* `SchemaIndex.find?` is the first conclusion that makes another one redundant. -/

namespace Detachment

/-- A conclusion with its key and the length of its proof: all that `SchemaIndex.find?` compares. -/
structure Indexed where
  /-- The key of the conclusion. -/
  key : String
  /-- The length of the proof. -/
  proofLength : Nat
  /-- The conclusion. -/
  formula : Formula
  deriving DecidableEq, Repr

/-- Within a bucket, short proofs come first, then the order is that of the keys. -/
def Indexed.order (a b : Indexed) : Ordering :=
  (compare a.proofLength b.proofLength).then (compare a.key b.key)

/-- Whether the first conclusion does not come after the second in `Indexed.order`. -/
def Indexed.le (a b : Indexed) : Bool :=
  (a.order b).isLE

/-- Conclusions in buckets, in the order in which `SchemaIndex.find?` looks at them. -/
structure SchemaIndex where
  /-- The conclusions of each size, the smallest size first. -/
  buckets : List (Nat × List Indexed)
  /-- The number of conclusions. -/
  size : Nat
  deriving DecidableEq, Repr

namespace SchemaIndex

/-- The index without conclusions. -/
def empty : SchemaIndex := ⟨[], 0⟩

/-- Put conclusions at the end of the bucket of a `size`; if there is none, a bucket is made in its
place. -/
def addToBucket (size : Nat) (new : List Indexed) :
    List (Nat × List Indexed) → List (Nat × List Indexed)
  | [] => [(size, new)]
  | (s, bucket) :: rest =>
    if size < s then (size, new) :: (s, bucket) :: rest
    else if size = s then (s, bucket ++ new) :: rest
    else (s, bucket) :: addToBucket size new rest

/-- Sort every bucket by `Indexed.le`; equal conclusions keep their order. -/
def sortBuckets (buckets : List (Nat × List Indexed)) : List (Nat × List Indexed) :=
  buckets.map fun b => (b.1, b.2.mergeSort Indexed.le)

/-- The index of some conclusions: each goes into the bucket of its formula's `size`. -/
def build (entries : List Indexed) : SchemaIndex :=
  ⟨sortBuckets (entries.foldl (fun bs e => addToBucket e.formula.size [e] bs) []), entries.length⟩

/-- Join indexes, bucket by bucket, and sort again (`sortBuckets`). -/
def join (parts : List SchemaIndex) : SchemaIndex :=
  ⟨sortBuckets
    ((parts.flatMap (·.buckets)).foldl (fun bs b => addToBucket b.1 b.2 bs) []),
    sumOf (·.size) parts⟩

/-- Cut a list into pieces of `size` members; `pieces` bounds their number, and the last takes the
rest. -/
def chunks (size : Nat) : Nat → List Indexed → List (List Indexed)
  | 0, entries => [entries]
  | pieces + 1, entries =>
    if entries.length ≤ size then [entries]
    else entries.take size :: chunks size pieces (entries.drop size)

/-- The index of some conclusions, built in as many parts as there are workers if that pays: with
several workers, and at least two conclusions for each (`2 * workers ≤ entries.length`).

The product `2 * workers` is one of natural numbers, which a machine word of 64 bits holds for
`workers < 2 ^ 63` only; this is the number of workers up to which the definition speaks of such
words. -/
def buildParts (entries : List Indexed) (workers : Nat) : SchemaIndex :=
  if workers ≤ 1 ∨ entries.length < 2 * workers then build entries
  else
    let size := (entries.length + workers - 1) / workers
    join ((chunks size workers entries).map build)

/-- Look for a more general formula in one bucket, whose short proofs come first, so the first proof
longer than `proofLength` ends it. -/
def findIn? (formula : Formula) (proofLength : Nat) (key : String) : List Indexed → Option String
  | [] => none
  | e :: rest =>
    if proofLength < e.proofLength then none
    else if isSchema e.formula formula && e.key != key then some e.key
    else findIn? formula proofLength key rest

/-- The key of the first conclusion that makes a formula redundant: it has another key, is no
larger, has no longer a proof, and the formula is an instance of it (`isSchema`). -/
def find? (index : SchemaIndex) (formula : Formula) (proofLength : Nat) (key : String) :
    Option String :=
  let size := formula.size
  (index.buckets.takeWhile (·.1 ≤ size)).findSome? fun b =>
    findIn? formula proofLength key b.2

end SchemaIndex

end Detachment
