import Detachment.Collection.Basic
import Detachment.Storage.Store

/-! # Saving rounds

The representatives of a round go into one file for each of its lengths, and its numbers into the
run information. -/

namespace Detachment.Collection

/-- How far saving the lengths of a round came (`saveLengths`): the files, the run information, the
lengths that were saved, and why there are not more of them. -/
structure Saving where
  /-- The files that are left. -/
  tree : FileTree
  /-- The run information, which is not saved yet. -/
  metadata : Metadata
  /-- The lengths that were saved. -/
  saved : List LengthReport
  /-- Why saving stopped. -/
  fault : Option StoreError

/-- Save the representatives of one length (`Store.saveRepresentatives`) and note its numbers
(`Metadata.record`). After a fault nothing more is done. -/
def Saving.add (store : Store) (c : Collection) (withConclusions : Bool) (s : Saving)
    (report : LengthReport) : Saving :=
  match s.fault with
  | some _ => s
  | none =>
    let offFrom := c.settings.filter.offFrom? report.length
    match store.saveRepresentatives s.tree report.length (c.representatives report.length)
        withConclusions offFrom with
    | (.error e, tree) => { s with tree, fault := some e }
    | (.ok _, tree) =>
      { s with
        tree
        metadata := s.metadata.record report.length report.iterations report.removals
        saved := s.saved ++ [report] }

/-- Save the representatives of every length of a round and note their numbers, by `Saving.add`. -/
def saveLengths (store : Store) (c : Collection) (withConclusions : Bool) (t : FileTree)
    (m : Metadata) (report : RoundReport) : Saving :=
  report.perLength.foldl (Saving.add store c withConclusions) ⟨t, m, [], none⟩

/-- The run information of a store, or that of a new one (`Metadata.ofBasis`). -/
def loadHistory (store : Store) (t : FileTree) (basis : Basis) : Except StoreError Metadata :=
  (store.loadMetadata t).map (·.getD (.ofBasis basis))

/-- Save a round: its representatives (`saveLengths`) and then its numbers. -/
def saveRound (store : Store) (c : Collection) (withConclusions : Bool) (t : FileTree)
    (report : RoundReport) : Except StoreError Unit × FileTree :=
  match loadHistory store t c.basis with
  | .error e => (.error e, t)
  | .ok m =>
    let s := c.saveLengths store withConclusions t m report
    match s.fault with
    | some e => (.error e, s.tree)
    | none => store.saveMetadata s.tree s.metadata

end Detachment.Collection
