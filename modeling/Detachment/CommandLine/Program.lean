import Detachment.Cluster.Connection
import Detachment.Cluster.Group
import Detachment.Collection.Resume
import Detachment.Collection.Saving
import Detachment.CommandLine.Help
import Detachment.Formula.Infix

/-! # The program

What the commands do, as a function of the arguments and the files: the lines that they print, how
they end, and the files that they leave.

* `Program.run` runs the program. -/

namespace Detachment.CommandLine

/-- Why the program failed; `Failure.code` and `Failure.message?` are what is seen of it. -/
inductive Failure where
  /-- The arguments are not well formed. -/
  | misuse
  /-- The axioms could not be read. -/
  | axioms (e : Basis.ListError)
  /-- The proof proves nothing; this has been printed. -/
  | invalidProof
  /-- Stored results could not be used. -/
  | store (e : StoreError)
  /-- Proofs could not be collected. -/
  | collection (e : Collection.Error)
  /-- There are no proofs of the length to filter. -/
  | nothingToFilter (length : Nat) (root : Path)
  /-- No connection to the other ranks. -/
  | connection (e : Cluster.TransportError)
  /-- The filter failed. -/
  | filter (e : Cluster.RunError)
  /-- The stored proofs are not the registered ones. -/
  | inconsistent
  deriving DecidableEq, Repr

/-- What the program printed, and how it ended. -/
structure Report where
  /-- The lines printed. -/
  lines : List String
  /-- Why it failed, if it did. -/
  failure : Option Failure
  deriving DecidableEq, Repr

namespace Failure

/-- The code with which the program ends after a failure: `2` for arguments, `101` for results that
contradict each other, or else `1`. -/
def code : Failure → Nat
  | misuse => 2
  | inconsistent => 101
  | _ => 1

/-- The wording of a failure, if it has not been printed before. -/
def message? : Failure → Option String
  | misuse => some "error: the arguments are not well formed; try --help"
  | axioms e => some e.message
  | invalidProof => none
  | store e => some e.message
  | collection e => some e.message
  | nothingToFilter length root =>
    let place := root.text
    some s!"no unfiltered proofs of length {length} in {place}"
  | connection e => some e.message
  | filter e => some e.message
  | inconsistent => some "the stored proofs are not the registered ones"

end Failure

namespace Report

/-- The program ended well. -/
def done (lines : List String) : Report := ⟨lines, none⟩

/-- The program failed. -/
def failed (lines : List String) (f : Failure) : Report := ⟨lines, some f⟩

/-- The code with which the program ends, `0` unless there is a `failure`. -/
def code (r : Report) : Nat :=
  (r.failure.map Failure.code).getD 0

/-- The lines on the error output: the wording of the `failure`, if it has one. -/
def errorLines (r : Report) : List String :=
  ((r.failure.bind Failure.message?).map ([·])).getD []

end Report

namespace Program

/-- The line with the version. -/
def versionLine : String := "dproofs 0.3.0"

/-! ## Showing what a proof proves -/

/-- The conclusion of a proof, for machines (`Formula.polish`) and for people
(`Formula.infixText`). -/
def parse (basis : Basis) (proof : String) : Report :=
  match Proof.conclusion basis proof with
  | .ok f => .done [f.polish, f.infixText]
  | .error fault => .failed ["invalid: " ++ fault.message] .invalidProof

/-! ## Collecting -/

/-- What is kept between the rounds: the files, the run information and the lines printed. -/
structure Ledger where
  /-- The files. -/
  tree : FileTree
  /-- The run information. -/
  metadata : Metadata
  /-- The lines printed. -/
  lines : List String

/-- The line on a length, from its `LengthReport`. -/
def lengthLine (r : LengthReport) : String :=
  let ⟨length, iterations, _, invalid, redundant, removals, representatives, _⟩ := r
  s!"length {length}: {iterations} candidates, {invalid} invalid, {redundant} redundant, " ++
    s!"{removals} removed, {representatives} representatives"

/-- The warning that the counters add up to too much (`Metadata.total`), if they do. -/
def warnings (m : Metadata) : List String :=
  match m.total with
  | .ok _ => []
  | .error e => [" WARN dproofs::store: " ++ e.message]

/-- Save a round (`saveLengths`) and print a `lengthLine` for each of its lengths. The run
information is saved once all lengths are. -/
def keep (store : Store) (withConclusions : Bool) (l : Ledger) (c : Collection)
    (report : RoundReport) : Except Collection.Error Unit × Ledger :=
  let s := c.saveLengths store withConclusions l.tree l.metadata report
  let lines := l.lines ++ s.saved.map lengthLine
  match s.fault with
  | some e => (.error (.store e), ⟨s.tree, s.metadata, lines⟩)
  | none =>
    let (saved, tree) := store.saveMetadata s.tree s.metadata
    (saved.mapError .store, ⟨tree, s.metadata, lines ++ warnings s.metadata⟩)

/-- Collect what is missing up to a length (`collectUpTo`) and save it round by round (`keep`). -/
def collect (store : Store) (c : Collection) (length : Nat) (strategy : Collection.Strategy)
    (withConclusions : Bool) (t : FileTree) : Report × FileTree :=
  match Collection.loadHistory store t c.basis with
  | .error e => (.failed [] (.store e), t)
  | .ok m =>
    let p := c.collectUpTo length strategy false (keep store withConclusions) ⟨t, m, warnings m⟩
    match p.outcome with
    | .error e => (.failed p.state.lines (.collection e), p.state.tree)
    | .ok _ =>
      let total := p.collection.table.total
      let limit := p.collection.knownLimit
      let last := s!"{total} representatives up to length {limit}"
      (.done (p.state.lines ++ [last]), p.state.tree)

/-- Continue the collection of a store (`Collection.resume`) up to a length, unless it has this
length. -/
def generate (basis : Basis) (settings : Settings) (data : String) (length : Nat)
    (strategy : Collection.Strategy) (withConclusions : Bool) (t : FileTree) : Report × FileTree :=
  match Store.openIn ⟨data⟩ basis settings.necessitation t with
  | (.error e, t) => (.failed [] (.store e), t)
  | (.ok store, t) =>
    match Collection.resume store t basis settings with
    | .error e => (.failed [] (.collection e), t)
    | .ok c =>
      if length ≤ c.knownLimit then
        let limit := c.knownLimit
        let place := store.root.text
        (.done [s!"already have every length up to {limit} in {place}"], t)
      else collect store c length strategy withConclusions t

/-! ## Filtering -/

/-- The redundant candidates of a job, found by `Cluster.Group.run` on the ranks that `placement`
asks for. -/
def redundant (job : Cluster.Job) (placement : Placement) : Except Failure Cluster.IndexSet :=
  let ranks : Except Cluster.TransportError Nat := match placement with
    | .here ranks => .ok (ranks.getD 1)
    | .host rank hosts => (Cluster.Connection.establish rank hosts).map (·.size)
  match ranks with
  | .error e => .error (.connection e)
  | .ok ranks =>
    match Cluster.Group.run job ranks .standard false with
    | none => .error .inconsistent
    | some (.error e) => .error (.filter e)
    | some (.ok found) => .ok found

/-- Save the candidates that are left (`survivors`), and note how many were removed. The number of
candidates tried stays as it was. -/
def keepSurvivors (store : Store) (c : Collection) (job : Cluster.Job) (found : Cluster.IndexSet)
    (t : FileTree) : Report × FileTree :=
  let kept := job.survivors found c.table
  match store.saveRepresentatives t job.length kept false none with
  | (.error e, t) => (.failed [] (.store e), t)
  | (.ok path, t) =>
    match Collection.loadHistory store t c.basis with
    | .error e => (.failed [] (.store e), t)
    | .ok m =>
      let m := m.record job.length (m.iterations[job.length]?.getD 0) found.size
      match store.saveMetadata t m with
      | (.error e, t) => (.failed [] (.store e), t)
      | (.ok (), t) =>
        let length := job.length
        let removed := found.size
        let left := kept.length
        let place := path.text
        (.done [s!"length {length}: {removed} removed, {left} kept, written to {place}"], t)

/-- Filter a length that was collected without filter: `redundant` finds what to leave out, and
`keepSurvivors` saves the others. -/
def filter (basis : Basis) (necessitation : NecessitationLimit) (data : String)
    (length unfilteredFrom : Nat) (placement : Placement) (t : FileTree) : Report × FileTree :=
  match Store.openIn ⟨data⟩ basis necessitation t with
  | (.error e, t) => (.failed [] (.store e), t)
  | (.ok store, t) =>
    match Collection.resume store t basis ⟨necessitation, ⟨some unfilteredFrom⟩, 1⟩ with
    | .error e => (.failed [] (.collection e), t)
    | .ok c =>
      if c.knownLimit < length then (.failed [] (.nothingToFilter length store.root), t)
      else
        match Cluster.Job.ofCollection? c length with
        | none => (.failed [] .inconsistent, t)
        | some job =>
          match redundant job placement with
          | .error f => (.failed [] f, t)
          | .ok found => keepSurvivors store c job found t

/-! ## Running -/

/-- Run a command, with its defaults filled in. -/
def execute (basis : Basis) (necessitation : NecessitationLimit) (t : FileTree) :
    Command → Report × FileTree
  | .parse proof => (parse basis proof, t)
  | .generate length data workers combined unfilteredFrom withConclusions =>
    generate basis ⟨necessitation, ⟨unfilteredFrom⟩, workers.getD 1⟩ data length
      (if combined then .combined else .stepwise) withConclusions t
  | .filter length data unfilteredFrom placement =>
    filter basis necessitation data length unfilteredFrom placement t

/-- The axioms that the arguments name, or the `standard` ones. -/
def basisOf : Option String → Except Basis.ListError Basis
  | none => .ok .standard
  | some text => Basis.parseList text

/-- Run the program: read the arguments (`Request.parse?`), then the axioms, and `execute` the
command. -/
def run (arguments : List String) (t : FileTree) : Report × FileTree :=
  match Request.parse? arguments with
  | none => (.failed [] .misuse, t)
  | some .version => (.done [versionLine], t)
  | some (.help topic) => (.done topic.helpLines, t)
  | some (.run axioms necessitation command) =>
    match basisOf axioms with
    | .error e => (.failed [] (.axioms e), t)
    | .ok basis => execute basis necessitation t command

end Program

end Detachment.CommandLine
