import Detachment.Settings
import Detachment.Storage.Metadata

/-! # Stores

The folder that holds the results for one system and one limit on necessitations: run information,
and one file of representatives for each length, with their conclusions or without.

* `Store.openIn` finds or makes the folder.
* `Store.saveRepresentatives` and `Store.loadRepresentatives` write and read the proofs of a length.
  -/

namespace Detachment

/-- The folder of a system's results, with the name that the run information in it has to have. -/
structure Store where
  /-- Where the folder is. -/
  root : Path
  /-- The name of the system. -/
  fingerprint : String
  deriving DecidableEq, Repr

/-- A proof as it was stored: what `parseLine` reads from one line. -/
structure StoredProof where
  /-- The proof. -/
  proof : String
  /-- Its conclusion, if it was stored with it. -/
  conclusion : Option Formula
  deriving DecidableEq, Repr

namespace Store

/-- The name of the file with the run information (`Metadata`). -/
def metadataName : String := "metadata.txt"

/-- The name of a system's folder: its `fingerprint`, and the limit behind `-N` if necessitation is
enabled. -/
def folderName (basis : Basis) (necessitation : NecessitationLimit) : String :=
  if necessitation.isEnabled then basis.fingerprint ++ "-N" ++ necessitation.text
  else basis.fingerprint

/-- The name of the file with the representatives of a length; those that were not filtered are
named for the first length that was not. So there are `dProofs5.txt` and
`dProofs5-unfiltered3+.txt`. -/
def representativesName (length : Nat) : Option Nat → String
  | some first => s!"dProofs{length}-unfiltered{first}+.txt"
  | none => s!"dProofs{length}.txt"

/-- Where the representatives of a length are, by `representativesName`. -/
def representativesPath (store : Store) (length : Nat) (offFrom : Option Nat) : Path :=
  store.root.join (representativesName length offFrom)

/-- Where the run information is, by `metadataName`. -/
def metadataPath (store : Store) : Path :=
  store.root.join metadataName

/-- The name of the file that is written before it takes the place of another: `.name.tmp` for
`name`. -/
def temporaryName (name : String) : String :=
  "." ++ name ++ ".tmp"

/-- Write a file under another name (`temporaryName`), then in its place. The tree that is left also
counts when this fails. -/
def writeFile (store : Store) (t : FileTree) (name : String) (text : String) :
    Except StoreError Unit × FileTree :=
  let target := store.root.join name
  let temporary := store.root.join (temporaryName name)
  match t.createAt temporary (.ofText text) with
  | .error obstacle => (.error (.file temporary (.refused obstacle)), t)
  | .ok written =>
    match written.renameAt temporary target with
    | .error obstacle => (.error (.file target (.refused obstacle)), written)
    | .ok renamed => (.ok (), renamed)

/-! ## Run information -/

/-- The lines of a file, if all of them are text (`Contents.text?`). -/
def textLines? (contents : Contents) : Option (List (List Char)) :=
  contents.lines.mapM Contents.text?

/-- Read the run information, if there is any; it must name the store's system (`fingerprint`). -/
def loadMetadata (store : Store) (t : FileTree) : Except StoreError (Option Metadata) :=
  let path := store.metadataPath
  match t.readAt path with
  | .error .missing => .ok none
  | .error obstacle => .error (.file path (.refused obstacle))
  | .ok contents =>
    match textLines? contents with
    | none => .error (.file path .notText)
    | some lines =>
      match Metadata.parse path lines with
      | .error e => .error e
      | .ok m =>
        if m.hash = store.fingerprint then .ok (some m)
        else
          let expected := store.fingerprint
          let found := m.hash
          .error (.malformed path 1 s!"expected [{expected}], found [{found}]")

/-- Write the run information, as `Metadata.render` has it. -/
def saveMetadata (store : Store) (t : FileTree) (m : Metadata) :
    Except StoreError Unit × FileTree :=
  store.writeFile t metadataName m.render

/-- Find or make the folder of a system's results below `dir`. A new folder gets run information
(`Metadata.ofBasis`), and a folder that has some must be of this system. -/
def openIn (dir : Path) (basis : Basis) (necessitation : NecessitationLimit) (t : FileTree) :
    Except StoreError Store × FileTree :=
  let store : Store := ⟨dir.join (folderName basis necessitation), basis.fingerprint⟩
  match t.makeFolders store.root with
  | .error obstacle => (.error (.file store.root (.refused obstacle)), t)
  | .ok t =>
    match store.loadMetadata t with
    | .error e => (.error e, t)
    | .ok (some _) => (.ok store, t)
    | .ok none =>
      match store.saveMetadata t (.ofBasis basis) with
      | (.error e, t) => (.error e, t)
      | (.ok (), t) => (.ok store, t)

/-! ## Representatives -/

/-- The line of a proof: `proof:conclusion`, or the proof alone. -/
def representativeLine (withConclusion : Bool) (entry : String × Formula) : String :=
  if withConclusion then entry.1 ++ ":" ++ entry.2.polish else entry.1

/-- The text of a file of representatives: one `representativeLine` for each. -/
def representativesText (withConclusions : Bool) (entries : List (String × Formula)) : String :=
  String.join (entries.map fun e => representativeLine withConclusions e ++ "\n")

/-- Write the representatives of a length, and say where (`representativesPath`). -/
def saveRepresentatives (store : Store) (t : FileTree) (length : Nat)
    (entries : List (String × Formula)) (withConclusions : Bool) (offFrom : Option Nat) :
    Except StoreError Path × FileTree :=
  match store.writeFile t (representativesName length offFrom)
      (representativesText withConclusions entries) with
  | (.error e, t) => (.error e, t)
  | (.ok (), t) => (.ok (store.representativesPath length offFrom), t)

/-- Read one line as a proof of a length, with a conclusion if `layout` says so; what the first line
has decides for the others. The second result is the layout for them. -/
def parseLine (length : Nat) (layout : Option Bool) (line : List Char) :
    Except String (StoredProof × Bool) :=
  let (proof, conclusion) := match Metadata.splitColon? line with
    | some (proof, conclusion) => (String.ofList proof, some conclusion)
    | none => (String.ofList line, none)
  let size := proof.utf8ByteSize
  if proof.isEmpty then .error "empty proof"
  else if size ≠ length then
    if conclusion.isSome then .error s!"colon at position {size}, expected {length}"
    else .error s!"proof of length {size}, expected {length}"
  else
    let expected := layout.getD conclusion.isSome
    if expected ≠ conclusion.isSome then
      .error (if expected then "missing conclusion" else "unexpected conclusion")
    else
      match conclusion with
      | none => .ok (⟨proof, none⟩, expected)
      | some text =>
        match Formula.parse (String.ofList text) with
        | .error e => .error e.message
        | .ok f => .ok (⟨proof, some f⟩, expected)

/-- Read lines as proofs of a length, the first of which has the given `number`. The first line that
cannot be read ends this, and `StoreError.malformed` has its number. -/
def parseFile (path : Path) (length : Nat) :
    Nat → Option Bool → List Contents → Except StoreError (List StoredProof)
  | _, _, [] => .ok []
  | number, layout, line :: rest =>
    match line.text? with
    | none => .error (.file path .notText)
    | some chars =>
      match parseLine length layout chars with
      | .error reason => .error (.malformed path number reason)
      | .ok (stored, expected) =>
        match parseFile path length (number + 1) (some expected) rest with
        | .error e => .error e
        | .ok proofs => .ok (stored :: proofs)

/-- Read the representatives of a length, if any were saved: a missing file is no error. -/
def loadRepresentatives (store : Store) (t : FileTree) (length : Nat) (offFrom : Option Nat) :
    Except StoreError (Option (List StoredProof)) :=
  let path := store.representativesPath length offFrom
  match t.readAt path with
  | .error .missing => .ok none
  | .error obstacle => .error (.file path (.refused obstacle))
  | .ok contents => (parseFile path length 1 none contents.lines).map some

end Store

end Detachment
