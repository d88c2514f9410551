import Detachment.CommandLine.Profile
import Detachment.CommandLine.Program

/-! # The command line

Loads the files that a command may need, runs the command and writes what it changed. Under the name
of the profiler, runs the profiler. -/

namespace Detachment.CommandLine

/-! ## Files -/

/-- Read what stands at a path into the tree (`FileTree.place`). What cannot be read as a file
counts as a folder. -/
def loadFile (t : FileTree) (path : Path) : IO FileTree := do
  try
    let bytes ← IO.FS.readBinFile path.text
    return ((t.place path (.decode bytes.toList)).toOption).getD t
  catch
    | .noFileOrDirectory .. => return t
    | _ => return ((t.makeFolders path).toOption).getD t

/-- Read what a path leads through into the tree, given where it starts, by the names on it. -/
def loadAbove (t : FileTree) (start : Path) : List String → IO FileTree
  | [] => return t
  | name :: rest => do
    let path := start.join name
    loadAbove (← loadFile t path) path rest

/-- Read the representatives of one length after the other, as long as there are any. Lengths go up
by `NecessitationLimit.step`. -/
def loadLengths (store : Store) (settings : Settings) : Nat → Nat → FileTree → IO FileTree
  | 0, _, t => return t
  | count + 1, length, t => do
    let path := store.representativesPath length (settings.filter.offFrom? length)
    let t ← loadFile t path
    if (t.node? path.location).isNone then return t
    loadLengths store settings count (length + settings.necessitation.step) t

/-- Where a command keeps its results, and its settings, if it keeps any: `generate` and `filter`
do. -/
def storage? : Request → Option (Path × Settings × Option String)
  | .run axioms necessitation (.generate _ data _ _ unfilteredFrom _) =>
    some (⟨data⟩, ⟨necessitation, ⟨unfilteredFrom⟩, 1⟩, axioms)
  | .run axioms necessitation (.filter _ data unfilteredFrom _) =>
    some (⟨data⟩, ⟨necessitation, ⟨some unfilteredFrom⟩, 1⟩, axioms)
  | _ => none

/-- The store that the arguments name, in the folder of `Store.folderName`. -/
def store? (arguments : List String) : Option (Store × Settings) :=
  match (Request.parse? arguments).bind storage? with
  | none => none
  | some (data, settings, axioms) =>
    match Program.basisOf axioms with
    | .error _ => none
    | .ok basis =>
      some (⟨data.join (Store.folderName basis settings.necessitation), basis.fingerprint⟩, settings)

/-- The files of a store that differ between the tree `before` and the tree `after`. -/
def changes (store : Store) (before after : FileTree) : List (Path × String) :=
  after.nodes.filterMap fun (location, node) =>
    match location.getLast?, node with
    | some name, .file contents =>
      if location.dropLast = store.root.location ∧ before.node? location ≠ some node then
        some (store.root.join name, contents.lossy)
      else none
    | _, _ => none

/-- Write a file: first under another name, then in its place, as `Store.writeFile` does. -/
def writeChange (path : Path) (text : String) : IO Unit := do
  let temporary := path.text ++ ".tmp"
  IO.FS.writeFile temporary text
  IO.FS.rename temporary path.text

/-- Run the program on the files of a store (`Program.run`), and write what changed (`changes`). -/
def runOnStore (arguments : List String) (store : Store) (settings : Settings) : IO Report := do
  let before ← loadAbove .empty ⟨Text.join "/" store.root.start⟩ store.root.names
  let before ← loadFile before store.metadataPath
  let before ← loadLengths store settings Text.bound32 (1 + settings.necessitation.step) before
  let (report, after) := Program.run arguments before
  if after.node? store.root.location = some .folder then
    IO.FS.createDirAll store.root.text
    for (path, text) in changes store before after do
      writeChange path text
  return report

/-- Run the program, print its `Report` and return its code. -/
def runProgram (arguments : List String) : IO UInt32 := do
  let report ← match store? arguments with
    | some (store, settings) => runOnStore arguments store settings
    | none => pure (Program.run arguments .empty).1
  for line in report.lines do
    IO.println line
  for line in report.errorLines do
    IO.eprintln line
  return report.code.toUInt32

/-! ## Profiling -/

/-- A time in seconds, with three places, such as `1.234`. -/
def seconds (milliseconds : Nat) : String :=
  let fraction := Text.digits (1000 + milliseconds % 1000)
  String.ofList (Text.digits (milliseconds / 1000) ++ '.' :: fraction.drop 1)

/-- The time that has passed since `start`, in seconds. -/
def since (start : Nat) : IO String :=
  return seconds ((← IO.monoMsNow) - start)

/-- Run the profiler: generate proofs step by step, with one `Profile.roundLine` each. -/
def runProfile (arguments : List String) : IO UInt32 := do
  match Profile.target? arguments with
  | none =>
    IO.eprintln Profile.usageLine
    return 1
  | some target =>
    let start ← IO.monoMsNow
    let mut c := Profile.start arguments
    for lengths in Collection.Strategy.stepwise.rounds (c.nextLengths target) do
      let (report, next) ← IO.lazyPure fun _ => c.round lengths
      c := next
      IO.println (Profile.roundLine (← since start) report)
    let start ← IO.monoMsNow
    let last := c
    let volume ← IO.lazyPure fun _ => Profile.generate last
    IO.println (Profile.volumeLine (← since start) volume)
    return 0

end Detachment.CommandLine

/-- Run the program, or the profiler under its own name. -/
def main (arguments : List String) : IO UInt32 := do
  if (toString (← IO.appPath)).endsWith "profile_generation" then
    Detachment.CommandLine.runProfile arguments
  else Detachment.CommandLine.runProgram arguments
