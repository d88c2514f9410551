import Detachment.Text.Contents
import Detachment.Text.Numeral

/-! # File trees

Files and folders as a value: a tree maps locations to files and folders, and reading, creating and
renaming files fail for the reasons a file system would give.

* `Path` is a location as it is written, and `Path.location` the location that it stands for.
* `FileTree.makeFolders` makes the folders of a path one after the other.
* `FileTree.readAt`, `FileTree.createAt` and `FileTree.renameAt` work on the files that paths lead
  to, and refuse a path of more than `Path.maxSize` bytes. -/

namespace Detachment

/-- The names from the top of a tree down to a file or folder. What lies above the top starts with
`..`, and what is found from the root of all folders with `/`. -/
abbrev Location := List String

namespace Location

/-- Whether a location is the top, lies above it or is the root of all folders. All of these are
folders that no tree lists. -/
def isTop (l : Location) : Bool :=
  l == ["/"] || l.all (· == "..")

/-- The location of the folder around a location. The root of all folders is its own, and above the
top there is always another `..`. -/
def up (l : Location) : Location :=
  if l = ["/"] then l
  else if l.isTop then l ++ [".."]
  else l.dropLast

/-- Go down to a name, or `up` for two dots. -/
def enter (l : Location) (name : String) : Location :=
  if name = ".." then l.up else l ++ [name]

end Location

/-! ## Paths -/

/-- A location as it was written. -/
structure Path where
  /-- The text. -/
  text : String
  deriving DecidableEq, Repr

namespace Path

/-- The path of a name below a path, with a slash between them if there is none. -/
def join (p : Path) (name : String) : Path :=
  if p.text.isEmpty then ⟨name⟩
  else if p.text.toList.getLast? = some '/' then ⟨p.text ++ name⟩
  else ⟨p.text ++ "/" ++ name⟩

/-- Cut a text at every slash, as `Basis.splitCommas` does at commas. -/
def splitSlashes : List Char → List (List Char)
  | [] => [[]]
  | '/' :: rest => [] :: splitSlashes rest
  | c :: rest =>
    match splitSlashes rest with
    | [] => [[c]]
    | part :: parts => (c :: part) :: parts

/-- The names that a path leads through; a single dot leads nowhere, and neither does nothing
between two slashes. -/
def names (p : Path) : List String :=
  ((splitSlashes p.text.toList).map String.ofList).filter fun name => name != "" && name != "."

/-- Where a path starts: at the root of all folders if it begins with a slash, or else at the top,
`[]`. -/
def start (p : Path) : Location :=
  if p.text.toList.head? = some '/' then ["/"] else []

/-- The location that a path stands for, if there are folders wherever it leads up again: `enter`
its `names` from its `start`. -/
def location (p : Path) : Location :=
  p.names.foldl Location.enter p.start

end Path

/-! ## Trees -/

/-- What stands at a location. -/
inductive Node where
  /-- A file. -/
  | file (contents : Contents)
  /-- A folder. -/
  | folder
  deriving DecidableEq, Repr

/-- Why a file system refuses something. `Obstacle.message` has the wording and the number of
each. -/
inductive Obstacle where
  /-- Nothing stands at the location. -/
  | missing
  /-- Something stands at the location. -/
  | present
  /-- A file stands where a folder is needed. -/
  | notAFolder
  /-- A folder stands where a file is needed. -/
  | isAFolder
  /-- A name or a path is too long. -/
  | nameTooLong
  deriving DecidableEq, Repr

/-- The wording of an `Obstacle`, as the operating system has it. -/
def Obstacle.message : Obstacle → String
  | missing => "No such file or directory (os error 2)"
  | present => "File exists (os error 17)"
  | notAFolder => "Not a directory (os error 20)"
  | isAFolder => "Is a directory (os error 21)"
  | nameTooLong => "File name too long (os error 36)"

/-- The number of bytes that a path can have; `Path.locate` refuses longer ones. -/
def Path.maxSize : Nat := 4095

/-- The location that a path stands for, unless the path has more than `maxSize` bytes. -/
def Path.locate (p : Path) : Except Obstacle Location :=
  if maxSize < p.text.utf8ByteSize then .error .nameTooLong else .ok p.location

/-- A path that is short enough leads to its `location`. -/
theorem Path.locate_of_le {p : Path} (h : p.text.utf8ByteSize ≤ maxSize) :
    p.locate = .ok p.location :=
  if_neg (Nat.not_lt.mpr h)

/-- Files and folders by location; the top is always a folder (`node?`) and not listed. -/
structure FileTree where
  /-- What stands below the top. -/
  nodes : List (Location × Node)
  deriving DecidableEq, Repr

namespace FileTree

/-- The tree without files and folders but the top. -/
def empty : FileTree := ⟨[]⟩

/-- What stands at a location: a folder if it `isTop`, or else what `nodes` has. -/
def node? (t : FileTree) (l : Location) : Option Node :=
  if l.isTop then some .folder else t.nodes.lookup l

/-- Put something at a location, in the place of what stood there. -/
def set (t : FileTree) (l : Location) (node : Node) : FileTree :=
  ⟨(l, node) :: t.nodes.filter (·.1 != l)⟩

/-- Take away what stands at a location. What stands below it stays; `eraseBelow` takes this away,
too. -/
def erase (t : FileTree) (l : Location) : FileTree :=
  ⟨t.nodes.filter (·.1 != l)⟩

/-- The locations above a location, from the top down. -/
def above (l : Location) : List Location :=
  (List.range l.length).map l.take

/-- Whether a file stands at a location. -/
def isFile (t : FileTree) (l : Location) : Bool :=
  match t.node? l with
  | some (.file _) => true
  | _ => false

/-- Whether a file stands above a location, so that nothing can be found there. -/
def isBelowFile (t : FileTree) (l : Location) : Bool :=
  (above l).any t.isFile

/-- The contents of a file. A file that stands in the way is noticed before a missing one. -/
def read (t : FileTree) (l : Location) : Except Obstacle Contents :=
  if t.isBelowFile l then .error .notAFolder
  else
    match t.node? l with
    | none => .error .missing
    | some .folder => .error .isAFolder
    | some (.file contents) => .ok contents

/-- Create a file in a folder, or replace its contents. The folder has to be there: `makeFolders`
makes it. -/
def create (t : FileTree) (l : Location) (contents : Contents) : Except Obstacle FileTree :=
  if t.isBelowFile l then .error .notAFolder
  else
    match t.node? l.dropLast, t.node? l with
    | none, _ => .error .missing
    | _, some .folder => .error .isAFolder
    | _, _ => .ok (t.set l (.file contents))

/-- Give a file another location, in the place of a file that may stand at `target`. -/
def rename (t : FileTree) (source target : Location) : Except Obstacle FileTree :=
  match t.node? source, t.node? target with
  | none, _ => .error .missing
  | _, some .folder => .error .isAFolder
  | some node, _ => .ok ((t.erase source).set target node)

/-- Take away a folder with everything below it: all locations that start with `l`. -/
def eraseBelow (t : FileTree) (l : Location) : FileTree :=
  ⟨t.nodes.filter fun n => !l.isPrefixOf n.1⟩

/-- The files with the names above them, in the order of their paths; those that do not lie below
the top (`Location.isTop`) are left out. -/
def files (t : FileTree) : List (String × Contents) :=
  (t.nodes.filterMap fun n =>
    match n.2 with
    | .file contents => if Location.isTop (n.1.take 1) then none else some (Text.join "/" n.1, contents)
    | .folder => none).mergeSort fun a b => (compare a.1 b.1).isLE

/-! ## Files by path -/

/-- The contents of the file that a path leads to, by `read`. -/
def readAt (t : FileTree) (p : Path) : Except Obstacle Contents :=
  match p.locate with
  | .error e => .error e
  | .ok l => t.read l

/-- Create the file that a path leads to, or replace its contents, by `create`. -/
def createAt (t : FileTree) (p : Path) (contents : Contents) : Except Obstacle FileTree :=
  match p.locate with
  | .error e => .error e
  | .ok l => t.create l contents

/-- Give the file that a path leads to another path, by `rename`. The `source` is looked at
first. -/
def renameAt (t : FileTree) (source target : Path) : Except Obstacle FileTree :=
  match source.locate, target.locate with
  | .error e, _ => .error e
  | _, .error e => .error e
  | .ok s, .ok l => t.rename s l

/-! ## Making folders -/

/-- The number of bytes that a name can have, which `makeFolder` checks. -/
def maxNameSize : Nat := 255

/-- Go through folders, name by name. Every location that is left by `enter` has to be a folder,
also on the way up. -/
def walk (t : FileTree) : Location → List String → Except Obstacle Location
  | l, [] => .ok l
  | l, name :: rest =>
    match t.node? l with
    | some .folder => t.walk (l.enter name) rest
    | some (.file _) => .error .notAFolder
    | none => .error .missing

/-- Make a folder in a folder, unless there is one at the end of the `walk`. -/
def makeFolder (t : FileTree) (start : Location) (names : List String) : Except Obstacle FileTree :=
  match t.walk start names with
  | .error e => .error e
  | .ok l =>
    match t.node? l with
    | some .folder => .ok t
    | some (.file _) => .error .present
    | none =>
      if l.any (maxNameSize < ·.utf8ByteSize) then .error .nameTooLong
      else .ok (t.set l .folder)

/-- Make a folder, and those above it that are missing; the names are given backwards. Only
`Obstacle.missing` is a reason to make the folder above. -/
def makeFoldersUp (t : FileTree) (start : Location) : List String → Except Obstacle FileTree
  | [] => .ok t
  | name :: above =>
    match t.makeFolder start (name :: above).reverse with
    | .error .missing =>
      match t.makeFoldersUp start above with
      | .error e => .error e
      | .ok t => t.makeFolder start (name :: above).reverse
    | result => result

/-- Make the folder that a path leads to, and those above it that are missing (`makeFoldersUp`). -/
def makeFolders (t : FileTree) (p : Path) : Except Obstacle FileTree :=
  match p.locate with
  | .error e => .error e
  | .ok _ => t.makeFoldersUp p.start p.names.reverse

/-- Put a file at a path and make the folders above it: `makeFoldersUp` for all names but the
last. -/
def place (t : FileTree) (p : Path) (contents : Contents) : Except Obstacle FileTree :=
  match t.makeFoldersUp p.start p.names.reverse.tail with
  | .error e => .error e
  | .ok t => t.createAt p contents

end FileTree

end Detachment
