import Detachment.Storage.FileTree

/-! # Storage errors

Why reading or writing stored results failed. -/

namespace Detachment

/-- Why a file could not be read or written, once its `Path` was known. -/
inductive FileFault where
  /-- The file system refused it. -/
  | refused (obstacle : Obstacle)
  /-- The bytes are not UTF-8. -/
  | notText
  deriving DecidableEq, Repr

/-- The wording of a `FileFault`, in the words of the operating system. -/
def FileFault.message : FileFault → String
  | refused obstacle => obstacle.message
  | notText => "stream did not contain valid UTF-8"

/-- Why stored results could not be used: what `Store` and `Metadata` report. -/
inductive StoreError where
  /-- A file could not be read or written. -/
  | file (path : Path) (fault : FileFault)
  /-- A line, counted from one, does not have the expected form. -/
  | malformed (path : Path) (line : Nat) (reason : String)
  /-- A sum of counters does not fit into 64 bits from this length on. -/
  | counterOverflow (length : Nat)
  deriving DecidableEq, Repr

/-- The wording of a `StoreError`, with the path in front, and the line of a `malformed` file. -/
def StoreError.message : StoreError → String
  | file path fault => path.text ++ ": " ++ fault.message
  | malformed path line reason =>
    let place := path.text
    s!"{place}:{line}: {reason}"
  | counterOverflow length => s!"counter overflow at length {length}"

end Detachment
