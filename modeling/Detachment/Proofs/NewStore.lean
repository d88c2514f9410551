import Mathlib.Data.List.Basic
import Detachment.Proofs.ProofTree
import Detachment.Proofs.StoreFolder

/-! # New stores

A store can be opened where there is nothing yet, and files can be written into it, as long as paths
are short enough.

* `Store.Ready` says that the folder of a store takes files; `Store.Ready.writeFile` writes one.
* `Store.openIn_empty` opens a store in the root folder.
* `Path.slashes` is the root folder with a path of any size. -/

namespace Detachment

/-! ## Paths of any size -/

namespace Path

/-- The root of all folders, written with one slash or more. -/
def slashes (more : Nat) : Path := ⟨String.ofList ('/' :: List.replicate more '/')⟩

/-- There is nothing between slashes in a row. -/
theorem splitSlashes_replicate (count : Nat) :
    splitSlashes (List.replicate count '/') = List.replicate (count + 1) [] := by
  induction count with
  | zero => rfl
  | succ count ih => rw [List.replicate_succ, splitSlashes, ih, List.replicate_succ (n := count + 1)]

/-- The root has no names on its path, however it is written. -/
theorem names_slashes (more : Nat) : (slashes more).names = [] := by
  have hparts : splitSlashes (slashes more).text.toList = List.replicate (more + 2) [] := by
    rw [slashes, String.toList_ofList, ← List.replicate_succ]
    exact splitSlashes_replicate (more + 1)
  rw [names_eq _ hparts, List.map_replicate, List.filter_replicate]
  rfl

/-- Each slash is one byte, so that a path to the root can have any size. -/
theorem size_slashes (more : Nat) : (slashes more).text.utf8ByteSize = more + 1 := by
  rw [slashes, ← List.replicate_succ]
  have hchars : ∀ c ∈ List.replicate (more + 1) '/', c.utf8Size = 1 := by
    intro c hc
    rw [List.eq_of_mem_replicate hc]
    rfl
  rw [String.utf8ByteSize_ofList_of_forall hchars, List.length_replicate]

/-- A path without names leads to where it starts: `location` is `start`. -/
theorem location_of_names_eq_nil {p : Path} (h : p.names = []) : p.location = p.start := by
  rw [location, h, List.foldl_nil]

/-- Paths start at the top. -/
theorem isTop_start (p : Path) : p.start.isTop = true := by
  rw [start]
  split <;> rfl

end Path

/-! ## Names of folders -/

/-- The name of a system (`fingerprint`) is longer than one or two dots, and at most as long as a
hash of 64 digits. -/
theorem Basis.length_fingerprint (basis : Basis) :
    2 < basis.fingerprint.toList.length ∧ basis.fingerprint.toList.length ≤ 64 := by
  rw [fingerprint]
  split
  · decide
  · rw [Blake3.length_hex]
    decide

namespace Store

/-- The name of a system's folder can be the name of a file (`Path.IsName`), with a limit on
necessitations or without: it has no slash, and is neither one dot nor two. -/
theorem isName_folderName (basis : Basis) (limit : NecessitationLimit) :
    Path.IsName (folderName basis limit) := by
  -- Neither `default` nor a hexadecimal digit holds a slash.
  have hfingerprint : '/' ∉ basis.fingerprint.toList := by
    have hdigit : ∀ n < 16, Nat.digitChar n ≠ '/' := by decide
    have hstandard : '/' ∉ "default".toList := by decide
    have hall : ∀ c ∈ basis.fingerprint.toList, c ≠ '/' := by
      refine Basis.fingerprint_forall hdigit ?_ basis
      rintro c hc rfl
      exact hstandard hc
    exact fun hslash => hall '/' hslash rfl
  have hlength := basis.length_fingerprint.1
  rw [folderName]
  split
  · have hlimit : '/' ∉ limit.text.toList := by
      cases limit with
      | disabled => decide
      | unbounded => decide
      | bounded most =>
        rw [NecessitationLimit.text, String.toList_ofList]
        exact fun hslash => absurd (Text.isDigit_of_mem_digits hslash) (by decide)
    constructor
    · rw [String.toList_append, String.toList_append, List.mem_append, List.mem_append, not_or,
        not_or]
      exact ⟨⟨hfingerprint, by decide⟩, hlimit⟩
    · rw [String.toList_append, String.toList_append, List.length_append, List.length_append]
      omega
  · exact ⟨hfingerprint, hlength⟩

/-- Without necessitations a system's folder has the name of the system, `fingerprint`. -/
theorem folderName_disabled (basis : Basis) : folderName basis .disabled = basis.fingerprint := rfl

/-- Without necessitations the name of a system's folder has the size of a hash at most. -/
theorem size_folderName_disabled (basis : Basis) :
    (folderName basis .disabled).utf8ByteSize ≤ 64 := by
  have hsizes : ∀ c ∈ basis.fingerprint.toList, c.utf8Size = 1 := by
    have hdigit : ∀ n < 16, (Nat.digitChar n).utf8Size = 1 := by decide
    have hstandard : "default".toList.all (·.utf8Size == 1) = true := by decide
    exact Basis.fingerprint_forall hdigit
      (fun c hc => eq_of_beq (List.all_eq_true.mp hstandard c hc)) basis
  rw [folderName_disabled, ← String.ofList_toList (s := basis.fingerprint),
    String.utf8ByteSize_ofList_of_forall hsizes]
  exact basis.length_fingerprint.2

end Store

/-! ## Writing -/

namespace Store

open Detachment.Path (IsName)

variable {store : Store} {t t' : FileTree} {name : String}

/-- The folder of a store takes files: it is there, no file stands above it, and nothing but files
stands in it. -/
structure Ready (store : Store) (t : FileTree) : Prop where
  folder : t.node? store.root.location = some .folder
  above : ∀ name, t.isBelowFile (store.root.location ++ [name]) = false
  file : ∀ name node, IsName name → t.node? (store.root.location ++ [name]) = some node →
    ∃ contents, node = .file contents

/-- A folder that takes files (`Ready`) accepts each of them, if its temporary path is short
enough. -/
theorem Ready.accepts (h : store.Ready t) (hname : IsName name)
    (hsize : (store.root.join (temporaryName name)).text.utf8ByteSize ≤ Path.maxSize) :
    store.Accepts t name := by
  have hfree : ∀ other, IsName other → t.node? (store.root.location ++ [other]) ≠ some .folder := by
    intro other hother hfolder
    obtain ⟨contents, hfile⟩ := h.file other _ hother hfolder
    cases hfile
  refine ⟨hsize, h.above name, ?_, hfree _ (isName_temporaryName hname), hfree _ hname⟩
  rw [h.folder]
  exact Option.some_ne_none _

/-- A file is written into a folder that is `Ready`, which is so afterwards, too. The folder itself
is neither of the two files that `node?_writeFile` speaks of. -/
theorem Ready.writeFile (h : store.Ready t) (hname : IsName name)
    (hsize : (store.root.join (temporaryName name)).text.utf8ByteSize ≤ Path.maxSize)
    (text : String) : ∃ t', store.writeFile t name text = (.ok (), t') ∧ store.Ready t' := by
  obtain ⟨t', hok⟩ := (h.accepts hname hsize).exists_writeFile hname text
  -- What stands in the folder afterwards is the new file or what stood there before.
  have hnode := node?_writeFile hname hok
  refine ⟨t', hok, ?_, fun other => ?_, fun other node hother heq => ?_⟩
  · have hne : ∀ name : String, store.root.location ≠ store.root.location ++ [name] :=
      fun name heq => List.cons_ne_nil name [] (List.self_eq_append_right.mp heq)
    rw [hnode, if_neg (hne _), if_neg (hne _)]
    exact h.folder
  · rw [isBelowFile_writeFile hname hok]
    exact h.above other
  · rw [hnode] at heq
    split_ifs at heq
    · exact ⟨_, (Option.some.inj heq).symm⟩
    · exact h.file other node hother heq

/-! ## Opening -/

/-- A folder is made (`makeFolders`) at the root of a tree without files, if its name and its path
are short enough. -/
theorem makeFolders_empty {dir : Path} (hdir : dir.names = []) (hname : IsName name)
    (hshort : name.utf8ByteSize ≤ FileTree.maxNameSize)
    (hsize : (dir.join name).text.utf8ByteSize ≤ Path.maxSize) :
    FileTree.empty.makeFolders (dir.join name) =
      .ok (FileTree.empty.set (dir.start ++ [name]) .folder) := by
  have hwalk : FileTree.empty.walk dir.start [name] = .ok (dir.start ++ [name]) := by
    rw [FileTree.walk, FileTree.node?, if_pos dir.isTop_start]
    dsimp only
    rw [FileTree.walk, Location.enter, if_neg (hname.ne_of_length_le (by decide))]
  have hsizes : (dir.start ++ [name]).any (FileTree.maxNameSize < ·.utf8ByteSize) = false := by
    rw [List.any_append, Bool.or_eq_false_iff]
    constructor
    · rw [Path.start]
      split <;> rfl
    · rw [List.any_cons, List.any_nil, Bool.or_false]
      exact decide_eq_false (Nat.not_lt.mpr hshort)
  rw [FileTree.makeFolders, Path.locate_of_le hsize, Path.names_join _ hname, hdir,
    Path.start_join _ hname]
  dsimp only
  rw [List.nil_append, List.reverse_singleton, FileTree.makeFoldersUp, FileTree.makeFolder,
    List.reverse_singleton, hwalk]
  dsimp only
  rw [FileTree.node?, FileTree.isTop_append _ hname, if_neg Bool.false_ne_true, FileTree.empty,
    List.lookup_nil]
  dsimp only
  rw [hsizes, if_neg Bool.false_ne_true]

/-- A new folder at the root is `Ready`, and no file is there yet. The only node of the tree is the
folder, so nothing is below a file. -/
theorem ready_folder {dir : Path} (hlocation : store.root.location = dir.start ++ [name])
    (hname : IsName name) :
    store.Ready (FileTree.empty.set (dir.start ++ [name]) .folder) ∧
      ∀ other, IsName other → (FileTree.empty.set (dir.start ++ [name]) .folder).read
        (store.root.location ++ [other]) = .error .missing := by
  have htop : Location.isTop (dir.start ++ [name]) = false := FileTree.isTop_append _ hname
  -- Above the new folder there is nothing but the root.
  have habove : ∀ i, Location.isTop ((dir.start ++ [name]).take i) ∨
      (dir.start ++ [name]).take i = dir.start ++ [name] := by
    intro i
    rw [Path.start]
    split
    · rcases i with _ | _ | i
      · exact .inl rfl
      · exact .inl rfl
      · exact .inr (List.take_of_length_le (Nat.le_add_left 2 i))
    · rcases i with _ | i
      · exact .inl rfl
      · exact .inr (List.take_of_length_le (Nat.le_add_left 1 i))
  have hbelow : ∀ other, (FileTree.empty.set (dir.start ++ [name]) .folder).isBelowFile
      (dir.start ++ [name] ++ [other]) = false := by
    intro other
    rw [FileTree.isBelowFile, FileTree.above_append, List.any_map, List.any_eq_false]
    intro i _
    rw [Function.comp_apply, FileTree.isFile]
    rcases habove i with hi | hi
    · rw [FileTree.node?, if_pos hi]
      exact Bool.false_ne_true
    · rw [hi, FileTree.node?_set htop, if_pos rfl]
      exact Bool.false_ne_true
  have hnode : ∀ other, IsName other →
      (FileTree.empty.set (dir.start ++ [name]) .folder).node? (dir.start ++ [name] ++ [other]) =
        none := by
    intro other hother
    have hne : dir.start ++ [name] ++ [other] ≠ dir.start ++ [name] :=
      fun heq => List.cons_ne_nil other [] (List.self_eq_append_right.mp heq.symm)
    rw [FileTree.node?_set htop, if_neg hne, FileTree.node?, FileTree.isTop_append _ hother]
    rfl
  refine ⟨⟨?_, fun other => ?_, fun other node hother heq => ?_⟩, fun other hother => ?_⟩
  · rw [hlocation, FileTree.node?_set htop, if_pos rfl]
  · rw [hlocation]
    exact hbelow other
  · rw [hlocation, hnode other hother] at heq
    cases heq
  · rw [hlocation, FileTree.read, hbelow, if_neg Bool.false_ne_true, hnode other hother]

/-- A store can be opened (`openIn`) below a path to the root, where there are no files, if its
paths are short enough. It is `Ready`, and holds no representatives. -/
theorem openIn_empty {dir : Path} (hdir : dir.names = []) {basis : Basis}
    {limit : NecessitationLimit}
    (hshort : (folderName basis limit).utf8ByteSize ≤ FileTree.maxNameSize)
    (hsize : dir.text.utf8ByteSize + (folderName basis limit).utf8ByteSize + 19 ≤ Path.maxSize)
    (hstore : store = ⟨dir.join (folderName basis limit), basis.fingerprint⟩) :
    ∃ t, openIn dir basis limit .empty = (.ok store, t) ∧ store.Ready t ∧
      ∀ length offFrom,
        t.read (store.representativesPath length offFrom).location = .error .missing := by
  have hname := isName_folderName basis limit
  have hroot : store.root = dir.join (folderName basis limit) := by rw [hstore]
  have hlocation : store.root.location = dir.start ++ [folderName basis limit] := by
    rw [hroot, Path.location_join _ hname, Path.location_of_names_eq_nil hdir]
  have hrootSize : store.root.text.utf8ByteSize ≤
      dir.text.utf8ByteSize + 1 + (folderName basis limit).utf8ByteSize := by
    rw [hroot]
    exact (Path.size_join _ _).2
  obtain ⟨hready, hmissing⟩ := ready_folder hlocation hname
  -- There is no run information yet, so that some is written.
  have hload : store.loadMetadata
      (FileTree.empty.set (dir.start ++ [folderName basis limit]) .folder) = .ok none := by
    have hmetadata : store.metadataPath.text.utf8ByteSize ≤ Path.maxSize := by
      have hhigh := (Path.size_join store.root metadataName).2
      have hmetadata : metadataName.utf8ByteSize = 12 := rfl
      rw [metadataPath]
      omega
    rw [loadMetadata]
    dsimp only
    rw [FileTree.readAt, Path.locate_of_le hmetadata, metadataPath,
      Path.location_join _ isName_metadataName]
    dsimp only
    rw [hmissing _ isName_metadataName]
  have htemporary : (store.root.join (temporaryName metadataName)).text.utf8ByteSize ≤
      Path.maxSize := by
    have hhigh := (Path.size_join store.root (temporaryName metadataName)).2
    have hmetadata : (temporaryName metadataName).utf8ByteSize = 17 := rfl
    omega
  obtain ⟨t, hwrite, hready'⟩ := hready.writeFile isName_metadataName htemporary
    (Metadata.ofBasis basis).render
  refine ⟨t, ?_, hready', fun length offFrom => ?_⟩
  · have hrootFits : (dir.join (folderName basis limit)).text.utf8ByteSize ≤ Path.maxSize := by
      rw [← hroot]
      omega
    rw [openIn, ← hstore, hroot, makeFolders_empty hdir hname hshort hrootFits]
    dsimp only
    rw [hload]
    dsimp only
    rw [saveMetadata, hwrite]
  · rw [representativesPath, Path.location_join _ (isName_representativesName _ _),
      ← hmissing _ (isName_representativesName length offFrom)]
    refine read_writeFile_other isName_metadataName hwrite ?_ ?_
    · exact representativesName_ne (by decide)
    · exact representativesName_ne (by decide)

end Store

end Detachment
