import Mathlib.Data.List.Basic
import Detachment.Proofs.StoredText

/-! # The folder of a store

The files of a store stand side by side in one folder. Writing one of them changes no other.

* `Path.location_join` says where a name below a path leads to.
* `Store.writeFile_eq_ok_iff` says when a file is written, and what stands in the store then.
* `Store.read_writeFile` and `Store.read_writeFile_other` say what is read after a file was written.
* `Store.loadRepresentatives_of_read` reads representatives back that were saved.
* `Store.exists_loadMetadata_of_openIn` says that a store that was opened has run information. -/

namespace Detachment

/-! ## Paths -/

namespace Path

/-- A name without slashes that is longer than one or two dots. -/
structure IsName (name : String) : Prop where
  no_slash : '/' ∉ name.toList
  two_lt : 2 < name.toList.length

/-- A name is neither one dot nor two. -/
theorem IsName.ne_of_length_le {name other : String} (h : IsName name)
    (hother : other.toList.length ≤ 2) : name ≠ other := by
  rintro rfl
  exact Nat.not_lt.mpr hother h.two_lt

/-- A text has a part before its first slash. -/
theorem splitSlashes_ne_nil (s : List Char) : splitSlashes s ≠ [] := by
  fun_cases splitSlashes s <;> simp_all

/-- A text without slashes is not cut by `splitSlashes`. -/
theorem splitSlashes_eq_singleton {s : List Char} (h : '/' ∉ s) : splitSlashes s = [s] := by
  induction s with
  | nil => rfl
  | cons c s ih =>
    obtain ⟨hc, hs⟩ := List.ne_and_not_mem_of_not_mem_cons h
    rw [splitSlashes, ih hs]
    exact fun heq => hc heq.symm

/-- A text is cut at a slash by `splitSlashes`. By induction on what stands before the slash, whose
own slashes end a part. -/
theorem splitSlashes_append (s t : List Char) :
    splitSlashes (s ++ '/' :: t) = splitSlashes s ++ splitSlashes t := by
  induction s with
  | nil => rfl
  | cons c s ih =>
    by_cases hc : c = '/'
    · subst hc
      rw [List.cons_append, splitSlashes, ih, splitSlashes]
      rfl
    · obtain ⟨part, parts, hparts⟩ := List.exists_cons_of_ne_nil (splitSlashes_ne_nil s)
      rw [List.cons_append, splitSlashes, ih, splitSlashes, hparts]
      · rfl
      · exact hc
      · exact hc

/-- The `names` that some parts of a path stand for: empty ones and single dots are left out. -/
theorem names_eq (p : Path) {parts : List (List Char)} (h : splitSlashes p.text.toList = parts) :
    p.names = (parts.map String.ofList).filter fun name => name != "" && name != "." := by
  rw [names, h]

/-- A name is the last one that its path leads through: `join` appends it to `names`. The three
cases of `join` differ in the slash between them, and empty parts do not count as names. -/
theorem names_join (p : Path) {name : String} (h : IsName name) :
    (p.join name).names = p.names ++ [name] := by
  have hsingle : splitSlashes name.toList = [name.toList] := splitSlashes_eq_singleton h.no_slash
  have hkeep : ([name.toList].map String.ofList).filter (fun name => name != "" && name != ".") =
      [name] := by
    rw [List.map_singleton, String.ofList_toList, List.filter_cons_of_pos, List.filter_nil]
    rw [Bool.and_eq_true, bne_iff_ne, bne_iff_ne]
    exact ⟨h.ne_of_length_le (by decide), h.ne_of_length_le (by decide)⟩
  rw [join]
  split
  · next hempty =>
    -- An empty path leads through no names.
    have hnames : p.names = [] := by
      rw [names, String.isEmpty_iff.mp hempty]
      rfl
    rw [hnames, names_eq _ hsingle, hkeep, List.nil_append]
  · split
    · -- Behind a slash at the end there is an empty part, which does not count.
      next hslash =>
      obtain ⟨init, hinit⟩ := List.getLast?_eq_some_iff.mp hslash
      have hparts : splitSlashes p.text.toList = splitSlashes init ++ [[]] := by
        rw [hinit, splitSlashes_append]
        rfl
      have hjoined : splitSlashes (p.text ++ name).toList = splitSlashes init ++ [name.toList] := by
        rw [String.toList_append, hinit, List.append_assoc, ← hsingle]
        exact splitSlashes_append _ _
      rw [names_eq _ hjoined, names_eq _ hparts, List.map_append, List.map_append,
        List.filter_append, List.filter_append, hkeep]
      congr 1
      exact (List.append_nil _).symm
    · have hjoined : splitSlashes (p.text ++ "/" ++ name).toList =
          splitSlashes p.text.toList ++ [name.toList] := by
        rw [String.toList_append, String.toList_append, List.append_assoc, ← hsingle]
        exact splitSlashes_append _ _
      rw [names_eq _ hjoined, List.map_append, List.filter_append, hkeep]
      rfl

/-- A name below a path starts where the path does: `join` keeps `start`. Only the first character
decides, and a name does not begin with a slash. -/
theorem start_join (p : Path) {name : String} (h : IsName name) :
    (p.join name).start = p.start := by
  have hname : name.toList.head? ≠ some '/' := fun hhead => h.no_slash (List.mem_of_head? hhead)
  rw [join]
  split
  · next hempty =>
    rw [start, if_neg hname, start, String.isEmpty_iff.mp hempty]
    rfl
  · next hne =>
    have hchars : p.text.toList ≠ [] := by
      rwa [Ne, String.toList_eq_nil_iff, ← String.isEmpty_iff]
    obtain ⟨c, chars, hchars⟩ := List.exists_cons_of_ne_nil hchars
    split
    · rw [start, start, String.toList_append, hchars]
      rfl
    · rw [start, start, String.toList_append, String.toList_append, hchars]
      rfl

/-- A name below a path (`join`) adds its size and at most a slash. -/
theorem size_join (p : Path) (name : String) :
    p.text.utf8ByteSize + name.utf8ByteSize ≤ (p.join name).text.utf8ByteSize ∧
      (p.join name).text.utf8ByteSize ≤ p.text.utf8ByteSize + 1 + name.utf8ByteSize := by
  have hslash : "/".utf8ByteSize = 1 := rfl
  rw [join]
  split
  · next hempty =>
    have hzero : p.text.utf8ByteSize = 0 := by
      rw [String.isEmpty_iff.mp hempty]
      rfl
    dsimp only
    omega
  · split
    · rw [String.utf8ByteSize_append]
      omega
    · rw [String.utf8ByteSize_append, String.utf8ByteSize_append]
      omega

/-- A path leads to its `location` if it is short enough (`maxSize`). -/
theorem locate_eq_ok {p : Path} {l : Location} :
    p.locate = .ok l ↔ p.text.utf8ByteSize ≤ maxSize ∧ p.location = l := by
  rw [locate]
  split
  · next hlong => simp [Nat.not_le.mpr hlong]
  · next hshort => simp [Nat.not_lt.mp hshort]

/-- A name below a path (`join`) leads into the folder that the path leads to. -/
theorem location_join (p : Path) {name : String} (h : IsName name) :
    (p.join name).location = p.location ++ [name] := by
  rw [location, names_join p h, start_join p h, List.foldl_append, List.foldl_cons, List.foldl_nil,
    ← location, Location.enter, if_neg (h.ne_of_length_le (by decide))]

end Path

/-! ## Trees -/

namespace FileTree

variable {t t' : FileTree} {l other : Location} {name : String} {node : Node}
  {contents : Contents}

/-- Taking away one location leaves what `lookup` finds at the others. -/
theorem lookup_filter_of_ne (h : other ≠ l) (nodes : List (Location × Node)) :
    (nodes.filter (·.1 != l)).lookup other = nodes.lookup other := by
  induction nodes with
  | nil => rfl
  | cons first nodes ih =>
    obtain ⟨place, node⟩ := first
    by_cases hplace : place = l
    · have hother : (other == place) = false := beq_false_of_ne fun heq => h (heq.trans hplace)
      rw [List.filter_cons_of_neg (by simp [hplace]), ih, List.lookup_cons, hother]
    · rw [List.filter_cons_of_pos (by simp [hplace]), List.lookup_cons, List.lookup_cons, ih]

/-- What stands at each location after something was put at one of them (`set`). -/
theorem node?_set (h : l.isTop = false) :
    (t.set l node).node? other = if other = l then some node else t.node? other := by
  rw [node?, node?, set]
  by_cases hother : other = l
  · subst hother
    rw [h, if_neg Bool.false_ne_true, if_pos rfl, List.lookup_cons, beq_self_eq_true]
  · rw [if_neg hother, List.lookup_cons, beq_false_of_ne hother, lookup_filter_of_ne hother]

/-- What stands at each location after something was taken away from one of them (`erase`). -/
theorem node?_erase (h : l.isTop = false) :
    (t.erase l).node? other = if other = l then none else t.node? other := by
  rw [node?, node?, erase]
  by_cases hother : other = l
  · subst hother
    rw [h, if_neg Bool.false_ne_true, if_pos rfl, List.lookup_eq_none_iff]
    intro p hp
    rw [bne_comm]
    exact (List.mem_filter.mp hp).2
  · rw [if_neg hother, lookup_filter_of_ne hother]

/-- A file name in a folder is not the top (`isTop`). -/
theorem isTop_append (l : Location) (h : Path.IsName name) :
    Location.isTop (l ++ [name]) = false := by
  rw [Location.isTop, Bool.or_eq_false_iff, List.all_append, Bool.and_eq_false_iff]
  refine ⟨beq_false_of_ne fun heq => ?_, .inr ?_⟩
  · have hlast := congrArg List.getLast? heq
    rw [List.getLast?_concat] at hlast
    exact h.ne_of_length_le (by decide) (Option.some.inj hlast)
  · rw [List.all_cons, List.all_nil, Bool.and_true]
    exact beq_false_of_ne (h.ne_of_length_le (by decide))

/-- What stands above the files of a folder (`above`): the folder and what is above it. -/
theorem above_append (l : Location) (name : String) :
    above (l ++ [name]) = (List.range (l.length + 1)).map l.take := by
  rw [above, List.length_append, List.length_singleton]
  refine List.map_congr_left fun i hi => ?_
  exact List.take_append_of_le_length (Nat.le_of_lt_succ (List.mem_range.mp hi))

/-- Whether a file stands above the files of a folder (`isBelowFile`) depends on the folder and what
is above it. -/
theorem isBelowFile_congr (h : ∀ place : Location, place.length ≤ l.length →
    t'.node? place = t.node? place) (name : String) :
    t'.isBelowFile (l ++ [name]) = t.isBelowFile (l ++ [name]) := by
  rw [isBelowFile, isBelowFile, above_append, List.any_map, List.any_map]
  congr 1
  funext i
  have hsame := h (l.take i) (List.length_take_le' i l)
  rw [Function.comp_apply, Function.comp_apply, isFile, isFile, hsame]

/-- The files of a folder have the same things above them, so `isBelowFile` is the same for all. -/
theorem isBelowFile_append (l : Location) (name other : String) :
    t.isBelowFile (l ++ [name]) = t.isBelowFile (l ++ [other]) := by
  rw [isBelowFile, isBelowFile, above_append, above_append]

/-- A file is read at its location (`readAt`), if its path is short enough. -/
theorem readAt_eq_ok_iff {p : Path} : t.readAt p = .ok contents ↔
    p.text.utf8ByteSize ≤ Path.maxSize ∧ t.read p.location = .ok contents := by
  by_cases hsize : p.text.utf8ByteSize ≤ Path.maxSize
  · simp [readAt, Path.locate_of_le hsize, hsize]
  · rw [readAt, Path.locate, if_pos (Nat.not_le.mp hsize)]
    simp [hsize]

/-- A file is created (`createAt`) in a folder, where no folder stands. The conditions are checked
in this order, and the tree changes at one location. -/
theorem createAt_eq_ok_iff {p : Path} : t.createAt p contents = .ok t' ↔
    p.text.utf8ByteSize ≤ Path.maxSize ∧ t.isBelowFile p.location = false ∧
      t.node? p.location.dropLast ≠ none ∧ t.node? p.location ≠ some .folder ∧
      t' = t.set p.location (.file contents) := by
  by_cases hsize : p.text.utf8ByteSize ≤ Path.maxSize
  · rw [createAt, Path.locate_of_le hsize]
    dsimp only
    rw [create]
    cases hbelow : t.isBelowFile p.location with
    | true => simp
    | false =>
      cases habove : t.node? p.location.dropLast with
      | none => simp
      | some above =>
        cases hnode : t.node? p.location with
        | none => simp [hsize, eq_comm]
        | some node => cases node <;> simp [hsize, eq_comm]
  · rw [createAt, Path.locate, if_pos (Nat.not_le.mp hsize)]
    simp [hsize]

/-- What is renamed (`renameAt`) stands in its new place, where no folder stood, and not in the old
one. -/
theorem renameAt_eq_ok_iff {source target : Path} : t.renameAt source target = .ok t' ↔
    source.text.utf8ByteSize ≤ Path.maxSize ∧ target.text.utf8ByteSize ≤ Path.maxSize ∧
      t.node? target.location ≠ some .folder ∧ ∃ node, t.node? source.location = some node ∧
        t' = (t.erase source.location).set target.location node := by
  by_cases hsource : source.text.utf8ByteSize ≤ Path.maxSize
  · by_cases htarget : target.text.utf8ByteSize ≤ Path.maxSize
    · rw [renameAt, Path.locate_of_le hsource, Path.locate_of_le htarget]
      dsimp only
      rw [rename]
      cases hnode : t.node? source.location with
      | none => simp
      | some node =>
        cases hplace : t.node? target.location with
        | none => simp [hsource, htarget, eq_comm]
        | some other => cases other <;> simp [hsource, htarget, eq_comm]
    · rw [renameAt, Path.locate_of_le hsource, Path.locate, if_pos (Nat.not_le.mp htarget)]
      simp [htarget]
  · rw [renameAt, Path.locate, if_pos (Nat.not_le.mp hsource)]
    simp [hsource]

/-- A file that is read is one of the `nodes`. Nothing is read at the top or below a file, so it was
found by `List.lookup`. -/
theorem mem_nodes_of_read (h : t.read l = .ok contents) : l ∈ t.nodes.map (·.1) := by
  rw [read] at h
  split at h
  · cases h
  · split at h
    · cases h
    · cases h
    · next contents' hnode =>
      rw [node?] at hnode
      split at hnode
      · cases hnode
      · obtain ⟨before, after, hnodes, -⟩ := List.lookup_eq_some_iff.mp hnode
        rw [hnodes, List.map_append, List.map_cons]
        exact List.mem_append_right _ List.mem_cons_self

end FileTree

/-! ## Names of files -/

namespace Store

open Detachment.Path (IsName)

/-- The file of the run information has a name. -/
theorem isName_metadataName : IsName metadataName :=
  ⟨by decide, by decide⟩

/-- A temporary name starts with a dot. -/
theorem toList_temporaryName (name : String) :
    (temporaryName name).toList = '.' :: (name.toList ++ ".tmp".toList) := by
  rw [temporaryName, String.toList_append, String.toList_append]
  rfl

/-- A file can be written under its temporary name first. -/
theorem isName_temporaryName {name : String} (h : IsName name) : IsName (temporaryName name) := by
  constructor
  · rw [toList_temporaryName, List.mem_cons, List.mem_append, not_or, not_or]
    exact ⟨by decide, h.no_slash, by decide⟩
  · have := h.two_lt
    rw [toList_temporaryName, List.length_cons, List.length_append]
    omega

/-- A temporary name is longer by five bytes. -/
theorem size_temporaryName (name : String) :
    (temporaryName name).utf8ByteSize = name.utf8ByteSize + 5 := by
  have hdot : ".".utf8ByteSize = 1 := rfl
  have hend : ".tmp".utf8ByteSize = 4 := rfl
  rw [temporaryName, String.utf8ByteSize_append, String.utf8ByteSize_append]
  omega

/-- What follows the length in the name of a file of representatives: how they were filtered, and
the ending. -/
def representativesEnd : Option Nat → List Char
  | some first => "-unfiltered".toList ++ (Text.digits first ++ "+.txt".toList)
  | none => ".txt".toList

/-- The name of a file of representatives has three parts. They are the text `dProofs`, the digits
of the length and `representativesEnd`. -/
theorem toList_representativesName (length : Nat) (offFrom : Option Nat) :
    (representativesName length offFrom).toList =
      "dProofs".toList ++ (Text.digits length ++ representativesEnd offFrom) := by
  have hdigits : ∀ n : Nat, (toString n).toList = Text.digits n := fun n => by
    rw [Nat.toString_eq_repr, Nat.toList_repr, Text.digits]
  cases offFrom with
  | none =>
    change ("dProofs" ++ toString length ++ ".txt").toList = _
    rw [String.toList_append, String.toList_append, hdigits, List.append_assoc]
    rfl
  | some first =>
    change ("dProofs" ++ toString length ++ "-unfiltered" ++ toString first ++ "+.txt").toList = _
    simp only [String.toList_append, hdigits, List.append_assoc]
    rfl

/-- No file with representatives of one length has the name (`representativesName`) of one for
another length: the length ends at the first character that is no digit. -/
theorem representativesName_inj {length length' : Nat} {offFrom offFrom' : Option Nat}
    (h : representativesName length offFrom = representativesName length' offFrom') :
    length = length' := by
  have hchars := congrArg String.toList h
  rw [toList_representativesName, toList_representativesName, List.append_cancel_left_eq] at hchars
  have hends : ∀ offFrom, Text.EndsNumeral (representativesEnd offFrom) := by
    intro offFrom c hc
    cases offFrom with
    | none =>
      obtain rfl := Option.some.inj hc
      rfl
    | some first =>
      obtain rfl := Option.some.inj hc
      rfl
  exact (Text.digits_append_inj (hends _) (hends _) hchars).1

/-- Every file of representatives has a name. None of the three parts has a slash, and the first one
has more than two characters. -/
theorem isName_representativesName (length : Nat) (offFrom : Option Nat) :
    IsName (representativesName length offFrom) := by
  have hdigits : ∀ n, '/' ∉ Text.digits n := fun n hslash =>
    absurd (Text.isDigit_of_mem_digits hslash) (by decide)
  have hend : '/' ∉ representativesEnd offFrom := by
    cases offFrom with
    | none => exact show '/' ∉ ".txt".toList by decide
    | some first =>
      change '/' ∉ "-unfiltered".toList ++ (Text.digits first ++ "+.txt".toList)
      rw [List.mem_append, List.mem_append, not_or, not_or]
      exact ⟨by decide, hdigits first, by decide⟩
  constructor
  · rw [toList_representativesName, List.mem_append, List.mem_append, not_or, not_or]
    exact ⟨by decide, hdigits length, hend⟩
  · rw [toList_representativesName, List.length_append]
    exact Nat.lt_of_lt_of_le (show 2 < "dProofs".toList.length by decide) (Nat.le_add_right _ _)

/-- The files with representatives are told from all others by their first character, `d`. -/
theorem representativesName_ne {length : Nat} {offFrom : Option Nat} {name : String}
    (h : name.toList.head? ≠ some 'd') : representativesName length offFrom ≠ name := by
  rintro rfl
  rw [toList_representativesName, List.head?_append_of_ne_nil _ (by decide)] at h
  exact h (by decide)

/-! ## Reading and writing files -/

variable {store : Store} {t t' : FileTree} {name other text : String}

/-- A file stands in another place than what is written before it, under `temporaryName`. -/
theorem append_temporaryName_ne (l : Location) (name : String) :
    l ++ [temporaryName name] ≠ l ++ [name] := by
  intro heq
  have hchars := congrArg String.toList (List.head_eq_of_cons_eq (List.append_cancel_left heq))
  have hlength := congrArg List.length hchars
  rw [toList_temporaryName, List.length_cons, List.length_append] at hlength
  omega

/-- A store in which a file can be written: its folder is there, no file stands above it, and no
folder stands where the file is written first or where it goes then. -/
structure Accepts (store : Store) (t : FileTree) (name : String) : Prop where
  size : (store.root.join (temporaryName name)).text.utf8ByteSize ≤ Path.maxSize
  above : t.isBelowFile (store.root.location ++ [name]) = false
  folder : t.node? store.root.location ≠ none
  temporary : t.node? (store.root.location ++ [temporaryName name]) ≠ some .folder
  target : t.node? (store.root.location ++ [name]) ≠ some .folder

/-- A path to a file is shorter than the one to what is written before it, so it is short enough,
too. -/
theorem Accepts.size_le (h : store.Accepts t name) :
    (store.root.join name).text.utf8ByteSize ≤ Path.maxSize := by
  have hlow := (Path.size_join store.root (temporaryName name)).1
  have hhigh := (Path.size_join store.root name).2
  have hsize := h.size
  rw [size_temporaryName] at hlow
  omega

/-- A file is written (`writeFile`) exactly if the store `Accepts` it. It stands in its place then,
and nothing stands under its other name. -/
theorem writeFile_eq_ok_iff (hname : IsName name) : store.writeFile t name text = (.ok (), t') ↔
    store.Accepts t name ∧
      t' = ((t.set (store.root.location ++ [temporaryName name]) (.file (.ofText text))).erase
        (store.root.location ++ [temporaryName name])).set (store.root.location ++ [name])
          (.file (.ofText text)) := by
  have htemporary := isName_temporaryName hname
  have hplace := Path.location_join store.root hname
  have hplace' := Path.location_join store.root htemporary
  have hset : ∀ place, (t.set (store.root.location ++ [temporaryName name])
      (.file (.ofText text))).node? place = if place = store.root.location ++ [temporaryName name]
        then some (.file (.ofText text)) else t.node? place :=
    fun place => FileTree.node?_set (FileTree.isTop_append _ htemporary)
  constructor
  · intro hok
    rw [writeFile] at hok
    split at hok
    · cases hok
    · next written hcreate =>
      split at hok
      · cases hok
      · next renamed hrename =>
        obtain rfl := (Prod.mk.inj hok).2
        -- What is renamed is the file that was just created.
        obtain ⟨hsize, habove, hfolder, hfree, rfl⟩ := FileTree.createAt_eq_ok_iff.mp hcreate
        obtain ⟨-, -, hfree', node, hnode, rfl⟩ := FileTree.renameAt_eq_ok_iff.mp hrename
        rw [hplace'] at habove hfolder hfree hfree' hnode ⊢
        rw [hplace] at hfree' ⊢
        rw [hset, if_pos rfl] at hnode
        rw [hset, if_neg (append_temporaryName_ne _ _).symm] at hfree'
        rw [List.dropLast_concat] at hfolder
        obtain rfl := Option.some.inj hnode
        exact ⟨⟨hsize, (FileTree.isBelowFile_append _ _ _).trans habove, hfolder, hfree, hfree'⟩, rfl⟩
  · rintro ⟨h, rfl⟩
    have hcreate : t.createAt (store.root.join (temporaryName name)) (.ofText text) =
        .ok (t.set (store.root.location ++ [temporaryName name]) (.file (.ofText text))) := by
      refine FileTree.createAt_eq_ok_iff.mpr ⟨h.size, ?_⟩
      rw [hplace', List.dropLast_concat]
      exact ⟨(FileTree.isBelowFile_append _ _ _).trans h.above, h.folder, h.temporary, rfl⟩
    rw [writeFile, hcreate]
    dsimp only
    rw [FileTree.renameAt_eq_ok_iff.mpr ⟨h.size, h.size_le, ?_, _, ?_, rfl⟩, hplace, hplace']
    · rw [hplace, hset, if_neg (append_temporaryName_ne _ _).symm]
      exact h.target
    · rw [hplace', hset, if_pos rfl]

/-- A file that the store `Accepts` is written. -/
theorem Accepts.exists_writeFile (h : store.Accepts t name) (hname : IsName name) (text : String) :
    ∃ t', store.writeFile t name text = (.ok (), t') :=
  ⟨_, (writeFile_eq_ok_iff hname).mpr ⟨h, rfl⟩⟩

/-- A file that was written (`writeFile`) stands in its place, nothing stands under its other name,
and all else is left as it was. -/
theorem node?_writeFile (hname : IsName name) (hok : store.writeFile t name text = (.ok (), t'))
    (place : Location) : t'.node? place =
      if place = store.root.location ++ [name] then some (.file (.ofText text))
      else if place = store.root.location ++ [temporaryName name] then none
      else t.node? place := by
  have htemporary := isName_temporaryName hname
  obtain ⟨-, rfl⟩ := (writeFile_eq_ok_iff hname).mp hok
  rw [FileTree.node?_set (FileTree.isTop_append _ hname),
    FileTree.node?_erase (FileTree.isTop_append _ htemporary),
    FileTree.node?_set (FileTree.isTop_append _ htemporary)]
  by_cases hplace : place = store.root.location ++ [temporaryName name]
  · rw [if_pos hplace, if_pos hplace]
  · rw [if_neg hplace, if_neg hplace, if_neg hplace]

/-- Writing a file (`writeFile`) changes nothing above the files of the store. -/
theorem isBelowFile_writeFile (hname : IsName name)
    (hok : store.writeFile t name text = (.ok (), t')) (other : String) :
    t'.isBelowFile (store.root.location ++ [other]) =
      t.isBelowFile (store.root.location ++ [other]) := by
  refine FileTree.isBelowFile_congr (fun place hplace => ?_) other
  have hne : ∀ name : String, place ≠ store.root.location ++ [name] := by
    rintro name rfl
    rw [List.length_append, List.length_singleton] at hplace
    omega
  rw [node?_writeFile hname hok, if_neg (hne _), if_neg (hne _)]

/-- A file that was written (`writeFile`) is read back. -/
theorem read_writeFile (hname : IsName name)
    (hok : store.writeFile t name text = (.ok (), t')) :
    t'.read (store.root.location ++ [name]) = .ok (.ofText text) := by
  have haccepts := ((writeFile_eq_ok_iff hname).mp hok).1
  rw [FileTree.read, isBelowFile_writeFile hname hok, haccepts.above, if_neg Bool.false_ne_true,
    node?_writeFile hname hok, if_pos rfl]

/-- Writing a file (`writeFile`) changes no other, except for the one under the other name. -/
theorem read_writeFile_other (hname : IsName name)
    (hok : store.writeFile t name text = (.ok (), t')) (hne : other ≠ name)
    (htemporary : other ≠ temporaryName name) :
    t'.read (store.root.location ++ [other]) = t.read (store.root.location ++ [other]) := by
  have hplace : ∀ {name}, other ≠ name →
      store.root.location ++ [other] ≠ store.root.location ++ [name] := by
    intro name hne heq
    exact hne (List.head_eq_of_cons_eq (List.append_cancel_left heq))
  rw [FileTree.read, isBelowFile_writeFile hname hok, node?_writeFile hname hok,
    if_neg (hplace hne), if_neg (hplace htemporary), FileTree.read]

/-! ## Files of the store -/

/-- Representatives that were written (`representativesText`) are loaded. -/
theorem loadRepresentatives_of_read {length : Nat} {offFrom : Option Nat} (hlength : 1 ≤ length)
    {withConclusions : Bool} {entries : List (String × Formula)}
    (h : ∀ e ∈ entries, Writable length e.1)
    (hfits : withConclusions = true → ∀ e ∈ entries, e.2.Fits)
    (hsize : (store.representativesPath length offFrom).text.utf8ByteSize ≤ Path.maxSize)
    (hread : t.read (store.representativesPath length offFrom).location =
      .ok (.ofText (representativesText withConclusions entries))) :
    store.loadRepresentatives t length offFrom = .ok (some (entries.map (stored withConclusions))) := by
  rw [loadRepresentatives, FileTree.readAt, Path.locate_eq_ok.mpr ⟨hsize, rfl⟩]
  dsimp only
  rw [hread]
  dsimp only
  rw [parseFile_representatives hlength h hfits]
  rfl

/-- Run information that was written (`Metadata.render`) is loaded, if it stands on lines that can
be read. -/
theorem loadMetadata_of_read {m : Metadata} (hlines : ∀ line ∈ m.renderLines, Text.IsLine line.toList)
    (hparse : Metadata.parse store.metadataPath (m.renderLines.map String.toList) = .ok m)
    (hfingerprint : store.fingerprint = m.hash)
    (hsize : store.metadataPath.text.utf8ByteSize ≤ Path.maxSize)
    (hread : t.read store.metadataPath.location = .ok (.ofText m.render)) :
    store.loadMetadata t = .ok (some m) := by
  have htext : textLines? (.ofText m.render) = some (m.renderLines.map String.toList) :=
    textLines?_ofText hlines
  rw [loadMetadata]
  dsimp only
  rw [FileTree.readAt, Path.locate_eq_ok.mpr ⟨hsize, rfl⟩]
  dsimp only
  rw [hread]
  dsimp only
  rw [htext]
  dsimp only
  rw [hparse]
  exact if_pos hfingerprint.symm

/-- A store that was opened (`openIn`) has run information that can be read. It was there before, or
it was written and is read back by `read_writeFile`. -/
theorem exists_loadMetadata_of_openIn {dir : Path} {basis : Basis} {limit : NecessitationLimit}
    (hopen : openIn dir basis limit t = (.ok store, t')) : ∃ m, store.loadMetadata t' = .ok m := by
  rw [openIn] at hopen
  dsimp only at hopen
  split at hopen
  · cases hopen
  · next made hmade =>
    split at hopen
    · cases hopen
    · next m hload =>
      obtain ⟨hstore, rfl⟩ := Prod.mk.inj hopen
      obtain rfl := Except.ok.inj hstore
      exact ⟨some m, hload⟩
    · next hload =>
      -- There was none, so that it was written.
      split at hopen
      · cases hopen
      · next saved hsave =>
        obtain ⟨hstore, rfl⟩ := Prod.mk.inj hopen
        obtain rfl := Except.ok.inj hstore
        have haccepts := ((writeFile_eq_ok_iff isName_metadataName).mp hsave).1
        have hlines : ∀ line ∈ (Metadata.ofBasis basis).renderLines, Text.IsLine line.toList := fun _ =>
          Metadata.isLine_of_mem_renderLines (Metadata.hash_ofBasis basis) (Metadata.axioms_ofBasis basis)
        refine ⟨_, loadMetadata_of_read hlines (Metadata.parse_ofBasis _ basis)
          (Metadata.hash_ofBasis basis).symm haccepts.size_le ?_⟩
        rw [metadataPath, Path.location_join _ isName_metadataName]
        exact read_writeFile isName_metadataName hsave

end Store

end Detachment
