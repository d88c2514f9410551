import Mathlib.Data.List.Forall2
import Detachment.Proofs.Lists
import Detachment.Proofs.RepresentativeFiles

/-! # Well-formed files of representatives

A file of representatives is loaded exactly if each of its lines is a proof of the length, or each
is such a proof with a conclusion. Otherwise the number of the first line at fault is reported.

* `Text.Lines` says what the lines of a text are, and `Contents.lines_of_lines` that contents are
  cut into them.
* `Store.LineOf` says what is stored on a line, and `Store.parseLine_eq_ok_iff` that this is what is
  read from it.
* `Store.parseFile_eq_ok_iff` and `Store.exists_fault_of_parseFile` follow the lines of a file with
  what the first of them said about conclusions.
* `Store.loadRepresentatives_exact` is the main result. -/

namespace Detachment

/-! ## Lines of a text -/

/-- The lines of a text, without the line breaks. -/
inductive Text.Lines : List Char → List (List Char) → Prop where
  /-- A text without characters has no lines. -/
  | nil : Lines [] []
  /-- The last line need not end in a line break. -/
  | last {line : List Char} (hne : line ≠ []) (h : '\n' ∉ line) : Lines line [line]
  /-- A line ends in a line feed. -/
  | feed {line rest : List Char} {lines : List (List Char)} (h : '\n' ∉ line)
      (hlast : line.getLast? ≠ some '\r') (hrest : Lines rest lines) :
      Lines (line ++ '\n' :: rest) (line :: lines)
  /-- A line ends in a carriage return and a line feed. -/
  | returnFeed {line rest : List Char} {lines : List (List Char)} (h : '\n' ∉ line)
      (hrest : Lines rest lines) : Lines (line ++ '\r' :: '\n' :: rest) (line :: lines)

/-- Every text has `Lines`, by induction on its length. -/
theorem Text.exists_lines (s : List Char) : ∃ lines, Lines s lines := by
  induction hlength : s.length using Nat.strongRecOn generalizing s with
  | ind length ih =>
    subst hlength
    by_cases hfeed : '\n' ∈ s
    · obtain ⟨line, rest, rfl, hline⟩ := List.eq_append_cons_of_mem hfeed
      obtain ⟨lines, hlines⟩ := ih rest.length (by simp; omega) rest rfl
      by_cases hreturn : line.getLast? = some '\r'
      · -- The carriage return belongs to the line break.
        obtain ⟨start, rfl⟩ := List.getLast?_eq_some_iff.mp hreturn
        rw [List.append_assoc]
        exact ⟨_, .returnFeed (fun hmem => hline (List.mem_append_left _ hmem)) hlines⟩
      · exact ⟨_, .feed hline hreturn hlines⟩
    · cases s with
      | nil => exact ⟨_, .nil⟩
      | cons c s => exact ⟨_, .last (List.cons_ne_nil c s) hfeed⟩

namespace Contents

/-- What stands before a carriage return and a line feed is one of the `lines`. -/
theorem lines_returnFeed {s : List Char} (h : '\n' ∉ s) (rest : Contents) :
    lines (s.map some ++ some '\r' :: some '\n' :: rest) = s.map some :: lines rest := by
  have hline : '\n' ∉ s ++ ['\r'] := by simp [h]
  have hshift : s.map some ++ some '\r' :: some '\n' :: rest =
      (s ++ ['\r']).map some ++ some '\n' :: rest := by simp
  have hreverse : ((s ++ ['\r']).map some).reverse = some '\r' :: (s.map some).reverse := by simp
  rw [hshift, lines, linesAfter_append hline, List.append_nil, hreverse, linesAfter, dropReturn,
    List.reverse_reverse]
  rfl

/-- Text is cut by `Contents.lines` into its `Text.Lines`. By induction on `Lines`, with one
equation for each kind of line break. -/
theorem lines_of_lines {s : List Char} {texts : List (List Char)} (h : Text.Lines s texts) :
    lines (s.map some) = texts.map (·.map some) := by
  induction h with
  | nil => rfl
  | @last line hne h =>
    have hempty : (line.map some).reverse.isEmpty = false := by simpa using hne
    rw [lines, ← List.append_nil (line.map some), linesAfter_append h, List.append_nil, linesAfter,
      hempty, if_neg Bool.false_ne_true, List.reverse_reverse]
    rfl
  | feed h hlast _ ih => rw [List.map_append, List.map_cons, lines_feed h hlast, ih, List.map_cons]
  | returnFeed h _ ih =>
    rw [List.map_append, List.map_cons, List.map_cons, lines_returnFeed h, ih, List.map_cons]

end Contents

/-- A text has its `Lines` in one way only, as all of them are what `Contents.lines` gives. -/
theorem Text.Lines.unique {s : List Char} {texts others : List (List Char)} (h : Lines s texts)
    (h' : Lines s others) : texts = others := by
  have heq : texts.map (·.map some) = others.map (·.map some) :=
    (Contents.lines_of_lines h).symm.trans (Contents.lines_of_lines h')
  refine List.map_injective_iff.mpr ?_ heq
  exact List.map_injective_iff.mpr fun _ _ => Option.some.inj

namespace Store

/-! ## What stands on a line -/

/-- Characters that can stand on a line as a proof of `length` bytes. -/
structure IsProof (length : Nat) (proof : List Char) : Prop where
  /-- There are some. -/
  ne_nil : proof ≠ []
  /-- They have as many bytes as the length says. -/
  size_eq : (String.ofList proof).utf8ByteSize = length
  /-- They can be told from a conclusion behind them. -/
  no_colon : ':' ∉ proof

/-- What is stored on a line, without a conclusion (`false`) or with one (`true`). -/
inductive LineOf (length : Nat) : Bool → List Char → StoredProof → Prop where
  /-- The line is a proof. -/
  | bare {proof : List Char} (h : IsProof length proof) :
      LineOf length false proof ⟨String.ofList proof, none⟩
  /-- The line is a proof, a colon and the notation of its conclusion. -/
  | complete {proof notated : List Char} {f : Formula} (h : IsProof length proof)
      (hparse : Formula.parse (String.ofList notated) = .ok f) :
      LineOf length true (proof ++ ':' :: notated) ⟨String.ofList proof, some f⟩

/-- Something is stored on the line, for `LineOf`. -/
def WellFormed (length : Nat) (withConclusion : Bool) (line : List Char) : Prop :=
  ∃ stored, LineOf length withConclusion line stored

variable {length : Nat} {line : List Char} {layout : Option Bool} {found : Bool} {stored : StoredProof}

/-- The colon of a line tells whether there is a conclusion on it, so no line is `WellFormed` both
ways. -/
theorem WellFormed.colon_mem_iff (h : WellFormed length found line) : ':' ∈ line ↔ found = true := by
  obtain ⟨_, h | h⟩ := h
  · simp [h.no_colon]
  · simp

/-- What is stored on a line is read from it (`parseLine`), if the lines before it agree about
conclusions (`layout`). -/
theorem LineOf.parseLine_eq (h : LineOf length found line stored) (hlayout : layout.getD found = found) :
    parseLine length layout line = .ok (stored, found) := by
  cases h with
  | bare h =>
    have hempty := String.isEmpty_ofList_eq_false_iff.mpr h.ne_nil
    simp [parseLine, splitColon?_eq_none h.no_colon, hempty, h.size_eq, hlayout]
  | complete h hparse =>
    have hempty := String.isEmpty_ofList_eq_false_iff.mpr h.ne_nil
    simp [parseLine, splitColon?_append h.no_colon, hempty, h.size_eq, hlayout, hparse]

/-- What `parseLine` reads from a line is stored on it (`LineOf`). A colon in the line decides which
of the two layouts it has. -/
theorem lineOf_of_parseLine (h : parseLine length layout line = .ok (stored, found)) :
    LineOf length found line stored ∧ layout.getD found = found := by
  by_cases hcolon : ':' ∈ line
  · obtain ⟨proof, notated, rfl, hbefore⟩ := List.eq_append_cons_of_mem hcolon
    simp only [parseLine, splitColon?_append hbefore, Option.isSome_some, if_true] at h
    -- Each check of `parseLine` was passed; together they say that this is a proof.
    obtain ⟨hempty, h⟩ := Except.of_ite_error_eq_ok h
    obtain ⟨hsize, h⟩ := Except.of_ite_error_eq_ok h
    obtain ⟨hlayout, h⟩ := Except.of_ite_error_eq_ok h
    have hproof : IsProof length proof :=
      ⟨String.isEmpty_ofList_eq_false_iff.mp (Bool.eq_false_iff.mpr hempty), not_not.mp hsize, hbefore⟩
    split at h
    · cases h
    · next f hparse =>
      obtain ⟨rfl, rfl⟩ := Prod.mk.inj (Except.ok.inj h)
      rw [not_not.mp hlayout]
      exact ⟨.complete hproof hparse, not_not.mp hlayout⟩
  · simp only [parseLine, splitColon?_eq_none hcolon, Option.isSome_none, Bool.false_eq_true,
      if_false] at h
    obtain ⟨hempty, h⟩ := Except.of_ite_error_eq_ok h
    obtain ⟨hsize, h⟩ := Except.of_ite_error_eq_ok h
    obtain ⟨hlayout, h⟩ := Except.of_ite_error_eq_ok h
    have hproof : IsProof length line :=
      ⟨String.isEmpty_ofList_eq_false_iff.mp (Bool.eq_false_iff.mpr hempty), not_not.mp hsize, hcolon⟩
    obtain ⟨rfl, rfl⟩ := Prod.mk.inj (Except.ok.inj h)
    rw [not_not.mp hlayout]
    exact ⟨.bare hproof, not_not.mp hlayout⟩

/-- A line is read as what is stored on it (`LineOf`), if the lines before it agree about
conclusions (`layout`). -/
theorem parseLine_eq_ok_iff : parseLine length layout line = .ok (stored, found) ↔
    LineOf length found line stored ∧ layout.getD found = found :=
  ⟨lineOf_of_parseLine, fun h => h.1.parseLine_eq h.2⟩

/-! ## Lines of a file -/

variable {path : Path} {number : Nat} {lines : List (List Char)} {proofs : List StoredProof}

/-- The lines of a file are read (`parseFile`) as what is stored on them, if they agree about
conclusions. The induction is on the lines, with any `layout` that those before have told. -/
theorem parseFile_eq_ok_iff :
    parseFile path length number layout (lines.map (·.map some)) = .ok proofs ↔
      ∃ found, layout.getD found = found ∧ List.Forall₂ (LineOf length found) lines proofs := by
  induction lines generalizing number layout proofs with
  | nil =>
    rw [List.map_nil, parseFile, Except.ok.injEq]
    constructor
    · rintro rfl
      exact ⟨layout.getD true, by cases layout <;> rfl, .nil⟩
    · rintro ⟨_, -, h⟩
      exact (List.forall₂_nil_left_iff.mp h).symm
  | cons line lines ih =>
    rw [List.map_cons, parseFile, Contents.text?_map_some]
    dsimp only
    constructor
    · intro h
      split at h
      · cases h
      · next stored found hline =>
        split at h
        · cases h
        · next proofs' hrest =>
          obtain rfl := Except.ok.inj h
          -- The lines behind this one agree with it.
          obtain ⟨hstored, hlayout⟩ := parseLine_eq_ok_iff.mp hline
          obtain ⟨found', hfound, hforall⟩ := ih.mp hrest
          obtain rfl : found = found' := hfound
          exact ⟨found, hlayout, .cons hstored hforall⟩
    · rintro ⟨found, hlayout, h⟩
      obtain ⟨stored, proofs', hstored, hforall, rfl⟩ := List.forall₂_cons_left_iff.mp h
      have hrest : parseFile path length (number + 1) (some found) (lines.map (·.map some)) =
          .ok proofs' := ih.mpr ⟨found, rfl, hforall⟩
      rw [hstored.parseLine_eq hlayout]
      dsimp only
      rw [hrest]

/-- If the lines of a file cannot be read (`parseFile`), one of them is reported: those before it
agree about conclusions, and it does not agree with them. -/
theorem exists_fault_of_parseFile {e : StoreError}
    (h : parseFile path length number layout (lines.map (·.map some)) = .error e) :
    ∃ before line after reason, lines = before ++ line :: after ∧
      e = .malformed path (number + before.length) reason ∧
      (∃ found, layout.getD found = found ∧ ∀ l ∈ before, WellFormed length found l) ∧
      ∀ found, layout.getD found = found → (∀ l ∈ before, WellFormed length found l) →
        ¬WellFormed length found line := by
  induction lines generalizing number layout with
  | nil => cases h
  | cons line lines ih =>
    rw [List.map_cons, parseFile, Contents.text?_map_some] at h
    dsimp only at h
    split at h
    · next reason hline =>
      refine ⟨[], line, lines, reason, rfl, (Except.error.inj h).symm, ?_, ?_⟩
      · exact ⟨layout.getD true, by cases layout <;> rfl, by simp⟩
      · rintro found hlayout - ⟨stored, hstored⟩
        rw [hstored.parseLine_eq hlayout] at hline
        cases hline
    · next stored found hline =>
      obtain ⟨hstored, hlayout⟩ := parseLine_eq_ok_iff.mp hline
      split at h
      · next e' hrest =>
        obtain rfl := Except.error.inj h
        obtain ⟨before, fault, after, reason, rfl, rfl, ⟨found', hfound, hbefore⟩, hfault⟩ := ih hrest
        obtain rfl : found = found' := hfound
        refine ⟨line :: before, fault, after, reason, rfl, ?_, ⟨found, hlayout, ?_⟩, ?_⟩
        · rw [List.length_cons, Nat.add_assoc, Nat.add_comm 1]
        · exact List.forall_mem_cons.mpr ⟨⟨stored, hstored⟩, hbefore⟩
        · intro other hother hall
          obtain ⟨hfirst, hall⟩ := List.forall_mem_cons.mp hall
          -- This line leaves no choice.
          have hsame : found = other := by
            rw [Bool.eq_iff_iff, ← hfirst.colon_mem_iff]
            exact (WellFormed.colon_mem_iff ⟨stored, hstored⟩).symm
          exact hsame ▸ hfault found rfl hbefore
      · cases h

/-! ## Loading a file -/

/-- A line is at fault: nothing is stored on it, or it does not agree with the first line about
conclusions. -/
def Faulty (length : Nat) (lines : List (List Char)) (line : List Char) : Prop :=
  (∀ found, ¬WellFormed length found line) ∨ ∃ first ∈ lines.head?, ¬(':' ∈ line ↔ ':' ∈ first)

/-- The `number`, counted from one, of the first line at fault. -/
def FirstFault (length : Nat) (lines : List (List Char)) (number : Nat) : Prop :=
  ∃ before line after, lines = before ++ line :: after ∧ number = before.length + 1 ∧
    Faulty length lines line ∧ ∀ l ∈ before, ¬Faulty length lines l

/-- A line that agrees with the first one (`WellFormed`) is not at fault. -/
theorem not_faulty {first : List Char} (hfirst : WellFormed length found first)
    (h : WellFormed length found line) : ¬Faulty length (first :: lines) line := by
  rintro (hnone | ⟨other, hother, hcolon⟩)
  · exact hnone found h
  · obtain rfl : first = other := Option.some.inj hother
    exact hcolon (h.colon_mem_iff.trans hfirst.colon_mem_iff.symm)

/-- The line that `parseFile` reports is the first one at fault. It is not well-formed, or it has
another layout than the first line. -/
theorem firstFault_of_parseFile {e : StoreError}
    (h : parseFile path length 1 none (lines.map (·.map some)) = .error e) :
    ∃ number reason, e = .malformed path number reason ∧ FirstFault length lines number := by
  obtain ⟨before, line, after, reason, rfl, rfl, ⟨found, -, hbefore⟩, hline⟩ :=
    exists_fault_of_parseFile h
  refine ⟨_, reason, rfl, before, line, after, rfl, Nat.add_comm 1 _, ?_, ?_⟩
  · by_cases hformed : ∃ other, WellFormed length other line
    · obtain ⟨other, hformed⟩ := hformed
      -- The line would be the first one without the lines before it, and then it is not at fault.
      cases before with
      | nil => exact absurd hformed (hline other rfl (by simp))
      | cons first before =>
        refine .inr ⟨first, rfl, fun hcolon => ?_⟩
        have hfirst := hbefore first List.mem_cons_self
        have hsame : other = found := by
          rw [Bool.eq_iff_iff, ← hformed.colon_mem_iff, hcolon, hfirst.colon_mem_iff]
        exact hline found rfl hbefore (hsame ▸ hformed)
    · exact .inl fun other hother => hformed ⟨other, hother⟩
  · intro l hl
    cases before with
    | nil => exact absurd hl List.not_mem_nil
    | cons first before => exact not_faulty (hbefore first List.mem_cons_self) (hbefore l hl)

/-- There is only one `FirstFault`. Neither of two comes before the other, as the lines before a
first fault have none. -/
theorem FirstFault.unique {other : Nat} (h : FirstFault length lines number)
    (h' : FirstFault length lines other) : number = other := by
  -- A line at fault does not stand before another one that is the first.
  have hle : ∀ {number other}, FirstFault length lines number → FirstFault length lines other →
      other ≤ number := by
    rintro _ _ ⟨before, line, after, rfl, rfl, hline, -⟩ ⟨before', line', after', heq, rfl, -, hbefore⟩
    by_contra hlt
    have hmem : (before ++ line :: after)[before.length]? = before'[before.length]? := by
      rw [heq, List.getElem?_append_left (by omega)]
    rw [List.getElem?_append_right (Nat.le_refl _), Nat.sub_self, List.getElem?_cons_zero] at hmem
    exact hbefore line (List.mem_of_getElem? hmem.symm) hline
  exact Nat.le_antisymm (hle h' h) (hle h h')

/-- Lines are `WellFormed` exactly if something is stored on all of them. -/
theorem exists_forall₂_lineOf_iff :
    (∃ proofs, List.Forall₂ (LineOf length found) lines proofs) ↔
      ∀ line ∈ lines, WellFormed length found line := by
  induction lines with
  | nil => simp
  | cons line lines ih =>
    simp only [List.forall₂_cons_left_iff, List.forall_mem_cons, ← ih]
    constructor
    · rintro ⟨_, stored, proofs, hstored, hforall, rfl⟩
      exact ⟨⟨stored, hstored⟩, proofs, hforall⟩
    · rintro ⟨⟨stored, hstored⟩, proofs, hforall⟩
      exact ⟨_, stored, proofs, hstored, hforall, rfl⟩

/-- A file is loaded (`loadRepresentatives`) exactly if each of its `Lines` is a proof of the
length, or each is such a proof with a conclusion that can be read. What is loaded is then what is
stored on the lines (`LineOf`), in their order. Otherwise nothing is loaded, and the number is
reported of the first line on which nothing is stored or which does not agree with the first one
about conclusions (`FirstFault`). -/
theorem loadRepresentatives_exact (store : Store) (t : FileTree) (length : Nat) (offFrom : Option Nat)
    (text : String)
    (hread : t.readAt (store.representativesPath length offFrom) = .ok (.ofText text)) :
    ∃ lines, (∀ other, Text.Lines text.toList other ↔ other = lines) ∧
      ((∃ loaded, store.loadRepresentatives t length offFrom = .ok loaded) ↔
        (∀ line ∈ lines, WellFormed length false line) ∨ ∀ line ∈ lines, WellFormed length true line) ∧
      (∀ loaded, store.loadRepresentatives t length offFrom = .ok loaded →
        ∃ found proofs, loaded = some proofs ∧ List.Forall₂ (LineOf length found) lines proofs) ∧
      (¬((∀ line ∈ lines, WellFormed length false line) ∨ ∀ line ∈ lines, WellFormed length true line) →
        ∃ number reason, store.loadRepresentatives t length offFrom =
            .error (.malformed (store.representativesPath length offFrom) number reason) ∧
          FirstFault length lines number) := by
  obtain ⟨lines, hlines⟩ := Text.exists_lines text.toList
  -- The lines of the specification are those that the reader gets.
  have hload : store.loadRepresentatives t length offFrom =
      (parseFile (store.representativesPath length offFrom) length 1 none
        (lines.map (·.map some))).map some := by
    rw [loadRepresentatives, hread]
    dsimp only
    rw [Contents.ofText, Contents.lines_of_lines hlines]
  have hformed : (∀ line ∈ lines, WellFormed length false line) ∨
      (∀ line ∈ lines, WellFormed length true line) ↔
        ∃ found proofs, List.Forall₂ (LineOf length found) lines proofs := by
    simp only [exists_forall₂_lineOf_iff, Bool.exists_bool]
  refine ⟨lines, fun other => ⟨fun hother => hother.unique hlines, fun heq => heq ▸ hlines⟩, ?_⟩
  rw [hload, hformed]
  cases hparse : parseFile (store.representativesPath length offFrom) length 1 none
    (lines.map (·.map some)) with
  | ok proofs =>
    -- The file is read, so something is stored on all lines.
    obtain ⟨found, -, hforall⟩ := parseFile_eq_ok_iff.mp hparse
    refine ⟨⟨fun _ => ⟨found, proofs, hforall⟩, fun _ => ⟨some proofs, rfl⟩⟩, ?_, fun hnone => ?_⟩
    · intro loaded hloaded
      exact ⟨found, proofs, (Except.ok.inj hloaded).symm, hforall⟩
    · exact absurd ⟨found, proofs, hforall⟩ hnone
  | error e =>
    -- The file is not read, so the lines do not agree, and the reader has found the first fault.
    have hnone : ¬∃ found proofs, List.Forall₂ (LineOf length found) lines proofs := by
      rintro ⟨found, proofs, hforall⟩
      rw [parseFile_eq_ok_iff.mpr ⟨found, rfl, hforall⟩] at hparse
      cases hparse
    obtain ⟨number, reason, rfl, hfault⟩ := firstFault_of_parseFile hparse
    refine ⟨⟨?_, fun hsome => absurd hsome hnone⟩, ?_, fun _ => ⟨number, reason, rfl, hfault⟩⟩
    · rintro ⟨loaded, hloaded⟩
      cases hloaded
    · intro loaded hloaded
      cases hloaded

/-- Three lines of which the last one has no conclusion; the first one ends in a carriage return and
a line feed. -/
def mixedLines : String := "D11:C0.0\r\nD21:C0C1.0\nD12\n"

/-- A file with three lines is not loaded if the first two have conclusions and the third one has
none, and the third one is reported. -/
theorem loadRepresentatives_exact_mixedLines :
    ∃ t : FileTree,
      t.readAt (representativesPath ⟨⟨""⟩, "default"⟩ 3 none) = .ok (.ofText mixedLines) ∧
      ∃ reason, loadRepresentatives ⟨⟨""⟩, "default"⟩ t 3 none =
        .error (.malformed (representativesPath ⟨⟨""⟩, "default"⟩ 3 none) 3 reason) := by
  have hname := isName_representativesName 3 none
  have haccepts : Accepts ⟨⟨""⟩, "default"⟩ .empty (representativesName 3 none) :=
    accepts_empty hname (by decide) _
  obtain ⟨t, hwrite⟩ := haccepts.exists_writeFile hname mixedLines
  have hread : t.readAt (representativesPath ⟨⟨""⟩, "default"⟩ 3 none) = .ok (.ofText mixedLines) := by
    refine FileTree.readAt_eq_ok_iff.mpr ⟨haccepts.size_le, ?_⟩
    rw [location_representativesPath]
    exact read_writeFile hname hwrite
  have hcut : Text.Lines mixedLines.toList ["D11:C0.0".toList, "D21:C0C1.0".toList, "D12".toList] :=
    @Text.Lines.returnFeed "D11:C0.0".toList _ _ (by decide)
      (@Text.Lines.feed "D21:C0C1.0".toList _ _ (by decide) (by decide)
        (@Text.Lines.feed "D12".toList _ _ (by decide) (by decide) .nil))
  have hfirst : WellFormed 3 true "D11:C0.0".toList :=
    ⟨_, @LineOf.complete 3 "D11".toList "C0.0".toList (.implies (.var 0) (.var 0))
      ⟨by decide, rfl, by decide⟩ rfl⟩
  have hsecond : WellFormed 3 true "D21:C0C1.0".toList :=
    ⟨_, @LineOf.complete 3 "D21".toList "C0C1.0".toList (.implies (.var 0) (.implies (.var 1) (.var 0)))
      ⟨by decide, rfl, by decide⟩ rfl⟩
  obtain ⟨lines, hlines, -, -, herror⟩ := loadRepresentatives_exact _ t 3 none mixedLines hread
  obtain rfl := (hlines _).mp hcut
  have hfault : FirstFault 3 ["D11:C0.0".toList, "D21:C0C1.0".toList, "D12".toList] 3 := by
    refine ⟨["D11:C0.0".toList, "D21:C0C1.0".toList], "D12".toList, [], rfl, rfl,
      .inr ⟨_, rfl, by decide⟩, ?_⟩
    exact List.forall_mem_cons.mpr ⟨not_faulty hfirst hfirst,
      List.forall_mem_singleton.mpr (not_faulty hfirst hsecond)⟩
  obtain ⟨number, reason, hload, hnumber⟩ := herror (by
    rintro (hbare | hcomplete)
    · exact absurd (hbare _ List.mem_cons_self).colon_mem_iff (by decide)
    · exact absurd (hcomplete "D12".toList (by simp)).colon_mem_iff (by decide))
  exact ⟨t, hread, reason, hnumber.unique hfault ▸ hload⟩

end Store

end Detachment
