import Mathlib.Data.List.Basic
import Detachment.Proofs.Lists
import Detachment.Proofs.NotationRoundtrip
import Detachment.Proofs.Spelling

/-! # Reading is exact

A text is read as a formula exactly if it is a spelling of it. Reading goes through the operators
and variables of a text one after the other, and all that it keeps of those before is which letters
there were and whether there were numerals.

* `Formula.Cursor.Reads` goes through operators and variables without building a formula;
  `Formula.readFormula_eq_ok_iff` says that reading a formula is going through its operators and
  variables.
* `Formula.Cursor.Reads.spells_numerals` and `Formula.Cursor.Reads.spells_letters` say what was gone
  through, and `Formula.exists_reads_numerals` and `Formula.exists_reads_letters` go through
  spellings.
* `Formula.readFormula_unexpectedEnd` says what is missing in a text that ends too early.
* `Formula.parseChars_eq_ok_iff` says that the texts of a formula are its spellings.
* `Formula.parse_exact` is the main result. -/

namespace Detachment

/-- An operator is read from no other letter than its own: `ofLetter?` inverts `letter`. -/
theorem Operator.letter_of_ofLetter? {c : Char} {op : Operator} (h : ofLetter? c = some op) :
    op.letter = c := by
  unfold ofLetter? at h
  split at h
  case h_7 => cases h
  all_goals
    obtain rfl := Option.some.inj h
    rfl

/-- No lowercase letter is the letter of an operator, so variables are not mistaken for
operators. -/
theorem Operator.ofLetter?_of_isLower {c : Char} (h : c.isLower) : ofLetter? c = none := by
  unfold ofLetter?
  split
  case h_7 => rfl
  all_goals exact absurd h (by decide)

/-- Digits are read as the number they stand for, `Nat.ofDigitChars 10`, if the `bound` is kept. By
induction on the digits, with the `value` of those before them. -/
theorem Text.eq_of_readDigits? {bound value n : Nat} {cs : List Char}
    (h : readDigits? bound value cs = some n) : Nat.ofDigitChars 10 cs value = n := by
  induction cs generalizing value with
  | nil => exact Option.some.inj h
  | cons c cs ih =>
    rw [readDigits?] at h
    split at h
    · cases h
    · next digit hdigit =>
      split at h
      · cases h
      · next next hpush =>
        rw [digitValue?] at hdigit
        split at hdigit
        · obtain rfl := Option.some.inj hdigit
          rw [pushDigit?] at hpush
          split at hpush
          · obtain rfl := Option.some.inj hpush
            rw [Nat.ofDigitChars_cons]
            exact ih h
          · cases hpush
        · cases hdigit

/-- The text `inner` is what remains of `text` without the blanks around it. -/
def Text.Trims (text inner : List Char) : Prop :=
  (∃ before after, text = before ++ inner ++ after ∧ ∀ c ∈ before ++ after, isBlank c = true) ∧
    (∀ c ∈ inner.head?, isBlank c = false) ∧ ∀ c ∈ inner.getLast?, isBlank c = false

/-- Blanks around a text are left out by `trimBlanks`, and only these. They are dropped from the
front, and from the front of what is reversed. -/
theorem Text.trims_trimBlanks (text : List Char) : Trims text (trimBlanks text) := by
  have hfront := List.takeWhile_append_dropWhile (p := isBlank) (l := text)
  have hhead := List.eq_false_of_mem_head?_dropWhile isBlank text
  have hblank : ∀ s : List Char, ∀ c ∈ s.takeWhile isBlank, isBlank c = true :=
    fun s => List.all_eq_true.mp List.all_takeWhile
  rw [trimBlanks]
  generalize text.dropWhile isBlank = inner at hfront hhead
  have hback := congrArg List.reverse (List.takeWhile_append_dropWhile (p := isBlank) (l := inner.reverse))
  rw [List.reverse_append, List.reverse_reverse] at hback
  refine ⟨⟨text.takeWhile isBlank, (inner.reverse.takeWhile isBlank).reverse, ?_, ?_⟩, ?_, ?_⟩
  · rw [List.append_assoc, hback, hfront]
  · intro c hc
    rcases List.mem_append.mp hc with hc | hc
    · exact hblank _ c hc
    · exact hblank _ c (List.mem_reverse.mp hc)
  · intro c hc
    refine hhead c ?_
    rw [← hback, List.head?_append, Option.mem_def.mp hc]
    rfl
  · rw [List.getLast?_reverse]
    exact List.eq_false_of_mem_head?_dropWhile isBlank _

namespace Formula

variable {c d e : Cursor} {f : Formula} {id : Nat} {start : Char} {heads heads' : List Head}
  {text written rest : List Char}

/-! ## Variables -/

/-- What `readNumber` reads as a numeric variable is a numeral (`IsNumeral`), and the cursor moves
behind it. -/
theorem isNumeral_of_readNumber (hstart : start.isDigit = true) (hrest : c.rest = start :: text)
    (h : readNumber start c = .ok (f, d)) :
    ∃ id written, f = var id ∧ c.rest = written ++ d.rest ∧ IsNumeral id written d.rest ∧
      d = ⟨c.position + written.length, c.letters, true, d.rest⟩ := by
  have hne : c.rest.takeWhile Char.isDigit ≠ [] := by
    rw [hrest, List.takeWhile_cons_of_pos hstart]
    exact List.cons_ne_nil _ _
  have hdigits : ∀ x ∈ c.rest.takeWhile Char.isDigit, x.isDigit = true :=
    List.all_eq_true.mp List.all_takeWhile
  have hsplit := List.takeWhile_append_dropWhile (p := Char.isDigit) (l := c.rest)
  have hends : Text.EndsNumeral (c.rest.dropWhile Char.isDigit) :=
    List.eq_false_of_mem_head?_dropWhile _ _
  rw [readNumber] at h
  generalize c.rest.takeWhile Char.isDigit = digits at h hne hdigits hsplit
  generalize c.rest.dropWhile Char.isDigit = after at h hsplit hends
  split at h
  · cases h
  · next id hid =>
    have hvalue := Text.eq_of_readDigits? hid
    have hbound : id < Text.bound32 := Text.lt_of_readDigits? (by decide) hid
    -- A dot behind the digits belongs to the numeral.
    split at h
    · next after =>
      obtain ⟨rfl, rfl⟩ := Prod.mk.inj (Except.ok.inj h)
      refine ⟨id, digits ++ ['.'], rfl, ?_, ?_, ?_⟩
      · rw [← hsplit, List.append_assoc]
        rfl
      · exact ⟨digits, ['.'], rfl, hne, hdigits, hvalue, hbound, .inr rfl, hends⟩
      · rw [List.length_append, ← Nat.add_assoc]
        rfl
    · obtain ⟨rfl, rfl⟩ := Prod.mk.inj (Except.ok.inj h)
      exact ⟨id, digits, rfl, hsplit.symm,
        ⟨digits, [], (List.append_nil _).symm, hne, hdigits, hvalue, hbound, .inl rfl, hends⟩, rfl⟩

/-- A numeral is read as a numeric variable, with the dot that may follow it, unless there is a
second dot (`hdot`). -/
theorem readNumber_of_isNumeral (h : IsNumeral id written rest) (hrest : c.rest = written ++ rest)
    (hdot : rest.head? ≠ some '.') (start : Char) :
    readNumber start c = .ok (var id, ⟨c.position + written.length, c.letters, true, rest⟩) := by
  obtain ⟨digits, dot, rfl, -, hdigits, rfl, hbound, hdots, hends⟩ := h
  rw [List.append_assoc] at hrest
  obtain ⟨hrun, hafter⟩ := Text.span_isDigit hdigits hends
  rw [readNumber, hrest, hrun, Text.readDigits?_eq hdigits hbound, hafter]
  rcases hdots with rfl | rfl
  · rw [List.nil_append, List.append_nil]
    dsimp only
    split
    · exact absurd rfl hdot
    · rfl
  · rw [List.length_append]
    rfl

/-- What `readVariable` reads is a numeral if no letter was read before, or a letter if no numeral
was. -/
theorem readVariable_ok (hrest : c.rest = start :: text) (h : readVariable start c = .ok (f, d)) :
    (c.letters = [] ∧ ∃ id written, f = var id ∧ c.rest = written ++ d.rest ∧
      IsNumeral id written d.rest ∧ d = ⟨c.position + written.length, [], true, d.rest⟩) ∨
    (c.numeric = false ∧ start.isLower = true ∧ readLetter start c = (f, d)) := by
  unfold readVariable at h
  split at h
  · next hdigit =>
    split at h
    · next hletters =>
      have hletters : c.letters = [] := List.isEmpty_iff.mp hletters
      have hnumeral := isNumeral_of_readNumber hdigit hrest h
      rw [hletters] at hnumeral
      exact .inl ⟨hletters, hnumeral⟩
    · cases h
  · split at h
    · next hlower =>
      split at h
      · cases h
      · next hnumeric => exact .inr ⟨Bool.eq_false_iff.mpr hnumeric, hlower, Except.ok.inj h⟩
    · cases h

/-- A numeral is read by `readVariable` if no letter was read before. -/
theorem readVariable_of_isNumeral (h : IsNumeral id written rest) (hletters : c.letters = [])
    (hrest : c.rest = written ++ rest) (hdot : rest.head? ≠ some '.') :
    ∃ start tail, c.rest = start :: tail ∧ Operator.ofLetter? start = none ∧
      readVariable start c = .ok (var id, ⟨c.position + written.length, [], true, rest⟩) := by
  have hread := readNumber_of_isNumeral h hrest hdot
  obtain ⟨digits, dot, rfl, hne, hdigits, -⟩ := h
  obtain ⟨start, tail, rfl⟩ := List.exists_cons_of_ne_nil hne
  have hstart : start.isDigit = true := hdigits start List.mem_cons_self
  refine ⟨start, tail ++ dot ++ rest, hrest, Operator.ofLetter?_of_isDigit hstart, ?_⟩
  rw [readVariable, if_pos hstart, hletters, List.isEmpty_nil, if_pos rfl, hread, hletters]

/-- A letter is read by `readVariable` if no numeral was read before. -/
theorem readVariable_of_isLower (hlower : start.isLower = true) (hnumeric : c.numeric = false) :
    readVariable start c = .ok (readLetter start c) := by
  have hdigit : ¬start.isDigit = true := by
    intro hdigit
    have hle : start.toNat ≤ 57 := (Char.isDigit_iff_toNat.mp hdigit).2
    have hge := (Text.toNat_of_isLower hlower).1
    omega
  rw [readVariable, if_neg hdigit, if_pos hlower, hnumeric, if_neg Bool.false_ne_true]

/-- A letter is among the `letters` once it was read. -/
theorem mem_letters_readLetter (letter : Char) (c : Cursor) :
    letter ∈ (readLetter letter c).2.letters := by
  simp only [readLetter]
  split
  · next hmem => exact hmem
  · exact List.mem_append_right _ (List.mem_singleton_self letter)

/-- Reading a letter counts it as `distinctLetters` counts the letters of a text. -/
theorem letters_readLetter (hlower : start.isLower = true) {before : List Char}
    (hc : c.letters = distinctLetters before) :
    (readLetter start c).2.letters = distinctLetters (before ++ [start]) := by
  rw [distinctLetters_concat hlower, ← hc]
  rfl

/-! ## Operators and variables in turn -/

namespace Cursor

/-- Go through the operators and variables `heads` from one place to another, as `readFormula` would
but without building a formula. -/
inductive Reads : Cursor → List Head → Cursor → Prop where
  /-- Stay where one is. -/
  | nil (c : Cursor) : Reads c [] c
  /-- An operator comes first. -/
  | operator {c d : Cursor} {op : Operator} {heads : List Head} {tail : List Char}
      (hrest : c.rest = op.letter :: tail)
      (h : Reads ⟨c.position + 1, c.letters, c.numeric, tail⟩ heads d) :
      Reads c (.operator op :: heads) d
  /-- A variable comes first. -/
  | var {c d e : Cursor} {start : Char} {id : Nat} {heads : List Head} {tail : List Char}
      (hrest : c.rest = start :: tail) (hstart : Operator.ofLetter? start = none)
      (hread : readVariable start c = .ok (.var id, e)) (h : Reads e heads d) :
      Reads c (.var id :: heads) d

/-- Two ways, one after the other, are one. -/
theorem Reads.append (h : Reads c heads d) (h' : Reads d heads' e) : Reads c (heads ++ heads') e := by
  induction h with
  | nil => exact h'
  | operator hrest h ih => exact .operator hrest (ih h')
  | var hrest hstart hread h ih => exact .var hrest hstart hread (ih h')

/-- Going through `heads ++ heads'` leads through a place between them. By induction on the `heads`
that are read first. -/
theorem Reads.exists_between (h : Reads c (heads ++ heads') e) :
    ∃ d, Reads c heads d ∧ Reads d heads' e := by
  induction heads generalizing c with
  | nil => exact ⟨c, .nil c, h⟩
  | cons head heads ih =>
    cases h with
    | operator hrest h =>
      obtain ⟨d, hfirst, hsecond⟩ := ih h
      exact ⟨d, .operator hrest hfirst, hsecond⟩
    | var hrest hstart hread h =>
      obtain ⟨d, hfirst, hsecond⟩ := ih h
      exact ⟨d, .var hrest hstart hread hfirst, hsecond⟩

end Cursor

open Cursor

/-- A formula that `readFormula` reads is gone through (`Reads`) in the order of its `preorder`. The
induction is on the depth. -/
theorem reads_of_readFormula {depth : Nat} (h : readFormula depth c = .ok (f, d)) :
    Reads c f.preorder d := by
  induction depth generalizing c d f with
  | zero => cases h
  | succ depth ih =>
    unfold readFormula at h
    split at h
    · cases h
    · next start rest hrest =>
      split at h
      · -- a modifier and its argument
        next op hop =>
        split at h
        · cases h
        · next hbody =>
          obtain ⟨rfl, rfl⟩ := Prod.mk.inj (Except.ok.inj h)
          exact .operator (hrest.trans (by rw [Operator.letter_of_ofLetter? hop])) (ih hbody)
      · -- a connective and its two arguments
        next op hop =>
        split at h
        · cases h
        · next hleft =>
          split at h
          · cases h
          · next hright =>
            obtain ⟨rfl, rfl⟩ := Prod.mk.inj (Except.ok.inj h)
            refine .operator (hrest.trans (by rw [Operator.letter_of_ofLetter? hop])) ?_
            exact (ih hleft).append (ih hright)
      · -- a variable
        next hnone =>
        have hvar : ∃ id, f = var id := by
          rcases readVariable_ok hrest h with ⟨-, id, -, hf, -⟩ | ⟨-, -, hread⟩
          · exact ⟨id, hf⟩
          · exact ⟨_, (Prod.mk.inj hread).1.symm⟩
        obtain ⟨id, rfl⟩ := hvar
        exact .var hrest hnone h (.nil d)

/-- Every operator and every variable takes a character at least, so `heads.length` is bounded by
what is read. -/
theorem Cursor.Reads.length_le (h : Reads c heads d) :
    d.rest.length + heads.length ≤ c.rest.length := by
  induction h with
  | nil => exact Nat.le_refl _
  | operator hrest h ih =>
    rw [hrest, List.length_cons, List.length_cons]
    exact Nat.succ_le_succ ih
  | @var c d e start id heads tail hrest hstart hread h ih =>
    have hlt : e.rest.length < c.rest.length := by
      rcases readVariable_ok hrest hread with ⟨-, id, written, -, hsplit, hnumeral, -⟩ | ⟨-, -, hread⟩
      · obtain ⟨digits, dot, rfl, hne, -⟩ := hnumeral
        have hpos := List.length_pos_iff.mpr hne
        rw [hsplit, List.length_append, List.length_append]
        omega
      · obtain rfl := (Prod.mk.inj hread).2
        show c.rest.tail.length < c.rest.length
        rw [hrest]
        exact Nat.lt_succ_self _
    rw [List.length_cons]
    omega

/-- A formula whose `preorder` is gone through is read, if `depth` allows for the characters that
are left: by `length_le` each operator leaves fewer of them. -/
theorem readFormula_of_reads {depth : Nat} (h : Reads c f.preorder d)
    (hdepth : c.rest.length ≤ depth) : readFormula depth c = .ok (f, d) := by
  induction f generalizing c d depth with
  | var id =>
    cases h with
    | var hrest hstart hread h =>
      cases h
      rw [hrest, List.length_cons] at hdepth
      obtain ⟨depth, rfl⟩ : ∃ n, depth = n + 1 := Nat.exists_eq_add_of_le' (by omega)
      rw [readFormula, hrest]
      dsimp only
      rw [hstart]
      exact hread
  | unary op f ih =>
    cases h with
    | operator hrest h =>
      rw [hrest, List.length_cons] at hdepth
      obtain ⟨depth, rfl⟩ : ∃ n, depth = n + 1 := Nat.exists_eq_add_of_le' (by omega)
      have hletter := Operator.ofLetter?_letter (.unary op)
      rw [readFormula, hrest]
      dsimp only
      rw [hletter]
      dsimp only
      rw [ih h (Nat.le_of_succ_le_succ hdepth)]
  | binary op f g ihf ihg =>
    cases h with
    | operator hrest h =>
      rw [hrest, List.length_cons] at hdepth
      obtain ⟨depth, rfl⟩ : ∃ n, depth = n + 1 := Nat.exists_eq_add_of_le' (by omega)
      have hletter := Operator.ofLetter?_letter (.binary op)
      -- The first argument leaves a place for the second one, where fewer characters are left.
      obtain ⟨middle, hleft, hright⟩ := h.exists_between
      have hdepth' := Nat.le_of_succ_le_succ hdepth
      have hmiddle : middle.rest.length ≤ depth :=
        Nat.le_trans (Nat.le_trans (Nat.le_add_right _ _) hleft.length_le) hdepth'
      rw [readFormula, hrest]
      dsimp only
      rw [hletter]
      dsimp only
      rw [ihf hleft hdepth']
      dsimp only
      rw [ihg hright hmiddle]

/-- Reading a formula is going through its `preorder`, given enough depth. -/
theorem readFormula_eq_ok_iff {depth : Nat} (hdepth : c.rest.length ≤ depth) :
    readFormula depth c = .ok (f, d) ↔ Reads c f.preorder d :=
  ⟨reads_of_readFormula, fun h => readFormula_of_reads h hdepth⟩

/-! ## From reading to spelling -/

/-- Letters and numerals do not meet: one of the two stays absent. -/
theorem Cursor.Reads.not_mixed (h : Reads c heads d) (hc : c.letters = [] ∨ c.numeric = false) :
    d.letters = [] ∨ d.numeric = false := by
  induction h with
  | nil => exact hc
  | operator hrest h ih => exact ih hc
  | var hrest hstart hread h ih =>
    refine ih ?_
    rcases readVariable_ok hrest hread with ⟨-, id, written, -, -, -, he⟩ | ⟨hnumeric, -, hread⟩
    · exact .inl (by rw [he])
    · obtain rfl := (Prod.mk.inj hread).2
      exact .inr hnumeric

/-- Without letters at the end, a text that was gone through spells its operators and variables with
numerals (`Spells IsNumeral`). -/
theorem Cursor.Reads.spells_numerals (h : Reads c heads d) (hd : d.letters = []) :
    c.letters = [] ∧ ∃ text, c.rest = text ++ d.rest ∧ d.position = c.position + text.length ∧
      Spells IsNumeral heads text d.rest := by
  induction h with
  | nil => exact ⟨hd, [], rfl, rfl, .nil _⟩
  | @operator c d op heads tail hrest h ih =>
    obtain ⟨hletters, text, htext, hposition, hspells⟩ := ih hd
    refine ⟨hletters, op.letter :: text, ?_, ?_, .operator op hspells⟩
    · rw [hrest]
      exact congrArg (op.letter :: ·) htext
    · rw [hposition, List.length_cons]
      exact Nat.add_right_comm _ _ _
  | @var c d e start id heads tail hrest hstart hread h ih =>
    obtain ⟨hletters, text, htext, hposition, hspells⟩ := ih hd
    rcases readVariable_ok hrest hread with
      ⟨hc, id', written, hid, hsplit, hnumeral, he⟩ | ⟨-, -, hread⟩
    · obtain rfl := Formula.var.inj hid
      refine ⟨hc, written ++ text, ?_, ?_, .var (htext ▸ hnumeral) hspells⟩
      · rw [hsplit, htext, List.append_assoc]
      · rw [hposition, he, List.length_append, Nat.add_assoc]
    · -- A letter would still be among those that were read.
      have hmem := mem_letters_readLetter start c
      rw [hread, hletters] at hmem
      exact absurd hmem List.not_mem_nil

/-- Numerals are not forgotten: if there were none at the end (`numeric`), there were none
before. -/
theorem Cursor.Reads.numeric_eq_false (h : Reads c heads d) (hd : d.numeric = false) :
    c.numeric = false := by
  induction h with
  | nil => exact hd
  | operator hrest h ih => exact ih hd
  | var hrest hstart hread h ih =>
    rcases readVariable_ok hrest hread with ⟨-, id, written, -, -, -, he⟩ | ⟨hnumeric, -, -⟩
    · have hnumeric := ih hd
      rw [he] at hnumeric
      cases hnumeric
    · exact hnumeric

/-- Without numerals at the end, a text that was gone through spells its operators and variables
with letters (`Spells (IsLetter letters)`). The list `letters` may go on behind those that were met,
as a variable keeps its place when more letters follow. -/
theorem Cursor.Reads.spells_letters (h : Reads c heads d) (hd : d.numeric = false)
    {before : List Char} (hc : c.letters = distinctLetters before) :
    ∃ text, c.rest = text ++ d.rest ∧ d.position = c.position + text.length ∧
      d.letters = distinctLetters (before ++ text) ∧
      ∀ letters, d.letters <+: letters → Spells (IsLetter letters) heads text d.rest := by
  induction h generalizing before with
  | nil => exact ⟨[], rfl, rfl, by rw [hc, List.append_nil], fun _ _ => .nil _⟩
  | @operator c d op heads tail hrest h ih =>
    have hsame : c.letters = distinctLetters (before ++ [op.letter]) :=
      hc.trans (distinctLetters_letter before op).symm
    obtain ⟨text, htext, hposition, hletters, hspells⟩ := ih hd hsame
    refine ⟨op.letter :: text, ?_, ?_, ?_, fun letters hprefix => .operator op (hspells letters hprefix)⟩
    · rw [hrest]
      exact congrArg (op.letter :: ·) htext
    · rw [hposition, List.length_cons]
      exact Nat.add_right_comm _ _ _
    · rw [hletters, List.append_assoc]
      rfl
  | @var c d e start id heads tail hrest hstart hread h ih =>
    rcases readVariable_ok hrest hread with ⟨-, id, written, -, -, -, he⟩ | ⟨-, hlower, hread⟩
    · -- A numeral would not have been forgotten.
      have hnumeric := h.numeric_eq_false hd
      rw [he] at hnumeric
      cases hnumeric
    · have he : e.letters = distinctLetters (before ++ [start]) := by
        rw [← letters_readLetter hlower hc, hread]
      obtain ⟨hid, hnext⟩ := Prod.mk.inj hread
      obtain ⟨text, htext, hposition, hletters, hspells⟩ := ih hd he
      rw [← List.append_cons] at hletters
      refine ⟨start :: text, ?_, ?_, hletters, fun letters hprefix => ?_⟩
      · rw [hrest, List.cons_append, ← htext, ← hnext, hrest]
        rfl
      · rw [hposition, ← hnext, List.length_cons]
        exact Nat.add_right_comm _ _ _
      · show Spells _ _ ([start] ++ text) _
        refine .var ⟨start, rfl, hlower, ?_⟩ (hspells letters hprefix)
        -- The letters up to this one are the first of all letters, so that it keeps its number.
        have hbefore : distinctLetters (before ++ [start]) <+: letters := by
          rw [hletters, List.append_cons] at hprefix
          exact (distinctLetters_isPrefix_append _ _).trans hprefix
        rw [idxOf_distinctLetters hlower hbefore, ← he, ← hnext]
        exact Formula.var.inj hid

/-! ## From spelling to reading -/

/-- A spelling with numerals does not start with a dot, so a numeral before it ends where it
should. -/
theorem Spells.head?_ne_dot (h : Spells IsNumeral heads text []) : text.head? ≠ some '.' := by
  cases h with
  | nil =>
    intro hdot
    cases hdot
  | operator op h =>
    intro hdot
    have hge := op.toNat_letter.1
    rw [Option.some.inj hdot] at hge
    exact absurd hge (by decide)
  | var hword h =>
    obtain ⟨digits, dot, rfl, hne, hdigits, -⟩ := hword
    obtain ⟨first, digits, rfl⟩ := List.exists_cons_of_ne_nil hne
    intro hdot
    obtain rfl := Option.some.inj hdot
    exact absurd (hdigits '.' List.mem_cons_self) (by decide)

/-- A spelling with numerals is gone through (`Reads`) up to its end, if no letter was read
before. -/
theorem exists_reads_numerals (h : Spells IsNumeral heads text []) (hletters : c.letters = [])
    (hrest : c.rest = text) : ∃ d, Reads c heads d ∧ d.rest = [] := by
  generalize hnil : ([] : List Char) = rest at h
  induction h generalizing c with
  | nil => exact ⟨c, .nil c, hrest.trans hnil⟩
  | @operator op heads text rest h ih =>
    obtain ⟨d, hreads, hd⟩ := ih (c := ⟨c.position + 1, c.letters, c.numeric, text⟩) hletters rfl hnil
    exact ⟨d, .operator hrest hreads, hd⟩
  | @var id written heads text rest hword h ih =>
    subst hnil
    rw [List.append_nil] at hword
    obtain ⟨start, tail, hstart, hoperator, hread⟩ :=
      readVariable_of_isNumeral hword hletters hrest h.head?_ne_dot
    obtain ⟨d, hreads, hd⟩ := ih (c := ⟨c.position + written.length, [], true, text⟩) rfl rfl rfl
    exact ⟨d, .var hstart hoperator hread hreads, hd⟩

/-- A spelling with letters is gone through (`Reads`) up to its end, if no numeral was read before,
and the letters `before` it were counted. -/
theorem exists_reads_letters {before letters : List Char}
    (h : Spells (IsLetter letters) heads text []) (hnumeric : c.numeric = false)
    (hc : c.letters = distinctLetters before) (hrest : c.rest = text)
    (hletters : distinctLetters (before ++ text) = letters) : ∃ d, Reads c heads d ∧ d.rest = [] := by
  generalize hnil : ([] : List Char) = rest at h
  induction h generalizing c before with
  | nil => exact ⟨c, .nil c, hrest.trans hnil⟩
  | @operator op heads text rest h ih =>
    rw [List.append_cons] at hletters
    obtain ⟨d, hreads, hd⟩ := ih (c := ⟨c.position + 1, c.letters, c.numeric, text⟩) hnumeric
      (hc.trans (distinctLetters_letter before op).symm) rfl hletters hnil
    exact ⟨d, .operator hrest hreads, hd⟩
  | @var id written heads text rest hword h ih =>
    obtain ⟨letter, rfl, hlower, rfl⟩ := hword
    have hread := readVariable_of_isLower hlower hnumeric
    have hnext := letters_readLetter hlower hc
    rw [List.singleton_append] at hrest hletters
    rw [List.append_cons] at hletters
    have hid : (readLetter letter c).1 = var (letters.idxOf letter) := by
      rw [← hletters, idxOf_distinctLetters hlower (distinctLetters_isPrefix_append _ _), ← hnext]
      rfl
    obtain ⟨d, hreads, hd⟩ := ih (c := (readLetter letter c).2) hnumeric hnext
      (congrArg List.tail hrest) hletters hnil
    refine ⟨d, .var hrest (Operator.ofLetter?_of_isLower hlower) ?_ hreads, hd⟩
    rw [hread, ← hid]

/-! ## Texts that end too early -/

/-- A variable is refused for what it is, not for where it stands: `.mixedVariables` or
`.unknownCharacter`. -/
theorem readVariable_error {e : ReadError} (h : readVariable start c = .error e) :
    e = .mixedVariables ∨ e = .unknownCharacter start c.position := by
  unfold readVariable at h
  split at h
  · split at h
    · rw [readNumber] at h
      split at h
      · exact .inr (Except.error.inj h).symm
      · split at h <;> cases h
    · exact .inl (Except.error.inj h).symm
  · split at h
    · split at h
      · exact .inl (Except.error.inj h).symm
      · cases h
    · exact .inr (Except.error.inj h).symm

/-- A formula is not refused for what follows it: `.trailing` is a matter of `parseChars`. By
induction on the depth, as errors of the parts are handed on. -/
theorem readFormula_ne_trailing {depth p : Nat} : readFormula depth c ≠ .error (.trailing p) := by
  intro h
  induction depth generalizing c with
  | zero => cases h
  | succ depth ih =>
    unfold readFormula at h
    split at h
    · cases h
    · split at h
      · split at h
        · next hbody => exact ih (hbody.trans h)
        · cases h
      · split at h
        · next hleft => exact ih (hleft.trans h)
        · split at h
          · next hright => exact ih (hright.trans h)
          · cases h
      · rcases readVariable_error h with h | h <;> cases h

/-- A text that ends too early is gone through, and what is missing can be variables: one at least,
and as many as operators still wait for an argument. The induction is on the depth. -/
theorem readFormula_unexpectedEnd {depth : Nat} (hdepth : c.rest.length ≤ depth)
    (h : readFormula depth c = .error .unexpectedEnd) :
    ∃ heads d missing, Reads c heads d ∧ d.rest = [] ∧
      ∀ id, ∃ f : Formula, f.preorder = heads ++ List.replicate (missing + 1) (.var id) := by
  induction depth generalizing c with
  | zero =>
    have hrest : c.rest = [] := List.length_eq_zero_iff.mp (Nat.le_zero.mp hdepth)
    exact ⟨[], c, 0, .nil c, hrest, fun id => ⟨var id, rfl⟩⟩
  | succ depth ih =>
    unfold readFormula at h
    split at h
    · next hrest => exact ⟨[], c, 0, .nil c, hrest, fun id => ⟨var id, rfl⟩⟩
    · next start tail hrest =>
      rw [hrest, List.length_cons] at hdepth
      have htail := Nat.le_of_succ_le_succ hdepth
      split at h
      · next op hop =>
        rw [← Operator.letter_of_ofLetter? hop] at hrest
        split at h
        · next hbody =>
          obtain rfl := Except.error.inj h
          obtain ⟨heads, d, missing, hreads, hd, hmissing⟩ := ih (by exact htail) hbody
          refine ⟨_, d, missing, .operator hrest hreads, hd, fun id => ?_⟩
          obtain ⟨f, hf⟩ := hmissing id
          exact ⟨unary op f, congrArg (Head.operator (.unary op) :: ·) hf⟩
        · cases h
      · next op hop =>
        rw [← Operator.letter_of_ofLetter? hop] at hrest
        split at h
        · -- The first argument is incomplete, and the second one is missing.
          next hleft =>
          obtain rfl := Except.error.inj h
          obtain ⟨heads, d, missing, hreads, hd, hmissing⟩ := ih (by exact htail) hleft
          refine ⟨_, d, missing + 1, .operator hrest hreads, hd, fun id => ?_⟩
          obtain ⟨f, hf⟩ := hmissing id
          refine ⟨binary op f (var id), ?_⟩
          rw [preorder, preorder, hf, List.append_assoc, ← List.replicate_succ', List.cons_append]
        · -- The first argument is complete, and the second one is not.
          next f middle hleft =>
          split at h
          · next hright =>
            obtain rfl := Except.error.inj h
            have hfirst := reads_of_readFormula hleft
            have hmiddle : middle.rest.length ≤ depth :=
              Nat.le_trans (Nat.le_trans (Nat.le_add_right _ _) hfirst.length_le) htail
            obtain ⟨heads, d, missing, hreads, hd, hmissing⟩ := ih hmiddle hright
            refine ⟨_, d, missing, .operator hrest (hfirst.append hreads), hd, fun id => ?_⟩
            obtain ⟨g, hg⟩ := hmissing id
            refine ⟨binary op f g, ?_⟩
            rw [preorder, hg, List.cons_append, List.append_assoc]
          · cases h
      · rcases readVariable_error h with h | h <;> cases h

/-! ## Whole texts -/

/-- The place in front of a text, where nothing was read. -/
def Cursor.before (text : List Char) : Cursor := ⟨0, [], false, text⟩

/-- What was gone through from the start of a text is spelled by a first part `written` of it, with
numerals, or with letters and at least one of them. -/
theorem Cursor.Reads.spells (h : Reads (.before text) heads d) :
    ∃ written, text = written ++ d.rest ∧ d.position = written.length ∧
      (Spells IsNumeral heads written [] ∨
        distinctLetters written ≠ [] ∧ Spells (IsLetter (distinctLetters written)) heads written []) := by
  by_cases hletters : d.letters = []
  · -- What follows a numeral in the text may be cut off.
    obtain ⟨-, written, htext, hposition, hspells⟩ := h.spells_numerals hletters
    refine ⟨written, htext, hposition.trans (Nat.zero_add _), .inl (hspells.imp ?_)⟩
    intro id word after hword
    obtain ⟨digits, dot, hsplit, hne, hdigits, hid, hbound, hdot, hends⟩ := hword
    refine ⟨digits, dot, hsplit, hne, hdigits, hid, hbound, hdot, ?_⟩
    rw [← List.append_assoc] at hends
    rw [List.append_nil]
    exact endsNumeral_of_append hends
  · -- There was a letter, and so no numeral.
    have hnumeric := (h.not_mixed (.inl rfl)).resolve_left hletters
    have hnone : (Cursor.before text).letters = distinctLetters [] := rfl
    obtain ⟨written, htext, hposition, hd, hspells⟩ := h.spells_letters hnumeric hnone
    rw [List.nil_append] at hd
    refine ⟨written, htext, hposition.trans (Nat.zero_add _), .inr ⟨hd ▸ hletters, ?_⟩⟩
    rw [← hd]
    exact (hspells d.letters (List.prefix_refl _)).imp fun _ _ _ hword => hword

/-- The texts that `parseChars` reads as a formula are its spellings (`SpelledBy`). That a text is
read is `readFormula_eq_ok_iff`, and that it is read to its end is a matter of the two kinds of
spellings. -/
theorem parseChars_eq_ok_iff : parseChars text = .ok f ↔ f.SpelledBy text := by
  have hread : ∀ {d}, readFormula text.length (.before text) = .ok (f, d) ↔
      Reads (.before text) f.preorder d := readFormula_eq_ok_iff (Nat.le_refl _)
  constructor
  · intro h
    rw [parseChars] at h
    split at h
    · cases h
    · next hf =>
      split at h
      · next hnil =>
        obtain rfl := Except.ok.inj h
        -- What was read is the whole text, as nothing is left.
        obtain ⟨written, htext, -, hspells⟩ := (hread.mp hf).spells
        rw [List.isEmpty_iff.mp hnil, List.append_nil] at htext
        subst htext
        exact hspells.imp id And.right
      · cases h
  · intro h
    -- A spelling is read to its end, whichever kind of variables it has.
    have hreads : ∃ d, Reads (.before text) f.preorder d ∧ d.rest = [] := by
      rcases h with h | h
      · exact exists_reads_numerals h rfl rfl
      · have hnone : (Cursor.before text).letters = distinctLetters [] := rfl
        exact exists_reads_letters h rfl hnone rfl rfl
    obtain ⟨d, hreads, hd⟩ := hreads
    have hf := hread.mpr hreads
    rw [Cursor.before] at hf
    rw [parseChars, hf]
    dsimp only
    rw [hd]
    rfl

/-- Where a text goes on behind a formula (`.trailing p`), the formula is spelled by `text.take
p`. -/
theorem spelledBy_of_trailing {p : Nat} (h : parseChars text = .error (.trailing p)) :
    p < text.length ∧ ∃ f : Formula, f.SpelledBy (text.take p) := by
  rw [parseChars] at h
  split at h
  · next herror =>
    obtain rfl := Except.error.inj h
    exact absurd herror readFormula_ne_trailing
  · next f d hf =>
    split at h
    · cases h
    · next hmore =>
      obtain rfl := ReadError.trailing.inj (Except.error.inj h)
      have hreads : Reads (.before text) f.preorder d := reads_of_readFormula hf
      obtain ⟨written, rfl, hposition, hspells⟩ := hreads.spells
      rw [hposition, List.take_left, List.length_append]
      refine ⟨Nat.lt_add_of_pos_right ?_, f, hspells.imp id And.right⟩
      exact List.length_pos_iff.mpr fun hnil => hmore (List.isEmpty_iff.mpr hnil)

/-- A text that ends too early (`.unexpectedEnd`) is the first part of a spelling, by
`readFormula_unexpectedEnd`. -/
theorem exists_spelledBy_of_unexpectedEnd (h : parseChars text = .error .unexpectedEnd) :
    ∃ more ≠ [], ∃ f : Formula, f.SpelledBy (text ++ more) := by
  rw [parseChars] at h
  split at h
  · next herror =>
    obtain rfl := Except.error.inj h
    obtain ⟨heads, d, missing, hreads, hd, hmissing⟩ :=
      readFormula_unexpectedEnd (c := .before text) (Nat.le_refl _) herror
    obtain ⟨f, hf⟩ := hmissing 0
    obtain ⟨written, htext, -, hspells⟩ := hreads.spells
    rw [hd, List.append_nil] at htext
    subst htext
    rcases hspells with hspells | ⟨hletters, hspells⟩
    · obtain ⟨more, hmore, hspells⟩ := exists_spells_numerals hspells missing
      exact ⟨more, hmore, f, .inl (hf ▸ hspells)⟩
    · obtain ⟨more, hmore, hspells⟩ := exists_spells_letters hspells hletters missing
      exact ⟨more, hmore, f, .inr (hf ▸ hspells)⟩
  · split at h <;> cases h

/-- There are no blanks in a spelling, so `trimBlanks` keeps it whole. It consists of letters of
operators, of digits and dots, or of small letters. -/
theorem SpelledBy.isBlank_eq_false (h : f.SpelledBy text) : ∀ c ∈ text, Text.isBlank c = false := by
  -- All characters of a spelling are visible ones of ASCII.
  have hblank : ∀ c : Char, 33 ≤ c.toNat ∧ c.toNat ≤ 126 → Text.isBlank c = false := by
    intro c hc
    simp only [Text.isBlank, Bool.or_eq_false_iff, Bool.and_eq_false_iff, decide_eq_false_iff_not,
      beq_eq_false_iff_ne]
    omega
  have hoperator : ∀ op : Operator, Text.isBlank op.letter = false := by
    intro op
    have hletter := op.toNat_letter
    exact hblank _ (by omega)
  have hdigit : ∀ c : Char, c.isDigit = true → Text.isBlank c = false := by
    intro c hc
    have hrange : 48 ≤ c.toNat ∧ c.toNat ≤ 57 := Char.isDigit_iff_toNat.mp hc
    exact hblank c (by omega)
  rcases h with h | h
  · refine h.forall_mem hoperator fun hword c hc => ?_
    obtain ⟨digits, dot, rfl, -, hdigits, -, -, hdot, -⟩ := hword
    rcases List.mem_append.mp hc with hc | hc
    · exact hdigit c (hdigits c hc)
    · rcases hdot with rfl | rfl
      · cases hc
      · obtain rfl := List.mem_singleton.mp hc
        decide
  · refine h.forall_mem hoperator fun hword c hc => ?_
    obtain ⟨letter, rfl, hlower, -⟩ := hword
    obtain rfl := List.mem_singleton.mp hc
    have hrange := Text.toNat_of_isLower hlower
    exact hblank c (by omega)

/-- A text is a formula exactly if it is a spelling of it (`SpelledBy`), blanks around it aside
(`trimBlanks`). If it goes on behind a formula, that formula is spelled by what comes before the
reported place, and if it ends too early, it is the first part of a longer text that is a
formula. -/
theorem parse_exact (text : String) :
    Text.Trims text.toList (Text.trimBlanks text.toList) ∧
    (∀ f : Formula, parse text = .ok f ↔ f.SpelledBy (Text.trimBlanks text.toList)) ∧
    (∀ p, parse text = .error (.trailing p) → p < (Text.trimBlanks text.toList).length ∧
      ∃ f : Formula, f.SpelledBy ((Text.trimBlanks text.toList).take p)) ∧
    (parse text = .error .unexpectedEnd → ∃ more ≠ [], ∃ f : Formula,
      parse (String.ofList (Text.trimBlanks text.toList ++ more)) = .ok f) := by
  refine ⟨Text.trims_trimBlanks _, fun f => parseChars_eq_ok_iff, fun p => spelledBy_of_trailing,
    fun h => ?_⟩
  obtain ⟨more, hmore, f, hspelled⟩ := exists_spelledBy_of_unexpectedEnd h
  refine ⟨more, hmore, f, ?_⟩
  -- The longer text is a spelling, and so has no blanks around it.
  rw [parse, String.toList_ofList, Text.trimBlanks_eq_self hspelled.isBlank_eq_false]
  exact parseChars_eq_ok_iff.mpr hspelled

/-- A text with a dot behind its last numeral goes on behind the dot, and a text with a letter ends
too early. -/
theorem parse_exact_errors :
    (parse " C0.1.2 " = .error (.trailing 5) ∧ ∃ f : Formula, f.SpelledBy "C0.1.".toList) ∧
    (parse "Cp" = .error .unexpectedEnd ∧
      ∃ more ≠ [], ∃ f : Formula, parse (String.ofList ("Cp".toList ++ more)) = .ok f) := by
  have htrailing : parse " C0.1.2 " = .error (.trailing 5) := rfl
  have hend : parse "Cp" = .error .unexpectedEnd := rfl
  obtain ⟨-, -, hfirst, -⟩ := parse_exact " C0.1.2 "
  obtain ⟨-, -, -, hsecond⟩ := parse_exact "Cp"
  exact ⟨⟨htrailing, (hfirst 5 htrailing).2⟩, hend, hsecond hend⟩

end Formula

end Detachment
