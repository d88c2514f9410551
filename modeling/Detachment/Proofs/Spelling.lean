import Mathlib.Data.List.Basic
import Detachment.Proofs.PolishReading

/-! # Spellings of formulas

The texts that stand for a formula in prefix notation: the letters of its operators and the words of
its variables, each operator before its arguments. Either all variables are numerals or all are
letters.

* `Formula.preorder` lists operators and variables in the order in which they are spelled.
* `Formula.Spells` says that a text spells such a list, in front of a rest.
* `Formula.IsNumeral` and `Formula.IsLetter` are the two kinds of words for a variable.
* `Formula.SpelledBy` says that a text is a spelling of a formula.
* `Formula.exists_spells_numerals` and `Formula.exists_spells_letters` go on with a spelling. -/

namespace Detachment

/-- The letters of operators are uppercase letters, from `65` to `90`. -/
theorem Operator.toNat_letter (op : Operator) : 65 ≤ op.letter.toNat ∧ op.letter.toNat ≤ 90 := by
  cases op with
  | unary op => cases op <;> decide
  | binary op => cases op <;> decide

namespace Formula

/-! ## The grammar -/

/-- The operators and variables of a formula in the order of the notation, each operator before
those of its arguments. -/
def preorder : Formula → List Head
  | var id => [.var id]
  | unary op f => .operator (.unary op) :: f.preorder
  | binary op f g => .operator (.binary op) :: (f.preorder ++ g.preorder)

/-- A text that spells operators and variables, in front of a rest. An operator is spelled by its
letter, and `word id written rest` says that `written` is a word for a variable in front of
`rest`. -/
inductive Spells (word : Nat → List Char → List Char → Prop) :
    List Head → List Char → List Char → Prop where
  /-- Nothing is spelled by nothing. -/
  | nil (rest : List Char) : Spells word [] [] rest
  /-- An operator comes first. -/
  | operator (op : Operator) {heads : List Head} {text rest : List Char}
      (h : Spells word heads text rest) : Spells word (.operator op :: heads) (op.letter :: text) rest
  /-- A variable comes first. -/
  | var {id : Nat} {written : List Char} {heads : List Head} {text rest : List Char}
      (hword : word id written (text ++ rest)) (h : Spells word heads text rest) :
      Spells word (.var id :: heads) (written ++ text) rest

/-- A numeral in front of `rest`: digits up to the first character that is no digit, with a value of
32 bits, and a dot or none. -/
def IsNumeral (id : Nat) (written rest : List Char) : Prop :=
  ∃ digits dot, written = digits ++ dot ∧ digits ≠ [] ∧ (∀ c ∈ digits, c.isDigit = true) ∧
    Nat.ofDigitChars 10 digits 0 = id ∧ id < Text.bound32 ∧ (dot = [] ∨ dot = ['.']) ∧
    Text.EndsNumeral (dot ++ rest)

/-- A lowercase letter, which stands for the variable with its place in `letters` as number. -/
def IsLetter (letters : List Char) (id : Nat) (written _rest : List Char) : Prop :=
  ∃ letter, written = [letter] ∧ letter.isLower = true ∧ letters.idxOf letter = id

/-- The lowercase letters of a text, in the order of their first appearance. -/
def distinctLetters (text : List Char) : List Char :=
  (text.filter Char.isLower).eraseDups

/-- A text is a spelling of a formula, with numerals for all its variables (`IsNumeral`), or with
letters for all of them (`IsLetter`), which are numbered in the order of their first appearance. -/
def SpelledBy (f : Formula) (text : List Char) : Prop :=
  Spells IsNumeral f.preorder text [] ∨
    Spells (IsLetter (distinctLetters text)) f.preorder text []

/-! ## Spellings in general -/

section Spells

variable {word word' : Nat → List Char → List Char → Prop} {heads heads' : List Head}
  {text text' rest rest' : List Char}

/-- Spellings are put together: `Spells` for one list, and behind it for another. -/
theorem Spells.append (h : Spells word heads text (text' ++ rest))
    (h' : Spells word heads' text' rest) : Spells word (heads ++ heads') (text ++ text') rest := by
  generalize hrest : text' ++ rest = middle at h
  induction h with
  | nil => exact h'
  | operator op h ih => exact .operator op (ih hrest)
  | var hword h ih =>
    rw [List.append_assoc]
    refine .var ?_ (ih hrest)
    rwa [List.append_assoc, hrest]

/-- Words are exchanged for others, and the rest for another, where `hword` allows it. -/
theorem Spells.imp (h : Spells word heads text rest)
    (hword : ∀ id written after, word id written (after ++ rest) →
      word' id written (after ++ rest')) : Spells word' heads text rest' := by
  induction h with
  | nil => exact .nil _
  | operator op h ih => exact .operator op (ih hword)
  | var hfirst h ih => exact .var (hword _ _ _ hfirst) (ih hword)

/-- What holds of the letters of operators and of the characters of words holds of all characters of
a spelling. -/
theorem Spells.forall_mem {P : Char → Prop} (h : Spells word heads text rest)
    (hoperator : ∀ op : Operator, P op.letter)
    (hword : ∀ {id written rest}, word id written rest → ∀ c ∈ written, P c) : ∀ c ∈ text, P c := by
  induction h with
  | nil => exact List.forall_mem_nil _
  | operator op h ih => exact List.forall_mem_cons.mpr ⟨hoperator op, ih⟩
  | var hfirst h ih => exact fun c hc => (List.mem_append.mp hc).elim (hword hfirst c) (ih c)

end Spells

/-! ## Numerals -/

section Numerals

variable {id : Nat} {heads : List Head} {written text rest : List Char}

/-- Only what comes first can continue a numeral, so `rest` does not count. -/
theorem endsNumeral_append_iff (h : text ≠ []) :
    Text.EndsNumeral (text ++ rest) ↔ Text.EndsNumeral text := by
  rw [Text.EndsNumeral, Text.EndsNumeral, List.head?_append_of_ne_nil _ h]

/-- Less text behind a numeral does not continue it either. -/
theorem endsNumeral_of_append (h : Text.EndsNumeral (text ++ rest)) : Text.EndsNumeral text := by
  by_cases htext : text = []
  · rw [htext]
    intro c hc
    cases hc
  · exact (endsNumeral_append_iff htext).mp h

/-- Behind a dot, a numeral has ended: `IsNumeral` in front of anything. -/
theorem isNumeral_dot {digits : List Char} (hne : digits ≠ [])
    (hdigits : ∀ c ∈ digits, c.isDigit = true) (hbound : Nat.ofDigitChars 10 digits 0 < Text.bound32)
    (rest : List Char) : IsNumeral (Nat.ofDigitChars 10 digits 0) (digits ++ ['.']) rest := by
  refine ⟨digits, ['.'], rfl, hne, hdigits, rfl, hbound, .inr rfl, fun c hc => ?_⟩
  obtain rfl := Option.some.inj hc
  rfl

/-- A spelling in front of nothing ends in a numeral that can be closed with a dot, so that anything
may follow. -/
theorem Spells.exists_closed (h : Spells IsNumeral heads text []) :
    ∃ more, ∀ rest, Spells IsNumeral heads (text ++ more) rest := by
  generalize hnil : ([] : List Char) = rest at h
  induction h with
  | nil => exact ⟨[], fun rest => .nil rest⟩
  | operator op h ih =>
    obtain ⟨more, hmore⟩ := ih hnil
    exact ⟨more, fun rest => .operator op (hmore rest)⟩
  | @var id written heads text rest hword h ih =>
    subst hnil
    obtain ⟨more, hmore⟩ := ih rfl
    obtain ⟨digits, dot, rfl, hne, hdigits, rfl, hbound, hdot, hends⟩ := hword
    rw [List.append_nil] at hends
    by_cases htext : text = []
    · -- The numeral comes last, and gets a dot if it has none.
      subst htext
      have hclosed : ∀ rest, Spells IsNumeral (.var (Nat.ofDigitChars 10 digits 0) :: heads)
          (digits ++ ['.'] ++ more) rest := fun rest =>
        .var (isNumeral_dot hne hdigits hbound _) (hmore rest)
      rcases hdot with rfl | rfl
      · exact ⟨'.' :: more, fun rest => by simpa using hclosed rest⟩
      · exact ⟨more, fun rest => by simpa using hclosed rest⟩
    · -- The numeral is followed by the same character as before.
      refine ⟨more, fun rest => ?_⟩
      rw [List.append_assoc (digits ++ dot)]
      refine .var ⟨digits, dot, rfl, hne, hdigits, rfl, hbound, hdot, ?_⟩ (hmore rest)
      have hne' : dot ++ text ≠ [] := List.append_ne_nil_of_right_ne_nil _ htext
      rwa [List.append_assoc, ← List.append_assoc, endsNumeral_append_iff hne']

/-- Numerals that spell the same variable again and again, each closed by its dot. -/
theorem spells_zeros (n : Nat) :
    Spells IsNumeral (List.replicate n (.var 0)) (List.replicate n ['0', '.']).flatten [] := by
  induction n with
  | zero => exact .nil _
  | succ n ih =>
    rw [List.replicate_succ, List.replicate_succ, List.flatten_cons]
    have hdigits : ∀ c ∈ ['0'], c.isDigit = true := List.forall_mem_singleton.mpr rfl
    exact .var (isNumeral_dot (List.cons_ne_nil _ _) hdigits (by decide) _) ih

/-- A spelling with numerals goes on with further variables, by `exists_closed` and
`spells_zeros`. -/
theorem exists_spells_numerals (h : Spells IsNumeral heads text []) (n : Nat) :
    ∃ more ≠ [], Spells IsNumeral (heads ++ List.replicate (n + 1) (.var 0)) (text ++ more) [] := by
  obtain ⟨more, hmore⟩ := h.exists_closed
  refine ⟨more ++ (List.replicate (n + 1) ['0', '.']).flatten, ?_, ?_⟩
  · rw [List.replicate_succ, List.flatten_cons]
    simp
  · rw [← List.append_assoc]
    exact (hmore _).append (spells_zeros (n + 1))

end Numerals

/-! ## Letters -/

section Letters

variable {heads : List Head} {text more letters : List Char} {letter : Char}

/-- The letters are the lowercase ones. -/
theorem mem_distinctLetters : letter ∈ distinctLetters text ↔ letter ∈ text ∧ letter.isLower := by
  rw [distinctLetters, List.mem_eraseDups, List.mem_filter]

/-- The letters of a text come before those that are new behind it: `distinctLetters` only
appends. -/
theorem distinctLetters_append (text more : List Char) :
    distinctLetters (text ++ more) = distinctLetters text ++
      ((more.filter Char.isLower).removeAll (text.filter Char.isLower)).eraseDups := by
  rw [distinctLetters, List.filter_append, List.eraseDups_append]
  rfl

/-- Letters keep their places when more text follows. -/
theorem distinctLetters_isPrefix_append (text more : List Char) :
    distinctLetters text <+: distinctLetters (text ++ more) :=
  ⟨_, (distinctLetters_append text more).symm⟩

/-- Letters that have appeared before are not counted again by `distinctLetters`. -/
theorem distinctLetters_append_eq (h : ∀ c ∈ more, c.isLower → c ∈ text) :
    distinctLetters (text ++ more) = distinctLetters text := by
  have hnone : (more.filter Char.isLower).removeAll (text.filter Char.isLower) = [] := by
    refine List.filter_eq_nil_iff.mpr fun c hc => ?_
    obtain ⟨hc, hlower⟩ := List.mem_filter.mp hc
    simp [h c hc hlower, hlower]
  rw [distinctLetters_append, hnone, List.eraseDups_nil, List.append_nil]

/-- The letters of operators are not counted by `distinctLetters`. -/
theorem distinctLetters_letter (text : List Char) (op : Operator) :
    distinctLetters (text ++ [op.letter]) = distinctLetters text := by
  refine distinctLetters_append_eq fun c hc hlower => ?_
  obtain rfl := List.mem_singleton.mp hc
  have hle := op.toNat_letter.2
  have hge := (Text.toNat_of_isLower hlower).1
  omega

/-- A letter is counted by `distinctLetters` unless it has appeared before. -/
theorem distinctLetters_concat (h : letter.isLower = true) (text : List Char) :
    distinctLetters (text ++ [letter]) =
      if letter ∈ distinctLetters text then distinctLetters text
      else distinctLetters text ++ [letter] := by
  split
  · next hmem =>
    refine distinctLetters_append_eq fun c hc _ => ?_
    rw [List.mem_singleton.mp hc]
    exact (mem_distinctLetters.mp hmem).1
  · next hmem =>
    have hnew : ¬letter ∈ text.filter Char.isLower := by
      rwa [← List.mem_eraseDups]
    rw [distinctLetters_append, List.filter_cons_of_pos h, List.filter_nil, List.cons_removeAll]
    simp [hnew, List.eraseDups_cons]

/-- What follows a letter does not change its number, its `idxOf` in `distinctLetters`. -/
theorem idxOf_distinctLetters (h : letter.isLower = true)
    (hletters : distinctLetters (text ++ [letter]) <+: letters) :
    letters.idxOf letter = (distinctLetters (text ++ [letter])).idxOf letter := by
  obtain ⟨more, rfl⟩ := hletters
  refine List.idxOf_append_of_mem (mem_distinctLetters.mpr ⟨?_, h⟩)
  exact List.mem_append_right _ (List.mem_singleton_self letter)

/-- A spelling with letters goes on with further variables, if it has a letter: the first letter
stands for the variable `0`, again and again. -/
theorem exists_spells_letters (h : Spells (IsLetter (distinctLetters text)) heads text [])
    (hne : distinctLetters text ≠ []) (n : Nat) :
    ∃ more ≠ [], Spells (IsLetter (distinctLetters (text ++ more)))
      (heads ++ List.replicate (n + 1) (.var 0)) (text ++ more) [] := by
  obtain ⟨letter, others, hletters⟩ := List.exists_cons_of_ne_nil hne
  have hmem : letter ∈ text ∧ letter.isLower = true :=
    mem_distinctLetters.mp (hletters ▸ List.mem_cons_self)
  -- The first letter is used again, so that no letter gets another number.
  refine ⟨List.replicate (n + 1) letter, List.cons_ne_nil _ _, ?_⟩
  have hsame : distinctLetters (text ++ List.replicate (n + 1) letter) = distinctLetters text :=
    distinctLetters_append_eq fun c hc _ => (List.eq_of_mem_replicate hc).symm ▸ hmem.1
  have hbefore : Spells (IsLetter (distinctLetters text)) heads text
      (List.replicate (n + 1) letter ++ []) := h.imp fun _ _ _ hword => hword
  rw [hsame]
  refine hbefore.append ?_
  generalize n + 1 = count
  induction count with
  | zero => exact .nil _
  | succ count ih =>
    rw [List.replicate_succ, List.replicate_succ]
    show Spells _ _ ([letter] ++ List.replicate count letter) []
    refine .var ⟨letter, rfl, hmem.2, ?_⟩ ih
    rw [hletters, List.idxOf_cons_self]

end Letters

end Formula

end Detachment
