import Mathlib.Data.List.Basic
import Detachment.Formula.Polish

/-! # Unique reading of prefix notation

A formula in prefix notation can be told from what follows it, because numerals end before anything
that is not a digit and two variables that meet have a dot between them.

* `Formula.polishChars_append_inj` is the reading with any rest that does not start with a digit.
* `Formula.polish_inj` says that a text is the notation of at most one formula. -/

namespace Detachment

/-- Characters that cannot continue a numeral: there is no digit in front. -/
def Text.EndsNumeral (rest : List Char) : Prop :=
  ∀ c ∈ rest.head?, c.isDigit = false

namespace Text

/-- The `digits` of a number are digits. -/
theorem isDigit_of_mem_digits {n : Nat} {c : Char} (h : c ∈ digits n) : c.isDigit = true :=
  Nat.isDigit_of_mem_toDigits (by decide) (by decide) h

/-- A run of digits in front of other characters (`EndsNumeral`) goes as far as the digits. -/
theorem span_isDigit {run rest : List Char} (hrun : ∀ c ∈ run, c.isDigit = true)
    (h : EndsNumeral rest) :
    (run ++ rest).takeWhile Char.isDigit = run ∧ (run ++ rest).dropWhile Char.isDigit = rest := by
  rw [List.takeWhile_append_of_pos hrun, List.dropWhile_append_of_pos hrun]
  cases rest with
  | nil => exact ⟨List.append_nil _, rfl⟩
  | cons c rest =>
    have hc : ¬c.isDigit = true := by rw [h c rfl]; exact Bool.false_ne_true
    rw [List.takeWhile_cons_of_neg hc, List.dropWhile_cons_of_neg hc]
    exact ⟨List.append_nil _, rfl⟩

/-- A numeral `digits n` in front of other characters goes as far as the digits. -/
theorem span_digits (n : Nat) {rest : List Char} (h : EndsNumeral rest) :
    (digits n ++ rest).takeWhile Char.isDigit = digits n ∧
      (digits n ++ rest).dropWhile Char.isDigit = rest :=
  span_isDigit (fun _ => isDigit_of_mem_digits) h

/-- A numeral can be told from what follows it, if that `EndsNumeral`. -/
theorem digits_append_inj {m n : Nat} {xs ys : List Char} (hxs : EndsNumeral xs)
    (hys : EndsNumeral ys) (h : digits m ++ xs = digits n ++ ys) : m = n ∧ xs = ys := by
  obtain ⟨hdigits, hrest⟩ := span_digits m hxs
  obtain ⟨hdigits', hrest'⟩ := span_digits n hys
  rw [h, hdigits'] at hdigits
  rw [h, hrest'] at hrest
  refine ⟨?_, hrest.symm⟩
  rw [← Nat.ofDigitChars_ten_toDigits (n := m), ← Nat.ofDigitChars_ten_toDigits (n := n)]
  exact congrArg _ hdigits.symm

end Text

/-- No digit is the letter of an operator (`ofLetter?`). -/
theorem Operator.ofLetter?_of_isDigit {c : Char} (h : c.isDigit) : ofLetter? c = none := by
  unfold ofLetter?
  split
  case h_7 => rfl
  all_goals exact absurd h (by decide)

namespace Formula

/-- The notation has these characters. -/
@[simp] theorem toList_polish (f : Formula) : f.polish.toList = f.polishChars :=
  String.toList_ofList

/-- The operator of a formula that is not a variable; a variable has none. -/
def operator? : Formula → Option Operator
  | var _ => none
  | unary op _ => some (.unary op)
  | binary op _ _ => some (.binary op)

/-- The first character of a formula tells its operator, or that it is a variable: `ofLetter?` gives
`operator?`. -/
theorem polishChars_eq_cons (f : Formula) :
    ∃ c rest, f.polishChars = c :: rest ∧ Operator.ofLetter? c = f.operator? := by
  cases f with
  | var id =>
    obtain ⟨c, rest, hdigits⟩ :=
      List.exists_cons_of_ne_nil (Nat.toDigits_ne_nil (n := id) (b := 10))
    refine ⟨c, rest, by rw [polishChars_var, Text.digits, hdigits], ?_⟩
    have hmem : c ∈ Text.digits id := by
      rw [Text.digits, hdigits]
      exact List.mem_cons_self
    exact Operator.ofLetter?_of_isDigit (Text.isDigit_of_mem_digits hmem)
  | unary op f => exact ⟨_, _, rfl, Operator.ofLetter?_letter (.unary op)⟩
  | binary op f g =>
    exact ⟨_, _, polishChars_binary op f g, Operator.ofLetter?_letter (.binary op)⟩

/-- Formulas whose notations start with the same character have the same `operator?`. -/
theorem operator?_eq_of_append_eq {f g : Formula} {xs ys : List Char}
    (h : f.polishChars ++ xs = g.polishChars ++ ys) : f.operator? = g.operator? := by
  obtain ⟨c, rest, hf, hfop⟩ := f.polishChars_eq_cons
  obtain ⟨d, rest', hg, hgop⟩ := g.polishChars_eq_cons
  rw [hf, hg, List.cons_append, List.cons_append] at h
  rw [← hfop, ← hgop, (List.cons.inj h).1]

/-- The characters of a second argument, with the dot that a variable needs so that it does not
continue the numeral before it. -/
def argumentChars (f : Formula) : List Char :=
  if f.isVariable then '.' :: f.polishChars else f.polishChars

/-- A second argument (`argumentChars`) starts with a dot if it is a variable, and never with a
digit. -/
theorem argumentChars_eq_cons (f : Formula) :
    ∃ c rest, f.argumentChars = c :: rest ∧ c.isDigit = false ∧ (f.isVariable ↔ c = '.') := by
  cases f with
  | var id => exact ⟨'.', _, rfl, rfl, by simp [isVariable]⟩
  | unary op f =>
    refine ⟨op.letter, _, rfl, ?_⟩
    cases op <;> simp [Modifier.letter, isVariable]
  | binary op f g =>
    refine ⟨op.letter, _, polishChars_binary op f g, ?_⟩
    cases op <;> simp [Connective.letter, isVariable]

/-- What stands behind the first of two arguments `EndsNumeral`. -/
theorem endsNumeral_argument (f : Formula) (rest : List Char) :
    Text.EndsNumeral (f.argumentChars ++ rest) := by
  obtain ⟨c, tail, hchars, hdigit, -⟩ := f.argumentChars_eq_cons
  rw [hchars]
  intro d hd
  obtain rfl : c = d := Option.some.inj hd
  exact hdigit

/-- Second arguments that are written alike are both variables or both not, so the dots can be left
out. -/
theorem polishChars_eq_of_argumentChars {f g : Formula} {xs ys : List Char}
    (h : f.argumentChars ++ xs = g.argumentChars ++ ys) :
    f.polishChars ++ xs = g.polishChars ++ ys := by
  obtain ⟨c, tail, hf, -, hfvar⟩ := f.argumentChars_eq_cons
  obtain ⟨d, tail', hg, -, hgvar⟩ := g.argumentChars_eq_cons
  have hhead : c = d := by
    rw [hf, hg] at h
    exact (List.cons.inj h).1
  by_cases hvariable : f.isVariable
  · have hvariable' : g.isVariable := hgvar.mpr (hhead ▸ hfvar.mp hvariable)
    rw [argumentChars, argumentChars, if_pos hvariable, if_pos hvariable'] at h
    exact (List.cons.inj h).2
  · have hvariable' : ¬g.isVariable := fun hg => hvariable (hfvar.mpr (hhead ▸ hgvar.mp hg))
    rw [argumentChars, argumentChars, if_neg hvariable, if_neg hvariable'] at h
    exact h

/-- A formula can be told from what follows it, unless that continues a numeral (`EndsNumeral`). The
induction is on the first formula; the second has the same `operator?`. -/
theorem polishChars_append_inj {f g : Formula} {xs ys : List Char} (hxs : Text.EndsNumeral xs)
    (hys : Text.EndsNumeral ys) (h : f.polishChars ++ xs = g.polishChars ++ ys) :
    f = g ∧ xs = ys := by
  have hoperator := operator?_eq_of_append_eq h
  induction f generalizing g xs ys with
  | var id =>
    cases g with
    | var id' =>
      rw [polishChars_var, polishChars_var] at h
      obtain ⟨hid, hrest⟩ := Text.digits_append_inj hxs hys h
      exact ⟨congrArg var hid, hrest⟩
    | unary op g => cases hoperator
    | binary op g₁ g₂ => cases hoperator
  | unary op f ih =>
    cases g with
    | var id => cases hoperator
    | unary op' g =>
      obtain rfl : op = op' := Operator.unary.inj (Option.some.inj hoperator)
      have htail := (List.cons.inj h).2
      obtain ⟨hf, hrest⟩ := ih hxs hys htail (operator?_eq_of_append_eq htail)
      exact ⟨by rw [hf], hrest⟩
    | binary op' g₁ g₂ => cases hoperator
  | binary op f₁ f₂ ih₁ ih₂ =>
    cases g with
    | var id => cases hoperator
    | unary op' g => cases hoperator
    | binary op' g₁ g₂ =>
      obtain rfl : op = op' := Operator.binary.inj (Option.some.inj hoperator)
      rw [polishChars_binary, polishChars_binary, ← argumentChars, ← argumentChars,
        List.cons_append, List.cons_append, List.append_assoc, List.append_assoc] at h
      -- The second argument ends the numeral that the first one may end with.
      have htail := (List.cons.inj h).2
      obtain ⟨hf₁, hargument⟩ := ih₁ (endsNumeral_argument _ _) (endsNumeral_argument _ _) htail
        (operator?_eq_of_append_eq htail)
      have hsecond := polishChars_eq_of_argumentChars hargument
      obtain ⟨hf₂, hrest⟩ := ih₂ hxs hys hsecond (operator?_eq_of_append_eq hsecond)
      exact ⟨by rw [hf₁, hf₂], hrest⟩

/-- A text is the notation of at most one formula: `polish` is injective. -/
theorem polish_inj {f g : Formula} (h : f.polish = g.polish) : f = g := by
  have hchars : f.polishChars ++ [] = g.polishChars ++ [] := by
    rw [polish, polish, String.ofList_inj] at h
    rw [h]
  exact (polishChars_append_inj (by simp [Text.EndsNumeral]) (by simp [Text.EndsNumeral]) hchars).1

end Formula

end Detachment
