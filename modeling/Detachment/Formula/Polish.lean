import Detachment.Formula.Basic
import Detachment.Text.Blank
import Detachment.Text.Numeral

/-! # Prefix notation

Formulas in prefix notation: an operator's letter stands before its arguments.

* `Formula.polish` writes variables as decimal numbers, with a dot between two that meet.
* `Formula.parse` reads variables as decimal numbers or as lowercase letters, which are numbered in
  the order of their first appearance; the two kinds do not mix.
* `Formula.ReadError` says why a text is not a formula. -/

namespace Detachment

namespace Formula

/-! ## Writing -/

/-- Whether a formula is a variable, before which `polishOnto` may need a dot. -/
def isVariable : Formula → Bool
  | var _ => true
  | _ => false

/-- Write a formula in prefix notation in front of other characters. Every argument ends in a
variable, so a dot is needed exactly before a variable that is not the first argument. -/
def polishOnto : Formula → List Char → List Char
  | var id, rest => Text.digits id ++ rest
  | unary op f, rest => op.letter :: f.polishOnto rest
  | binary op f g, rest =>
    op.letter :: f.polishOnto (if g.isVariable then '.' :: g.polishOnto rest else g.polishOnto rest)

/-- The characters of a formula in prefix notation, by `polishOnto`. -/
def polishChars (f : Formula) : List Char :=
  f.polishOnto []

/-- What stands behind a formula does not change how it is written: `polishOnto` appends. -/
theorem polishOnto_eq (f : Formula) (rest : List Char) :
    f.polishOnto rest = f.polishChars ++ rest := by
  induction f generalizing rest with
  | var => simp [polishOnto, polishChars]
  | unary op f ih => exact congrArg (op.letter :: ·) (ih rest)
  | binary op f g ihf ihg =>
    rw [polishChars, polishOnto, polishOnto, ihf, ihf, List.cons_append,
      List.append_assoc, ihg rest]
    split <;> rfl

/-- A variable is written as a decimal number. -/
@[simp] theorem polishChars_var (id : Nat) : (var id).polishChars = Text.digits id := by
  simp [polishChars, polishOnto]

/-- A modifier is written before its argument. -/
@[simp] theorem polishChars_unary (op : Modifier) (f : Formula) :
    (unary op f).polishChars = op.letter :: f.polishChars := rfl

/-- A connective is written before its arguments, with a dot before a variable on the right. -/
@[simp] theorem polishChars_binary (op : Connective) (f g : Formula) :
    (binary op f g).polishChars =
      op.letter ::
        (f.polishChars ++ (if g.isVariable then '.' :: g.polishChars else g.polishChars)) := by
  rw [← polishOnto_eq]
  rfl

/-- A formula in prefix notation, such as `C0C1.0`. -/
def polish (f : Formula) : String :=
  String.ofList f.polishChars

/-! ## Reading -/

/-- Why `Formula.parse` finds no formula in a text; positions count characters. -/
inductive ReadError where
  /-- The text ends where an argument is missing. -/
  | unexpectedEnd
  /-- The text goes on after a complete formula. -/
  | trailing (position : Nat)
  /-- A character starts neither an operator nor a variable, or starts a number that is too
  large. -/
  | unknownCharacter (c : Char) (position : Nat)
  /-- One text holds both letters and numbers as variables. -/
  | mixedVariables
  deriving DecidableEq, Repr

/-- The wording of a `ReadError`, with the position at fault. -/
def ReadError.message : ReadError → String
  | unexpectedEnd => "formula ended unexpectedly"
  | trailing position => s!"unexpected trailing input at position {position}"
  | unknownCharacter c position => s!"unknown character '{c}' at position {position}"
  | mixedVariables => "letter and numeric variables cannot be mixed"

/-- What is left to read, and what the variables read so far looked like, as `letters` and numbers
do not mix. -/
structure Cursor where
  /-- The number of characters read. -/
  position : Nat
  /-- The letters read as variables, in the order of their first appearance. -/
  letters : List Char
  /-- Whether a numeric variable was read. -/
  numeric : Bool
  /-- The characters still to be read. -/
  rest : List Char
  deriving DecidableEq, Repr

/-- Read a numeric variable: a maximal run of digits, and a dot if one follows. The number has to be
below `Text.bound32`. -/
def readNumber (start : Char) (c : Cursor) : Except ReadError (Formula × Cursor) :=
  let run := c.rest.takeWhile Char.isDigit
  match Text.readDigits? Text.bound32 0 run with
  | none => .error (.unknownCharacter start c.position)
  | some id =>
    match c.rest.dropWhile Char.isDigit with
    | '.' :: rest =>
      .ok (var id, { c with position := c.position + run.length + 1, numeric := true, rest })
    | rest => .ok (var id, { c with position := c.position + run.length, numeric := true, rest })

/-- Read a variable that is a letter: its number is its place among the distinct `letters`. -/
def readLetter (letter : Char) (c : Cursor) : Formula × Cursor :=
  let letters := if letter ∈ c.letters then c.letters else c.letters ++ [letter]
  (var (letters.idxOf letter), { c with position := c.position + 1, letters, rest := c.rest.tail })

/-- Read a variable that starts with the character `start`: a number (`readNumber`) or a letter
(`readLetter`). -/
def readVariable (start : Char) (c : Cursor) : Except ReadError (Formula × Cursor) :=
  if start.isDigit then
    if c.letters.isEmpty then readNumber start c else .error .mixedVariables
  else if start.isLower then
    if c.numeric then .error .mixedVariables else .ok (readLetter start c)
  else
    .error (.unknownCharacter start c.position)

/-- Read one formula. The first argument is at least the number of characters left, so when it
reaches zero the text has ended; `parseChars` starts with all of them. -/
def readFormula : Nat → Cursor → Except ReadError (Formula × Cursor)
  | 0, _ => .error .unexpectedEnd
  | depth + 1, c =>
    match c.rest with
    | [] => .error .unexpectedEnd
    | start :: rest =>
      match Operator.ofLetter? start with
      | some (.unary op) =>
        match readFormula depth { c with position := c.position + 1, rest } with
        | .error e => .error e
        | .ok (f, d) => .ok (unary op f, d)
      | some (.binary op) =>
        match readFormula depth { c with position := c.position + 1, rest } with
        | .error e => .error e
        | .ok (f, d) =>
          match readFormula depth d with
          | .error e => .error e
          | .ok (g, e) => .ok (binary op f g, e)
      | none => readVariable start c

/-- Read a whole list of characters as one formula, by `readFormula`; nothing may be left. -/
def parseChars (s : List Char) : Except ReadError Formula :=
  match readFormula s.length ⟨0, [], false, s⟩ with
  | .error e => .error e
  | .ok (f, c) => if c.rest.isEmpty then .ok f else .error (.trailing c.position)

/-- Read a text in prefix notation; blanks around it are ignored (`Text.trimBlanks`). -/
def parse (text : String) : Except ReadError Formula :=
  parseChars (Text.trimBlanks text.toList)

end Formula

end Detachment
