import Detachment.Digest.Blake3
import Detachment.Formula.Canonical
import Detachment.Formula.Infix

/-! # Axiom systems

A `Basis` is the list of axioms of a run. Each axiom is kept in canonical form and is named in
proofs by one character, digits first. The standard system is known by name, every other by a hash
of its listing. -/

namespace Detachment

/-- The axioms of a system, in canonical form and in order. -/
structure Basis where
  /-- The axioms. -/
  formulas : List Formula
  deriving DecidableEq, Repr

namespace Basis

/-- The characters that name axioms in proofs, in order: the axiom at place `i` is named
`symbols[i]`. -/
def symbols : List Char :=
  "123456789abcdefghijklmnopqrstuvwxyz".toList

/-- Why `Basis.parseList` finds no system of axioms in a text. -/
inductive ListError where
  /-- The list has no entry. -/
  | empty
  /-- The list has more entries than there are names. -/
  | tooMany (count : Nat)
  /-- An entry, counted from zero, is not a formula. -/
  | formula (index : Nat) (reason : Formula.ReadError)
  deriving DecidableEq, Repr

/-- The wording of a `ListError`; entries are counted from one here. -/
def ListError.message : ListError → String
  | empty => "no axioms given"
  | tooMany count =>
    let most := symbols.length
    s!"{count} axioms given, but at most {most} are supported"
  | formula index reason =>
    let place := index + 1
    s!"axiom {place}: " ++ reason.message

/-- The system of the `canonical` forms of some formulas, one for each of the `symbols` at most. -/
def ofFormulas (formulas : List Formula) : Basis :=
  ⟨(formulas.take symbols.length).map Formula.canonical⟩

/-- The usual three axioms of implication and negation, `p → (q → p)`,
`(p → (q → r)) → ((p → q) → (p → r))` and `(¬p → ¬q) → (q → p)`. -/
def standard : Basis :=
  let p : Formula := .var 0
  let q : Formula := .var 1
  let r : Formula := .var 2
  ofFormulas
    [p.implies (q.implies p),
      (p.implies (q.implies r)).implies ((p.implies q).implies (p.implies r)),
      ((Formula.unary .negation p).implies (.unary .negation q)).implies (q.implies p)]

/-- Cut a text at every comma. There is one more part than there are commas. -/
def splitCommas : List Char → List (List Char)
  | [] => [[]]
  | ',' :: rest => [] :: splitCommas rest
  | c :: rest =>
    match splitCommas rest with
    | [] => [[c]]
    | part :: parts => (c :: part) :: parts

/-- The entries of a list that commas separate, without blanks around them (`Text.trimBlanks`) and
without empty ones. -/
def entries (text : String) : List (List Char) :=
  ((splitCommas text.toList).map Text.trimBlanks).filter (!·.isEmpty)

/-- Read entries in order, the first of which has the number `index`. The first that is no formula
is reported. -/
def parseEntries : Nat → List (List Char) → Except ListError (List Formula)
  | _, [] => .ok []
  | index, entry :: rest =>
    match Formula.parseChars entry with
    | .error reason => .error (.formula index reason)
    | .ok f =>
      match parseEntries (index + 1) rest with
      | .error e => .error e
      | .ok fs => .ok (f :: fs)

/-- Read a system from a list of formulas in prefix notation that commas separate (`entries`). The
number of entries is checked before they are read. -/
def parseList (text : String) : Except ListError Basis :=
  let parts := entries text
  if parts.isEmpty then .error .empty
  else if symbols.length < parts.length then .error (.tooMany parts.length)
  else (parseEntries 0 parts).map ofFormulas

/-- The number of axioms. -/
def size (b : Basis) : Nat :=
  b.formulas.length

/-- The axioms with their names, in the order of `symbols`. -/
def named (b : Basis) : List (Char × Formula) :=
  symbols.zip b.formulas

/-- The place of the axiom with the name `symbol`, if the system has as many axioms. -/
def indexOf? (b : Basis) (symbol : Char) : Option Nat :=
  match symbols.idxOf? symbol with
  | none => none
  | some i => if i < b.size then some i else none

/-- The axiom with the name `symbol`. -/
def formula? (b : Basis) (symbol : Char) : Option Formula :=
  (b.indexOf? symbol).bind (b.formulas[·]?)

/-- A copy of an axiom whose variables start at `offset` (`Formula.shift?`), and the number of
variables to skip before the next one (`Formula.span?`); absent when 32 bits cannot hold the
variables. -/
def fresh? (offset : Nat) (f : Formula) : Option (Formula × Nat) :=
  match f.shift? offset, f.span? with
  | some g, some span => some (g, span)
  | _, _ => none

/-- The proofs that consist of one axiom: its name, as a text. -/
def proofs (b : Basis) : List String :=
  b.named.map fun a => String.singleton a.1

/-- The axioms in prefix notation (`Formula.polish`) with commas between them. This is the text that
`fingerprint` hashes. -/
def listing (b : Basis) : String :=
  Text.join "," (b.formulas.map Formula.polish)

/-- The name of a system: `default` for the `standard` one, otherwise the hash of its `listing`. -/
def fingerprint (b : Basis) : String :=
  if b = standard then "default" else Blake3.hex b.listing.toUTF8.toList

/-- One line for each axiom: its name, prefix notation and infix notation, such as
`1: C0C1.0 = 0→(1→0)`. -/
def describe (b : Basis) : List String :=
  b.named.map fun a => String.singleton a.1 ++ ": " ++ a.2.polish ++ " = " ++ a.2.infixText

end Basis

end Detachment
