import Mathlib.Data.List.Basic
import Detachment.Proof
import Detachment.Proofs.Lists

/-! # Proof trees

A proof text is the prefix code of a tree: axioms stand at the leaves, necessitation has one premise
and detachment two, the major premise first.

* `ProofTree` is the type of trees over the names of a system, `ProofTree.symbols` their code.
* `ProofTree.symbols_append_inj` says that a code ends where its tree ends, so that a text is the
  code of at most one tree. -/

namespace Detachment

/-- The characters that name the axioms of a system: those with a `formula?`. -/
abbrev Basis.Name (basis : Basis) : Type :=
  {symbol : Char // (basis.formula? symbol).isSome}

/-- The axiom with a name; a `Name` has one. -/
def Basis.axiomOf (basis : Basis) (name : basis.Name) : Formula :=
  (basis.formula? name.1).get name.2

/-- How a proof over the names of `basis` is put together. -/
inductive ProofTree (basis : Basis) where
  /-- An axiom. -/
  | leaf (name : basis.Name)
  /-- A necessitation of a proof. -/
  | necessitate (inner : ProofTree basis)
  /-- A detachment of the second proof from the first. -/
  | detach (major minor : ProofTree basis)
  deriving DecidableEq

variable {basis : Basis}

/-- The formula of a name is its axiom, `axiomOf`. -/
theorem Basis.formula?_name (name : basis.Name) :
    basis.formula? name.1 = some (basis.axiomOf name) := by
  rw [axiomOf, Option.some_get]

/-- The characters that name axioms are among the fixed ones, `Basis.symbols`. -/
theorem Basis.mem_symbols_of_formula? {symbol : Char} (h : (basis.formula? symbol).isSome) :
    symbol ∈ symbols := by
  by_contra hmem
  have hnone : symbols.idxOf? symbol = none := List.idxOf?_eq_none_iff.mpr hmem
  simp [formula?, indexOf?, hnone] at h

/-- No axiom has the name of a rule, and every name is one byte long. -/
theorem Basis.name_spec (name : basis.Name) :
    name.1 ≠ Proof.detachSymbol ∧ name.1 ≠ Proof.necessitateSymbol ∧ name.1.utf8Size = 1 := by
  have hall : symbols.all (fun symbol => decide (symbol ≠ Proof.detachSymbol ∧
      symbol ≠ Proof.necessitateSymbol ∧ symbol.utf8Size = 1)) = true := by decide
  exact of_decide_eq_true (List.all_eq_true.mp hall name.1 (mem_symbols_of_formula? name.2))

namespace ProofTree

/-- The code of a tree: its symbols from left to right. -/
def symbols : ProofTree basis → List Char
  | leaf name => [name.1]
  | necessitate inner => Proof.necessitateSymbol :: inner.symbols
  | detach major minor => Proof.detachSymbol :: (major.symbols ++ minor.symbols)

/-- The code of a tree as a text. -/
def text (t : ProofTree basis) : String :=
  String.ofList t.symbols

/-- The number of symbols of the code. -/
def length : ProofTree basis → Nat
  | leaf _ => 1
  | necessitate inner => inner.length + 1
  | detach major minor => major.length + minor.length + 1

/-- The text has the symbols of the code. -/
@[simp] theorem toList_text (t : ProofTree basis) : t.text.toList = t.symbols :=
  String.toList_ofList

/-- The text of a necessitation is that of its premise after the rule symbol. -/
theorem text_necessitate (inner : ProofTree basis) :
    (necessitate inner).text = String.singleton Proof.necessitateSymbol ++ inner.text := by
  rw [← String.toList_inj]
  simp [symbols]

/-- The text of a detachment is that of its premises after the rule symbol. -/
theorem text_detach (major minor : ProofTree basis) :
    (detach major minor).text =
      String.singleton Proof.detachSymbol ++ (major.text ++ minor.text) := by
  rw [← String.toList_inj]
  simp [symbols]

/-- The `length` counts the symbols of the code. -/
@[simp] theorem length_symbols (t : ProofTree basis) : t.symbols.length = t.length := by
  induction t with
  | leaf => rfl
  | necessitate inner ih => simp [symbols, length, ih]
  | detach major minor ih₁ ih₂ => simp [symbols, length, ih₁, ih₂]

/-- Every tree has at least one symbol. -/
theorem length_pos (t : ProofTree basis) : 0 < t.length := by
  cases t <;> simp [length]

/-- No code is empty, as a tree has a leaf. -/
theorem symbols_ne_nil (t : ProofTree basis) : t.symbols ≠ [] := by
  cases t <;> simp [symbols]

/-- The symbols of a code are names of axioms and rules, so what holds of these holds of all its
symbols. -/
theorem symbols_forall {P : Char → Prop} (hname : ∀ name : basis.Name, P name.1)
    (hnecessitate : P Proof.necessitateSymbol) (hdetach : P Proof.detachSymbol)
    (t : ProofTree basis) : ∀ symbol ∈ t.symbols, P symbol := by
  induction t with
  | leaf name => exact List.forall_mem_singleton.mpr (hname name)
  | necessitate inner ih => exact List.forall_mem_cons.mpr ⟨hnecessitate, ih⟩
  | detach major minor ih₁ ih₂ =>
    refine List.forall_mem_cons.mpr ⟨hdetach, fun symbol hsymbol => ?_⟩
    exact (List.mem_append.mp hsymbol).elim (ih₁ symbol) (ih₂ symbol)

/-- Every symbol of a code is one byte long, by `symbols_forall`. -/
theorem utf8Size_of_mem_symbols {t : ProofTree basis} {symbol : Char} (h : symbol ∈ t.symbols) :
    symbol.utf8Size = 1 :=
  symbols_forall (P := fun symbol => symbol.utf8Size = 1) (fun name => (Basis.name_spec name).2.2)
    (by decide) (by decide) t symbol h

/-- The length of a tree is the length of its text in bytes, `Proof.length`. -/
@[simp] theorem length_text (t : ProofTree basis) : Proof.length t.text = t.length := by
  rw [Proof.length, text, String.utf8ByteSize_ofList_of_forall fun _ => utf8Size_of_mem_symbols,
    length_symbols]

/-! ## Unique readability -/

/-- A code ends where its tree ends: neither the tree nor what follows can be read in another way.
The induction is on the first tree; the first symbol tells the constructor of the second. -/
theorem symbols_append_inj {t u : ProofTree basis} {xs ys : List Char}
    (h : t.symbols ++ xs = u.symbols ++ ys) : t = u ∧ xs = ys := by
  -- The first symbol tells the kind of the tree, as no axiom has the name of a rule.
  induction t generalizing u xs ys with
  | leaf name =>
    obtain ⟨hdetach, hnec, -⟩ := Basis.name_spec name
    cases u with
    | leaf name' =>
      obtain ⟨hname, hrest⟩ := List.cons.inj h
      exact ⟨congrArg leaf (Subtype.ext hname), hrest⟩
    | necessitate inner => exact absurd (List.cons.inj h).1 hnec
    | detach major minor => exact absurd (List.cons.inj h).1 hdetach
  | necessitate inner ih =>
    cases u with
    | leaf name => exact absurd (List.cons.inj h).1.symm (Basis.name_spec name).2.1
    | necessitate inner' =>
      obtain ⟨hinner, hrest⟩ := ih (List.cons.inj h).2
      exact ⟨congrArg necessitate hinner, hrest⟩
    | detach major minor => exact absurd (List.cons.inj h).1 (by decide)
  | detach major minor ih₁ ih₂ =>
    cases u with
    | leaf name => exact absurd (List.cons.inj h).1.symm (Basis.name_spec name).1
    | necessitate inner => exact absurd (List.cons.inj h).1 (by decide)
    | detach major' minor' =>
      simp only [symbols, List.cons_append, List.append_assoc, List.cons.injEq, true_and] at h
      obtain ⟨hmajor, hrest⟩ := ih₁ h
      obtain ⟨hminor, hrest⟩ := ih₂ hrest
      exact ⟨by rw [hmajor, hminor], hrest⟩

/-- A text is the code of at most one tree. -/
theorem text_inj {t u : ProofTree basis} (h : t.text = u.text) : t = u := by
  have hsymbols : t.symbols ++ [] = u.symbols ++ [] := by
    rw [← toList_text t, h, toList_text]
  exact (symbols_append_inj hsymbols).1

end ProofTree

end Detachment
