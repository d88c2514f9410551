import Mathlib.Data.List.Nodup
import Detachment.Proofs.ProofTree
import Detachment.Representatives

/-! # Rows of a table

Publishing a length replaces its row and leaves the others as they are.

* `Representatives.row_publish` gives the rows after a length was published.
* `Representatives.row_ofBasis` gives the rows of the table that holds the axioms. -/

namespace Detachment

namespace Representatives

variable {t : Representatives} {length other : Nat} {proofs : List String}

/-- A row that is put in its place (`setRow`) is found there, and the other rows stay. Rows are
added before it if there are too few of them. -/
theorem getD_setRow (rows : List (List String)) (length other : Nat) (proofs : List String) :
    (setRow rows length proofs).getD other [] =
      if other = length then proofs else rows.getD other [] := by
  have hlt : length < (rows ++ List.replicate (length + 1 - rows.length) []).length := by
    rw [List.length_append, List.length_replicate]
    omega
  rw [setRow, List.getD_eq_getElem?_getD, List.getElem?_set]
  by_cases heq : length = other
  · subst heq
    rw [if_pos rfl, if_pos hlt, if_pos rfl, Option.getD_some]
  · rw [if_neg heq, if_neg (Ne.symm heq), List.getElem?_append, List.getD_eq_getElem?_getD]
    by_cases hother : other < rows.length
    · rw [if_pos hother]
    · -- Beyond the old rows there are only empty ones.
      rw [if_neg hother, List.getElem?_replicate, List.getElem?_eq_none (Nat.not_lt.mp hother)]
      split <;> rfl

/-- Publishing (`publish`) replaces one row, by its proofs in order. -/
theorem row_publish (h : ∀ p ∈ proofs, Proof.length p = length) :
    (t.publish length proofs).row other =
      if other = length then proofs.mergeSort Proof.le else t.row other := by
  have hall : (proofs.all fun p => Proof.length p = length) = true := by
    simpa using h
  rw [publish, publish?, if_pos hall, Option.getD_some, row, getD_setRow, row]

/-- Publishing a length makes the table reach at least to it: `knownLimit` is the larger of the
two. -/
theorem knownLimit_publish (h : ∀ p ∈ proofs, Proof.length p = length) :
    (t.publish length proofs).knownLimit = max t.knownLimit length := by
  have hall : (proofs.all fun p => Proof.length p = length) = true := by
    simpa using h
  rw [publish, publish?, if_pos hall, Option.getD_some, knownLimit, setRow, List.length_set,
    List.length_append, List.length_replicate, knownLimit]
  omega

/-- Publishing several lengths replaces their rows, by induction on the lengths. -/
theorem row_foldl_publish {entries : Nat → List String} {lengths : List Nat}
    (h : ∀ length, ∀ p ∈ entries length, Proof.length p = length) (t : Representatives) :
    (lengths.foldl (fun t length => t.publish length (entries length)) t).row other =
      if other ∈ lengths then (entries other).mergeSort Proof.le else t.row other := by
  induction lengths generalizing t with
  | nil => rfl
  | cons length lengths ih =>
    rw [List.foldl_cons, ih, row_publish (h length)]
    by_cases hother : other ∈ lengths
    · rw [if_pos hother, if_pos (List.mem_cons_of_mem _ hother)]
    · rw [if_neg hother]
      by_cases heq : other = length
      · rw [if_pos heq, heq, if_pos List.mem_cons_self]
      · rw [if_neg heq, if_neg fun hmem => (List.mem_cons.mp hmem).elim heq hother]

/-- Publishing several lengths makes the table reach to the largest of them, `last`. By induction on
the lengths, each of which raises the limit to itself at most. -/
theorem knownLimit_foldl_publish {entries : Nat → List String} {lengths : List Nat} {last : Nat}
    (h : ∀ length, ∀ p ∈ entries length, Proof.length p = length)
    (hle : ∀ length ∈ lengths, length ≤ last) {t : Representatives} (ht : t.knownLimit ≤ last)
    (hlast : last ∈ lengths ∨ t.knownLimit = last) :
    (lengths.foldl (fun t length => t.publish length (entries length)) t).knownLimit = last := by
  induction lengths generalizing t with
  | nil => exact hlast.resolve_left List.not_mem_nil
  | cons length lengths ih =>
    have hlimit : (t.publish length (entries length)).knownLimit = max t.knownLimit length :=
      knownLimit_publish (h length)
    have hlength := hle length List.mem_cons_self
    refine ih (fun other hother => hle other (List.mem_cons_of_mem _ hother)) ?_ ?_
    · rw [hlimit]
      omega
    · rw [hlimit]
      rcases hlast with hlast | hlast
      · rcases List.mem_cons.mp hlast with rfl | hlast
        · exact .inr (by omega)
        · exact .inl hlast
      · exact .inr (by omega)

end Representatives

/-! ## Axioms -/

namespace Basis

variable {basis : Basis} {proof : String}

/-- No character names two axioms: `symbols` has no repetitions. -/
theorem nodup_symbols : symbols.Nodup := by
  decide

/-- The proofs that consist of one axiom (`proofs`) are all different. -/
theorem nodup_proofs (basis : Basis) : basis.proofs.Nodup := by
  rw [List.Nodup, List.pairwise_iff_getElem]
  intro i j hi hj hij heq
  simp only [proofs, named, List.getElem_map, List.getElem_zip] at heq
  have hsymbols := String.singleton_inj.mp heq
  exact Nat.ne_of_lt hij (nodup_symbols.getElem_inj_iff.mp hsymbols)

/-- The place of a character is where it stands in the list of names, `symbols`. -/
theorem idxOf?_symbols {symbol : Char} {i : Nat} :
    symbols.idxOf? symbol = some i ↔ symbols[i]? = some symbol := by
  rw [List.idxOf?_eq_some_iff, List.getElem?_eq_some_iff]
  constructor
  · rintro ⟨hlt, heq, -⟩
    exact ⟨hlt, heq⟩
  · rintro ⟨hlt, rfl⟩
    refine ⟨hlt, rfl, fun j hj heq => ?_⟩
    exact Nat.ne_of_lt hj (nodup_symbols.getElem_inj_iff.mp heq)

/-- A character names the axiom at its place: `named` lists the pairs that `formula?` knows. Both go
by the place of the character among the `symbols`. -/
theorem mem_named_iff {symbol : Char} {f : Formula} :
    (symbol, f) ∈ basis.named ↔ basis.formula? symbol = some f := by
  rw [named, List.mem_iff_getElem?, formula?, Option.bind_eq_some_iff]
  refine exists_congr fun i => ?_
  rw [List.getElem?_zip_eq_some, ← idxOf?_symbols]
  refine and_congr_left fun hf => ?_
  have hlt : i < basis.size := (List.getElem?_eq_some_iff.mp hf).1
  rw [indexOf?]
  cases symbols.idxOf? symbol with
  | none => simp
  | some j =>
    simp only [Option.some.injEq, Option.ite_none_right_eq_some]
    exact ⟨fun h => ⟨h ▸ hlt, h⟩, fun h => h.2⟩

/-- The proofs that consist of one axiom (`proofs`) are the codes of leaves. -/
theorem mem_proofs_iff :
    proof ∈ basis.proofs ↔ ∃ name : basis.Name, (ProofTree.leaf name).text = proof := by
  rw [proofs, List.mem_map]
  constructor
  · rintro ⟨⟨symbol, f⟩, hmem, rfl⟩
    have hname := mem_named_iff.mp hmem
    exact ⟨⟨symbol, by rw [hname]; rfl⟩, rfl⟩
  · rintro ⟨name, rfl⟩
    exact ⟨(name.1, basis.axiomOf name), mem_named_iff.mpr (formula?_name name), rfl⟩

end Basis

/-- The proofs that consist of one axiom have length one, that of a leaf. -/
theorem Basis.length_of_mem_proofs {basis : Basis} {proof : String} (h : proof ∈ basis.proofs) :
    Proof.length proof = 1 := by
  obtain ⟨name, rfl⟩ := mem_proofs_iff.mp h
  exact ProofTree.length_text _

/-- The axioms are the only proofs in the table that is made from them (`ofBasis`). -/
theorem Representatives.row_ofBasis (basis : Basis) (length : Nat) :
    (ofBasis basis).row length = if length = 1 then basis.proofs.mergeSort Proof.le else [] :=
  row_publish fun _ => Basis.length_of_mem_proofs

/-- The table of the axioms (`ofBasis`) reaches to length one. -/
theorem Representatives.knownLimit_ofBasis (basis : Basis) : (ofBasis basis).knownLimit = 1 :=
  knownLimit_publish (t := empty) fun _ => Basis.length_of_mem_proofs

end Detachment
