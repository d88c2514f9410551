import Mathlib.Data.List.GetD
import Detachment.Collection.Resume
import Detachment.Proofs.Agreement
import Detachment.Proofs.StoreFolder
import Detachment.Proofs.Survivors

/-! # Restoring a collection

A collection is restored length by length from its representatives. What was restored up to a length
is the part of the collection up to that length, although the registry came about in another way.

* `Collection.UpTo` says that a collection is the part of another one up to a length.
* `Collection.Leads.upTo` says that the collection that rounds start from is such a part, and
  `Collection.UpTo.takeOver` that the stored proofs of the next length make a larger one.
* `Collection.UpTo.agree` says that the part up to the known limit is all. -/

namespace Detachment

/-! ## Tables -/

namespace Representatives

variable {t t' : Representatives} {length : Nat}

/-- Publishing adds no axioms. -/
theorem symbols_publish (t : Representatives) (length : Nat) (proofs : List String) :
    (t.publish length proofs).symbols = t.symbols := by
  rw [publish, publish?]
  split <;> rfl

/-- Publishing several lengths adds no axioms. -/
theorem symbols_foldl_publish (proofs : Nat → List String) (lengths : List Nat)
    (t : Representatives) :
    (lengths.foldl (fun t length => t.publish length (proofs length)) t).symbols = t.symbols := by
  induction lengths generalizing t with
  | nil => rfl
  | cons length lengths ih => rw [List.foldl_cons, ih, symbols_publish]

/-- There are no proofs beyond the `knownLimit` of a table. -/
theorem row_of_knownLimit_lt (h : t.knownLimit < length) : t.row length = [] := by
  rw [knownLimit] at h
  exact List.getD_eq_default _ _ (by omega)

/-- Tables that reach beyond length zero are known by their rows, their `knownLimit` and their
symbols. -/
theorem ext_row (hpos : 0 < t.knownLimit) (hlimit : t'.knownLimit = t.knownLimit)
    (hrow : ∀ length, t'.row length = t.row length) (hsymbols : t'.symbols = t.symbols) : t' = t := by
  obtain ⟨rows, symbols⟩ := t
  obtain ⟨rows', symbols'⟩ := t'
  obtain rfl : symbols' = symbols := hsymbols
  dsimp only [knownLimit] at hpos hlimit
  congr 1
  refine List.ext_getElem (by omega) fun i hi hi' => ?_
  have hsame := hrow i
  rwa [row, row, List.getD_eq_getElem _ _ hi, List.getD_eq_getElem _ _ hi'] at hsame

end Representatives

/-- Registering an entry (`insert`) adds it, if nothing else is registered under its key. If the
same entry is registered already, `best` keeps it. -/
theorem Registry.get?_insert_iff {r : Registry} {key key' : String} {e e' : Entry}
    (h : ∀ old, r.get? key = some old → old = e) :
    (r.insert key e.proof e.conclusion).2.get? key' = some e' ↔
      r.get? key' = some e' ∨ (key', e') = (key, e) := by
  -- An entry is not better than itself, so that it stays.
  have hbest : Registry.best ⟨e.proof, e.conclusion⟩ (r.get? key) = e := by
    cases hold : r.get? key with
    | none => rfl
    | some old =>
      obtain rfl := h old hold
      have hself : ¬Proof.order old.proof old.proof = .lt := by
        rw [show Proof.order old.proof old.proof = .eq from Std.ReflCmp.compare_self]
        exact nofun
      exact if_neg hself
  rw [Registry.get?_insert, hbest, Prod.mk.injEq]
  split
  · next heq =>
    subst heq
    constructor
    · intro hsome
      exact .inr ⟨rfl, (Option.some.inj hsome).symm⟩
    · rintro (hold | ⟨-, rfl⟩)
      · rw [h _ hold]
      · rfl
  · next hne => exact ⟨.inl, fun hor => hor.resolve_right fun hpair => hne hpair.1⟩

namespace Collection

variable {basis : Basis} {c d : Collection} {lengths : List Nat} {rounds : List (List Nat)}
  {limit length : Nat} {key : String} {e : Entry}

/-! ## Registered proofs as they are stored -/

/-- Representatives of a `Consistent` collection can be written to a file (`Store.Writable`): codes
have no colons and no line breaks. -/
theorem Consistent.writable (h : c.Consistent) {entry : String × Formula}
    (hentry : entry ∈ c.representatives length) : Store.Writable length entry.1 := by
  obtain ⟨⟨key, e⟩, hmem, rfl⟩ := List.mem_map.mp hentry
  obtain ⟨he, hlength⟩ := Registry.mem_withLengths.mp hmem
  obtain ⟨t, ht, -⟩ := h.exists_tree he
  have hcolon : ':' ∉ Basis.symbols := by decide
  have hname : ∀ name : c.basis.Name, name.1 ∈ Basis.symbols :=
    fun name => Basis.mem_symbols_of_formula? name.2
  dsimp only
  rw [← ht]
  constructor
  · rw [ht]
    exact List.mem_singleton.mp hlength
  · rw [ProofTree.toList_text]
    exact t.symbols_forall (fun name => Basis.isLine_symbols name.1 (hname name)) (by decide) (by decide)
  · rw [ProofTree.toList_text]
    exact fun hmem => t.symbols_forall (P := (· ≠ ':')) (fun name heq => hcolon (heq ▸ hname name))
      (by decide) (by decide) ':' hmem rfl

/-- What is stored of a registered proof (`Store.stored`) proves its conclusion again, with the
conclusion written beside it or without. -/
theorem Consistent.restore (h : c.Consistent) (he : c.registry.get? key = some e)
    (withConclusions : Bool) :
    Collection.restore c.basis (Store.stored withConclusions (e.proof, e.conclusion)) =
      .ok e.conclusion := by
  have hconclusion := (h.sound key e he).2
  rw [Collection.restore, Store.stored]
  dsimp only
  rw [hconclusion]
  dsimp only
  split
  · rfl
  · next recorded hrecorded =>
    obtain rfl : e.conclusion = recorded := by
      cases withConclusions with
      | false => cases hrecorded
      | true => exact Option.some.inj hrecorded
    rw [Proof.canonical_conclusion hconclusion, if_pos rfl]

/-- Restoring registered proofs (`restoreAll`) adds their entries, and changes none. By induction on
the entries, with the registry a part of the collection's throughout. -/
theorem Consistent.restoreAll (h : c.Consistent) {entries : List (String × Entry)}
    (hentries : ∀ x ∈ entries, c.registry.get? x.1 = some x.2) (withConclusions : Bool)
    {r : Registry} (hr : ∀ key e, r.get? key = some e → c.registry.get? key = some e) :
    ∃ r', Collection.restoreAll c.basis r (entries.map fun x =>
        Store.stored withConclusions (x.2.proof, x.2.conclusion)) = .ok r' ∧
      ∀ key e, r'.get? key = some e ↔ r.get? key = some e ∨ (key, e) ∈ entries := by
  induction entries generalizing r with
  | nil => exact ⟨r, rfl, by simp⟩
  | cons x entries ih =>
    obtain ⟨key, e⟩ := x
    obtain ⟨he, hrest⟩ := List.forall_mem_cons.mp hentries
    dsimp only at he
    have hkey : e.conclusion.polish = key := (h.sound key e he).1
    -- What is registered under the key already is the same entry.
    have hinsert : ∀ key' e', (r.insert key e.proof e.conclusion).2.get? key' = some e' ↔
        r.get? key' = some e' ∨ (key', e') = (key, e) := fun key' e' =>
      Registry.get?_insert_iff fun old hold => Option.some.inj ((hr key old hold).symm.trans he)
    have hr' : ∀ key' e', (r.insert key e.proof e.conclusion).2.get? key' = some e' →
        c.registry.get? key' = some e' := by
      intro key' e' hnew
      rcases (hinsert key' e').mp hnew with hold | hpair
      · exact hr key' e' hold
      · obtain ⟨rfl, rfl⟩ := Prod.mk.inj hpair
        exact he
    obtain ⟨r', hok, hget⟩ := ih hrest hr'
    refine ⟨r', ?_, fun key' e' => ?_⟩
    · rw [List.map_cons, Collection.restoreAll, h.restore he]
      dsimp only [Store.stored]
      rw [hkey]
      exact hok
    · rw [hget, hinsert, List.mem_cons, or_assoc]

/-! ## Parts of a collection -/

/-- The collection `d` is the part of `c` up to the length `limit`. -/
structure UpTo (c : Collection) (limit : Nat) (d : Collection) : Prop where
  basis : d.basis = c.basis
  settings : d.settings = c.settings
  symbols : d.table.symbols = c.table.symbols
  knownLimit : d.knownLimit = limit
  row : ∀ length, d.table.row length = if length ≤ limit then c.table.row length else []
  get?_iff : ∀ key e, d.registry.get? key = some e ↔
    c.registry.get? key = some e ∧ Proof.length e.proof ≤ limit

/-- The part up to the known limit is all: the two collections `Agree`. -/
theorem UpTo.agree (h : c.UpTo c.knownLimit d) (hc : c.Consistent) : c.Agree d := by
  refine ⟨h.basis, congrArg _ h.settings, ?_, Registry.ext_get? fun key e => ?_⟩
  · refine Representatives.ext_row hc.one_le h.knownLimit (fun length => ?_) h.symbols
    rw [h.row]
    split
    · rfl
    · next hlt => exact (Representatives.row_of_knownLimit_lt (Nat.not_le.mp hlt)).symm
  · rw [h.get?_iff]
    exact and_iff_left_of_imp (hc.length_le key e)

/-- Rounds add no axioms to the table. -/
theorem Leads.symbols_eq (hleads : c.Leads rounds d) : d.table.symbols = c.table.symbols := by
  induction hleads with
  | done c => rfl
  | next _ _ ih =>
    rw [ih, table_round]
    exact Representatives.symbols_foldl_publish _ _ _

/-- What rounds start from is a part (`UpTo`) of what they lead to, up to the lengths known
before. -/
theorem Leads.upTo (hleads : c.Leads rounds d) (h : c.Consistent) : d.UpTo c.knownLimit c where
  basis := hleads.basis_eq.symm
  settings := hleads.settings_eq.symm
  symbols := hleads.symbols_eq.symm
  knownLimit := rfl
  row length := by
    split
    · next hle => exact (hleads.row_eq h hle).symm
    · next hlt => exact Representatives.row_of_knownLimit_lt (Nat.not_le.mp hlt)
  get?_iff key e := by
    constructor
    · intro he
      exact ⟨hleads.get?_of_get? h he, h.length_le key e he⟩
    · rintro ⟨he, hle⟩
      exact (hleads.get?_iff h hle).mp he

/-- The stored representatives of the next length make a part larger (`takeOver`): there are no
representatives between `limit` and `length`. -/
theorem UpTo.takeOver (h : c.UpTo limit d) (hc : c.Consistent) (hlt : limit < length)
    (hbetween : ∀ other, limit < other → other < length → c.registry.withLengths [other] = [])
    (metadata : Option Metadata) (withConclusions : Bool) :
    ∃ d', d.takeOver metadata length
        ((c.representatives length).map (Store.stored withConclusions)) = .ok d' ∧
      c.UpTo length d' := by
  have hentries : ∀ x ∈ c.registry.withLengths [length], c.registry.get? x.1 = some x.2 :=
    fun x hx => (Registry.mem_withLengths.mp hx).1
  obtain ⟨r, hrestore, hget⟩ := hc.restoreAll hentries withConclusions
    (r := d.registry) fun key e he => ((h.get?_iff key e).mp he).1
  have hstored : (c.representatives length).map (Store.stored withConclusions) =
      (c.registry.withLengths [length]).map fun x =>
        Store.stored withConclusions (x.2.proof, x.2.conclusion) := List.map_map
  have hproofs : ((c.representatives length).map (Store.stored withConclusions)).map (·.proof) =
      proofsOf (c.registry.withLengths [length]) := by
    rw [hstored, List.map_map]
    rfl
  have hlengths : ∀ p ∈ proofsOf (c.registry.withLengths [length]), Proof.length p = length :=
    fun p => length_of_mem_proofsOf
  rw [← h.basis, ← hstored] at hrestore
  rw [Collection.takeOver, hrestore, hproofs]
  -- The table gets the row of the collection, and the registry its entries of that length.
  refine ⟨_, rfl, h.basis, h.settings, ?_, ?_, fun other => ?_, fun key e => ?_⟩
  · rw [Representatives.symbols_publish, h.symbols]
  · have hlimit : (d.table.publish length (proofsOf (c.registry.withLengths [length]))).knownLimit =
        max d.knownLimit length := Representatives.knownLimit_publish hlengths
    rw [h.knownLimit] at hlimit
    exact hlimit.trans (Nat.max_eq_right (Nat.le_of_lt hlt))
  · rw [Representatives.row_publish hlengths, mergeSort_proofsOf, h.row]
    by_cases heq : other = length
    · subst heq
      rw [if_pos rfl, if_pos (Nat.le_refl _), hc.row_eq]
    · rw [if_neg heq]
      by_cases hle : other ≤ limit
      · rw [if_pos hle, if_pos (by omega)]
      · rw [if_neg hle]
        split
        · -- Between the two lengths there is nothing.
          rw [hc.row_eq, hbetween other (by omega) (by omega)]
          rfl
        · rfl
  · rw [hget, h.get?_iff, Registry.mem_withLengths, List.mem_singleton, ← and_or_left]
    refine and_congr_right fun he => ⟨fun hor => by omega, fun hle => ?_⟩
    -- An entry between the two lengths would be one of none.
    by_contra hnot
    obtain ⟨hbeyond, hne⟩ := not_or.mp hnot
    have hmem := Registry.mem_withLengths.mpr ⟨he, List.mem_singleton_self (Proof.length e.proof)⟩
    rw [hbetween _ (by omega) (by omega)] at hmem
    cases hmem

end Collection

end Detachment
