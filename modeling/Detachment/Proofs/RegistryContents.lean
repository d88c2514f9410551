import Mathlib.Data.List.Nodup
import Detachment.Proofs.PrefixNotation
import Detachment.Registry

/-! # Contents of a registry

A registry keeps the best proof of each conclusion that it was offered.

* `Proof.le` prefers short proofs: `Proof.length_le_of_le`.
* `Registry.get?_insert`, `Registry.get?_eraseAll` and `Registry.mem_withLengths` describe the
  entries after each operation.
* `Registry.Sound` says that every entry holds a proof of the conclusion that its key stands for.
* `Registry.foldl_consider` says what a registry holds after it was offered some proofs. -/

namespace Detachment

/-! ## The order of proofs -/

namespace Proof

variable {a b c : String}

instance : Std.TransCmp order :=
  inferInstanceAs (Std.TransCmp (compareLex (compareOn length) compare))

/-- Every proof is as good as itself. -/
theorem le_refl (a : String) : le a a := by
  have hself : order a a = .eq := Std.ReflCmp.compare_self
  rw [le, hself]
  rfl

/-- The order of proofs is transitive. -/
theorem le_trans (hab : le a b) (hbc : le b c) : le a c := by
  rw [le] at hab hbc ⊢
  exact Std.TransCmp.isLE_trans hab hbc

/-- Only equal proofs are as good as each other. -/
theorem le_antisymm (hab : le a b) (hba : le b a) : a = b := by
  rw [le] at hab hba
  have heq : order a b = .eq := Std.OrientedCmp.isLE_antisymm hab hba
  exact Std.LawfulEqCmp.compare_eq_iff_eq.mp (Ordering.then_eq_eq.mp heq).2

/-- A proof that is not better than another (`order`) does not come before it. -/
theorem le_of_order_ne_lt (h : order a b ≠ .lt) : le b a := by
  have hswap : order b a = (order a b).swap := Std.OrientedCmp.eq_swap
  rw [le, hswap]
  cases horder : order a b with
  | lt => exact absurd horder h
  | eq => rfl
  | gt => rfl

/-- Of two proofs, one is as good as the other. -/
theorem le_total (a b : String) : le a b || le b a := by
  rw [Bool.or_eq_true]
  by_cases hlt : order a b = .lt
  · exact .inl (by rw [le, hlt]; rfl)
  · exact .inr (le_of_order_ne_lt hlt)

/-- A proof that does not come after another (`le`) is not longer: `order` compares lengths
first. -/
theorem length_le_of_le (h : le a b) : length a ≤ length b := by
  by_contra hlt
  have hgt : compare (length a) (length b) = .gt := Nat.compare_eq_gt.mpr (Nat.not_le.mp hlt)
  rw [le, order, hgt] at h
  cases h

end Proof

namespace Registry

variable {r : Registry} {key proof : String} {conclusion : Formula} {e : Entry}

/-! ## Single operations -/

/-- An empty registry has no entries. -/
@[simp] theorem get?_empty (key : String) : empty.get? key = none :=
  Std.ExtTreeMap.getElem?_empty

/-- Registries with the same entries (`get?`) are equal. -/
theorem ext_get? {r r' : Registry}
    (h : ∀ key e, r.get? key = some e ↔ r'.get? key = some e) : r = r' := by
  obtain ⟨entries⟩ := r
  obtain ⟨entries'⟩ := r'
  exact congrArg Registry.mk (Std.ExtTreeMap.ext_getElem? fun key => Option.ext (h key))

/-- The better of two proofs, with the conclusion that was registered first. -/
def best (new : Entry) : Option Entry → Entry
  | none => new
  | some old =>
    if Proof.order new.proof old.proof = .lt then { old with proof := new.proof } else old

/-- An offer `insert` changes at most the entry of its key, which becomes the `best` of the two.
Where the old entry is kept, nothing changes at all. -/
theorem get?_insert (r : Registry) (key proof : String) (conclusion : Formula) (other : String) :
    (r.insert key proof conclusion).2.get? other =
      if other = key then some (best ⟨proof, conclusion⟩ (r.get? key)) else r.get? other := by
  have hinsert : ∀ entry : Entry, (⟨r.entries.insert key entry⟩ : Registry).get? other =
      if other = key then some entry else r.get? other := by
    intro entry
    rw [get?, Std.ExtTreeMap.getElem?_insert, get?]
    simp only [Std.LawfulEqCmp.compare_eq_iff_eq]
    exact if_congr eq_comm rfl rfl
  rw [insert]
  cases hold : r.get? key with
  | none => exact hinsert _
  | some old =>
    dsimp only [best]
    split
    · exact hinsert _
    · split
      · next heq => rw [heq, hold]
      · rfl

/-- Erasing keys (`eraseAll`) leaves the other entries as they are. By induction on the keys, which
are erased one after the other. -/
theorem get?_eraseAll (r : Registry) (keys : List String) (key : String) :
    (r.eraseAll keys).get? key = if key ∈ keys then none else r.get? key := by
  induction keys generalizing r with
  | nil => simp [eraseAll]
  | cons first keys ih =>
    have herase : (⟨r.entries.erase first⟩ : Registry).get? key =
        if key = first then none else r.get? key := by
      rw [get?, Std.ExtTreeMap.getElem?_erase, get?]
      simp only [Std.LawfulEqCmp.compare_eq_iff_eq]
      exact if_congr eq_comm rfl rfl
    rw [eraseAll, List.foldl_cons, ← eraseAll, ih, herase]
    by_cases hfirst : key = first
    · simp [hfirst]
    · simp [hfirst]

/-- The listing `toList` of a registry has all its entries. -/
theorem mem_toList : (key, e) ∈ r.toList ↔ r.get? key = some e := by
  rw [toList, List.mem_mergeSort, Std.ExtTreeMap.mem_toList_iff_getElem?_eq_some, get?]

/-- The listing `withLengths` of some lengths has the entries whose proofs have them. -/
theorem mem_withLengths {lengths : List Nat} :
    (key, e) ∈ r.withLengths lengths ↔
      r.get? key = some e ∧ Proof.length e.proof ∈ lengths := by
  rw [withLengths, List.mem_mergeSort, List.mem_filter,
    Std.ExtTreeMap.mem_toList_iff_getElem?_eq_some, get?, decide_eq_true_eq]

/-- No entry is listed twice in `withLengths`. -/
theorem nodup_withLengths (r : Registry) (lengths : List Nat) : (r.withLengths lengths).Nodup := by
  rw [withLengths, (List.mergeSort_perm _ _).nodup_iff]
  refine List.Nodup.filter _ ?_
  have hdistinct := Std.ExtTreeMap.distinct_keys_toList (t := r.entries)
  refine hdistinct.imp ?_
  rintro a b hne rfl
  exact hne Std.ReflCmp.compare_self

/-! ## Sound registries -/

/-- Every entry holds a proof of its conclusion, and its key is the notation of the conclusion. -/
def Sound (basis : Basis) (r : Registry) : Prop :=
  ∀ key e, r.get? key = some e →
    e.conclusion.polish = key ∧ Proof.conclusion basis e.proof = .ok e.conclusion

variable {basis : Basis}

/-- There is nothing unsound in an empty registry, as it has no entries. -/
theorem sound_empty (basis : Basis) : Sound basis empty := by
  intro key e h
  rw [get?_empty] at h
  cases h

/-- An entry of a `Sound` registry is known by its proof: the proof has one conclusion, and this one
key. -/
theorem Sound.key_eq (h : r.Sound basis) {key' : String} {e' : Entry} (he : r.get? key = some e)
    (he' : r.get? key' = some e') (hproof : e.proof = e'.proof) : key = key' := by
  obtain ⟨hkey, hconclusion⟩ := h key e he
  obtain ⟨hkey', hconclusion'⟩ := h key' e' he'
  rw [hproof, hconclusion'] at hconclusion
  rw [← hkey, ← hkey', Except.ok.inj hconclusion]

/-- The entries of some lengths are listed in the order of their proofs, `Proof.le`. -/
theorem pairwise_withLengths (r : Registry) (lengths : List Nat) :
    (r.withLengths lengths).Pairwise fun a b => Proof.le a.2.proof b.2.proof := by
  have htrans : ∀ a b c : String × Entry, Proof.le a.2.proof b.2.proof →
      Proof.le b.2.proof c.2.proof → Proof.le a.2.proof c.2.proof :=
    fun _ _ _ => Proof.le_trans
  exact List.pairwise_mergeSort htrans (fun a b => Proof.le_total a.2.proof b.2.proof) _

/-- The listing `withLengths` is the only one of these entries in the order of the proofs, as no two
entries have the same proof. -/
theorem Sound.eq_withLengths (h : r.Sound basis) {lengths : List Nat}
    {entries : List (String × Entry)} (hnodup : entries.Nodup)
    (hsorted : entries.Pairwise fun a b => Proof.le a.2.proof b.2.proof)
    (hmem : ∀ x, x ∈ entries ↔ x ∈ r.withLengths lengths) : entries = r.withLengths lengths := by
  have hperm := (List.perm_ext_iff_of_nodup hnodup (r.nodup_withLengths lengths)).mpr hmem
  refine hperm.eq_of_pairwise ?_ hsorted (r.pairwise_withLengths lengths)
  -- Entries that could change places have the same proof, and so the same key.
  rintro ⟨key, e⟩ ⟨key', e'⟩ hentry hentry' hle hle'
  have he := (mem_withLengths.mp ((hmem _).mp hentry)).1
  have he' := (mem_withLengths.mp hentry').1
  obtain rfl := h.key_eq he he' (Proof.le_antisymm hle hle')
  rw [Option.some.inj (he.symm.trans he')]

/-- The `best` of two proofs does not come after either. -/
theorem best_le (new : Entry) (old : Option Entry) :
    Proof.le (best new old).proof new.proof ∧
      ∀ e, old = some e → Proof.le (best new old).proof e.proof := by
  cases old with
  | none => exact ⟨Proof.le_refl _, fun e he => by cases he⟩
  | some old =>
    rw [best]
    split
    · next hlt =>
      refine ⟨Proof.le_refl _, fun e he => ?_⟩
      obtain rfl := Option.some.inj he
      show (Proof.order new.proof old.proof).isLE = true
      rw [hlt]
      rfl
    · next hlt =>
      refine ⟨Proof.le_of_order_ne_lt hlt, fun e he => ?_⟩
      obtain rfl := Option.some.inj he
      exact Proof.le_refl _

/-- The `best` of two proofs of the same conclusion is one of the two entries. -/
theorem best_eq_or (new : Entry) {old : Option Entry}
    (h : ∀ e, old = some e → e.conclusion = new.conclusion) :
    best new old = new ∨ old = some (best new old) := by
  cases old with
  | none => exact .inl rfl
  | some old =>
    rw [best]
    split
    · exact .inl (by rw [h old rfl])
    · exact .inr rfl

/-- What the registry `r` became after it was offered some proofs: it is `r'`. -/
structure Absorbs (basis : Basis) (r : Registry) (proofs : List String) (r' : Registry) : Prop where
  /-- It is sound. -/
  sound : r'.Sound basis
  /-- No key is lost, and no proof is replaced by a worse one. -/
  keeps : ∀ key e, r.get? key = some e →
    ∃ e', r'.get? key = some e' ∧ Proof.le e'.proof e.proof
  /-- Every conclusion that was proved is there, with a proof at least as good. -/
  accepts : ∀ proof ∈ proofs, ∀ c, Proof.conclusion basis proof = .ok c →
    ∃ e, r'.get? c.polish = some e ∧ Proof.le e.proof proof
  /-- Every entry was there before or comes from what was offered. -/
  origin : ∀ key e, r'.get? key = some e → r.get? key = some e ∨ e.proof ∈ proofs

/-- Offer a proof with its own conclusion, if it has one, under the notation of the conclusion. -/
def consider (basis : Basis) (r : Registry) (proof : String) : Registry :=
  match Proof.conclusion basis proof with
  | .ok conclusion => (r.insert conclusion.polish proof conclusion).2
  | .error _ => r

/-- The step lemma: a `Sound` registry `Absorbs` one proof that is considered. A proof without a
conclusion changes nothing, and others are offered under their key. -/
theorem consider_absorbs (h : r.Sound basis) (proof : String) :
    Absorbs basis r [proof] (r.consider basis proof) := by
  rw [consider]
  cases hconclusion : Proof.conclusion basis proof with
  | error fault =>
    refine ⟨h, fun key e he => ⟨e, he, Proof.le_refl _⟩, fun p hp c hc => ?_,
      fun key e he => .inl he⟩
    rw [List.mem_singleton.mp hp, hconclusion] at hc
    cases hc
  | ok c =>
    -- Entries with the key of the conclusion have this very conclusion.
    have hsame : ∀ e, r.get? c.polish = some e → e.conclusion = c :=
      fun e he => Formula.polish_inj (h _ e he).1
    have hle := best_le ⟨proof, c⟩ (r.get? c.polish)
    have hor := best_eq_or ⟨proof, c⟩ hsame
    have hself : (r.insert c.polish proof c).2.get? c.polish =
        some (best ⟨proof, c⟩ (r.get? c.polish)) := by
      rw [get?_insert, if_pos rfl]
    have hother : ∀ {key}, key ≠ c.polish →
        (r.insert c.polish proof c).2.get? key = r.get? key := fun hne => by
      rw [get?_insert, if_neg hne]
    refine ⟨fun key e he => ?_, fun key e he => ?_, fun p hp c' hc => ?_, fun key e he => ?_⟩
    · by_cases hkey : key = c.polish
      · rw [hkey, hself] at he
        obtain rfl := Option.some.inj he
        rcases hor with hnew | hold
        · rw [hnew, hkey]
          exact ⟨rfl, hconclusion⟩
        · rw [hkey]
          exact h _ _ hold
      · rw [hother hkey] at he
        exact h key e he
    · by_cases hkey : key = c.polish
      · rw [hkey] at he ⊢
        exact ⟨_, hself, hle.2 e he⟩
      · exact ⟨e, (hother hkey).trans he, Proof.le_refl _⟩
    · rw [List.mem_singleton.mp hp] at hc ⊢
      obtain rfl : c = c' := Except.ok.inj (hconclusion.symm.trans hc)
      exact ⟨_, hself, hle.1⟩
    · by_cases hkey : key = c.polish
      · rw [hkey, hself] at he
        obtain rfl := Option.some.inj he
        rcases hor with hnew | hold
        · rw [hnew]
          exact .inr List.mem_cons_self
        · rw [hkey]
          exact .inl hold
      · exact .inl ((hother hkey).symm.trans he)

/-- The run lemma: a `Sound` registry `Absorbs` proofs that are considered in turn. By induction on
the proofs, with `consider_absorbs` for each of them. -/
theorem foldl_consider (h : r.Sound basis) (proofs : List String) :
    Absorbs basis r proofs (proofs.foldl (consider basis) r) := by
  induction proofs generalizing r with
  | nil =>
    exact ⟨h, fun key e he => ⟨e, he, Proof.le_refl _⟩,
      fun p hp => absurd hp List.not_mem_nil, fun key e he => .inl he⟩
  | cons proof proofs ih =>
    have hfirst := consider_absorbs h proof
    have hrest := ih hfirst.sound
    rw [List.foldl_cons]
    refine ⟨hrest.sound, fun key e he => ?_, fun p hp c hc => ?_, fun key e he => ?_⟩
    · obtain ⟨e₁, he₁, hle₁⟩ := hfirst.keeps key e he
      obtain ⟨e₂, he₂, hle₂⟩ := hrest.keeps key e₁ he₁
      exact ⟨e₂, he₂, Proof.le_trans hle₂ hle₁⟩
    · rcases List.mem_cons.mp hp with rfl | hp
      · obtain ⟨e₁, he₁, hle₁⟩ := hfirst.accepts p List.mem_cons_self c hc
        obtain ⟨e₂, he₂, hle₂⟩ := hrest.keeps _ e₁ he₁
        exact ⟨e₂, he₂, Proof.le_trans hle₂ hle₁⟩
      · exact hrest.accepts p hp c hc
    · rcases hrest.origin key e he with he₁ | hmem
      · rcases hfirst.origin key e he₁ with he₀ | hproof
        · exact .inl he₀
        · exact .inr (List.mem_cons.mpr (.inl (List.mem_singleton.mp hproof)))
      · exact .inr (List.mem_cons_of_mem _ hmem)

end Registry

end Detachment
