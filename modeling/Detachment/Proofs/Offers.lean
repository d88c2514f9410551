import Detachment.Proofs.RegistryContents

/-! # Offers in any order

A registry that is offered proofs keeps the best one of each conclusion, and tells of every offer
which proof lost by it. Who wins at first depends on the order of the offers, but not who is left in
the end, nor how long the proofs are that have lost.

* `Registry.Keeps` says that a registry holds the best of some proofs under a key. Offers
  (`Registry.Keeps.insert`, `Registry.Keeps.foldl_consider`) make it hold the best of more proofs,
  and erasing (`Registry.Keeps.eraseAll`) of none.
* `Registry.lost_insert_perm` says that an offer adds one proof to those that are registered or have
  lost.
* `Registry.insertAll_perm` says what does not depend on the order of offers. -/

namespace Detachment

open scoped List

/-! ## The best of some proofs -/

namespace Proof

/-- The proof is one of those in `among` and comes before all others by `Proof.le`. -/
def IsBest (among : String → Prop) (proof : String) : Prop :=
  among proof ∧ ∀ other, among other → le proof other

/-- There is one best proof at most, as `le` is antisymmetric. -/
theorem IsBest.unique {among : String → Prop} {a b : String} (ha : IsBest among a)
    (hb : IsBest among b) : a = b :=
  le_antisymm (ha.2 b hb.1) (hb.2 a ha.1)

/-- The proof has a conclusion, and `key` is the notation of it. -/
def HasKey (basis : Basis) (key proof : String) : Prop :=
  ∃ c, conclusion basis proof = .ok c ∧ c.polish = key

end Proof

namespace Registry

variable {r r' : Registry} {basis : Basis} {key : String} {among : String → Prop} {e : Entry}

/-- The registry holds the best (`Proof.IsBest`) of the proofs in `among` under a key, and nothing
if there are none. -/
structure Keeps (r : Registry) (key : String) (among : String → Prop) : Prop where
  /-- What is registered is the best of the proofs. -/
  best : ∀ e, r.get? key = some e → Proof.IsBest among e.proof
  /-- Where nothing is registered there are no proofs. -/
  absent : r.get? key = none → ∀ proof, ¬among proof

/-- Which proofs there are is all that counts. -/
theorem Keeps.congr {among' : String → Prop} (h : r.Keeps key among)
    (hiff : ∀ proof, among proof ↔ among' proof) : r.Keeps key among' := by
  obtain rfl : among = among' := funext fun proof => propext (hiff proof)
  exact h

/-- Registries that keep the best of the same proofs hold the same proof, by `IsBest.unique`. -/
theorem Keeps.map_proof_eq (h : r.Keeps key among) (h' : r'.Keeps key among) :
    (r.get? key).map (·.proof) = (r'.get? key).map (·.proof) := by
  cases he : r.get? key with
  | none =>
    cases he' : r'.get? key with
    | none => rfl
    | some e' => exact absurd (h'.best e' he').1 (h.absent he _)
  | some e =>
    cases he' : r'.get? key with
    | none => exact absurd (h.best e he).1 (h'.absent he' _)
    | some e' => exact congrArg some ((h.best e he).unique (h'.best e' he'))

/-- The empty registry keeps the best of no proofs. -/
theorem keeps_empty (key : String) : empty.Keeps key fun _ => False :=
  ⟨fun e he => by simp at he, fun _ _ h => h⟩

/-- A registry keeps the best of what it holds, which is one proof at most. -/
theorem keeps_self (r : Registry) (key : String) :
    r.Keeps key fun proof => ∃ e, r.get? key = some e ∧ e.proof = proof := by
  constructor
  · rintro e he
    refine ⟨⟨e, he, rfl⟩, ?_⟩
    rintro _ ⟨e', he', rfl⟩
    rw [Option.some.inj (he.symm.trans he')]
    exact Proof.le_refl _
  · rintro hnone proof ⟨e, he, -⟩
    rw [hnone] at he
    cases he

/-- The `best` of two entries has the proof of one of them. -/
theorem proof_best (new : Entry) (old : Option Entry) :
    (best new old).proof = new.proof ∨ ∃ e, old = some e ∧ (best new old).proof = e.proof := by
  cases old with
  | none => exact .inl rfl
  | some old =>
    rw [best]
    split
    · exact .inl rfl
    · exact .inr ⟨old, rfl, rfl⟩

/-- The step lemma: an offer `insert` is one proof more under its key, and leaves the other keys
alone. -/
theorem Keeps.insert (h : r.Keeps key among) (other proof : String) (conclusion : Formula) :
    (r.insert other proof conclusion).2.Keeps key
      fun p => among p ∨ other = key ∧ p = proof := by
  by_cases hkey : key = other
  · subst hkey
    have hget : (r.insert key proof conclusion).2.get? key =
        some (Registry.best ⟨proof, conclusion⟩ (r.get? key)) := by
      rw [get?_insert, if_pos rfl]
    obtain ⟨hnew, hold⟩ := best_le ⟨proof, conclusion⟩ (r.get? key)
    refine ⟨fun e he => ?_, fun hnone => by simp [hget] at hnone⟩
    obtain rfl := Option.some.inj (hget.symm.trans he)
    refine ⟨?_, ?_⟩
    · rcases proof_best ⟨proof, conclusion⟩ (r.get? key) with hproof | ⟨e, he, hproof⟩
      · exact .inr ⟨rfl, hproof⟩
      · rw [hproof]
        exact .inl (h.best e he).1
    · rintro p (hp | ⟨-, rfl⟩)
      · -- The old entry comes before all old proofs, and the best one before that.
        cases he : r.get? key with
        | none => exact absurd hp (h.absent he p)
        | some e =>
          rw [← he]
          exact Proof.le_trans (hold e he) ((h.best e he).2 p hp)
      · exact hnew
  · have hget : (r.insert other proof conclusion).2.get? key = r.get? key := by
      rw [get?_insert, if_neg hkey]
    have hsame : (r.insert other proof conclusion).2.Keeps key among :=
      ⟨fun e he => h.best e (hget ▸ he), fun hnone => h.absent (hget ▸ hnone)⟩
    exact hsame.congr fun p =>
      ⟨.inl, fun hor => hor.resolve_right fun hnew => hkey hnew.1.symm⟩

/-- A proof that is considered (`consider`) is one more under the key of its conclusion, if it has
one. -/
theorem Keeps.consider (h : r.Keeps key among) (basis : Basis) (proof : String) :
    (r.consider basis proof).Keeps key
      fun p => among p ∨ p = proof ∧ Proof.HasKey basis key p := by
  rw [Registry.consider]
  cases hconclusion : Proof.conclusion basis proof with
  | error fault =>
    refine h.congr fun p => ⟨.inl, fun hor => hor.resolve_right ?_⟩
    rintro ⟨rfl, c, hc, -⟩
    rw [hconclusion] at hc
    cases hc
  | ok c =>
    refine (h.insert c.polish proof c).congr fun p => or_congr_right ⟨?_, ?_⟩
    · rintro ⟨hkey, rfl⟩
      exact ⟨rfl, c, hconclusion, hkey⟩
    · rintro ⟨rfl, c', hc, hkey⟩
      obtain rfl : c = c' := Except.ok.inj (hconclusion.symm.trans hc)
      exact ⟨hkey, rfl⟩

/-- The run lemma for `consider`: proofs in turn are all among those whose best is kept. -/
theorem Keeps.foldl_consider (h : r.Keeps key among) (basis : Basis) (proofs : List String) :
    (proofs.foldl (Registry.consider basis) r).Keeps key
      fun p => among p ∨ p ∈ proofs ∧ Proof.HasKey basis key p := by
  induction proofs generalizing r among with
  | nil => exact h.congr fun p => by simp
  | cons proof proofs ih =>
    refine (ih (h.consider basis proof)).congr fun p => ?_
    rw [or_assoc, ← or_and_right, List.mem_cons]

/-- Nothing is left of erased keys (`eraseAll`), and all of the others. -/
theorem Keeps.eraseAll (h : r.Keeps key among) (keys : List String) :
    (r.eraseAll keys).Keeps key fun p => key ∉ keys ∧ among p := by
  have hget := get?_eraseAll r keys key
  by_cases hkey : key ∈ keys
  · rw [if_pos hkey] at hget
    refine ⟨fun e he => ?_, fun _ p hp => hp.1 hkey⟩
    rw [hget] at he
    cases he
  · rw [if_neg hkey] at hget
    have hsame : (r.eraseAll keys).Keeps key among :=
      ⟨fun e he => h.best e (hget ▸ he), fun hnone => h.absent (hget ▸ hnone)⟩
    exact hsame.congr fun p => (and_iff_right hkey).symm

/-! ## Proofs that have lost -/

/-- No entry is listed twice, as no key is. -/
theorem nodup_toList (r : Registry) : r.toList.Nodup := by
  rw [toList, (List.mergeSort_perm _ _).nodup_iff]
  refine (Std.ExtTreeMap.distinct_keys_toList (t := r.entries)).imp ?_
  rintro a b hne rfl
  exact hne Std.ReflCmp.compare_self

/-- The entries that `eraseAll` leaves and those that were erased are all entries, in some order.
Neither list has repetitions and they share nothing, so it is enough that they have the same
members. -/
theorem toList_eraseAll_perm {entries : List (String × Entry)} (hnodup : entries.Nodup)
    (hentries : ∀ x ∈ entries, r.get? x.1 = some x.2) :
    (r.eraseAll (entries.map (·.1))).toList ++ entries ~ r.toList := by
  have hdisjoint : (r.eraseAll (entries.map (·.1))).toList.Disjoint entries := by
    rintro ⟨key, e⟩ hleft herased
    rw [mem_toList, get?_eraseAll, if_pos (List.mem_map_of_mem herased)] at hleft
    cases hleft
  refine (List.perm_ext_iff_of_nodup ((nodup_toList _).append hnodup hdisjoint)
    (nodup_toList r)).mpr ?_
  rintro ⟨key, e⟩
  rw [List.mem_append, mem_toList, mem_toList, get?_eraseAll]
  constructor
  · rintro (hleft | herased)
    · split at hleft
      · cases hleft
      · exact hleft
    · exact hentries _ herased
  · intro he
    split
    · next hkey =>
      -- The only entry with this key is the one that was erased.
      obtain ⟨⟨key', e'⟩, hmem, rfl⟩ := List.mem_map.mp hkey
      obtain rfl : e = e' := Option.some.inj (he.symm.trans (hentries _ hmem))
      exact .inr hmem
    · exact .inl he

/-- The lengths of all registered proofs, in the order of their keys. -/
def proofLengths (r : Registry) : List Nat :=
  r.toList.map fun x => Proof.length x.2.proof

/-- A registry has as many proofs of a length as `withLengths` lists for it. -/
theorem count_proofLengths (r : Registry) (length : Nat) :
    r.proofLengths.count length = (r.withLengths [length]).length := by
  rw [proofLengths, toList, ((List.mergeSort_perm _ _).map _).count_eq, withLengths,
    List.length_mergeSort, List.count, List.countP_map, List.countP_eq_length_filter]
  refine congrArg List.length (List.filter_congr fun x _ => ?_)
  rw [Bool.eq_iff_iff]
  simp

/-- The lengths of the entries that `eraseAll` leaves and of those that were erased are all
`proofLengths`. -/
theorem proofLengths_eraseAll_perm {entries : List (String × Entry)} (hnodup : entries.Nodup)
    (hentries : ∀ x ∈ entries, r.get? x.1 = some x.2) :
    (r.eraseAll (entries.map (·.1))).proofLengths ++
      entries.map (fun x => Proof.length x.2.proof) ~ r.proofLengths := by
  have hperm := (toList_eraseAll_perm hnodup hentries).map fun x => Proof.length x.2.proof
  rwa [List.map_append] at hperm

/-- A registered proof, and the others: `proofLengths` without its key. -/
theorem proofLengths_perm_cons (he : r.get? key = some e) :
    r.proofLengths ~ Proof.length e.proof :: (r.eraseAll [key]).proofLengths := by
  have hperm := proofLengths_eraseAll_perm (List.nodup_singleton (key, e))
    (fun x hx => by rw [List.mem_singleton.mp hx]; exact he)
  exact hperm.symm.trans List.perm_append_comm

end Registry

/-- The lengths of the proofs that lose by the offer of `proof`: the one that it displaces, or
itself. -/
def Outcome.lost (proof : String) : Outcome → List Nat
  | inserted => []
  | replaced displaced => [displaced]
  | redundant => [Proof.length proof]

namespace Registry

variable {r : Registry} {key : String}

/-- Without the key of an offer, it makes no difference whether the offer was made. -/
theorem eraseAll_insert (r : Registry) (key proof : String) (conclusion : Formula) :
    (r.insert key proof conclusion).2.eraseAll [key] = r.eraseAll [key] := by
  refine ext_get? fun other e => ?_
  rw [get?_eraseAll, get?_eraseAll, get?_insert]
  split
  · rfl
  · next hne => rw [if_neg fun heq => hne (List.mem_singleton.mpr heq)]

/-- Erasing a key that is not registered changes nothing. -/
theorem eraseAll_of_get? (h : r.get? key = none) : r.eraseAll [key] = r := by
  refine ext_get? fun other e => ?_
  rw [get?_eraseAll]
  split
  · next hother => rw [List.mem_singleton.mp hother, h]
  · rfl

/-- The proof that is offered joins those that are registered, and one of them may lose
(`Outcome.lost`): no length is created or destroyed. -/
theorem lost_insert_perm (r : Registry) (key proof : String) (conclusion : Formula) :
    (r.insert key proof conclusion).1.lost proof ++
      (r.insert key proof conclusion).2.proofLengths ~ Proof.length proof :: r.proofLengths := by
  -- Before and after, the lengths are those of the other keys and one for this key.
  have hothers := eraseAll_insert r key proof conclusion
  have hget := get?_insert r key proof conclusion key
  rw [if_pos rfl] at hget
  have hafter := proofLengths_perm_cons hget
  rw [hothers] at hafter
  cases hold : r.get? key with
  | none =>
    rw [hold, eraseAll_of_get? hold] at hafter
    have hinserted : (r.insert key proof conclusion).1 = .inserted := by rw [insert, hold]
    rw [hinserted]
    exact hafter
  | some old =>
    have hbefore := proofLengths_perm_cons hold
    rw [hold, best] at hafter
    by_cases hlt : Proof.order proof old.proof = .lt
    · rw [if_pos hlt] at hafter
      have hreplaced : (r.insert key proof conclusion).1 = .replaced (Proof.length old.proof) := by
        rw [insert, hold]
        exact congrArg Prod.fst (if_pos hlt)
      rw [hreplaced]
      calc Proof.length old.proof :: (r.insert key proof conclusion).2.proofLengths
          ~ Proof.length old.proof :: Proof.length proof :: (r.eraseAll [key]).proofLengths :=
            hafter.cons _
        _ ~ Proof.length proof :: Proof.length old.proof :: (r.eraseAll [key]).proofLengths :=
            .swap _ _ _
        _ ~ Proof.length proof :: r.proofLengths := hbefore.symm.cons _
    · have hredundant : r.insert key proof conclusion = (.redundant, r) := by
        rw [insert, hold]
        exact if_neg hlt
      rw [hredundant]
      exact .refl _

/-! ## Several offers -/

/-- A proof of a conclusion, offered under a key. -/
structure Offer where
  /-- The key. -/
  key : String
  /-- The proof. -/
  proof : String
  /-- The conclusion. -/
  conclusion : Formula
  deriving DecidableEq, Repr

/-- Make offers in turn (`insert`): what became of each of them, and the registry afterwards. -/
def insertAll (r : Registry) : List Offer → List Outcome × Registry
  | [] => ([], r)
  | o :: rest =>
    let first := r.insert o.key o.proof o.conclusion
    let others := first.2.insertAll rest
    (first.1 :: others.1, others.2)

/-- The lengths of the proofs that lose (`Outcome.lost`) by offers in turn. -/
def lostLengths (r : Registry) (offers : List Offer) : List Nat :=
  (offers.zip (r.insertAll offers).1).flatMap fun x => x.2.lost x.1.proof

/-- The first offer is made first. -/
theorem lostLengths_cons (r : Registry) (o : Offer) (rest : List Offer) :
    r.lostLengths (o :: rest) = (r.insert o.key o.proof o.conclusion).1.lost o.proof ++
      (r.insert o.key o.proof o.conclusion).2.lostLengths rest := rfl

/-- The run lemma for `insert`: a registry after some offers keeps the best of what it held and what
was offered. -/
theorem Keeps.insertAll {among : String → Prop} (h : r.Keeps key among) (offers : List Offer) :
    (r.insertAll offers).2.Keeps key
      fun p => among p ∨ ∃ o ∈ offers, o.key = key ∧ o.proof = p := by
  induction offers generalizing r among with
  | nil => exact h.congr fun p => by simp
  | cons o rest ih =>
    refine (ih (h.insert o.key o.proof o.conclusion)).congr fun p => ?_
    rw [or_assoc, List.exists_mem_cons_iff, eq_comm (a := p)]

/-- Every proof that is registered or offered is registered in the end or loses: `lost_insert_perm`
along the offers. -/
theorem lostLengths_perm (r : Registry) (offers : List Offer) :
    r.lostLengths offers ++ (r.insertAll offers).2.proofLengths ~
      offers.map (fun o => Proof.length o.proof) ++ r.proofLengths := by
  induction offers generalizing r with
  | nil => exact .refl _
  | cons o rest ih =>
    rw [lostLengths_cons, List.append_assoc, List.map_cons, List.cons_append]
    let next := (r.insert o.key o.proof o.conclusion).2
    let lost := (r.insert o.key o.proof o.conclusion).1.lost o.proof
    let offered := rest.map fun o => Proof.length o.proof
    calc lost ++ (next.lostLengths rest ++ (next.insertAll rest).2.proofLengths)
        ~ lost ++ (offered ++ next.proofLengths) := (ih next).append_left lost
      _ ~ offered ++ (lost ++ next.proofLengths) := List.perm_append_comm_assoc _ _ _
      _ ~ offered ++ Proof.length o.proof :: r.proofLengths :=
          (lost_insert_perm r o.key o.proof o.conclusion).append_left offered
      _ ~ Proof.length o.proof :: (offered ++ r.proofLengths) := List.perm_middle

/-- Conclusions belong to their keys, as `conclusionOf` says. -/
def Concludes (r : Registry) (conclusionOf : String → Formula) : Prop :=
  ∀ key e, r.get? key = some e → e.conclusion = conclusionOf key

variable {conclusionOf : String → Formula} {offers offers' : List Offer}

/-- An offer with the conclusion of its key keeps `Concludes`. The entry under the key is the new
one or the old one (`best_eq_or`). -/
theorem Concludes.insert (h : r.Concludes conclusionOf) (key proof : String) :
    (r.insert key proof (conclusionOf key)).2.Concludes conclusionOf := by
  intro other e he
  rw [get?_insert] at he
  split at he
  · next hother =>
    obtain rfl := Option.some.inj he
    rw [hother]
    rcases best_eq_or ⟨proof, conclusionOf key⟩ (h key) with hnew | hold
    · rw [hnew]
    · exact h key _ hold
  · exact h other e he

/-- Offers with the conclusions of their keys keep `Concludes`. -/
theorem Concludes.insertAll (h : r.Concludes conclusionOf)
    (hoffers : ∀ o ∈ offers, o.conclusion = conclusionOf o.key) :
    (r.insertAll offers).2.Concludes conclusionOf := by
  induction offers generalizing r with
  | nil => exact h
  | cons o rest ih =>
    obtain ⟨hfirst, hrest⟩ := List.forall_mem_cons.mp hoffers
    have hnext := h.insert o.key o.proof
    rw [← hfirst] at hnext
    exact ih hnext hrest

/-- Registries that both satisfy `Concludes` and keep the best of the same proofs under a key have
the same entry there. -/
theorem Concludes.get?_of_keeps {r' : Registry} (h : r.Concludes conclusionOf)
    (h' : r'.Concludes conclusionOf) (hkeeps : r.Keeps key among) (hkeeps' : r'.Keeps key among)
    (he : r.get? key = some e) : r'.get? key = some e := by
  have hproof := hkeeps.map_proof_eq hkeeps'
  rw [he] at hproof
  obtain ⟨e', he', hsame⟩ := Option.map_eq_some_iff.mp hproof.symm
  rw [he', Option.some.injEq, Entry.mk.injEq]
  exact ⟨hsame, (h' key e' he').trans (h key e he).symm⟩

/-- What is registered in the end does not depend on the order of offers, if every key has one
conclusion (`conclusionOf`). Under each key it is the best of the proof that was registered and
those that were offered (`Keeps`). Nor do the lengths of the proofs that lose (`lostLengths`) depend
on the order. -/
theorem insertAll_perm (hstored : ∀ key e, r.get? key = some e → e.conclusion = conclusionOf key)
    (hoffers : ∀ o ∈ offers, o.conclusion = conclusionOf o.key) (hperm : offers ~ offers') :
    (r.insertAll offers).2 = (r.insertAll offers').2 ∧
      (∀ key, (r.insertAll offers).2.Keeps key fun proof =>
        (∃ e, r.get? key = some e ∧ e.proof = proof) ∨
          ∃ o ∈ offers, o.key = key ∧ o.proof = proof) ∧
      r.lostLengths offers ~ r.lostLengths offers' := by
  have hkeeps := fun key => (r.keeps_self key).insertAll offers
  have hkeeps' : ∀ key, (r.insertAll offers').2.Keeps key fun proof =>
      (∃ e, r.get? key = some e ∧ e.proof = proof) ∨
        ∃ o ∈ offers, o.key = key ∧ o.proof = proof := fun key =>
    ((r.keeps_self key).insertAll offers').congr fun p => by simp only [hperm.mem_iff]
  have hconcludes : (r.insertAll offers).2.Concludes conclusionOf :=
    Concludes.insertAll hstored hoffers
  have hconcludes' : (r.insertAll offers').2.Concludes conclusionOf :=
    Concludes.insertAll hstored fun o ho => hoffers o (hperm.mem_iff.mpr ho)
  have hregistry : (r.insertAll offers).2 = (r.insertAll offers').2 :=
    ext_get? fun key e =>
      ⟨hconcludes.get?_of_keeps hconcludes' (hkeeps key) (hkeeps' key),
        hconcludes'.get?_of_keeps hconcludes (hkeeps' key) (hkeeps key)⟩
  refine ⟨hregistry, hkeeps, ?_⟩
  -- The same proofs are offered and the same are left, so that the same lose.
  have hlost := lostLengths_perm r offers
  have hlost' := lostLengths_perm r offers'
  rw [← hregistry] at hlost'
  have hoffered := (hperm.map fun o => Proof.length o.proof).append_right r.proofLengths
  exact (List.perm_append_right_iff _).mp ((hlost.trans hoffered).trans hlost'.symm)

/-- Four proofs of `p → p` are offered where a longer one is registered, in some order and in the
reverse order. Different offers are turned down, but in the end `D2D21` is registered both times,
and three proofs of length five and the one of length seven have lost. -/
theorem insertAll_perm_identity :
    ∃ (r : Registry) (offers : List Offer),
      r = (empty.insert "C0.0" "DD2D111" (.implies (.var 0) (.var 0))).2 ∧
      offers.map (·.proof) = ["DD213", "DD211", "D2D21", "DD212"] ∧
      (r.insertAll offers).1 = [.replaced 7, .replaced 5, .replaced 5, .redundant] ∧
      (r.insertAll offers.reverse).1 = [.replaced 7, .replaced 5, .redundant, .redundant] ∧
      (r.insertAll offers).2 = (r.insertAll offers.reverse).2 ∧
      ((r.insertAll offers).2.get? "C0.0").map (·.proof) = some "D2D21" ∧
      r.lostLengths offers = [7, 5, 5, 5] ∧
      r.lostLengths offers ~ r.lostLengths offers.reverse := by
  let identity : Formula := .implies (.var 0) (.var 0)
  let offers : List Offer := ["DD213", "DD211", "D2D21", "DD212"].map (⟨"C0.0", ·, identity⟩)
  have hempty : empty.Concludes fun _ => identity := by simp [Concludes]
  have hoffers : ∀ o ∈ offers, o.conclusion = identity := by simp [offers]
  have hspec :=
    insertAll_perm (hempty.insert "C0.0" "DD2D111") hoffers offers.reverse_perm.symm
  exact ⟨_, offers, rfl, rfl, by decide +kernel, by decide +kernel, hspec.1, by decide +kernel,
    by decide +kernel, hspec.2.2⟩

end Registry

end Detachment
