import Detachment.Proofs.Offers
import Detachment.Proofs.Survivors

/-! # The best proofs seen

A registry forgets a conclusion that the filter removes, with all proofs of it. If the conclusion is
proved again at a length where the filter is off, it comes back with a longer proof than one that
was seen before. This is the only way in which a registry can miss the best proof that was seen.

* `Collection.triedInAll` are the candidates of some rounds, and `Collection.seenSince` those since
  a key was last removed.
* `Collection.Leads.keeps` says that a collection always holds the best proof since that time.
* `Collection.Leads.length_lt_of_removed` says that what comes back has a longer proof.
* `Collection.keeps_best_seen` says when the best of all proofs is held. -/

namespace Detachment.Collection

variable {basis : Basis} {settings : Settings} {c d : Collection} {lengths : List Nat}
  {last : Nat} {rounds : List (List Nat)} {key : String} {e : Entry} {seen : List String}

/-! ## What was seen -/

/-- The candidates of a round: what `Grammar.candidates` gives for its lengths, from the grammar up
to the last of them. -/
def triedIn (c : Collection) (lengths : List Nat) : List String :=
  (c.grammar (lengths.getLastD 0)).candidates lengths

/-- The candidates of all rounds in turn. Each round is tried in the collection that the rounds
before it have led to. -/
def triedInAll (c : Collection) : List (List Nat) → List String
  | [] => []
  | lengths :: rest => c.triedIn lengths ++ (c.round lengths).2.triedInAll rest

/-- What was seen of a key after a round: nothing if the round removes the key (`removedIn`), and
otherwise what was `seen` before and the candidates of the round. -/
def seenAfter (c : Collection) (key : String) (seen : List String) (lengths : List Nat) :
    List String :=
  if key ∈ (c.removedIn lengths).map (·.1) then [] else seen ++ c.triedIn lengths

/-- What was seen of a key since the last of some rounds that removed it, or ever if none did:
`seenAfter` for one round after another. -/
def seenSince (key : String) : Collection → List String → List (List Nat) → List String
  | _, seen, [] => seen
  | c, seen, lengths :: rest =>
    (c.round lengths).2.seenSince key (c.seenAfter key seen lengths) rest

/-- Where a key is never removed, everything counts: `seenSince` is `seen ++ triedInAll rounds`. -/
theorem seenSince_of_not_mem (hkey : key ∉ (c.removedInAll rounds).map (·.1)) :
    c.seenSince key seen rounds = seen ++ c.triedInAll rounds := by
  induction rounds generalizing c seen with
  | nil => rw [seenSince, triedInAll, List.append_nil]
  | cons lengths rest ih =>
    rw [removedInAll, List.map_append, List.mem_append, not_or] at hkey
    rw [seenSince, seenAfter, if_neg hkey.1, ih hkey.2, triedInAll, List.append_assoc]

/-- The candidates of a round that continues the collection are those that its grammar has `found`,
length by length. -/
theorem triedIn_eq (hlengths : c.Continues lengths last) :
    c.triedIn lengths = lengths.flatMap (c.grammar last).found := by
  rw [triedIn, hlengths.last_eq, Grammar.candidates_eq _ hlengths.prepared]

/-- A round considers its candidates: `triedRegistry` folds `Registry.consider` over `triedIn`. -/
theorem triedRegistry_eq (h : c.Consistent) (hlengths : c.Continues lengths last) :
    c.triedRegistry lengths = (c.triedIn lengths).foldl (Registry.consider c.basis) c.registry := by
  rw [triedIn_eq hlengths, triedRegistry, hlengths.last_eq,
    registry_tryCandidates h.sound hlengths.prepared]

/-! ## The best proof since the last removal -/

/-- The step lemma: a registry that `Keeps` the best proof of a key among those `seen` before a
round keeps the best one among `seenAfter` that round. -/
theorem keeps_round (h : c.Consistent) (hlengths : c.Continues lengths last)
    (hkeeps : c.registry.Keeps key fun w => w ∈ seen ∧ Proof.HasKey c.basis key w) :
    (c.round lengths).2.registry.Keeps key
      fun w => w ∈ c.seenAfter key seen lengths ∧ Proof.HasKey c.basis key w := by
  have htried := hkeeps.foldl_consider c.basis (c.triedIn lengths)
  rw [← triedRegistry_eq h hlengths] at htried
  rw [registry_round]
  refine (htried.eraseAll _).congr fun w => ?_
  rw [seenAfter, ← or_and_right, ← List.mem_append]
  split <;> simp_all

/-- The run lemma: rounds keep the best proof of a key among those in `seenSince`, by induction on
`Leads`. -/
theorem Leads.keeps (hleads : c.Leads rounds d) (h : c.Consistent)
    (hkeeps : c.registry.Keeps key fun w => w ∈ seen ∧ Proof.HasKey c.basis key w) :
    d.registry.Keeps key
      fun w => w ∈ c.seenSince key seen rounds ∧ Proof.HasKey c.basis key w := by
  induction hleads generalizing seen with
  | done c => exact hkeeps
  | next hvalid _ ih =>
    obtain ⟨last, hcontinues⟩ := exists_continues h hvalid
    exact ih (h.round hcontinues) (keeps_round h hcontinues hkeeps)

/-- At first the best axioms are held: the registry of `start` keeps the best of `basis.proofs`
under each key. -/
theorem keeps_start (basis : Basis) (settings : Settings) (key : String) :
    (start basis settings).registry.Keeps key
      fun w => w ∈ basis.proofs ∧ Proof.HasKey basis key w := by
  rw [registry_start_eq]
  exact ((Registry.keeps_empty key).foldl_consider basis basis.proofs).congr
    fun w => or_iff_right id

/-! ## Keys that were removed -/

/-- What a round removes is one of its candidates, with a length up to the last of the round, and is
filed under the `polish` of its own conclusion. -/
theorem mem_triedIn_of_removed (h : c.Consistent) (hlengths : c.Continues lengths last)
    (hremoved : (key, e) ∈ c.removedIn lengths) :
    e.proof ∈ c.triedIn lengths ∧ Proof.length e.proof ≤ last ∧
      e.conclusion.polish = key ∧ Proof.conclusion c.basis e.proof = .ok e.conclusion := by
  obtain ⟨he, ⟨hlength, -⟩, -⟩ := mem_removedIn_iff.mp hremoved
  have habsorbs := triedRegistry_absorbs h hlengths
  refine ⟨?_, (hlengths.bounds _ hlength).2, habsorbs.sound key e he⟩
  rw [triedIn_eq hlengths]
  refine (habsorbs.origin key e he).resolve_left fun hold => ?_
  have hbeyond := (hlengths.bounds _ hlength).1
  have hknown := h.length_le key e hold
  omega

/-- What rounds remove (`removedInAll`) is a candidate of one of them, with its conclusion. -/
theorem Leads.mem_triedInAll_of_removed (hleads : c.Leads rounds d) (h : c.Consistent)
    (hremoved : (key, e) ∈ c.removedInAll rounds) :
    e.proof ∈ c.triedInAll rounds ∧
      e.conclusion.polish = key ∧ Proof.conclusion c.basis e.proof = .ok e.conclusion := by
  induction hleads with
  | done c => cases hremoved
  | next hvalid _ ih =>
    obtain ⟨last, hcontinues⟩ := exists_continues h hvalid
    rcases List.mem_append.mp hremoved with hfirst | hlater
    · obtain ⟨htried, -, hproves⟩ := mem_triedIn_of_removed h hcontinues hfirst
      exact ⟨List.mem_append_left _ htried, hproves⟩
    · obtain ⟨htried, hproves⟩ := ih (h.round hcontinues) hlater
      exact ⟨List.mem_append_right _ htried, hproves⟩

/-- What a round removes is not registered after it: `get? key = none`. -/
theorem get?_round_of_removed (hremoved : (key, e) ∈ c.removedIn lengths) :
    (c.round lengths).2.registry.get? key = none := by
  rw [registry_round, Registry.get?_eraseAll, if_pos (List.mem_map_of_mem hremoved)]

/-- What comes back after it was removed has a longer proof: rounds that follow only try candidates
beyond the `knownLimit`, and the removed proof lies within it. -/
theorem Leads.length_lt_of_removed (hleads : c.Leads rounds d) (h : c.Consistent) {e' : Entry}
    (hremoved : (key, e') ∈ c.removedInAll rounds) (he : d.registry.get? key = some e) :
    Proof.length e'.proof < Proof.length e.proof := by
  induction hleads with
  | done c => cases hremoved
  | @next c d lengths rest hvalid hrest ih =>
    obtain ⟨last, hcontinues⟩ := exists_continues h hvalid
    have hnext := h.round hcontinues
    rcases List.mem_append.mp hremoved with hfirst | hlater
    · have hle := (mem_triedIn_of_removed h hcontinues hfirst).2.1
      by_contra hshort
      -- An entry that is not longer would have been there right after the removal.
      have hlimit : Proof.length e.proof ≤ (c.round lengths).2.knownLimit := by
        rw [knownLimit_round hcontinues]
        omega
      rw [hrest.get?_iff hnext hlimit, get?_round_of_removed hfirst] at he
      cases he
    · exact ih hnext hlater he

/-- A key that was removed does not have the best proof that was seen (`Proof.IsBest`), since the
removed one is shorter by `length_lt_of_removed`. -/
theorem Leads.not_isBest_of_removed (hleads : c.Leads rounds d) (h : c.Consistent) {e' : Entry}
    (hremoved : (key, e') ∈ c.removedInAll rounds) (he : d.registry.get? key = some e) :
    ¬Proof.IsBest (fun w => w ∈ seen ++ c.triedInAll rounds ∧ Proof.HasKey c.basis key w)
      e.proof := by
  rintro ⟨-, hbest⟩
  obtain ⟨htried, hkey, hconclusion⟩ := hleads.mem_triedInAll_of_removed h hremoved
  have hle := Proof.length_le_of_le
    (hbest e'.proof ⟨List.mem_append_right _ htried, e'.conclusion, hconclusion, hkey⟩)
  have hlt := hleads.length_lt_of_removed h hremoved he
  omega

/-- What was removed never comes back at a length where the filter applies: something more general
has stayed in its place, and the filter would remove it again (`Pruned`). -/
theorem Leads.not_removed_of_appliesTo (hleads : c.Leads rounds d) (h : c.Consistent)
    (hpruned : c.Pruned) (he : d.registry.get? key = some e)
    (happlies : d.settings.filter.appliesTo (Proof.length e.proof)) :
    key ∉ (c.removedInAll rounds).map (·.1) := by
  intro hkey
  obtain ⟨⟨key, e'⟩, hremoved, rfl⟩ := List.mem_map.mp hkey
  obtain ⟨key', survivor, hsurvivor, hne, hfor⟩ := hleads.exists_survivor h hremoved
  obtain ⟨hle, hgeneral⟩ := Registry.standsFor_iff.mp hfor
  have hlt := hleads.length_lt_of_removed h hremoved he
  obtain ⟨-, hkey, hconclusion⟩ := hleads.mem_triedInAll_of_removed h hremoved
  have hsame : e'.conclusion = e.conclusion :=
    Formula.polish_inj (hkey.trans ((hleads.consistent h).sound key e he).1.symm)
  rw [hsame] at hgeneral
  have hpos := ProofTree.length_pos_of_conclusion hconclusion
  exact hleads.pruned h hpruned key e he (by omega) happlies
    ⟨key', survivor, hsurvivor, hne, by omega, hgeneral⟩

/-- Where the filter is off, a round registers whatever it proves, be it for the first time or
again: the key of a candidate that is not registered before is registered after it. -/
theorem exists_get?_round_of_mem_triedIn (h : c.Consistent) (hlengths : c.Continues lengths last)
    (hoff : ∀ length ∈ lengths, c.settings.filter.appliesTo length = false)
    (hnone : c.registry.get? key = none) {w : String} (hw : w ∈ c.triedIn lengths)
    (hkey : Proof.HasKey c.basis key w) :
    ∃ e, (c.round lengths).2.registry.get? key = some e ∧ Proof.length e.proof ∈ lengths := by
  obtain ⟨f, hconclusion, rfl⟩ := hkey
  rw [triedIn_eq hlengths] at hw
  obtain ⟨e, he, -⟩ := (triedRegistry_absorbs h hlengths).accepts w hw f hconclusion
  have hlength : Proof.length e.proof ∈ lengths := by
    rcases length_mem_or h hlengths he with hold | ⟨hlength, -⟩
    · rw [hnone] at hold
      cases hold
    · exact hlength
  refine ⟨e, get?_round.mpr ⟨he, ?_⟩, hlength⟩
  rintro ⟨-, happlies, -⟩
  rw [hoff _ hlength] at happlies
  cases happlies

/-! ## The best proof of all -/

/-- Whatever rounds follow on the axioms, a collection holds under each key the best proof that was
seen since the key was last removed (`seenSince`), and nothing if none was. A proof that is held is
the best one of all axioms and candidates seen so far (`triedInAll`) exactly if its key was never
removed (`removedInAll`), and this is so wherever the filter applies. -/
theorem keeps_best_seen (hleads : (start basis settings).Leads rounds c) (key : String) :
    (c.registry.Keeps key fun w =>
      w ∈ (start basis settings).seenSince key basis.proofs rounds ∧
        Proof.HasKey basis key w) ∧
    ∀ e, c.registry.get? key = some e →
      (Proof.IsBest (fun w => w ∈ basis.proofs ++ (start basis settings).triedInAll rounds ∧
          Proof.HasKey basis key w) e.proof ↔
        key ∉ ((start basis settings).removedInAll rounds).map (·.1)) ∧
      (settings.filter.appliesTo (Proof.length e.proof) →
        key ∉ ((start basis settings).removedInAll rounds).map (·.1)) := by
  have h := consistent_start basis settings
  have hkeeps := hleads.keeps h (keeps_start basis settings key)
  refine ⟨hkeeps, fun e he => ⟨⟨fun hbest hkey => ?_, fun hkey => ?_⟩, fun happlies => ?_⟩⟩
  · obtain ⟨⟨key, e'⟩, hremoved, rfl⟩ := List.mem_map.mp hkey
    exact hleads.not_isBest_of_removed h hremoved he hbest
  · rw [seenSince_of_not_mem hkey] at hkeeps
    exact hkeeps.best e he
  · rw [← show c.settings = settings from hleads.settings_eq] at happlies
    exact hleads.not_removed_of_appliesTo h (pruned_start basis settings) he happlies

/-! ## A key that comes back -/

/-- The two weakenings as axioms, with the filter off from length five on. -/
def lateWeakenings : Collection :=
  start weakenings ⟨.disabled, ⟨some 5⟩, 1⟩

/-- A round of length three continues this collection. -/
theorem validLengths_lateWeakenings : lateWeakenings.validLengths [3] := by cbv

/-- The lengths `[3]` continue the collection up to three. -/
theorem continues_lateWeakenings : lateWeakenings.Continues [3] 3 := by
  obtain ⟨last, hcontinues⟩ :=
    exists_continues (consistent_start _ _) validLengths_lateWeakenings
  obtain rfl : 3 = last := hcontinues.last_eq
  exact hcontinues

/-- After length three, a round of length five continues the collection. -/
theorem validLengths_round_lateWeakenings : (lateWeakenings.round [3]).2.validLengths [5] := by
  rw [validLengths, knownLimit_round continues_lateWeakenings]
  rfl

/-- Length three leaves the two proofs `D11` and `D12`; the others are instances of what they
prove. -/
theorem table_round_lateWeakenings : (lateWeakenings.round [3]).2.table =
    ⟨[[], ["1", "2"], [], ["D11", "D12"]], ["1", "2"]⟩ := by cbv

/-- A round of length three and one of length five lead on from this collection. -/
theorem leads_lateWeakenings :
    lateWeakenings.Leads [[3], [5]] ((lateWeakenings.round [3]).2.round [5]).2 :=
  .next validLengths_lateWeakenings (.next validLengths_round_lateWeakenings (.done _))

/-- With the two weakenings as axioms and the filter off from length five on, `D11` stays the best
proof of its conclusion that was seen. -/
theorem keeps_best_seen_weakenings :
    ∃ c e, lateWeakenings.Leads [[3], [5]] c ∧ c.registry.get? "C0C1C2.1" = some e ∧
      e.proof = "D11" ∧
      Proof.IsBest (fun w => w ∈ weakenings.proofs ++ lateWeakenings.triedInAll [[3], [5]] ∧
        Proof.HasKey weakenings "C0C1C2.1" w) e.proof := by
  have hleads := leads_lateWeakenings
  have h := hleads.consistent (consistent_start _ _)
  have hmem : "D11" ∈ ((lateWeakenings.round [3]).2.round [5]).2.table.row 3 := by
    rw [row_round, if_neg (by decide), table_round_lateWeakenings]
    exact List.mem_cons_self
  obtain ⟨key, e, he, hproof, -⟩ := (h.mem_row 3 "D11").mp hmem
  obtain rfl : key = "C0C1C2.1" := by
    obtain ⟨hkey, hconclusion⟩ := h.sound key e he
    have hread : Proof.conclusion weakenings "D11" =
        .ok (.implies (.var 0) (.implies (.var 1) (.implies (.var 2) (.var 1)))) := by cbv
    rw [hproof] at hconclusion
    rw [← hkey, Except.ok.inj (hconclusion.symm.trans hread)]
    cbv
  obtain ⟨hbest, hstays⟩ := (keeps_best_seen hleads "C0C1C2.1").2 e he
  exact ⟨_, e, hleads, he, hproof, hbest.mpr (hstays (by rw [hproof]; rfl))⟩

/-- With the two weakenings as axioms and the filter off from length five on, `D21` is a proof of
`p → (p → p)` that was seen, but what is held in the end is a proof of length five. -/
theorem not_keeps_best_seen_weakenings :
    ∃ c e, lateWeakenings.Leads [[3], [5]] c ∧ c.registry.get? "C0C0.0" = some e ∧
      Proof.length e.proof = 5 ∧
      ("D21" ∈ lateWeakenings.triedInAll [[3], [5]] ∧ Proof.HasKey weakenings "C0C0.0" "D21") ∧
      ¬Proof.IsBest (fun w => w ∈ weakenings.proofs ++ lateWeakenings.triedInAll [[3], [5]] ∧
        Proof.HasKey weakenings "C0C0.0" w) e.proof := by
  have hleads := leads_lateWeakenings
  have h : lateWeakenings.Consistent := consistent_start _ _
  -- The first round removes the conclusion of `D21`.
  have hfirst : (lateWeakenings.removedIn [3]).map (fun x => (x.1, x.2.proof)) =
      [("C0C0.0", "D21")] := by cbv
  obtain ⟨⟨key, removed⟩, hremoved, hpair⟩ :=
    List.mem_map.mp (hfirst ▸ List.mem_singleton_self ("C0C0.0", "D21"))
  obtain ⟨rfl, hproof⟩ := Prod.mk.inj hpair
  have hall : ("C0C0.0", removed) ∈ lateWeakenings.removedInAll [[3], [5]] :=
    List.mem_append_left _ hremoved
  obtain ⟨htried, hkey, hconclusion⟩ := hleads.mem_triedInAll_of_removed h hall
  rw [hproof] at htried hconclusion
  -- The second round proves it again by `D2D11`.
  have hnext := h.round continues_lateWeakenings
  obtain ⟨last, hcontinues⟩ := exists_continues hnext validLengths_round_lateWeakenings
  have hsecond : (lateWeakenings.round [3]).2.triedIn [5] =
      ["D1D11", "D1D12", "D2D11", "D2D12", "DD111", "DD112", "DD121", "DD122"] := by
    have hsettings : (lateWeakenings.round [3]).2.settings.necessitation = .disabled := rfl
    rw [triedIn, grammar, knownLimit, table_round_lateWeakenings, hsettings]
    cbv
  have hagain : Proof.HasKey weakenings "C0C0.0" "D2D11" := by
    refine ⟨.implies (.var 0) (.implies (.var 0) (.var 0)), ?_, ?_⟩ <;> cbv
  obtain ⟨e, he, hlength⟩ := exists_get?_round_of_mem_triedIn hnext hcontinues
    (fun length hlength => List.mem_singleton.mp hlength ▸ rfl)
    (get?_round_of_removed hremoved) (by rw [hsecond]; simp) hagain
  exact ⟨_, e, hleads, he, List.mem_singleton.mp hlength,
    ⟨htried, removed.conclusion, hconclusion, hkey⟩, hleads.not_isBest_of_removed h hall he⟩

end Detachment.Collection
