import Detachment.Candidates.Count
import Detachment.Proofs.Productions
import Detachment.Proofs.Search

/-! # Counting candidates

Candidates are counted by way of the productions by which they are searched for, the shortest
lengths first. A number is absent if 64 bits cannot hold it; any other number is that of the texts
that the search finds.

* `Grammar.Exact` says that the counts at hand are right. More of them are found from these
  (`Grammar.Exact.slotFor`, `Grammar.Exact.productionCount`, `Grammar.length_renderings_of_tally`).
* `Grammar.Exact.extendTallies` says that the counts of one length more are right, and
  `Grammar.exact_tallies` that all are.
* `Grammar.length_found_of_count` compares the count of a length with its candidates. -/

namespace Detachment.Grammar

variable {g : Grammar} {tallies : Tallies} {length run total n : Nat} {p : Production}
  {ps : List Production}

/-! ## Runs of necessitations -/

/-- Without a limit (`.unbounded`) it makes no difference to `fillings` how many necessitations
stand before a slot. -/
theorem fillings_of_unbounded (h : g.necessitation = .unbounded) (slot : Slot) (run run' : Nat) :
    g.fillings ⟨slot, run⟩ = g.fillings ⟨slot, run'⟩ := by
  induction hlength : slot.length using Nat.strongRecOn generalizing slot run run' with
  | _ length ih =>
    cases slot with
    | known length => simp [fillings_known, fitting, h, NecessitationLimit.allows]
    | longer length =>
      rw [fillings_longer, fillings_longer]
      refine List.flatMap_congr fun p hp => ?_
      cases p with
      | necessitate inner =>
        have hsmaller : inner.length < length := by
          have := length_of_mem_productions hp
          simp only [Production.slots, sumOf_cons, sumOf_nil] at this
          omega
        rw [renderings, renderings, h, ih _ (hlength ▸ hsmaller) inner (run + 1) (run' + 1) rfl]
        rfl
      | detach major minor => rfl

/-- Runs that are counted together, those with the same `distinctRun`, have the same fillings. -/
theorem fillings_distinctRun (g : Grammar) (slot : Slot) (run : Nat) :
    g.fillings ⟨slot, g.distinctRun run⟩ = g.fillings ⟨slot, run⟩ := by
  rw [distinctRun]
  split
  · next h => exact fillings_of_unbounded h slot 0 run
  · rfl

/-! ## One length -/

/-- The counts at hand are the numbers of fillings: where `slotCount` is present for a longer slot,
it is the length of `fillings`. -/
def Exact (g : Grammar) (tallies : Tallies) : Prop :=
  ∀ length run n, g.knownLimit < length → g.slotCount tallies (.longer length) run = some n →
    (g.fillings ⟨.longer length, run⟩).length = n

/-- The count of any slot is right, also that of the `.known` ones, if the entries of the table can
be referred to (`longestEntry`). -/
theorem Exact.slotFor (h : g.Exact tallies) (hlongest : g.knownLimit ≤ longestEntry) {a : Nat}
    (hcount : g.slotCount tallies (g.slotFor a) run = some n) :
    (g.fillings ⟨g.slotFor a, run⟩).length = n := by
  by_cases hknown : a ≤ g.knownLimit
  · rw [slotFor_of_le hknown] at hcount ⊢
    rw [fillings_known, if_pos (Nat.le_trans hknown hlongest)]
    exact Option.some.inj hcount
  · have hlonger := Nat.not_le.mp hknown
    rw [slotFor_of_lt hlonger] at hcount ⊢
    exact h a run n hlonger hcount

/-- The count of a production is the number of its texts, the length of `renderings`: a product for
a detachment, and the count of the inner slot for a necessitation. -/
theorem Exact.productionCount (h : g.Exact tallies) (hlongest : g.knownLimit ≤ longestEntry)
    (hslots : ∀ slot ∈ p.slots, ∃ a, slot = g.slotFor a)
    (hcount : g.productionCount tallies run p = some n) : (g.renderings run p).length = n := by
  have hslot : ∀ slot ∈ p.slots, ∀ {run n}, g.slotCount tallies slot run = some n →
      (g.fillings ⟨slot, run⟩).length = n := by
    intro slot hmem run n hcount
    obtain ⟨a, rfl⟩ := hslots slot hmem
    exact h.slotFor hlongest hcount
  cases p with
  | necessitate inner =>
    rw [Grammar.productionCount] at hcount
    rw [renderings]
    split at hcount
    · next hallows =>
      rw [if_pos hallows, List.length_map]
      exact hslot inner (by simp [Production.slots]) hcount
    · next hallows =>
      rw [if_neg hallows]
      exact Option.some.inj hcount
  | detach major minor =>
    rw [Grammar.productionCount] at hcount
    split at hcount
    · next a b ha hb =>
      have hmajor := hslot major (by simp [Production.slots]) ha
      have hminor := hslot minor (by simp [Production.slots]) hb
      -- A count that is there is the product itself.
      rw [count64?, Option.ite_none_right_eq_some] at hcount
      rw [renderings, List.length_flatMap, ← Option.some.inj hcount.2]
      simp [hmajor, hminor]
    · cases hcount

/-- Adding up the counts of productions (`tally`) gives the number of all their texts, by induction
on the productions. The `total` carries what was added before. -/
theorem length_renderings_of_tally (hps : ∀ p ∈ ps, ∀ n, g.productionCount tallies run p = some n →
      (g.renderings run p).length = n)
    (htally : g.tally tallies run total ps = some n) :
    total + (ps.flatMap (g.renderings run)).length = n := by
  induction ps generalizing total with
  | nil => exact Option.some.inj htally
  | cons p ps ih =>
    obtain ⟨hfirst, hrest⟩ := List.forall_mem_cons.mp hps
    rw [tally] at htally
    split at htally
    · cases htally
    · next first hcount =>
      split at htally
      · cases htally
      · next sum hsum =>
        rw [count64?, Option.ite_none_right_eq_some] at hsum
        have hothers := ih hrest htally
        rw [List.flatMap_cons, List.length_append, hfirst first hcount, ← Nat.add_assoc,
          Option.some.inj hsum.2]
        exact hothers

/-! ## All lengths -/

/-- What the counts of one length more say of that length: its `slotCount` is the `tally` of its
productions over the counts before. -/
theorem tally_of_slotCount_extendTallies
    (hcount : g.slotCount (g.extendTallies tallies)
      (.longer (g.knownLimit + 1 + tallies.size)) run = some n) :
    g.tally tallies (g.distinctRun run) 0 (g.productions (g.knownLimit + 1 + tallies.size)) =
      some n := by
  rw [slotCount, extendTallies, Nat.add_sub_cancel_left, Array.getD_eq_getD_getElem?,
    Array.getD_eq_getD_getElem?, Array.getElem?_push_size, Option.getD_some, Array.getElem?_map,
    Array.getElem?_range] at hcount
  split at hcount
  · exact hcount
  · cases hcount

/-- The step lemma for `Exact`: the counts of one length more are right. Those of the new length add
up over its productions (`length_renderings_of_tally`). -/
theorem Exact.extendTallies (h : g.Exact tallies) (hpairs : g.WellPaired)
    (hlongest : g.knownLimit ≤ longestEntry) : g.Exact (g.extendTallies tallies) := by
  intro length run n hbeyond hcount
  by_cases hnext : length = g.knownLimit + 1 + tallies.size
  · subst hnext
    have htally := tally_of_slotCount_extendTallies hcount
    have hslots : ∀ p ∈ g.productions (g.knownLimit + 1 + tallies.size), ∀ slot ∈ p.slots,
        ∃ a, slot = g.slotFor a := by
      intro p hp slot hslot
      obtain ⟨a, -, ha⟩ := exists_slotFor_of_mem_productions hpairs hbeyond hp hslot
      exact ⟨a, ha⟩
    have htexts := length_renderings_of_tally (fun p hp m hm => h.productionCount hlongest
      (hslots p hp) hm) htally
    rwa [Nat.zero_add, ← fillings_longer, fillings_distinctRun] at htexts
  · -- The counts of other lengths stay as they are.
    refine h length run n hbeyond ?_
    rw [slotCount, Grammar.extendTallies, @Array.getD_eq_getD_getElem? _ (tallies.push _),
      Array.getElem?_push, if_neg (by omega), ← Array.getD_eq_getD_getElem?] at hcount
    exact hcount

/-- The run lemma for `Exact`: all counts are right, by induction on the number of lengths. -/
theorem exact_tallies (hpairs : g.WellPaired) (hlongest : g.knownLimit ≤ longestEntry) :
    g.Exact g.tallies := by
  have hstart : g.Exact #[] := by
    intro length run n _ hcount
    simp [slotCount] at hcount
  rw [tallies]
  generalize List.range (g.maxLength - g.knownLimit) = steps
  generalize (#[] : Tallies) = start at hstart ⊢
  induction steps generalizing start with
  | nil => exact hstart
  | cons _ steps ih => exact ih _ (hstart.extendTallies hpairs hlongest)

/-- A `count` that is present is the number of candidates, the length of `found`. -/
theorem length_found_of_count (hpairs : g.WellPaired) (hlongest : g.knownLimit ≤ longestEntry)
    (hcount : g.count g.tallies length = some n) : (g.found length).length = n := by
  rw [count] at hcount
  rw [found]
  split at hcount
  · next hrealizable =>
    rw [if_pos hrealizable]
    exact (exact_tallies hpairs hlongest).slotFor hlongest hcount
  · next hrealizable =>
    rw [if_neg hrealizable]
    exact Option.some.inj hcount

end Detachment.Grammar
