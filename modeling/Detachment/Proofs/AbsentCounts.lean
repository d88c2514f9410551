import Mathlib.Data.List.Basic
import Mathlib.Logic.Relation
import Detachment.Proofs.Counting
import Detachment.Proofs.Language

/-! # Absent counts

The count of a slot is made of the counts of the slots that its replacements put in its place. It is
absent as soon as one of these is, even if nothing comes of the replacement in the end.

* `Grammar.slotCount_longer` says that the counts of all lengths follow from each other.
* `Grammar.Meets` says which slots are met when a slot is filled, and `Grammar.Overflows` that one
  of them has more fillings than 64 bits can count.
* `Grammar.slotCount_eq_none_iff` says that a count is absent exactly in this case. -/

namespace Detachment.Grammar

variable {g : Grammar} {tallies tallies' : Tallies} {slot : Slot} {length part run run' total n : Nat}
  {production : Production} {ps : List Production} {p q : Pending}

/-! ## The counts follow from each other -/

/-- Runs that are counted together have the same count: `slotCount` reads the tallies at
`distinctRun run`, and `distinctRun` changes nothing the second time. -/
theorem slotCount_distinctRun (g : Grammar) (tallies : Tallies) (slot : Slot) (run : Nat) :
    g.slotCount tallies slot (g.distinctRun run) = g.slotCount tallies slot run := by
  by_cases h : g.necessitation = .unbounded
  · cases slot with
    | known length => simp [slotCount, fitting, h, NecessitationLimit.allows]
    | longer length => simp [slotCount, distinctRun, h]
  · rw [distinctRun, if_neg h]

/-- A production has the same `productionCount` after `run` as after `distinctRun run`, since both
its slots and the run after a necessitation are counted together. -/
theorem productionCount_distinctRun (g : Grammar) (tallies : Tallies) (run : Nat)
    (production : Production) :
    g.productionCount tallies (g.distinctRun run) production =
      g.productionCount tallies run production := by
  by_cases h : g.necessitation = .unbounded
  · cases production with
    | necessitate inner =>
      rw [productionCount, productionCount, ← g.slotCount_distinctRun tallies inner (run + 1),
        ← g.slotCount_distinctRun tallies inner (g.distinctRun run + 1)]
      simp [distinctRun, h, NecessitationLimit.allows]
    | detach major minor => rfl
  · rw [distinctRun, if_neg h]

/-- The count of a production depends on `slotCount` of its own slots only: tallies that agree on
`production.slots` give the same `productionCount`. -/
theorem productionCount_congr (h : ∀ slot ∈ production.slots, ∀ run,
      g.slotCount tallies slot run = g.slotCount tallies' slot run) :
    g.productionCount tallies run production = g.productionCount tallies' run production := by
  cases production with
  | necessitate inner =>
    have hinner := h inner List.mem_cons_self
    simp only [productionCount, hinner]
  | detach major minor =>
    have hmajor := h major List.mem_cons_self
    have hminor := h minor (List.mem_cons_of_mem _ List.mem_cons_self)
    simp only [productionCount, hmajor, hminor]

/-- Productions with the same `productionCount` have the same `tally`, whatever the total before
them is. -/
theorem tally_congr (h : ∀ production ∈ ps,
      g.productionCount tallies run production = g.productionCount tallies' run' production)
    (total : Nat) : g.tally tallies run total ps = g.tally tallies' run' total ps := by
  induction ps generalizing total with
  | nil => rfl
  | cons production ps ih =>
    obtain ⟨hfirst, hrest⟩ := List.forall_mem_cons.mp h
    simp only [tally, hfirst, ih hrest]

/-- The counts at hand follow from each other: `slotCount` of `.longer length` is the `tally` of
`productions length`, for all runs that can stand before the length. -/
def Recursive (g : Grammar) (tallies : Tallies) : Prop :=
  ∀ length run, g.knownLimit < length → length < g.knownLimit + 1 + tallies.size →
    g.necessitation.allows run → run + length ≤ g.maxLength →
    g.slotCount tallies (.longer length) run = g.tally tallies run 0 (g.productions length)

/-- One step of `extendTallies` counts one length more. -/
@[simp] theorem size_extendTallies (g : Grammar) (tallies : Tallies) :
    (g.extendTallies tallies).size = tallies.size + 1 := by
  rw [extendTallies, Array.size_push]

/-- The counts of one length more leave those of the others as they are: `slotCount` of
`slotFor part` does not change for the lengths `part` that were counted before. -/
theorem slotCount_extendTallies (h : part < g.knownLimit + 1 + tallies.size) (run : Nat) :
    g.slotCount (g.extendTallies tallies) (g.slotFor part) run =
      g.slotCount tallies (g.slotFor part) run := by
  by_cases hknown : part ≤ g.knownLimit
  · rw [slotFor_of_le hknown]
    rfl
  · rw [slotFor_of_lt (Nat.not_le.mp hknown), slotCount, slotCount, extendTallies,
      @Array.getD_eq_getD_getElem? _ (tallies.push _), Array.getElem?_push, if_neg (by omega),
      ← Array.getD_eq_getD_getElem?]

/-- The runs that can stand before a length all have a place among its counts,
`distinctRun run ≤ longestRun length`. -/
theorem distinctRun_le (hallows : g.necessitation.allows run) (hle : run + length ≤ g.maxLength) :
    g.distinctRun run ≤ g.longestRun length := by
  rw [distinctRun, longestRun]
  cases hlimit : g.necessitation with
  | disabled =>
    rw [hlimit, NecessitationLimit.allows, beq_iff_eq] at hallows
    simp [hallows]
  | bounded most =>
    rw [hlimit, NecessitationLimit.allows, decide_eq_true_eq] at hallows
    simp only [reduceCtorEq, if_false]
    omega
  | unbounded => simp

/-- The count that `extendTallies` adds is the `tally` of the productions of the new length,
`knownLimit + 1 + tallies.size`. -/
theorem slotCount_extendTallies_self (hallows : g.necessitation.allows run)
    (hle : run + (g.knownLimit + 1 + tallies.size) ≤ g.maxLength) :
    g.slotCount (g.extendTallies tallies) (.longer (g.knownLimit + 1 + tallies.size)) run =
      g.tally tallies run 0 (g.productions (g.knownLimit + 1 + tallies.size)) := by
  have hplace := Nat.lt_succ_of_le (distinctRun_le hallows hle)
  rw [slotCount, extendTallies, Nat.add_sub_cancel_left, Array.getD_eq_getD_getElem?,
    Array.getD_eq_getD_getElem?, Array.getElem?_push_size, Option.getD_some, Array.getElem?_map,
    Array.getElem?_range, if_pos hplace, Option.map_some, Option.getD_some]
  exact tally_congr (fun production _ => g.productionCount_distinctRun tallies run production) 0

/-- The step lemma for `Recursive`: counts that follow from each other still do so after
`extendTallies`. -/
theorem Recursive.extendTallies (h : g.Recursive tallies) (hpairs : g.WellPaired) :
    g.Recursive (g.extendTallies tallies) := by
  intro length run hbeyond hlength hallows hle
  rw [size_extendTallies] at hlength
  -- A production only has slots for smaller lengths, whose counts were there before.
  have hsame : g.tally tallies run 0 (g.productions length) =
      g.tally (g.extendTallies tallies) run 0 (g.productions length) := by
    refine tally_congr (fun production hproduction => productionCount_congr fun slot hslot run => ?_) 0
    obtain ⟨part, hpart, rfl⟩ := exists_slotFor_of_mem_productions hpairs hbeyond hproduction hslot
    exact (slotCount_extendTallies (by omega) run).symm
  rw [← hsame]
  by_cases hnext : length = g.knownLimit + 1 + tallies.size
  · subst hnext
    exact slotCount_extendTallies_self hallows hle
  · have hold : g.slotCount (g.extendTallies tallies) (g.slotFor length) run = _ :=
      slotCount_extendTallies (by omega) run
    rw [slotFor_of_lt hbeyond] at hold
    rw [hold]
    exact h length run hbeyond (by omega) hallows hle

/-- Going through more lengths, one at a time, keeps counts `Recursive` and adds one of them for
each. -/
theorem Recursive.foldl_extendTallies (h : g.Recursive tallies) (hpairs : g.WellPaired)
    (ns : List Nat) :
    g.Recursive (ns.foldl (fun t _ => g.extendTallies t) tallies) ∧
      (ns.foldl (fun t _ => g.extendTallies t) tallies).size = tallies.size + ns.length := by
  induction ns generalizing tallies with
  | nil => exact ⟨h, rfl⟩
  | cons n ns ih =>
    obtain ⟨hrecursive, hsize⟩ := ih (h.extendTallies hpairs)
    refine ⟨hrecursive, ?_⟩
    rw [List.foldl_cons, hsize, size_extendTallies, List.length_cons]
    omega

/-- The count of a length beyond `knownLimit` is the `tally` of its productions, taken over the same
complete tallies `g.tallies`. -/
theorem slotCount_longer (hpairs : g.WellPaired) (hbeyond : g.knownLimit < length)
    (hallows : g.necessitation.allows run) (hle : run + length ≤ g.maxLength) :
    g.slotCount g.tallies (.longer length) run =
      g.tally g.tallies run 0 (g.productions length) := by
  have hstart : g.Recursive #[] := by
    intro length run hbeyond hlength
    simp only [List.size_toArray, List.length_nil] at hlength
    omega
  obtain ⟨hrecursive, hsize⟩ :=
    hstart.foldl_extendTallies hpairs (List.range (g.maxLength - g.knownLimit))
  refine hrecursive length run hbeyond ?_ hallows hle
  rw [hsize, List.size_toArray, List.length_nil, List.length_range]
  omega

/-! ## Slots that are met -/

/-- The relation `g.Puts p q` holds if `q` is among the slots that some expansion of `p` puts in its
place. -/
def Puts (g : Grammar) (p q : Pending) : Prop :=
  ∃ e ∈ g.expansions p, q ∈ e.pending

/-- The relation `g.Meets p q` is the closure of `Puts`: `q` is met when `p` is filled, whether
anything comes of it in the end or not. -/
def Meets (g : Grammar) : Pending → Pending → Prop :=
  Relation.ReflTransGen g.Puts

/-- A slot `.known length` is filled by entries of the table, which put no slots in place. -/
theorem not_puts_known : ¬g.Puts ⟨.known length, run⟩ q := by
  rintro ⟨e, he, hq⟩
  simp only [expansions] at he
  split at he
  · obtain ⟨_, -, rfl⟩ := List.mem_map.mp he
    exact absurd hq List.not_mem_nil
  · exact absurd he List.not_mem_nil

/-- What a slot `.longer length` puts in place, read off its productions: a necessitation puts its
inner slot after `run + 1`, if that run is allowed, and a detachment puts both slots after no
run. -/
theorem puts_longer_iff :
    g.Puts ⟨.longer length, run⟩ q ↔
      (∃ inner, .necessitate inner ∈ g.productions length ∧ g.necessitation.allows (run + 1) ∧
        q = ⟨inner, run + 1⟩) ∨
      ∃ major minor, .detach major minor ∈ g.productions length ∧
        (q = ⟨major, 0⟩ ∨ q = ⟨minor, 0⟩) := by
  simp only [Puts, expansions, List.mem_filterMap]
  constructor
  · rintro ⟨e, ⟨production, hproduction, he⟩, hq⟩
    cases production with
    | necessitate inner =>
      obtain ⟨hallows, he⟩ := Option.ite_none_right_eq_some.mp he
      obtain rfl := Option.some.inj he
      exact .inl ⟨inner, hproduction, hallows, List.mem_singleton.mp hq⟩
    | detach major minor =>
      obtain rfl := Option.some.inj he
      exact .inr ⟨major, minor, hproduction, by simpa using hq⟩
  · rintro (⟨inner, hproduction, hallows, rfl⟩ | ⟨major, minor, hproduction, hq⟩)
    · exact ⟨_, ⟨_, hproduction, if_pos hallows⟩, List.mem_singleton_self _⟩
    · exact ⟨_, ⟨_, hproduction, rfl⟩, by simpa using hq⟩

/-- What is put in place of a slot is for shorter proofs, `q.slot.length < p.slot.length`; the
inductions on `Puts` use this. -/
theorem length_lt_of_puts (h : g.Puts p q) : q.slot.length < p.slot.length := by
  obtain ⟨e, he, hq⟩ := h
  obtain ⟨before, after, hpending⟩ := List.append_of_mem hq
  have hlighter := weight_expansions_lt he
  rw [hpending, weight_append, weight_cons, Pending.weight, Pending.weight] at hlighter
  omega

/-- A slot that can be met when a prepared length is filled. All counts that `Overflows` speaks of
are in reach. -/
structure InReach (g : Grammar) (p : Pending) : Prop where
  /-- It is the slot of a length. -/
  slot_eq : p.slot = g.slotFor p.slot.length
  /-- The run before it is allowed. -/
  allows : g.necessitation.allows p.run
  /-- With the run before it, it is within a prepared length. -/
  le_maxLength : p.run + p.slot.length ≤ g.maxLength

/-- The slot of a prepared length, `slotFor length` after no run, is in reach. -/
theorem inReach_slotFor (hlength : length ≤ g.maxLength) : g.InReach ⟨g.slotFor length, 0⟩ where
  slot_eq := by rw [length_slotFor]
  allows := NecessitationLimit.allows_zero _
  le_maxLength := by rwa [length_slotFor, Nat.zero_add]

/-- A slot `.longer length` in reach is for a length beyond `knownLimit`, as `slotFor` gives no
other. -/
theorem InReach.knownLimit_lt (h : g.InReach ⟨.longer length, run⟩) : g.knownLimit < length := by
  by_contra hle
  have hslot := h.slot_eq
  rw [Slot.length, slotFor_of_le (Nat.not_lt.mp hle)] at hslot
  cases hslot

/-- The step lemma for `InReach`: what is put in place of a slot in reach (`Puts`) is in reach,
too. -/
theorem InReach.puts (h : g.InReach p) (hpairs : g.WellPaired) (hputs : g.Puts p q) :
    g.InReach q := by
  obtain ⟨slot, run⟩ := p
  cases slot with
  | known length => exact absurd hputs not_puts_known
  | longer length =>
    have hbeyond := h.knownLimit_lt
    have hle : run + length ≤ g.maxLength := h.le_maxLength
    rcases puts_longer_iff.mp hputs with ⟨inner, hproduction, hallows, rfl⟩ |
      ⟨major, minor, hproduction, hq⟩
    · have hsum := length_of_mem_productions hproduction
      obtain ⟨part, -, rfl⟩ :=
        exists_slotFor_of_mem_productions hpairs hbeyond hproduction List.mem_cons_self
      simp only [Production.slots, sumOf_cons, sumOf_nil, length_slotFor] at hsum
      refine ⟨by rw [length_slotFor], hallows, ?_⟩
      simp only [length_slotFor]
      omega
    · have hslot : q.slot ∈ (Production.detach major minor).slots ∧ q.run = 0 := by
        rcases hq with rfl | rfl <;> simp [Production.slots]
      -- A run starts anew behind a detachment, and both premises are shorter.
      obtain ⟨part, hpart, hslotFor⟩ :=
        exists_slotFor_of_mem_productions hpairs hbeyond hproduction hslot.1
      refine ⟨by rw [hslotFor, length_slotFor], ?_, ?_⟩
      · rw [hslot.2]
        exact NecessitationLimit.allows_zero _
      · rw [hslot.2, hslotFor, length_slotFor]
        omega

/-! ## Numbers that do not fit -/

/-- Filling `p` meets a slot `.longer length` with more fillings than 64 bits can count,
`bound64 ≤ (g.fillings ..).length`. -/
def Overflows (g : Grammar) (p : Pending) : Prop :=
  ∃ length run, g.Meets p ⟨.longer length, run⟩ ∧
    Text.bound64 ≤ (g.fillings ⟨.longer length, run⟩).length

/-- A slot that has too many fillings `Overflows` because it meets itself. -/
theorem overflows_of_le (h : Text.bound64 ≤ (g.fillings ⟨.longer length, run⟩).length) :
    g.Overflows ⟨.longer length, run⟩ :=
  ⟨length, run, .refl, h⟩

/-- A slot overflows if one does that it puts in place. -/
theorem Overflows.of_puts (hputs : g.Puts p q) (h : g.Overflows q) : g.Overflows p := by
  obtain ⟨length, run, hmeets, hle⟩ := h
  exact ⟨length, run, .head hputs hmeets, hle⟩

/-- A number has no `count64?` exactly if 64 bits cannot hold it, `bound64 ≤ n`. -/
theorem count64?_eq_none_iff : count64? n = none ↔ Text.bound64 ≤ n := by
  rw [count64?]
  split
  · next h => simpa using h
  · next h => simpa using h

/-- The texts of a production (`renderings`) are among the `fillings` of its slot, so there are not
more of them. -/
theorem length_renderings_le (h : production ∈ g.productions length) (run : Nat) :
    (g.renderings run production).length ≤ (g.fillings ⟨.longer length, run⟩).length := by
  rw [fillings_longer, List.flatMap_def]
  exact (List.sublist_flatten_of_mem (List.mem_map_of_mem h)).length_le

/-- A detachment has as many texts as there are pairs of fillings of its slots: the product of both
lengths. -/
theorem length_renderings_detach (g : Grammar) (run : Nat) (major minor : Slot) :
    (g.renderings run (.detach major minor)).length =
      (g.fillings ⟨major, 0⟩).length * (g.fillings ⟨minor, 0⟩).length := by
  simp [renderings, List.length_flatMap]

/-- A total that is present fits: if `tally` gives `some n` from a total below `bound64`, then
`n < bound64`. -/
theorem lt_of_tally (htotal : total < Text.bound64) (h : g.tally tallies run total ps = some n) :
    n < Text.bound64 := by
  induction ps generalizing total with
  | nil => rwa [← Option.some.inj h]
  | cons production ps ih =>
    rw [tally] at h
    split at h
    · cases h
    · next first _ =>
      split at h
      · cases h
      · next sum hsum =>
        rw [count64?, Option.ite_none_right_eq_some] at hsum
        exact ih (Option.some.inj hsum.2 ▸ hsum.1) h

/-- The `tally` is absent as soon as the `productionCount` of one of the productions is. By
induction on the productions: the sum stops at the first absent count. -/
theorem tally_eq_none_of_mem (hmem : production ∈ ps)
    (h : g.productionCount tallies run production = none) (total : Nat) :
    g.tally tallies run total ps = none := by
  induction ps generalizing total with
  | nil => exact absurd hmem List.not_mem_nil
  | cons first ps ih =>
    rw [tally]
    split
    · rfl
    · next m hfirst =>
      rcases List.mem_cons.mp hmem with rfl | hmem
      · rw [h] at hfirst
        cases hfirst
      · split
        · rfl
        · exact ih hmem _

/-- The converse of `tally_eq_none_of_mem`: a `tally` is absent only if a `productionCount` is, or
if the total and all texts together do not fit below `bound64`. -/
theorem of_tally_eq_none (hps : ∀ production ∈ ps, ∀ n,
      g.productionCount tallies run production = some n →
        (g.renderings run production).length = n)
    (h : g.tally tallies run total ps = none) :
    (∃ production ∈ ps, g.productionCount tallies run production = none) ∨
      Text.bound64 ≤ total + (ps.flatMap (g.renderings run)).length := by
  induction ps generalizing total with
  | nil => cases h
  | cons production ps ih =>
    obtain ⟨hfirst, hrest⟩ := List.forall_mem_cons.mp hps
    rw [tally] at h
    rw [List.flatMap_cons, List.length_append, ← Nat.add_assoc]
    split at h
    · next hnone => exact .inl ⟨production, List.mem_cons_self, hnone⟩
    · next n hsome =>
      rw [hfirst n hsome]
      split at h
      · next hsum =>
        exact .inr (Nat.le_trans (count64?_eq_none_iff.mp hsum) (Nat.le_add_right _ _))
      · next sum hsum =>
        rw [count64?, Option.ite_none_right_eq_some] at hsum
        obtain rfl := Option.some.inj hsum.2
        rcases ih hrest h with ⟨other, hother, hnone⟩ | hle
        · exact .inl ⟨other, List.mem_cons_of_mem _ hother, hnone⟩
        · exact .inr hle

/-- A `productionCount` is absent only if the `slotCount` of a slot is which the production `Puts`
in place, or if the production has too many texts for 64 bits. -/
theorem of_productionCount_eq_none (hexact : g.Exact tallies) (hpairs : g.WellPaired)
    (hlongest : g.knownLimit ≤ longestEntry) (hbeyond : g.knownLimit < length)
    (hmem : production ∈ g.productions length)
    (h : g.productionCount tallies run production = none) :
    (∃ q, g.Puts ⟨.longer length, run⟩ q ∧ g.slotCount tallies q.slot q.run = none) ∨
      Text.bound64 ≤ (g.renderings run production).length := by
  cases production with
  | necessitate inner =>
    rw [productionCount] at h
    split at h
    · next hallows =>
      exact .inl ⟨⟨inner, run + 1⟩, puts_longer_iff.mpr (.inl ⟨inner, hmem, hallows, rfl⟩), h⟩
    · cases h
  | detach major minor =>
    have hputs : ∀ q, q = ⟨major, 0⟩ ∨ q = ⟨minor, 0⟩ → g.Puts ⟨.longer length, run⟩ q :=
      fun q hq => puts_longer_iff.mpr (.inr ⟨major, minor, hmem, hq⟩)
    have hslot : ∀ slot ∈ (Production.detach major minor).slots, ∀ {n},
        g.slotCount tallies slot 0 = some n → (g.fillings ⟨slot, 0⟩).length = n := by
      intro slot hslot n hcount
      obtain ⟨part, -, rfl⟩ := exists_slotFor_of_mem_productions hpairs hbeyond hmem hslot
      exact hexact.slotFor hlongest hcount
    rw [productionCount] at h
    cases hmajor : g.slotCount tallies major 0 with
    | none => exact .inl ⟨⟨major, 0⟩, hputs _ (.inl rfl), hmajor⟩
    | some a =>
      cases hminor : g.slotCount tallies minor 0 with
      | none => exact .inl ⟨⟨minor, 0⟩, hputs _ (.inr rfl), hminor⟩
      | some b =>
        -- Both counts are there and exact, so it is their product that is too large.
        rw [hmajor, hminor] at h
        rw [length_renderings_detach, hslot major (by simp [Production.slots]) hmajor,
          hslot minor (by simp [Production.slots]) hminor]
        exact .inr (count64?_eq_none_iff.mp h)

/-- Absence goes upwards along `Puts`: the `slotCount` of `p` is absent if that of a `q` with
`g.Puts p q` is. -/
theorem slotCount_eq_none_of_puts (hpairs : g.WellPaired) (h : g.InReach p) (hputs : g.Puts p q)
    (hnone : g.slotCount g.tallies q.slot q.run = none) :
    g.slotCount g.tallies p.slot p.run = none := by
  obtain ⟨slot, run⟩ := p
  cases slot with
  | known length => exact absurd hputs not_puts_known
  | longer length =>
    show g.slotCount g.tallies (.longer length) run = none
    rw [slotCount_longer hpairs h.knownLimit_lt h.allows h.le_maxLength]
    rcases puts_longer_iff.mp hputs with ⟨inner, hproduction, hallows, rfl⟩ |
      ⟨major, minor, hproduction, rfl | rfl⟩
    · refine tally_eq_none_of_mem hproduction ?_ 0
      rw [productionCount, if_pos hallows]
      exact hnone
    · refine tally_eq_none_of_mem hproduction ?_ 0
      rw [productionCount, hnone]
    · refine tally_eq_none_of_mem hproduction ?_ 0
      rw [productionCount, hnone]
      split
      · next heq => cases heq
      · rfl

/-- An absent `slotCount` has a reason: by induction on the length of the slot, a slot is met that
has too many fillings. -/
theorem overflows_of_slotCount (hpairs : g.WellPaired) (hlongest : g.knownLimit ≤ longestEntry)
    (h : g.InReach p) (hnone : g.slotCount g.tallies p.slot p.run = none) : g.Overflows p := by
  induction hlength : p.slot.length using Nat.strongRecOn generalizing p with
  | _ bound ih =>
    obtain ⟨slot, run⟩ := p
    cases slot with
    | known length => cases hnone
    | longer length =>
      have hbeyond := h.knownLimit_lt
      have hexact := exact_tallies hpairs hlongest
      have htally : g.tally g.tallies run 0 (g.productions length) = none := by
        rw [← slotCount_longer hpairs hbeyond h.allows h.le_maxLength]
        exact hnone
      have hcounts : ∀ production ∈ g.productions length, ∀ n,
          g.productionCount g.tallies run production = some n →
            (g.renderings run production).length = n := by
        intro production hproduction n hcount
        refine hexact.productionCount hlongest (fun slot hslot => ?_) hcount
        obtain ⟨part, -, rfl⟩ :=
          exists_slotFor_of_mem_productions hpairs hbeyond hproduction hslot
        exact ⟨part, rfl⟩
      -- A tally is absent because of one production, or because the sum is too large.
      rcases of_tally_eq_none hcounts htally with ⟨production, hproduction, habsent⟩ | hle
      · rcases of_productionCount_eq_none hexact hpairs hlongest hbeyond hproduction habsent with
          ⟨q, hputs, habsent⟩ | hle
        · exact .of_puts hputs
            (ih _ (hlength ▸ length_lt_of_puts hputs) (h.puts hpairs hputs) habsent rfl)
        · exact overflows_of_le (Nat.le_trans hle (length_renderings_le hproduction run))
      · rw [Nat.zero_add, ← fillings_longer] at hle
        exact overflows_of_le hle

/-- The converse: a slot that is met and has too many fillings makes its own `slotCount` absent, and
so that of every slot on the way, by `slotCount_eq_none_of_puts`. -/
theorem slotCount_of_overflows (hpairs : g.WellPaired) (hlongest : g.knownLimit ≤ longestEntry)
    (h : g.InReach p) (hover : g.Overflows p) : g.slotCount g.tallies p.slot p.run = none := by
  obtain ⟨length, run, hmeets, hle⟩ := hover
  induction hmeets using Relation.ReflTransGen.head_induction_on with
  | refl =>
    show g.slotCount g.tallies (.longer length) run = none
    rw [Option.eq_none_iff_forall_ne_some]
    intro n hcount
    have hnumber := exact_tallies hpairs hlongest length run n h.knownLimit_lt hcount
    rw [slotCount_longer hpairs h.knownLimit_lt h.allows h.le_maxLength] at hcount
    have hfits := lt_of_tally (by decide) hcount
    omega
  | head hputs _ ih =>
    exact slotCount_eq_none_of_puts hpairs h hputs (ih (h.puts hpairs hputs))

/-- A `slotCount` of a slot in reach is absent exactly if the slot `Overflows`. -/
theorem slotCount_eq_none_iff (hpairs : g.WellPaired) (hlongest : g.knownLimit ≤ longestEntry)
    (h : g.InReach p) : g.slotCount g.tallies p.slot p.run = none ↔ g.Overflows p :=
  ⟨overflows_of_slotCount hpairs hlongest h, slotCount_of_overflows hpairs hlongest h⟩

end Detachment.Grammar
