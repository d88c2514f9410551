import Mathlib.Algebra.Order.BigOperators.Group.List
import Mathlib.Algebra.Order.Group.Nat
import Mathlib.Data.Nat.Init
import Detachment.Proofs.AbsentCounts

/-! # Numbers of candidates

A count that is present is the number of candidates. One that is absent may say too much: some slot
on the way has more fillings than 64 bits can count, but a limit for necessitations can leave
nothing to detach them from.

* `Grammar.Arranged` says which slots count as fillable, whatever the table has.
* `Grammar.Grounded.length_fillings_mono` says that numbers grow with the length if the table has an
  axiom.
* `Grammar.generate_counted` says that a search delivers as many candidates as were counted.
* `Grammar.counts_eq_none_iff` says when a count is absent, and when this means that it does not
  fit. -/

namespace Detachment.Grammar

variable {g : Grammar} {slot : Slot} {length run run' n : Nat} {production : Production}
  {p q : Pending}

/-! ## Slots that count as fillable -/

/-- The slots of a rule for `length` are for smaller lengths. -/
theorem length_lt_of_mem_rules (hpairs : g.WellPaired) (hbeyond : g.knownLimit < length)
    (hrule : production ∈ g.rules length) (hslot : slot ∈ production.slots) :
    slot.length < length := by
  rcases (mem_rules_iff hpairs hbeyond).mp hrule with
    ⟨-, hlength, rfl⟩ | ⟨a, b, -, -, -, -, rfl, rfl⟩
  · rw [List.mem_singleton.mp hslot, length_slotFor]
    omega
  · rcases List.mem_cons.mp hslot with rfl | hslot
    · rw [length_slotFor]
      omega
    · rw [List.mem_singleton.mp hslot, length_slotFor]
      omega

/-- Settling one length more (`extend`) leaves `isRealizable` of the lengths as it is that were
settled before. -/
theorem isRealizable_extend (h : slot.length < g.realizable.size) :
    g.extend.isRealizable slot = g.isRealizable slot := by
  rw [isRealizable, isRealizable, extend, @Array.getD_eq_getD_getElem? _ (g.realizable.push _),
    Array.getElem?_push, if_neg (Nat.ne_of_lt h), ← Array.getD_eq_getD_getElem?]

/-- A length keeps its `productions` when longer ones are settled, as they are made of slots for
smaller lengths. -/
theorem productions_extend (hpairs : g.WellPaired) (hbeyond : g.knownLimit < length)
    (hlength : length ≤ g.realizable.size) : g.extend.productions length = g.productions length := by
  show (g.rules length).filter g.extend.canFollow = (g.rules length).filter g.canFollow
  refine List.filter_congr fun production hrule => ?_
  rw [canFollow, canFollow, Bool.eq_iff_iff, List.all_eq_true, List.all_eq_true]
  refine forall₂_congr fun slot hslot => ?_
  have hsmaller := length_lt_of_mem_rules hpairs hbeyond hrule hslot
  rw [isRealizable_extend (hsmaller.trans_le hlength)]

/-- Of the lengths beyond the limit that are settled, those count as fillable (`isRealizable`) that
have `productions`. -/
def Decided (g : Grammar) : Prop :=
  ∀ length, g.knownLimit < length → length < g.realizable.size →
    (g.isRealizable (.longer length) ↔ g.productions length ≠ [])

/-- The step lemma for `Decided`: settling one length more goes by its productions. The productions
of the lengths before it stay the same (`productions_extend`). -/
theorem Decided.extend (h : g.Decided) (hpairs : g.WellPaired) : g.extend.Decided := by
  intro length hbeyond hlength
  have hle : length ≤ g.realizable.size := by
    rw [Grammar.extend, Array.size_push] at hlength
    exact Nat.lt_succ_iff.mp hlength
  rw [productions_extend hpairs hbeyond hle]
  rcases hle.lt_or_eq with hlt | rfl
  · have hsame : g.extend.isRealizable (.longer length) = g.isRealizable (.longer length) :=
      isRealizable_extend hlt
    rw [hsame]
    exact h length hbeyond hlt
  · have hpos : 1 ≤ g.realizable.size := Nat.one_le_of_lt hbeyond
    rw [isRealizable, Slot.length, Grammar.extend, Array.getD_eq_getD_getElem?,
      Array.getElem?_push_size, Option.getD_some, decide_eq_true hpos, Bool.true_and, canBuild_eq,
      Bool.not_eq_true', List.isEmpty_eq_false_iff]

/-- The run lemma for `Decided`: settling more lengths, one at a time, goes by their productions and
leaves `isRealizable` of the others as it is. -/
theorem Decided.foldl_extend (h : g.Decided) (hpairs : g.WellPaired) (ns : List Nat) :
    (ns.foldl (fun g _ => g.extend) g).Decided ∧
      ∀ slot : Slot, slot.length < g.realizable.size →
        (ns.foldl (fun g _ => g.extend) g).isRealizable slot = g.isRealizable slot := by
  induction ns generalizing g with
  | nil => exact ⟨h, fun _ _ => rfl⟩
  | cons n ns ih =>
    obtain ⟨hdecided, hsame⟩ := ih (h.extend hpairs) hpairs
    refine ⟨hdecided, fun slot hslot => (hsame slot ?_).trans (isRealizable_extend hslot)⟩
    rw [Grammar.extend, Array.size_push]
    exact Nat.lt_succ_of_lt hslot

/-- A grammar for any table, with every length settled that it is prepared for. Unlike a grammar for
a table of proofs, its slots may count as fillable although nothing fills them. -/
structure Arranged (g : Grammar) : Prop where
  /-- The pairs of lengths are those for the limit. -/
  paired : g.WellPaired
  /-- All known lengths can be referred to. -/
  le_longest : g.knownLimit ≤ longestEntry
  /-- Known lengths count as fillable if they can have proofs and the table has some. -/
  known_iff : ∀ length, 1 ≤ length → length ≤ g.knownLimit → (g.isRealizable (.known length) ↔
    canHaveLength g.necessitation.isEnabled length ∧ g.table.row length ≠ [])
  /-- Lengths beyond the limit count as fillable if they have productions. -/
  longer_iff : ∀ length, g.knownLimit < length → length ≤ g.maxLength →
    (g.isRealizable (.longer length) ↔ g.productions length ≠ [])

/-- Whatever the table has, `prepare` gives an `Arranged` grammar. The known lengths are as `start`
has them, and the longer ones are `Decided`. -/
theorem arranged_prepare (table : Representatives) {knownLimit : Nat}
    (hlongest : knownLimit ≤ longestEntry) (limit : NecessitationLimit) (maxLength : Nat) :
    (prepare table knownLimit limit maxLength).Arranged := by
  have hsize : (start table knownLimit limit maxLength).realizable.size = knownLimit + 1 := by
    simp [start]
  have hstart : (start table knownLimit limit maxLength).Decided := by
    intro length hbeyond hlength
    exact absurd hlength (Nat.not_lt.mpr (hsize ▸ hbeyond))
  obtain ⟨hdecided, hsame⟩ := hstart.foldl_extend rfl (List.range (maxLength - knownLimit))
  refine ⟨wellPaired_prepare _ _ _ _, ?_, fun length hpos hle => ?_, fun length hbeyond hle => ?_⟩
  · rwa [prepare_knownLimit]
  · rw [prepare_knownLimit] at hle
    rw [prepare_necessitation, prepare_table, prepare, hsame _ (hsize ▸ Nat.lt_succ_of_le hle)]
    simp [isRealizable, start, Array.getD_eq_getD_getElem?, Slot.length, Nat.lt_succ_of_le hle, hpos]
  · refine hdecided length hbeyond ?_
    rw [prepare_knownLimit] at hbeyond
    rw [prepare_maxLength] at hle
    rw [size_foldl_extend, hsize, List.length_range]
    omega

/-! ## Longer runs before a slot -/

/-- The more necessitations stand before a slot, the fewer `fillings` it has: the limit leaves less
for the slot itself. -/
theorem length_fillings_anti (slot : Slot) (hrun : run ≤ run') :
    (g.fillings ⟨slot, run'⟩).length ≤ (g.fillings ⟨slot, run⟩).length := by
  induction hlength : slot.length using Nat.strongRecOn generalizing slot run run' with
  | _ bound ih =>
    cases slot with
    | known length =>
      rw [fillings_known, fillings_known]
      split
      · refine (List.monotone_filter_right _ fun proof hproof => ?_).length_le
        exact NecessitationLimit.allows_of_le (Nat.add_le_add_right hrun _) hproof
      · exact Nat.le_refl _
    | longer length =>
      rw [fillings_longer, fillings_longer, List.length_flatMap, List.length_flatMap]
      -- Production by production: a longer run before the slot leaves fewer necessitations.
      refine List.sum_le_sum fun production hproduction => ?_
      cases production with
      | necessitate inner =>
        rw [renderings, renderings]
        split
        · next hallows =>
          have hsmaller : inner.length < bound :=
            hlength ▸ length_lt_of_puts (p := ⟨.longer length, run'⟩) (q := ⟨inner, run' + 1⟩)
              (puts_longer_iff.mpr (.inl ⟨inner, hproduction, hallows, rfl⟩))
          rw [if_pos (NecessitationLimit.allows_of_le (Nat.succ_le_succ hrun) hallows),
            List.length_map, List.length_map]
          exact ih _ hsmaller inner (Nat.succ_le_succ hrun) rfl
        · exact Nat.zero_le _
      | detach major minor => exact Nat.le_refl _

/-! ## Numbers that grow with the length -/

/-- Only lengths that proofs can have (`canHaveLength`) have productions. -/
theorem canHaveLength_of_mem_productions (hpairs : g.WellPaired) (hbeyond : g.knownLimit < length)
    (h : production ∈ g.productions length) : canHaveLength g.necessitation.isEnabled length := by
  rcases (mem_rules_iff hpairs hbeyond).mp (mem_productions_iff.mp h).1 with
    ⟨henabled, -⟩ | ⟨a, b, -, -, ha, hb, rfl, -⟩
  · rw [canHaveLength, henabled, Bool.true_or]
  · exact canHaveLength_detach ha hb

/-- A slot `.longer length` that has `fillings` has `productions`. -/
theorem exists_production_of_fillings (h : g.fillings ⟨.longer length, run⟩ ≠ []) :
    ∃ production, production ∈ g.productions length := by
  rw [fillings_longer] at h
  refine List.exists_mem_of_ne_nil _ fun hnil => h ?_
  rw [hnil, List.flatMap_nil]

/-- Slots that count as fillable are for proofs, which have at least one symbol. -/
theorem one_le_length_of_isRealizable (h : g.isRealizable slot) : 1 ≤ slot.length := by
  rw [isRealizable, Bool.and_eq_true, decide_eq_true_eq] at h
  exact h.1

/-- If proofs can have the lengths `a` and `b`, and both count as fillable, then
`productions (a + b + 1)` has the detachment of their slots. -/
theorem detach_mem_productions {a b : Nat} (hpairs : g.WellPaired)
    (hbeyond : g.knownLimit < a + b + 1) (ha : canHaveLength g.necessitation.isEnabled a)
    (hb : canHaveLength g.necessitation.isEnabled b) (hreal : g.isRealizable (g.slotFor a))
    (hreal' : g.isRealizable (g.slotFor b)) :
    .detach (g.slotFor a) (g.slotFor b) ∈ g.productions (a + b + 1) := by
  have hpos : 1 ≤ a := by simpa using one_le_length_of_isRealizable hreal
  have hpos' : 1 ≤ b := by simpa using one_le_length_of_isRealizable hreal'
  refine mem_productions_iff.mpr ⟨(mem_rules_iff hpairs hbeyond).mpr (.inr ⟨a, b, hpos, hpos', ha, hb,
    rfl, rfl⟩), fun slot hslot => ?_⟩
  rcases List.mem_cons.mp hslot with rfl | hslot
  · exact hreal
  · rw [List.mem_singleton.mp hslot]
    exact hreal'

/-- The table has a proof of length one without necessitations, as every axiom is. -/
def Grounded (g : Grammar) : Prop :=
  1 ≤ g.knownLimit ∧ ∃ proof ∈ g.table.row 1, Proof.leadingNecessitations proof = 0

/-- With such a proof, the slot `.known 1` after no run can be filled. -/
theorem Grounded.length_fillings_pos (h : g.Grounded) : 0 < (g.fillings ⟨.known 1, 0⟩).length := by
  obtain ⟨-, proof, hproof, hplain⟩ := h
  rw [fillings_known, if_pos (by decide)]
  refine List.length_pos_of_mem (List.mem_filter.mpr ⟨hproof, ?_⟩)
  rw [hplain]
  exact NecessitationLimit.allows_zero _

/-- With such a proof, the slot `.known 1` counts as fillable. -/
theorem Grounded.isRealizable (h : g.Grounded) (hg : g.Arranged) : g.isRealizable (.known 1) := by
  obtain ⟨hone, proof, hproof, -⟩ := h
  refine (hg.known_iff 1 (Nat.le_refl 1) hone).mpr ⟨?_, List.ne_nil_of_mem hproof⟩
  exact Bool.or_true _

/-- Everything can be detached from an axiom: a length with productions is the minor part of a
production of `length + 2` whose major part is `.known 1`. -/
theorem Grounded.detach_mem_productions (h : g.Grounded) (hg : g.Arranged)
    (hbeyond : g.knownLimit < length) (hle : length ≤ g.maxLength)
    (hlength : production ∈ g.productions length) :
    .detach (.known 1) (.longer length) ∈ g.productions (length + 2) := by
  have hreal := (hg.longer_iff length hbeyond hle).mpr (List.ne_nil_of_mem hlength)
  have hparity := canHaveLength_of_mem_productions hg.paired hbeyond hlength
  rw [← slotFor_of_le h.1, ← slotFor_of_lt hbeyond, show length + 2 = 1 + length + 1 by omega]
  refine Grammar.detach_mem_productions hg.paired (by omega) (Bool.or_true _) hparity ?_ ?_
  · rw [slotFor_of_le h.1]
    exact h.isRealizable hg
  · rwa [slotFor_of_lt hbeyond]

/-- A length has no more candidates than the next but one, whatever run stands before that: put an
axiom before each of them (`detach_mem_productions`). -/
theorem Grounded.length_fillings_le_add_two (h : g.Grounded) (hg : g.Arranged)
    (hbeyond : g.knownLimit < length) (hle : length ≤ g.maxLength) (run : Nat) :
    (g.fillings ⟨.longer length, 0⟩).length ≤ (g.fillings ⟨.longer (length + 2), run⟩).length := by
  by_cases hnone : g.fillings ⟨.longer length, 0⟩ = []
  · rw [hnone]
    exact Nat.zero_le _
  · obtain ⟨production, hproduction⟩ := exists_production_of_fillings hnone
    calc (g.fillings ⟨.longer length, 0⟩).length
        ≤ (g.fillings ⟨.known 1, 0⟩).length * (g.fillings ⟨.longer length, 0⟩).length :=
          Nat.le_mul_of_pos_left _ h.length_fillings_pos
      _ = (g.renderings run (.detach (.known 1) (.longer length))).length :=
          (g.length_renderings_detach run _ _).symm
      _ ≤ (g.fillings ⟨.longer (length + 2), run⟩).length :=
          length_renderings_le (h.detach_mem_productions hg hbeyond hle hproduction) run

/-- If any necessitation is allowed (`isEnabled`), one is. -/
theorem allows_one {limit : NecessitationLimit} (h : limit.isEnabled) : limit.allows 1 := by
  cases limit with
  | disabled => cases h
  | bounded most => simpa [NecessitationLimit.isEnabled, NecessitationLimit.allows,
      Nat.one_le_iff_ne_zero] using h
  | unbounded => rfl

/-- With necessitation, a length has no more candidates than the third one after it: put a
necessitation and an axiom before each of them. -/
theorem Grounded.length_fillings_le_add_three (h : g.Grounded) (hg : g.Arranged)
    (henabled : g.necessitation.isEnabled) (hbeyond : g.knownLimit < length)
    (hle : length + 2 ≤ g.maxLength) :
    (g.fillings ⟨.longer length, 0⟩).length ≤ (g.fillings ⟨.longer (length + 3), 0⟩).length := by
  by_cases hnone : g.fillings ⟨.longer length, 0⟩ = []
  · rw [hnone]
    exact Nat.zero_le _
  · obtain ⟨production, hproduction⟩ := exists_production_of_fillings hnone
    have hdetach := h.detach_mem_productions hg hbeyond (by omega) hproduction
    have hmem : .necessitate (.longer (length + 2)) ∈ g.productions (length + 3) := by
      refine mem_productions_iff.mpr ⟨(mem_rules_iff hg.paired (by omega)).mpr
        (.inl ⟨henabled, by omega, ?_⟩), fun slot hslot => ?_⟩
      · rw [Nat.add_sub_cancel (m := 1) (n := length + 2), slotFor_of_lt (by omega)]
      · rw [List.mem_singleton.mp hslot]
        exact (hg.longer_iff _ (by omega) hle).mpr (List.ne_nil_of_mem hdetach)
    calc (g.fillings ⟨.longer length, 0⟩).length
        ≤ (g.fillings ⟨.longer (length + 2), 1⟩).length :=
          h.length_fillings_le_add_two hg hbeyond (by omega) 1
      _ = (g.renderings 0 (.necessitate (.longer (length + 2)))).length := by
          rw [renderings, if_pos (allows_one henabled), List.length_map]
      _ ≤ (g.fillings ⟨.longer (length + 3), 0⟩).length := length_renderings_le hmem 0

/-- A length has no more candidates than one that is longer by at least two, if proofs can have
both. The steps of two and three from `length_fillings_le_add_two` and
`length_fillings_le_add_three` reach all of them. -/
theorem Grounded.length_fillings_mono (h : g.Grounded) (hg : g.Arranged)
    (hbeyond : g.knownLimit < length) {more : Nat} (hle : length + 2 + more ≤ g.maxLength)
    (hparity : canHaveLength g.necessitation.isEnabled length)
    (hparity' : canHaveLength g.necessitation.isEnabled (length + 2 + more)) :
    (g.fillings ⟨.longer length, 0⟩).length ≤
      (g.fillings ⟨.longer (length + 2 + more), 0⟩).length := by
  induction more using Nat.twoStepInduction with
  | zero => exact h.length_fillings_le_add_two hg hbeyond (by omega) 0
  | one =>
    -- One of the two lengths is even.
    have henabled : g.necessitation.isEnabled := by
      simp only [canHaveLength, Bool.or_eq_true, beq_iff_eq] at hparity hparity'
      rcases hparity, hparity' with ⟨henabled | hodd, henabled' | hodd'⟩
      · exact henabled
      · exact henabled
      · exact henabled'
      · omega
    exact h.length_fillings_le_add_three hg henabled hbeyond (by omega)
  | more more ih _ =>
    have hbefore : canHaveLength g.necessitation.isEnabled (length + 2 + more) := by
      simp only [canHaveLength, Bool.or_eq_true, beq_iff_eq] at hparity' ⊢
      exact hparity'.imp_right fun hodd => by omega
    exact (ih (by omega) hbefore).trans
      (h.length_fillings_le_add_two hg (by omega) (by omega) 0)

/-! ## What is met and what comes of it -/

/-- What is put in place of a slot (`Puts`) has no more fillings, as behind a necessitation, or it
is shorter by at least two, as in a detachment. -/
theorem le_or_of_puts (h : g.Puts p q) :
    (g.fillings q).length ≤ (g.fillings p).length ∨ q.slot.length + 2 ≤ p.slot.length := by
  obtain ⟨slot, run⟩ := p
  cases slot with
  | known length => exact absurd h not_puts_known
  | longer length =>
    rcases puts_longer_iff.mp h with ⟨inner, hproduction, hallows, rfl⟩ |
      ⟨major, minor, hproduction, hq⟩
    · have htexts := length_renderings_le hproduction run
      rw [renderings, if_pos hallows, List.length_map] at htexts
      exact .inl htexts
    · have hsum : major.length + (minor.length + 0) + 1 = length :=
        length_of_mem_productions hproduction
      have hslots := (mem_productions_iff.mp hproduction).2
      have hmajor := one_le_length_of_isRealizable (hslots major (by simp [Production.slots]))
      have hminor := one_le_length_of_isRealizable (hslots minor (by simp [Production.slots]))
      refine .inr ?_
      rcases hq with rfl | rfl
      · show major.length + 2 ≤ length
        omega
      · show minor.length + 2 ≤ length
        omega

/-- The same for all slots that are met (`Meets`), by induction on the steps of `Puts`. -/
theorem le_or_of_meets (h : g.Meets p q) :
    (g.fillings q).length ≤ (g.fillings p).length ∨ q.slot.length + 2 ≤ p.slot.length := by
  -- Whatever is met further down is shorter, so that one detachment on the way is enough.
  suffices hboth : q.slot.length ≤ p.slot.length ∧ ((g.fillings q).length ≤ (g.fillings p).length ∨
      q.slot.length + 2 ≤ p.slot.length) from hboth.2
  induction h using Relation.ReflTransGen.head_induction_on with
  | refl => exact ⟨Nat.le_refl _, .inl (Nat.le_refl _)⟩
  | head hputs _ ih =>
    have hshorter := length_lt_of_puts hputs
    refine ⟨by omega, ?_⟩
    rcases ih.2 with hfewer | hshort
    · exact (le_or_of_puts hputs).imp hfewer.trans fun hshort => by omega
    · exact .inr (by omega)

/-- What is met from a slot in reach is in reach, by induction on the steps of `Puts`. -/
theorem InReach.meets (h : g.InReach p) (hpairs : g.WellPaired) (hmeets : g.Meets p q) :
    g.InReach q := by
  induction hmeets with
  | refl => exact h
  | tail _ hputs ih => exact ih.puts hpairs hputs

/-- With an axiom in the table, a prepared length has too many candidates itself if its slot
`Overflows`: what is met either has no more fillings, or is shorter by two, and then
`length_fillings_mono` applies. -/
theorem Grounded.le_length_of_overflows (h : g.Grounded) (hg : g.Arranged)
    (hlength : length ≤ g.maxLength) (hover : g.Overflows ⟨g.slotFor length, 0⟩) :
    Text.bound64 ≤ (g.fillings ⟨g.slotFor length, 0⟩).length := by
  obtain ⟨part, run, hmeets, hmany⟩ := hover
  rcases le_or_of_meets hmeets with hfewer | hshort
  · exact hmany.trans hfewer
  · rw [length_slotFor, Slot.length] at hshort
    have hbeyond := ((inReach_slotFor hlength).meets hg.paired hmeets).knownLimit_lt
    rw [slotFor_of_lt (show g.knownLimit < length by omega)] at hmeets ⊢
    -- Both lengths have productions, so that proofs can have them.
    have hpart : g.fillings ⟨.longer part, run⟩ ≠ [] :=
      List.ne_nil_of_length_pos (Nat.lt_of_lt_of_le (by decide) hmany)
    obtain ⟨production, hproduction⟩ := exists_production_of_fillings hpart
    have hparity := canHaveLength_of_mem_productions hg.paired hbeyond hproduction
    have hparity' : canHaveLength g.necessitation.isEnabled length := by
      rcases hmeets.cases_head with heq | ⟨q, hputs, -⟩
      · cases heq
        omega
      · rcases puts_longer_iff.mp hputs with ⟨inner, hmem, -⟩ | ⟨major, minor, hmem, -⟩
        · exact canHaveLength_of_mem_productions hg.paired (by omega) hmem
        · exact canHaveLength_of_mem_productions hg.paired (by omega) hmem
    obtain ⟨more, rfl⟩ := Nat.exists_eq_add_of_le hshort
    calc Text.bound64
        ≤ (g.fillings ⟨.longer part, run⟩).length := hmany
      _ ≤ (g.fillings ⟨.longer part, 0⟩).length := length_fillings_anti _ (Nat.zero_le run)
      _ ≤ (g.fillings ⟨.longer (part + 2 + more), 0⟩).length :=
          h.length_fillings_mono hg hbeyond hlength hparity hparity'

/-! ## No limit for necessitations -/

/-- Without a limit for necessitations, every slot that counts as fillable can be filled, after any
run. -/
theorem Arranged.length_fillings_pos (hg : g.Arranged) (hlimit : g.necessitation = .unbounded)
    (hlength : length ≤ g.maxLength) (h : g.isRealizable (g.slotFor length)) (run : Nat) :
    0 < (g.fillings ⟨g.slotFor length, run⟩).length := by
  induction length using Nat.strongRecOn generalizing run with
  | _ length ih =>
    by_cases hknown : length ≤ g.knownLimit
    · rw [slotFor_of_le hknown] at h ⊢
      have hrow := ((hg.known_iff length (one_le_length_of_isRealizable h) hknown).mp h).2
      rw [fillings_known, if_pos (hknown.trans hg.le_longest), fitting, hlimit]
      simpa [NecessitationLimit.allows, List.length_pos_iff] using hrow
    · have hbeyond := Nat.not_le.mp hknown
      rw [slotFor_of_lt hbeyond] at h ⊢
      obtain ⟨production, hproduction⟩ :=
        List.exists_mem_of_ne_nil _ ((hg.longer_iff length hbeyond hlength).mp h)
      -- A slot can be filled if it is realizable, so its production can be followed.
      have hslots : ∀ slot ∈ production.slots, ∀ run, 0 < (g.fillings ⟨slot, run⟩).length := by
        intro slot hslot run
        have hreal := (mem_productions_iff.mp hproduction).2 slot hslot
        obtain ⟨part, hpart, rfl⟩ :=
          exists_slotFor_of_mem_productions hg.paired hbeyond hproduction hslot
        exact ih part hpart (by omega) hreal run
      refine Nat.lt_of_lt_of_le ?_ (length_renderings_le hproduction run)
      cases production with
      | necessitate inner =>
        have hallows : g.necessitation.allows (run + 1) := by rw [hlimit, NecessitationLimit.allows]
        rw [renderings, if_pos hallows, List.length_map]
        exact hslots inner (by simp [Production.slots]) _
      | detach major minor =>
        rw [length_renderings_detach]
        exact Nat.mul_pos (hslots major (by simp [Production.slots]) 0)
          (hslots minor (by simp [Production.slots]) 0)

/-- Without a limit, what is put in place of a slot has no more fillings: the other slot of a
detachment can be filled, too, by `length_fillings_pos`. -/
theorem Arranged.length_fillings_le_of_puts (hg : g.Arranged)
    (hlimit : g.necessitation = .unbounded) (hp : g.InReach p) (h : g.Puts p q) :
    (g.fillings q).length ≤ (g.fillings p).length := by
  obtain ⟨slot, run⟩ := p
  cases slot with
  | known length => exact absurd h not_puts_known
  | longer length =>
    have hbeyond := hp.knownLimit_lt
    have hle : run + length ≤ g.maxLength := hp.le_maxLength
    rcases puts_longer_iff.mp h with ⟨inner, hproduction, hallows, rfl⟩ |
      ⟨major, minor, hproduction, hq⟩
    · have htexts := length_renderings_le hproduction run
      rwa [renderings, if_pos hallows, List.length_map] at htexts
    · have hpos : ∀ slot ∈ (Production.detach major minor).slots,
          0 < (g.fillings ⟨slot, 0⟩).length := by
        intro slot hslot
        have hreal := (mem_productions_iff.mp hproduction).2 slot hslot
        obtain ⟨part, hpart, rfl⟩ :=
          exists_slotFor_of_mem_productions hg.paired hbeyond hproduction hslot
        exact hg.length_fillings_pos hlimit (by omega) hreal 0
      refine Nat.le_trans ?_ (length_renderings_le hproduction run)
      rw [length_renderings_detach]
      rcases hq with rfl | rfl
      · exact Nat.le_mul_of_pos_right _ (hpos minor (by simp [Production.slots]))
      · exact Nat.le_mul_of_pos_left _ (hpos major (by simp [Production.slots]))

/-- Without a limit, a slot has too many fillings itself if it `Overflows`. -/
theorem Arranged.le_length_of_overflows (hg : g.Arranged) (hlimit : g.necessitation = .unbounded)
    (hp : g.InReach p) (hover : g.Overflows p) : Text.bound64 ≤ (g.fillings p).length := by
  obtain ⟨part, run, hmeets, hmany⟩ := hover
  induction hmeets using Relation.ReflTransGen.head_induction_on with
  | refl => exact hmany
  | head hputs _ ih =>
    exact (ih (hp.puts hg.paired hputs)).trans (hg.length_fillings_le_of_puts hlimit hp hputs)

/-! ## Counts and candidates -/

section counts

variable {table : Representatives} {knownLimit : Nat} {limit : NecessitationLimit} {maxLength : Nat}

/-- A prepared length has its own count: `counts [length]` succeeds with `count g.tallies
length`. -/
theorem counts_singleton (hlength : length ≤ g.maxLength) :
    g.counts [length] = .ok [g.count g.tallies length] := by
  have hfind : [length].find? (g.maxLength < ·) = none := by simpa using hlength
  rw [counts, hfind]
  rfl

/-- Too many fillings are only met from slots beyond `knownLimit`. -/
theorem Overflows.knownLimit_lt (h : g.Overflows ⟨g.slotFor length, 0⟩) : g.knownLimit < length := by
  by_contra hle
  rw [slotFor_of_le (Nat.not_lt.mp hle)] at h
  obtain ⟨part, run, hmeets, -⟩ := h
  rcases hmeets.cases_head with heq | ⟨q, hputs, -⟩
  · cases heq
  · exact not_puts_known hputs

/-- Too many fillings are only met from slots that count as fillable. Such a slot has fillings or a
part that is met, and so it has a production. -/
theorem Overflows.isRealizable (h : g.Overflows ⟨g.slotFor length, 0⟩) (hg : g.Arranged)
    (hlength : length ≤ g.maxLength) : g.isRealizable (g.slotFor length) := by
  have hbeyond := h.knownLimit_lt
  rw [slotFor_of_lt hbeyond] at h ⊢
  obtain ⟨part, run, hmeets, hmany⟩ := h
  refine (hg.longer_iff length hbeyond hlength).mpr ?_
  rcases hmeets.cases_head with heq | ⟨q, hputs, -⟩
  · cases heq
    obtain ⟨production, hmem⟩ := exists_production_of_fillings
      (List.ne_nil_of_length_pos (Nat.lt_of_lt_of_le (by decide) hmany))
    exact List.ne_nil_of_mem hmem
  · rcases puts_longer_iff.mp hputs with ⟨inner, hmem, -⟩ | ⟨major, minor, hmem, -⟩
    · exact List.ne_nil_of_mem hmem
    · exact List.ne_nil_of_mem hmem

/-- The count of a prepared length is absent, `counts [length] = .ok [none]`, exactly if its slot
`Overflows`. -/
theorem Arranged.counts_absent_iff (hg : g.Arranged) (hlength : length ≤ g.maxLength) :
    g.counts [length] = .ok [none] ↔ g.Overflows ⟨g.slotFor length, 0⟩ := by
  rw [counts_singleton hlength, Except.ok.injEq, List.cons.injEq, and_iff_left rfl, count]
  split
  · exact slotCount_eq_none_iff hg.paired hg.le_longest (inReach_slotFor hlength)
  · next hreal =>
    constructor
    · intro h
      cases h
    · intro h
      exact absurd (h.isRealizable hg hlength) hreal

/-- Where something comes of every slot that is met, a slot `Overflows` exactly if its length lies
beyond the limit and the number of its candidates (`found`) does not fit into 64 bits. -/
theorem Arranged.overflows_iff (hg : g.Arranged) (hlength : length ≤ g.maxLength)
    (h : g.necessitation = .unbounded ∨ g.Grounded) :
    g.Overflows ⟨g.slotFor length, 0⟩ ↔
      g.knownLimit < length ∧ Text.bound64 ≤ (g.found length).length := by
  rw [found]
  constructor
  · intro hover
    rw [if_pos (hover.isRealizable hg hlength)]
    refine ⟨hover.knownLimit_lt, ?_⟩
    rcases h with hlimit | hgrounded
    · exact hg.le_length_of_overflows hlimit (inReach_slotFor hlength) hover
    · exact hgrounded.le_length_of_overflows hg hlength hover
  · rintro ⟨hbeyond, hmany⟩
    split at hmany
    · rw [slotFor_of_lt hbeyond] at hmany ⊢
      exact overflows_of_le hmany
    · exact absurd hmany (by decide)

/-- If the number of candidates of a prepared length was counted, `counts [length] = .ok [some n]`,
whoever asks for them (`generate`) and never stops gets this many, and is told so. -/
theorem generate_counted (hlongest : knownLimit ≤ longestEntry)
    (hg : g = prepare table knownLimit limit maxLength) (hlength : length ≤ max maxLength knownLimit)
    (hcount : g.counts [length] = .ok [some n]) :
    (g.candidates [length]).length = n ∧ ∀ {β : Type} (note : β → String → β) (state : β),
      g.generate false (fun state text => (note state text, false)) state [length] =
        ⟨(g.candidates [length]).foldl note state, .ok n⟩ := by
  have hprepared : length ≤ g.maxLength := by rwa [hg, prepare_maxLength]
  have harranged : g.Arranged := hg ▸ arranged_prepare table hlongest limit maxLength
  rw [counts_singleton hprepared, Except.ok.injEq, List.cons.injEq] at hcount
  have hnumber := length_found_of_count harranged.paired harranged.le_longest hcount.1
  have hlengths : ∀ other ∈ [length], other ≤ g.maxLength := by simpa using hprepared
  rw [candidates_eq g hlengths, List.flatMap_singleton]
  refine ⟨hnumber, fun note state => ?_⟩
  rw [generate_eq g note state hlengths, List.flatMap_singleton, hnumber]

/-- A table with a proof that is listed twice and one with too many necessitations gives eight
candidates of length four, as counted. -/
theorem generate_counted_repeated :
    (prepare ⟨[[], ["1", "1"], ["N1", "NN"]], []⟩ 2 (.bounded 1) 4).counts [4] = .ok [some 8] ∧
      ((prepare ⟨[[], ["1", "1"], ["N1", "NN"]], []⟩ 2 (.bounded 1) 4).candidates [4]).length = 8 ∧
      (prepare ⟨[[], ["1", "1"], ["N1", "NN"]], []⟩ 2 (.bounded 1) 4).generate false
        (fun seen _ => (seen + 1, false)) 0 [4] = ⟨8, .ok 8⟩ := by
  have hcount : (prepare ⟨[[], ["1", "1"], ["N1", "NN"]], []⟩ 2 (.bounded 1) 4).counts [4] =
      .ok [some 8] := by decide +kernel
  obtain ⟨hnumber, hgenerate⟩ := generate_counted (by decide) rfl (by decide) hcount
  refine ⟨hcount, hnumber, ?_⟩
  rw [hgenerate fun seen _ => seen + 1, List.foldl_const, hnumber]
  rfl

/-- The count of a prepared length is absent, `counts [length] = .ok [none]`, exactly if its slot
`Overflows`: a slot is met that has more fillings than 64 bits can count, even if nothing comes of
it. Where necessitations have no limit, or the table has a proof of length one without
necessitations, such as an axiom, something comes of it: the count is absent exactly if the number
of `candidates` does not fit itself. -/
theorem counts_eq_none_iff (hlongest : knownLimit ≤ longestEntry)
    (hg : g = prepare table knownLimit limit maxLength)
    (hlength : length ≤ max maxLength knownLimit) :
    (g.counts [length] = .ok [none] ↔ g.Overflows ⟨g.slotFor length, 0⟩) ∧
    (limit = .unbounded ∨
        (1 ≤ knownLimit ∧ ∃ proof ∈ table.row 1, Proof.leadingNecessitations proof = 0) →
      (g.counts [length] = .ok [none] ↔
        knownLimit < length ∧ Text.bound64 ≤ (g.candidates [length]).length)) := by
  have hprepared : length ≤ g.maxLength := by rwa [hg, prepare_maxLength]
  have harranged : g.Arranged := hg ▸ arranged_prepare table hlongest limit maxLength
  refine ⟨harranged.counts_absent_iff hprepared, fun h => ?_⟩
  have hcomes : g.necessitation = .unbounded ∨ g.Grounded := by
    rwa [Grounded, hg, prepare_necessitation, prepare_knownLimit, prepare_table]
  rw [harranged.counts_absent_iff hprepared, harranged.overflows_iff hprepared hcomes,
    candidates_eq g (by simpa using hprepared), List.flatMap_singleton, hg, prepare_knownLimit]

end counts

/-! ## A table without axioms -/

/-- A length that counts as fillable can be detached from itself, which gives the square of the
number of its fillings at the length `length + length + 1`. -/
theorem Arranged.sq_length_fillings_le (hg : g.Arranged) (hbeyond : g.knownLimit < length + length + 1)
    (hle : length + length + 1 ≤ g.maxLength)
    (hparity : canHaveLength g.necessitation.isEnabled length)
    (hreal : g.isRealizable (g.slotFor length)) :
    g.isRealizable (g.slotFor (length + length + 1)) ∧ (g.fillings ⟨g.slotFor length, 0⟩).length ^ 2 ≤
      (g.fillings ⟨g.slotFor (length + length + 1), 0⟩).length := by
  have hmem := detach_mem_productions hg.paired hbeyond hparity hparity hreal hreal
  rw [slotFor_of_lt hbeyond]
  refine ⟨(hg.longer_iff _ hbeyond hle).mpr (List.ne_nil_of_mem hmem), ?_⟩
  rw [Nat.pow_two, ← g.length_renderings_detach 0]
  exact length_renderings_le hmem 0

/-- Doing so `steps` times doubles `length + 1` and squares the number each time. By induction on
`steps`, each of which is `sq_length_fillings_le`. -/
theorem Arranged.pow_length_fillings_le (hg : g.Arranged) (hodd : length % 2 = 1)
    (hbeyond : g.knownLimit < length + length + 1) (hreal : g.isRealizable (g.slotFor length))
    (steps : Nat) (hle : (length + 1) * 2 ^ steps - 1 ≤ g.maxLength) :
    g.isRealizable (g.slotFor ((length + 1) * 2 ^ steps - 1)) ∧
      (g.fillings ⟨g.slotFor length, 0⟩).length ^ 2 ^ steps ≤
        (g.fillings ⟨g.slotFor ((length + 1) * 2 ^ steps - 1), 0⟩).length := by
  induction steps with
  | zero => simpa using hreal
  | succ steps ih =>
    have hdouble : (length + 1) * 2 ^ (steps + 1) =
        (length + 1) * 2 ^ steps + (length + 1) * 2 ^ steps := by
      rw [Nat.pow_succ, ← Nat.mul_assoc, Nat.mul_two]
    have hge : length + 1 ≤ (length + 1) * 2 ^ steps :=
      Nat.le_mul_of_pos_right _ (Nat.two_pow_pos steps)
    have heven : 2 ∣ (length + 1) * 2 ^ steps := Dvd.dvd.mul_right (by omega) _
    rw [hdouble] at hle ⊢
    generalize (length + 1) * 2 ^ steps = total at ih hge heven hle ⊢
    obtain ⟨hreal', hpow⟩ := ih (by omega)
    have hparity : canHaveLength g.necessitation.isEnabled (total - 1) := by
      rw [canHaveLength, show (total - 1) % 2 = 1 by omega, beq_self_eq_true, Bool.or_true]
    have hlast : total + total - 1 = (total - 1) + (total - 1) + 1 := by omega
    rw [hlast] at hle ⊢
    obtain ⟨hnext, hsquare⟩ := hg.sq_length_fillings_le (by omega) hle hparity hreal'
    refine ⟨hnext, ?_⟩
    calc (g.fillings ⟨g.slotFor length, 0⟩).length ^ 2 ^ (steps + 1)
        = ((g.fillings ⟨g.slotFor length, 0⟩).length ^ 2 ^ steps) ^ 2 := by
          rw [Nat.pow_succ, Nat.pow_mul]
      _ ≤ (g.fillings ⟨g.slotFor (total - 1), 0⟩).length ^ 2 := Nat.pow_le_pow_left hpow 2
      _ ≤ (g.fillings ⟨g.slotFor ((total - 1) + (total - 1) + 1), 0⟩).length := hsquare

/-- Without necessitations, if all entries that fit have lengths with `d ∣ length + 1`, then so have
all candidates: the length of a detachment is `a + b + 1`. -/
theorem dvd_of_fillings_ne_nil (hpairs : g.WellPaired) (hdisabled : g.necessitation.isEnabled = false)
    {d : Nat} (hknown : ∀ length ≤ g.knownLimit, g.fillings ⟨.known length, 0⟩ ≠ [] → d ∣ length + 1)
    (h : g.fillings ⟨g.slotFor length, 0⟩ ≠ []) : d ∣ length + 1 := by
  induction length using Nat.strongRecOn with
  | _ length ih =>
    by_cases hle : length ≤ g.knownLimit
    · rw [slotFor_of_le hle] at h
      exact hknown length hle h
    · have hbeyond := Nat.not_le.mp hle
      rw [slotFor_of_lt hbeyond, fillings_longer, Ne, List.flatMap_eq_nil_iff] at h
      push Not at h
      obtain ⟨production, hproduction, htexts⟩ := h
      rcases (mem_rules_iff hpairs hbeyond).mp (mem_productions_iff.mp hproduction).1 with
        ⟨henabled, -⟩ | ⟨a, b, -, -, -, -, rfl, rfl⟩
      · rw [hdisabled] at henabled
        cases henabled
      · have hpos := List.length_pos_iff.mpr htexts
        rw [length_renderings_detach] at hpos
        have ha := ih a (by omega) (List.ne_nil_of_length_pos (Nat.pos_of_mul_pos_right hpos))
        have hb := ih b (by omega) (List.ne_nil_of_length_pos (Nat.pos_of_mul_pos_left hpos))
        have hsum : a + b + 1 + 1 = (a + 1) + (b + 1) := by omega
        rw [hsum]
        exact Nat.dvd_add ha hb

/-- A table with sixteen proofs of length three, one of length five that starts with necessitations,
and some of length one. -/
def spacedTable (axioms : List String) : Representatives where
  rows := [[], axioms, [], ["D11", "D12", "D13", "D14", "D21", "D22", "D23", "D24", "D31", "D32", "D33",
    "D34", "D41", "D42", "D43", "D44"], [], ["NND11"]]
  symbols := []

/-- The grammar of a `spacedTable` up to length 69, without necessitations. -/
def spaced (axioms : List String) : Grammar :=
  prepare (spacedTable axioms) 5 .disabled 69

/-- These grammars are `Arranged`, by `arranged_prepare`. -/
theorem arranged_spaced (axioms : List String) : (spaced axioms).Arranged :=
  arranged_prepare (spacedTable axioms) (by decide) .disabled 69

/-- On the way to candidates of length 69, those of length 63 are met, which are `16 ^ 16` at least
and so too many. -/
theorem overflows_spaced (axioms : List String) :
    (spaced axioms).Overflows ⟨(spaced axioms).slotFor 69, 0⟩ := by
  have hg := arranged_spaced axioms
  have hknown : (spaced axioms).knownLimit = 5 := prepare_knownLimit ..
  have hmax : (spaced axioms).maxLength = 69 := prepare_maxLength ..
  have htable : (spaced axioms).table = spacedTable axioms := prepare_table ..
  have hlimit : (spaced axioms).necessitation = .disabled := prepare_necessitation ..
  generalize spaced axioms = g at hg hknown hmax htable hlimit ⊢
  have hparity : ∀ length, length % 2 = 1 → canHaveLength g.necessitation.isEnabled length := by
    intro length hodd
    rw [hlimit, canHaveLength, hodd]
    rfl
  have hreal : ∀ length, length = 3 ∨ length = 5 → g.isRealizable (g.slotFor length) := by
    intro length hlength
    rw [slotFor_of_le (by omega)]
    refine (hg.known_iff length (by omega) (by omega)).mpr ⟨hparity length (by omega), ?_⟩
    rw [htable]
    rcases hlength with rfl | rfl <;> exact List.cons_ne_nil _ _
  have hthree : (g.fillings ⟨g.slotFor 3, 0⟩).length = 16 := by
    rw [slotFor_of_le (by omega), fillings_known, if_pos (by decide), fitting, htable, hlimit]
    rfl
  -- Each detachment of two proofs of a length squares their number: `16 ^ 16` is too many.
  obtain ⟨hreal', hpow⟩ := hg.pow_length_fillings_le rfl (by omega) (hreal 3 (.inl rfl)) 4 (by omega)
  rw [hthree] at hpow
  have hmany : Text.bound64 ≤ (g.fillings ⟨g.slotFor 63, 0⟩).length :=
    Nat.le_trans (by decide) hpow
  have hmem : .detach (g.slotFor 63) (g.slotFor 5) ∈ g.productions 69 :=
    detach_mem_productions hg.paired (by omega) (hparity 63 rfl) (hparity 5 rfl) hreal'
      (hreal 5 (.inr rfl))
  rw [slotFor_of_lt (show g.knownLimit < 63 by omega)] at hmany hmem
  rw [slotFor_of_lt (show g.knownLimit < 69 by omega)]
  exact .of_puts (puts_longer_iff.mpr (.inr ⟨_, _, hmem, .inl rfl⟩)) (overflows_of_le hmany)

/-- With an axiom in the table, there are as many candidates of length 69. -/
theorem counts_eq_none_iff_spaced :
    (spaced ["1"]).counts [69] = .ok [none] ∧
      Text.bound64 ≤ ((spaced ["1"]).candidates [69]).length := by
  obtain ⟨habsent, hmany⟩ :=
    counts_eq_none_iff (g := spaced ["1"]) (by decide) rfl (show 69 ≤ max 69 5 by decide)
  have hcount := habsent.mpr (overflows_spaced ["1"])
  have hground : ∃ proof ∈ (spacedTable ["1"]).row 1, Proof.leadingNecessitations proof = 0 :=
    ⟨"1", List.mem_singleton_self _, by decide⟩
  exact ⟨hcount, ((hmany (.inr ⟨by decide, hground⟩)).mp hcount).2⟩

/-- Without an axiom in the table, the count of length 69 is absent although there are no candidates
of this length: all that fit have lengths one less than a multiple of four. -/
theorem not_counts_eq_none_only_if :
    (spaced []).counts [69] = .ok [none] ∧ (spaced []).candidates [69] = [] := by
  have hg := arranged_spaced []
  have hmax : (spaced []).maxLength = 69 := prepare_maxLength ..
  refine ⟨(hg.counts_absent_iff (by omega)).mpr (overflows_spaced []), ?_⟩
  have hknown : ∀ length ≤ (spaced []).knownLimit,
      (spaced []).fillings ⟨.known length, 0⟩ ≠ [] → 4 ∣ length + 1 := by
    intro length hle hne
    have hfitting : (spaced []).fitting length 0 = ((spacedTable []).row length).filter fun proof =>
        NecessitationLimit.disabled.allows (0 + Proof.leadingNecessitations proof) := by
      rw [fitting, spaced, prepare_table, prepare_necessitation]
    rw [spaced, prepare_knownLimit] at hle
    rw [fillings_known, hfitting] at hne
    by_cases hthree : length = 3
    · subst hthree
      decide
    · have hlengths : length = 0 ∨ length = 1 ∨ length = 2 ∨ length = 4 ∨ length = 5 := by omega
      rcases hlengths with rfl | rfl | rfl | rfl | rfl <;> exact absurd rfl hne
  have hnone : (spaced []).fillings ⟨(spaced []).slotFor 69, 0⟩ = [] := by
    by_contra hne
    exact absurd (dvd_of_fillings_ne_nil hg.paired rfl hknown hne) (by decide)
  rw [candidates_eq _ (by simpa using hmax.ge), List.flatMap_singleton, found, hnone, ite_self]

end Detachment.Grammar
