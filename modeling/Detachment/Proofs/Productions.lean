import Mathlib.Data.List.Nodup
import Detachment.Candidates.Grammar

/-! # The productions of a length

The pairs of premise lengths are a finite table, with one entry for all lengths beyond the limit.
Read together, the productions they give for a length split it in every possible way, each way once.

* `mem_premisePairs` and `nodup_premisePairs` say which pairs are in the table.
* `Grammar.mem_rules_iff` says which productions a length has before those that cannot be followed
  are left out.
* `Grammar.nodup_productions` says that no production is listed twice. -/

namespace Detachment

variable {limit length a b : Nat} {necessitation : Bool} {x y : PremiseLength}

/-! ## Pairs of lengths -/

/-- A premise length stands for a number: `.known` for itself, `.longer` for any length beyond the
limit. -/
def PremiseLength.Covers (limit : Nat) (necessitation : Bool) : PremiseLength → Nat → Prop
  | known length, a => length = a
  | longer, a => limit < a ∧ canHaveLength necessitation a

/-- The lengths of the table (`knownLengths`) are those up to the limit that proofs can have. -/
theorem mem_knownLengths :
    a ∈ knownLengths limit necessitation ↔
      1 ≤ a ∧ a ≤ limit ∧ canHaveLength necessitation a := by
  rw [knownLengths, List.mem_filter, List.mem_range'_1]
  constructor
  · rintro ⟨⟨hpos, hle⟩, hparity⟩
    exact ⟨hpos, by omega, hparity⟩
  · rintro ⟨hpos, hle, hparity⟩
    exact ⟨⟨hpos, by omega⟩, hparity⟩

/-- A premise has a length of the table or a longer one (`.longer`). -/
theorem mem_premiseLengths :
    x ∈ premiseLengths limit necessitation ↔
      (∃ a ∈ knownLengths limit necessitation, .known a = x) ∨ x = .longer := by
  rw [premiseLengths, List.mem_append, List.mem_map, List.mem_singleton]

/-- No premise length is listed twice in `premiseLengths`. -/
theorem nodup_premiseLengths (limit : Nat) (necessitation : Bool) :
    (premiseLengths limit necessitation).Nodup := by
  have hknown : (knownLengths limit necessitation).Nodup := (List.nodup_range' 1).filter _
  refine List.Nodup.append (hknown.map fun a b h => ?_) (List.nodup_singleton _) ?_
  · exact PremiseLength.known.inj h
  · intro x hx hlonger
    obtain ⟨a, -, rfl⟩ := List.mem_map.mp hx
    cases List.mem_singleton.mp hlonger

/-- The pairs of the table `premisePairs` are those whose detachment is beyond the limit, at their
`least` lengths. -/
theorem mem_premisePairs :
    (x, y) ∈ premisePairs limit necessitation ↔
      x ∈ premiseLengths limit necessitation ∧ y ∈ premiseLengths limit necessitation ∧
        limit < 1 + x.least limit + y.least limit := by
  simp only [premisePairs, List.mem_flatMap, List.mem_map, List.mem_filter, Prod.mk.injEq,
    decide_eq_true_eq]
  constructor
  · rintro ⟨major, hmajor, minor, ⟨hminor, hbeyond⟩, rfl, rfl⟩
    exact ⟨hmajor, hminor, hbeyond⟩
  · rintro ⟨hx, hy, hbeyond⟩
    exact ⟨x, hx, y, ⟨hy, hbeyond⟩, rfl, rfl⟩

/-- No pair is listed twice in `premisePairs`. -/
theorem nodup_premisePairs (limit : Nat) (necessitation : Bool) :
    (premisePairs limit necessitation).Nodup := by
  refine List.nodup_flatMap.mpr ⟨?_, ?_⟩
  · intro major _
    refine ((nodup_premiseLengths limit necessitation).filter _).map ?_
    exact fun a b h => (Prod.mk.inj h).2
  · refine (nodup_premiseLengths limit necessitation).imp ?_
    intro major major' hne pair hpair hpair'
    obtain ⟨minor, _, rfl⟩ := List.mem_map.mp hpair
    obtain ⟨minor', _, heq⟩ := List.mem_map.mp hpair'
    exact hne (Prod.mk.inj heq).1.symm

/-- Every length that a proof can have (`canHaveLength`) is that of some premise, which `Covers`
it. -/
theorem exists_premiseLength (limit : Nat) (hpos : 1 ≤ a)
    (hparity : canHaveLength necessitation a) :
    ∃ x ∈ premiseLengths limit necessitation,
      x.Covers limit necessitation a ∧ x.least limit = min a (limit + 1) := by
  by_cases hle : a ≤ limit
  · have hknown := mem_knownLengths.mpr ⟨hpos, hle, hparity⟩
    refine ⟨.known a, mem_premiseLengths.mpr (.inl ⟨a, hknown, rfl⟩), rfl, ?_⟩
    rw [PremiseLength.least, Nat.min_eq_left (by omega)]
  · have hlt : limit < a := Nat.not_le.mp hle
    refine ⟨.longer, mem_premiseLengths.mpr (.inr rfl), ⟨hlt, hparity⟩, ?_⟩
    rw [PremiseLength.least, Nat.min_eq_right hlt]

/-- What a premise length `Covers` is a length that proofs can have. -/
theorem PremiseLength.Covers.spec (hx : x ∈ premiseLengths limit necessitation)
    (h : x.Covers limit necessitation a) : 1 ≤ a ∧ canHaveLength necessitation a := by
  rcases mem_premiseLengths.mp hx with ⟨b, hb, rfl⟩ | rfl
  · obtain ⟨hpos, -, hparity⟩ := mem_knownLengths.mp hb
    obtain rfl : b = a := h
    exact ⟨hpos, hparity⟩
  · exact ⟨Nat.one_le_of_lt h.1, h.2⟩

/-- No two premise lengths of the table `Covers` the same number. A known length covers itself, and
the others are covered by `.longer`. -/
theorem PremiseLength.Covers.unique (hx : x ∈ premiseLengths limit necessitation)
    (hy : y ∈ premiseLengths limit necessitation) (h : x.Covers limit necessitation a)
    (h' : y.Covers limit necessitation a) : x = y := by
  rcases mem_premiseLengths.mp hx with ⟨b, hb, rfl⟩ | rfl <;>
    rcases mem_premiseLengths.mp hy with ⟨c, hc, rfl⟩ | rfl
  · obtain rfl : b = a := h
    obtain rfl : c = b := h'
    rfl
  · obtain rfl : b = a := h
    exact absurd h'.1 (Nat.not_lt.mpr (mem_knownLengths.mp hb).2.1)
  · obtain rfl : c = a := h'
    exact absurd h.1 (Nat.not_lt.mpr (mem_knownLengths.mp hc).2.1)
  · rfl

namespace Grammar

variable {g : Grammar} {p : Production}

/-! ## Detachments -/

/-- A length up to the limit has a slot for entries of the table, `.known`. -/
theorem slotFor_of_le (h : a ≤ g.knownLimit) : g.slotFor a = .known a :=
  if_pos h

/-- A length beyond the limit has a slot for longer proofs, `.longer`. -/
theorem slotFor_of_lt (h : g.knownLimit < a) : g.slotFor a = .longer a :=
  if_neg (Nat.not_le.mpr h)

/-- Slots for different lengths are different: `slotFor` is injective. -/
theorem slotFor_inj (h : g.slotFor a = g.slotFor b) : a = b := by
  rw [← length_slotFor g a, h, length_slotFor]

/-- Two odd lengths and a rule symbol make an odd length, so `canHaveLength` carries over to
detachments. -/
theorem canHaveLength_detach (ha : canHaveLength necessitation a)
    (hb : canHaveLength necessitation b) : canHaveLength necessitation (a + b + 1) := by
  cases necessitation with
  | true => rfl
  | false =>
    simp only [canHaveLength, Bool.false_or, beq_iff_eq] at ha hb ⊢
    omega

/-- The `detachments` of a pair are those whose premises have lengths that the pair `Covers`. The
four cases are those of two premises, each known or longer. -/
theorem mem_detachments_iff (hx : x ∈ premiseLengths g.knownLimit g.necessitation.isEnabled)
    (hy : y ∈ premiseLengths g.knownLimit g.necessitation.isEnabled) :
    p ∈ g.detachments length (x, y) ↔
      ∃ a b, x.Covers g.knownLimit g.necessitation.isEnabled a ∧
        y.Covers g.knownLimit g.necessitation.isEnabled b ∧ a + b + 1 = length ∧
        p = .detach (g.slotFor a) (g.slotFor b) := by
  rcases mem_premiseLengths.mp hx with ⟨a, ha, rfl⟩ | rfl <;>
    rcases mem_premiseLengths.mp hy with ⟨b, hb, rfl⟩ | rfl
  -- Two known lengths fix the length, and one known length fixes the other one.
  · have hslots := And.intro (slotFor_of_le (mem_knownLengths.mp ha).2.1)
      (slotFor_of_le (mem_knownLengths.mp hb).2.1)
    rw [detachments, List.mem_ite_nil_right, List.mem_singleton]
    constructor
    · rintro ⟨hlength, rfl⟩
      exact ⟨a, b, rfl, rfl, hlength, by rw [hslots.1, hslots.2]⟩
    · rintro ⟨_, _, rfl, rfl, hlength, rfl⟩
      exact ⟨hlength, by rw [hslots.1, hslots.2]⟩
  · have hslot := slotFor_of_le (mem_knownLengths.mp ha).2.1
    rw [detachments, List.mem_ite_nil_right, List.mem_singleton]
    constructor
    · rintro ⟨⟨hlt, hbeyond, hparity⟩, rfl⟩
      exact ⟨a, length - 1 - a, rfl, ⟨hbeyond, hparity⟩, by omega,
        by rw [hslot, slotFor_of_lt hbeyond]⟩
    · rintro ⟨_, b, rfl, ⟨hbeyond, hparity⟩, rfl, rfl⟩
      rw [hslot, slotFor_of_lt hbeyond, show a + b + 1 - 1 - a = b by omega]
      exact ⟨⟨by omega, hbeyond, hparity⟩, rfl⟩
  · have hslot := slotFor_of_le (mem_knownLengths.mp hb).2.1
    rw [detachments, List.mem_ite_nil_right, List.mem_singleton]
    constructor
    · rintro ⟨⟨hlt, hbeyond, hparity⟩, rfl⟩
      exact ⟨length - 1 - b, b, ⟨hbeyond, hparity⟩, rfl, by omega,
        by rw [hslot, slotFor_of_lt hbeyond]⟩
    · rintro ⟨a, _, ⟨hbeyond, hparity⟩, rfl, rfl, rfl⟩
      rw [hslot, slotFor_of_lt hbeyond, show a + b + 1 - 1 - b = a by omega]
      exact ⟨⟨by omega, hbeyond, hparity⟩, rfl⟩
  -- Two unknown lengths are found by trying all major premises beyond the limit.
  · rw [detachments, List.mem_ite_nil_right, List.mem_filterMap]
    constructor
    · rintro ⟨-, a, ha, hp⟩
      obtain ⟨⟨hlt, hbeyond', hparity, hparity'⟩, hp⟩ := Option.ite_none_right_eq_some.mp hp
      have hbeyond : g.knownLimit < a := (List.mem_range'_1.mp ha).1
      refine ⟨a, length - 1 - a, ⟨hbeyond, hparity⟩, ⟨hbeyond', hparity'⟩, by omega, ?_⟩
      rw [slotFor_of_lt hbeyond, slotFor_of_lt hbeyond']
      exact (Option.some.inj hp).symm
    · rintro ⟨a, b, ⟨hbeyond, hparity⟩, ⟨hbeyond', hparity'⟩, rfl, rfl⟩
      refine ⟨canHaveLength_detach hparity hparity', a, ?_, ?_⟩
      · rw [List.mem_range'_1]
        omega
      · rw [slotFor_of_lt hbeyond, slotFor_of_lt hbeyond', show a + b + 1 - 1 - a = b by omega]
        exact if_pos ⟨by omega, hbeyond', hparity, hparity'⟩

/-- The `detachments` of a pair are all different. Only a pair of longer premises has more than one
of them. -/
theorem nodup_detachments (g : Grammar) (length : Nat) (pair : PremiseLength × PremiseLength) :
    (g.detachments length pair).Nodup := by
  rcases pair with ⟨a | _, b | _⟩ <;> rw [detachments]
  · split <;> simp
  · split <;> simp
  · split <;> simp
  · split
    · -- The major slot gives back the number at which the length was split.
      refine (List.nodup_range' 1).filterMap fun a b p ha hb => ?_
      simp only [Option.mem_def, Option.ite_none_right_eq_some, Option.some.injEq] at ha hb
      obtain ⟨-, rfl⟩ := ha
      obtain ⟨-, heq⟩ := hb
      exact (Slot.longer.inj (Production.detach.inj heq).1).symm
    · exact List.nodup_nil

/-! ## Productions -/

/-- The productions of a length, those that cannot be followed included: at most one necessitation,
and the `detachments` of all pairs. -/
def rules (g : Grammar) (length : Nat) : List Production :=
  g.necessitations length ++ g.pairs.flatMap (g.detachments length)

/-- A grammar reads the pairs of lengths from the table for its limit, `premisePairs`. -/
def WellPaired (g : Grammar) : Prop :=
  g.pairs = premisePairs g.knownLimit g.necessitation.isEnabled

/-- There is at most one necessitation of a length, and its slot is for the length before. -/
theorem mem_necessitations_iff :
    p ∈ g.necessitations length ↔
      g.necessitation.isEnabled ∧ 2 ≤ length ∧ p = .necessitate (g.slotFor (length - 1)) := by
  rw [necessitations, List.mem_ite_nil_right, List.mem_singleton, Bool.and_eq_true,
    decide_eq_true_eq, and_assoc]

/-- A length beyond the limit is that of a necessitation, or is split in two in any way that the
parity of the lengths (`canHaveLength`) allows. -/
theorem mem_rules_iff (hpairs : g.WellPaired) (hbeyond : g.knownLimit < length) :
    p ∈ g.rules length ↔
      (g.necessitation.isEnabled ∧ 2 ≤ length ∧ p = .necessitate (g.slotFor (length - 1))) ∨
        ∃ a b, 1 ≤ a ∧ 1 ≤ b ∧ canHaveLength g.necessitation.isEnabled a ∧
          canHaveLength g.necessitation.isEnabled b ∧ a + b + 1 = length ∧
          p = .detach (g.slotFor a) (g.slotFor b) := by
  rw [rules, List.mem_append, mem_necessitations_iff, List.mem_flatMap, hpairs]
  refine or_congr_right ⟨?_, ?_⟩
  · rintro ⟨⟨x, y⟩, hpair, hp⟩
    obtain ⟨hx, hy, -⟩ := mem_premisePairs.mp hpair
    obtain ⟨a, b, ha, hb, hlength, hp⟩ := (mem_detachments_iff hx hy).mp hp
    exact ⟨a, b, (ha.spec hx).1, (hb.spec hy).1, (ha.spec hx).2, (hb.spec hy).2, hlength, hp⟩
  · rintro ⟨a, b, hapos, hbpos, haparity, hbparity, rfl, rfl⟩
    obtain ⟨x, hx, hcover, hleast⟩ := exists_premiseLength g.knownLimit hapos haparity
    obtain ⟨y, hy, hcover', hleast'⟩ := exists_premiseLength g.knownLimit hbpos hbparity
    refine ⟨(x, y), mem_premisePairs.mpr ⟨hx, hy, ?_⟩,
      (mem_detachments_iff hx hy).mpr ⟨a, b, hcover, hcover', rfl, rfl⟩⟩
    rw [hleast, hleast']
    omega

/-- No production is listed twice in `rules`: different pairs cover different splits, by
`Covers.unique`. -/
theorem nodup_rules (hpairs : g.WellPaired) (length : Nat) : (g.rules length).Nodup := by
  refine List.Nodup.append ?_ (List.nodup_flatMap.mpr ⟨?_, ?_⟩) ?_
  · rw [necessitations]
    split <;> simp
  · exact fun pair _ => g.nodup_detachments length pair
  · -- A production gives back the lengths of its premises, and these the pair they belong to.
    rw [hpairs]
    refine (nodup_premisePairs _ _).imp_of_mem ?_
    rintro ⟨x, y⟩ ⟨x', y'⟩ hpair hpair' hne p hp hp'
    obtain ⟨hx, hy, -⟩ := mem_premisePairs.mp hpair
    obtain ⟨hx', hy', -⟩ := mem_premisePairs.mp hpair'
    obtain ⟨a, b, ha, hb, -, rfl⟩ := (mem_detachments_iff hx hy).mp hp
    obtain ⟨a', b', ha', hb', -, heq⟩ := (mem_detachments_iff hx' hy').mp hp'
    obtain rfl := slotFor_inj (Production.detach.inj heq).1
    obtain rfl := slotFor_inj (Production.detach.inj heq).2
    exact hne (by rw [ha.unique hx hx' ha', hb.unique hy hy' hb'])
  · intro p hnecessitation hdetachment
    obtain ⟨-, -, rfl⟩ := mem_necessitations_iff.mp hnecessitation
    rw [hpairs] at hdetachment
    obtain ⟨⟨x, y⟩, hpair, hp⟩ := List.mem_flatMap.mp hdetachment
    obtain ⟨hx, hy, -⟩ := mem_premisePairs.mp hpair
    obtain ⟨a, b, -, -, -, heq⟩ := (mem_detachments_iff hx hy).mp hp
    cases heq

/-- The `productions` are the `rules` whose slots can be filled (`isRealizable`). -/
theorem mem_productions_iff :
    p ∈ g.productions length ↔ p ∈ g.rules length ∧ ∀ slot ∈ p.slots, g.isRealizable slot := by
  rw [productions, List.mem_filter, canFollow, List.all_eq_true, rules]

/-- The slots of a production are those of the smaller lengths that it is made of. -/
theorem exists_slotFor_of_mem_productions (hpairs : g.WellPaired) (hbeyond : g.knownLimit < length)
    (hp : p ∈ g.productions length) {slot : Slot} (hslot : slot ∈ p.slots) :
    ∃ part < length, slot = g.slotFor part := by
  rcases (mem_rules_iff hpairs hbeyond).mp (mem_productions_iff.mp hp).1 with
    ⟨-, hlength, rfl⟩ | ⟨a, b, -, -, -, -, rfl, rfl⟩
  · exact ⟨length - 1, by omega, List.mem_singleton.mp hslot⟩
  · rcases List.mem_cons.mp hslot with rfl | hslot
    · exact ⟨a, by omega, rfl⟩
    · exact ⟨b, by omega, List.mem_singleton.mp hslot⟩

/-- No production that can be followed is listed twice, as no rule is. -/
theorem nodup_productions (hpairs : g.WellPaired) (length : Nat) :
    (g.productions length).Nodup :=
  (nodup_rules hpairs length).filter _

end Grammar

end Detachment
