import Detachment.Candidates.Lengths
import Detachment.Representatives
import Detachment.Settings
import Detachment.Sums

/-! # The grammar of candidates

Candidates are proof texts built from the proofs of a table: a proof of a length that the table
covers is one of its entries, and a longer one is a necessitation or a detachment of smaller parts.

* `Grammar.productions` lists the ways to build a proof of a length from two slots or one.
* `Grammar.expansions` lists what a slot can be replaced by.
* `Grammar.weight_expansions_lt` says that a replacement is lighter than what it replaces. -/

namespace Detachment

/-- A place in a candidate where a proof has to stand. `Grammar.slotFor` tells which of the two it
is. -/
inductive Slot where
  /-- An entry of the table with this length. -/
  | known (length : Nat)
  /-- A proof of this length, which the table does not cover. -/
  | longer (length : Nat)
  deriving DecidableEq, Repr

/-- The length of the proof that a slot stands for. -/
def Slot.length : Slot → Nat
  | known length => length
  | longer length => length

/-- How a proof is built from smaller ones, by one of the two rules. -/
inductive Production where
  /-- A necessitation. -/
  | necessitate (inner : Slot)
  /-- A detachment. -/
  | detach (major minor : Slot)
  deriving DecidableEq, Repr

/-- The slots of a production, from left to right. -/
def Production.slots : Production → List Slot
  | necessitate inner => [inner]
  | detach major minor => [major, minor]

/-- A slot with the number of necessitations right before it, which limits those that may follow. -/
structure Pending where
  /-- The slot. -/
  slot : Slot
  /-- The number of necessitations right before it. -/
  run : Nat
  deriving DecidableEq, Repr

/-- One way to replace a slot: a text, and the slots that follow it. -/
structure Expansion where
  /-- The text. -/
  text : String
  /-- The slots after it. -/
  pending : List Pending
  deriving DecidableEq, Repr

/-- A table of proofs prepared for building longer ones, by `Grammar.prepare`. -/
structure Grammar where
  /-- The known proofs. -/
  table : Representatives
  /-- The largest length that the table covers. -/
  knownLimit : Nat
  /-- How many necessitations may follow one another. -/
  necessitation : NecessitationLimit
  /-- The largest length that is prepared. -/
  maxLength : Nat
  /-- The lengths that the premises of a detachment can have. -/
  pairs : List (PremiseLength × PremiseLength)
  /-- Whether there are slots with proofs, for each length from zero on. -/
  realizable : Array Bool

namespace Grammar

/-- The slot for a proof of a length: `known` up to the limit of the table. -/
def slotFor (g : Grammar) (length : Nat) : Slot :=
  if length ≤ g.knownLimit then .known length else .longer length

/-- Whether a slot can be filled. Lengths that are not prepared count as not `realizable`. -/
def isRealizable (g : Grammar) (slot : Slot) : Bool :=
  1 ≤ slot.length && g.realizable.getD slot.length false

/-- The detachments of a length whose premises have the given lengths. A `known` length leaves
`length - 1` less this length for the other premise. -/
def detachments (g : Grammar) (length : Nat) :
    PremiseLength × PremiseLength → List Production
  | (.known a, .known b) =>
    if a + b + 1 = length then [.detach (.known a) (.known b)] else []
  | (.known a, .longer) =>
    let b := length - 1 - a
    if a + 1 < length ∧ g.knownLimit < b ∧ canHaveLength g.necessitation.isEnabled b then
      [.detach (.known a) (.longer b)]
    else []
  | (.longer, .known b) =>
    let a := length - 1 - b
    if b + 1 < length ∧ g.knownLimit < a ∧ canHaveLength g.necessitation.isEnabled a then
      [.detach (.longer a) (.known b)]
    else []
  | (.longer, .longer) =>
    if canHaveLength g.necessitation.isEnabled length then
      (List.range' (g.knownLimit + 1) (length - 1 - (g.knownLimit + 1))).filterMap fun a =>
        let b := length - 1 - a
        if a + 1 < length ∧ g.knownLimit < b ∧ canHaveLength g.necessitation.isEnabled a ∧
            canHaveLength g.necessitation.isEnabled b then
          some (.detach (.longer a) (.longer b))
        else none
    else []

/-- The necessitation of a length, if there is one: its slot is one shorter. -/
def necessitations (g : Grammar) (length : Nat) : List Production :=
  if g.necessitation.isEnabled && 2 ≤ length then [.necessitate (g.slotFor (length - 1))] else []

/-- Whether the slots of a production can be filled, each of them being `isRealizable`. -/
def canFollow (g : Grammar) (p : Production) : Bool :=
  p.slots.all g.isRealizable

/-- The ways to build a proof of a length that the table does not cover, from slots that can be
filled (`canFollow`): the necessitation first, then the detachments in the order of the premises'
lengths. -/
def productions (g : Grammar) (length : Nat) : List Production :=
  (g.necessitations length ++ g.pairs.flatMap (g.detachments length)).filter g.canFollow

/-- Whether there is a way to build a proof of a length that the table does not cover. It says
whether there are `productions` without listing them (`canBuild_eq`). -/
def canBuild (g : Grammar) (length : Nat) : Bool :=
  (g.necessitations length).any g.canFollow ||
    g.pairs.any fun pair => (g.detachments length pair).any g.canFollow

/-- Settle for one length more whether proofs of it can be built (`canBuild`). -/
def extend (g : Grammar) : Grammar :=
  { g with realizable := g.realizable.push (g.canBuild g.realizable.size) }

/-- The grammar that settles only the lengths that the table covers: one is `realizable` if the
table has proofs of it. -/
def start (table : Representatives) (knownLimit : Nat) (necessitation : NecessitationLimit)
    (maxLength : Nat) : Grammar where
  table := table
  knownLimit := knownLimit
  necessitation := necessitation
  maxLength := max maxLength knownLimit
  pairs := premisePairs knownLimit necessitation.isEnabled
  realizable := (Array.range (knownLimit + 1)).map fun length =>
    1 ≤ length && canHaveLength necessitation.isEnabled length && !(table.row length).isEmpty

/-- Prepare to build proofs up to `maxLength` from a table that covers lengths up to `knownLimit`:
`extend` as often as there are lengths between. -/
def prepare (table : Representatives) (knownLimit : Nat) (necessitation : NecessitationLimit)
    (maxLength : Nat) : Grammar :=
  (List.range (maxLength - knownLimit)).foldl (fun g _ => g.extend)
    (start table knownLimit necessitation maxLength)

/-- The longest proofs of a table that a slot can stand for: what 16 bits can hold. -/
def longestEntry : Nat := 65535

/-- The entries of the table that can stand in a slot after a `run` of necessitations, which their
own add to. -/
def fitting (g : Grammar) (length run : Nat) : List String :=
  (g.table.row length).filter fun proof =>
    g.necessitation.allows (run + Proof.leadingNecessitations proof)

/-- What a production puts in the place of a slot, if the `run` of necessitations allows it. A
detachment starts runs anew. -/
def expansion? (g : Grammar) (run : Nat) : Production → Option Expansion
  | .necessitate inner =>
    if g.necessitation.allows (run + 1) then
      some ⟨String.singleton Proof.necessitateSymbol, [⟨inner, run + 1⟩]⟩
    else none
  | .detach major minor => some ⟨String.singleton Proof.detachSymbol, [⟨major, 0⟩, ⟨minor, 0⟩]⟩

/-- What a slot can be replaced by, in order: entries of the table (`fitting`), or what its
`productions` put there. -/
def expansions (g : Grammar) (p : Pending) : List Expansion :=
  match p.slot with
  | .known length =>
    if length ≤ longestEntry then (g.fitting length p.run).map (⟨·, []⟩) else []
  | .longer length => (g.productions length).filterMap (g.expansion? p.run)

end Grammar

/-! ## Weights -/

/-- A weight that a slot has and its replacements together do not reach: a slot weighs
`2 * length + 1`. -/
def Pending.weight (p : Pending) : Nat :=
  2 * p.slot.length + 1

/-- The weight of several slots, which falls with every replacement. -/
def weight (pending : List Pending) : Nat :=
  sumOf Pending.weight pending

/-- The weight of one more slot. -/
@[simp] theorem weight_cons (p : Pending) (rest : List Pending) :
    weight (p :: rest) = p.weight + weight rest := by
  simp [weight]

/-- The weight of more slots. -/
@[simp] theorem weight_append (ps qs : List Pending) :
    weight (ps ++ qs) = weight ps + weight qs := by
  simp [weight]

namespace Grammar

/-- The slot for a length has this length. -/
@[simp] theorem length_slotFor (g : Grammar) (length : Nat) : (g.slotFor length).length = length := by
  unfold slotFor
  split <;> rfl

/-- A length can be built if it has `productions`. It stops at the first one, where `productions`
lists them all. -/
theorem canBuild_eq (g : Grammar) (length : Nat) :
    g.canBuild length = !(g.productions length).isEmpty := by
  rw [Bool.eq_iff_iff]
  simp only [canBuild, productions, Bool.or_eq_true, List.any_eq_true, Bool.not_eq_true',
    List.isEmpty_eq_false_iff_exists_mem, List.mem_filter, List.mem_append, List.mem_flatMap]
  constructor
  · rintro (⟨p, hp, ok⟩ | ⟨pair, hpair, p, hp, ok⟩)
    · exact ⟨p, .inl hp, ok⟩
    · exact ⟨p, .inr ⟨pair, hpair, hp⟩, ok⟩
  · rintro ⟨p, hp | ⟨pair, hpair, hp⟩, ok⟩
    · exact .inl ⟨p, hp, ok⟩
    · exact .inr ⟨pair, hpair, p, hp, ok⟩

/-- The premises of a detachment and its rule symbol make up the length, whatever is known of the
lengths of the premises: there is one case for each pattern of `detachments`. -/
theorem length_of_mem_detachments {g : Grammar} {length : Nat}
    {pair : PremiseLength × PremiseLength} {p : Production} (h : p ∈ g.detachments length pair) :
    ∃ major minor, p = .detach major minor ∧ major.length + minor.length + 1 = length := by
  obtain ⟨a | _, b | _⟩ := pair
  · obtain ⟨hlength, hp⟩ := List.mem_ite_nil_right.mp h
    exact ⟨_, _, List.mem_singleton.mp hp, hlength⟩
  · obtain ⟨hlt, hp⟩ := List.mem_ite_nil_right.mp h
    refine ⟨_, _, List.mem_singleton.mp hp, ?_⟩
    simp only [Slot.length]
    omega
  · obtain ⟨hlt, hp⟩ := List.mem_ite_nil_right.mp h
    refine ⟨_, _, List.mem_singleton.mp hp, ?_⟩
    simp only [Slot.length]
    omega
  · obtain ⟨-, hp⟩ := List.mem_ite_nil_right.mp h
    obtain ⟨a, -, hp⟩ := List.mem_filterMap.mp hp
    obtain ⟨hlt, hp⟩ := Option.ite_none_right_eq_some.mp hp
    refine ⟨_, _, (Option.some.inj hp).symm, ?_⟩
    simp only [Slot.length]
    omega

/-- The slots of a production and its rule symbol make up the length. Necessitation has one slot,
and detachments are `length_of_mem_detachments`. -/
theorem length_of_mem_productions {g : Grammar} {length : Nat} {p : Production}
    (h : p ∈ g.productions length) :
    sumOf Slot.length p.slots + 1 = length := by
  simp only [productions, List.mem_filter, List.mem_append, List.mem_flatMap] at h
  obtain ⟨h | ⟨pair, -, h⟩, -⟩ := h
  · obtain ⟨henabled, hp⟩ := List.mem_ite_nil_right.mp h
    obtain rfl := List.mem_singleton.mp hp
    have htwo : 2 ≤ length := of_decide_eq_true (Bool.and_eq_true_iff.mp henabled).2
    simp only [Production.slots, sumOf_cons, sumOf_nil, length_slotFor]
    omega
  · obtain ⟨major, minor, rfl, hlength⟩ := length_of_mem_detachments h
    simp only [Production.slots, sumOf_cons, sumOf_nil]
    omega

/-- A replacement is lighter than the slot. With at most two slots, `length_of_mem_productions`
gives this. -/
theorem weight_expansions_lt {g : Grammar} {p : Pending} {e : Expansion}
    (h : e ∈ g.expansions p) : weight e.pending < p.weight := by
  obtain ⟨slot, run⟩ := p
  cases slot with
  | known length =>
    simp only [expansions] at h
    split at h
    · simp only [List.mem_map] at h
      obtain ⟨_, -, rfl⟩ := h
      simp [weight, Pending.weight]
    · simp at h
  | longer length =>
    simp only [expansions, List.mem_filterMap] at h
    obtain ⟨p, hp, he⟩ := h
    -- With `1` for each of at most two slots and `2` for the rule symbol, the slot weighs more.
    have := length_of_mem_productions hp
    cases p with
    | necessitate inner =>
      simp only [expansion?] at he
      split at he
      · cases he
        simp_all [weight, Pending.weight, Production.slots, Slot.length]
        omega
      · simp at he
    | detach major minor =>
      cases he
      simp_all [weight, Pending.weight, Production.slots, Slot.length]
      omega

end Grammar

end Detachment
