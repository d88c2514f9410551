import Detachment.Proofs.ProofTree
import Detachment.Proofs.Unification

/-! # Principal conclusions

What the stack machine finds for the code of a tree is what the tree proves in its most general
form.

* `ProofTree.Derives` says that a formula can be derived along a tree, with instances of axioms at
  the leaves and matching premises at the detachments.
* `ProofTree.conclude` finds the conclusion of a tree from the conclusions of its premises.
* `ProofTree.conclusion_text` says that the stack machine finds the same, whatever variables the
  other formulas on its stack have used up.
* `ProofTree.derives_iff_of_conclude` says that the instances of the conclusion are what can be
  derived along the tree. -/

namespace Detachment

open Proof (Fault Machine)

variable {basis : Basis}

namespace ProofTree

/-! ## Derivations -/

/-- A formula can be derived along a tree: each constructor of `ProofTree` has its rule. -/
inductive Derives : ProofTree basis → Formula → Prop
  /-- A leaf derives every instance of its axiom. -/
  | leaf (name : basis.Name) (s : Nat → Formula) :
      Derives (.leaf name) ((basis.axiomOf name).subst s)
  /-- A necessitation derives the necessity of what its premise derives. -/
  | necessitate {inner : ProofTree basis} {f : Formula} :
      Derives inner f → Derives (.necessitate inner) f.necessarily
  /-- A detachment derives the consequent of an implication whose antecedent is derived, too. -/
  | detach {major minor : ProofTree basis} {f g : Formula} :
      Derives major (f.implies g) → Derives minor f → Derives (.detach major minor) g

/-- What a leaf derives are the instances of its axiom, `Generalizes`. -/
theorem derives_leaf_iff {name : basis.Name} {f : Formula} :
    Derives (.leaf name) f ↔ (basis.axiomOf name).Generalizes f := by
  constructor
  · rintro ⟨-, s⟩
    exact ⟨s, rfl⟩
  · rintro ⟨s, rfl⟩
    exact .leaf name s

/-- What a necessitation derives is the necessity of what its premise derives. -/
theorem derives_necessitate_iff {inner : ProofTree basis} {f : Formula} :
    Derives (.necessitate inner) f ↔ ∃ g : Formula, f = g.necessarily ∧ Derives inner g := by
  constructor
  · rintro (_ | h)
    exact ⟨_, rfl, h⟩
  · rintro ⟨g, rfl, h⟩
    exact .necessitate h

/-- What a detachment derives follows by modus ponens: `f → g` and `f` give `g`. -/
theorem derives_detach_iff {major minor : ProofTree basis} {g : Formula} :
    Derives (.detach major minor) g ↔
      ∃ f : Formula, Derives major (f.implies g) ∧ Derives minor f := by
  constructor
  · rintro (_ | _ | ⟨hmajor, hminor⟩)
    exact ⟨_, hmajor, hminor⟩
  · rintro ⟨f, hmajor, hminor⟩
    exact .detach hmajor hminor

/-! ## Conclusions, premise by premise -/

/-- Detach two conclusions (`detach?`), the variables of the second moved out of the way of the
first (`g.shift f.span`), and bring the result into canonical form. -/
def detachConclusions (position : Nat) (f g : Formula) : Except Fault Formula :=
  match f.implication? with
  | none => .error (.notAnImplication position)
  | some _ =>
    match detach? f (g.shift f.span) with
    | none => .error (.notUnifiable position)
    | some h => .ok h.canonical

/-- The conclusion of a tree whose code starts at a position, from the conclusions of its premises.
The minor premise stands to the right, so its faults are met first. -/
def conclude : Nat → ProofTree basis → Except Fault Formula
  | _, .leaf name => .ok (basis.axiomOf name).canonical
  | position, .necessitate inner =>
    match inner.conclude (position + 1) with
    | .error fault => .error fault
    | .ok f => .ok f.necessarily
  | position, .detach major minor =>
    match minor.conclude (position + 1 + major.length) with
    | .error fault => .error fault
    | .ok g =>
      match major.conclude (position + 1) with
      | .error fault => .error fault
      | .ok f => detachConclusions position f g

/-- Moving variables out of the way (`shift`) keeps the canonical form. -/
theorem canonical_shift (offset : Nat) (f : Formula) : (f.shift offset).canonical = f.canonical :=
  Formula.canonical_map fun _ _ _ _ => Nat.add_right_cancel

/-- Moving variables out of the way (`shift`) keeps the instances. -/
theorem shift_generalizes_iff (offset : Nat) {f special : Formula} :
    (f.shift offset).Generalizes special ↔ f.Generalizes special := by
  rw [← Formula.canonical_generalizes_iff, canonical_shift, Formula.canonical_generalizes_iff]

/-- Variables from `f.span` on are none of those of `f`, so `g.shift f.span` is `Apart` from it. -/
theorem apart_shift_span (f g : Formula) : f.Apart (g.shift f.span) := by
  intro id hf hg
  rw [Formula.shift, Formula.occurrences_map, List.mem_map] at hg
  obtain ⟨other, -, rfl⟩ := hg
  have := Formula.lt_span hf
  omega

/-- A necessitation has the conclusion `c` if its premise has a conclusion `f` with
`f.necessarily = c`. -/
theorem conclude_necessitate_eq_ok {inner : ProofTree basis} {position : Nat} {c : Formula} :
    (necessitate inner).conclude position = .ok c ↔
      ∃ f, inner.conclude (position + 1) = .ok f ∧ f.necessarily = c := by
  rw [conclude]
  cases inner.conclude (position + 1) <;> simp

/-- A detachment has a conclusion if its premises have conclusions that `detachConclusions`
accepts. -/
theorem conclude_detach_eq_ok {major minor : ProofTree basis} {position : Nat} {c : Formula} :
    (detach major minor).conclude position = .ok c ↔
      ∃ f g, major.conclude (position + 1) = .ok f ∧
        minor.conclude (position + 1 + major.length) = .ok g ∧
        detachConclusions position f g = .ok c := by
  rw [conclude]
  cases minor.conclude (position + 1 + major.length) with
  | error fault => simp
  | ok g => cases major.conclude (position + 1) <;> simp

/-- Conclusions that are detached are an implication and a formula that fits, by `detach?`. The
second formula is shifted behind the first, so that they share no variables. -/
theorem detachConclusions_eq_ok {position : Nat} {f g c : Formula} :
    detachConclusions position f g = .ok c ↔
      (∃ a b : Formula, f = a.implies b) ∧
        ∃ h, detach? f (g.shift f.span) = some h ∧ h.canonical = c := by
  unfold detachConclusions
  cases himp : f.implication? with
  | none =>
    simp only [reduceCtorEq, false_iff]
    rintro ⟨⟨a, b, rfl⟩, -⟩
    cases himp
  | some parts =>
    have hparts := Formula.eq_implies_of_implication? (f := f) (by rw [himp]; simp)
    cases detach? f (g.shift f.span) with
    | none => simp
    | some h => simp [hparts]

/-- What `detachConclusions` finds is most general: its instances are what follows from instances of
the two conclusions by modus ponens. -/
theorem generalizes_iff_of_detachConclusions {position : Nat} {f g c : Formula}
    (h : detachConclusions position f g = .ok c) (special : Formula) :
    c.Generalizes special ↔
      ∃ x : Formula, f.Generalizes (x.implies special) ∧ g.Generalizes x := by
  obtain ⟨⟨a, b, rfl⟩, k, hk, rfl⟩ := detachConclusions_eq_ok.mp h
  rw [Formula.canonical_generalizes_iff,
    generalizes_iff_of_detach? hk (apart_shift_span _ _) special]
  simp only [shift_generalizes_iff]

/-- Nothing follows from the instances of two conclusions that do not fit together
(`.notUnifiable`). -/
theorem not_generalizes_of_detachConclusions {position position' : Nat} {f g : Formula}
    (h : detachConclusions position f g = .error (.notUnifiable position')) {x special : Formula}
    (hmajor : f.Generalizes (x.implies special)) : ¬g.Generalizes x := by
  unfold detachConclusions at h
  split at h
  · cases h
  · next parts himp =>
    obtain ⟨a, b, rfl⟩ := Formula.eq_implies_of_implication? (f := f) (by rw [himp]; simp)
    split at h
    · next hdetach =>
      rw [← shift_generalizes_iff (a.implies b).span]
      exact not_generalizes_of_detach? hdetach (apart_shift_span _ _) x special hmajor
    · cases h

/-- Where a code starts has nothing to do with its conclusion, only with the positions in faults. -/
theorem conclude_position {t : ProofTree basis} {position : Nat} {c : Formula}
    (h : t.conclude position = .ok c) (position' : Nat) : t.conclude position' = .ok c := by
  induction t generalizing position position' c with
  | leaf name => exact h
  | necessitate inner ih =>
    obtain ⟨f, hinner, hc⟩ := conclude_necessitate_eq_ok.mp h
    exact conclude_necessitate_eq_ok.mpr ⟨f, ih hinner _, hc⟩
  | detach major minor ih₁ ih₂ =>
    obtain ⟨f, g, hmajor, hminor, hc⟩ := conclude_detach_eq_ok.mp h
    refine conclude_detach_eq_ok.mpr ⟨f, g, ih₁ hmajor _, ih₂ hminor _, ?_⟩
    exact detachConclusions_eq_ok.mpr (detachConclusions_eq_ok.mp hc)

/-! ## What conclusions mean -/

/-- The instances of the conclusion of a tree are what can be derived along it (`Derives`), by
induction on the tree. -/
theorem derives_iff_of_conclude {t : ProofTree basis} {position : Nat} {c : Formula}
    (h : t.conclude position = .ok c) (f : Formula) : c.Generalizes f ↔ Derives t f := by
  induction t generalizing position c f with
  | leaf name =>
    obtain rfl := Except.ok.inj h
    rw [Formula.canonical_generalizes_iff, derives_leaf_iff]
  | necessitate inner ih =>
    obtain ⟨g, hinner, rfl⟩ := conclude_necessitate_eq_ok.mp h
    rw [derives_necessitate_iff]
    constructor
    · rintro ⟨s, rfl⟩
      exact ⟨g.subst s, rfl, (ih hinner _).mp ⟨s, rfl⟩⟩
    · rintro ⟨k, rfl, hk⟩
      exact Formula.unary_generalizes_iff.mpr ((ih hinner k).mpr hk)
  | detach major minor ih₁ ih₂ =>
    obtain ⟨a, b, hmajor, hminor, hc⟩ := conclude_detach_eq_ok.mp h
    rw [derives_detach_iff, generalizes_iff_of_detachConclusions hc f]
    simp only [ih₁ hmajor, ih₂ hminor]

/-- Nothing can be derived along a tree with premises that do not fit together (`.notUnifiable`).
The fault comes from one of the detachments in the tree, and by `derives_iff_of_conclude` the
premises there derive only instances of what was found for them. -/
theorem not_derives_of_conclude {t : ProofTree basis} {position position' : Nat}
    (h : t.conclude position = .error (.notUnifiable position')) (f : Formula) :
    ¬Derives t f := by
  induction t generalizing position f with
  | leaf name => cases h
  | necessitate inner ih =>
    rw [derives_necessitate_iff]
    rintro ⟨g, rfl, hg⟩
    rw [conclude] at h
    split at h
    · next fault hinner =>
      obtain rfl := Except.error.inj h
      exact ih hinner g hg
    · cases h
  | detach major minor ih₁ ih₂ =>
    rw [derives_detach_iff]
    rintro ⟨x, hderiveMajor, hderiveMinor⟩
    rw [conclude] at h
    split at h
    · next fault hminor =>
      obtain rfl := Except.error.inj h
      exact ih₂ hminor x hderiveMinor
    · next g hminor =>
      split at h
      · next fault hmajor =>
        obtain rfl := Except.error.inj h
        exact ih₁ hmajor _ hderiveMajor
      · next k hmajor =>
        -- The premises prove something each, but no instances of what they prove fit.
        exact not_generalizes_of_detachConclusions h
          ((derives_iff_of_conclude hmajor _).mpr hderiveMajor)
          ((derives_iff_of_conclude hminor _).mpr hderiveMinor)

/-- Why a code that starts at a position is given up with a fault: premises do not fit together, or
the fault names the position of a detachment in the code whose major premise proves no
implication. -/
def FaultIn (basis : Basis) (position : Nat) (code : List Char) (fault : Fault) : Prop :=
  (∃ position', fault = .notUnifiable position') ∨
    ∃ (before after : List Char) (major minor : ProofTree basis) (f : Formula),
      code = before ++ (detach major minor).symbols ++ after ∧
        fault = .notAnImplication (position + before.length) ∧
        major.conclude 0 = .ok f ∧ f.implication? = none

/-- What is wrong with a part of a code is wrong with the code: `FaultIn` carries over from `code`
to `before ++ code ++ after`. -/
theorem FaultIn.of_part (before after : List Char) {position : Nat} {code : List Char}
    {fault : Fault} (h : FaultIn basis (position + before.length) code fault) :
    FaultIn basis position (before ++ code ++ after) fault := by
  rcases h with hunifiable | ⟨before', after', major, minor, f, hcode, hfault, hrest⟩
  · exact .inl hunifiable
  · refine .inr ⟨before ++ before', after' ++ after, major, minor, f, ?_, ?_, hrest⟩
    · simp only [hcode, List.append_assoc]
    · rw [hfault, List.length_append, Nat.add_assoc]

/-- Conclusions that `detachConclusions` rejects make the whole detachment fail, at its own
position. -/
theorem faultIn_detachConclusions {major minor : ProofTree basis} {position : Nat} {fault : Fault}
    {f g : Formula} (hmajor : major.conclude 0 = .ok f)
    (h : detachConclusions position f g = .error fault) :
    FaultIn basis position (detach major minor).symbols fault := by
  unfold detachConclusions at h
  split at h
  · next himp =>
    obtain rfl := Except.error.inj h
    refine .inr ⟨[], [], major, minor, f, ?_, rfl, hmajor, himp⟩
    rw [List.nil_append, List.append_nil]
  · split at h
    · exact .inl ⟨position, (Except.error.inj h).symm⟩
    · cases h

/-- Apart from premises that do not fit together, a tree fails only at a detachment whose major
premise proves no implication (`FaultIn`). -/
theorem faultIn_of_conclude {t : ProofTree basis} {position : Nat} {fault : Fault}
    (h : t.conclude position = .error fault) : FaultIn basis position t.symbols fault := by
  induction t generalizing position with
  | leaf name => cases h
  | necessitate inner ih =>
    rw [conclude] at h
    split at h
    · next fault' hinner =>
      obtain rfl := Except.error.inj h
      have hpart := FaultIn.of_part [Proof.necessitateSymbol] [] (ih hinner)
      rwa [List.append_nil] at hpart
    · cases h
  | detach major minor ih₁ ih₂ =>
    rw [conclude] at h
    split at h
    · next fault' hminor =>
      obtain rfl := Except.error.inj h
      -- The minor premise stands behind the symbol of detachment and the major premise.
      have hposition : position + 1 + major.length =
          position + (Proof.detachSymbol :: major.symbols).length := by
        rw [List.length_cons, length_symbols, Nat.add_assoc, Nat.add_comm 1]
      have hpart := FaultIn.of_part (Proof.detachSymbol :: major.symbols) []
        (hposition ▸ ih₂ hminor)
      rwa [List.append_nil] at hpart
    · next g hminor =>
      split at h
      · next fault' hmajor =>
        obtain rfl := Except.error.inj h
        exact FaultIn.of_part [Proof.detachSymbol] minor.symbols (ih₁ hmajor)
      · next f hmajor => exact faultIn_detachConclusions (conclude_position hmajor 0) h

/-! ## The stack machine -/

/-- All variables of a formula lie from `low` on and below `high`. -/
def Between (f : Formula) (low high : Nat) : Prop :=
  ∀ id ∈ f.occurrences, low ≤ id ∧ id < high

/-- What the machine makes of a code, given the `outcome` that the tree has: it stops with the
fault, or it puts a formula with this canonical form and fresh variables (`Between`) on the
stack. -/
def Reads (m : Machine) (outcome : Except Fault Formula) (result : Except Fault Machine) : Prop :=
  match outcome with
  | .error fault => result = .error fault
  | .ok c => ∃ f next, result = .ok ⟨f :: m.stack, next⟩ ∧ m.next ≤ next ∧
      Between f m.next next ∧ f.canonical = c

/-- Detach two formulas as they are, or say what is wrong with them: `detachConclusions` without
renaming. -/
def detachPremises (position : Nat) (f g : Formula) : Except Fault Formula :=
  match f.implication? with
  | none => .error (.notAnImplication position)
  | some _ =>
    match detach? f g with
    | none => .error (.notUnifiable position)
    | some h => .ok h

/-- Conclusions are detached by `detachPremises`, with the variables of the second moved out of the
way and the result in canonical form. -/
theorem detachConclusions_eq_map (position : Nat) (f g : Formula) :
    detachConclusions position f g =
      (detachPremises position f (g.shift f.span)).map Formula.canonical := by
  unfold detachConclusions detachPremises
  cases f.implication? with
  | none => rfl
  | some parts => cases detach? f (g.shift f.span) <;> rfl

/-- The machine detaches the two formulas proved last, by `detachPremises`. -/
theorem detach_cons_cons (position next : Nat) (f g : Formula) (stack : List Formula) :
    Machine.detach position ⟨f :: g :: stack, next⟩ =
      (detachPremises position f g).map fun h => ⟨h :: stack, next⟩ := by
  simp only [Machine.detach, detachPremises]
  cases f.implication? with
  | none => rfl
  | some parts => cases detach? f g <;> rfl

/-- Detaching brings in no variables beyond those of the premises. The result is what `detach?`
gives for them (`detach?_eq_some`). -/
theorem mem_occurrences_of_detachPremises {position id : Nat} {f g h : Formula}
    (hdetach : detachPremises position f g = .ok h) (hid : id ∈ h.occurrences) :
    id ∈ f.occurrences ∨ id ∈ g.occurrences := by
  unfold detachPremises at hdetach
  cases himp : f.implication? with
  | none =>
    rw [himp] at hdetach
    cases hdetach
  | some parts =>
    rw [himp] at hdetach
    obtain ⟨a, b, rfl⟩ := Formula.eq_implies_of_implication? (f := f) (by rw [himp]; simp)
    cases hresult : detach? (a.implies b) g with
    | none =>
      rw [hresult] at hdetach
      cases hdetach
    | some k =>
      rw [hresult] at hdetach
      obtain rfl := Except.ok.inj hdetach
      exact (detach?_eq_some hresult).2 id hid

/-- Up to renaming, what comes of a detachment depends on the canonical forms of the premises only,
as long as they are `Apart`. -/
theorem detachPremises_canonical {f f' g g' : Formula} (hf : f.canonical = f'.canonical)
    (hg : g.canonical = g'.canonical) (hapart : f.Apart g) (hapart' : f'.Apart g')
    (position : Nat) :
    (detachPremises position f g).map Formula.canonical =
      (detachPremises position f' g').map Formula.canonical := by
  have hkind : f.implication?.isSome = f'.implication?.isSome := by
    rw [← Formula.implication?_canonical f, hf, Formula.implication?_canonical]
  have hcanonical := detach?_canonical hf hg hapart hapart'
  unfold detachPremises
  cases himp : f.implication? with
  | none =>
    rw [himp] at hkind
    rw [Option.isNone_iff_eq_none.mp (Option.isSome_eq_false_iff.mp hkind.symm)]
  | some parts =>
    rw [himp] at hkind
    obtain ⟨parts', himp'⟩ := Option.isSome_iff_exists.mp hkind.symm
    rw [himp']
    cases hresult : detach? f g with
    | none =>
      rw [hresult, Option.map_none, eq_comm, Option.map_eq_none_iff] at hcanonical
      rw [hcanonical]
    | some h =>
      rw [hresult, Option.map_some, eq_comm, Option.map_eq_some_iff] at hcanonical
      obtain ⟨h', hresult', hsame⟩ := hcanonical
      rw [hresult']
      exact congrArg Except.ok hsame.symm

/-- The machine detaches formulas with fresh variables as their conclusions are detached (`Reads`),
since `detachPremises` does not tell them from their canonical forms. -/
theorem detach_reads {m : Machine} {position next next' : Nat} {f g c d : Formula}
    (hg : Between g m.next next) (hf : Between f next next') (hle : m.next ≤ next)
    (hle' : next ≤ next') (hc : f.canonical = c) (hd : g.canonical = d) :
    Reads m (detachConclusions position c d)
      (Machine.detach position ⟨f :: g :: m.stack, next'⟩) := by
  have hapart : f.Apart g := by
    intro id hidf hidg
    have := hf id hidf
    have := hg id hidg
    omega
  have hcanonical : (detachPremises position f g).map Formula.canonical =
      detachConclusions position c d := by
    rw [detachConclusions_eq_map]
    refine detachPremises_canonical ?_ ?_ hapart (apart_shift_span c d) position
    · rw [← hc, Formula.canonical_canonical]
    · rw [canonical_shift, ← hd, Formula.canonical_canonical]
  rw [← hcanonical, detach_cons_cons]
  cases hdetach : detachPremises position f g with
  | error fault => rfl
  | ok h =>
    refine ⟨h, next', rfl, Nat.le_trans hle hle', fun id hid => ?_, rfl⟩
    rcases mem_occurrences_of_detachPremises hdetach hid with hid | hid
    · have := hf id hid
      omega
    · have := hg id hid
      omega

/-- A fault to the right of some symbols stops the machine before it reads them; the symbols are
single bytes, as those of proofs are. -/
theorem run_append_of_error {symbols rest : List Char} (hsize : ∀ c ∈ symbols, c.utf8Size = 1)
    {position : Nat} {fault : Fault}
    (h : Machine.run basis (position + symbols.length) rest = .error fault) :
    Machine.run basis position (symbols ++ rest) = .error fault := by
  induction symbols generalizing position with
  | nil => exact h
  | cons c symbols ih =>
    have hrest : Machine.run basis (position + 1) (symbols ++ rest) = .error fault := by
      apply ih fun d hd => hsize d (List.mem_cons_of_mem _ hd)
      rw [← h, List.length_cons]
      congr 1
      omega
    rw [List.cons_append, Machine.run, hsize c List.mem_cons_self, hrest]

/-- The machine `Reads` the name of an axiom as the axiom. The copy of its formula has fresh
variables, and `canonical` forgets which. -/
theorem run_leaf_reads (name : basis.Name) {position : Nat} {rest : List Char} {m : Machine}
    (hrest : Machine.run basis (position + 1) rest = .ok m) :
    Reads m ((leaf name).conclude position) (Machine.run basis position (name.1 :: rest)) := by
  obtain ⟨hdetach, hnec, hsize⟩ := Basis.name_spec name
  rw [Machine.run, hsize]
  simp only [hrest, Machine.step, if_neg hdetach, if_neg hnec, Basis.formula?_name,
    Machine.assume, conclude]
  refine ⟨_, _, rfl, Nat.le_add_right _ _, ?_, canonical_shift _ _⟩
  -- The copy starts at the first unused variable and ends where the next one will start.
  intro id hid
  rw [Formula.shift, Formula.occurrences_map, List.mem_map] at hid
  obtain ⟨other, hother, rfl⟩ := hid
  have := Formula.lt_span hother
  omega

/-- The machine `Reads` a necessitation as the necessity of what it has read before. An `error` of
the inner proof is handed on, and a formula stays on top of the stack. -/
theorem run_necessitate_reads {inner : ProofTree basis} {position : Nat} {rest : List Char}
    {m : Machine}
    (hinner : Reads m (inner.conclude (position + 1)) (Machine.run basis (position + 1) rest)) :
    Reads m ((necessitate inner).conclude position)
      (Machine.run basis position (Proof.necessitateSymbol :: rest)) := by
  have hsize : Proof.necessitateSymbol.utf8Size = 1 := by decide
  rw [Machine.run, hsize]
  cases hc : inner.conclude (position + 1) with
  | error fault =>
    rw [hc] at hinner
    simp only [Reads] at hinner
    simp only [conclude, hc, Reads, hinner]
  | ok c =>
    rw [hc] at hinner
    obtain ⟨f, next, hrun, hle, hbetween, hcanonical⟩ := hinner
    have hne : Proof.necessitateSymbol ≠ Proof.detachSymbol := by decide
    simp only [conclude, hc, hrun, Machine.step, if_neg hne, if_true, Machine.necessitate]
    exact ⟨f.necessarily, next, rfl, hle, hbetween, by
      rw [Formula.canonical_necessarily, hcanonical]⟩

/-- Reading a code from right to left puts the conclusion of its tree on the stack, with variables
that nothing else on the stack has, or stops with the fault of the tree (`Reads`). The induction is
on the tree, for any text `rest` behind it. -/
theorem run_symbols_append (t : ProofTree basis) (position : Nat) (rest : List Char) (m : Machine)
    (hrest : Machine.run basis (position + t.length) rest = .ok m) :
    Reads m (t.conclude position) (Machine.run basis position (t.symbols ++ rest)) := by
  induction t generalizing position rest m with
  | leaf name => exact run_leaf_reads name hrest
  | necessitate inner ih =>
    have hinner := ih (position + 1) rest m (by rw [← hrest, length]; congr 1; omega)
    exact run_necessitate_reads hinner
  | detach major minor ih₁ ih₂ =>
    -- The minor premise is read first, so that the variables of the major premise come after.
    have hminor := ih₂ (position + 1 + major.length) rest m
      (by rw [← hrest, length]; congr 1; omega)
    rw [symbols, List.cons_append, List.append_assoc, Machine.run]
    have hsize : Proof.detachSymbol.utf8Size = 1 := by decide
    rw [hsize]
    cases hd : minor.conclude (position + 1 + major.length) with
    | error fault =>
      -- The fault stops the machine before the major premise is read.
      rw [hd] at hminor
      have hrun : Machine.run basis (position + 1) (major.symbols ++ (minor.symbols ++ rest)) =
          .error fault := by
        apply run_append_of_error fun _ => utf8Size_of_mem_symbols
        rw [length_symbols]
        exact hminor
      simp only [conclude, hd, hrun, Reads]
    | ok d =>
      rw [hd] at hminor
      obtain ⟨g, next, hrunMinor, hle, hg, hcanonicalG⟩ := hminor
      have hmajor := ih₁ (position + 1) _ _ hrunMinor
      cases hc : major.conclude (position + 1) with
      | error fault =>
        rw [hc] at hmajor
        simp only [Reads] at hmajor
        simp only [conclude, hd, hc, Reads, hmajor]
      | ok c =>
        rw [hc] at hmajor
        obtain ⟨f, next', hrunMajor, hle', hf, hcanonicalF⟩ := hmajor
        simp only [conclude, hd, hc, hrunMajor, Machine.step, if_true]
        exact detach_reads hg hf hle hle' hcanonicalF hcanonicalG

/-- The conclusion of the code of a tree is the conclusion of the tree: `Proof.conclusion` of
`t.text` is `t.conclude 0`. -/
theorem conclusion_text (t : ProofTree basis) : Proof.conclusion basis t.text = t.conclude 0 := by
  have hread := run_symbols_append t 0 [] .start rfl
  rw [List.append_nil] at hread
  have hne : ¬t.symbols.isEmpty = true := by
    simpa [List.isEmpty_iff] using symbols_ne_nil t
  rw [Proof.conclusion, toList_text, Proof.conclusionChars, if_neg hne]
  cases hc : t.conclude 0 with
  | error fault =>
    rw [hc] at hread
    simp only [Reads] at hread
    rw [hread]
  | ok c =>
    rw [hc] at hread
    obtain ⟨f, next, hrun, -, -, hcanonical⟩ := hread
    simp only [hrun, Machine.start, hcanonical]

/-- A detachment takes two formulas from the stack and puts one there. It is refused if there are
fewer, or if they do not fit. -/
theorem stack_of_detach {position : Nat} {m m' : Machine} (h : m.detach position = .ok m') :
    ∃ major minor consequent rest, m.stack = major :: minor :: rest ∧
      m'.stack = consequent :: rest := by
  rw [Machine.detach] at h
  split at h
  · rename_i major minor rest hstack
    split at h
    · cases h
    · split at h
      · cases h
      · rename_i consequent _
        obtain rfl := Except.ok.inj h
        exact ⟨major, minor, consequent, rest, hstack, rfl⟩
  · cases h

/-- A necessitation takes one formula from the stack and puts one there. -/
theorem stack_of_necessitate {position : Nat} {m m' : Machine}
    (h : m.necessitate position = .ok m') :
    ∃ f rest, m.stack = f :: rest ∧ m'.stack = f.necessarily :: rest := by
  rw [Machine.necessitate] at h
  split at h
  · rename_i f rest hstack
    obtain rfl := Except.ok.inj h
    exact ⟨f, rest, hstack, rfl⟩
  · cases h

/-- A symbol makes one tree of as many trees as it takes formulas from the stack, so there stay as
many `trees` as formulas. -/
theorem exists_trees_of_step {position : Nat} {symbol : Char} {m m' : Machine}
    {trees : List (ProofTree basis)} (h : m.step basis position symbol = .ok m')
    (hlength : trees.length = m.stack.length) :
    ∃ trees' : List (ProofTree basis),
      trees'.flatMap ProofTree.symbols = symbol :: trees.flatMap ProofTree.symbols ∧
        trees'.length = m'.stack.length := by
  rw [Machine.step] at h
  by_cases hdetach : symbol = Proof.detachSymbol
  · rw [if_pos hdetach] at h
    obtain ⟨_, _, _, rest, hstack, hstack'⟩ := stack_of_detach h
    rw [hstack] at hlength
    -- The two trees on top become the premises of a detachment.
    obtain ⟨major, trees, rfl⟩ := List.exists_cons_of_length_eq_add_one hlength
    obtain ⟨minor, trees, rfl⟩ := List.exists_cons_of_length_eq_add_one (Nat.succ.inj hlength)
    refine ⟨.detach major minor :: trees, ?_, ?_⟩
    · simp [hdetach, ProofTree.symbols]
    · simpa [hstack'] using hlength
  · rw [if_neg hdetach] at h
    by_cases hnec : symbol = Proof.necessitateSymbol
    · rw [if_pos hnec] at h
      obtain ⟨_, rest, hstack, hstack'⟩ := stack_of_necessitate h
      rw [hstack] at hlength
      -- The tree on top comes under a necessitation.
      obtain ⟨inner, trees, rfl⟩ := List.exists_cons_of_length_eq_add_one hlength
      refine ⟨.necessitate inner :: trees, ?_, ?_⟩
      · simp [hnec, ProofTree.symbols]
      · simpa [hstack'] using hlength
    · rw [if_neg hnec] at h
      cases hformula : basis.formula? symbol with
      | none =>
        rw [hformula] at h
        cases h
      | some f =>
        rw [hformula] at h
        obtain rfl := Except.ok.inj h
        -- The name of an axiom is a tree of its own.
        refine ⟨.leaf ⟨symbol, by rw [hformula]; rfl⟩ :: trees, ?_, ?_⟩
        · simp [ProofTree.symbols]
        · simp [Machine.assume, hlength]

/-- Only the code of as many trees as formulas can leave these formulas on the stack: the run lemma
for `exists_trees_of_step`. -/
theorem exists_trees_of_run {position : Nat} {symbols : List Char} {m : Machine}
    (h : Machine.run basis position symbols = .ok m) :
    ∃ trees : List (ProofTree basis), trees.flatMap ProofTree.symbols = symbols ∧
      trees.length = m.stack.length := by
  -- Symbols are read from right to left, so the trees of the rest are there before each step.
  induction symbols generalizing position m with
  | nil =>
    obtain rfl := Except.ok.inj h
    exact ⟨[], rfl, rfl⟩
  | cons symbol rest ih =>
    rw [Machine.run] at h
    cases hrun : Machine.run basis (position + symbol.utf8Size) rest with
    | error fault =>
      rw [hrun] at h
      cases h
    | ok m' =>
      rw [hrun] at h
      obtain ⟨trees, htrees, hlength⟩ := ih hrun
      rw [← htrees]
      exact exists_trees_of_step h hlength

/-- Only codes of trees have conclusions, as one formula on the stack means one tree. The machine
has read a list of trees (`exists_trees_of_run`), one for each formula. -/
theorem exists_tree_of_conclusion {s : String} {c : Formula}
    (h : Proof.conclusion basis s = .ok c) : ∃ t : ProofTree basis, t.text = s := by
  rw [Proof.conclusion, Proof.conclusionChars] at h
  split at h
  · cases h
  · cases hrun : Machine.run basis 0 s.toList with
    | error fault =>
      rw [hrun] at h
      cases h
    | ok m =>
      rw [hrun] at h
      obtain ⟨trees, htrees, hlength⟩ := exists_trees_of_run hrun
      obtain ⟨stack, next⟩ := m
      match stack, trees, hlength with
      | [f], [t], _ =>
        rw [List.flatMap_singleton] at htrees
        exact ⟨t, by rw [text, htrees, String.ofList_toList]⟩
      | [], _, _ => cases h
      | f :: g :: stack, _, _ => cases h

/-- Proofs with conclusions have symbols, as the empty text is a fault. -/
theorem length_pos_of_conclusion {s : String} {c : Formula}
    (h : Proof.conclusion basis s = .ok c) : 0 < Proof.length s := by
  obtain ⟨t, rfl⟩ := exists_tree_of_conclusion h
  rw [length_text]
  exact t.length_pos

end ProofTree

/-! ## Proof texts -/

/-- A text has a conclusion only if it is the code of a tree, which is then the only one, and the
instances of the conclusion are the formulas that can be derived along this tree
(`ProofTree.Derives`). Nothing can be derived along the tree of a text whose premises do not fit
together (`.notUnifiable`). The code of a tree fails for no other reason than that or a major
premise that proves no implication by itself (`.notAnImplication`). -/
theorem Proof.conclusion_principal (basis : Basis) (s : String) :
    (∀ c, Proof.conclusion basis s = .ok c →
      (∃! t : ProofTree basis, t.text = s) ∧
        ∀ t : ProofTree basis, t.text = s → ∀ f, c.Generalizes f ↔ t.Derives f) ∧
    (∀ (t : ProofTree basis) (position : Nat), t.text = s →
      Proof.conclusion basis s = .error (.notUnifiable position) → ∀ f, ¬t.Derives f) ∧
    ∀ (t : ProofTree basis) (fault : Fault), t.text = s →
      Proof.conclusion basis s = .error fault →
        (∃ position, fault = .notUnifiable position) ∨
          ∃ (before after : List Char) (major minor : ProofTree basis) (f : Formula),
            s.toList = before ++ (ProofTree.detach major minor).symbols ++ after ∧
              fault = .notAnImplication before.length ∧
              Proof.conclusion basis major.text = .ok f ∧ f.implication? = none := by
  refine ⟨?_, ?_, ?_⟩
  · intro c h
    obtain ⟨t, rfl⟩ := ProofTree.exists_tree_of_conclusion h
    refine ⟨⟨t, rfl, fun u hu => ProofTree.text_inj hu⟩, ?_⟩
    intro u hu f
    obtain rfl := ProofTree.text_inj hu
    rw [ProofTree.conclusion_text] at h
    exact ProofTree.derives_iff_of_conclude h f
  · rintro t position rfl h
    rw [ProofTree.conclusion_text] at h
    exact ProofTree.not_derives_of_conclude h
  · rintro t fault rfl h
    rw [ProofTree.conclusion_text] at h
    simp only [ProofTree.toList_text, ProofTree.conclusion_text]
    simpa only [ProofTree.FaultIn, Nat.zero_add] using ProofTree.faultIn_of_conclude h

/-- In the standard system `DD211` proves `p → p` and nothing more general, the premises of `D31` do
not fit together, and the major premise of `DN11` is no implication. -/
theorem Proof.conclusion_principal_standard :
    Proof.conclusion .standard "DD211" = .ok ((Formula.var 0).implies (.var 0)) ∧
      (∃! t : ProofTree .standard, t.text = "DD211") ∧
      (∀ t : ProofTree .standard, t.text = "DD211" →
        ∀ f, ((Formula.var 0).implies (.var 0)).Generalizes f ↔ t.Derives f) ∧
      (∀ f, ¬(.detach (.leaf ⟨'3', by decide⟩) (.leaf ⟨'1', by decide⟩) :
        ProofTree .standard).Derives f) ∧
      ∃ (before after : List Char) (major minor : ProofTree .standard) (f : Formula),
        "DN11".toList = before ++ (ProofTree.detach major minor).symbols ++ after ∧
          Fault.notAnImplication 0 = .notAnImplication before.length ∧
          Proof.conclusion .standard major.text = .ok f ∧ f.implication? = none := by
  have hidentity : Proof.conclusion .standard "DD211" =
      .ok ((Formula.var 0).implies (.var 0)) := rfl
  have hclash : Proof.conclusion .standard "D31" = .error (.notUnifiable 0) := rfl
  have hnecessity : Proof.conclusion .standard "DN11" = .error (.notAnImplication 0) := rfl
  have hprincipal := (Proof.conclusion_principal .standard "DD211").1 _ hidentity
  refine ⟨hidentity, hprincipal.1, hprincipal.2, ?_, ?_⟩
  · exact (Proof.conclusion_principal .standard "D31").2.1 _ 0 rfl hclash
  · have hfault := (Proof.conclusion_principal .standard "DN11").2.2
      (.detach (.necessitate (.leaf ⟨'1', by decide⟩)) (.leaf ⟨'1', by decide⟩)) _ rfl hnecessity
    rcases hfault with ⟨position, hposition⟩ | hlocated
    · cases hposition
    · exact hlocated

end Detachment
