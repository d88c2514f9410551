import Detachment.Proofs.Replacement

/-! # Proofs are read part by part

What a proof text proves depends on the conclusions of its parts only, although the machine never
sees them: the variables of a part depend on what stands to the right of it, and nothing is brought
into canonical form before the end.

* `Proof.Machine.Alike` says that two machines hold the same formulas up to renaming, with variables
  of their own in each place.
* `Proof.Machine.Alike.step` says that such machines stay alike with every symbol, or stop with the
  same fault, and `Proof.Corresponds.run_append` carries this along a text.
* `Proof.conclusion_replace` puts one proof in the place of another with the same conclusion.
* `Proof.conclusion_compositional` gives the conclusions of necessitations and detachments. -/

namespace Detachment

open Formula (Apart)

variable {basis : Basis}

namespace Proof

/-! ## Faults at other positions -/

/-- The same fault with `move position` in place of its position. Two of them have none. -/
def Fault.relocate (move : Nat → Nat) : Fault → Fault
  | empty => empty
  | unknownSymbol symbol position => unknownSymbol symbol (move position)
  | missingPremise position => missingPremise (move position)
  | notAnImplication position => notAnImplication (move position)
  | notUnifiable position => notUnifiable (move position)
  | unconsumed count => unconsumed count

/-- Moving a fault by `first` and then by `second` moves it once, by their composition. -/
theorem Fault.relocate_relocate (first second : Nat → Nat) (fault : Fault) :
    (fault.relocate first).relocate second = fault.relocate fun p => second (first p) := by
  cases fault <;> rfl

/-- The machine detaches alike wherever the text starts: at `position + offset`, the fault of
`detach` is further on by `offset`. -/
theorem Machine.detach_relocate (m : Machine) (position offset : Nat) :
    m.detach (position + offset) =
      (m.detach position).mapError (Fault.relocate (· + offset)) := by
  unfold detach
  split
  · split
    · rfl
    · split <;> rfl
  · rfl

/-- The same for `necessitate`, whose only fault is a missing premise. -/
theorem Machine.necessitate_relocate (m : Machine) (position offset : Nat) :
    m.necessitate (position + offset) =
      (m.necessitate position).mapError (Fault.relocate (· + offset)) := by
  unfold necessitate
  split <;> rfl

/-- The same for one symbol, `step`, which also may be unknown. -/
theorem Machine.step_relocate (m : Machine) (position offset : Nat) (symbol : Char) :
    m.step basis (position + offset) symbol =
      (m.step basis position symbol).mapError (Fault.relocate (· + offset)) := by
  unfold step
  split
  · exact m.detach_relocate position offset
  · split
    · exact m.necessitate_relocate position offset
    · split <;> rfl

/-- A text that starts later leads to the same formulas, or to the same fault further on by
`offset`. The induction is on the text from the right, as `run` reads it. -/
theorem Machine.run_relocate (position offset : Nat) (symbols : List Char) :
    run basis (position + offset) symbols =
      (run basis position symbols).mapError (Fault.relocate (· + offset)) := by
  induction symbols generalizing position with
  | nil => rfl
  | cons symbol rest ih =>
    rw [run, run, Nat.add_right_comm, ih]
    cases run basis (position + symbol.utf8Size) rest with
    | error fault => rfl
    | ok m => exact m.step_relocate position offset symbol

/-! ## Machines that hold the same formulas up to renaming -/

/-- The formulas on the stack share no variable with one another (`Apart`), nor with what is still
to come: those variables start at `m.next`. -/
structure Machine.Separate (m : Machine) : Prop where
  /-- Formulas in different places share no variable. -/
  apart : m.stack.Pairwise Apart
  /-- The variables that are used next are new. -/
  fresh : ∀ f ∈ m.stack, ∀ id ∈ f.occurrences, id < m.next

/-- Formulas with new variables, `Between f m.next next`, go on top of a `Separate` stack. -/
theorem Machine.Separate.cons {m : Machine} (h : m.Separate) {f : Formula} {next : Nat}
    (hle : m.next ≤ next) (hf : ProofTree.Between f m.next next) :
    Separate ⟨f :: m.stack, next⟩ := by
  refine ⟨List.pairwise_cons.mpr ⟨fun g hg id hidf hidg => ?_, h.apart⟩, ?_⟩
  · exact absurd (h.fresh g hg id hidg) (Nat.not_lt.mpr (hf id hidf).1)
  · intro g hg id hid
    rcases List.mem_cons.mp hg with rfl | hg
    · exact (hf id hid).2
    · exact Nat.lt_of_lt_of_le (h.fresh g hg id hid) hle

/-- The formula `f` can take the place of the topmost ones, `top`, if it has no other variables than
they have. -/
theorem Machine.Separate.replace (top : List Formula) {rest : List Formula} {next : Nat}
    {f : Formula} (h : Separate ⟨top ++ rest, next⟩)
    (hf : ∀ id ∈ f.occurrences, ∃ g ∈ top, id ∈ g.occurrences) : Separate ⟨f :: rest, next⟩ := by
  obtain ⟨-, hrest, hacross⟩ := List.pairwise_append.mp h.apart
  refine ⟨List.pairwise_cons.mpr ⟨fun k hk id hid => ?_, hrest⟩, fun k hk id hid => ?_⟩
  · obtain ⟨g, hg, hidg⟩ := hf id hid
    exact hacross g hg k hk id hidg
  · rcases List.mem_cons.mp hk with rfl | hk
    · obtain ⟨g, hg, hidg⟩ := hf id hid
      exact h.fresh g (List.mem_append_left _ hg) id hidg
    · exact h.fresh k (List.mem_append_right _ hk) id hid

/-- A copy `f.shift next` of an axiom has new variables, `Between next` and `next + f.span`. -/
theorem between_shift (f : Formula) (next : Nat) :
    ProofTree.Between (f.shift next) next (next + f.span) := by
  intro id hid
  rw [Formula.shift, Formula.occurrences_map, List.mem_map] at hid
  obtain ⟨other, hother, rfl⟩ := hid
  have := Formula.lt_span hother
  omega

/-- Machines with formulas on their stacks that are the same up to renaming: each machine is
`Separate`, and place by place the formulas have the same canonical form. The counters `next` may
differ. -/
structure Machine.Alike (m m' : Machine) : Prop where
  /-- The first machine keeps its variables apart. -/
  left : m.Separate
  /-- The second machine keeps its variables apart. -/
  right : m'.Separate
  /-- In each place there is the same formula up to renaming. -/
  canonical : m.stack.map Formula.canonical = m'.stack.map Formula.canonical

/-- What two machines make of the same symbols: they stop with the same fault, which may have moved
by `move`, or they are `Alike`. -/
inductive Corresponds (move : Nat → Nat) : Except Fault Machine → Except Fault Machine → Prop
  /-- Both stop. -/
  | fault (fault : Fault) : Corresponds move (.error fault) (.error (fault.relocate move))
  /-- Both go on. -/
  | machines {m m' : Machine} : m.Alike m' → Corresponds move (.ok m) (.ok m')

/-- A fault that `move` leaves in place corresponds to itself. -/
theorem Corresponds.same {move : Nat → Nat} {fault : Fault} (h : fault.relocate move = fault) :
    Corresponds move (.error fault) (.error fault) := by
  have hfault : Corresponds move (.error fault) (.error (fault.relocate move)) := .fault fault
  rwa [h] at hfault

section step

variable {m m' : Machine} {move : Nat → Nat} {position : Nat}

/-- What is wrong with two premises (`detachPremises`) is wrong at the `position` of the rule. -/
theorem relocate_of_detachPremises {f g : Formula} {fault : Fault}
    (h : ProofTree.detachPremises position f g = .error fault) (hmove : move position = position) :
    fault.relocate move = fault := by
  unfold ProofTree.detachPremises at h
  split at h
  · rw [← Except.error.inj h, Fault.relocate, hmove]
  · split at h
    · rw [← Except.error.inj h, Fault.relocate, hmove]
    · cases h

/-- Machines that are `Alike` detach formulas that are alike, or stop for the same reason. By
`detachPremises_canonical` the outcome depends on the canonical forms of the premises only, as they
are `Apart`. -/
theorem Machine.Alike.detach (h : m.Alike m') (hmove : move position = position) :
    Corresponds move (m.detach position) (m'.detach position) := by
  have hmissing : (Fault.missingPremise position).relocate move = .missingPremise position :=
    congrArg Fault.missingPremise hmove
  obtain ⟨stack, next⟩ := m
  obtain ⟨stack', next'⟩ := m'
  have hcanonical : stack.map Formula.canonical = stack'.map Formula.canonical := h.canonical
  -- Both stacks have the same height, and two formulas are needed.
  rcases stack with _ | ⟨f, _ | ⟨g, stack⟩⟩ <;> rcases stack' with _ | ⟨f', _ | ⟨g', stack'⟩⟩ <;>
    simp only [List.map_cons, List.map_nil, List.cons.injEq, reduceCtorEq, and_false] at hcanonical
  · exact .same hmissing
  · exact .same hmissing
  · obtain ⟨hf, hg, hrest⟩ := hcanonical
    have hapart : f.Apart g := (List.pairwise_cons.mp h.left.apart).1 g List.mem_cons_self
    have hapart' : f'.Apart g' := (List.pairwise_cons.mp h.right.apart).1 g' List.mem_cons_self
    have hsame := ProofTree.detachPremises_canonical hf hg hapart hapart' position
    rw [ProofTree.detach_cons_cons, ProofTree.detach_cons_cons]
    cases hdetach : ProofTree.detachPremises position f g with
    | error fault =>
      rw [hdetach] at hsame
      cases hdetach' : ProofTree.detachPremises position f' g' with
      | error fault' =>
        rw [hdetach'] at hsame
        obtain rfl := Except.error.inj hsame
        exact .same (relocate_of_detachPremises hdetach hmove)
      | ok k' =>
        rw [hdetach'] at hsame
        cases hsame
    | ok k =>
      rw [hdetach] at hsame
      cases hdetach' : ProofTree.detachPremises position f' g' with
      | error fault' =>
        rw [hdetach'] at hsame
        cases hsame
      | ok k' =>
        rw [hdetach'] at hsame
        refine .machines ⟨?_, ?_, ?_⟩
        · refine Separate.replace [f, g] h.left fun id hid => ?_
          rcases ProofTree.mem_occurrences_of_detachPremises hdetach hid with hid | hid
          · exact ⟨f, by simp, hid⟩
          · exact ⟨g, by simp, hid⟩
        · refine Separate.replace [f', g'] h.right fun id hid => ?_
          rcases ProofTree.mem_occurrences_of_detachPremises hdetach' hid with hid | hid
          · exact ⟨f', by simp, hid⟩
          · exact ⟨g', by simp, hid⟩
        · exact List.cons_eq_cons.mpr ⟨Except.ok.inj hsame, hrest⟩

/-- Machines that are `Alike` put formulas that are alike under necessity. Both stacks are empty or
neither is, as they have the same length. -/
theorem Machine.Alike.necessitate (h : m.Alike m') (hmove : move position = position) :
    Corresponds move (m.necessitate position) (m'.necessitate position) := by
  obtain ⟨stack, next⟩ := m
  obtain ⟨stack', next'⟩ := m'
  have hcanonical : stack.map Formula.canonical = stack'.map Formula.canonical := h.canonical
  rcases stack with _ | ⟨f, stack⟩ <;> rcases stack' with _ | ⟨f', stack'⟩ <;>
    simp only [List.map_cons, List.map_nil, List.cons.injEq, reduceCtorEq] at hcanonical
  · exact .same (congrArg Fault.missingPremise hmove)
  · -- Necessity brings in no variable.
    refine .machines ⟨?_, ?_, ?_⟩
    · exact Separate.replace [f] h.left fun id hid => ⟨f, by simp, hid⟩
    · exact Separate.replace [f'] h.right fun id hid => ⟨f', by simp, hid⟩
    · simp only [List.map_cons, Formula.canonical_necessarily, hcanonical]

/-- Machines that are `Alike` take up copies of an axiom, each with new variables of its own. -/
theorem Machine.Alike.assume (h : m.Alike m') (f : Formula) : (m.assume f).Alike (m'.assume f) := by
  refine ⟨?_, ?_, ?_⟩
  · exact h.left.cons (Nat.le_add_right _ _) (between_shift f m.next)
  · exact h.right.cons (Nat.le_add_right _ _) (between_shift f m'.next)
  · simp only [Machine.assume, List.map_cons, ProofTree.canonical_shift, h.canonical]

/-- The step lemma: machines that are `Alike` stay so with every symbol, or stop with the same
fault. -/
theorem Machine.Alike.step (h : m.Alike m') (hmove : move position = position) (symbol : Char) :
    Corresponds move (m.step basis position symbol) (m'.step basis position symbol) := by
  unfold Machine.step
  split
  · exact h.detach hmove
  · split
    · exact h.necessitate hmove
    · cases basis.formula? symbol with
      | none => exact .same (congrArg (Fault.unknownSymbol symbol) hmove)
      | some f => exact .machines (h.assume f)

end step

/-! ## Texts with alike parts -/

/-- The number of bytes of some symbols, by which positions in a text are counted. -/
def bytes (symbols : List Char) : Nat :=
  (String.ofList symbols).utf8ByteSize

/-- The first symbol counts with its own `utf8Size`. -/
theorem bytes_cons (symbol : Char) (rest : List Char) :
    bytes (symbol :: rest) = symbol.utf8Size + bytes rest := by
  rw [bytes, String.ofList_cons, String.utf8ByteSize_append, String.utf8ByteSize_singleton, bytes]

/-- The run lemma: where the right parts `rest` and `rest'` of two texts correspond, the same
symbols `before` them change nothing. The induction is on `before`, by `Machine.Alike.step`. -/
theorem Corresponds.run_append {move : Nat → Nat} {before rest rest' : List Char} {position : Nat}
    (hmove : ∀ p < position + bytes before, move p = p)
    (h : Corresponds move (Machine.run basis (position + bytes before) rest)
      (Machine.run basis (position + bytes before) rest')) :
    Corresponds move (Machine.run basis position (before ++ rest))
      (Machine.run basis position (before ++ rest')) := by
  induction before generalizing position with
  | nil => exact h
  | cons symbol before ih =>
    rw [bytes_cons, ← Nat.add_assoc] at hmove h
    have hsize : 0 < symbol.utf8Size := symbol.utf8Size_pos
    have hparts := ih hmove h
    rw [List.cons_append, List.cons_append, Machine.run, Machine.run]
    generalize Machine.run basis (position + symbol.utf8Size) (before ++ rest) = result at hparts ⊢
    generalize Machine.run basis (position + symbol.utf8Size) (before ++ rest') = result' at hparts ⊢
    cases hparts with
    | fault fault => exact .fault fault
    | machines halike => exact halike.step (hmove position (by omega)) symbol

/-- The machine keeps variables apart: what `run` leads to is `Separate`. A machine is `Alike`
itself as soon as it is so, so this is `run_append` with the empty text behind. -/
theorem separate_of_run {position : Nat} {symbols : List Char} {m : Machine}
    (h : Machine.run basis position symbols = .ok m) : m.Separate := by
  have hstart : Machine.start.Separate := ⟨List.Pairwise.nil, fun f hf => absurd hf List.not_mem_nil⟩
  -- A machine that is run twice on the same text is alike to itself.
  have hself : Corresponds id (Machine.run basis position (symbols ++ []))
      (Machine.run basis position (symbols ++ [])) :=
    .run_append (fun _ _ => rfl) (.machines ⟨hstart, hstart, rfl⟩)
  rw [List.append_nil, h] at hself
  cases hself with
  | machines halike => exact halike.left

/-- Where a position comes to stand if the part before `stop` is replaced by one that ends at
`stop'`: what is not behind it stays. -/
def moveBehind (stop stop' position : Nat) : Nat :=
  if position < stop then position else position - stop + stop'

/-- A position behind the part is counted from its end, `stop` or `stop'`. -/
theorem moveBehind_add (stop stop' position : Nat) :
    moveBehind stop stop' (position + stop) = position + stop' := by
  rw [moveBehind, if_neg (Nat.not_lt.mpr (Nat.le_add_left _ _)), Nat.add_sub_cancel]

/-- A fault behind a proof stops the machine before it reads the proof, as it reads from right to
left; the fault only moves by what stands before it. -/
theorem run_symbols_append_of_error {after : List Char} {fault : Fault}
    (h : Machine.run basis 0 after = .error fault) (t : ProofTree basis) (position : Nat) :
    Machine.run basis position (t.symbols ++ after) =
      .error (fault.relocate (· + (position + t.length))) := by
  apply ProofTree.run_append_of_error fun _ => ProofTree.utf8Size_of_mem_symbols
  rw [ProofTree.length_symbols, ← Nat.zero_add (position + t.length), Machine.run_relocate, h,
    Nat.zero_add]
  rfl

/-- A proof with the conclusion `c` puts a formula on the stack that is `c` up to renaming and has
variables of its own. -/
theorem run_symbols_append_of_ok {after : List Char} {m : Machine}
    (h : Machine.run basis 0 after = .ok m) {t : ProofTree basis} {c : Formula}
    (hconclude : t.conclude 0 = .ok c) (position : Nat) :
    ∃ f next, Machine.run basis position (t.symbols ++ after) = .ok ⟨f :: m.stack, next⟩ ∧
      Machine.Separate ⟨f :: m.stack, next⟩ ∧ f.canonical = c := by
  have hafter : Machine.run basis (position + t.length) after = .ok m := by
    rw [← Nat.zero_add (position + t.length), Machine.run_relocate, h]
    rfl
  have hread := ProofTree.run_symbols_append t position after m hafter
  rw [ProofTree.conclude_position hconclude position] at hread
  obtain ⟨f, next, hrun, hle, hbetween, hcanonical⟩ := hread
  exact ⟨f, next, hrun, (separate_of_run h).cons hle hbetween, hcanonical⟩

/-- Proofs with the same conclusion lead to machines that are `Alike`, whatever stands behind them
(`after`), and a fault in `after` moves with the end of the proof (`moveBehind`). -/
theorem corresponds_of_conclude {t t' : ProofTree basis} {c : Formula}
    (h : t.conclude 0 = .ok c) (h' : t'.conclude 0 = .ok c) (position : Nat) (after : List Char) :
    Corresponds (moveBehind (position + t.length) (position + t'.length))
      (Machine.run basis position (t.symbols ++ after))
      (Machine.run basis position (t'.symbols ++ after)) := by
  cases hafter : Machine.run basis 0 after with
  | error fault =>
    rw [run_symbols_append_of_error hafter, run_symbols_append_of_error hafter]
    -- The same fault stands behind both proofs, as far from the end of each.
    have hmoved : fault.relocate (· + (position + t'.length)) =
        (fault.relocate (· + (position + t.length))).relocate
          (moveBehind (position + t.length) (position + t'.length)) := by
      simp only [Fault.relocate_relocate, moveBehind_add]
    rw [hmoved]
    exact .fault _
  | ok m =>
    obtain ⟨f, next, hrun, hseparate, hf⟩ := run_symbols_append_of_ok hafter h position
    obtain ⟨f', next', hrun', hseparate', hf'⟩ := run_symbols_append_of_ok hafter h' position
    rw [hrun, hrun']
    refine .machines ⟨hseparate, hseparate', ?_⟩
    rw [List.map_cons, List.map_cons, hf, hf']

/-- Texts that lead to machines that are `Alike` have the same conclusion, or the same fault: a
single formula on the stack is left, and it is brought into canonical form. -/
theorem Corresponds.conclusionChars {move : Nat → Nat} {symbols symbols' : List Char}
    (h : Corresponds move (Machine.run basis 0 symbols) (Machine.run basis 0 symbols'))
    (hne : symbols ≠ []) (hne' : symbols' ≠ []) :
    conclusionChars basis symbols' =
      (conclusionChars basis symbols).mapError (Fault.relocate move) := by
  rw [Proof.conclusionChars, Proof.conclusionChars, if_neg (by simpa using hne'),
    if_neg (by simpa using hne)]
  generalize Machine.run basis 0 symbols = result at h ⊢
  generalize Machine.run basis 0 symbols' = result' at h ⊢
  cases h with
  | fault fault => rfl
  | @machines m m' halike =>
    obtain ⟨stack, next⟩ := m
    obtain ⟨stack', next'⟩ := m'
    have hcanonical : stack.map Formula.canonical = stack'.map Formula.canonical := halike.canonical
    have hlength : stack.length = stack'.length := by
      simpa only [List.length_map] using congrArg List.length hcanonical
    -- One formula is the conclusion, and any other number is the fault.
    rcases stack with _ | ⟨f, _ | ⟨g, stack⟩⟩ <;> rcases stack' with _ | ⟨f', _ | ⟨g', stack'⟩⟩ <;>
      simp only [List.map_cons, List.map_nil, List.cons.injEq, reduceCtorEq, and_false, and_true]
        at hcanonical
    · rfl
    · exact congrArg Except.ok hcanonical.symm
    · exact congrArg (fun n => Except.error (Fault.unconsumed n)) hlength.symm

/-- A proof `a` can be replaced by another one `a'` with the same conclusion anywhere in a text: the
text has the same conclusion, or the same fault, which has moved only if it stands behind the proof
(`moveBehind`). -/
theorem conclusion_replace {a a' : String} {c : Formula} (h : conclusion basis a = .ok c)
    (h' : conclusion basis a' = .ok c) (before after : String) :
    conclusion basis (before ++ a' ++ after) =
      (conclusion basis (before ++ a ++ after)).mapError (Fault.relocate
        (moveBehind (length before + length a) (length before + length a'))) := by
  obtain ⟨t, rfl⟩ := ProofTree.exists_tree_of_conclusion h
  obtain ⟨t', rfl⟩ := ProofTree.exists_tree_of_conclusion h'
  rw [ProofTree.conclusion_text] at h h'
  have hbytes : bytes before.toList = length before := by
    rw [bytes, String.ofList_toList, length]
  have hparts := corresponds_of_conclude h h' (length before) after.toList
  have hwhole : Corresponds (moveBehind (length before + t.length) (length before + t'.length))
      (Machine.run basis 0 (before.toList ++ (t.symbols ++ after.toList)))
      (Machine.run basis 0 (before.toList ++ (t'.symbols ++ after.toList))) := by
    apply Corresponds.run_append
    · intro p hp
      rw [moveBehind, if_pos (by omega)]
    · rw [Nat.zero_add, hbytes]
      exact hparts
  rw [ProofTree.length_text, ProofTree.length_text, conclusion, conclusion]
  simp only [String.toList_append, ProofTree.toList_text, List.append_assoc]
  refine hwhole.conclusionChars ?_ ?_
  · simp [t.symbols_ne_nil]
  · simp [t'.symbols_ne_nil]

/-! ## Conclusions of rules -/

/-- A detachment of two proofs has the conclusion that `ProofTree.detachConclusions` finds for their
conclusions, if there is one. -/
theorem conclusion_detach {a b : String} {c d : Formula} (ha : conclusion basis a = .ok c)
    (hb : conclusion basis b = .ok d) :
    conclusion basis (String.singleton detachSymbol ++ (a ++ b)) =
      ProofTree.detachConclusions 0 c d := by
  obtain ⟨major, rfl⟩ := ProofTree.exists_tree_of_conclusion ha
  obtain ⟨minor, rfl⟩ := ProofTree.exists_tree_of_conclusion hb
  rw [ProofTree.conclusion_text] at ha hb
  rw [← ProofTree.text_detach, ProofTree.conclusion_text, ProofTree.conclude,
    ProofTree.conclude_position hb, ProofTree.conclude_position ha]

/-- What a proof text proves follows from what its parts prove. A necessitation of a proof proves
the necessity of its conclusion. A detachment of two proofs fails if the first conclusion is no
implication or does not fit the second, with the variables moved out of the way
(`cb.shift ca.span`), and proves what `detach?` finds for the two otherwise. A proof can be replaced
by another one with the same conclusion anywhere in a text, without a change of the result other
than the positions of faults behind it (`moveBehind`). -/
theorem conclusion_compositional {a b : String} {ca cb : Formula}
    (ha : conclusion basis a = .ok ca) (hb : conclusion basis b = .ok cb) :
    conclusion basis (String.singleton necessitateSymbol ++ a) = .ok ca.necessarily ∧
    (ca.implication? = none →
      conclusion basis (String.singleton detachSymbol ++ (a ++ b)) =
        .error (.notAnImplication 0)) ∧
    (ca.implication? ≠ none → detach? ca (cb.shift ca.span) = none →
      conclusion basis (String.singleton detachSymbol ++ (a ++ b)) = .error (.notUnifiable 0)) ∧
    (∀ c, ca.implication? ≠ none → detach? ca (cb.shift ca.span) = some c →
      conclusion basis (String.singleton detachSymbol ++ (a ++ b)) = .ok c.canonical) ∧
    ∀ a', conclusion basis a' = .ok ca → ∀ before after,
      conclusion basis (before ++ a' ++ after) =
        (conclusion basis (before ++ a ++ after)).mapError (Fault.relocate
          (moveBehind (length before + length a) (length before + length a'))) := by
  have hdetach := conclusion_detach ha hb
  refine ⟨?_, fun himp => ?_, fun himp hnone => ?_, fun c himp hsome => ?_,
    fun a' ha' => conclusion_replace ha ha'⟩
  · obtain ⟨t, rfl⟩ := ProofTree.exists_tree_of_conclusion ha
    rw [ProofTree.conclusion_text] at ha
    rw [← ProofTree.text_necessitate, ProofTree.conclusion_text]
    exact ProofTree.conclude_necessitate_eq_ok.mpr ⟨ca, ProofTree.conclude_position ha _, rfl⟩
  · rw [hdetach, ProofTree.detachConclusions, himp]
  · obtain ⟨parts, hparts⟩ := Option.ne_none_iff_exists'.mp himp
    rw [hdetach, ProofTree.detachConclusions, hparts, hnone]
  · obtain ⟨parts, hparts⟩ := Option.ne_none_iff_exists'.mp himp
    rw [hdetach, ProofTree.detachConclusions, hparts, hsome]

/-- In the standard system `DD211` and `DD21D11` both prove `p → p`. So `D1DD21D11` proves what
`D1DD211` proves, and the unknown symbol behind `D1DD211?` is still found when it has moved. A
necessity cannot be detached, and neither can the third axiom from the first. -/
theorem conclusion_compositional_standard :
    conclusion .standard "DD211" = .ok (.implies (.var 0) (.var 0)) ∧
    conclusion .standard "NDD211" = .ok (Formula.implies (.var 0) (.var 0)).necessarily ∧
    conclusion .standard "DDD211D11" =
      .ok (.implies (.var 0) (.implies (.var 1) (.implies (.var 2) (.var 1)))) ∧
    conclusion .standard "D1DD21D11" = conclusion .standard "D1DD211" ∧
    conclusion .standard "D1DD21D11?" = .error (.unknownSymbol '?' 9) ∧
    conclusion .standard "DN11" = .error (.notAnImplication 0) ∧
    conclusion .standard "D31" = .error (.notUnifiable 0) := by
  have hshort : conclusion .standard "DD211" = .ok (.implies (.var 0) (.var 0)) := rfl
  have hlong : conclusion .standard "DD21D11" = .ok (.implies (.var 0) (.var 0)) := rfl
  have hminor : conclusion .standard "D11" =
      .ok (.implies (.var 0) (.implies (.var 1) (.implies (.var 2) (.var 1)))) := rfl
  have hfirst : conclusion .standard "1" =
      .ok (.implies (.var 0) (.implies (.var 1) (.var 0))) := rfl
  have hboxed : conclusion .standard "N1" =
      .ok (Formula.implies (.var 0) (.implies (.var 1) (.var 0))).necessarily := rfl
  have hthird : conclusion .standard "3" = .ok (.implies (.implies (.unary .negation (.var 0))
      (.unary .negation (.var 1))) (.implies (.var 1) (.var 0))) := rfl
  obtain ⟨hnecessitate, -, -, hdetach, hreplace⟩ := conclusion_compositional hshort hminor
  refine ⟨hshort, hnecessitate, hdetach _ (by decide) rfl, hreplace _ hlong "D1" "",
    hreplace _ hlong "D1" "?", ?_, ?_⟩
  · exact (conclusion_compositional hboxed hfirst).2.1 rfl
  · exact (conclusion_compositional hthird hfirst).2.2.1 (by decide) rfl

end Proof

end Detachment
