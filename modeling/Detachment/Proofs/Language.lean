import Detachment.Proofs.ProofTree
import Detachment.Proofs.Productions
import Detachment.Proofs.Search
import Detachment.Proofs.Table

/-! # The language of a grammar

A table that covers lengths up to a limit generates the codes whose largest known parts are entries
of the table and whose runs of necessitations are not too long.

* `NecessitationLimit.RunsAllowed` walks through a code and counts the necessitations in a row;
  `NecessitationLimit.runsAllowed_zero_iff` says that it finds every run.
* `ProofTree.maximalWithin` lists the largest parts of a tree up to a length.
* `Grammar.yields` says that a slot stands only for trees that are built,
  `Grammar.mem_fillings_of_builds` that it stands for all of them, and `Grammar.nodup_fillings` that
  it stands for each of them once.
* `Grammar.generate_language` puts this together for a request. -/

namespace Detachment

/-! ## Runs of necessitations -/

namespace NecessitationLimit

variable {limit : NecessitationLimit} {m n run : Nat}

/-- A limit `allows` every run that is shorter than one it allows. -/
theorem allows_of_le (h : m ≤ n) (hn : limit.allows n) : limit.allows m := by
  cases limit with
  | disabled =>
    simp only [allows, beq_iff_eq] at hn ⊢
    omega
  | bounded most =>
    simp only [allows, decide_eq_true_eq] at hn ⊢
    omega
  | unbounded => rfl

/-- No necessitation at all is always allowed. -/
@[simp] theorem allows_zero (limit : NecessitationLimit) : limit.allows 0 := by
  cases limit <;> simp [allows]

/-- Without necessitation (`isEnabled`) no run is allowed. -/
theorem not_allows_succ (h : limit.isEnabled = false) (n : Nat) : limit.allows (n + 1) = false := by
  cases limit with
  | disabled => simp [allows]
  | bounded most =>
    simp only [isEnabled, bne_eq_false_iff_eq] at h
    simp [allows, h]
  | unbounded => cases h

/-- The limit `allows` each run of necessitations in a code, with `run` of them before it. -/
def RunsAllowed (limit : NecessitationLimit) : Nat → List Char → Prop
  | run, [] => limit.allows run
  | run, symbol :: rest =>
    if symbol = Proof.necessitateSymbol then RunsAllowed limit (run + 1) rest
    else limit.allows run ∧ RunsAllowed limit 0 rest

/-- A necessitation makes the run before the rest longer. -/
theorem runsAllowed_necessitate {rest : List Char} :
    RunsAllowed limit run (Proof.necessitateSymbol :: rest) ↔ RunsAllowed limit (run + 1) rest := by
  rw [RunsAllowed, if_pos rfl]

/-- Any other symbol ends the run, which has to be allowed, and starts a new one. -/
theorem runsAllowed_cons {symbol : Char} (h : symbol ≠ Proof.necessitateSymbol) {rest : List Char} :
    RunsAllowed limit run (symbol :: rest) ↔ limit.allows run ∧ RunsAllowed limit 0 rest := by
  rw [RunsAllowed, if_neg h]

/-- A run before a code matters only for the run that the code starts with, its `takeWhile`. By
induction on the code: a necessitation makes the run longer, anything else ends it. -/
theorem runsAllowed_iff (symbols : List Char) :
    RunsAllowed limit run symbols ↔
      limit.allows (run + (symbols.takeWhile (· = Proof.necessitateSymbol)).length) ∧
        RunsAllowed limit 0 symbols := by
  induction symbols generalizing run with
  | nil => simp [RunsAllowed]
  | cons symbol rest ih =>
    by_cases hsymbol : symbol = Proof.necessitateSymbol
    · subst hsymbol
      rw [runsAllowed_necessitate, runsAllowed_necessitate, ih, Nat.zero_add, @ih 1]
      simp only [List.takeWhile_cons, decide_true, if_true, List.length_cons]
      constructor
      · rintro ⟨hrun, hrest⟩
        exact ⟨allows_of_le (by omega) hrun, allows_of_le (by omega) hrun, hrest⟩
      · rintro ⟨hrun, -, hrest⟩
        exact ⟨allows_of_le (by omega) hrun, hrest⟩
    · rw [runsAllowed_cons hsymbol, runsAllowed_cons hsymbol]
      simp [hsymbol]

/-- The run before a code is allowed if the runs of the code are (`RunsAllowed`). -/
theorem allows_of_runsAllowed {symbols : List Char} (h : limit.RunsAllowed run symbols) :
    limit.allows run :=
  allows_of_le (Nat.le_add_right _ _) ((runsAllowed_iff symbols).mp h).1

/-- A run `List.replicate n` of necessitations ends at the latest at any other symbol, so it lies
before or behind it. -/
theorem replicate_infix_iff {symbol : Char} (h : symbol ≠ Proof.necessitateSymbol)
    (before after : List Char) :
    List.replicate n Proof.necessitateSymbol <:+: before ++ symbol :: after ↔
      List.replicate n Proof.necessitateSymbol <:+: before ∨
        List.replicate n Proof.necessitateSymbol <:+: after := by
  -- A list of necessitations in front of the symbol is empty.
  have hstart : ∀ run, List.replicate run Proof.necessitateSymbol <+: symbol :: after →
      run = 0 := by
    intro run hrun
    cases run with
    | zero => rfl
    | succ run => exact absurd (List.cons_prefix_cons.mp hrun).1.symm h
  constructor
  · intro hinfix
    rcases List.infix_append_iff.mp hinfix with hbefore | hafter | ⟨l₁, l₂, hsplit, h₁, h₂⟩
    · exact .inl hbefore
    · rcases List.infix_cons_iff.mp hafter with hprefix | hafter
      · rw [hstart n hprefix]
        exact .inl List.nil_infix
      · exact .inr hafter
    · obtain ⟨-, -, hl₂⟩ := List.append_eq_replicate_iff.mp hsplit.symm
      rw [hl₂] at h₂
      have hl₂nil : l₂ = [] := List.length_eq_zero_iff.mp (hstart _ h₂)
      rw [hsplit, hl₂nil, List.append_nil]
      exact .inl h₁.isInfix
  · rintro (hbefore | hafter)
    · exact hbefore.trans (List.prefix_append _ _).isInfix
    · exact hafter.trans ((List.suffix_cons _ _).trans (List.suffix_append _ _)).isInfix

/-- The walk `RunsAllowed` through a code meets every run of necessitations, as a `List.replicate n`
that is an infix. The induction is on the code, with the run before it. -/
theorem runsAllowed_iff_replicate (symbols : List Char) :
    RunsAllowed limit run symbols ↔
      ∀ n, List.replicate n Proof.necessitateSymbol <:+:
        List.replicate run Proof.necessitateSymbol ++ symbols → limit.allows n := by
  have hwithin : ∀ {run}, limit.allows run → ∀ n, List.replicate n Proof.necessitateSymbol <:+:
      List.replicate run Proof.necessitateSymbol → limit.allows n := by
    intro run hrun n hinfix
    have hlength := hinfix.length_le
    rw [List.length_replicate, List.length_replicate] at hlength
    exact allows_of_le hlength hrun
  induction symbols generalizing run with
  | nil =>
    rw [RunsAllowed, List.append_nil]
    exact ⟨hwithin, fun h => h run List.infix_rfl⟩
  | cons symbol rest ih =>
    by_cases hsymbol : symbol = Proof.necessitateSymbol
    · rw [hsymbol, runsAllowed_necessitate]
      refine ih.trans ?_
      rw [List.replicate_succ', List.append_assoc, List.singleton_append]
    · simp only [runsAllowed_cons hsymbol, ih, replicate_infix_iff hsymbol, List.replicate_zero,
        List.nil_append]
      constructor
      · rintro ⟨hrun, hrest⟩ n (hbefore | hafter)
        · exact hwithin hrun n hbefore
        · exact hrest n hafter
      · intro h
        exact ⟨h run (.inl List.infix_rfl), fun n hafter => h n (.inr hafter)⟩

/-- The runs of a code are allowed if each `List.replicate n` of necessitations in it is. -/
theorem runsAllowed_zero_iff (symbols : List Char) :
    RunsAllowed limit 0 symbols ↔
      ∀ n, List.replicate n Proof.necessitateSymbol <:+: symbols → limit.allows n := by
  rw [runsAllowed_iff_replicate, List.replicate_zero, List.nil_append]

end NecessitationLimit

variable {basis : Basis}

/-! ## Parts of a tree -/

namespace ProofTree

variable {limit : NecessitationLimit} {run most : Nat}

/-- The largest parts of a tree whose length is at most `most`, from left to right. -/
def maximalWithin (most : Nat) : ProofTree basis → List (ProofTree basis)
  | leaf name => if 1 ≤ most then [leaf name] else []
  | necessitate inner =>
    if inner.length + 1 ≤ most then [necessitate inner] else inner.maximalWithin most
  | detach major minor =>
    if major.length + minor.length + 1 ≤ most then [detach major minor]
    else major.maximalWithin most ++ minor.maximalWithin most

/-- A tree that is short enough is its own largest part. -/
theorem maximalWithin_of_le {t : ProofTree basis} (h : t.length ≤ most) :
    t.maximalWithin most = [t] := by
  cases t <;> exact if_pos h

/-- A necessitation that is too long has the largest parts of its premise. -/
theorem maximalWithin_necessitate {inner : ProofTree basis} (h : most < inner.length + 1) :
    (necessitate inner).maximalWithin most = inner.maximalWithin most :=
  if_neg (Nat.not_le.mpr h)

/-- A detachment that is too long has the largest parts of its premises. -/
theorem maximalWithin_detach {major minor : ProofTree basis}
    (h : most < major.length + minor.length + 1) :
    (detach major minor).maximalWithin most =
      major.maximalWithin most ++ minor.maximalWithin most :=
  if_neg (Nat.not_le.mpr h)

/-- A code ends with an axiom, so that the runs in `rest` after it are counted from zero. By
induction on the tree, for every run before it and every `rest` behind it. -/
theorem runsAllowed_symbols_append (t : ProofTree basis) (rest : List Char) :
    limit.RunsAllowed run (t.symbols ++ rest) ↔
      limit.RunsAllowed run t.symbols ∧ limit.RunsAllowed 0 rest := by
  induction t generalizing run rest with
  | leaf name =>
    have hname := (Basis.name_spec name).2.1
    rw [symbols, List.singleton_append, NecessitationLimit.runsAllowed_cons hname,
      NecessitationLimit.runsAllowed_cons hname, NecessitationLimit.RunsAllowed]
    simp
  | necessitate inner ih =>
    rw [symbols, List.cons_append, NecessitationLimit.runsAllowed_necessitate,
      NecessitationLimit.runsAllowed_necessitate, ih]
  | detach major minor ih₁ ih₂ =>
    have hdetach : Proof.detachSymbol ≠ Proof.necessitateSymbol := by decide
    rw [symbols, List.cons_append, NecessitationLimit.runsAllowed_cons hdetach,
      NecessitationLimit.runsAllowed_cons hdetach, List.append_assoc, ih₁, ih₁, ih₂, and_assoc,
      and_assoc]

/-- The runs of a detachment are those of its premises, both counted from zero. -/
theorem runsAllowed_detach {major minor : ProofTree basis} :
    limit.RunsAllowed run (detach major minor).symbols ↔
      limit.allows run ∧ limit.RunsAllowed 0 major.symbols ∧
        limit.RunsAllowed 0 minor.symbols := by
  rw [symbols, NecessitationLimit.runsAllowed_cons (by decide), runsAllowed_symbols_append]

/-- A tree with `RunsAllowed` has a length that `canHaveLength` admits: without necessitation it is
odd. -/
theorem canHaveLength_of_runsAllowed {t : ProofTree basis}
    (h : limit.RunsAllowed run t.symbols) : canHaveLength limit.isEnabled t.length := by
  induction t generalizing run with
  | leaf name => exact Bool.or_true _
  | necessitate inner ih =>
    rw [symbols, NecessitationLimit.runsAllowed_necessitate] at h
    cases henabled : limit.isEnabled with
    | true => rfl
    | false =>
      have hrun := NecessitationLimit.allows_of_runsAllowed h
      rw [NecessitationLimit.not_allows_succ henabled] at hrun
      cases hrun
  | detach major minor ih₁ ih₂ =>
    obtain ⟨-, hmajor, hminor⟩ := runsAllowed_detach.mp h
    exact Grammar.canHaveLength_detach (ih₁ hmajor) (ih₂ hminor)

end ProofTree

/-! ## Tables -/

/-- The rows of a table up to the length `most` list codes of their length with allowed runs, each
once. -/
structure Representatives.Proper (table : Representatives) (basis : Basis)
    (limit : NecessitationLimit) (most : Nat) : Prop where
  /-- No entry is listed twice. -/
  nodup : ∀ length ≤ most, (table.row length).Nodup
  /-- Every entry is the code of a tree of the row's length. -/
  exists_tree : ∀ length ≤ most, ∀ proof ∈ table.row length,
    ∃ t : ProofTree basis, t.text = proof ∧ t.length = length
  /-- No entry has more necessitations in a row than the limit allows. -/
  runs : ∀ length ≤ most, ∀ proof ∈ table.row length, ∀ n,
    List.replicate n Proof.necessitateSymbol <:+: proof.toList → limit.allows n

/-- The table of the axioms (`ofBasis`) is `Proper`. Its only row is that of length one, whose
entries are leaves. -/
theorem Representatives.proper_ofBasis (basis : Basis) (limit : NecessitationLimit) (most : Nat) :
    (ofBasis basis).Proper basis limit most := by
  have hleaf : ∀ {length proof}, proof ∈ (ofBasis basis).row length →
      length = 1 ∧ ∃ name : basis.Name, (ProofTree.leaf name).text = proof := by
    intro length proof hproof
    rw [row_ofBasis] at hproof
    obtain ⟨hone, hmem⟩ := List.mem_ite_nil_right.mp hproof
    exact ⟨hone, Basis.mem_proofs_iff.mp (List.mem_mergeSort.mp hmem)⟩
  refine ⟨fun length _ => ?_, fun length _ proof hproof => ?_, fun length _ proof hproof => ?_⟩
  · rw [row_ofBasis]
    split
    · exact (List.mergeSort_perm _ _).nodup_iff.mpr basis.nodup_proofs
    · exact List.nodup_nil
  · obtain ⟨rfl, name, rfl⟩ := hleaf hproof
    exact ⟨.leaf name, rfl, rfl⟩
  · obtain ⟨-, name, rfl⟩ := hleaf hproof
    rw [← NecessitationLimit.runsAllowed_zero_iff, ProofTree.toList_text, ProofTree.symbols,
      NecessitationLimit.runsAllowed_cons (Basis.name_spec name).2.1]
    exact ⟨limit.allows_zero, limit.allows_zero⟩

/-! ## What a grammar builds -/

namespace Grammar

variable {g : Grammar} {run length : Nat} {w : String}

/-- The grammar builds a tree: it has `RunsAllowed`, `run` necessitations before it included, and
its largest known parts (`maximalWithin`) are entries of the table. -/
def Builds (g : Grammar) (run : Nat) (t : ProofTree basis) : Prop :=
  g.necessitation.RunsAllowed run t.symbols ∧
    ∀ part ∈ t.maximalWithin g.knownLimit, part.text ∈ g.table.row part.length

/-- A known tree is built if it is an entry of the table that fits after the run (`fitting`). Such a
tree is its own only maximal part (`maximalWithin_of_le`). -/
theorem builds_iff_of_le (htable : g.table.Proper basis g.necessitation g.knownLimit)
    {t : ProofTree basis} (h : t.length ≤ g.knownLimit) :
    g.Builds run t ↔ t.text ∈ g.fitting t.length run := by
  rw [Builds, ProofTree.maximalWithin_of_le h, fitting, List.mem_filter,
    NecessitationLimit.runsAllowed_iff, Proof.leadingNecessitations, ProofTree.toList_text]
  constructor
  · rintro ⟨⟨hrun, -⟩, hparts⟩
    exact ⟨hparts t (List.mem_singleton_self t), hrun⟩
  · rintro ⟨hmem, hrun⟩
    have hruns := htable.runs _ h _ hmem
    rw [ProofTree.toList_text, ← NecessitationLimit.runsAllowed_zero_iff] at hruns
    refine ⟨⟨hrun, hruns⟩, fun part hpart => ?_⟩
    rw [List.mem_singleton.mp hpart]
    exact hmem

/-- A necessitation that is not known is built from a premise after a run that is longer by one. -/
theorem builds_necessitate_iff {inner : ProofTree basis}
    (h : g.knownLimit < (ProofTree.necessitate inner).length) :
    g.Builds run (.necessitate inner) ↔ g.Builds (run + 1) inner := by
  rw [Builds, ProofTree.maximalWithin_necessitate h, ProofTree.symbols,
    NecessitationLimit.runsAllowed_necessitate, Builds]

/-- A detachment that is not known is built from premises without a run before them. Its maximal
parts are those of the two premises (`maximalWithin_detach`). -/
theorem builds_detach_iff {major minor : ProofTree basis} (hrun : g.necessitation.allows run)
    (h : g.knownLimit < (ProofTree.detach major minor).length) :
    g.Builds run (.detach major minor) ↔ g.Builds 0 major ∧ g.Builds 0 minor := by
  rw [Builds, ProofTree.maximalWithin_detach h, ProofTree.runsAllowed_detach, Builds, Builds]
  constructor
  · rintro ⟨⟨-, hmajor, hminor⟩, hparts⟩
    exact ⟨⟨hmajor, fun part hpart => hparts part (List.mem_append_left _ hpart)⟩,
      hminor, fun part hpart => hparts part (List.mem_append_right _ hpart)⟩
  · rintro ⟨⟨hmajor, hmajorParts⟩, hminor, hminorParts⟩
    refine ⟨⟨hrun, hmajor, hminor⟩, fun part hpart => ?_⟩
    rcases List.mem_append.mp hpart with hpart | hpart
    · exact hmajorParts part hpart
    · exact hminorParts part hpart

/-- What a grammar builds has a length that proofs can have (`canHaveLength`). -/
theorem Builds.canHaveLength {t : ProofTree basis} (h : g.Builds run t) :
    canHaveLength g.necessitation.isEnabled t.length :=
  ProofTree.canHaveLength_of_runsAllowed h.1

/-- The production that the last step of a tree follows; a leaf has none. -/
def lastStep? (g : Grammar) : ProofTree basis → Option Production
  | .leaf _ => none
  | .necessitate inner => some (.necessitate (g.slotFor inner.length))
  | .detach major minor => some (.detach (g.slotFor major.length) (g.slotFor minor.length))

/-- The last step of a tree that is built and not known is among the `rules` for its length, and its
slots are for smaller trees that are built, too. -/
theorem exists_lastStep (hpairs : g.WellPaired) (hknown : 1 ≤ g.knownLimit) {t : ProofTree basis}
    (hbeyond : g.knownLimit < t.length) (h : g.Builds run t) :
    ∃ p ∈ g.rules t.length, g.lastStep? t = some p ∧
      ∀ slot ∈ p.slots, ∃ (part : ProofTree basis) (run' : Nat),
        g.Builds run' part ∧ part.length < t.length ∧ slot = g.slotFor part.length := by
  cases t with
  | leaf name => exact absurd hbeyond (Nat.not_lt.mpr hknown)
  | necessitate inner =>
    have hinner := (builds_necessitate_iff hbeyond).mp h
    refine ⟨_, (mem_rules_iff hpairs hbeyond).mpr (.inl ⟨?_, ?_, rfl⟩), rfl, ?_⟩
    · -- A tree with a necessitation is only built where the limit allows one.
      cases henabled : g.necessitation.isEnabled with
      | true => rfl
      | false =>
        have hrun := NecessitationLimit.allows_of_runsAllowed hinner.1
        rw [NecessitationLimit.not_allows_succ henabled] at hrun
        exact hrun
    · exact Nat.succ_le_succ inner.length_pos
    · intro slot hslot
      refine ⟨inner, run + 1, hinner, Nat.lt_succ_self _, ?_⟩
      exact List.mem_singleton.mp hslot
  | detach major minor =>
    have hrun := NecessitationLimit.allows_of_runsAllowed h.1
    obtain ⟨hmajor, hminor⟩ := (builds_detach_iff hrun hbeyond).mp h
    refine ⟨_, (mem_rules_iff hpairs hbeyond).mpr (.inr ⟨major.length, minor.length,
      major.length_pos, minor.length_pos, hmajor.canHaveLength, hminor.canHaveLength, rfl, rfl⟩),
      rfl, ?_⟩
    intro slot hslot
    rcases List.mem_cons.mp hslot with rfl | hslot
    · exact ⟨major, 0, hmajor, by rw [ProofTree.length]; omega, rfl⟩
    · refine ⟨minor, 0, hminor, by rw [ProofTree.length]; omega, ?_⟩
      exact List.mem_singleton.mp hslot

/-! ## Slots that can be filled -/

/-- Every tree that is built, as far as lengths are settled (`realizable.size`), has a slot that
counts as fillable. -/
def Settled (g : Grammar) (basis : Basis) : Prop :=
  ∀ (t : ProofTree basis) (run : Nat), g.Builds run t → t.length < g.realizable.size →
    g.isRealizable (g.slotFor t.length)

/-- The slot of a tree counts as fillable if the entry of `realizable` for its length says so. -/
theorem isRealizable_slotFor (t : ProofTree basis) :
    g.isRealizable (g.slotFor t.length) = g.realizable.getD t.length false := by
  have hpos : 1 ≤ t.length := t.length_pos
  rw [isRealizable, length_slotFor, decide_eq_true hpos, Bool.true_and]

/-- The lengths of the table are `Settled` at the start. What can be built within the table is an
entry of it, so its row is not empty. -/
theorem settled_start {table : Representatives} {knownLimit maxLength : Nat}
    {limit : NecessitationLimit} (htable : table.Proper basis limit knownLimit) :
    (start table knownLimit limit maxLength).Settled basis := by
  intro t run hbuilds hsize
  have hle : t.length ≤ knownLimit := by
    simp only [start, Array.size_map, Array.size_range] at hsize
    omega
  have hmem := List.mem_filter.mp ((builds_iff_of_le htable hle).mp hbuilds)
  have hrow : (table.row t.length).isEmpty = false :=
    List.isEmpty_eq_false_iff.mpr (List.ne_nil_of_mem hmem.1)
  have hparity : canHaveLength limit.isEnabled t.length := hbuilds.canHaveLength
  have hpos : 1 ≤ t.length := t.length_pos
  rw [isRealizable_slotFor]
  simp [start, Array.getD_eq_getD_getElem?, Nat.lt_succ_of_le hle, hrow, hparity, hpos]

/-- The step lemma for `Settled`: settling one length more (`extend`) keeps it. -/
theorem Settled.extend (hpairs : g.WellPaired) (hknown : 1 ≤ g.knownLimit)
    (hsize : g.knownLimit < g.realizable.size) (h : g.Settled basis) :
    g.extend.Settled basis := by
  intro t run hbuilds hlt
  rw [isRealizable_slotFor]
  have hlt' : t.length < g.realizable.size + 1 := by
    simpa [Grammar.extend] using hlt
  show (g.realizable.push (g.canBuild g.realizable.size)).getD t.length false = true
  rw [Array.getD_eq_getD_getElem?, Array.getElem?_push]
  by_cases hlast : t.length = g.realizable.size
  · -- The parts of the tree are settled already, so that its last step can be followed.
    obtain ⟨p, hrule, -, hslots⟩ := exists_lastStep hpairs hknown (hlast ▸ hsize) hbuilds
    have hproduction : p ∈ g.productions t.length := by
      refine mem_productions_iff.mpr ⟨hrule, fun slot hslot => ?_⟩
      obtain ⟨part, run', hpart, hpartLength, rfl⟩ := hslots slot hslot
      exact h part run' hpart (by omega)
    rw [if_pos hlast, ← hlast, Option.getD_some, canBuild_eq, Bool.not_eq_true',
      List.isEmpty_eq_false_iff]
    exact List.ne_nil_of_mem hproduction
  · rw [if_neg hlast, ← Array.getD_eq_getD_getElem?, ← isRealizable_slotFor]
    exact h t run hbuilds (by omega)

/-- Settling lengths changes nothing but `realizable`. -/
theorem foldl_extend (ns : List Nat) (g : Grammar) :
    ns.foldl (fun g _ => g.extend) g =
      { g with realizable := (ns.foldl (fun g _ => g.extend) g).realizable } := by
  induction ns generalizing g with
  | nil => rfl
  | cons n ns ih =>
    rw [List.foldl_cons, ih]
    rfl

/-- Each round of settling settles one length, so `realizable` grows by as many. -/
theorem size_foldl_extend (ns : List Nat) (g : Grammar) :
    (ns.foldl (fun g _ => g.extend) g).realizable.size = g.realizable.size + ns.length := by
  induction ns generalizing g with
  | nil => rfl
  | cons n ns ih =>
    rw [List.foldl_cons, ih, Grammar.extend, Array.size_push, List.length_cons]
    omega

/-- The run lemma for `Settled`: all lengths that are gone through are settled. -/
theorem Settled.foldl_extend (hpairs : g.WellPaired) (hknown : 1 ≤ g.knownLimit)
    (hsize : g.knownLimit < g.realizable.size) (h : g.Settled basis) (ns : List Nat) :
    (ns.foldl (fun g _ => g.extend) g).Settled basis := by
  induction ns generalizing g with
  | nil => exact h
  | cons n ns ih =>
    refine ih hpairs hknown ?_ (h.extend hpairs hknown hsize)
    show g.knownLimit < (g.realizable.push _).size
    rw [Array.size_push]
    exact Nat.lt_succ_of_lt hsize

/-- The grammar is prepared to build longer proofs from a table of codes (`Proper`), up to
`maxLength`. -/
structure Prepared (g : Grammar) (basis : Basis) : Prop where
  /-- The pairs of lengths are those for the limit. -/
  paired : g.WellPaired
  /-- The table holds codes. -/
  proper : g.table.Proper basis g.necessitation g.knownLimit
  /-- The table covers the axioms. -/
  one_le : 1 ≤ g.knownLimit
  /-- All known lengths can be referred to. -/
  le_longest : g.knownLimit ≤ longestEntry
  /-- Slots of trees that are built count as fillable. -/
  realizable : ∀ (t : ProofTree basis) (run : Nat), g.Builds run t → t.length ≤ g.maxLength →
    g.isRealizable (g.slotFor t.length)

section prepare

variable (table : Representatives) (knownLimit : Nat) (limit : NecessitationLimit)
  (maxLength : Nat)

/-- Preparing only settles which slots can be filled (`realizable`). -/
theorem prepare_eq :
    prepare table knownLimit limit maxLength =
      { start table knownLimit limit maxLength with
        realizable := (prepare table knownLimit limit maxLength).realizable } :=
  foldl_extend _ _

/-- The table is the one that was given. -/
@[simp] theorem prepare_table : (prepare table knownLimit limit maxLength).table = table := by
  rw [prepare_eq]
  rfl

/-- The known lengths are the ones that were given. -/
@[simp] theorem prepare_knownLimit :
    (prepare table knownLimit limit maxLength).knownLimit = knownLimit := by
  rw [prepare_eq]
  rfl

/-- The limit is the one that was given. -/
@[simp] theorem prepare_necessitation :
    (prepare table knownLimit limit maxLength).necessitation = limit := by
  rw [prepare_eq]
  rfl

/-- Known lengths are always prepared, so `maxLength` is at least `knownLimit`. -/
@[simp] theorem prepare_maxLength :
    (prepare table knownLimit limit maxLength).maxLength = max maxLength knownLimit := by
  rw [prepare_eq]
  rfl

/-- The pairs of lengths are those for the limit, as at the start. -/
theorem wellPaired_prepare : (prepare table knownLimit limit maxLength).WellPaired := by
  rw [prepare_eq]
  rfl

end prepare

/-- A table of codes that covers the axioms gives a `Prepared` grammar: `prepare` settles all
lengths up to the largest. -/
theorem prepared_prepare {table : Representatives} {knownLimit : Nat} {limit : NecessitationLimit}
    (htable : table.Proper basis limit knownLimit) (hone : 1 ≤ knownLimit)
    (hlongest : knownLimit ≤ longestEntry) (maxLength : Nat) :
    (prepare table knownLimit limit maxLength).Prepared basis where
  paired := wellPaired_prepare _ _ _ _
  proper := by
    rw [prepare_table, prepare_necessitation, prepare_knownLimit]
    exact htable
  one_le := by rwa [prepare_knownLimit]
  le_longest := by rwa [prepare_knownLimit]
  realizable := by
    have hsize : (start table knownLimit limit maxLength).realizable.size = knownLimit + 1 := by
      simp [start]
    have hsettled : (prepare table knownLimit limit maxLength).Settled basis := by
      have hpaired : (start table knownLimit limit maxLength).WellPaired := rfl
      refine (settled_start htable).foldl_extend hpaired hone ?_ _
      rw [hsize]
      exact Nat.lt_succ_self knownLimit
    intro t run hbuilds hlength
    refine hsettled t run hbuilds ?_
    rw [prepare_maxLength] at hlength
    rw [prepare, size_foldl_extend, hsize, List.length_range]
    omega

/-! ## What a slot stands for -/

/-- The slot of a length stands only for texts of trees of this length that are built (`Builds`). -/
def Yields (g : Grammar) (basis : Basis) (length : Nat) : Prop :=
  ∀ run, g.necessitation.allows run → ∀ w ∈ g.fillings ⟨g.slotFor length, run⟩,
    ∃ t : ProofTree basis, t.length = length ∧ g.Builds run t ∧ t.text = w

/-- A production stands only for texts of trees whose last step follows it (`lastStep?`), if the
slots of all shorter lengths do so (`Yields`). -/
theorem exists_tree_of_mem_renderings (hpairs : g.WellPaired) (hbeyond : g.knownLimit < length)
    {p : Production} (hp : p ∈ g.rules length) (h : ∀ shorter < length, g.Yields basis shorter)
    (hrun : g.necessitation.allows run) (hw : w ∈ g.renderings run p) :
    ∃ t : ProofTree basis,
      t.length = length ∧ g.Builds run t ∧ t.text = w ∧ g.lastStep? t = some p := by
  rcases (mem_rules_iff hpairs hbeyond).mp hp with
    ⟨-, hlength, rfl⟩ | ⟨a, b, ha, hb, -, -, rfl, rfl⟩
  -- A necessitation makes the run before it longer.
  · rw [renderings, List.mem_ite_nil_right, List.mem_map] at hw
    obtain ⟨hallows, x, hx, rfl⟩ := hw
    obtain ⟨inner, hinnerLength, hinner, rfl⟩ := h _ (by omega) _ hallows x hx
    have hnecessitate : (ProofTree.necessitate inner).length = length := by
      rw [ProofTree.length]
      omega
    refine ⟨.necessitate inner, hnecessitate, ?_, inner.text_necessitate, ?_⟩
    · exact (builds_necessitate_iff (hnecessitate ▸ hbeyond)).mpr hinner
    · rw [lastStep?, hinnerLength]
  -- A detachment ends the run, so that both premises start a new one.
  · simp only [renderings, List.mem_flatMap, List.mem_map] at hw
    have hzero := g.necessitation.allows_zero
    obtain ⟨x, hx, y, hy, rfl⟩ := hw
    obtain ⟨major, rfl, hmajor, rfl⟩ := h _ (by omega) 0 hzero x hx
    obtain ⟨minor, rfl, hminor, rfl⟩ := h _ (by omega) 0 hzero y hy
    refine ⟨.detach major minor, rfl, ?_, major.text_detach minor, rfl⟩
    exact (builds_detach_iff hrun hbeyond).mpr ⟨hmajor, hminor⟩

/-- Every slot stands only for texts of trees that are built (`Yields`), by strong induction on the
length. -/
theorem yields (hpairs : g.WellPaired)
    (htable : g.table.Proper basis g.necessitation g.knownLimit) (length : Nat) :
    g.Yields basis length := by
  induction length using Nat.strongRecOn with
  | _ length ih =>
    intro run hrun w hw
    by_cases hle : length ≤ g.knownLimit
    · rw [slotFor_of_le hle, fillings_known, List.mem_ite_nil_right] at hw
      obtain ⟨t, rfl, rfl⟩ := htable.exists_tree length hle w (List.mem_filter.mp hw.2).1
      exact ⟨t, rfl, (builds_iff_of_le htable hle).mpr hw.2, rfl⟩
    · have hbeyond := Nat.not_le.mp hle
      rw [slotFor_of_lt hbeyond, fillings_longer, List.mem_flatMap] at hw
      obtain ⟨p, hp, hw⟩ := hw
      obtain ⟨t, htLength, hbuilds, htext, -⟩ :=
        exists_tree_of_mem_renderings hpairs hbeyond (mem_productions_iff.mp hp).1 ih hrun hw
      exact ⟨t, htLength, hbuilds, htext⟩

/-- The last step of a tree of a prepared length follows one of the `productions`: its slots count
as fillable. -/
theorem exists_production (hg : g.Prepared basis) {t : ProofTree basis}
    (hbeyond : g.knownLimit < t.length) (hlength : t.length ≤ g.maxLength)
    (hbuilds : g.Builds run t) : ∃ p ∈ g.productions t.length, g.lastStep? t = some p := by
  obtain ⟨p, hrule, hstep, hslots⟩ := exists_lastStep hg.paired hg.one_le hbeyond hbuilds
  refine ⟨p, mem_productions_iff.mpr ⟨hrule, fun slot hslot => ?_⟩, hstep⟩
  obtain ⟨part, run', hpart, hpartLength, rfl⟩ := hslots slot hslot
  exact hg.realizable part run' hpart (Nat.le_trans (Nat.le_of_lt hpartLength) hlength)

/-- A known tree that is built is among the `fillings` of its slot. -/
theorem mem_fillings_of_le (hg : g.Prepared basis) {t : ProofTree basis}
    (hle : t.length ≤ g.knownLimit) (hbuilds : g.Builds run t) :
    t.text ∈ g.fillings ⟨g.slotFor t.length, run⟩ := by
  rw [slotFor_of_le hle, fillings_known, if_pos (Nat.le_trans hle hg.le_longest)]
  exact (builds_iff_of_le hg.proper hle).mp hbuilds

/-- A tree of a prepared length that is built is among the `fillings` of its slot. The induction is
on the tree, whose last step `exists_production` finds. -/
theorem mem_fillings_of_builds (hg : g.Prepared basis) {t : ProofTree basis}
    (hlength : t.length ≤ g.maxLength) (hbuilds : g.Builds run t) :
    t.text ∈ g.fillings ⟨g.slotFor t.length, run⟩ := by
  induction t generalizing run with
  | leaf name => exact mem_fillings_of_le hg hg.one_le hbuilds
  | necessitate inner ih =>
    by_cases hle : (ProofTree.necessitate inner).length ≤ g.knownLimit
    · exact mem_fillings_of_le hg hle hbuilds
    · have hbeyond := Nat.not_le.mp hle
      -- The last step of the tree follows a production, whose slot the inner tree fills.
      obtain ⟨p, hp, hstep⟩ := exists_production hg hbeyond hlength hbuilds
      obtain rfl := Option.some.inj hstep
      have hinner := (builds_necessitate_iff hbeyond).mp hbuilds
      rw [slotFor_of_lt hbeyond, fillings_longer, List.mem_flatMap]
      refine ⟨_, hp, ?_⟩
      rw [renderings, if_pos (NecessitationLimit.allows_of_runsAllowed hinner.1)]
      exact List.mem_map.mpr ⟨inner.text,
        ih (Nat.le_trans (Nat.le_succ _) hlength) hinner, inner.text_necessitate.symm⟩
  | detach major minor ih₁ ih₂ =>
    by_cases hle : (ProofTree.detach major minor).length ≤ g.knownLimit
    · exact mem_fillings_of_le hg hle hbuilds
    · have hbeyond := Nat.not_le.mp hle
      -- As before, with two slots; both start a run of necessitations anew.
      obtain ⟨p, hp, hstep⟩ := exists_production hg hbeyond hlength hbuilds
      obtain rfl := Option.some.inj hstep
      have hrun := NecessitationLimit.allows_of_runsAllowed hbuilds.1
      obtain ⟨hmajor, hminor⟩ := (builds_detach_iff hrun hbeyond).mp hbuilds
      rw [slotFor_of_lt hbeyond, fillings_longer, List.mem_flatMap]
      refine ⟨_, hp, List.mem_flatMap.mpr ⟨major.text, ih₁ ?_ hmajor, ?_⟩⟩
      · rw [ProofTree.length] at hlength
        omega
      · refine List.mem_map.mpr ⟨minor.text, ih₂ ?_ hminor, (major.text_detach minor).symm⟩
        rw [ProofTree.length] at hlength
        omega

/-- A production stands for each of its texts once if its slots do: the parts of a code are
determined by the code, as no code of a tree is the first part of another. -/
theorem nodup_renderings (hg : g.Prepared basis) (hbeyond : g.knownLimit < length)
    (hlength : length ≤ g.maxLength) {p : Production} (hp : p ∈ g.rules length)
    (h : ∀ shorter < length, ∀ run, g.necessitation.allows run →
      (g.fillings ⟨g.slotFor shorter, run⟩).Nodup) :
    (g.renderings run p).Nodup := by
  rcases (mem_rules_iff hg.paired hbeyond).mp hp with
    ⟨-, htwo, rfl⟩ | ⟨a, b, ha, hb, -, -, rfl, rfl⟩
  · rw [renderings]
    split
    · next hallows =>
      exact (h _ (by omega) _ hallows).map fun x y hxy => (String.append_right_inj _).mp hxy
    · exact List.nodup_nil
  · have hzero := g.necessitation.allows_zero
    refine List.nodup_flatMap.mpr ⟨fun x _ => ?_, ?_⟩
    · refine (h _ (by omega) 0 hzero).map fun y z hyz => ?_
      exact (String.append_right_inj _).mp ((String.append_right_inj _).mp hyz)
    · -- The text of the major premise can be told from what follows it.
      refine (h a (by omega) 0 hzero).imp_of_mem ?_
      intro x x' hx hx' hne w hw hw'
      obtain ⟨y, hy, rfl⟩ := List.mem_map.mp hw
      obtain ⟨y', hy', heq⟩ := List.mem_map.mp hw'
      have hyields := yields hg.paired hg.proper a 0 hzero
      obtain ⟨t, -, -, rfl⟩ := hyields x hx
      obtain ⟨t', -, -, rfl⟩ := hyields x' hx'
      have hsymbols : t'.symbols ++ y'.toList = t.symbols ++ y.toList := by
        rw [← ProofTree.toList_text, ← ProofTree.toList_text, ← String.toList_append,
          ← String.toList_append, (String.append_right_inj _).mp heq]
      rw [(ProofTree.symbols_append_inj hsymbols).1] at hne
      exact hne rfl

/-- The slot of a prepared length stands for each of its texts once: different productions stand for
trees with different last steps (`lastStep?`). -/
theorem nodup_fillings (hg : g.Prepared basis) (hlength : length ≤ g.maxLength)
    (hrun : g.necessitation.allows run) : (g.fillings ⟨g.slotFor length, run⟩).Nodup := by
  induction length using Nat.strongRecOn generalizing run with
  | _ length ih =>
    by_cases hle : length ≤ g.knownLimit
    · rw [slotFor_of_le hle, fillings_known, if_pos (Nat.le_trans hle hg.le_longest)]
      exact (hg.proper.nodup length hle).filter _
    · have hbeyond := Nat.not_le.mp hle
      have hshorter : ∀ shorter < length, ∀ run, g.necessitation.allows run →
          (g.fillings ⟨g.slotFor shorter, run⟩).Nodup :=
        fun shorter hlt run => ih shorter hlt (Nat.le_trans (Nat.le_of_lt hlt) hlength)
      have hyields : ∀ shorter < length, g.Yields basis shorter :=
        fun shorter _ => yields hg.paired hg.proper shorter
      rw [slotFor_of_lt hbeyond, fillings_longer]
      refine List.nodup_flatMap.mpr ⟨fun p hp => ?_, ?_⟩
      · exact nodup_renderings hg hbeyond hlength (mem_productions_iff.mp hp).1 hshorter
      · -- A text is the code of one tree, whose last step follows one production.
        refine (nodup_productions hg.paired length).imp_of_mem ?_
        intro p p' hp hp' hne w hw hw'
        have hrule := (mem_productions_iff.mp hp).1
        have hrule' := (mem_productions_iff.mp hp').1
        obtain ⟨t, -, -, rfl, hstep⟩ :=
          exists_tree_of_mem_renderings hg.paired hbeyond hrule hyields hrun hw
        obtain ⟨t', -, -, htext, hstep'⟩ :=
          exists_tree_of_mem_renderings hg.paired hbeyond hrule' hyields hrun hw'
        rw [ProofTree.text_inj htext, hstep] at hstep'
        exact hne (Option.some.inj hstep')

/-- Without known proofs there is nothing to build from, so there are no `fillings`. By strong
induction on the length, as each production has a slot of a smaller one. -/
theorem fillings_eq_nil (hpairs : g.WellPaired) (hzero : g.knownLimit = 0)
    (hrow : g.table.row 0 = []) : g.fillings ⟨g.slotFor length, run⟩ = [] := by
  induction length using Nat.strongRecOn generalizing run with
  | _ length ih =>
    by_cases hle : length ≤ g.knownLimit
    · obtain rfl : length = 0 := by omega
      rw [slotFor_of_le hle, fillings_known, if_pos (by decide), fitting, hrow, List.filter_nil]
    · have hbeyond := Nat.not_le.mp hle
      rw [slotFor_of_lt hbeyond, fillings_longer, List.flatMap_eq_nil_iff]
      intro p hp
      rcases (mem_rules_iff hpairs hbeyond).mp (mem_productions_iff.mp hp).1 with
        ⟨-, htwo, rfl⟩ | ⟨a, b, ha, hb, -, -, rfl, rfl⟩
      · rw [renderings, ih _ (by omega), List.map_nil, ite_self]
      · rw [renderings, ih a (by omega), List.flatMap_nil]

/-! ## Requests -/

/-- All candidates are texts of trees that are built (`Builds 0`). -/
theorem exists_tree_of_mem_found (hpairs : g.WellPaired)
    (htable : g.table.Proper basis g.necessitation g.knownLimit) (hw : w ∈ g.found length) :
    ∃ t : ProofTree basis, t.length = length ∧ g.Builds 0 t ∧ t.text = w := by
  rw [found, List.mem_ite_nil_right] at hw
  exact yields hpairs htable length 0 (NecessitationLimit.allows_zero _) w hw.2

/-- The candidates of a prepared length are the texts of the trees that are built (`Builds 0`). -/
theorem mem_found_iff (hg : g.Prepared basis) (hlength : length ≤ g.maxLength) :
    w ∈ g.found length ↔
      ∃ t : ProofTree basis, t.length = length ∧ g.Builds 0 t ∧ t.text = w := by
  constructor
  · exact exists_tree_of_mem_found hg.paired hg.proper
  · rintro ⟨t, rfl, hbuilds, rfl⟩
    rw [found, if_pos (hg.realizable t 0 hbuilds hlength)]
    exact mem_fillings_of_builds hg hlength hbuilds

/-- No candidate is found twice, by `nodup_fillings`. -/
theorem nodup_found (hg : g.Prepared basis) (hlength : length ≤ g.maxLength) :
    (g.found length).Nodup := by
  rw [found]
  split
  · exact nodup_fillings hg hlength (NecessitationLimit.allows_zero _)
  · exact List.nodup_nil

/-- A request for one prepared length finds each code of this length whose largest known parts
(`maximalWithin`) are entries of the table and whose runs of necessitations are allowed, each once
and nothing else. A table that does not even cover the axioms gives no candidates. -/
theorem generate_language {table : Representatives} {knownLimit : Nat}
    {limit : NecessitationLimit} (htable : table.Proper basis limit knownLimit)
    (hlongest : knownLimit ≤ longestEntry) {maxLength length : Nat}
    (hlength : length ≤ max maxLength knownLimit) :
    ∃ emitted : List String,
      (∀ (β : Type) (note : β → String → β) (state : β),
        (prepare table knownLimit limit maxLength).generate false
            (fun state text => (note state text, false)) state [length] =
          ⟨emitted.foldl note state, .ok emitted.length⟩) ∧
      emitted.Nodup ∧
      ∀ w, w ∈ emitted ↔
        1 ≤ knownLimit ∧
          ∃ t : ProofTree basis, t.text = w ∧ t.length = length ∧
            (∀ n, List.replicate n Proof.necessitateSymbol <:+: w.toList → limit.allows n) ∧
            ∀ part ∈ t.maximalWithin knownLimit, part.text ∈ table.row part.length := by
  have hprepared : ∀ l ∈ [length], l ≤ (prepare table knownLimit limit maxLength).maxLength := by
    rw [prepare_maxLength]
    exact List.forall_mem_singleton.mpr hlength
  refine ⟨[length].flatMap (prepare table knownLimit limit maxLength).found,
    fun β note state => generate_eq _ note state hprepared, ?_⟩
  rw [List.flatMap_singleton]
  rw [List.forall_mem_singleton] at hprepared
  rcases Nat.eq_zero_or_pos knownLimit with hzero | hone
  · -- Every slot has to be filled with known proofs in the end, and there are none of length zero.
    have hrow : table.row 0 = [] := by
      refine List.eq_nil_iff_forall_not_mem.mpr fun proof hproof => ?_
      obtain ⟨t, -, ht⟩ := htable.exists_tree 0 (Nat.zero_le _) proof hproof
      exact absurd ht (Nat.ne_of_gt t.length_pos)
    rw [found, fillings_eq_nil (wellPaired_prepare _ _ _ _) (by rwa [prepare_knownLimit])
      (by rwa [prepare_table]), ite_self]
    refine ⟨List.nodup_nil, fun w => ?_⟩
    simp [hzero]
  · -- Both sides say which trees are built from the table; only the words for runs differ.
    have hg := prepared_prepare htable hone hlongest maxLength
    refine ⟨nodup_found hg hprepared, fun w => (mem_found_iff hg hprepared).trans ?_⟩
    simp only [Builds, prepare_necessitation, prepare_knownLimit, prepare_table,
      NecessitationLimit.runsAllowed_zero_iff]
    constructor
    · rintro ⟨t, ht, ⟨hruns, hparts⟩, rfl⟩
      exact ⟨hone, t, rfl, ht, by rwa [ProofTree.toList_text], hparts⟩
    · rintro ⟨-, t, rfl, ht, hruns, hparts⟩
      rw [ProofTree.toList_text] at hruns
      exact ⟨t, ht, ⟨hruns, hparts⟩, rfl⟩

/-- The axioms of the standard system give candidates of length four with at most one necessitation
in a row. -/
theorem generate_language_standard :
    (Representatives.ofBasis .standard).Proper .standard (.bounded 1) 1 ∧
      ∃ emitted : List String,
        (∀ (β : Type) (note : β → String → β) (state : β),
          (prepare (.ofBasis .standard) 1 (.bounded 1) 4).generate false
              (fun state text => (note state text, false)) state [4] =
            ⟨emitted.foldl note state, .ok emitted.length⟩) ∧
        emitted.Nodup ∧
        ∀ w, w ∈ emitted ↔
          1 ≤ 1 ∧
            ∃ t : ProofTree .standard, t.text = w ∧ t.length = 4 ∧
              (∀ n, List.replicate n Proof.necessitateSymbol <:+: w.toList →
                (NecessitationLimit.bounded 1).allows n) ∧
              ∀ part ∈ t.maximalWithin 1,
                part.text ∈ (Representatives.ofBasis .standard).row part.length :=
  have hproper := Representatives.proper_ofBasis .standard (.bounded 1) 1
  ⟨hproper, generate_language hproper (by decide) (by decide)⟩

/-- When no length is known, an axiom has no known part that could be missing in the table, and yet
it is no candidate. -/
theorem not_generate_language_zero :
    ¬∀ (basis : Basis) (table : Representatives) (knownLimit : Nat) (limit : NecessitationLimit)
      (maxLength length : Nat), table.Proper basis limit knownLimit → knownLimit ≤ longestEntry →
      length ≤ max maxLength knownLimit →
      ∀ w, w ∈ (prepare table knownLimit limit maxLength).candidates [length] ↔
        ∃ t : ProofTree basis, t.text = w ∧ t.length = length ∧
          (∀ n, List.replicate n Proof.necessitateSymbol <:+: w.toList → limit.allows n) ∧
          ∀ part ∈ t.maximalWithin knownLimit, part.text ∈ table.row part.length := by
  intro hclaim
  have hone := hclaim .standard (.ofBasis .standard) 0 .disabled 1 1
    (Representatives.proper_ofBasis _ _ _) (by decide) (by decide) "1"
  have hcandidates :
      (prepare (.ofBasis .standard) 0 .disabled 1).candidates [1] = [] := by decide +kernel
  rw [hcandidates] at hone
  refine List.not_mem_nil (hone.mpr ⟨.leaf ⟨'1', by decide⟩, rfl, rfl, ?_, ?_⟩)
  · rw [← NecessitationLimit.runsAllowed_zero_iff]
    exact (NecessitationLimit.runsAllowed_cons (by decide)).mpr ⟨rfl, rfl⟩
  · intro part hpart
    cases hpart

end Grammar

end Detachment
