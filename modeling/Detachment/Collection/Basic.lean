import Detachment.Candidates.Count
import Detachment.Candidates.Search
import Detachment.Collection.Necessitations
import Detachment.Collection.Report
import Detachment.SchemaIndex
import Detachment.Storage.Error

/-! # Collections

A collection holds the representatives found so far and grows round by round. A round tries every
candidate of some lengths, keeps the best proof of each new conclusion, removes the conclusions that
are instances of others, and publishes the proofs that are left.

* `Collection.start` knows the axioms.
* `Collection.collectRound` is one round.
* `Collection.collectUpTo` runs rounds up to a length, one length at a time or all at once. -/

namespace Detachment

/-- The proofs collected so far. The `table` is what candidates are built from, and the `registry`
what they have to beat. -/
structure Collection where
  /-- The axioms. -/
  basis : Basis
  /-- The settings. -/
  settings : Settings
  /-- The representatives by length. -/
  table : Representatives
  /-- The conclusions with their best proofs. -/
  registry : Registry
  /-- The reports of the rounds so far. -/
  history : List RoundReport

namespace Collection

/-- Why proofs could not be collected or read again. -/
inductive Error where
  /-- The request was cancelled. -/
  | cancelled
  /-- Stored results could not be used. -/
  | store (e : StoreError)
  /-- The lengths asked for do not continue the lengths collected so far. -/
  | invalidLengths (lengths : List Nat) (knownLimit : Nat)
  /-- A stored proof does not prove what it should. -/
  | corruptProof (proof reason : String)
  deriving DecidableEq, Repr

/-- The wording of an `Error`. -/
def Error.message : Error → String
  | cancelled => "cancelled"
  | store e => e.message
  | invalidLengths lengths knownLimit =>
    let shown := lengthsText lengths
    s!"cannot collect lengths {shown} with proofs known up to length {knownLimit}"
  | corruptProof proof reason => s!"stored proof {proof}: {reason}"

/-! ## Trying candidates -/

/-- What trying candidates did: the registry, and the lengths of the candidates by their fate.
`Trial.attempt` tries one. -/
structure Trial where
  /-- The conclusions with their best proofs. -/
  registry : Registry
  /-- The lengths of all candidates. -/
  tried : List Nat
  /-- The lengths of the candidates that prove nothing. -/
  invalid : List Nat
  /-- The lengths of the proofs that lost to a better one. -/
  lost : List Nat

/-- The state before the first candidate, with the registry `r`. -/
def Trial.start (r : Registry) : Trial := ⟨r, [], [], []⟩

/-- Offer a proof of a conclusion to the registry (`Registry.insert`). The proof that loses, this
one or the one it replaces, is noted in `lost` with its own length. -/
def Trial.register (t : Trial) (proof : String) (conclusion : Formula) : Trial :=
  match t.registry.insert conclusion.polish proof conclusion with
  | (.inserted, registry) => { t with registry }
  | (.replaced displaced, registry) => { t with registry, lost := displaced :: t.lost }
  | (.redundant, registry) => { t with registry, lost := Proof.length proof :: t.lost }

/-- Try a candidate: look up its conclusion in the index `known` or read it (`Proof.conclusion`),
and `register` it. -/
def Trial.attempt (basis : Basis) (known : Necessitations) (t : Trial) (proof : String) : Trial :=
  let t := { t with tried := Proof.length proof :: t.tried }
  match known.conclusion? proof with
  | some conclusion => t.register proof conclusion
  | none =>
    match Proof.conclusion basis proof with
    | .ok conclusion => t.register proof conclusion
    | .error _ => { t with invalid := Proof.length proof :: t.invalid }

/-! ## The state -/

/-- The proofs of some entries, without keys and conclusions. -/
def proofsOf (entries : List (String × Entry)) : List String :=
  entries.map (·.2.proof)

/-- The collection that knows the axioms; axioms that repeat an earlier one represent nothing. The
axioms are tried like candidates (`Trial.attempt`). -/
def start (basis : Basis) (settings : Settings) : Collection :=
  let trial := basis.proofs.foldl (Trial.attempt basis .empty) (.start .empty)
  let first := proofsOf (trial.registry.withLengths [1])
  { basis
    settings
    table := (Representatives.ofBasis basis).publish 1 first
    registry := trial.registry
    history := [⟨[{
      length := 1
      iterations := trial.tried.length
      expected := none
      invalid := trial.invalid.length
      redundant := trial.lost.length
      removals := 0
      representatives := trial.tried.length - trial.invalid.length - trial.lost.length
      unfiltered := false }]⟩] }

/-- The largest length with published representatives, that of the `table`. -/
def knownLimit (c : Collection) : Nat :=
  c.table.knownLimit

/-- The registered proofs of a length with their conclusions, in the order of
`Registry.withLengths`. -/
def representatives (c : Collection) (length : Nat) : List (String × Formula) :=
  (c.registry.withLengths [length]).map fun e => (e.2.proof, e.2.conclusion)

/-- All registered conclusions, ready to look for more general ones (`SchemaIndex.find?`). -/
def schemaIndex (c : Collection) : SchemaIndex :=
  .buildParts (c.registry.toList.map fun e => ⟨e.1, Proof.length e.2.proof, e.2.conclusion⟩)
    c.settings.workers

/-- The grammar of the candidates up to a length, prepared from the `table`. -/
def grammar (c : Collection) (maxLength : Nat) : Grammar :=
  .prepare c.table c.knownLimit c.settings.necessitation maxLength

/-! ## Rounds -/

/-- Whether each number is smaller than the next, as `validLengths` asks of lengths. -/
def increasing : List Nat → Bool
  | a :: b :: rest => a < b && increasing (b :: rest)
  | _ => true

/-- Whether lengths continue the lengths collected so far: they increase, lie beyond the known limit
and keep the distance that proofs have (`NecessitationLimit.step`). -/
def validLengths (c : Collection) (lengths : List Nat) : Bool :=
  !lengths.isEmpty && increasing lengths &&
    lengths.all fun l =>
      c.knownLimit < l && (l - c.knownLimit) % c.settings.necessitation.step == 0

/-- The index of necessitations that a round starts with: `Necessitations.build` on what is
registered, or `Necessitations.empty` where the settings allow no necessitation. -/
def necessitations (c : Collection) : Necessitations :=
  if c.settings.necessitation.isEnabled then .build c.registry c.knownLimit else .empty

/-- Try every candidate of some lengths, in the order in which `Grammar.generate` gives them. -/
def tryCandidates (c : Collection) (g : Grammar) (lengths : List Nat) : Trial :=
  let known := c.necessitations
  (g.generate false (fun t proof => (t.attempt c.basis known proof, false)) (.start c.registry)
    lengths).state

/-- The entries of some lengths that are instances of other registered conclusions:
`SchemaIndex.find?` finds one for them. -/
def instances (c : Collection) (lengths : List Nat) : List (String × Entry) :=
  if lengths.isEmpty then []
  else
    let index := c.schemaIndex
    (c.registry.withLengths lengths).filter fun e =>
      (index.find? e.2.conclusion (Proof.length e.2.proof) e.1).isSome

/-- Publish the registered proofs of some lengths, length by length (`Representatives.publish`). -/
def publishAll (c : Collection) (lengths : List Nat) : Collection :=
  { c with
    table := lengths.foldl (fun t l => t.publish l (proofsOf (c.registry.withLengths [l]))) c.table }

/-- End a round whose candidates were tried: remove the instances of other conclusions where the
filter applies, report the numbers of each length, and publish the proofs that are left. -/
def finishRound (c : Collection) (g : Grammar) (lengths : List Nat) (trial : Trial) :
    RoundReport × Collection :=
  let tallies := g.tallies
  let tried : Collection := { c with registry := trial.registry }
  let filtered := lengths.filter c.settings.filter.appliesTo
  let removed := tried.instances filtered
  let removedLengths := removed.map fun e => Proof.length e.2.proof
  let kept : Collection := { tried with registry := tried.registry.eraseAll (removed.map (·.1)) }
  let report : RoundReport := ⟨lengths.map fun length => {
    length
    iterations := trial.tried.count length
    expected := g.count tallies length
    invalid := trial.invalid.count length
    redundant := trial.lost.count length
    removals := removedLengths.count length
    representatives := (kept.registry.withLengths [length]).length
    unfiltered := !filtered.contains length }⟩
  (report, { kept.publishAll lengths with history := c.history ++ [report] })

/-- Try every candidate of some lengths (`tryCandidates`), which keeps the best proof of each new
conclusion, and end the round with what came of it (`finishRound`). -/
def round (c : Collection) (lengths : List Nat) : RoundReport × Collection :=
  let g := c.grammar (lengths.getLastD 0)
  c.finishRound g lengths (c.tryCandidates g lengths)

/-- Run one `round`, if the lengths continue the collection (`validLengths`) and it is not
cancelled. -/
def collectRound (c : Collection) (lengths : List Nat) (cancelled : Bool) :
    Except Error (RoundReport × Collection) :=
  if !c.validLengths lengths then .error (.invalidLengths lengths c.knownLimit)
  else if cancelled then .error .cancelled
  else .ok (c.round lengths)

/-! ## Several rounds -/

/-- How to reach a length; `Strategy.rounds` makes rounds of it. -/
inductive Strategy where
  /-- One round for each length, which builds on all shorter ones. -/
  | stepwise
  /-- One round for all lengths, which builds on what is known before it. -/
  | combined
  deriving DecidableEq, Repr

/-- The lengths that proofs can have beyond the known limit, up to a `target`. -/
def nextLengths (c : Collection) (target : Nat) : List Nat :=
  (List.range' (c.knownLimit + 1) (target - c.knownLimit)).filter fun l =>
    (l - c.knownLimit) % c.settings.necessitation.step == 0

/-- The rounds that a strategy makes of some lengths; each is a list of lengths for
`collectRound`. -/
def Strategy.rounds : Strategy → List Nat → List (List Nat)
  | stepwise, lengths => lengths.map ([·])
  | combined, lengths => if lengths.isEmpty then [] else [lengths]

/-- What several rounds led to: the result of `runRounds`. -/
structure Progress (β : Type) where
  /-- The collection after the rounds that were completed. -/
  collection : Collection
  /-- What the observer made of them. -/
  state : β
  /-- Their reports, or why there are not more of them. -/
  outcome : Except Error (List RoundReport)

variable {β : Type}

/-- Run rounds in turn (`collectRound`); after each `observe` is told and may stop them. -/
def runRounds (observe : β → Collection → RoundReport → Except Error Unit × β) (cancelled : Bool) :
    Collection → β → List RoundReport → List (List Nat) → Progress β
  | c, state, done, [] => ⟨c, state, .ok done⟩
  | c, state, done, lengths :: rest =>
    if cancelled then ⟨c, state, .error .cancelled⟩
    else
      match c.collectRound lengths cancelled with
      | .error e => ⟨c, state, .error e⟩
      | .ok (report, c) =>
        match observe state c report with
        | (.error e, state) => ⟨c, state, .error e⟩
        | (.ok (), state) => runRounds observe cancelled c state (done ++ [report]) rest

/-- Collect all lengths up to a `target` (`nextLengths`); after each round the observer may stop. -/
def collectUpTo (c : Collection) (target : Nat) (strategy : Strategy) (cancelled : Bool)
    (observe : β → Collection → RoundReport → Except Error Unit × β) (state : β) : Progress β :=
  runRounds observe cancelled c state [] (strategy.rounds (c.nextLengths target))

end Collection

end Detachment
