import Mathlib.Data.List.Perm.Basic
import Detachment.Proofs.Offers
import Detachment.Proofs.QueueConservation
import Detachment.Proofs.Trials

/-! # Evaluation in any order

The workers of a round take candidates out of their queues whenever they can, so that a round has no
order of evaluation: a long candidate may be registered first, and a shorter one take its place
later. `Collection.tryCandidates` tries the candidates shortest first, which is one order of many.
Here any permutation of the candidates is shown to end in the same way, whoever displaces whom on
the way there.

* `Collection.Trial.Balanced` says that nothing is lost count of while candidates are tried, at the
  length of the proof that loses; `Collection.Trial.Balanced.foldl_attempt` keeps this in every
  order.
* `Collection.Trial.Alike` compares trials up to the order in which their numbers were noted, and
  `Collection.alike_tryInTurn` says that permuted candidates give trials that are alike.
* `Collection.Trial.Alike.finishRound_eq` says that a round then ends with the same report and the
  same collection. `Collection.alike_tryCandidates` applies this to any order of the candidates, and
  `Collection.alike_of_returned` to every course of the workers of a `WorkQueues.Pool`. -/

open scoped List

namespace Detachment

variable {basis : Basis}

/-! ## The registry -/

namespace Registry

variable {r : Registry} {proofs proofs' : List String}

/-- In a sound registry conclusions belong to their keys, as `Formula.polish` is injective. -/
theorem Sound.concludes (h : r.Sound basis) : r.Concludes (Function.invFun Formula.polish) := by
  intro key e he
  have hinjective : Function.Injective Formula.polish := fun _ _ => Formula.polish_inj
  rw [← (h key e he).1, Function.leftInverse_invFun hinjective]

/-- A `Sound` registry that considers proofs in turn (`consider`) ends up the same in every
order. -/
theorem Sound.foldl_consider_perm (h : r.Sound basis) (hperm : proofs ~ proofs') :
    proofs.foldl (consider basis) r = proofs'.foldl (consider basis) r := by
  have hkeeps := fun key => (r.keeps_self key).foldl_consider basis proofs
  have hkeeps' : ∀ key, (proofs'.foldl (consider basis) r).Keeps key fun proof =>
      (∃ e, r.get? key = some e ∧ e.proof = proof) ∨
        proof ∈ proofs ∧ Proof.HasKey basis key proof := fun key =>
    ((r.keeps_self key).foldl_consider basis proofs').congr fun p => by rw [hperm.mem_iff]
  have hconcludes := (foldl_consider h proofs).sound.concludes
  have hconcludes' := (foldl_consider h proofs').sound.concludes
  exact ext_get? fun key e =>
    ⟨hconcludes.get?_of_keeps hconcludes' (hkeeps key) (hkeeps' key),
      hconcludes'.get?_of_keeps hconcludes (hkeeps' key) (hkeeps key)⟩

end Registry

namespace Collection

namespace Trial

variable {r : Registry} {t t' : Trial} {known : Necessitations}

/-! ## Proofs accounted for -/

/-- Every proof that was registered before a trial (`r`) or tried in it is registered, has lost, or
is none: `invalid ++ lost ++ registry.proofLengths` is `tried ++ r.proofLengths` up to order. A
proof is noted at its own length, also when it loses. -/
def Balanced (r : Registry) (t : Trial) : Prop :=
  t.invalid ++ (t.lost ++ t.registry.proofLengths) ~ t.tried ++ r.proofLengths

/-- Nothing was tried before a trial. -/
theorem balanced_start (r : Registry) : (Trial.start r).Balanced r :=
  .refl _

/-- Registering a proof notes the length of the proof that loses, `Outcome.lost`: its own one, or
that of the proof that it displaces. -/
theorem register_eq (t : Trial) (proof : String) (conclusion : Formula) :
    t.register proof conclusion =
      { t with
        registry := (t.registry.insert conclusion.polish proof conclusion).2
        lost := (t.registry.insert conclusion.polish proof conclusion).1.lost proof ++ t.lost } := by
  rw [register]
  rcases t.registry.insert conclusion.polish proof conclusion with ⟨_ | _ | _, registry⟩ <;> rfl

/-- A proof that is registered or loses is accounted for (`Registry.lost_insert_perm`). The lengths
are moved to the front of the list one group after the other. -/
theorem Balanced.register (h : t.Balanced r) (proof : String) (conclusion : Formula) :
    (({ t with tried := Proof.length proof :: t.tried } : Trial).register proof
      conclusion).Balanced r := by
  rw [Trial.register_eq, Balanced]
  dsimp only
  let lost := (t.registry.insert conclusion.polish proof conclusion).1.lost proof
  let after := (t.registry.insert conclusion.polish proof conclusion).2.proofLengths
  have hinsert : lost ++ after ~ Proof.length proof :: t.registry.proofLengths :=
    Registry.lost_insert_perm t.registry conclusion.polish proof conclusion
  calc t.invalid ++ (lost ++ t.lost ++ after)
      ~ t.invalid ++ (t.lost ++ (lost ++ after)) := by
        rw [List.append_assoc]
        exact (List.perm_append_comm_assoc _ _ _).append_left _
    _ ~ t.invalid ++ (t.lost ++ Proof.length proof :: t.registry.proofLengths) :=
        (hinsert.append_left _).append_left _
    _ ~ Proof.length proof :: (t.invalid ++ (t.lost ++ t.registry.proofLengths)) :=
        (List.perm_middle.append_left _).trans List.perm_middle
    _ ~ Proof.length proof :: (t.tried ++ r.proofLengths) := h.cons _

/-- The step lemma: a candidate is accounted for, whatever becomes of it (`attempt`). -/
theorem Balanced.attempt (h : t.Balanced r) (basis : Basis) (known : Necessitations) (proof : String) :
    (t.attempt basis known proof).Balanced r := by
  rw [Trial.attempt]
  split
  · exact h.register proof _
  · split
    · exact h.register proof _
    · exact List.Perm.cons _ h

/-- The run lemma: candidates in turn are accounted for, in whatever order they come. -/
theorem Balanced.foldl_attempt (h : t.Balanced r) (basis : Basis) (known : Necessitations)
    (proofs : List String) : (proofs.foldl (Trial.attempt basis known) t).Balanced r := by
  induction proofs generalizing t with
  | nil => exact h
  | cons proof proofs ih => exact ih (h.attempt basis known proof)

/-! ## What is noted of each candidate -/

/-- Every candidate that is tried is noted. -/
theorem tried_attempt (basis : Basis) (known : Necessitations) (t : Trial) (proof : String) :
    (t.attempt basis known proof).tried = Proof.length proof :: t.tried := by
  rw [attempt]
  split
  · rw [register_eq]
  · split
    · rw [register_eq]
    · rfl

/-- A trial notes the lengths of all candidates as `tried`, the last one first. -/
theorem tried_foldl_attempt (basis : Basis) (known : Necessitations) (t : Trial)
    (proofs : List String) :
    (proofs.foldl (Trial.attempt basis known) t).tried =
      (proofs.map Proof.length).reverse ++ t.tried := by
  induction proofs generalizing t with
  | nil => rfl
  | cons proof proofs ih =>
    rw [List.foldl_cons, ih, tried_attempt, List.map_cons, List.reverse_cons, List.append_assoc]
    rfl

/-- A candidate is noted as invalid exactly if reading it fails, whether or not its conclusion could
be looked up in the index `known`. -/
theorem invalid_attempt (hknown : known.Agrees basis) (t : Trial) (proof : String) :
    (t.attempt basis known proof).invalid =
      if (Proof.conclusion basis proof).isOk then t.invalid else Proof.length proof :: t.invalid := by
  have hregister : ∀ (t : Trial) (c : Formula), (t.register proof c).invalid = t.invalid := by
    intro t c
    rw [register_eq]
  rw [attempt]
  cases hshort : known.conclusion? proof with
  | some c =>
    rw [hknown proof c hshort]
    exact hregister _ c
  | none =>
    cases Proof.conclusion basis proof with
    | ok c => exact hregister _ c
    | error fault => rfl

/-- A trial notes the lengths of the candidates that cannot be read as `invalid`. -/
theorem invalid_foldl_attempt (hknown : known.Agrees basis) (t : Trial) (proofs : List String) :
    (proofs.foldl (Trial.attempt basis known) t).invalid =
      ((proofs.filter fun proof => !(Proof.conclusion basis proof).isOk).map Proof.length).reverse ++
        t.invalid := by
  induction proofs generalizing t with
  | nil => rfl
  | cons proof proofs ih =>
    rw [List.foldl_cons, ih, invalid_attempt hknown, List.filter_cons]
    cases (Proof.conclusion basis proof).isOk with
    | true => rfl
    | false => simp

/-! ## Trials up to order -/

/-- Trials that end with the same registry and note the same numbers, in whatever order. -/
structure Alike (t t' : Trial) : Prop where
  /-- The registries are the same. -/
  registry : t.registry = t'.registry
  /-- Candidates of the same lengths were tried. -/
  tried : t.tried ~ t'.tried
  /-- Candidates of the same lengths prove nothing. -/
  invalid : t.invalid ~ t'.invalid
  /-- Proofs of the same lengths have lost. -/
  lost : t.lost ~ t'.lost

/-- If the other numbers of two `Balanced` trials are the same, then so are those of the proofs that
have `lost`. -/
theorem Balanced.lost_perm (h : t.Balanced r) (h' : t'.Balanced r)
    (hregistry : t.registry = t'.registry) (htried : t.tried ~ t'.tried)
    (hinvalid : t.invalid ~ t'.invalid) : t.lost ~ t'.lost := by
  have hall : t.invalid ++ (t.lost ++ t.registry.proofLengths) ~
      t.invalid ++ (t'.lost ++ t.registry.proofLengths) :=
    calc t.invalid ++ (t.lost ++ t.registry.proofLengths)
        ~ t.tried ++ r.proofLengths := h
      _ ~ t'.tried ++ r.proofLengths := htried.append_right _
      _ ~ t'.invalid ++ (t'.lost ++ t'.registry.proofLengths) := h'.symm
      _ ~ t.invalid ++ (t'.lost ++ t.registry.proofLengths) := by
          rw [hregistry]
          exact hinvalid.symm.append_right _
  exact (List.perm_append_right_iff _).mp ((List.perm_append_left_iff _).mp hall)

/-- The end of a round (`finishRound`) depends on a trial up to order only. -/
theorem Alike.finishRound_eq (h : t.Alike t') (c : Collection) (g : Grammar) (lengths : List Nat) :
    c.finishRound g lengths t = c.finishRound g lengths t' := by
  simp only [finishRound, h.registry, h.tried.count_eq, h.invalid.count_eq, h.lost.count_eq]

end Trial

/-! ## Rounds in any order -/

variable {c : Collection} {lengths : List Nat} {g : Grammar} {order order' : List String}

/-- Order of candidates: permuted candidates give trials that are `Alike`, with the same registry
and the same lengths of candidates that were tried, that prove nothing and that have lost. -/
theorem alike_tryInTurn (hsound : c.registry.Sound c.basis) (hperm : order ~ order') :
    (c.tryInTurn order).Alike (c.tryInTurn order') := by
  have hknown := agrees_necessitations hsound
  have hbalanced := fun order =>
    (Trial.balanced_start c.registry).foldl_attempt c.basis c.necessitations order
  have hreverse : ∀ {xs ys : List Nat}, xs ~ ys → xs.reverse ~ ys.reverse := fun h =>
    (List.reverse_perm _).trans (h.trans (List.reverse_perm _).symm)
  have hregistry : (c.tryInTurn order).registry = (c.tryInTurn order').registry := by
    rw [registry_tryInTurn hsound, registry_tryInTurn hsound, hsound.foldl_consider_perm hperm]
  have htried : (c.tryInTurn order).tried ~ (c.tryInTurn order').tried := by
    rw [tryInTurn, tryInTurn, Trial.tried_foldl_attempt, Trial.tried_foldl_attempt]
    exact (hreverse (hperm.map _)).append_right _
  have hinvalid : (c.tryInTurn order).invalid ~ (c.tryInTurn order').invalid := by
    rw [tryInTurn, tryInTurn, Trial.invalid_foldl_attempt hknown, Trial.invalid_foldl_attempt hknown]
    exact (hreverse ((hperm.filter _).map _)).append_right _
  exact ⟨hregistry, htried, hinvalid,
    (hbalanced order).lost_perm (hbalanced order') hregistry htried hinvalid⟩

/-- A trial of the candidates of prepared lengths in any order is like `tryCandidates`, which takes
the shortest ones first. -/
theorem alike_tryCandidates (hsound : c.registry.Sound c.basis)
    (hprepared : ∀ length ∈ lengths, length ≤ g.maxLength) (hperm : order ~ g.candidates lengths) :
    (c.tryInTurn order).Alike (c.tryCandidates g lengths) := by
  rw [tryCandidates_eq hprepared, ← Grammar.candidates_eq g hprepared]
  exact alike_tryInTurn hsound hperm

/-- The evaluation of a candidate by a worker, which cannot fail. -/
def evaluate (c : Collection) (t : Trial) (proof : String) : Except Empty Trial :=
  .ok (t.attempt c.basis c.necessitations proof)

/-- Workers that `evaluate` candidates one after the other try them in this order. -/
theorem foldlM_evaluate (c : Collection) (t : Trial) (order : List String) :
    order.foldlM c.evaluate t = .ok (order.foldl (Trial.attempt c.basis c.necessitations) t) := by
  induction order generalizing t with
  | nil => rfl
  | cons proof order ih => exact ih _

/-- Rounds by workers: once all workers of a pool that was given the candidates have returned, they
have tried the candidates in some order (`WorkQueues.Pool.evaluated`), whatever the steps of the
producer, the balancer and the workers were; so the trial is `Alike` `tryCandidates`. -/
theorem alike_of_returned {workers capacity : Nat} {steps : List WorkQueues.Step}
    {p : WorkQueues.Pool String Trial} (hsound : c.registry.Sound c.basis)
    (hprepared : ∀ length ∈ lengths, length ≤ g.maxLength)
    (hcourse : (WorkQueues.Pool.start workers capacity (g.candidates lengths)
      (.start c.registry)).follow? c.evaluate steps = some p)
    (hreturned : ∀ stage ∈ p.workers, stage = .returned) :
    p.run.state.Alike (c.tryCandidates g lengths) := by
  have hpool := WorkQueues.Pool.sound_follow? hcourse
  have hstate : c.tryInTurn p.evaluated = p.run.state := by
    have hkept := hpool.kept
    rw [foldlM_evaluate] at hkept
    exact Except.ok.inj hkept
  rw [← hstate]
  exact alike_tryCandidates hsound hprepared (hpool.evaluated_perm hreturned).2.2

end Collection

end Detachment
