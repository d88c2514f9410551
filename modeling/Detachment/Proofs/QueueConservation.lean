import Detachment.Proofs.QueueRuns

/-! # Conservation of items

Whatever the order of the steps of a pool, no item is lost and none is evaluated twice.

* `Working.Knows` says what a worker may rely on, because nothing is pushed once the balancer is
  done.
* `Pool.Sound` is the invariant, and `Pool.sound_follow?` says that every course keeps it.
* `Pool.items_conserved` is the main result. -/

open scoped List

namespace Detachment.WorkQueues

variable {α β ε : Type}

/-- The balancer acts on workers that exist, numbers below `workers`. -/
def Balancing.Within (workers : Nat) : Balancing α → Prop
  | measuring depths => depths.length ≤ workers
  | handing source _ targets _ _ => source < workers ∧ ∀ target ∈ targets, target < workers
  | returning source _ => source < workers
  | _ => True

namespace Working

variable {q q' : WorkQueues α} {done : Bool} {stage : Working}

/-- What a worker may rely on in its stage: before the balancer is done nothing, and then that the
queues it has inspected are empty. -/
def Knows (done : Bool) (q : WorkQueues α) : Working → Prop
  | popping => True
  | hungry => True
  | stealing _ => done = true
  | inspecting next => done = true ∧ ∀ worker < next, q.queue worker = []
  | returned => done = true ∧ ∀ worker < q.workers, q.queue worker = []

/-- Before the balancer is done, a worker relies on nothing, so anything may change. -/
theorem Knows.of_not_done (h : stage.Knows false q) (done : Bool) (q' : WorkQueues α) :
    stage.Knows done q' := by
  cases stage with
  | popping => trivial
  | hungry => trivial
  | stealing _ => cases h
  | inspecting _ => cases h.1
  | returned => cases h.1

/-- A queue that was seen to be empty stays empty when an item is taken (`Removed`). -/
theorem Knows.removed {item : α} (h : stage.Knows done q) (hremoved : q.Removed item q') :
    stage.Knows done q' := by
  cases stage with
  | popping => trivial
  | hungry => trivial
  | stealing _ => exact h
  | inspecting next => exact ⟨h.1, fun worker hworker => hremoved.queue_eq_nil (h.2 worker hworker)⟩
  | returned =>
    refine ⟨h.1, fun worker hworker => hremoved.queue_eq_nil (h.2 worker ?_)⟩
    rwa [← hremoved.workers_eq]

end Working

namespace Pool

/-- What every step of a pool keeps. -/
structure Sound (evaluation : β → α → Except ε β) (items : List α) (state : β) (p : Pool α β) :
    Prop where
  -- What was counted and evaluated.
  pushed : p.pushed ++ p.pending = items
  produced : p.run.produced = p.pushed.length
  evaluated : p.run.evaluated = p.evaluated.length
  kept : p.evaluated.foldlM evaluation state = .ok p.run.state
  -- Where the items are.
  conserved : p.run.queues.items ++ p.balancer.hand ++ p.evaluated ~ p.pushed
  -- What the balancer and the workers act on.
  pos : 0 < p.workers.length
  workers : p.workers.length = p.run.queues.workers
  within : p.balancer.Within p.run.queues.workers
  -- The balancer leaves only after production, and workers steal only after that.
  production : p.productionDone = true → p.pending = []
  leaves : p.balancer = .leaving ∨ p.balancer = .done → p.productionDone = true
  done : p.balancerDone = true → p.balancer = .done
  knows : ∀ stage ∈ p.workers, stage.Knows p.balancerDone p.run.queues

variable {evaluation : β → α → Except ε β} {items : List α} {state : β} {p p' : Pool α β}
  {worker : Nat} {item : α} {queues : WorkQueues α}

/-- The balancer is done only after production. -/
theorem Sound.productionDone (h : p.Sound evaluation items state) (hdone : p.balancerDone = true) :
    p.productionDone = true :=
  h.leaves (.inr (h.done hdone))

/-- A balancer that still acts has not said that it is done. -/
theorem Sound.balancerDone_eq_false (h : p.Sound evaluation items state) (hne : p.balancer ≠ .done) :
    p.balancerDone = false :=
  Bool.eq_false_iff.mpr fun htrue => hne (h.done htrue)

/-- As long as the balancer is not done, the workers do not rely on what is in the queues
(`Knows`). -/
theorem Sound.knows_of_not_done (h : p.Sound evaluation items state) (hdone : p.balancerDone = false)
    {stage : Working} (hstage : stage ∈ p.workers) (done : Bool) (q : WorkQueues α) :
    stage.Knows done q := by
  have hknows := h.knows stage hstage
  rw [hdone] at hknows
  exact hknows.of_not_done done q

/-! ## The workers -/

/-- A worker goes on to a stage in which it may rely on what is so (`Knows`). -/
theorem Sound.turnTo (h : p.Sound evaluation items state) {stage : Working}
    (hknows : stage.Knows p.balancerDone p.run.queues) :
    (p.turnTo worker stage).Sound evaluation items state :=
  { h with
    pos := List.length_set.symm ▸ h.pos
    workers := List.length_set.trans h.workers
    knows := fun other hother => by
      rcases List.mem_or_eq_of_mem_set hother with hother | rfl
      · exact h.knows other hother
      · exact hknows }

/-- A worker evaluates an item that it took out of a queue (`Removed`): the item goes from the
queues to those that were evaluated. -/
theorem Sound.evaluate (h : p.Sound evaluation items state)
    (hremoved : p.run.queues.Removed item queues)
    (hp : p.evaluate? evaluation worker item queues = some p') :
    p'.Sound evaluation items state := by
  obtain ⟨next, hnext, rfl⟩ := evaluate?_eq_some hp
  have hturned : (p.turnTo worker .popping).Sound evaluation items state := h.turnTo trivial
  constructor
  case pushed => exact h.pushed
  case produced => exact h.produced
  case evaluated => simp [h.evaluated]
  case kept =>
    simp only [List.foldlM_append, h.kept, List.foldlM_cons, List.foldlM_nil, bind_pure]
    exact hnext
  case conserved =>
    -- The item leaves the queues and joins those that were evaluated.
    calc queues.items ++ p.balancer.hand ++ (p.evaluated ++ [item])
        ~ item :: queues.items ++ p.balancer.hand ++ p.evaluated := by
          rw [← List.append_assoc]
          exact List.perm_append_singleton item _
      _ ~ p.run.queues.items ++ p.balancer.hand ++ p.evaluated :=
          (hremoved.items_perm_cons.symm.append_right _).append_right _
      _ ~ p.pushed := h.conserved
  case pos => exact hturned.pos
  case workers => exact hturned.workers.trans hremoved.workers_eq.symm
  case within =>
    show p.balancer.Within queues.workers
    exact hremoved.workers_eq ▸ h.within
  case production => exact h.production
  case leaves => exact h.leaves
  case done => exact h.done
  case knows => exact fun stage hstage => (hturned.knows stage hstage).removed hremoved

/-- A worker goes on (`work?`), with one case for each of its stages. -/
theorem Sound.work (h : p.Sound evaluation items state)
    (hp : p.work? evaluation worker = some p') : p'.Sound evaluation items state := by
  -- One case for each stage of the worker. What a worker knows of the queues is carried by `knows`.
  unfold work? at hp
  split at hp
  · split at hp
    · next hpop => exact h.evaluate (removed_of_pop? hpop) hp
    · obtain rfl := Option.some.inj hp
      exact h.turnTo trivial
  · obtain rfl := Option.some.inj hp
    refine h.turnTo ?_
    split
    · next hdone => exact hdone
    · trivial
  · next hstage =>
    split at hp
    · next hpop => exact h.evaluate (removed_of_popLast? hpop) hp
    · obtain rfl := Option.some.inj hp
      have hdone : p.balancerDone = true := h.knows _ (List.mem_of_getElem? hstage)
      exact h.turnTo hdone
  · next hstage =>
    obtain rfl := Option.some.inj hp
    have hdone : p.balancerDone = true := h.knows _ (List.mem_of_getElem? hstage)
    exact h.turnTo ⟨hdone, fun worker hworker => absurd hworker (Nat.not_lt_zero worker)⟩
  · next next hstage =>
    obtain rfl := Option.some.inj hp
    obtain ⟨hdone, hempty⟩ : p.balancerDone = true ∧ ∀ worker < next, p.run.queues.queue worker = [] :=
      h.knows _ (List.mem_of_getElem? hstage)
    refine h.turnTo ?_
    split
    · next hle => exact ⟨hdone, fun worker hworker => hempty worker (Nat.lt_of_lt_of_le hworker hle)⟩
    · split
      · next hnil =>
        -- One more queue was found empty, and nothing is put into it any more.
        refine ⟨hdone, fun worker hworker => ?_⟩
        rcases Nat.lt_succ_iff_lt_or_eq.mp hworker with hlt | rfl
        · exact hempty worker hlt
        · exact List.isEmpty_iff.mp hnil
      · trivial
  · cases hp
  · cases hp

/-! ## The producer -/

/-- The producer pushes an item (`push?`), which no worker can miss, as the balancer is not done. -/
theorem Sound.push (h : p.Sound evaluation items state) (hp : p.push? worker = some p') :
    p'.Sound evaluation items state := by
  unfold push? at hp
  split at hp
  · cases hp
  · next item pending hpending =>
    split at hp
    · cases hp
    · next hworker =>
      split at hp
      · obtain rfl := Option.some.inj hp
        exact h
      · next queues hpush =>
        obtain rfl := Option.some.inj hp
        obtain ⟨-, rfl⟩ := append_of_push? hpush
        -- There was an item to push, so production has not ended and no worker relies on anything.
        have hproducing : p.productionDone = true → False := by
          intro hdone
          rw [h.production hdone] at hpending
          cases hpending
        have hbalancing : p.balancerDone = false :=
          Bool.eq_false_iff.mpr fun hdone => hproducing (h.productionDone hdone)
        have hitems := items_append (Nat.lt_of_not_le hworker) item
        constructor
        case pushed => simp [← h.pushed, hpending]
        case produced => simp [h.produced]
        case evaluated => exact h.evaluated
        case kept => exact h.kept
        case conserved =>
          calc (p.run.queues.append worker item).items ++ p.balancer.hand ++ p.evaluated
              ~ item :: p.run.queues.items ++ p.balancer.hand ++ p.evaluated :=
                (hitems.append_right _).append_right _
            _ ~ item :: p.pushed := h.conserved.cons item
            _ ~ p.pushed ++ [item] := (List.perm_append_singleton item p.pushed).symm
        case pos => exact h.pos
        case workers => exact h.workers.trans (workers_set ..).symm
        case within =>
          show p.balancer.Within (p.run.queues.append worker item).workers
          exact (workers_set ..).symm ▸ h.within
        case production => exact fun hdone => (hproducing hdone).elim
        case leaves => exact h.leaves
        case done => exact h.done
        case knows => exact fun stage hstage => h.knows_of_not_done hbalancing hstage _ _

/-- The producer returns (`endProduction?`), with nothing pending. -/
theorem Sound.endProduction (h : p.Sound evaluation items state)
    (hp : p.endProduction? = some p') : p'.Sound evaluation items state := by
  unfold endProduction? at hp
  split at hp
  · next hpending =>
    obtain rfl := Option.some.inj hp
    exact { h with production := fun _ => hpending, leaves := fun _ => rfl }
  · cases hp

/-! ## The balancer -/

/-- The balancer moves items between the queues and its hand (`Balancing.hand`), so that all
together they stay the same. -/
theorem Sound.rearrange (h : p.Sound evaluation items state) {stage : Balancing α}
    (hstage : p.balancer = stage) (hne : stage ≠ .done) (queues : WorkQueues α)
    (balancer : Balancing α)
    (hitems : queues.items ++ balancer.hand ~ p.run.queues.items ++ stage.hand)
    (hworkers : queues.workers = p.run.queues.workers)
    (hwithin : balancer.Within p.run.queues.workers)
    (hleaves : balancer = .leaving ∨ balancer = .done → p.productionDone = true) :
    Sound evaluation items state { p.withQueues queues with balancer } := by
  subst hstage
  have hdone : p.balancerDone = false := h.balancerDone_eq_false hne
  constructor
  case pushed => exact h.pushed
  case produced => exact h.produced
  case evaluated => exact h.evaluated
  case kept => exact h.kept
  case conserved => exact (hitems.append_right _).trans h.conserved
  case pos => exact h.pos
  case workers => exact h.workers.trans hworkers.symm
  case within =>
    show balancer.Within queues.workers
    exact hworkers ▸ hwithin
  case production => exact h.production
  case leaves => exact hleaves
  case done => exact fun htrue => absurd htrue (by simp [withQueues, hdone])
  case knows => exact fun stage hstage => h.knows_of_not_done hdone hstage _ _

/-- The balancer goes on to something else, with the same items in its hand, and leaves the queues
alone: `rearrange` without moving anything. -/
theorem Sound.turnBalancer (h : p.Sound evaluation items state) {stage balancer : Balancing α}
    (hstage : p.balancer = stage) (hne : stage ≠ .done) (hhand : balancer.hand = stage.hand)
    (hwithin : balancer.Within p.run.queues.workers)
    (hleaves : balancer = .leaving ∨ balancer = .done → p.productionDone = true) :
    Sound evaluation items state { p with balancer } :=
  h.rearrange hstage hne p.run.queues balancer (.of_eq (by rw [hhand])) rfl hwithin hleaves

/-- The balancer looks whether production has ended. -/
theorem Sound.rest (h : p.Sound evaluation items state) (hstage : p.balancer = .resting) :
    Sound evaluation items state
      { p with balancer := if p.productionDone then .leaving else .measuring [] } := by
  by_cases hended : p.productionDone = true
  · rw [if_pos hended]
    exact h.turnBalancer hstage (by simp) rfl trivial fun _ => hended
  · rw [if_neg hended]
    exact h.turnBalancer hstage (by simp) rfl (Nat.zero_le _) (by simp)

/-- The balancer notes the depth of the next queue. -/
theorem Sound.measure (h : p.Sound evaluation items state) {depths : List Nat}
    (hstage : p.balancer = .measuring depths) (hlt : depths.length < p.run.queues.workers)
    (depth : Nat) :
    Sound evaluation items state { p with balancer := .measuring (depths ++ [depth]) } := by
  refine h.turnBalancer hstage (by simp) rfl ?_ (by simp)
  rwa [Balancing.Within, List.length_append]

/-- The balancer takes the second half of the fullest queue into its hand. -/
theorem Sound.takeHalf (h : p.Sound evaluation items state) {depths starving : List Nat} {source : Nat}
    (hstage : p.balancer = .measuring depths) (hlength : depths.length = p.run.queues.workers)
    (himbalance : imbalance? p.run.queues.capacity depths = some ⟨source, starving⟩) :
    Sound evaluation items state { p.withQueues (p.run.queues.takeHalf source).2 with
      balancer := .handing source starving starving 0 (p.run.queues.takeHalf source).1.reverse } := by
  obtain ⟨hsource, hstarving⟩ := imbalance?_bounds himbalance
  rw [hlength] at hsource hstarving
  refine h.rearrange hstage (by simp) _ _ ?_ (workers_set ..)
    ⟨hsource, fun target htarget => (hstarving target htarget).1⟩ (by simp)
  calc (p.run.queues.takeHalf source).2.items ++ (p.run.queues.takeHalf source).1.reverse
      ~ (p.run.queues.takeHalf source).2.items ++ (p.run.queues.takeHalf source).1 :=
        (List.reverse_perm _).append_left _
    _ ~ p.run.queues.items := items_takeHalf _ _
    _ ~ p.run.queues.items ++ [] := .of_eq (List.append_nil _).symm

section Handing

variable {source target full : Nat} {starving targets : List Nat} {hand : List α}

/-- Targets that are taken in turn stay within the workers that exist (`Within`). -/
theorem Sound.within_rotate (h : p.Sound evaluation items state)
    (hstage : p.balancer = .handing source starving (target :: targets) full (item :: hand)) :
    source < p.run.queues.workers ∧ target < p.run.queues.workers ∧
      ∀ other ∈ targets ++ [target], other < p.run.queues.workers := by
  have hwithin := h.within
  rw [hstage] at hwithin
  obtain ⟨hsource, htargets⟩ := hwithin
  exact ⟨hsource, htargets target List.mem_cons_self,
    fun other hother => htargets other (by simpa [or_comm] using hother)⟩

/-- The balancer puts an item from its hand into a queue that has room (`push?`). -/
theorem Sound.handOver (h : p.Sound evaluation items state)
    (hstage : p.balancer = .handing source starving (target :: targets) full (item :: hand))
    (hpush : p.run.queues.push? target item = some queues) :
    Sound evaluation items state { p.withQueues queues with
      balancer := .handing source starving (targets ++ [target]) 0 hand } := by
  obtain ⟨hsource, htarget, hrotated⟩ := h.within_rotate hstage
  obtain ⟨-, rfl⟩ := append_of_push? hpush
  refine h.rearrange hstage (by simp) _ _ ?_ (workers_set ..) ⟨hsource, hrotated⟩ (by simp)
  calc (p.run.queues.append target item).items ++ hand
      ~ item :: p.run.queues.items ++ hand := (items_append htarget item).append_right hand
    _ ~ p.run.queues.items ++ item :: hand := List.perm_middle.symm

/-- The balancer finds a queue full and passes on to the next one, or gives up. -/
theorem Sound.passOver (h : p.Sound evaluation items state)
    (hstage : p.balancer = .handing source starving (target :: targets) full (item :: hand)) :
    Sound evaluation items state
      { p with
        balancer :=
          if starving.length ≤ full + 1 then .returning source (item :: hand)
          else .handing source starving (targets ++ [target]) (full + 1) (item :: hand) } := by
  obtain ⟨hsource, -, hrotated⟩ := h.within_rotate hstage
  by_cases hall : starving.length ≤ full + 1
  · rw [if_pos hall]
    exact h.turnBalancer hstage (by simp) rfl hsource (by simp)
  · rw [if_neg hall]
    exact h.turnBalancer hstage (by simp) rfl ⟨hsource, hrotated⟩ (by simp)

/-- The balancer puts what is left in its hand back (`WorkQueues.putBack`). -/
theorem Sound.putBack (h : p.Sound evaluation items state) (hstage : p.balancer = .returning source hand) :
    Sound evaluation items state
      { p.withQueues (p.run.queues.putBack source hand) with balancer := .resting } := by
  have hwithin := h.within
  rw [hstage] at hwithin
  refine h.rearrange hstage (by simp) _ _ ?_ (workers_set ..) trivial (by simp)
  calc (p.run.queues.putBack source hand).items ++ []
      ~ (p.run.queues.putBack source hand).items := .of_eq (List.append_nil _)
    _ ~ p.run.queues.items ++ hand := items_putBack hwithin hand

end Handing

/-- The balancer says that it is done, which no worker has relied on so far
(`Knows.of_not_done`). -/
theorem Sound.leave (h : p.Sound evaluation items state) (hstage : p.balancer = .leaving) :
    Sound evaluation items state { p with balancer := .done, balancerDone := true } := by
  have hdone : p.balancerDone = false := h.balancerDone_eq_false (by simp [hstage])
  have hmoved : Sound evaluation items state { p with balancer := .done } :=
    h.turnBalancer hstage (by simp) rfl trivial fun _ => h.leaves (.inl hstage)
  exact { hmoved with
    done := fun _ => rfl
    knows := fun stage hstage => h.knows_of_not_done hdone hstage _ _ }

/-- The balancer goes on, with one lemma for each of its steps. Its hand and the queues together
hold the same items before and after each. -/
theorem Sound.balance (h : p.Sound evaluation items state) (hp : p.balance? = some p') :
    p'.Sound evaluation items state := by
  -- One case for each stage of the balancer, in the order of `balance?`.
  unfold balance? at hp
  split at hp
  · next hstage =>
    obtain rfl := Option.some.inj hp
    exact h.rest hstage
  · next depths hstage =>
    split at hp
    · next hlt =>
      obtain rfl := Option.some.inj hp
      exact h.measure hstage hlt _
    · next hle =>
      split at hp
      · obtain rfl := Option.some.inj hp
        exact h.turnBalancer hstage (by simp) rfl trivial (by simp)
      · next source starving himbalance =>
        obtain rfl := Option.some.inj hp
        have hwithin := h.within
        rw [hstage] at hwithin
        exact h.takeHalf hstage (Nat.le_antisymm hwithin (Nat.le_of_not_lt hle)) himbalance
  · next hstage =>
    obtain rfl := Option.some.inj hp
    exact h.turnBalancer hstage (by simp) rfl trivial (by simp)
  · next hstage =>
    obtain rfl := Option.some.inj hp
    have hwithin := h.within
    rw [hstage] at hwithin
    exact h.turnBalancer hstage (by simp) rfl hwithin.1 (by simp)
  · next hstage =>
    split at hp
    · next hpush =>
      obtain rfl := Option.some.inj hp
      exact h.handOver hstage hpush
    · obtain rfl := Option.some.inj hp
      exact h.passOver hstage
  · next hstage =>
    obtain rfl := Option.some.inj hp
    exact h.putBack hstage
  · next hstage =>
    obtain rfl := Option.some.inj hp
    exact h.leave hstage
  · cases hp

/-! ## Courses -/

/-- The step lemma: every step (`step?`) keeps the invariant. -/
theorem Sound.step {step : Step} (h : p.Sound evaluation items state)
    (hp : p.step? evaluation step = some p') : p'.Sound evaluation items state := by
  cases step with
  | push worker => exact h.push hp
  | endProduction => exact h.endProduction hp
  | balance => exact h.balance hp
  | work worker => exact h.work hp

/-- The invariant holds at the start, where nothing was pushed. All that workers and the balancer
rely on comes later. -/
theorem sound_start (evaluation : β → α → Except ε β) (workers capacity : Nat) (items : List α)
    (state : β) : (start workers capacity items state).Sound evaluation items state where
  pushed := rfl
  produced := rfl
  evaluated := rfl
  kept := rfl
  conserved := by simp [start, ofSize, WorkQueues.items, Balancing.hand]
  pos := by
    rw [start, List.length_replicate]
    exact Nat.le_max_right workers 1
  workers := by simp [start, ofSize, WorkQueues.workers]
  within := trivial
  production := by simp [start]
  leaves := by simp [start]
  done := by simp [start]
  knows := fun stage hstage => (List.eq_of_mem_replicate hstage) ▸ trivial

/-- The run lemma: every course (`follow?`) keeps the invariant. -/
theorem sound_follow? {workers capacity : Nat} {steps : List Step}
    (h : (start workers capacity items state).follow? evaluation steps = some p) :
    p.Sound evaluation items state :=
  follow?_induction (fun _ _ _ hsound hstep => hsound.step hstep)
    (sound_start evaluation workers capacity items state) h

/-- Once all workers have returned, every item was evaluated: a worker returns only if it `Knows`
all queues to be empty and the balancer to be done, with nothing in its hand. -/
theorem Sound.evaluated_perm (h : p.Sound evaluation items state)
    (hreturned : ∀ stage ∈ p.workers, stage = .returned) :
    p.productionDone = true ∧ p.pushed = items ∧ p.evaluated ~ items := by
  obtain ⟨stage, hstage⟩ := List.exists_mem_of_length_pos h.pos
  have hknows := h.knows stage hstage
  rw [hreturned stage hstage] at hknows
  obtain ⟨hdone, hempty⟩ := hknows
  have hproduction := h.productionDone hdone
  have hpushed : p.pushed = items := by
    rw [← h.pushed, h.production hproduction, List.append_nil]
  refine ⟨hproduction, hpushed, ?_⟩
  have hconserved := h.conserved
  rw [items_eq_nil hempty, h.done hdone, hpushed] at hconserved
  exact hconserved

/-- No item is lost and none is evaluated twice, whatever the order of the steps (`follow?`). The
items in the queues, in the balancer's hand and evaluated are always those that were pushed. Once
all workers have returned, production has ended and every item was evaluated once. A run
(`WorkQueues.run`) is one of these courses. -/
theorem items_conserved (workers capacity : Nat) (items : List α) (evaluation : β → α → Except ε β)
    (state : β) :
    (∀ steps p, (start workers capacity items state).follow? evaluation steps = some p →
      p.run.queues.items ++ p.balancer.hand ++ p.evaluated ~ p.pushed ∧
      p.pushed ++ p.pending = items ∧
      p.run.produced = p.pushed.length ∧ p.run.evaluated = p.evaluated.length ∧
      p.evaluated.foldlM evaluation state = .ok p.run.state ∧
      ((∀ stage ∈ p.workers, stage = .returned) →
        p.productionDone = true ∧ p.pushed = items ∧ p.evaluated ~ items ∧
        p.run.produced = p.run.evaluated)) ∧
    ∀ run, WorkQueues.run workers capacity items evaluation state false = .ok run →
      ∃ steps p, (start workers capacity items state).follow? evaluation steps = some p ∧
        p.run = run ∧ ∀ stage ∈ p.workers, stage = .returned := by
  refine ⟨fun steps p hp => ?_, fun run hrun => ?_⟩
  · have h := sound_follow? hp
    refine ⟨h.conserved, h.pushed, h.produced, h.evaluated, h.kept, fun hreturned => ?_⟩
    obtain ⟨hproduction, hpushed, hevaluated⟩ := h.evaluated_perm hreturned
    refine ⟨hproduction, hpushed, hevaluated, ?_⟩
    rw [h.produced, h.evaluated, hpushed, hevaluated.length_eq]
  · obtain ⟨p, ⟨steps, hsteps⟩, hp, hreturned⟩ := reaches_run hrun
    exact ⟨steps, p, hsteps, hp, hreturned⟩

/-- The balancer takes an item out of the first queue and has to put it back, because the second one
has filled up; in the end, the first worker takes an item from the second one. -/
def relief : List Step :=
  [.push 0, .push 0, .push 0, .balance, .balance, .balance, .work 0, .balance, .push 1, .push 1,
    .push 1, .push 1, .push 1, .push 0, .endProduction, .balance, .balance, .balance, .balance,
    .work 0, .work 0, .work 0, .work 0, .work 0, .work 0, .work 1, .work 1, .work 1, .work 1, .work 1,
    .work 1, .work 1, .work 1, .work 1, .work 1, .work 0, .work 0, .work 0, .work 0, .work 0, .work 0,
    .work 0]

/-- An evaluation that adds up the items. -/
def total (sum item : Nat) : Except Empty Nat :=
  .ok (sum + item)

/-- The course of two workers that evaluate eight items. -/
theorem items_conserved_relief :
    ∃ p, (start 2 4 [5, 3, 8, 1, 9, 2, 7, 4] 0).follow? total relief = some p ∧
      p.evaluated = [5, 3, 4, 8, 7, 1, 9, 2] ∧ p.evaluated ~ [5, 3, 8, 1, 9, 2, 7, 4] ∧
      p.run.produced = p.run.evaluated := by
  have hcourse : ((start 2 4 [5, 3, 8, 1, 9, 2, 7, 4] 0).follow? total relief).map
      (fun p => (p.evaluated, p.workers)) =
        some ([5, 3, 4, 8, 7, 1, 9, 2], [.returned, .returned]) := by
    rfl
  obtain ⟨p, hp, heq⟩ := Option.map_eq_some_iff.mp hcourse
  obtain ⟨hevaluated, hworkers⟩ := Prod.mk.inj heq
  have hreturned : ∀ stage ∈ p.workers, stage = .returned := by simp [hworkers]
  obtain ⟨-, -, -, -, -, hend⟩ := (items_conserved 2 4 [5, 3, 8, 1, 9, 2, 7, 4] total 0).1 relief p hp
  obtain ⟨-, -, hperm, hequal⟩ := hend hreturned
  exact ⟨p, hp, hevaluated, hperm, hequal⟩

end Pool

end Detachment.WorkQueues
