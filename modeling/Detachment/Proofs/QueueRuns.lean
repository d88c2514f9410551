import Detachment.Proofs.QueueSteps

/-! # Runs as courses

A run in which one step follows another is a course of a pool: the balancer goes through the queues
after each item while the others wait, and the workers return in turn after the last one.

* `Pool.Reaches` says that some steps lead from one state to another.
* `Pool.reaches_rebalance` takes the steps of the balancer together; `rebalance` is what they do.
* `Pool.reaches_run` is the course of a run. -/

namespace Detachment.WorkQueues

variable {α β ε : Type}

/-- Every worker has a queue, so `depths` lists as many. -/
theorem length_depths (q : WorkQueues α) : q.depths.length = q.workers :=
  List.length_map ..

/-- To put nothing back changes nothing. -/
@[simp]
theorem putBack_nil (q : WorkQueues α) (worker : Nat) : q.putBack worker [] = q := by
  simp [putBack]

/-! ## Handing out -/

section HandOut

variable {q q' : WorkQueues α} {starving targets : List Nat} {target full : Nat} {item : α}
  {hand : List α}

/-- The first target has room for the next item (`push?`), and goes to the end of the targets. -/
theorem handOut_of_push? (hpush : q.push? target item = some q') :
    handOut starving (target :: targets) full (item :: hand) q =
      handOut starving (targets ++ [target]) 0 hand q' := by
  rw [handOut, hpush]

/-- The first target is full, and so were all others before it: `handOut` gives up. -/
theorem handOut_of_full (hpush : q.push? target item = none) (hfull : starving.length ≤ full + 1) :
    handOut starving (target :: targets) full (item :: hand) q = (item :: hand, q) := by
  rw [handOut, hpush]
  exact if_pos hfull

/-- The first target is full, and another one is tried by `handOut`. -/
theorem handOut_of_not_full (hpush : q.push? target item = none)
    (hfull : ¬starving.length ≤ full + 1) :
    handOut starving (target :: targets) full (item :: hand) q =
      handOut starving (targets ++ [target]) (full + 1) (item :: hand) q := by
  rw [handOut, hpush]
  exact if_neg hfull

end HandOut

/-! ## Queues that are not overfull -/

/-- The queues of a number of `workers`, none of which holds more items than `capacity`. -/
structure Regular (workers capacity : Nat) (q : WorkQueues α) : Prop where
  workers_eq : q.workers = workers
  capacity_eq : q.capacity = capacity
  bounded : ∀ worker, (q.queue worker).length ≤ capacity

namespace Regular

variable {q q' : WorkQueues α} {workers capacity worker source : Nat} {item : α} {items : List α}

/-- A queue may be replaced by one that is not too long. The other queues stay as they are
(`queue_set_ne`). -/
theorem set (h : q.Regular workers capacity) (hitems : items.length ≤ capacity) :
    (q.set worker items).Regular workers capacity where
  workers_eq := (workers_set ..).trans h.workers_eq
  capacity_eq := h.capacity_eq
  bounded other := by
    by_cases heq : worker = other
    · subst heq
      by_cases hworker : worker < q.workers
      · rw [queue_set hworker, if_pos rfl]
        exact hitems
      · rw [queue_eq_nil_of_le (by simpa using hworker)]
        exact Nat.zero_le _
    · rw [queue_set_ne heq]
      exact h.bounded other

/-- A queue takes an item only if there is room. -/
theorem push? (h : q.Regular workers capacity) (hpush : q.push? worker item = some q') :
    q'.Regular workers capacity := by
  obtain ⟨hroom, rfl⟩ := append_of_push? hpush
  refine h.set ?_
  rwa [List.length_append, ← h.capacity_eq]

/-- Handing out items (`handOut`) leaves a queue as it is that is no target, and the hand gets no
fuller. -/
theorem handOut (h : q.Regular workers capacity) (starving : List Nat) {targets : List Nat}
    (hsource : source ∉ targets) (full : Nat) (hand : List α) :
    (handOut starving targets full hand q).2.Regular workers capacity ∧
    (handOut starving targets full hand q).1.length ≤ hand.length ∧
    (handOut starving targets full hand q).2.queue source = q.queue source := by
  induction targets, full, hand, q using handOut.induct starving with
  | case1 targets full q =>
    rw [WorkQueues.handOut]
    exact ⟨h, Nat.le_refl _, rfl⟩
  | case2 full item hand q =>
    rw [WorkQueues.handOut]
    exact ⟨h, Nat.le_refl _, rfl⟩
  | case3 target targets full item hand q q' hpush ih =>
    have hne : target ≠ source := fun heq => hsource (heq ▸ List.mem_cons_self)
    obtain ⟨-, rfl⟩ := append_of_push? hpush
    obtain ⟨hregular, hlength, hqueue⟩ := ih (h.push? hpush) (by simpa [or_comm] using hsource)
    rw [handOut_of_push? hpush]
    exact ⟨hregular, Nat.le_succ_of_le hlength, hqueue.trans (queue_set_ne hne)⟩
  | case4 target targets full item hand q hpush hfull =>
    rw [handOut_of_full hpush hfull]
    exact ⟨h, Nat.le_refl _, rfl⟩
  | case5 target targets full item hand q hpush hfull ih =>
    rw [handOut_of_not_full hpush hfull]
    exact ih h (by simpa [or_comm] using hsource)

/-- Rebalancing puts no more back into a queue than it took out, so the queues stay `Regular`. Half
of the source is taken (`takeHalf`), and `Regular.handOut` says what comes back of it. -/
theorem rebalance (h : q.Regular workers capacity) : q.rebalance.Regular workers capacity := by
  unfold WorkQueues.rebalance
  split
  · exact h
  · next source starving himbalance =>
    obtain ⟨hsource, hstarving⟩ := imbalance?_bounds himbalance
    rw [length_depths] at hsource
    have hnot : source ∉ starving := fun hmem => (hstarving source hmem).2 rfl
    have hbounded := h.bounded source
    simp only [takeHalf]
    generalize (q.queue source).length - (q.queue source).length / 2 = kept
    have hhalf : (q.set source ((q.queue source).take kept)).Regular workers capacity :=
      h.set (Nat.le_trans (List.length_take_le' ..) hbounded)
    obtain ⟨hregular, hlength, hqueue⟩ :=
      hhalf.handOut starving hnot 0 ((q.queue source).drop kept).reverse
    rw [queue_set hsource, if_pos rfl] at hqueue
    refine hregular.set ?_
    rw [hqueue, List.length_append, List.length_reverse, List.length_take]
    rw [List.length_reverse, List.length_drop] at hlength
    omega

end Regular

/-- New queues are empty, for one worker and one item at least. -/
theorem regular_ofSize (workers capacity : Nat) :
    (ofSize workers capacity : WorkQueues α).Regular (max workers 1) (max capacity 1) where
  workers_eq := List.length_replicate ..
  capacity_eq := rfl
  bounded worker := by
    have hnil : (ofSize workers capacity : WorkQueues α).queue worker = [] := by
      by_cases h : worker < max workers 1 <;> simp [ofSize, queue, h]
    rw [hnil]
    exact Nat.zero_le _

/-! ## Other workers -/

section Others

variable {evaluation : β → α → Except ε β} {r r' : Run α β} {worker other : Nat}

/-- The `others` of a worker are workers. -/
theorem lt_of_mem_others {q : WorkQueues α} (h : other ∈ q.others worker) :
    other < q.workers := by
  obtain ⟨offset, hoffset, rfl⟩ := List.mem_map.mp h
  have hpos : 0 < q.workers := by
    have hlt := List.mem_range.mp hoffset
    omega
  exact Nat.mod_lt _ hpos

/-- A worker and the `others` are all workers there are. -/
theorem mem_others {q : WorkQueues α} (hworker : worker < q.workers) (hother : other < q.workers)
    (hne : other ≠ worker) : other ∈ q.others worker := by
  rcases Nat.lt_or_gt_of_ne hne with hlt | hgt
  · refine List.mem_map.mpr ⟨other + q.workers - worker - 1, List.mem_range.mpr (by omega), ?_⟩
    rw [show worker + (other + q.workers - worker - 1) + 1 = other + q.workers by omega,
      Nat.add_mod_right, Nat.mod_eq_of_lt hother]
  · refine List.mem_map.mpr ⟨other - worker - 1, List.mem_range.mpr (by omega), ?_⟩
    rw [show worker + (other - worker - 1) + 1 = other by omega, Nat.mod_eq_of_lt hother]

/-- A worker that finds no item, neither in its own queue (`pop?`) nor elsewhere (`steal?`), finds
all queues empty. -/
theorem queue_eq_nil_of_steal? {q : WorkQueues α} (hworker : worker < q.workers)
    (hpop : q.pop? worker = none) (hsteal : q.steal? worker = none) :
    ∀ other < q.workers, q.queue other = [] := by
  intro other hother
  by_cases heq : other = worker
  · subst heq
    unfold pop? at hpop
    split at hpop
    · next hqueue => exact hqueue
    · cases hpop
  · have hlast := List.findSome?_eq_none_iff.mp hsteal other (mem_others hworker hother heq)
    unfold popLast? at hlast
    split at hlast
    · next hnone => exact List.getLast?_eq_none_iff.mp hnone
    · cases hlast

/-- A worker evaluates an item (`Removed`), unless there is none. It is the first one of its own
queue or the last one of another (`steal?`). -/
theorem Run.work_eq_ok (hworker : worker < r.queues.workers)
    (h : r.work evaluation worker = .ok r') :
    (r' = r ∧ r.queues.items = []) ∨ ∃ item, r.queues.Removed item r'.queues := by
  unfold Run.work at h
  split at h
  · next item queues htaken =>
    obtain ⟨state, -, rfl⟩ := Run.evaluate_eq_ok h
    refine .inr ⟨item, ?_⟩
    rcases Option.or_eq_some_iff.mp htaken with hpop | ⟨-, hsteal⟩
    · exact removed_of_pop? hpop
    · obtain ⟨victim, -, hlast⟩ := List.exists_of_findSome?_eq_some hsteal
      exact removed_of_popLast? hlast
  · next hnone =>
    obtain ⟨hpop, hsteal⟩ := Option.or_eq_none_iff.mp hnone
    exact .inl ⟨(Except.ok.inj h).symm, items_eq_nil (queue_eq_nil_of_steal? hworker hpop hsteal)⟩

end Others

namespace Pool

variable {evaluation : β → α → Except ε β} {p p' p'' : Pool α β}

/-- Some steps lead from the state `p` to the state `p'`, by `follow?`. -/
def Reaches (evaluation : β → α → Except ε β) (p p' : Pool α β) : Prop :=
  ∃ steps, p.follow? evaluation steps = some p'

/-- No step leads anywhere else. -/
theorem Reaches.refl (p : Pool α β) : p.Reaches evaluation p :=
  ⟨[], rfl⟩

/-- One step first. -/
theorem Reaches.step (step : Step) (h : p.step? evaluation step = some p')
    (hrest : p'.Reaches evaluation p'') : p.Reaches evaluation p'' := by
  obtain ⟨steps, hsteps⟩ := hrest
  refine ⟨step :: steps, ?_⟩
  rw [follow?, List.foldlM_cons, h]
  exact hsteps

/-- Steps one after the other. -/
theorem Reaches.trans (h : p.Reaches evaluation p') (hrest : p'.Reaches evaluation p'') :
    p.Reaches evaluation p'' := by
  obtain ⟨steps, hsteps⟩ := h
  obtain ⟨more, hmore⟩ := hrest
  refine ⟨steps ++ more, ?_⟩
  rw [follow?, List.foldlM_append]
  exact Option.bind_eq_some_iff.mpr ⟨p', hsteps, hmore⟩

/-! ## Rebalancing -/

/-- The balancer looks at the queues, one after the other, and notes their `depths`. By induction on
`count`, as each step notes one depth more. -/
theorem reaches_measuring (p : Pool α β) {count : Nat} (hcount : count ≤ p.run.queues.workers) :
    Reaches evaluation { p with balancer := .measuring [] }
      { p with balancer := .measuring (p.run.queues.depths.take count) } := by
  induction count with
  | zero => exact .refl _
  | succ count ih =>
    have hlt : count < p.run.queues.workers := hcount
    have hlength : (p.run.queues.depths.take count).length = count := by
      rw [List.length_take_of_le (by rw [length_depths]; exact Nat.le_of_lt hlt)]
    have hdepth : p.run.queues.depths.take (count + 1) =
        p.run.queues.depths.take count ++ [(p.run.queues.queue count).length] := by
      simp [depths, List.take_add_one, getElem?_queues hlt]
    refine (ih (Nat.le_of_lt hlt)).trans (.step .balance ?_ (.refl _))
    simp [step?, balance?, hlength, hlt, hdepth]

/-- The balancer hands out what it holds, as `handOut` does, and puts the rest back. The induction
is that of `handOut`. -/
theorem reaches_handing (p : Pool α β) (source : Nat) (starving targets : List Nat) (full : Nat)
    (hand : List α) (q : WorkQueues α) :
    Reaches evaluation
      { p.withQueues q with balancer := .handing source starving targets full hand }
      { p.withQueues ((handOut starving targets full hand q).2.putBack source
          (handOut starving targets full hand q).1) with balancer := .resting } := by
  induction targets, full, hand, q using handOut.induct starving with
  | case1 targets full q =>
    refine .step .balance rfl ?_
    rw [handOut, putBack_nil]
    exact .refl _
  | case2 full item hand q =>
    refine .step .balance rfl (.step .balance rfl ?_)
    rw [handOut]
    exact .refl _
  | case3 target targets full item hand q q' hpush ih =>
    rw [handOut_of_push? hpush]
    exact .step .balance (by simp [step?, balance?, withQueues, hpush]) ih
  | case4 target targets full item hand q hpush hfull =>
    have hstep : step? evaluation { p.withQueues q with
          balancer := .handing source starving (target :: targets) full (item :: hand) } .balance =
        some { p.withQueues q with balancer := .returning source (item :: hand) } := by
      simp [step?, balance?, withQueues, hpush, hfull]
    rw [handOut_of_full hpush hfull]
    exact .step .balance hstep (.step .balance rfl (.refl _))
  | case5 target targets full item hand q hpush hfull ih =>
    rw [handOut_of_not_full hpush hfull]
    exact .step .balance (by simp [step?, balance?, withQueues, hpush, hfull]) ih

/-- The steps of the balancer while the others wait do what `rebalance` does. It measures all queues
(`reaches_measuring`), and hands out a half if they are out of balance (`reaches_handing`). -/
theorem reaches_rebalance (hresting : p.balancer = .resting) (hproducing : p.productionDone = false) :
    p.Reaches evaluation (p.withQueues p.run.queues.rebalance) := by
  have hall : p.run.queues.depths.take p.run.queues.workers = p.run.queues.depths :=
    List.take_of_length_le (Nat.le_of_eq (length_depths _))
  -- The balancer first looks at all queues, and no step of another comes between.
  have hmeasured : Reaches evaluation { p with balancer := .measuring [] }
      { p with balancer := .measuring p.run.queues.depths } :=
    hall ▸ reaches_measuring p (Nat.le_refl _)
  refine .step .balance (by rw [step?, balance?, hresting, hproducing]; rfl) (hmeasured.trans ?_)
  have hrested : ∀ q, { p.withQueues q with balancer := .resting } = p.withQueues q := by
    intro q
    rw [← hresting]
    rfl
  cases himbalance : imbalance? p.run.queues.capacity p.run.queues.depths with
  | none =>
    have hsame : p.run.queues.rebalance = p.run.queues := by
      rw [rebalance, himbalance]
    rw [hsame, ← hrested]
    refine .step .balance ?_ (.refl _)
    simp [step?, balance?, withQueues, length_depths, himbalance]
  | some imbalance =>
    obtain ⟨source, starving⟩ := imbalance
    cases hhalf : p.run.queues.takeHalf source with
    | mk moving queues =>
      have hmoved : p.run.queues.rebalance =
          (handOut starving starving 0 moving.reverse queues).2.putBack source
            (handOut starving starving 0 moving.reverse queues).1 := by
        simp only [rebalance, himbalance, hhalf]
      rw [hmoved, ← hrested]
      refine .step .balance ?_ (reaches_handing p source starving starving 0 moving.reverse queues)
      simp [step?, balance?, length_depths, himbalance, hhalf, withQueues]

/-! ## Production -/

/-- The state of a run in which items are still produced. -/
def producing (workers : Nat) (run : Run α β) (pending pushed evaluated : List α) : Pool α β :=
  ⟨run, pending, false, .resting, false, List.replicate workers .popping, pushed, evaluated⟩

/-- A worker that goes on with what it is doing (`turnTo`) changes nothing. -/
theorem turnTo_self {worker : Nat} {stage : Working} (h : p.workers[worker]? = some stage) :
    p.turnTo worker stage = p := by
  obtain ⟨hlt, rfl⟩ := List.getElem?_eq_some_iff.mp h
  rw [turnTo, List.set_getElem_self]

/-- A worker evaluates the first item of its queue (`pop?`). -/
theorem work?_of_pop? {worker : Nat} {item : α} {queues : WorkQueues α} {run : Run α β}
    (hworker : p.workers[worker]? = some .popping)
    (hpop : p.run.queues.pop? worker = some (item, queues))
    (hrun : p.run.evaluate evaluation item queues = .ok run) :
    p.work? evaluation worker = some { p with run, evaluated := p.evaluated ++ [item] } := by
  simp only [work?, hworker, hpop, evaluate?, hrun, turnTo_self hworker]

/-- The producer pushes an item (`push?`) while a run is `producing`. -/
theorem step?_push {workers target : Nat} {run : Run α β} {item : α} {queues : WorkQueues α}
    (pending pushed evaluated : List α) (htarget : target < run.queues.workers)
    (hpush : run.queues.push? target item = some queues) :
    (producing workers run (item :: pending) pushed evaluated).step? evaluation (.push target) =
      some (producing workers { run with queues, produced := run.produced + 1 } pending
        (pushed ++ [item]) evaluated) := by
  simp [step?, push?, producing, hpush, Nat.not_le.mpr htarget]

/-- The worker of a full queue takes the first item of it (`pop?`), and then there is room for
one. -/
theorem exists_pop?_of_full {workers capacity worker : Nat} {run next : Run α β} {item : α}
    (hcapacity : 0 < capacity) (hregular : run.queues.Regular workers capacity)
    (hworker : worker < run.queues.workers) (hfull : run.queues.push? worker item = none)
    (hnext : run.work evaluation worker = .ok next) :
    ∃ first, run.queues.pop? worker = some (first, next.queues) ∧
      run.evaluate evaluation first next.queues = .ok next ∧
      next.queues.Regular workers capacity ∧ next.queues.workers = run.queues.workers ∧
      next.queues.push? worker item = some (next.queues.append worker item) := by
  have hbounded := hregular.bounded worker
  cases hqueue : run.queues.queue worker with
  | nil => simp [WorkQueues.push?, hqueue, hregular.capacity_eq, hcapacity] at hfull
  | cons first rest =>
    have hlength : rest.length < capacity := by
      rw [hqueue] at hbounded
      exact hbounded
    have hpop : run.queues.pop? worker = some (first, run.queues.set worker rest) := by
      simp [pop?, hqueue]
    have hevaluate : run.evaluate evaluation first (run.queues.set worker rest) = .ok next := by
      rw [← hnext, Run.work, hpop, Option.some_or]
    obtain ⟨state, -, rfl⟩ := Run.evaluate_eq_ok hevaluate
    have hset : (run.queues.set worker rest).Regular workers capacity :=
      hregular.set (Nat.le_of_lt hlength)
    refine ⟨first, hpop, hevaluate, hset, workers_set .., ?_⟩
    simp [WorkQueues.push?, queue_set hworker, hset.capacity_eq, hlength]

/-- The course of an item that is handed over (`Run.produce`): it is pushed and the queues are
rebalanced; if all queues are full, a worker evaluates an item first and then has room for it. -/
theorem reaches_produce {workers capacity : Nat} {run run' : Run α β} {item : α}
    (pending pushed evaluated : List α) (hworkers : 0 < workers) (hcapacity : 0 < capacity)
    (hregular : run.queues.Regular workers capacity)
    (h : run.produce evaluation item = .ok run') :
    run'.queues.Regular workers capacity ∧ ∃ evaluated',
      (producing workers run (item :: pending) pushed evaluated).Reaches evaluation
        (producing workers run' pending (pushed ++ [item]) evaluated') := by
  have hpos : 0 < run.queues.workers := hregular.workers_eq.symm ▸ hworkers
  simp only [Run.produce] at h
  generalize hworker : run.produced % run.queues.workers = worker at h
  have hlt : worker < run.queues.workers := hworker ▸ Nat.mod_lt _ hpos
  cases hoffer : run.offer? worker item with
  | some queues =>
    rw [hoffer] at h
    obtain rfl := Except.ok.inj h
    -- A queue has room: the producer pushes, and the balancer runs once through its stages.
    obtain ⟨target, htarget, hpush⟩ := List.exists_of_findSome?_eq_some hoffer
    have htarget_lt : target < run.queues.workers := by
      rcases List.mem_cons.mp htarget with rfl | hother
      · exact hlt
      · exact lt_of_mem_others hother
    exact ⟨(hregular.push? hpush).rebalance, evaluated,
      .step (.push target) (step?_push _ _ _ htarget_lt hpush) (reaches_rebalance rfl rfl)⟩
  | none =>
    rw [hoffer] at h
    have hfull : run.queues.push? worker item = none :=
      List.findSome?_eq_none_iff.mp hoffer worker List.mem_cons_self
    cases hnext : run.work evaluation worker with
    | error e =>
      rw [hnext] at h
      cases h
    | ok next =>
      rw [hnext] at h
      obtain rfl := Except.ok.inj h
      -- All queues are full: a worker takes an item, which makes room for the push.
      obtain ⟨first, hpop, hevaluate, hnext_regular, hsize, hroom⟩ :=
        exists_pop?_of_full hcapacity hregular hlt hfull hnext
      have hpopping : (producing workers run (item :: pending) pushed evaluated).workers[worker]? =
          some .popping := by
        simp [producing, ← hregular.workers_eq, hlt]
      have hlt' : worker < next.queues.workers := hsize.symm ▸ hlt
      exact ⟨hnext_regular.push? hroom, evaluated ++ [first],
        .step (.work worker) (work?_of_pop? hpopping hpop hevaluate)
          (.step (.push worker) (step?_push _ _ _ hlt' hroom) (.refl _))⟩

/-! ## After production -/

/-- The state of a run after the last item was produced. -/
def finishing (workers : Nat) (run : Run α β) (pushed evaluated : List α) : Pool α β :=
  ⟨run, [], true, .done, true, List.replicate workers .popping, pushed, evaluated⟩

/-- Production ends, and the balancer says that it is done: from `producing` to `finishing`. -/
theorem reaches_finishing (workers : Nat) (run : Run α β) (pushed evaluated : List α) :
    (producing workers run [] pushed evaluated).Reaches evaluation
      (finishing workers run pushed evaluated) :=
  .step .endProduction rfl (.step .balance rfl (.step .balance rfl (.refl _)))

/-- A worker does what it turned to last. -/
theorem turnTo_turnTo (p : Pool α β) (worker : Nat) (stage next : Working) :
    (p.turnTo worker stage).turnTo worker next = p.turnTo worker next := by
  simp [turnTo]

/-- A worker does what it turned to. -/
theorem stage_turnTo {worker : Nat} (hworker : worker < p.workers.length) (stage : Working) :
    (p.turnTo worker stage).workers[worker]? = some stage := by
  simp [turnTo, hworker]

/-- A worker whose queue is empty turns to the queues of others (`.stealing`) once the balancer is
done. -/
theorem reaches_others {worker : Nat} (hworker : p.workers[worker]? = some .popping)
    (hpop : p.run.queues.pop? worker = none) (hdone : p.balancerDone = true) :
    p.Reaches evaluation (p.turnTo worker (.stealing (p.run.queues.others worker))) := by
  have hlt : worker < p.workers.length := (List.getElem?_eq_some_iff.mp hworker).1
  have hhungry : p.step? evaluation (.work worker) = some (p.turnTo worker .hungry) := by
    simp only [step?, work?, hworker, hpop]
  refine .step (.work worker) hhungry (.step (.work worker) ?_ (.refl _))
  simp only [step?, work?, stage_turnTo hlt]
  rw [turnTo_turnTo, if_pos (show (p.turnTo worker .hungry).balancerDone = true from hdone)]
  rfl

/-- A worker goes through the queues of others (`popLast?`) until it finds an item, by induction on
the `victims`. -/
theorem reaches_stealing {worker : Nat} {victims : List Nat} {item : α} {queues : WorkQueues α}
    {run : Run α β} (hworker : worker < p.workers.length)
    (hsteal : victims.findSome? p.run.queues.popLast? = some (item, queues))
    (hrun : p.run.evaluate evaluation item queues = .ok run) :
    (p.turnTo worker (.stealing victims)).Reaches evaluation
      { p.turnTo worker .popping with run, evaluated := p.evaluated ++ [item] } := by
  induction victims with
  | nil => cases hsteal
  | cons victim victims ih =>
    have hqueues : (p.turnTo worker (.stealing (victim :: victims))).run = p.run := rfl
    cases hpop : p.run.queues.popLast? victim with
    | some taken =>
      obtain rfl : taken = (item, queues) := by
        rw [List.findSome?_cons, hpop] at hsteal
        exact Option.some.inj hsteal
      refine .step (.work worker) ?_ (.refl _)
      simp only [step?, work?, stage_turnTo hworker, hqueues, hpop, evaluate?, hrun, turnTo_turnTo]
      rfl
    | none =>
      rw [List.findSome?_cons, hpop] at hsteal
      refine .step (.work worker) ?_ (ih hsteal)
      simp only [step?, work?, stage_turnTo hworker, hqueues, hpop, turnTo_turnTo]

/-- The course of a worker that evaluates an item (`Run.work`), from its own queue or another
one. -/
theorem reaches_work {workers worker : Nat} {run run' : Run α β} (pushed evaluated : List α)
    (hworker : worker < workers) (h : run.work evaluation worker = .ok run') :
    ∃ evaluated', (finishing workers run pushed evaluated).Reaches evaluation
      (finishing workers run' pushed evaluated') := by
  have hstage : (finishing workers run pushed evaluated).workers[worker]? = some .popping := by
    simp [finishing, hworker]
  unfold Run.work at h
  cases hpop : run.queues.pop? worker with
  | some taken =>
    rw [hpop] at h
    exact ⟨_, .step (.work worker) (work?_of_pop? hstage hpop h) (.refl _)⟩
  | none =>
    rw [hpop, Option.none_or] at h
    cases hsteal : run.queues.steal? worker with
    | none =>
      rw [hsteal] at h
      obtain rfl := Except.ok.inj h
      exact ⟨evaluated, .refl _⟩
    | some taken =>
      rw [hsteal] at h
      have hstealing := reaches_stealing (List.getElem?_eq_some_iff.mp hstage).1 hsteal h
      rw [turnTo_self hstage] at hstealing
      exact ⟨_, (reaches_others hstage hpop rfl).trans hstealing⟩

/-- A worker whose steals all fail looks at the queues again (`.inspecting`). -/
theorem reaches_inspecting {worker : Nat} (hworker : worker < p.workers.length)
    (hempty : ∀ victim, p.run.queues.queue victim = []) (victims : List Nat) :
    (p.turnTo worker (.stealing victims)).Reaches evaluation
      (p.turnTo worker (.inspecting 0)) := by
  induction victims with
  | nil =>
    refine .step (.work worker) ?_ (.refl _)
    simp only [step?, work?, stage_turnTo hworker, turnTo_turnTo]
  | cons victim victims ih =>
    have hpop : (p.turnTo worker (.stealing (victim :: victims))).run.queues.popLast? victim = none := by
      simp [popLast?, turnTo, hempty]
    refine .step (.work worker) ?_ ih
    simp only [step?, work?, stage_turnTo hworker, hpop, turnTo_turnTo]

/-- A worker returns when all queues are empty, after it has looked at each of them. The look at the
others is an induction on how many of them were inspected. -/
theorem reaches_returned {worker : Nat} (hworker : p.workers[worker]? = some .popping)
    (hdone : p.balancerDone = true) (hempty : ∀ victim, p.run.queues.queue victim = []) :
    p.Reaches evaluation (p.turnTo worker .returned) := by
  have hlt : worker < p.workers.length := (List.getElem?_eq_some_iff.mp hworker).1
  have hpop : p.run.queues.pop? worker = none := by simp [pop?, hempty]
  have hqueues : ∀ stage, (p.turnTo worker stage).run = p.run := fun _ => rfl
  have hinspected : ∀ next ≤ p.run.queues.workers,
      (p.turnTo worker (.inspecting 0)).Reaches evaluation (p.turnTo worker (.inspecting next)) := by
    intro next hnext
    induction next with
    | zero => exact .refl _
    | succ next ih =>
      refine (ih (Nat.le_of_succ_le hnext)).trans (.step (.work worker) ?_ (.refl _))
      simp [step?, work?, stage_turnTo hlt, turnTo_turnTo, hqueues, hempty, Nat.not_le.mpr hnext]
  refine (reaches_others hworker hpop hdone).trans ((reaches_inspecting hlt hempty _).trans
    ((hinspected _ (Nat.le_refl _)).trans (.step (.work worker) ?_ (.refl _))))
  simp [step?, work?, stage_turnTo hlt, turnTo_turnTo, hqueues]

/-- The first `count` workers have returned, and the others have not. -/
def ReturnedUpTo (count workers : Nat) (stages : List Working) : Prop :=
  ∀ worker, stages[worker]? =
    if worker < count then some .returned else (List.replicate workers .popping)[worker]?

/-- The workers return in turn, by induction on `count`. The next worker still pops, and returns by
`reaches_returned`. -/
theorem reaches_returnedUpTo {workers count : Nat} {run : Run α β} (pushed evaluated : List α)
    (hempty : ∀ victim, run.queues.queue victim = []) (hcount : count ≤ workers) :
    ∃ stages, ReturnedUpTo count workers stages ∧
      (finishing workers run pushed evaluated).Reaches evaluation
        { finishing workers run pushed evaluated with workers := stages } := by
  induction count with
  | zero => exact ⟨_, fun worker => (if_neg (Nat.not_lt_zero worker)).symm, .refl _⟩
  | succ count ih =>
    obtain ⟨stages, hstages, hreaches⟩ := ih (Nat.le_of_succ_le hcount)
    have hstage : stages[count]? = some .popping := by
      rw [hstages, if_neg (Nat.lt_irrefl count), List.getElem?_replicate]
      exact if_pos hcount
    have hlt : count < stages.length := (List.getElem?_eq_some_iff.mp hstage).1
    refine ⟨stages.set count .returned, fun worker => ?_,
      hreaches.trans (reaches_returned hstage rfl hempty)⟩
    rcases Nat.lt_trichotomy worker count with hbefore | rfl | hafter
    · rw [List.getElem?_set_ne (by omega), hstages, if_pos hbefore, if_pos (by omega)]
    · rw [List.getElem?_set_self hlt, if_pos (Nat.lt_succ_self worker)]
    · rw [List.getElem?_set_ne (by omega), hstages, if_neg (by omega), if_neg (by omega)]

/-- In the end all workers have returned. -/
theorem ReturnedUpTo.eq_returned {workers : Nat} {stages : List Working} {stage : Working}
    (h : ReturnedUpTo workers workers stages) (hstage : stage ∈ stages) : stage = .returned := by
  obtain ⟨worker, hworker⟩ := List.mem_iff_getElem?.mp hstage
  rw [h worker, List.getElem?_replicate] at hworker
  split at hworker
  · exact (Option.some.inj hworker).symm
  · cases hworker

/-! ## Runs -/

variable {workers capacity : Nat} {run run' : Run α β}

/-- The course of a run after production (`Run.finish`). No item is left if there is a turn for
each. -/
theorem reaches_finish {count : Nat} (pushed evaluated : List α) (hworkers : 0 < workers)
    (hcount : run.queues.items.length ≤ count) (hsize : run.queues.workers = workers)
    (h : run.finish evaluation count = .ok run') :
    run'.queues.items = [] ∧ ∃ evaluated',
      (finishing workers run pushed evaluated).Reaches evaluation
        (finishing workers run' pushed evaluated') := by
  induction count generalizing run evaluated with
  | zero =>
    obtain rfl := Except.ok.inj h
    exact ⟨List.length_eq_zero_iff.mp (Nat.le_zero.mp hcount), evaluated, .refl _⟩
  | succ count ih =>
    have hworker : count % run.queues.workers < run.queues.workers :=
      Nat.mod_lt _ (hsize.symm ▸ hworkers)
    rw [Run.finish] at h
    split at h
    · next next hnext =>
      obtain ⟨evaluated', hreaches⟩ :=
        reaches_work pushed evaluated (Nat.lt_of_lt_of_eq hworker hsize) hnext
      have hleft : next.queues.items.length ≤ count ∧ next.queues.workers = workers := by
        rcases Run.work_eq_ok hworker hnext with ⟨rfl, hnil⟩ | ⟨item, hremoved⟩
        · rw [hnil]
          exact ⟨Nat.zero_le _, hsize⟩
        · have hlength := hremoved.items_perm_cons.length_eq
          rw [List.length_cons] at hlength
          exact ⟨by omega, hremoved.workers_eq.trans hsize⟩
      obtain ⟨hempty, evaluated'', hrest⟩ := ih evaluated' hleft.1 hleft.2 h
      exact ⟨hempty, evaluated'', hreaches.trans hrest⟩
    · cases h

/-- The course of a run during production: `reaches_produce` for one item after the other. By
induction on the items, with `Regular` kept from each to the next. -/
theorem reaches_production (items pushed evaluated : List α) (hworkers : 0 < workers)
    (hcapacity : 0 < capacity) (hregular : run.queues.Regular workers capacity)
    (h : items.foldlM (Run.produce evaluation) run = .ok run') :
    run'.queues.Regular workers capacity ∧ ∃ evaluated',
      (producing workers run items pushed evaluated).Reaches evaluation
        (producing workers run' [] (pushed ++ items) evaluated') := by
  induction items generalizing run pushed evaluated with
  | nil =>
    obtain rfl := Except.ok.inj h
    rw [List.append_nil]
    exact ⟨hregular, evaluated, .refl _⟩
  | cons item items ih =>
    cases hnext : run.produce evaluation item with
    | error e =>
      rw [List.foldlM_cons, hnext] at h
      cases h
    | ok next =>
      rw [List.foldlM_cons, hnext] at h
      obtain ⟨hnext_regular, evaluated', hreaches⟩ :=
        reaches_produce items pushed evaluated hworkers hcapacity hregular hnext
      obtain ⟨hlast, evaluated'', hrest⟩ := ih (pushed ++ [item]) evaluated' hnext_regular h
      rw [List.append_assoc] at hrest
      exact ⟨hlast, evaluated'', hreaches.trans hrest⟩

/-- The course of a run: whatever `WorkQueues.run` gives, some steps of a pool lead there, with all
workers returned. -/
theorem reaches_run {items : List α} {state : β}
    (h : WorkQueues.run workers capacity items evaluation state false = .ok run) :
    ∃ p : Pool α β, (start workers capacity items state).Reaches evaluation p ∧ p.run = run ∧
      ∀ stage ∈ p.workers, stage = .returned := by
  simp only [WorkQueues.run, Bool.false_eq_true, if_false] at h
  cases hproduced : items.foldlM (Run.produce evaluation) ⟨ofSize workers capacity, 0, 0, state⟩ with
  | error e =>
    rw [hproduced] at h
    cases h
  | ok produced =>
    rw [hproduced] at h
    cases hfinished : produced.finish evaluation produced.queues.items.length with
    | error e =>
      rw [Except.bind, hfinished] at h
      cases h
    | ok finished =>
      rw [Except.bind, hfinished] at h
      obtain rfl := Except.ok.inj h
      have hworkers : 0 < max workers 1 := Nat.le_max_right ..
      obtain ⟨hregular, evaluated, hproducing⟩ := reaches_production items [] [] hworkers
        (Nat.le_max_right capacity 1) (regular_ofSize workers capacity) hproduced
      obtain ⟨hempty, evaluated', hfinishing⟩ := reaches_finish items evaluated hworkers
        (Nat.le_refl _) hregular.workers_eq hfinished
      obtain ⟨stages, hstages, hreturning⟩ :=
        reaches_returnedUpTo items evaluated' (queue_eq_nil hempty) (Nat.le_refl (max workers 1))
      exact ⟨_, (hproducing.trans (reaches_finishing ..)).trans (hfinishing.trans hreturning), rfl,
        fun stage => hstages.eq_returned⟩

end Pool

end Detachment.WorkQueues
