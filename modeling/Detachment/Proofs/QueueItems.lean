import Mathlib.Data.List.Perm.Basic
import Detachment.WorkQueues

/-! # Items in work queues

What the operations on work queues do to the items in them, up to order.

* `WorkQueues.Removed` says that one item was taken out of one queue.
* `WorkQueues.items_append`, `WorkQueues.items_takeHalf` and `WorkQueues.items_putBack` say what is
  put in and taken out.
* `WorkQueues.imbalance?_bounds` says that the workers of an imbalance are workers of the queues. -/

open scoped List

namespace Detachment.WorkQueues

variable {α : Type} {q q' : WorkQueues α} {worker other : Nat} {item : α} {items : List α}

/-- Replacing a queue adds no worker. -/
@[simp]
theorem workers_set (q : WorkQueues α) (worker : Nat) (items : List α) :
    (q.set worker items).workers = q.workers :=
  List.length_set

/-- A worker that exists has a queue. -/
theorem getElem?_queues (h : worker < q.workers) : q.queues[worker]? = some (q.queue worker) := by
  simp [queue, List.getElem?_eq_getElem (show worker < q.queues.length from h)]

/-- There is nothing in the `queue` of a worker that does not exist. -/
theorem queue_eq_nil_of_le (h : q.workers ≤ worker) : q.queue worker = [] := by
  simp [queue, List.getElem?_eq_none h]

/-- A worker with items exists. -/
theorem lt_of_queue_ne_nil (h : q.queue worker ≠ []) : worker < q.workers :=
  Nat.lt_of_not_le fun hle => h (queue_eq_nil_of_le hle)

/-- The other queues stay as they are. -/
theorem queue_set_ne (h : worker ≠ other) : (q.set worker items).queue other = q.queue other := by
  simp [set, queue, h]

/-- The queues after one of them was replaced (`set`). -/
theorem queue_set (h : worker < q.workers) :
    (q.set worker items).queue other = if worker = other then items else q.queue other := by
  split
  · next heq =>
    subst heq
    simp [set, queue, show worker < q.queues.length from h]
  · next hne => exact queue_set_ne hne

/-- Replacing a queue by itself changes nothing. -/
@[simp]
theorem set_queue (q : WorkQueues α) (worker : Nat) : q.set worker (q.queue worker) = q := by
  have hsame : q.queues.set worker (q.queue worker) = q.queues := by
    by_cases h : worker < q.workers
    · obtain ⟨hlt, hqueue⟩ := List.getElem?_eq_some_iff.mp (getElem?_queues h)
      rw [← hqueue, List.set_getElem_self]
    · exact List.set_eq_of_length_le (Nat.le_of_not_lt h)
  rw [set, hsame]

/-! ## Items up to order -/

/-- The items in the queues of the other workers. -/
def elsewhere (q : WorkQueues α) (worker : Nat) : List α :=
  (q.queues.eraseIdx worker).flatten

/-- All items are those of one queue and those `elsewhere`. -/
theorem items_perm (h : worker < q.workers) : q.items ~ q.queue worker ++ q.elsewhere worker := by
  obtain ⟨hlt, hqueue⟩ := List.getElem?_eq_some_iff.mp (getElem?_queues h)
  rw [← hqueue]
  exact (List.getElem_cons_eraseIdx_perm hlt).symm.flatten

/-- Replacing a queue leaves the items `elsewhere` alone. -/
theorem items_set_perm (h : worker < q.workers) (items : List α) :
    (q.set worker items).items ~ items ++ q.elsewhere worker :=
  (List.set_perm_cons_eraseIdx h items).flatten

/-- There is nothing in the queues (`items`) if there is nothing in any of them. -/
theorem items_eq_nil (h : ∀ worker < q.workers, q.queue worker = []) : q.items = [] := by
  refine List.flatten_eq_nil_iff.mpr fun queue hqueue => ?_
  obtain ⟨worker, hworker⟩ := List.mem_iff_getElem?.mp hqueue
  have hlt : worker < q.workers := (List.getElem?_eq_some_iff.mp hworker).1
  rw [← h worker hlt]
  exact Option.some.inj (hworker.symm.trans (getElem?_queues hlt))

/-- There is nothing in any queue if there is nothing in the queues (`items`). -/
theorem queue_eq_nil (h : q.items = []) (worker : Nat) : q.queue worker = [] := by
  by_cases hworker : worker < q.workers
  · exact List.flatten_eq_nil_iff.mp h _ (List.mem_of_getElem? (getElem?_queues hworker))
  · exact queue_eq_nil_of_le (Nat.le_of_not_lt hworker)

/-- An item is put at the end of a queue (`append`), so there is one more. -/
theorem items_append (h : worker < q.workers) (item : α) :
    (q.append worker item).items ~ item :: q.items :=
  calc (q.append worker item).items
      ~ q.queue worker ++ [item] ++ q.elsewhere worker := items_set_perm h _
    _ ~ item :: (q.queue worker ++ q.elsewhere worker) := by
      rw [List.append_assoc]
      exact List.perm_middle
    _ ~ item :: q.items := (items_perm h).symm.cons item

/-- A queue that takes an item has room, and the item goes to its end. -/
theorem append_of_push? (h : q.push? worker item = some q') :
    (q.queue worker).length < q.capacity ∧ q.append worker item = q' := by
  unfold push? at h
  split at h
  · next hroom => exact ⟨hroom, Option.some.inj h⟩
  · cases h

/-- The second half of a queue is taken out (`takeHalf`), and nothing is lost. Splitting the queue
of the worker leaves what is `elsewhere`. -/
theorem items_takeHalf (q : WorkQueues α) (worker : Nat) :
    (q.takeHalf worker).2.items ++ (q.takeHalf worker).1 ~ q.items := by
  simp only [takeHalf]
  generalize (q.queue worker).length - (q.queue worker).length / 2 = kept
  by_cases h : worker < q.workers
  · calc (q.set worker ((q.queue worker).take kept)).items ++ (q.queue worker).drop kept
        ~ (q.queue worker).drop kept ++ (q.set worker ((q.queue worker).take kept)).items :=
          List.perm_append_comm
      _ ~ (q.queue worker).drop kept ++ ((q.queue worker).take kept ++ q.elsewhere worker) :=
          (items_set_perm h _).append_left _
      _ ~ (q.queue worker).take kept ++ ((q.queue worker).drop kept ++ q.elsewhere worker) :=
          List.perm_append_comm_assoc _ _ _
      _ ~ q.items := by
          rw [← List.append_assoc, List.take_append_drop]
          exact (items_perm h).symm
  · have hnil : q.queue worker = [] := queue_eq_nil_of_le (Nat.le_of_not_lt h)
    rw [hnil, List.take_nil, List.drop_nil, List.append_nil, ← hnil, set_queue]

/-- What is left in the `hand` is put back. -/
theorem items_putBack (h : worker < q.workers) (hand : List α) :
    (q.putBack worker hand).items ~ q.items ++ hand :=
  calc (q.putBack worker hand).items
      ~ q.queue worker ++ hand.reverse ++ q.elsewhere worker := items_set_perm h _
    _ ~ q.queue worker ++ q.elsewhere worker ++ hand.reverse := by
      simp only [List.append_assoc]
      exact List.perm_append_comm.append_left _
    _ ~ q.items ++ hand := (items_perm h).symm.append (List.reverse_perm hand)

/-! ## Taking an item -/

/-- The queues `q'` are `q` with one `item` taken out of one queue. -/
def Removed (q : WorkQueues α) (item : α) (q' : WorkQueues α) : Prop :=
  ∃ worker before after, q.queue worker = before ++ item :: after ∧
    q' = q.set worker (before ++ after)

/-- The first item of a queue is taken out. -/
theorem removed_of_pop? (h : q.pop? worker = some (item, q')) : q.Removed item q' := by
  unfold pop? at h
  split at h
  · cases h
  · next rest hqueue =>
    obtain ⟨rfl, rfl⟩ := Prod.mk.inj (Option.some.inj h)
    exact ⟨worker, [], rest, hqueue, rfl⟩

/-- The last item of a queue is taken out. -/
theorem removed_of_popLast? (h : q.popLast? worker = some (item, q')) : q.Removed item q' := by
  unfold popLast? at h
  split at h
  · cases h
  · next last hlast =>
    obtain ⟨rfl, rfl⟩ := Prod.mk.inj (Option.some.inj h)
    refine ⟨worker, (q.queue worker).dropLast, [], ?_, by rw [List.append_nil]⟩
    exact (List.dropLast_append_getLast? _ hlast).symm

namespace Removed

/-- Taking an item removes no worker. -/
theorem workers_eq (h : q.Removed item q') : q'.workers = q.workers := by
  obtain ⟨worker, before, after, -, rfl⟩ := h
  exact workers_set ..

/-- The items are the one that was taken and those that are left. -/
theorem items_perm_cons (h : q.Removed item q') : q.items ~ item :: q'.items := by
  obtain ⟨worker, before, after, hqueue, rfl⟩ := h
  have hworker : worker < q.workers := lt_of_queue_ne_nil (by simp [hqueue])
  calc q.items
      ~ before ++ item :: after ++ q.elsewhere worker := hqueue ▸ items_perm hworker
    _ ~ item :: (before ++ after ++ q.elsewhere worker) := by
      simp only [List.append_assoc, List.cons_append]
      exact List.perm_middle
    _ ~ item :: (q.set worker (before ++ after)).items := (items_set_perm hworker _).symm.cons item

/-- An empty queue stays empty when an item is `Removed`. -/
theorem queue_eq_nil (h : q.Removed item q') (hempty : q.queue other = []) : q'.queue other = [] := by
  obtain ⟨worker, before, after, hqueue, rfl⟩ := h
  have hworker : worker < q.workers := lt_of_queue_ne_nil (by simp [hqueue])
  rw [queue_set hworker, if_neg, hempty]
  rintro rfl
  simp [hempty] at hqueue

end Removed

/-! ## Imbalances -/

/-- The `fullest` queue is the queue of a worker, and has the depth that is given for it. This holds
of the best choice so far, at each step of the fold. -/
theorem getElem?_of_fullest {depths : List Nat} {depth : Nat}
    (h : fullest depths = some (worker, depth)) : depths[worker]? = some depth := by
  refine List.foldlRecOn
    (motive := fun best => ∀ chosen, best = some chosen → depths[chosen.1]? = some chosen.2)
    depths.zipIdx _ (by simp) (fun best hbest next hnext chosen hchosen => ?_) (worker, depth) h
  obtain ⟨depth', worker'⟩ := next
  have hdepth : depths[worker']? = some depth' := List.mem_zipIdx_iff_getElem?.mp hnext
  dsimp only at hchosen
  split at hchosen
  · obtain rfl := Option.some.inj hchosen
    exact hdepth
  · split at hchosen
    · obtain rfl := Option.some.inj hchosen
      exact hdepth
    · exact hbest chosen hchosen

/-- The workers of an imbalance (`imbalance?`) are workers, and the `source`, whose queue is backed
up, is not among those that starve. -/
theorem imbalance?_bounds {capacity : Nat} {depths : List Nat} {imbalance : Imbalance}
    (h : imbalance? capacity depths = some imbalance) :
    imbalance.source < depths.length ∧
    ∀ worker ∈ imbalance.starving, worker < depths.length ∧ worker ≠ imbalance.source := by
  simp only [imbalance?] at h
  split at h
  · cases h
  · next source depth hfullest =>
    split at h
    · cases h
    · obtain rfl := Option.some.inj h
      refine ⟨(List.getElem?_eq_some_iff.mp (getElem?_of_fullest hfullest)).1, fun worker hworker => ?_⟩
      obtain ⟨⟨depth, worker⟩, hmem, rfl⟩ := List.mem_map.mp hworker
      obtain ⟨hzip, hlow⟩ := List.mem_filter.mp hmem
      obtain ⟨hlt, -⟩ := List.getElem?_eq_some_iff.mp (List.mem_zipIdx_iff_getElem?.mp hzip)
      exact ⟨hlt, (by simpa using hlow : worker ≠ source ∧ _).1⟩

end Detachment.WorkQueues
