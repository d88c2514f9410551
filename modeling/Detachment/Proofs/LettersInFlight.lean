import Mathlib.Algebra.Order.Group.Multiset
import Mathlib.Algebra.BigOperators.Group.Finset.Piecewise
import Detachment.Cluster.Mailboxes

/-! # Letters in flight

Two views of the mailboxes. As a bag, `Mailboxes.inFlight` forgets the order of the letters: sending
adds to it and receiving takes from it. As lines, `Mailboxes.line` keeps the order between two
ranks: sending adds at the end and receiving takes from the front.

* `Mailboxes.inFlight_sendAll` and `Mailboxes.line_sendAll` describe sending.
* `Mailboxes.inFlight_dropFrom` and `Mailboxes.line_dropFrom` describe receiving. -/

namespace Detachment.Cluster

/-- A message on its way from one rank to another. -/
structure Parcel where
  /-- The rank that sent it. -/
  sender : Nat
  /-- The rank that it goes to. -/
  recipient : Nat
  /-- What it says. -/
  message : Message
  deriving DecidableEq

/-- A letter as its `sender` hands it in. -/
def Letter.parcel (sender : Nat) (letter : Letter) : Parcel :=
  ⟨sender, letter.recipient, letter.message⟩

/-- A `circular` goes to every rank but its sender, with the same message. -/
theorem mem_circular {size sender : Nat} {message : Message} {letter : Letter}
    (h : letter ∈ circular size sender message) :
    (letter.recipient < size ∧ letter.recipient ≠ sender) ∧ letter.message = message := by
  obtain ⟨rank, hrank, rfl⟩ := List.mem_map.mp h
  exact ⟨by simpa using hrank, rfl⟩

/-- A `circular` of a rank of the group has one letter less than there are ranks. -/
theorem length_circular {size sender : Nat} (h : sender < size) (message : Message) :
    (circular size sender message).length = size - 1 := by
  have herase : (List.range size).filter (· ≠ sender) = (List.range size).erase sender := by
    simp [List.nodup_range.erase_eq_filter, bne, beq_eq_decide]
  rw [circular, List.length_map, herase, List.length_erase_of_mem (List.mem_range.mpr h),
    List.length_range]

namespace Mailboxes

variable {m : Mailboxes} {letter : Letter} {letters : List Letter} {received : Received}
  {rank sender a b : Nat}

/-! ## Boxes -/

/-- Sending makes no boxes. -/
@[simp]
theorem size_send (m : Mailboxes) (sender : Nat) (letter : Letter) :
    (m.send sender letter).size = m.size :=
  Array.size_modify

/-- Receiving removes no boxes. -/
@[simp]
theorem size_dropFrom (m : Mailboxes) (rank sender : Nat) :
    (m.dropFrom rank sender).size = m.size :=
  Array.size_modify

/-- A letter goes to the end of the box of its recipient (`send`), and the other boxes stay as they
are. -/
theorem box_send (h : letter.recipient < m.size) (sender rank : Nat) :
    (m.send sender letter).box rank =
      if letter.recipient = rank then (m.box rank).push ⟨sender, letter.message⟩
      else m.box rank := by
  simp only [box, send, Array.getD_eq_getD_getElem?, Array.getElem?_modify]
  split
  · next heq =>
    subst heq
    rw [Array.getElem?_eq_getElem h]
    rfl
  · rfl

/-- A message is taken out of the box of its recipient (`dropFrom`), the first one of its sender. -/
theorem box_dropFrom (m : Mailboxes) (rank sender b : Nat) :
    (m.dropFrom rank sender).box b =
      if rank = b then (m.box b).eraseP (·.sender = sender) else m.box b := by
  simp only [box, dropFrom, Array.getD_eq_getD_getElem?, Array.getElem?_modify]
  split
  · cases m.boxes[b]? with
    | none => exact Array.eraseP_empty.symm
    | some box => rfl
  · rfl

/-- The first message of a sender (`firstFrom?`) divides the box of its recipient: none of the
sender stands before it, and `dropFrom` leaves the two parts. -/
theorem firstFrom?_eq_some (h : m.firstFrom? rank sender = some received) :
    received.sender = sender ∧ ∃ before after,
      (m.box rank).toList = before ++ received :: after ∧
      ((m.dropFrom rank sender).box rank).toList = before ++ after ∧
      ∀ other ∈ before, other.sender ≠ sender := by
  rw [firstFrom?, ← Array.find?_toList, List.find?_eq_some_iff_append] at h
  obtain ⟨hsender, before, after, hbox, hbefore⟩ := h
  have hne : ∀ other ∈ before, other.sender ≠ sender := by simpa using hbefore
  have hArray : m.box rank = (before ++ received :: after).toArray := by
    rw [← hbox, Array.toArray_toList]
  have herase : (received :: after).eraseP (fun other => decide (other.sender = sender)) = after :=
    List.eraseP_cons_of_pos hsender
  refine ⟨of_decide_eq_true hsender, before, after, hbox, ?_, hne⟩
  rw [box_dropFrom, if_pos rfl, hArray, List.eraseP_toArray,
    List.eraseP_append_right _ (by simpa using hne), herase]

/-- Only ranks of the group have messages (`firstFrom?`). -/
theorem lt_size_of_firstFrom? (h : m.firstFrom? rank sender = some received) : rank < m.size := by
  obtain ⟨-, before, after, hbox, -, -⟩ := firstFrom?_eq_some h
  by_contra hle
  rw [box, Array.getD_eq_getD_getElem?, Array.getElem?_eq_none (Nat.not_lt.mp hle)] at hbox
  simp at hbox

/-! ## The bag of letters -/

/-- The messages to a rank on their way, as a bag of parcels. -/
def inbox (m : Mailboxes) (rank : Nat) : Multiset Parcel :=
  Multiset.ofList ((m.box rank).toList.map fun received =>
    ⟨received.sender, rank, received.message⟩)

/-- All messages on their way: the `inbox` of every rank. -/
def inFlight (m : Mailboxes) : Multiset Parcel :=
  ∑ rank ∈ Finset.range m.size, m.inbox rank

/-- Changing the messages to one rank (`inbox`) changes the bag `inFlight` accordingly. -/
theorem inFlight_of_inbox {m n : Mailboxes} (hsize : n.size = m.size) (hrank : rank < m.size)
    {parcels : Multiset Parcel}
    (h : ∀ b, n.inbox b = m.inbox b + if b = rank then parcels else 0) :
    n.inFlight = m.inFlight + parcels := by
  rw [inFlight, hsize, Finset.sum_congr rfl fun b _ => h b, Finset.sum_add_distrib,
    Finset.sum_ite_eq', if_pos (Finset.mem_range.mpr hrank), inFlight]

/-- New mailboxes are empty. -/
@[simp]
theorem inFlight_ofSize (size : Nat) : (ofSize size).inFlight = 0 := by
  refine Finset.sum_eq_zero fun rank _ => ?_
  simp only [inbox, box, ofSize, Array.getD_eq_getD_getElem?, Array.getElem?_replicate]
  split <;> rfl

/-- Sending a letter adds it to the bag `inFlight`. -/
theorem inFlight_send (h : letter.recipient < m.size) (sender : Nat) :
    (m.send sender letter).inFlight = m.inFlight + {letter.parcel sender} := by
  refine inFlight_of_inbox (size_send m sender letter) h fun b => ?_
  simp only [inbox, box_send h, Letter.parcel]
  by_cases hb : letter.recipient = b
  · subst hb
    simp only [if_pos, Array.toList_push, List.map_append, List.map_cons, List.map_nil]
    rfl
  · simp only [if_neg hb, if_neg (Ne.symm hb), add_zero]

/-- Receiving a message takes it out of the bag `inFlight`. Only the box of the rank changes
(`inFlight_of_inbox`). -/
theorem inFlight_dropFrom (h : m.firstFrom? rank sender = some received) :
    m.inFlight =
      (m.dropFrom rank sender).inFlight + {⟨sender, rank, received.message⟩} := by
  obtain ⟨hsender, before, after, hbox, hdrop, -⟩ := firstFrom?_eq_some h
  have hlt : rank < (m.dropFrom rank sender).size := by
    rw [size_dropFrom]
    exact lt_size_of_firstFrom? h
  refine inFlight_of_inbox (size_dropFrom m rank sender).symm hlt fun b => ?_
  by_cases hb : b = rank
  · subst hb
    simp only [inbox, hbox, hdrop, List.map_append, List.map_cons, if_pos, hsender]
    simp only [← Multiset.coe_add, ← Multiset.cons_coe]
    rw [Multiset.add_cons, Multiset.add_comm _ {_}, Multiset.singleton_add]
  · simp only [inbox, box_dropFrom, if_neg hb, if_neg (Ne.symm hb), add_zero]

/-- A message that can be read (`firstFrom?`) is on its way. -/
theorem mem_inFlight_of_firstFrom? (h : m.firstFrom? rank sender = some received) :
    ⟨sender, rank, received.message⟩ ∈ m.inFlight := by
  rw [inFlight_dropFrom h]
  exact Multiset.mem_add.mpr (.inr (Multiset.mem_singleton_self _))

/-- The bag `inFlight` holds a message to a rank as often as its box does. The other boxes hold
none, and adding the recipient makes no two messages equal. -/
theorem count_inFlight (hrank : rank < m.size) (sender : Nat) (message : Message) :
    m.inFlight.count ⟨sender, rank, message⟩ = (m.box rank).toList.count ⟨sender, message⟩ := by
  have hother : ∀ b ∈ Finset.range m.size, b ≠ rank →
      (m.inbox b).count ⟨sender, rank, message⟩ = 0 := by
    intro b _ hb
    refine Multiset.count_eq_zero.mpr fun hmem => ?_
    simp only [inbox, Multiset.mem_coe, List.mem_map, Parcel.mk.injEq] at hmem
    obtain ⟨-, -, -, heq, -⟩ := hmem
    exact hb heq
  rw [inFlight, Multiset.count_sum', Finset.sum_eq_single rank hother
    fun hmem => absurd (Finset.mem_range.mpr hrank) hmem]
  -- Nothing gets equal by adding the recipient, so the counts in the box stay the same.
  have hinj : Function.Injective
      fun received : Received => (⟨received.sender, rank, received.message⟩ : Parcel) := by
    rintro ⟨s, msg⟩ ⟨s', msg'⟩ heq
    simp only [Parcel.mk.injEq] at heq
    rw [heq.1, heq.2.2]
  rw [inbox, Multiset.coe_count]
  exact List.count_map_of_injective (m.box rank).toList _ hinj ⟨sender, message⟩

/-! ## Lines -/

/-- The messages from one rank to another in the order in which they were sent, first ones first. -/
def line (m : Mailboxes) (sender rank : Nat) : List Message :=
  ((m.box rank).toList.filter (·.sender = sender)).map (·.message)

/-- What is in a `line` is on its way. -/
theorem mem_inFlight_of_mem_line (hrank : rank < m.size) {message : Message}
    (h : message ∈ m.line sender rank) : ⟨sender, rank, message⟩ ∈ m.inFlight := by
  rw [← Multiset.count_pos, count_inFlight hrank, List.count_pos_iff]
  simp only [line, List.mem_map, List.mem_filter, decide_eq_true_eq] at h
  obtain ⟨⟨s, message⟩, ⟨hmem, rfl⟩, rfl⟩ := h
  exact hmem

/-- A letter goes to the end of the `line` from its sender to its recipient. -/
theorem line_send (h : letter.recipient < m.size) (sender a b : Nat) :
    (m.send sender letter).line a b =
      m.line a b ++ if sender = a ∧ letter.recipient = b then [letter.message] else [] := by
  by_cases hb : letter.recipient = b <;> by_cases ha : sender = a <;>
    simp [line, box_send h, hb, ha]

/-- A message is taken from the front of the `line` from its sender to its recipient: messages
between two ranks never overtake each other. -/
theorem line_dropFrom (h : m.firstFrom? rank sender = some received) (a b : Nat) :
    m.line a b =
      (if sender = a ∧ rank = b then [received.message] else []) ++
        (m.dropFrom rank sender).line a b := by
  obtain ⟨hsender, before, after, hbox, hdrop, hbefore⟩ := firstFrom?_eq_some h
  by_cases hb : rank = b
  · subst hb
    simp only [line, hbox, hdrop, List.filter_append, List.map_append]
    by_cases ha : sender = a
    · subst ha
      -- No message of the sender stands before the first one.
      have hnil : before.filter (fun other => decide (other.sender = sender)) = [] := by
        simpa using hbefore
      simp [hnil, hsender]
    · simp [ha, hsender]
  · simp [line, box_dropFrom, hb]

/-! ## Sending letters in turn -/

/-- Letters to ranks of the group are all carried (`sendAll`): no error, and each is added to the
bag and to its line. The induction is on the letters, with any mailboxes. -/
theorem sendAll_carried (h : ∀ letter ∈ letters, letter.recipient < m.size) (sender : Nat) :
    (m.sendAll sender letters).1 = none ∧ (m.sendAll sender letters).2.size = m.size ∧
    (m.sendAll sender letters).2.inFlight =
      m.inFlight + Multiset.ofList (letters.map (·.parcel sender)) ∧
    ∀ a b, (m.sendAll sender letters).2.line a b =
      m.line a b ++
        if sender = a then (letters.filter (·.recipient = b)).map (·.message) else [] := by
  induction letters generalizing m with
  | nil => exact ⟨rfl, rfl, by simp [sendAll], by simp [sendAll]⟩
  | cons letter rest ih =>
    obtain ⟨hletter, hrest⟩ := List.forall_mem_cons.mp h
    obtain ⟨hnone, hsize, hbag, hline⟩ := @ih (m.send sender letter) (by simpa using hrest)
    rw [sendAll, if_pos hletter]
    refine ⟨hnone, by rw [hsize, size_send], ?_, fun a b => ?_⟩
    · rw [hbag, inFlight_send hletter, add_assoc]
      rfl
    · rw [hline, line_send hletter]
      by_cases ha : sender = a <;> by_cases hb : letter.recipient = b <;> simp [ha, hb]

end Mailboxes

end Detachment.Cluster
