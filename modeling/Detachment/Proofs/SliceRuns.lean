import Mathlib.Data.List.Perm.Basic
import Detachment.Proofs.SlicePositions

/-! # Calls on a slice

A slice is asked for positions, asked to give its reserve away and, once it is used up, made to take
over another span, in any order and with any arguments. Books are kept on what becomes of each span.

* `Slice.Contiguous` says that the reserve follows the active span and is not empty.
* `Slice.Books.call?` is one call, and `Slice.Books.follow?` any number of them.
* `Slice.Books.Balanced` is what every call keeps.
* `Slice.Books.every_position_once` is the main result. -/

open scoped List

namespace Detachment.Cluster

/-- The positions of a span, in order. -/
def Span.positions (s : Span) : List Nat :=
  List.range' s.first s.size

/-- A position is listed as often as it is held. -/
theorem Span.count_positions (s : Span) (position : Nat) :
    s.positions.count position = s.copies position := by
  rw [positions, List.count_range_1', copies, size]
  refine if_congr ?_ rfl rfl
  rw [mem_def]
  omega

namespace Slice

variable {s t : Slice} {span : Span} {limit : Nat}

/-! ## Active spans and reserves -/

/-- The reserve follows the active span and is not empty, and both end at `limit` or before it. -/
structure Contiguous (limit : Nat) (s : Slice) : Prop where
  /-- The active span does not end before it starts. -/
  first_le : s.active.first ≤ s.active.stop
  /-- The active span ends in time. -/
  stop_le : s.active.stop ≤ limit
  /-- The reserve follows the active span, and has a position. -/
  reserve : ∀ span, s.reserve = some span →
    span.first = s.active.stop ∧ span.first < span.stop ∧ span.stop ≤ limit

/-- A reserve that follows the active span is not empty. -/
theorem Contiguous.tidy (h : s.Contiguous limit) : s.Tidy :=
  fun span hspan => (h.reserve span hspan).2.1

/-- Splitting (`split`) cuts the reserve off the end of the active span. Where nothing is reserved,
the slice stays as it is. -/
theorem Contiguous.split (h : s.Contiguous limit) : s.split.Contiguous limit := by
  unfold Slice.split
  split
  · exact h
  · split
    · exact h
    · next hreserved =>
      have hle := s.reserved_le
      have hfirst := h.first_le
      have hstop := h.stop_le
      rw [Span.size] at hle
      refine ⟨?_, ?_, fun span hspan => ?_⟩
      · show s.active.first ≤ s.active.stop - s.reserved
        omega
      · show s.active.stop - s.reserved ≤ limit
        omega
      · obtain rfl := Option.some.inj hspan
        show s.active.stop - s.reserved = s.active.stop - s.reserved ∧
          s.active.stop - s.reserved < s.active.stop ∧ s.active.stop ≤ limit
        omega

/-- A slice without a reserve is `Contiguous` if its active span is in order. -/
theorem contiguous_of_reserve_eq_none (h : s.reserve = none)
    (hfirst : s.active.first ≤ s.active.stop) (hstop : s.active.stop ≤ limit) :
    s.Contiguous limit :=
  ⟨hfirst, hstop, fun span hspan => by rw [h] at hspan; cases hspan⟩

/-- The slice of a span is `Contiguous` up to the end of the span, or to its start if that is
later. -/
theorem contiguous_ofSpan (span : Span) (sharing : Sharing) :
    (ofSpan span sharing).Contiguous (max span.stop span.first) := by
  refine Contiguous.split (contiguous_of_reserve_eq_none rfl ?_ ?_)
  · exact Nat.le_max_right _ _
  · exact Nat.le_refl _

/-- Handing out an active position (`advance`) moves the start of the active span. -/
theorem Contiguous.advance (h : s.Contiguous limit) (hactive : s.active.first < s.active.stop) :
    s.advance.2.Contiguous limit :=
  ⟨hactive, h.stop_le, h.reserve⟩

/-- Handing out a position (`next?`) keeps a slice `Contiguous`. It advances the active span, which
may have been the reserve. -/
theorem Contiguous.next? (h : s.Contiguous limit) {position : Nat}
    (hnext : s.next? = some (position, t)) : t.Contiguous limit := by
  unfold Slice.next? at hnext
  split at hnext
  · next hactive =>
    obtain rfl := (Prod.mk.inj (Option.some.inj hnext)).2
    exact h.advance hactive
  · split at hnext
    · cases hnext
    · next span hreserve =>
      obtain rfl := (Prod.mk.inj (Option.some.inj hnext)).2
      -- The reserve becomes active and is split before a position of it is handed out.
      obtain ⟨-, hspan, hlimit⟩ := h.reserve span hreserve
      have htaken : ({ s with active := span, reserve := none } : Slice).Contiguous limit :=
        contiguous_of_reserve_eq_none rfl (Nat.le_of_lt hspan) hlimit
      exact htaken.split.advance (split_active_pos hspan)

/-- Giving the reserve away (`grant`) keeps a slice `Contiguous`. -/
theorem Contiguous.grant (h : s.Contiguous limit) (span : Span) :
    (s.grant span).2.Contiguous limit := by
  unfold Slice.grant
  split
  · have hfree : ({ s with reserve := none } : Slice).Contiguous limit :=
      contiguous_of_reserve_eq_none rfl h.first_le h.stop_le
    exact hfree.split
  · exact h

/-- Positions are handed out by `next?` as long as any are left. The reserve is taken when the
active span has none. -/
theorem next?_eq_none_iff : s.next? = none ↔ s.active.positions = [] ∧ s.reserve = none := by
  have hempty : s.active.positions = [] ↔ ¬s.active.first < s.active.stop := by
    rw [Span.positions, List.range'_eq_nil_iff, Span.size]
    omega
  rw [hempty, Slice.next?]
  split
  · next hactive => simp [hactive]
  · next hactive =>
    cases hreserve : s.reserve with
    | none => simp [hactive]
    | some span => simp

/-! ## Books -/

/-- A call on a slice. -/
inductive Call where
  /-- Ask for the next position. -/
  | next
  /-- Ask for a span to be given away. -/
  | grant (span : Span)
  /-- Have a span taken over. -/
  | adopt (span : Span)
  deriving DecidableEq, Repr

/-- The span that a call has taken over, if it is `.adopt`. -/
def Call.adopted? : Call → Option Span
  | adopt span => some span
  | _ => none

/-- What became of a span: which of its positions were handed out one by one, and which given away
in spans. -/
structure Account where
  /-- The span. -/
  span : Span
  /-- The positions that were handed out. -/
  handedOut : List Nat
  /-- The spans that were given away. -/
  given : List Span
  deriving DecidableEq, Repr

/-- The positions of a span that were handed out or given away, each as often as it was. -/
def Account.gone (a : Account) : List Nat :=
  a.handedOut ++ a.given.flatMap Span.positions

/-- A slice and what became of its spans, with one `Account` for each. -/
structure Books where
  /-- The slice. -/
  slice : Slice
  /-- The account of the span that the slice has now. -/
  current : Account
  /-- The accounts of the spans before, first ones first. -/
  past : List Account
  deriving DecidableEq, Repr

namespace Books

variable {b c : Books} {call : Call} {calls : List Call}

/-- The books on the slice of a span, before any call. -/
def start (span : Span) (sharing : Sharing) : Books :=
  ⟨ofSpan span sharing, ⟨span, [], []⟩, []⟩

/-- Ask for the next position (`next?`) and write it down. -/
def next (b : Books) : Books :=
  match b.slice.next? with
  | none => b
  | some (position, slice) =>
    ⟨slice, { b.current with handedOut := b.current.handedOut ++ [position] }, b.past⟩

/-- Ask for a span to be given away (`Slice.grant`), and write it down if it was. -/
def grant (b : Books) (span : Span) : Books :=
  match b.slice.grant span with
  | (false, slice) => { b with slice }
  | (true, slice) => ⟨slice, { b.current with given := b.current.given ++ [span] }, b.past⟩

/-- Have a span taken over (`Slice.adopt?`) and open an account for it. None as long as positions
are left. -/
def adopt? (b : Books) (span : Span) : Option Books :=
  (b.slice.adopt? span).map fun slice => ⟨slice, ⟨span, [], []⟩, b.past ++ [b.current]⟩

/-- Make a call: `next`, `grant` or `adopt?`. -/
def call? (b : Books) : Call → Option Books
  | .next => some b.next
  | .grant span => some (b.grant span)
  | .adopt span => b.adopt? span

/-- Make calls in turn (`call?`), if they all can be made. -/
def follow? (b : Books) (calls : List Call) : Option Books :=
  calls.foldlM call? b

/-- The accounts of all spans, first ones first. -/
def accounts (b : Books) : List Account :=
  b.past ++ [b.current]

/-! ## Balance -/

/-- Every position of a span is in one place: it was handed out or given away (`Account.gone`), or
it is left (`Slice.copies`). -/
structure Balanced (b : Books) : Prop where
  contiguous : b.slice.Contiguous (max b.current.span.stop b.current.span.first)
  current : ∀ position, b.current.gone.count position + b.slice.copies position =
    b.current.span.copies position
  past : ∀ a ∈ b.past, ∀ position, a.gone.count position = a.span.copies position

/-- At first all positions are left. -/
theorem balanced_start (span : Span) (sharing : Sharing) : (start span sharing).Balanced where
  contiguous := contiguous_ofSpan span sharing
  current position := by
    rw [start, copies_ofSpan]
    exact Nat.zero_add _
  past := List.forall_mem_nil _

/-- A position that is handed out moves from the slice to the account (`copies_next?`). What the
account counts as `gone` grows by this position. -/
theorem Balanced.next (h : b.Balanced) : b.next.Balanced := by
  unfold Books.next
  split
  · exact h
  · next position slice hnext =>
    obtain ⟨-, hcopies⟩ := copies_next? h.contiguous.tidy hnext
    refine ⟨h.contiguous.next? hnext, fun p => ?_, h.past⟩
    -- The slice has one copy of the position less, and the account one more.
    have hbalance := h.current p
    rw [hcopies p] at hbalance
    simp only [Account.gone, List.count_append, List.count_singleton, beq_iff_eq,
      eq_comm (a := position) (b := p)] at hbalance ⊢
    omega

/-- A span that is given away moves from the slice to the account (`copies_grant`). A span that is
refused changes nothing (`eq_of_grant`). -/
theorem Balanced.grant (h : b.Balanced) (span : Span) : (b.grant span).Balanced := by
  have hcontiguous := h.contiguous.grant span
  unfold Books.grant
  split
  · next slice hgrant =>
    rw [hgrant] at hcontiguous
    rw [eq_of_grant hgrant] at hcontiguous ⊢
    exact ⟨hcontiguous, h.current, h.past⟩
  · next slice hgrant =>
    rw [hgrant] at hcontiguous
    refine ⟨hcontiguous, fun p => ?_, h.past⟩
    have hbalance := h.current p
    rw [(copies_grant hgrant).2 p, ← Span.count_positions] at hbalance
    simp only [Account.gone, List.flatMap_append, List.flatMap_singleton, List.count_append]
      at hbalance ⊢
    omega

/-- When a span is taken over, the account of the one before is closed: the slice is used up, so all
its positions are gone. -/
theorem Balanced.adopt? (h : b.Balanced) {span : Span} (hc : b.adopt? span = some c) :
    c.Balanced := by
  obtain ⟨slice, hadopt, rfl⟩ := Option.map_eq_some_iff.mp hc
  rw [Slice.adopt?] at hadopt
  split at hadopt
  · next husedUp =>
    obtain rfl := Option.some.inj hadopt
    -- Nothing is left of the span before, so that its account has every position.
    have hstart := balanced_start span b.slice.sharing
    refine ⟨hstart.contiguous, hstart.current, fun a ha position => ?_⟩
    rcases List.mem_append.mp ha with ha | ha
    · exact h.past a ha position
    · obtain rfl := List.mem_singleton.mp ha
      have hbalance := h.current position
      rwa [copies_of_isUsedUp husedUp] at hbalance
  · cases hadopt

/-- The step lemma: every call (`call?`) keeps the books `Balanced`. -/
theorem Balanced.call? (h : b.Balanced) (hc : b.call? call = some c) : c.Balanced := by
  cases call with
  | next =>
    obtain rfl := Option.some.inj hc
    exact h.next
  | grant span =>
    obtain rfl := Option.some.inj hc
    exact h.grant span
  | adopt span => exact h.adopt? hc

/-- The run lemma: any number of calls (`follow?`) keep the books `Balanced`. -/
theorem Balanced.follow? (h : b.Balanced) (hc : b.follow? calls = some c) : c.Balanced := by
  induction calls generalizing b with
  | nil =>
    obtain rfl := Option.some.inj hc
    exact h
  | cons call calls ih =>
    obtain ⟨next, hnext, hrest⟩ := Option.bind_eq_some_iff.mp hc
    exact ih (h.call? hnext) hrest

/-! ## Accounts -/

/-- A call opens an account for the span that it has taken over (`adopted?`), and no other. Only
`adopt` opens one. -/
theorem spans_call? (hc : b.call? call = some c) :
    c.accounts.map (·.span) = b.accounts.map (·.span) ++ call.adopted?.toList := by
  cases call with
  | next =>
    obtain rfl := Option.some.inj hc
    unfold Books.next accounts Call.adopted?
    split <;> simp
  | grant span =>
    obtain rfl := Option.some.inj hc
    unfold Books.grant accounts Call.adopted?
    split <;> simp
  | adopt span =>
    obtain ⟨slice, -, rfl⟩ := Option.map_eq_some_iff.mp hc
    simp [accounts, Call.adopted?]

/-- There is one account for each span that was taken over, in this order. -/
theorem spans_follow? (hc : b.follow? calls = some c) :
    c.accounts.map (·.span) = b.accounts.map (·.span) ++ calls.filterMap Call.adopted? := by
  induction calls generalizing b with
  | nil =>
    obtain rfl := Option.some.inj hc
    exact (List.append_nil _).symm
  | cons call calls ih =>
    obtain ⟨next, hnext, hrest⟩ := Option.bind_eq_some_iff.mp hc
    rw [ih hrest, spans_call? hnext, List.append_assoc]
    congr 1
    cases h : call.adopted? <;> simp [h]

/-- The active span and the reserve (`offered`) have the positions that are left. -/
theorem count_left (s : Slice) (position : Nat) :
    (s.active.positions ++ s.offered.positions).count position = s.copies position := by
  rw [List.count_append, Span.count_positions, Span.count_positions, copies, offered]
  cases s.reserve with
  | none => rfl
  | some span => rfl

/-- Whatever calls were made (`follow?`), every position of every span is in one place: it was
handed out or given away (`gone`), once and not both, or it is in the active span or in the reserve,
of which nothing is left for the spans before the last one. The reserve follows the active span and
is not empty (`Contiguous`), and neither goes beyond the end of the span that the slice was made
for. Positions are handed out as long as any are left, and afterwards another span can be taken
over. -/
theorem every_position_once {span : Span} {sharing : Sharing}
    (hb : (start span sharing).follow? calls = some b) :
    b.accounts.map (·.span) = span :: calls.filterMap Call.adopted? ∧
    (b.current.gone ++ (b.slice.active.positions ++ b.slice.offered.positions) ~
      b.current.span.positions) ∧
    (∀ a ∈ b.past, a.gone ~ a.span.positions) ∧
    b.slice.Contiguous (max b.current.span.stop b.current.span.first) ∧
    (b.slice.next? = none ↔ b.slice.active.positions = [] ∧ b.slice.reserve = none) ∧
    (b.slice.next? = none → ∀ other, (b.adopt? other).isSome) := by
  have hbalanced := (balanced_start span sharing).follow? hb
  refine ⟨spans_follow? hb, ?_, fun a ha => ?_, hbalanced.contiguous, next?_eq_none_iff,
    fun hnext other => ?_⟩
  · refine List.perm_iff_count.mpr fun position => ?_
    rw [List.count_append, count_left, hbalanced.current, Span.count_positions]
  · refine List.perm_iff_count.mpr fun position => ?_
    rw [hbalanced.past a ha, Span.count_positions]
  · rw [adopt?, adopt?_of_isUsedUp (isUsedUp_of_next? hnext)]
    rfl

/-- Calls that give the first reserve away, take the second one back and go on with another span. -/
def mixedCalls : List Call :=
  [.next, .grant ⟨1, 2⟩, .grant ⟨3, 6⟩, .next, .next, .next, .adopt ⟨10, 13⟩, .next]

/-- Nothing is left of six positions, and two are left of three others. -/
theorem every_position_once_mixed :
    ∃ b, (start ⟨0, 6⟩ ⟨2, 2⟩).follow? mixedCalls = some b ∧
      b.accounts = [⟨⟨0, 6⟩, [0, 1, 2], [⟨3, 6⟩]⟩, ⟨⟨10, 13⟩, [10], []⟩] ∧
      (b.current.gone ++ (b.slice.active.positions ++ b.slice.offered.positions) ~
        b.current.span.positions) ∧
      ∀ a ∈ b.past, a.gone ~ a.span.positions := by
  have hb : (start ⟨0, 6⟩ ⟨2, 2⟩).follow? mixedCalls =
      some ⟨⟨⟨11, 12⟩, some ⟨12, 13⟩, ⟨2, 2⟩⟩, ⟨⟨10, 13⟩, [10], []⟩,
        [⟨⟨0, 6⟩, [0, 1, 2], [⟨3, 6⟩]⟩]⟩ := by decide
  obtain ⟨-, hcurrent, hpast, -⟩ := every_position_once hb
  exact ⟨_, hb, rfl, hcurrent, hpast⟩

end Books

end Slice

end Detachment.Cluster
