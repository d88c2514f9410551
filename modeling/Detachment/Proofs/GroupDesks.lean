import Detachment.Proofs.DeskReactions

/-! # The desks of a group

What concerns a rank of a group is its state, the letters of its search and its reports that are
still on their way: its desk. Taking a message out of its box and reacting to it change few desks.

* `Group.desk g rank` is the desk of a rank.
* `Group.desk_without` says what taking a message out of its box does, `Group.Reacted.desk` what a
  reaction does; the lemmas after them say this for each kind of message and reaction. -/

namespace Detachment.Cluster

namespace Group

variable {g g' : Group} {rank sender q a : Nat} {r : Reaction} {received : Received}

/-- The desk of a rank: its state, the letters on their way with `Parcel.asker? = some rank`, and
what `Message.report?` reads in its messages to the coordinator. -/
def desk (g : Group) (rank : Nat) : Desk :=
  ⟨g.member rank, g.mail.inFlight.filter (·.asker? = some rank),
    (g.mail.line rank Member.coordinator).filterMap Message.report?⟩

/-- A message that is taken out of a box (`without`) is missing in the `errand` of the rank that
asked for it and, on its way to the coordinator, in the `reports` of its sender. -/
theorem desk_without (h : g.mail.firstFrom? rank sender = some received) (q : Nat) :
    g.desk q =
      ⟨((g.without rank sender).desk q).member,
        ((g.without rank sender).desk q).errand +
          (if (Parcel.mk sender rank received.message).asker? = some q then
            {⟨sender, rank, received.message⟩} else 0),
        (if sender = q ∧ rank = Member.coordinator then received.message.report?.toList else []) ++
          ((g.without rank sender).desk q).reports⟩ := by
  rw [desk, Desk.mk.injEq]
  refine ⟨rfl, ?_, ?_⟩
  · rw [Mailboxes.inFlight_dropFrom h, Multiset.filter_add, Multiset.filter_singleton]
    rfl
  · rw [Mailboxes.line_dropFrom h, List.filterMap_append]
    split
    · cases hreport : received.message.report? <;> simp [hreport, desk, without]
    · rfl

/-- A message of a search, `asker? = some a`, belongs to the `errand` of the desk of `a` and to no
other desk. -/
theorem desk_without_of_asker? (h : g.mail.firstFrom? rank sender = some received)
    (hasker : (Parcel.mk sender rank received.message).asker? = some a) :
    (g.desk a).errand = ((g.without rank sender).desk a).errand +
      {⟨sender, rank, received.message⟩} ∧
    ((g.without rank sender).desk a).reports = (g.desk a).reports ∧
    ∀ q, a ≠ q → (g.without rank sender).desk q = g.desk q := by
  have hreport : received.message.report? = none := Parcel.report?_of_asker? hasker
  refine ⟨?_, ?_, fun q hq => ?_⟩
  · simp [desk_without h a, hasker]
  · simp [desk_without h a, hreport]
  · simp [desk_without h q, hasker, hreport, hq]

/-- A report, `report? = some event`, is the first of the `reports` of its sender and belongs to no
other desk. -/
theorem desk_without_of_report? {event : Event}
    (h : g.mail.firstFrom? Member.coordinator sender = some received)
    (hreport : received.message.report? = some event) :
    (g.desk sender).reports =
      event :: ((g.without Member.coordinator sender).desk sender).reports ∧
    ((g.without Member.coordinator sender).desk sender).errand = (g.desk sender).errand ∧
    ∀ q, sender ≠ q → (g.without Member.coordinator sender).desk q = g.desk q := by
  have hasker : (Parcel.mk sender Member.coordinator received.message).asker? = none :=
    Parcel.asker?_of_report? hreport
  refine ⟨?_, ?_, fun q hq => ?_⟩
  · simp [desk_without h sender, hreport]
  · simp [desk_without h sender, hasker]
  · simp [desk_without h q, hasker, hq]

/-- A message with `asker? = none` and `report? = none` belongs to no desk. -/
theorem desk_without_of_none (h : g.mail.firstFrom? rank sender = some received)
    (hasker : (Parcel.mk sender rank received.message).asker? = none)
    (hreport : received.message.report? = none) (q : Nat) :
    (g.without rank sender).desk q = g.desk q := by
  simp [desk_without h q, hasker, hreport]

/-- The desks after a reaction: the letters of `r` go into the `errand` of the ranks that asked for
them, and reports into the `reports` of `rank`. -/
theorem Reacted.desk (h : g.Reacted rank r g') (q : Nat) :
    g'.desk q =
      ⟨if rank = q then r.member else g.member q,
        (g.desk q).errand +
          (Multiset.ofList (r.letters.map (·.parcel rank))).filter (·.asker? = some q),
        (g.desk q).reports ++ if rank = q then
          (r.letters.filter (·.recipient = Member.coordinator)).filterMap (·.message.report?)
          else []⟩ := by
  simp only [Group.desk, h.member, h.inFlight, h.line, Multiset.filter_add, List.filterMap_append]
  split <;> simp [List.filterMap_map]

/-- The desks after a reaction whose letters all belong to the search of `a`. Such letters are no
reports, so they count for the errand of `a` alone. -/
theorem Reacted.desk_of_asker? (h : g.Reacted rank r g')
    (hletters : ∀ letter ∈ r.letters, (letter.parcel rank).asker? = some a) (q : Nat) :
    g'.desk q =
      ⟨if rank = q then r.member else g.member q,
        (g.desk q).errand +
          if a = q then Multiset.ofList (r.letters.map (·.parcel rank)) else 0,
        (g.desk q).reports⟩ := by
  have hreports : (r.letters.filter (·.recipient = Member.coordinator)).filterMap
      (·.message.report?) = [] := by
    refine List.filterMap_eq_nil_iff.mpr fun letter hletter => ?_
    exact Parcel.report?_of_asker? (hletters letter (List.mem_of_mem_filter hletter))
  have hparcels : ∀ p ∈ Multiset.ofList (r.letters.map (·.parcel rank)), p.asker? = some a := by
    simpa using hletters
  rw [h.desk q, hreports, ite_self, List.append_nil]
  congr 2
  split
  · next heq =>
    subst heq
    exact Multiset.filter_eq_self.mpr hparcels
  · next hne =>
    refine Multiset.filter_eq_nil.mpr fun p hp hasker => hne ?_
    exact Option.some.inj ((hparcels p hp).symm.trans hasker)

/-- A reaction of `rank` whose letters belong to the search of `a` leaves the desks of all ranks
other than `rank` and `a` alone. -/
theorem Reacted.desk_other (h : g.Reacted rank r g')
    (hletters : ∀ letter ∈ r.letters, (letter.parcel rank).asker? = some a) (hrank : rank ≠ q)
    (ha : a ≠ q) : g'.desk q = g.desk q := by
  rw [h.desk_of_asker? hletters, if_neg hrank, if_neg ha, add_zero]
  rfl

/-- A reaction without letters changes the `member` of its own desk and no other desk. -/
theorem Reacted.desk_silent {n : Member} (h : g.Reacted rank (n.goesOn []) g') :
    g'.desk rank = ⟨n, (g.desk rank).errand, (g.desk rank).reports⟩ ∧
    ∀ q, rank ≠ q → g'.desk q = g.desk q := by
  refine ⟨?_, fun q hq => h.desk_other (a := rank) (List.forall_mem_nil _) hq hq⟩
  rw [h.desk_of_asker? (a := rank) (List.forall_mem_nil _), if_pos rfl, if_pos rfl]
  simp [Member.goesOn]

/-- A report to the coordinator goes to the end of the `reports` of its rank. -/
theorem Reacted.desk_of_report? {n : Member} {message : Message} {event : Event}
    (h : g.Reacted rank (n.goesOn [⟨Member.coordinator, message⟩]) g')
    (hreport : message.report? = some event) (q : Nat) :
    g'.desk q = ⟨if rank = q then n else g.member q, (g.desk q).errand,
      (g.desk q).reports ++ if rank = q then [event] else []⟩ := by
  have hasker : (Parcel.mk rank Member.coordinator message).asker? = none :=
    Parcel.asker?_of_report? hreport
  rw [h.desk]
  simp [Member.goesOn, Letter.parcel, hasker, hreport]

/-- An answer to `sender` goes into the `errand` of `sender`. -/
theorem Reacted.desk_of_answer {n : Member} {answer : Message}
    (h : g.Reacted rank (n.goesOn [⟨sender, answer⟩]) g') (hne : sender ≠ rank)
    (hasker : (Parcel.mk rank sender answer).asker? = some sender) :
    g'.desk sender = ⟨g.member sender, (g.desk sender).errand + {⟨rank, sender, answer⟩},
      (g.desk sender).reports⟩ ∧
    g'.desk rank = ⟨n, (g.desk rank).errand, (g.desk rank).reports⟩ ∧
    ∀ q, sender ≠ q → rank ≠ q → g'.desk q = g.desk q := by
  have hletters : ∀ letter ∈ (n.goesOn [⟨sender, answer⟩]).letters,
      (letter.parcel rank).asker? = some sender := by
    simpa [Member.goesOn, Letter.parcel] using hasker
  refine ⟨?_, ?_, fun q hq hq' => h.desk_other hletters hq' hq⟩
  · rw [h.desk_of_asker? hletters, if_neg (Ne.symm hne), if_pos rfl]
    rfl
  · rw [h.desk_of_asker? hletters, if_pos rfl, if_neg hne, add_zero]
    rfl

/-- The desks stay as they are if the state does and all letters have `asker? = none` and
`report? = none`. -/
theorem Reacted.desk_still (h : g.Reacted rank r g') (hmember : r.member = g.member rank)
    (hletters : ∀ letter ∈ r.letters,
      (letter.parcel rank).asker? = none ∧ letter.message.report? = none) (q : Nat) :
    g'.desk q = g.desk q := by
  have hreports : (r.letters.filter (·.recipient = Member.coordinator)).filterMap
      (·.message.report?) = [] :=
    List.filterMap_eq_nil_iff.mpr fun letter hletter =>
      (hletters letter (List.mem_of_mem_filter hletter)).2
  have hparcels : (Multiset.ofList (r.letters.map (·.parcel rank))).filter
      (·.asker? = some q) = 0 := by
    refine Multiset.filter_eq_nil.mpr fun p hp => ?_
    obtain ⟨letter, hletter, rfl⟩ := List.mem_map.mp hp
    rw [(hletters letter hletter).1]
    simp
  rw [h.desk, hreports, hparcels, hmember, ite_self, List.append_nil, add_zero]
  split
  · next heq =>
    subst heq
    rfl
  · rfl

end Group

end Detachment.Cluster
