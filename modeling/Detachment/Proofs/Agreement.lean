import Detachment.Proofs.Requests

/-! # Collections that know the same

What a round finds depends on the axioms, on the limit for necessitations and on what is known. The
filter only matters at the lengths of the round.

* `Collection.Agree` says that two collections know the same.
* `Collection.Agree.round` and `Collection.Agree.leads` say that rounds keep this where the filters
  of the two collections do the same.
* `Collection.collectUpTo_withHistory` says that collections which differ in their history alone go
  on alike. -/

namespace Detachment.Collection

variable {c d c' d' : Collection} {lengths : List Nat} {rounds more : List (List Nat)} {β : Type}

/-- Two collections that know the same: they share the axioms, the limit for necessitations, the
table and the registry. The filter, the number of workers and the history may differ. -/
structure Agree (c d : Collection) : Prop where
  basis : d.basis = c.basis
  necessitation : d.settings.necessitation = c.settings.necessitation
  table : d.table = c.table
  registry : d.registry = c.registry

/-- Two such collections have the same `knownLimit`, which is read off the table. -/
theorem Agree.knownLimit (h : c.Agree d) : d.knownLimit = c.knownLimit :=
  congrArg Representatives.knownLimit h.table

/-- Two such collections have the same lengths ahead, `nextLengths target`. -/
theorem Agree.nextLengths (h : c.Agree d) (target : Nat) :
    d.nextLengths target = c.nextLengths target := by
  rw [Collection.nextLengths, h.knownLimit, h.necessitation, Collection.nextLengths]

/-- Two such collections find the same before they filter: `triedRegistry` reads neither the filter
nor the history. -/
theorem Agree.triedRegistry (h : c.Agree d) (lengths : List Nat) :
    d.triedRegistry lengths = c.triedRegistry lengths := by
  simp only [Collection.triedRegistry, tryCandidates, necessitations, grammar, h.knownLimit, h.basis,
    h.necessitation, h.table, h.registry]

/-- A round publishes what is registered after it, `withLengths [length]` for each of its lengths in
turn. -/
theorem table_round (c : Collection) (lengths : List Nat) :
    (c.round lengths).2.table = lengths.foldl (fun t length =>
      t.publish length (proofsOf ((c.round lengths).2.registry.withLengths [length]))) c.table :=
  rfl

/-- The step lemma for `Agree`: a round keeps it, if `appliesTo` says the same for both filters at
all lengths of the round. -/
theorem Agree.round (h : c.Agree d) (hfilter : ∀ length ∈ lengths,
      d.settings.filter.appliesTo length = c.settings.filter.appliesTo length) :
    (c.round lengths).2.Agree (d.round lengths).2 := by
  have hregistry : (d.round lengths).2.registry = (c.round lengths).2.registry := by
    refine Registry.ext_get? fun key e => ?_
    rw [get?_round, get?_round, h.triedRegistry]
    refine and_congr_right fun _ => not_congr (and_congr_right fun hlength => ?_)
    rw [hfilter _ hlength]
  refine ⟨h.basis, h.necessitation, ?_, hregistry⟩
  rw [table_round, hregistry, h.table, table_round]

/-- The run lemma for `Agree`: rounds keep it by induction on `Leads`, if both filters do the same
at all lengths in `rounds.flatten`. -/
theorem Agree.leads (h : c.Agree d) (hc : c.Leads rounds c') (hd : d.Leads rounds d')
    (hfilter : ∀ length ∈ rounds.flatten,
      d.settings.filter.appliesTo length = c.settings.filter.appliesTo length) :
    c'.Agree d' := by
  induction hc generalizing d with
  | done c =>
    cases hd
    exact h
  | next hvalid hrest ih =>
    cases hd with
    | next hvalid' hrest' =>
      rw [List.flatten_cons] at hfilter
      exact ih (h.round fun length hmem => hfilter length (List.mem_append_left _ hmem)) hrest'
        fun length hmem => hfilter length (List.mem_append_right _ hmem)

/-- Rounds `rounds ++ more` are those of `rounds`, which lead to some collection, and from there
those of `more`. -/
theorem Leads.of_append (h : c.Leads (rounds ++ more) d) :
    ∃ c', c.Leads rounds c' ∧ c'.Leads more d := by
  induction rounds generalizing c with
  | nil => exact ⟨c, .done c, h⟩
  | cons lengths rest ih =>
    cases h with
    | next hvalid hrest =>
      obtain ⟨c', hleads, hmore⟩ := ih hrest
      exact ⟨c', .next hvalid hleads, hmore⟩

/-- Collecting up to a target keeps `Agree`, if both requests succeed and the filters are the same.
Observers and cancellation may differ: they matter only to requests that fail. -/
theorem Agree.serve (h : c.Agree d) (hfilter : d.settings.filter = c.settings.filter) {target : Nat}
    {strategy : Strategy} {cancelled cancelled' : Bool} {observer observer' : Observer}
    (hok : (c.serve (.upTo target strategy cancelled observer)).1.isOk)
    (hok' : (d.serve (.upTo target strategy cancelled' observer')).1.isOk) :
    (c.serve (.upTo target strategy cancelled observer)).2.Agree
      (d.serve (.upTo target strategy cancelled' observer')).2 := by
  have hleads := leads_serve hok
  have hleads' := leads_serve hok'
  rw [Request.rounds, h.nextLengths] at hleads'
  exact h.leads hleads hleads' fun length _ => by rw [hfilter]

/-! ## Other histories -/

/-- The collection with another `history`; nothing else changes. -/
def withHistory (c : Collection) (history : List RoundReport) : Collection := { c with history }

/-- What rounds led to, with another `history` in the collection. -/
def Progress.withHistory (p : Progress β) (history : List RoundReport) : Progress β :=
  { p with collection := p.collection.withHistory history }

/-- An observer that takes no notice of the history: it answers the same for `c.withHistory history`
as for `c`. -/
def IgnoresHistory (observe : β → Collection → RoundReport → Except Error Unit × β) : Prop :=
  ∀ state c history report, observe state (c.withHistory history) report = observe state c report

variable {observe : β → Collection → RoundReport → Except Error Unit × β}

/-- Collections that `Agree` and have equal settings differ in their history alone,
`d = c.withHistory d.history`. -/
theorem Agree.eq_withHistory (h : c.Agree d) (hsettings : d.settings = c.settings) :
    d = c.withHistory d.history := by
  obtain ⟨basis, settings, table, registry, history⟩ := d
  obtain ⟨rfl, -, rfl, rfl⟩ := h
  cases hsettings
  rfl

/-- A round reads nothing of the history: it gives the same report, and adds it to the end of
whatever history there was. -/
theorem round_withHistory (c : Collection) (history : List RoundReport) (lengths : List Nat) :
    (c.withHistory history).round lengths = ((c.round lengths).1,
      (c.round lengths).2.withHistory (history ++ [(c.round lengths).1])) :=
  rfl

/-- Rounds go alike after any history, by induction on the rounds; the history after them is
`history'`, and everything else is as `runRounds` gives it for `c`. -/
theorem runRounds_withHistory (hignores : IgnoresHistory observe) (cancelled : Bool) (state : β)
    (done : List RoundReport) (rounds : List (List Nat)) (c : Collection)
    (history : List RoundReport) :
    ∃ history', runRounds observe cancelled (c.withHistory history) state done rounds =
      (runRounds observe cancelled c state done rounds).withHistory history' := by
  induction rounds generalizing c history state done with
  | nil => exact ⟨history, rfl⟩
  | cons lengths rest ih =>
    cases cancelled with
    | true => exact ⟨history, rfl⟩
    | false =>
      -- Both take the round or both refuse it, and the observer says the same of both.
      by_cases hvalid : c.validLengths lengths
      · have hvalid' : (c.withHistory history).validLengths lengths := hvalid
        have hsame := hignores state (c.round lengths).2 (history ++ [(c.round lengths).1])
          (c.round lengths).1
        rcases hobserve : observe state (c.round lengths).2 (c.round lengths).1 with ⟨e | _, state'⟩
        · refine ⟨history ++ [(c.round lengths).1], ?_⟩
          simp only [runRounds, Bool.false_eq_true, if_false, collectRound_of_validLengths hvalid,
            collectRound_of_validLengths hvalid', round_withHistory, hsame, hobserve]
          rfl
        · rw [hobserve] at hsame
          rw [runRounds_cons hvalid hobserve, runRounds_cons hvalid' hsame, round_withHistory]
          exact ih _ _ _ _
      · have hvalid' : ¬(c.withHistory history).validLengths lengths := hvalid
        refine ⟨history, ?_⟩
        simp only [runRounds, Bool.false_eq_true, if_false, collectRound_of_not_validLengths hvalid,
          collectRound_of_not_validLengths hvalid']
        rfl

/-- Collecting up to a target goes alike after any history. Both the reports and the state of the
observer are those of `collectUpTo` for `c`. -/
theorem collectUpTo_withHistory (hignores : IgnoresHistory observe) (c : Collection)
    (history : List RoundReport) (target : Nat) (strategy : Strategy) (cancelled : Bool) (state : β) :
    ∃ history', (c.withHistory history).collectUpTo target strategy cancelled observe state =
      (c.collectUpTo target strategy cancelled observe state).withHistory history' :=
  runRounds_withHistory hignores cancelled state [] _ c history

end Detachment.Collection
