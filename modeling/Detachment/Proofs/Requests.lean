import Detachment.Proofs.Enumeration

/-! # Requests

A collection serves requests one after another, for single rounds and for all rounds up to a target.
A request may be refused, cancelled, or stopped half-way by whoever observes its rounds.

* `Collection.Leads` says that some rounds lead from one collection to another. Every request leads
  on by rounds (`Collection.exists_leads_serve`), and one that succeeds by all rounds it asks for
  (`Collection.leads_serve`).
* `Collection.Leads.consistent` and `Collection.Leads.row_eq` say what rounds keep.
* `Collection.serveAll_invariant` says what holds of a collection after any requests. -/

namespace Detachment.Collection

/-- Somebody who is told of every round and may object to going on, with a state of any type. -/
structure Observer where
  /-- What the observer has in mind. -/
  State : Type
  /-- What the observer has in mind at first. -/
  start : State
  /-- What the observer makes of a round. -/
  observe : State → Collection → RoundReport → Except Error Unit × State

/-- The observer without objections, who has nothing in mind. -/
def Observer.content : Observer :=
  ⟨Unit, (), fun _ _ _ => (.ok (), ())⟩

/-- What a collection can be asked for: the two entry points of `Collection`, with their
arguments. -/
inductive Request where
  /-- One round. -/
  | round (lengths : List Nat) (cancelled : Bool)
  /-- All rounds up to a target. -/
  | upTo (target : Nat) (strategy : Strategy) (cancelled : Bool) (observer : Observer)

/-- Whether a request was cancelled before it is served. -/
def Request.isCancelled : Request → Bool
  | round _ cancelled => cancelled
  | upTo _ _ cancelled _ => cancelled

/-- The rounds that the collection `c` is asked for. -/
def Request.rounds (c : Collection) : Request → List (List Nat)
  | round lengths _ => [lengths]
  | upTo target strategy _ _ => strategy.rounds (c.nextLengths target)

/-- Serve a request (`collectRound`, `collectUpTo`): what came of it, and the collection
afterwards. -/
def serve (c : Collection) : Request → Except Error (List RoundReport) × Collection
  | .round lengths cancelled =>
    match c.collectRound lengths cancelled with
    | .ok (report, c) => (.ok [report], c)
    | .error e => (.error e, c)
  | .upTo target strategy cancelled observer =>
    let progress := c.collectUpTo target strategy cancelled observer.observe observer.start
    (progress.outcome, progress.collection)

/-- Serve requests in turn, whatever comes of them; only the collection is carried on. -/
def serveAll (c : Collection) (requests : List Request) : Collection :=
  requests.foldl (fun c request => (c.serve request).2) c

/-- Whether all requests succeed when they are served in turn. -/
def succeeds (c : Collection) : List Request → Bool
  | [] => true
  | request :: rest => (c.serve request).1.isOk && (c.serve request).2.succeeds rest

/-- The rounds of requests that succeed, each seen from the collection that it is served in. -/
def roundsOf (c : Collection) : List Request → List (List Nat)
  | [] => []
  | request :: rest => request.rounds c ++ (c.serve request).2.roundsOf rest

variable {basis : Basis} {settings : Settings} {c d : Collection} {lengths : List Nat}
  {rounds : List (List Nat)}

/-! ## Rounds in turn -/

/-- Some rounds lead from one collection to another; each continues the lengths before it
(`validLengths`). -/
inductive Leads : Collection → List (List Nat) → Collection → Prop
  | done (c : Collection) : Leads c [] c
  | next {c d : Collection} {lengths : List Nat} {rest : List (List Nat)}
    (hvalid : c.validLengths lengths) (hrest : Leads (c.round lengths).2 rest d) :
    Leads c (lengths :: rest) d

/-- Rounds one after the other. -/
theorem Leads.append {e : Collection} {more : List (List Nat)} (h : c.Leads rounds d)
    (hmore : d.Leads more e) : c.Leads (rounds ++ more) e := by
  induction h with
  | done c => exact hmore
  | next hvalid _ ih => exact .next hvalid (ih hmore)

/-- Rounds keep the axioms. -/
theorem Leads.basis_eq (h : c.Leads rounds d) : d.basis = c.basis := by
  induction h with
  | done c => rfl
  | next _ _ ih => exact ih

/-- Rounds keep the settings. -/
theorem Leads.settings_eq (h : c.Leads rounds d) : d.settings = c.settings := by
  induction h with
  | done c => rfl
  | next _ _ ih => exact ih

/-- Lengths that pass the check `increasing` satisfy `Pairwise (· < ·)`. -/
theorem sorted_of_increasing {lengths : List Nat} (h : increasing lengths = true) :
    lengths.Pairwise (· < ·) := by
  rw [← List.isChain_iff_pairwise]
  induction lengths with
  | nil => exact .nil
  | cons a rest ih =>
    cases rest with
    | nil => exact .singleton a
    | cons b rest =>
      rw [increasing, Bool.and_eq_true, decide_eq_true_eq] at h
      exact .cons_cons h.1 (ih h.2)

/-- Lengths that pass the check `validLengths` continue a consistent collection (`Continues`). The
steps between them are a matter of parity, by `sub_mod_step_iff`. -/
theorem exists_continues (h : c.Consistent) (hvalid : c.validLengths lengths) :
    ∃ last, c.Continues lengths last := by
  rw [validLengths, Bool.and_eq_true, Bool.and_eq_true, List.all_eq_true, Bool.not_eq_true',
    List.isEmpty_eq_false_iff] at hvalid
  obtain ⟨⟨hne, hincreasing⟩, hall⟩ := hvalid
  have hlength : ∀ length ∈ lengths, c.knownLimit < length ∧
      canHaveLength c.settings.necessitation.isEnabled length := by
    intro length hmem
    have hspec := hall length hmem
    rw [Bool.and_eq_true, decide_eq_true_eq, beq_iff_eq] at hspec
    exact ⟨hspec.1, (sub_mod_step_iff h.parity hspec.1).mp hspec.2⟩
  have hlast := List.getLast_mem hne
  refine ⟨lengths.getLast hne, ?_, hlast, fun length hmem => ⟨(hlength length hmem).1, ?_⟩,
    (hlength _ hlast).2⟩
  · rw [List.getLastD_eq_getLast?, List.getLast?_eq_some_getLast hne, Option.getD_some]
  · exact ((sorted_of_increasing hincreasing).imp Nat.le_of_lt).rel_getLast hmem

/-- What a round keeps true of consistent collections holds after all rounds: the run lemma for all
invariants of `Leads`. -/
theorem Leads.induction {P : Collection → Prop}
    (hround : ∀ c lengths last, c.Consistent → c.Continues lengths last → P c →
      P (c.round lengths).2)
    (h : c.Consistent) (hstart : P c) (hleads : c.Leads rounds d) : d.Consistent ∧ P d := by
  induction hleads with
  | done c => exact ⟨h, hstart⟩
  | next hvalid _ ih =>
    obtain ⟨last, hcontinues⟩ := exists_continues h hvalid
    exact ih (h.round hcontinues) (hround _ _ last h hcontinues hstart)

/-- Rounds keep a collection `Consistent`. -/
theorem Leads.consistent (hleads : c.Leads rounds d) (h : c.Consistent) : d.Consistent :=
  (hleads.induction (P := Consistent) (fun _ _ _ h hcontinues _ => h.round hcontinues) h h).1

/-- Rounds never change the rows that are known before them, up to `knownLimit`. By
`Leads.induction`: a round writes the rows of its lengths, which are longer. -/
theorem Leads.row_eq (hleads : c.Leads rounds d) (h : c.Consistent) {length : Nat}
    (hlength : length ≤ c.knownLimit) : d.table.row length = c.table.row length := by
  have hround : ∀ (e : Collection) lengths last, e.Consistent → e.Continues lengths last →
      c.knownLimit ≤ e.knownLimit ∧ e.table.row length = c.table.row length →
      c.knownLimit ≤ (e.round lengths).2.knownLimit ∧
        (e.round lengths).2.table.row length = c.table.row length := by
    rintro e lengths last - hcontinues ⟨hle, hrow⟩
    have hlast := (hcontinues.bounds last hcontinues.last_mem).1
    have hnew : length ∉ lengths := by
      intro hmem
      have := (hcontinues.bounds length hmem).1
      omega
    rw [knownLimit_round hcontinues, row_round, if_neg hnew]
    exact ⟨by omega, hrow⟩
  exact (hleads.induction hround h ⟨Nat.le_refl _, rfl⟩).2.2

/-! ## Serving requests -/

section runRounds

variable {β : Type} {observe : β → Collection → RoundReport → Except Error Unit × β}
  {cancelled : Bool} {state : β} {done : List RoundReport} {target : Nat}

/-- Whatever stops a run (`runRounds`), some of its rounds led to its collection. By induction on
the rounds, each of which is cancelled, refused, objected to or done. -/
theorem exists_leads_runRounds :
    ∃ some, c.Leads some (runRounds observe cancelled c state done rounds).collection := by
  induction rounds generalizing c state done with
  | nil => exact ⟨[], .done c⟩
  | cons lengths rest ih =>
    cases cancelled with
    | true => exact ⟨[], .done c⟩
    | false =>
      by_cases hvalid : c.validLengths lengths
      · rcases hobserve : observe state (c.round lengths).2 (c.round lengths).1 with
          ⟨_ | _, state'⟩
        · have hcollect := collectRound_of_validLengths hvalid
          refine ⟨[lengths], ?_⟩
          simp only [runRounds, Bool.false_eq_true, if_false, hcollect, hobserve]
          exact .next hvalid (.done _)
        · rw [runRounds_cons hvalid hobserve]
          obtain ⟨some, hsome⟩ := ih
          exact ⟨lengths :: some, .next hvalid hsome⟩
      · refine ⟨[], ?_⟩
        rw [runRounds, if_neg Bool.false_ne_true, collectRound_of_not_validLengths hvalid]
        exact .done c

/-- A run that is not stopped goes through all its rounds (`Leads`). -/
theorem leads_runRounds {reports : List RoundReport}
    (hok : (runRounds observe cancelled c state done rounds).outcome = .ok reports) :
    c.Leads rounds (runRounds observe cancelled c state done rounds).collection := by
  induction rounds generalizing c state done with
  | nil => exact .done c
  | cons lengths rest ih =>
    obtain ⟨hvalid, state', -, hrest⟩ := runRounds_cons_of_ok hok
    rw [hrest] at hok ⊢
    exact .next hvalid (ih hok)

/-- Nothing but a cancellation or the observer stops a `Plan`: its lengths are never refused. By
induction on the rounds, as a plan stays one (`Plan.next`). -/
theorem error_of_runRounds {e : Error} (h : c.Consistent) (hplan : c.Plan rounds target)
    (herror : (runRounds observe cancelled c state done rounds).outcome = .error e) :
    e = .cancelled ∨ ∃ state c report, (observe state c report).1 = .error e := by
  induction rounds generalizing c state done with
  | nil => cases herror
  | cons lengths rest ih =>
    cases cancelled with
    | true => exact .inl (Except.error.inj herror).symm
    | false =>
      have hvalid := hplan.validLengths h
      obtain ⟨last, -, hcontinues, -⟩ := hplan.continues
      rcases hobserve : observe state (c.round lengths).2 (c.round lengths).1 with
        ⟨objection | _, state'⟩
      · rw [runRounds_cons_of_error hvalid hobserve] at herror
        obtain rfl := Except.error.inj herror
        exact .inr ⟨state, _, _, congrArg Prod.fst hobserve⟩
      · rw [runRounds_cons hvalid hobserve] at herror
        exact ih (h.round hcontinues) hplan.next herror

/-- A run that was cancelled beforehand does nothing: `runRounds` gives the collection back. -/
theorem collection_runRounds_cancelled :
    (runRounds observe true c state done rounds).collection = c := by
  cases rounds <;> rfl

end runRounds

/-- Every request leads on by rounds (`Leads`), even if it fails. -/
theorem exists_leads_serve (c : Collection) (request : Request) :
    ∃ rounds, c.Leads rounds (c.serve request).2 := by
  cases request with
  | round lengths cancelled =>
    rw [serve, collectRound]
    by_cases hvalid : c.validLengths lengths
    · cases cancelled with
      | true => exact ⟨[], by simpa [hvalid] using .done c⟩
      | false => exact ⟨[lengths], by simpa [hvalid] using .next hvalid (.done _)⟩
    · exact ⟨[], by simpa [hvalid] using .done c⟩
  | upTo target strategy cancelled observer => exact exists_leads_runRounds

/-- A request that succeeds leads on by all its rounds, `Request.rounds`. A single round is one
step, and a request up to a target is `leads_runRounds`. -/
theorem leads_serve {request : Request} (hok : (c.serve request).1.isOk) :
    c.Leads (request.rounds c) (c.serve request).2 := by
  cases request with
  | round lengths cancelled =>
    rw [serve] at hok ⊢
    by_cases hvalid : c.validLengths lengths
    · cases cancelled with
      | true => simp [collectRound, hvalid, Except.isOk, Except.toBool] at hok
      | false =>
        rw [collectRound_of_validLengths hvalid]
        exact .next hvalid (.done _)
    · rw [collectRound_of_not_validLengths hvalid] at hok
      cases hok
  | upTo target strategy cancelled observer =>
    dsimp only [serve] at hok ⊢
    cases houtcome : (c.collectUpTo target strategy cancelled observer.observe
      observer.start).outcome with
    | error e =>
      rw [houtcome] at hok
      cases hok
    | ok reports => exact leads_runRounds houtcome

/-- All requests lead on by rounds (`Leads`), whatever comes of them. -/
theorem exists_leads_serveAll (c : Collection) (requests : List Request) :
    ∃ rounds, c.Leads rounds (c.serveAll requests) := by
  induction requests generalizing c with
  | nil => exact ⟨[], .done c⟩
  | cons request rest ih =>
    obtain ⟨rounds, hrounds⟩ := c.exists_leads_serve request
    obtain ⟨more, hmore⟩ := ih (c.serve request).2
    exact ⟨rounds ++ more, hrounds.append hmore⟩

/-- Requests that succeed lead on by all their rounds, `roundsOf`. -/
theorem leads_serveAll {requests : List Request} (hok : c.succeeds requests) :
    c.Leads (c.roundsOf requests) (c.serveAll requests) := by
  induction requests generalizing c with
  | nil => exact .done c
  | cons request rest ih =>
    rw [succeeds, Bool.and_eq_true] at hok
    exact (leads_serve hok.1).append (ih hok.2)

/-! ## What holds after any requests -/

/-- The rows are in the order of their texts, strictly: `Pairwise (· < ·)`. They are in the order of
`Proof.le` and have no repetitions. -/
theorem Consistent.sorted_row (h : c.Consistent) (length : Nat) :
    (c.table.row length).Pairwise (· < ·) := by
  have hsorted : (c.table.row length).Pairwise fun a b => Proof.le a b := by
    rw [h.row_eq]
    exact List.pairwise_map.mpr (c.registry.pairwise_withLengths [length])
  refine (hsorted.and (h.nodup length)).imp_of_mem fun {a b} ha hb hab => ?_
  -- The proofs of a row have the same length, so that only their texts count.
  obtain ⟨-, -, -, -, hlength⟩ := (h.mem_row length a).mp ha
  obtain ⟨-, -, -, -, hlength'⟩ := (h.mem_row length b).mp hb
  obtain ⟨hle, hne⟩ := hab
  rw [Proof.le, Proof.order, hlength, hlength', Nat.compare_eq_eq.mpr rfl, Ordering.eq_then] at hle
  cases hcompare : compare a b with
  | lt => exact compareOfLessAndEq_eq_lt.mp hcompare
  | eq => exact absurd (Std.LawfulEqCmp.compare_eq_iff_eq.mp hcompare) hne
  | gt =>
    rw [hcompare] at hle
    cases hle

/-- A round that fails changes nothing: `serve` gives the collection back. -/
theorem serve_round_of_error {cancelled : Bool} {e : Error}
    (h : (c.serve (.round lengths cancelled)).1 = .error e) :
    (c.serve (.round lengths cancelled)).2 = c := by
  rw [serve] at h ⊢
  cases hcollect : c.collectRound lengths cancelled with
  | error e' => rfl
  | ok result =>
    rw [hcollect] at h
    cases h

/-- A request that was cancelled beforehand (`isCancelled`) changes nothing. -/
theorem serve_of_isCancelled {request : Request} (h : request.isCancelled) :
    (c.serve request).2 = c := by
  cases request with
  | round lengths cancelled =>
    obtain rfl : cancelled = true := h
    rw [serve, collectRound]
    cases c.validLengths lengths <;> rfl
  | upTo target strategy cancelled observer =>
    obtain rfl : cancelled = true := h
    exact collection_runRounds_cancelled

/-- A collection that was started from the axioms and asked for anything, in any order (`serveAll`),
agrees with itself. Its rows list the registered proofs of their lengths, in the order of the texts.
Every registered proof is known, has no longer run of necessitations than allowed, and proves the
conclusion it is registered with, under the notation of this conclusion. Requests never change rows
that are known before them. A round that is refused for its lengths changes nothing, and rounds up
to a target are only refused for their lengths if their observer says so; a request that was
cancelled beforehand changes nothing either. -/
theorem serveAll_invariant (basis : Basis) (settings : Settings) (requests later : List Request) :
    let c := (start basis settings).serveAll requests
    (∀ length, (c.table.row length).Pairwise (· < ·) ∧ ∀ proof, proof ∈ c.table.row length ↔
      ∃ key e, c.registry.get? key = some e ∧ e.proof = proof ∧ Proof.length proof = length) ∧
    (∀ key e, c.registry.get? key = some e →
      Proof.length e.proof ≤ c.knownLimit ∧
      (∀ n, List.replicate n Proof.necessitateSymbol <:+: e.proof.toList →
        settings.necessitation.allows n) ∧
      Proof.conclusion basis e.proof = .ok e.conclusion ∧ e.conclusion.polish = key) ∧
    (∀ length ≤ c.knownLimit, (c.serveAll later).table.row length = c.table.row length) ∧
    (∀ lengths cancelled e, (c.serve (.round lengths cancelled)).1 = .error e →
      (c.serve (.round lengths cancelled)).2 = c) ∧
    (∀ target strategy cancelled observer lengths limit,
      (c.serve (.upTo target strategy cancelled observer)).1 =
          .error (.invalidLengths lengths limit) →
        ∃ state c report,
          (observer.observe state c report).1 = .error (.invalidLengths lengths limit)) ∧
    (∀ request : Request, request.isCancelled → (c.serve request).2 = c) := by
  intro c
  obtain ⟨rounds, hleads⟩ := exists_leads_serveAll (start basis settings) requests
  have h := hleads.consistent (consistent_start basis settings)
  have hbasis : c.basis = basis := hleads.basis_eq
  have hsettings : c.settings = settings := hleads.settings_eq
  refine ⟨fun length => ⟨h.sorted_row length, h.mem_row length⟩, fun key e he => ?_,
    fun length hlength => ?_, fun lengths cancelled e => serve_round_of_error, ?_,
    fun request => serve_of_isCancelled⟩
  · obtain ⟨hkey, hconclusion⟩ := h.sound key e he
    have hruns := h.runs key e he
    rw [hsettings, NecessitationLimit.runsAllowed_zero_iff] at hruns
    rw [hbasis] at hconclusion
    exact ⟨h.length_le key e he, hruns, hconclusion, hkey⟩
  · obtain ⟨more, hmore⟩ := c.exists_leads_serveAll later
    exact hmore.row_eq h hlength
  · intro target strategy cancelled observer lengths limit herror
    rcases error_of_runRounds h (plan_rounds h strategy target) herror with hcancelled | hobserver
    · cases hcancelled
    · exact hobserver

/-- From the axiom `p → (q → p)` alone, proofs of length two are refused and `D11` is found after
that. It stays the only proof of length three when longer ones are collected, while lengths that are
refused or cancelled change nothing. -/
theorem serveAll_invariant_weakening :
    ∃ c, c = (start (.ofFormulas [.implies (.var 0) (.implies (.var 1) (.var 0))])
        ⟨.disabled, .always, 1⟩).serveAll [.round [2] false, .round [3] false] ∧
      c.table.row 3 = ["D11"] ∧
      (∃ key e, c.registry.get? key = some e ∧ e.proof = "D11" ∧
        e.conclusion.polish = key ∧ Proof.conclusion
          (.ofFormulas [.implies (.var 0) (.implies (.var 1) (.var 0))]) "D11" =
            .ok e.conclusion) ∧
      (c.serveAll [.upTo 7 .combined false .content]).table.row 3 = ["D11"] ∧
      (c.serve (.round [4] false)).1 = .error (.invalidLengths [4] 3) ∧
      (c.serve (.round [4] false)).2 = c ∧ (c.serve (.upTo 7 .stepwise true .content)).2 = c := by
  obtain ⟨hrows, hentries, hlater, hrefused, -, hcancelled⟩ := serveAll_invariant
    (.ofFormulas [.implies (.var 0) (.implies (.var 1) (.var 0))]) ⟨.disabled, .always, 1⟩
    [.round [2] false, .round [3] false] [.upTo 7 .combined false .content]
  have hrow : ((start (.ofFormulas [.implies (.var 0) (.implies (.var 1) (.var 0))])
      ⟨.disabled, .always, 1⟩).serveAll [.round [2] false, .round [3] false]).table.row 3 =
        ["D11"] := by cbv
  have hknown : ((start (.ofFormulas [.implies (.var 0) (.implies (.var 1) (.var 0))])
      ⟨.disabled, .always, 1⟩).serveAll [.round [2] false, .round [3] false]).knownLimit = 3 := by
    cbv
  have herror : (((start (.ofFormulas [.implies (.var 0) (.implies (.var 1) (.var 0))])
      ⟨.disabled, .always, 1⟩).serveAll [.round [2] false, .round [3] false]).serve
        (.round [4] false)).1 = .error (.invalidLengths [4] 3) := by cbv
  obtain ⟨key, e, he, hproof, -⟩ := ((hrows 3).2 "D11").mp (hrow ▸ List.mem_singleton_self "D11")
  obtain ⟨-, -, hconclusion, hkey⟩ := hentries key e he
  rw [hproof] at hconclusion
  refine ⟨_, rfl, hrow, ⟨key, e, he, hproof, hkey, hconclusion⟩, ?_, herror,
    hrefused [4] false _ herror, hcancelled _ rfl⟩
  rw [hlater 3 (Nat.le_of_eq hknown.symm), hrow]

end Detachment.Collection
