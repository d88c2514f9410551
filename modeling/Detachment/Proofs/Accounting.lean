import Detachment.Proofs.Counting
import Detachment.Proofs.EvaluationOrder
import Detachment.Proofs.Survivors

/-! # Candidates accounted for

A candidate of a round proves nothing, loses to another proof, is removed by the filter, or
represents its conclusion in the end. The workers try the candidates in no particular order, so that
in a round over many lengths a shorter proof can displace a longer one, and a conclusion change
hands several times. A proof that is displaced is counted at its own length, and not at the length
of the candidate that takes its place; therefore the numbers add up length by length, and they are
the same in every order.

* `Collection.count_tried` says how many candidates of a length were tried.
* `Collection.count_tried_eq_add` adds up the numbers of a round whose candidates were tried in any
  order.
* `Collection.collectRound_accounts` says this of the reports of all rounds that succeed. -/

namespace Detachment.Collection

open scoped List

variable {basis : Basis} {settings : Settings} {c d : Collection} {lengths : List Nat}
  {last length : Nat} {order : List String}

/-! ## The numbers of a round -/

/-- The candidates of a length (`found`) have this length. -/
theorem length_of_mem_found (h : c.Consistent) {w : String}
    (hw : w ∈ (c.grammar last).found length) : Proof.length w = length := by
  have hw' : w ∈ [length].flatMap (c.grammar last).found := by simpa using hw
  obtain ⟨t, hlength, -, rfl⟩ := exists_tree_of_mem_candidates h hw'
  rw [ProofTree.length_text, List.mem_singleton.mp hlength]

/-- Where `found` gives texts of the right length for every length, as many texts have a length as
it gives for it. -/
theorem count_length_flatMap {found : Nat → List String} (hnodup : lengths.Nodup)
    (hfound : ∀ length, ∀ w ∈ found length, Proof.length w = length) (hmem : length ∈ lengths) :
    ((lengths.flatMap found).map Proof.length).count length = (found length).length := by
  have hown : ∀ other, (found other).map Proof.length =
      List.replicate (found other).length other := fun other =>
    List.eq_replicate_iff.mpr ⟨List.length_map _, by simpa using hfound other⟩
  induction lengths with
  | nil => cases hmem
  | cons first rest ih =>
    obtain ⟨hfirst, hrest⟩ := List.nodup_cons.mp hnodup
    rw [List.flatMap_cons, List.map_append, List.count_append, hown, List.count_replicate]
    by_cases heq : first = length
    · -- The other lengths have no texts of this one.
      subst heq
      have hnone : first ∉ (rest.flatMap found).map Proof.length := by
        simp only [List.mem_map, List.mem_flatMap, not_exists, not_and]
        rintro w ⟨other, hother, hw⟩ rfl
        exact hfirst (hfound other w hw ▸ hother)
      simp [List.count_eq_zero.mpr hnone]
    · simp [heq, ih hrest ((List.mem_cons.mp hmem).resolve_left (Ne.symm heq))]

/-- As many candidates of a length are tried as the grammar gives, `(c.grammar last).found length`,
in whatever order. -/
theorem count_tried (h : c.Consistent) (hlengths : c.Continues lengths last)
    (horder : order ~ (c.grammar last).candidates lengths) (hnodup : lengths.Nodup)
    (hmem : length ∈ lengths) :
    (c.tryInTurn order).tried.count length = ((c.grammar last).found length).length := by
  rw [Grammar.candidates_eq _ hlengths.prepared] at horder
  rw [tryInTurn, Trial.tried_foldl_attempt, List.count_append, List.count_reverse,
    (horder.map _).count_eq, count_length_flatMap hnodup (fun other w => length_of_mem_found h) hmem]
  rfl

/-- Nothing is registered yet for a length beyond `knownLimit`. -/
theorem Consistent.count_proofLengths (h : c.Consistent) (hbeyond : c.knownLimit < length) :
    c.registry.proofLengths.count length = 0 := by
  rw [List.count_eq_zero, Registry.proofLengths, List.mem_map]
  rintro ⟨⟨key, e⟩, hentry, rfl⟩
  exact Nat.not_lt.mpr (h.length_le key e (Registry.mem_toList.mp hentry)) hbeyond

/-- No entry is removed twice. -/
theorem nodup_removedIn (c : Collection) (lengths : List Nat) : (c.removedIn lengths).Nodup := by
  rw [removedIn, instances]
  split
  · exact List.nodup_nil
  · exact (Registry.nodup_withLengths _ _).filter _

/-- The numbers of a round add up, in whatever order its candidates were tried: every candidate of a
length proves nothing (`invalid`), loses (`lost`), is removed (`removedIn`) or is left
(`withLengths`). -/
theorem count_tried_eq_add (h : c.Consistent) (hlengths : c.Continues lengths last)
    (horder : order ~ (c.grammar last).candidates lengths) (hmem : length ∈ lengths) :
    (c.tryInTurn order).tried.count length =
      (c.tryInTurn order).invalid.count length + (c.tryInTurn order).lost.count length +
        ((c.removedIn lengths).map fun x => Proof.length x.2.proof).count length +
        ((c.round lengths).2.registry.withLengths [length]).length := by
  have hbalanced : (c.tryInTurn order).Balanced c.registry :=
    (Trial.balanced_start c.registry).foldl_attempt c.basis c.necessitations order
  have htrial := hbalanced.count_eq length
  have hremoved := (Registry.proofLengths_eraseAll_perm (c.nodup_removedIn lengths)
    fun x hx => (mem_removedIn_iff.mp hx).1).count_eq length
  have hold := h.count_proofLengths (hlengths.bounds length hmem).1
  rw [← registry_round, triedRegistry, hlengths.last_eq,
    ← (alike_tryCandidates h.sound hlengths.prepared horder).registry] at hremoved
  rw [← Registry.count_proofLengths]
  simp only [List.count_append] at htrial hremoved
  omega

/-! ## Reports -/

/-- A round that succeeds (`collectRound`) was a valid one. -/
theorem round_of_collectRound {cancelled : Bool} {result : RoundReport × Collection}
    (hok : c.collectRound lengths cancelled = .ok result) :
    c.validLengths lengths ∧ result = c.round lengths := by
  by_cases hvalid : c.validLengths lengths
  · cases cancelled with
    | true => simp [collectRound, hvalid] at hok
    | false =>
      rw [collectRound_of_validLengths hvalid] at hok
      exact ⟨hvalid, (Except.ok.inj hok).symm⟩
  · rw [collectRound_of_not_validLengths hvalid] at hok
    cases hok

/-- Lengths that pass the check `validLengths` are different, as they increase. -/
theorem nodup_of_validLengths (hvalid : c.validLengths lengths) : lengths.Nodup := by
  rw [validLengths, Bool.and_eq_true, Bool.and_eq_true] at hvalid
  exact (sorted_of_increasing hvalid.1.2).imp fun hlt => Nat.ne_of_lt hlt

/-- What the report of a round says of one of its lengths: the numbers are counts in the trial,
`tryCandidates`. -/
theorem report_of_mem_perLength {one : LengthReport} (hlengths : c.Continues lengths last)
    (hone : one ∈ (c.round lengths).1.perLength) :
    one.length ∈ lengths ∧
      one.iterations =
        (c.tryCandidates (c.grammar last) lengths).tried.count one.length ∧
      one.expected = (c.grammar last).count (c.grammar last).tallies one.length ∧
      one.invalid = (c.tryCandidates (c.grammar last) lengths).invalid.count one.length ∧
      one.redundant = (c.tryCandidates (c.grammar last) lengths).lost.count one.length ∧
      one.removals =
        ((c.removedIn lengths).map fun x => Proof.length x.2.proof).count one.length ∧
      one.representatives = ((c.round lengths).2.registry.withLengths [one.length]).length := by
  obtain rfl := hlengths.last_eq
  obtain ⟨length, hmem, rfl⟩ := List.mem_map.mp hone
  exact ⟨hmem, rfl, rfl, rfl, rfl, rfl, rfl⟩

/-- If the number of candidates of a length was foretold (`Grammar.count`), it is the number of
those that are `found`. -/
theorem count_grammar_eq (hlengths : c.Continues lengths last) (hmem : length ∈ lengths)
    (hlongest : length ≤ Grammar.longestEntry) :
    (c.grammar last).count (c.grammar last).tallies length = none ∨
      (c.grammar last).count (c.grammar last).tallies length =
        some ((c.grammar last).found length).length := by
  have hknown : (c.grammar last).knownLimit ≤ Grammar.longestEntry := by
    rw [grammar_knownLimit]
    exact Nat.le_of_lt ((hlengths.bounds length hmem).1.trans_le hlongest)
  have hpairs : (c.grammar last).WellPaired := Grammar.wellPaired_prepare ..
  cases hcount : (c.grammar last).count (c.grammar last).tallies length with
  | none => exact .inl rfl
  | some n =>
    rw [Grammar.length_found_of_count hpairs hknown hcount]
    exact .inr rfl

/-- After any rounds (`Leads`), the report of a round that succeeds has an account of each of its
lengths. As many candidates were tried as the grammar has for the length, and each of them proves
nothing, lost to another proof, was removed again, or is in the table now. If the number of
candidates was foretold (`expected`), it was foretold correctly. The candidates may be tried in any
`order`, in which shorter proofs may displace longer ones: the report is that of a round in this
order, with the proofs that lose counted at their own lengths. In particular it is the report after
every course of a pool of workers that have all returned. -/
theorem collectRound_accounts {rounds : List (List Nat)} {cancelled : Bool} {report : RoundReport}
    (hleads : (start basis settings).Leads rounds c)
    (hok : c.collectRound lengths cancelled = .ok (report, d))
    (hlongest : ∀ length ∈ lengths, length ≤ Grammar.longestEntry)
    (horder : order ~ (c.grammar (lengths.getLastD 0)).candidates lengths) :
    c.finishRound (c.grammar (lengths.getLastD 0)) lengths (c.tryInTurn order) = (report, d) ∧
    (∀ workers capacity steps p, (WorkQueues.Pool.start workers capacity
        ((c.grammar (lengths.getLastD 0)).candidates lengths)
        (.start c.registry)).follow? c.evaluate steps = some p →
      (∀ stage ∈ p.workers, stage = .returned) →
        c.finishRound (c.grammar (lengths.getLastD 0)) lengths p.run.state = (report, d)) ∧
    report.lengths = lengths ∧ ∀ one ∈ report.perLength,
      one.iterations = one.invalid + one.redundant + one.removals + one.representatives ∧
      one.invalid = (c.tryInTurn order).invalid.count one.length ∧
      one.redundant = (c.tryInTurn order).lost.count one.length ∧
      (one.expected = none ∨ one.expected = some one.iterations) ∧
      one.iterations =
        ((c.grammar (lengths.getLastD 0)).candidates [one.length]).length ∧
      one.representatives = (d.table.row one.length).length := by
  -- The round is the one of `tryCandidates`, which every order and every pool is like.
  have h := hleads.consistent (consistent_start basis settings)
  obtain ⟨hvalid, hround⟩ := round_of_collectRound hok
  obtain ⟨last, hcontinues⟩ := exists_continues h hvalid
  have hlast := hcontinues.last_eq
  rw [hlast] at horder ⊢
  have halike := alike_tryCandidates h.sound hcontinues.prepared horder
  have hfinish : c.finishRound (c.grammar last) lengths (c.tryCandidates (c.grammar last) lengths) =
      (report, d) := by
    rw [hround, round, hlast]
  obtain rfl : report = (c.round lengths).1 := congrArg Prod.fst hround
  obtain rfl : d = (c.round lengths).2 := congrArg Prod.snd hround
  refine ⟨(halike.finishRound_eq c _ lengths).trans hfinish,
    fun workers capacity steps p hp hreturned => ?_, lengths_round c lengths, fun one hone => ?_⟩
  · have hpool := alike_of_returned h.sound hcontinues.prepared hp hreturned
    exact (hpool.finishRound_eq c _ lengths).trans hfinish
  obtain ⟨hmem, hiterations, hexpected, hinvalid, hredundant, hremovals, hrepresentatives⟩ :=
    report_of_mem_perLength hcontinues hone
  -- The report counts in `tryCandidates`; from here on in the given order.
  rw [← halike.tried.count_eq] at hiterations
  rw [← halike.invalid.count_eq] at hinvalid
  rw [← halike.lost.count_eq] at hredundant
  have htried := count_tried h hcontinues horder (nodup_of_validLengths hvalid) hmem
  rw [← hiterations] at htried
  refine ⟨?_, hinvalid, hredundant, ?_, ?_, ?_⟩
  · rw [hiterations, hinvalid, hredundant, hremovals, hrepresentatives]
    exact count_tried_eq_add h hcontinues horder hmem
  · rw [hexpected, htried]
    exact count_grammar_eq hcontinues hmem (hlongest _ hmem)
  · have hprepared := hcontinues.prepared _ hmem
    rw [htried, Grammar.candidates_eq _ (by simpa using hprepared), List.flatMap_singleton]
  · rw [hrepresentatives, (h.round hcontinues).row_eq, proofsOf, List.length_map]

/-- The axiom `p → (q → q)`. -/
def identities : Basis :=
  .ofFormulas [.implies (.var 0) (.implies (.var 1) (.var 1))]

/-- The second of two workers evaluates two candidates before the first one evaluates its first;
then both find the queues empty and return. -/
def overtaking : List WorkQueues.Step :=
  [.push 0, .push 1, .push 1, .endProduction, .work 1, .work 1, .work 0, .balance, .balance,
    .work 0, .work 0, .work 0, .work 0, .work 0, .work 0, .work 0,
    .work 1, .work 1, .work 1, .work 1, .work 1, .work 1, .work 1]

/-- Of three items the first one is evaluated last, whatever the evaluation does. -/
theorem follow?_overtaking {α β : Type} (evaluation : β → α → β) (x y z : α) (state : β) :
    ((WorkQueues.Pool.start 2 3 [x, y, z] state).follow?
      (fun state item => (.ok (evaluation state item) : Except Empty β)) overtaking).map
        (fun p => (p.evaluated, p.workers)) = some ([y, z, x], [.returned, .returned]) := by
  cbv

/-- With `p → (q → q)` as the only axiom, `D1D11` and `D11` prove `q → q`, and `DD111` proves the
axiom. The round tries lengths three and five in an order in which `D1D11` is registered before
`D11` displaces it. The loser is counted at length five, so that the numbers add up at both lengths:
at length three the one candidate is left, and both candidates of length five have lost. -/
theorem collectRound_accounts_displaced :
    ∃ c report d order, c = start identities ⟨.disabled, .always, 1⟩ ∧
      c.collectRound [3, 5] false = .ok (report, d) ∧
      order = ["D1D11", "DD111", "D11"] ∧ order ~ (c.grammar 5).candidates [3, 5] ∧
      ((c.tryInTurn ["D1D11"]).registry.get? "C0.0").map (·.proof) = some "D1D11" ∧
      ((c.tryInTurn order).registry.get? "C0.0").map (·.proof) = some "D11" ∧
      c.finishRound (c.grammar 5) [3, 5] (c.tryInTurn order) = (report, d) ∧
      (∃ p, (WorkQueues.Pool.start 2 3 ((c.grammar 5).candidates [3, 5])
          (.start c.registry)).follow? c.evaluate overtaking = some p ∧ p.evaluated = order ∧
        c.finishRound (c.grammar 5) [3, 5] p.run.state = (report, d)) ∧
      report.perLength = [⟨3, 1, some 1, 0, 0, 0, 1, false⟩, ⟨5, 2, some 2, 0, 2, 0, 0, false⟩] ∧
      ∀ one ∈ report.perLength,
        one.iterations = one.invalid + one.redundant + one.removals + one.representatives ∧
        one.redundant = (c.tryInTurn order).lost.count one.length := by
  let c := start identities ⟨.disabled, .always, 1⟩
  have hvalid : c.validLengths [3, 5] := by cbv
  have hreport : (c.round [3, 5]).1.perLength =
      [⟨3, 1, some 1, 0, 0, 0, 1, false⟩, ⟨5, 2, some 2, 0, 2, 0, 0, false⟩] := by cbv
  have hcandidates : (c.grammar 5).candidates [3, 5] = ["D11", "D1D11", "DD111"] := by cbv
  have horder : ["D1D11", "DD111", "D11"] ~ (c.grammar 5).candidates [3, 5] := by
    rw [hcandidates]
    exact List.perm_append_singleton "D11" ["D1D11", "DD111"]
  obtain ⟨p, hp, heq⟩ := Option.map_eq_some_iff.mp (follow?_overtaking
    (Trial.attempt c.basis c.necessitations) "D11" "D1D11" "DD111" (.start c.registry))
  obtain ⟨hevaluated, hworkers⟩ := Prod.mk.inj heq
  rw [← hcandidates] at hp
  have hok := collectRound_of_validLengths hvalid
  obtain ⟨hfinish, hpool, -, haccounts⟩ :=
    collectRound_accounts (.done c) hok (by simp [Grammar.longestEntry]) horder
  refine ⟨c, _, _, _, rfl, hok, rfl, horder, by cbv, by cbv, hfinish,
    ⟨p, hp, hevaluated, hpool _ _ _ p hp (by simp [hworkers])⟩, hreport, fun one hone => ?_⟩
  obtain ⟨hsum, -, hredundant, -⟩ := haccounts one hone
  exact ⟨hsum, hredundant⟩

end Detachment.Collection
