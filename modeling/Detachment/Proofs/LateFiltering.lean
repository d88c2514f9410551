import Detachment.Proofs.Agreement
import Detachment.Proofs.Lists
import Detachment.Proofs.LocalRuns
import Detachment.Proofs.References
import Detachment.Proofs.Strategies
import Detachment.Proofs.Survivors

/-! # Filtering later

A collection that is not filtered from some length on can be filtered at that length afterwards, by
a job that a group runs. This leaves the same representatives, in the same order, as filtering right
away, although the job looks at conclusions of which some are missing that were there when the round
filtered.

* `Cluster.Job.ofCollection?_eq` says what the job of a collection is.
* `Cluster.Job.survivors_ofCollection` says what is left after the job.
* `Collection.withLengths_round_eq` says what is left by a round that filters.
* `Collection.late_filtering` compares the two. -/

namespace Detachment

/-! ## The job of a collection -/

namespace Cluster.Job

variable {c : Collection} {length : Nat} {found : IndexSet}

/-- What an entry of a registry is in a job, referred to as `.known position`, its place among all
entries of the table. -/
def candidateAt (position : Nat) (x : String × Entry) : Candidate :=
  ⟨.known position, x.2.conclusion.key, Proof.length x.2.proof, x.2.conclusion⟩

/-- Whether an index knows of another conclusion that makes a candidate redundant:
`SchemaIndex.find?` succeeds. -/
def rejects (index : SchemaIndex) (candidate : Candidate) : Bool :=
  (index.find? candidate.conclusion candidate.proofLength candidate.key).isSome

/-- The entries of a length (`withLengths`) stand in the row of the length, in the same order. -/
theorem row_of_mem_zipIdx (h : c.Consistent) {x : String × Entry} {i : Nat}
    (hmem : (x, i) ∈ (c.registry.withLengths [length]).zipIdx) :
    (c.table.row length)[i]? = some x.2.proof := by
  rw [h.row_eq, Collection.proofsOf, List.getElem?_map, List.mem_zipIdx_iff_getElem?.mp hmem]
  rfl

/-- The job of a `Consistent` collection has every registered proof of the length as a candidate
(`candidateAt`). -/
theorem ofCollection?_eq (h : c.Consistent) (length : Nat) :
    ofCollection? c length = some ⟨length, c.schemaIndex,
      (c.registry.withLengths [length]).zipIdx.map fun p =>
        candidateAt (c.table.offset length + p.2) p.1⟩ := by
  have hentries : (c.representatives length).zipIdx =
      (c.registry.withLengths [length]).zipIdx.map
        fun p => ((p.1.2.proof, p.1.2.conclusion), p.2) :=
    List.zipIdx_map
  have hcandidate : ∀ p ∈ (c.registry.withLengths [length]).zipIdx,
      candidate? c.table length p.1.2.proof p.1.2.conclusion p.2 =
        .ok (some (candidateAt (c.table.offset length + p.2) p.1)) := by
    rintro ⟨x, i⟩ hmem
    have hrow := row_of_mem_zipIdx h hmem
    obtain ⟨hknown, hresolve⟩ :=
      Representatives.resolve?_known (List.getElem?_eq_some_iff.mp hrow).1
    rw [candidate?, hknown]
    dsimp only
    rw [hresolve, hrow, if_pos rfl]
    rfl
  -- No candidate fails, and each of them is kept.
  have hall := List.mapM_eq_ok hcandidate
  rw [ofCollection?]
  dsimp only
  rw [hentries, List.mapM_map]
  split
  · next candidates heq =>
    obtain rfl := Except.ok.inj (heq.symm.trans hall)
    rw [List.filterMap_map]
    exact congrArg (fun candidates => some (Job.mk length c.schemaIndex candidates))
      (congrFun List.filterMap_eq_map _)
  · next heq => cases heq.symm.trans hall

/-- When exactly the redundant indices were found, `survivors` are the candidates that the index
does not reject (`rejects`). -/
theorem survivors_of_exact {job : Job} {table : Representatives}
    (hfound : ∀ i, i ∈ found ↔ i < job.size ∧ job.isRedundant i = true) :
    job.survivors found table = job.candidates.filterMap fun candidate =>
      if rejects job.index candidate then none
      else (table.resolve? candidate.reference).map fun proof => (proof, candidate.conclusion) := by
  have hindex : ∀ p ∈ job.candidates.zipIdx, p.2 ∈ found ↔ rejects job.index p.1 := by
    rintro ⟨candidate, i⟩ hmem
    have hget := List.mem_zipIdx_iff_getElem?.mp hmem
    rw [hfound, isRedundant, hget]
    exact and_iff_right (List.getElem?_eq_some_iff.mp hget).1
  conv_rhs => rw [← List.zipIdx_map_fst 0 job.candidates, List.filterMap_map]
  rw [survivors]
  refine List.filterMap_congr fun p hp => ?_
  exact if_congr (hindex p hp) rfl rfl

/-- After the job of a `Consistent` collection those entries of the length are left that are not
redundant (`SchemaIndex.find?`). -/
theorem survivors_ofCollection {job : Job} (h : c.Consistent)
    (hjob : ofCollection? c length = some job)
    (hfound : ∀ i, i ∈ found ↔ i < job.size ∧ job.isRedundant i = true) :
    job.survivors found c.table =
      ((c.registry.withLengths [length]).filter fun x =>
        !(c.schemaIndex.find? x.2.conclusion (Proof.length x.2.proof) x.1).isSome).map
          fun x => (x.2.proof, x.2.conclusion) := by
  rw [ofCollection?_eq h] at hjob
  obtain rfl := Option.some.inj hjob
  rw [survivors_of_exact hfound, List.filterMap_map]
  conv_rhs =>
    rw [← List.filterMap_eq_map, List.filterMap_filter,
      ← List.zipIdx_map_fst 0 (c.registry.withLengths [length]), List.filterMap_map]
  refine List.filterMap_congr fun p hp => ?_
  obtain ⟨x, i⟩ := p
  have hrow := row_of_mem_zipIdx h hp
  have hresolve := (Representatives.resolve?_known (List.getElem?_eq_some_iff.mp hrow).1).2
  have hkey : x.2.conclusion.key = x.1 := by
    have hmem := List.mem_of_getElem? (List.mem_zipIdx_iff_getElem?.mp hp)
    exact h.key_eq (Registry.mem_withLengths.mp hmem).1
  simp only [Function.comp_apply, rejects, candidateAt, hresolve, hrow, hkey, Option.map_some]
  cases (c.schemaIndex.find? x.2.conclusion (Proof.length x.2.proof) x.1).isSome <;> rfl

end Cluster.Job

namespace Collection

variable {c d : Collection} {lengths : List Nat} {rounds : List (List Nat)}
  {last target length : Nat}

/-! ## The last round -/

/-- The last round of a `Plan` has the target, if proofs can have this length, and all rounds before
it are shorter. -/
theorem Plan.exists_final (h : c.Plan rounds target) (htarget : target ∈ rounds.flatten) :
    ∃ before final, rounds = before ++ [final] ∧ target ∈ final ∧
      ∀ length ∈ before.flatten, length < target := by
  obtain ⟨final, hfinal, hmem⟩ := List.mem_flatten.mp htarget
  obtain ⟨before, after, rfl⟩ := List.append_of_mem hfinal
  have hsorted := h.sorted
  rw [List.flatten_append, List.flatten_cons, List.pairwise_append, List.pairwise_append] at hsorted
  obtain ⟨-, ⟨-, -, hafter⟩, hbefore⟩ := hsorted
  refine ⟨before, final, ?_, hmem, fun length hlength =>
    hbefore length hlength target (List.mem_append_left _ hmem)⟩
  -- A length of a later round would be larger than the target.
  cases after with
  | nil => rfl
  | cons lengths rest =>
    have hne := h.nonempty lengths (by simp)
    have hlater : lengths.head hne ∈ (lengths :: rest).flatten := by
      rw [List.flatten_cons]
      exact List.mem_append_left _ (List.head_mem hne)
    have hle := ((h.mem_iff _).mp (by
      rw [List.flatten_append, List.flatten_cons]
      exact List.mem_append_right _ (List.mem_append_right _ hlater))).2.1
    exact absurd (hafter target hmem _ hlater) (Nat.not_lt.mpr hle)

/-- A round that filters a length leaves what is not redundant in a round that does not. Both are
what is not redundant among all that was tried (`redundant_round_iff`), although an index after a
round misses what the round removed. -/
theorem withLengths_round_eq (hc : c.Consistent) (hd : d.Consistent) (h : c.Agree d)
    (hcontinues : c.Continues lengths last) (hmem : length ∈ lengths)
    (hfilter : c.settings.filter.appliesTo length = true)
    (hunfiltered : d.settings.filter.appliesTo length = false) :
    ((d.round lengths).2.registry.withLengths [length]).filter (fun x =>
        !((d.round lengths).2.schemaIndex.find? x.2.conclusion (Proof.length x.2.proof)
          x.1).isSome) =
      (c.round lengths).2.registry.withLengths [length] := by
  have hcontinues' : d.Continues lengths last :=
    ⟨hcontinues.last_eq, hcontinues.last_mem, h.knownLimit ▸ hcontinues.bounds,
      h.necessitation ▸ hcontinues.parity⟩
  refine (sound_round hc hcontinues).eq_withLengths ((Registry.nodup_withLengths _ _).filter _)
    ((Registry.pairwise_withLengths _ _).filter _) fun x => ?_
  obtain ⟨key, e⟩ := x
  rw [List.mem_filter, Registry.mem_withLengths, Registry.mem_withLengths, Bool.not_eq_true',
    ← Bool.not_eq_true, find?_schemaIndex_isSome, get?_round, get?_round, h.triedRegistry,
    List.mem_singleton]
  -- Both sides speak of what was tried in the round.
  constructor
  · rintro ⟨⟨⟨he, -⟩, hlength⟩, hstays⟩
    refine ⟨⟨he, fun hspec => hstays ?_⟩, hlength⟩
    rw [redundant_round_iff hd hcontinues' (h.triedRegistry lengths ▸ he), h.triedRegistry]
    exact hspec.2.2
  · rintro ⟨⟨he, hstays⟩, hlength⟩
    refine ⟨⟨⟨he, fun hspec => ?_⟩, hlength⟩, fun hredundant => hstays ?_⟩
    · rw [hlength, hunfiltered] at hspec
      exact absurd hspec.2.1 Bool.false_ne_true
    · rw [redundant_round_iff hd hcontinues' (h.triedRegistry lengths ▸ he), h.triedRegistry]
        at hredundant
      rw [hlength]
      exact ⟨hmem, hfilter, hredundant⟩

/-- Rounds that filter the target leave what is not redundant after rounds that do not, if they
treat all other lengths alike: the collections `Agree` up to the last round, and there
`withLengths_round_eq` applies. -/
theorem Leads.withLengths_eq {c' d' : Collection} (hc : c.Leads rounds c') (hd : d.Leads rounds d')
    (h : c.Consistent) (h' : d.Consistent) (hagree : c.Agree d) (hplan : c.Plan rounds target)
    (htarget : target ∈ rounds.flatten) (hfilter : c.settings.filter.appliesTo target = true)
    (hunfiltered : d.settings.filter.appliesTo target = false)
    (hsame : ∀ length < target,
      d.settings.filter.appliesTo length = c.settings.filter.appliesTo length) :
    (d'.registry.withLengths [target]).filter (fun x =>
        !(d'.schemaIndex.find? x.2.conclusion (Proof.length x.2.proof) x.1).isSome) =
      c'.registry.withLengths [target] := by
  obtain ⟨before, final, rfl, hfinal, hbefore⟩ := hplan.exists_final htarget
  obtain ⟨c₁, hc₁, hlast⟩ := hc.of_append
  obtain ⟨d₁, hd₁, hlast'⟩ := hd.of_append
  -- Before the last round both have done the same.
  have hagree₁ := hagree.leads hc₁ hd₁ fun length hmem => hsame length (hbefore length hmem)
  rw [← hc₁.settings_eq] at hfilter
  rw [← hd₁.settings_eq] at hunfiltered
  cases hlast with
  | next hvalid hdone =>
    cases hdone
    cases hlast' with
    | next hvalid' hdone' =>
      cases hdone'
      have hconsistent := hc₁.consistent h
      obtain ⟨last, hcontinues⟩ := exists_continues hconsistent hvalid
      exact withLengths_round_eq hconsistent (hd₁.consistent h') hagree₁ hcontinues hfinal hfilter
        hunfiltered

/-! ## The main result -/

section collectUpTo

open Cluster

variable {β γ : Type} {observe : β → Collection → RoundReport → Except Error Unit × β}
  {observe' : γ → Collection → RoundReport → Except Error Unit × γ} {cancelled cancelled' : Bool}
  {state : β} {state' : γ} {reports reports' : List RoundReport} {basis : Basis}
  {limit : NecessitationLimit} {workers workers' : Nat} {strategy : Strategy}

/-- Collecting up to a length with the filter (`.always`) leaves what is not redundant when the
filter is off there (`⟨some length⟩`). -/
theorem withLengths_collectUpTo (hlong : 2 ≤ length)
    (hok : ((start basis ⟨limit, .always, workers⟩).collectUpTo length strategy cancelled observe
      state).outcome = .ok reports)
    (hok' : ((start basis ⟨limit, ⟨some length⟩, workers'⟩).collectUpTo length strategy cancelled'
      observe' state').outcome = .ok reports') :
    ((((start basis ⟨limit, ⟨some length⟩, workers'⟩).collectUpTo length strategy cancelled'
      observe' state').collection.registry.withLengths [length]).filter fun x =>
        !(((start basis ⟨limit, ⟨some length⟩, workers'⟩).collectUpTo length strategy cancelled'
          observe' state').collection.schemaIndex.find? x.2.conclusion (Proof.length x.2.proof)
            x.1).isSome) =
      ((start basis ⟨limit, .always, workers⟩).collectUpTo length strategy cancelled observe
        state).collection.registry.withLengths [length] := by
  have hstart := consistent_start basis ⟨limit, .always, workers⟩
  have hplan := plan_rounds hstart strategy length
  have hmem := hplan.mem_iff length
  rw [knownLimit_start] at hmem
  cases hparity : canHaveLength limit.isEnabled length with
  | true =>
    -- Both start alike, and their filters differ at the last length alone.
    have hagree : (start basis ⟨limit, .always, workers⟩).Agree
        (start basis ⟨limit, ⟨some length⟩, workers'⟩) := ⟨rfl, rfl, rfl, rfl⟩
    have hleads := leads_runRounds hok'
    rw [hagree.nextLengths] at hleads
    refine Leads.withLengths_eq (leads_runRounds hok) hleads hstart (consistent_start _ _) hagree
      hplan (hmem.mpr ⟨by omega, Nat.le_refl _, hparity⟩) rfl ?_ fun shorter hlt => ?_
    · exact decide_eq_false (Nat.lt_irrefl length)
    · exact decide_eq_true hlt
  | false =>
    -- No proof has this length, so that there is nothing to be filtered.
    have hc := onCourse_collectUpTo hok
    have hd := onCourse_collectUpTo hok'
    rw [hc.consistent.withLengths_eq_nil (by rw [hc.settings_eq, hparity]),
      hd.consistent.withLengths_eq_nil (by rw [hd.settings_eq, hparity])]
    rfl

/-- Filtering a length later leaves the same representatives, in the same order, as filtering it
right away. The job that filters later (`Job.ofCollection?`) can always be made. A group of any
number of ranks that take turns (`Group.run`) ends with a result, and so does the filter: what
survives it is what the filtered collection has. The ranks may also take their steps in any other
order (`Course.follow?`); then none of them ends with an error, and the same representatives survive
once the coordinator has its result. There must not be more representatives than the ranks can count
(`hcount`). -/
theorem late_filtering (hlong : 2 ≤ length)
    (hok : ((start basis ⟨limit, .always, workers⟩).collectUpTo length strategy cancelled observe
      state).outcome = .ok reports)
    (hok' : ((start basis ⟨limit, ⟨some length⟩, workers'⟩).collectUpTo length strategy cancelled'
      observe' state').outcome = .ok reports')
    (hcount : (((start basis ⟨limit, ⟨some length⟩, workers'⟩).collectUpTo length strategy cancelled'
      observe' state').collection.representatives length).length < Text.bound64)
    (ranks : Nat) (sharing : Sharing) :
    ∃ job, Job.ofCollection? ((start basis ⟨limit, ⟨some length⟩, workers'⟩).collectUpTo length
        strategy cancelled' observe' state').collection length = some job ∧
      (∃ found, Group.run job ranks sharing false = some (.ok found) ∧
        job.survivors found ((start basis ⟨limit, ⟨some length⟩, workers'⟩).collectUpTo length
            strategy cancelled' observe' state').collection.table =
          ((start basis ⟨limit, .always, workers⟩).collectUpTo length strategy cancelled observe
            state).collection.representatives length) ∧
      ∀ moves course, (Course.start (List.replicate (max ranks 1) job) sharing).follow? moves =
          some course →
        (∀ rank ending, course.group.ending? rank = some ending →
          ∃ result, ending = .result result) ∧
        ∀ found, course.group.ending? Member.coordinator = some (.result (some found)) →
          job.survivors found ((start basis ⟨limit, ⟨some length⟩, workers'⟩).collectUpTo length
              strategy cancelled' observe' state').collection.table =
            ((start basis ⟨limit, .always, workers⟩).collectUpTo length strategy cancelled observe
              state).collection.representatives length := by
  have hconsistent := (onCourse_collectUpTo hok').consistent
  have hleft := withLengths_collectUpTo hlong hok hok'
  generalize ((start basis ⟨limit, ⟨some length⟩, workers'⟩).collectUpTo length strategy cancelled'
    observe' state').collection = late at hcount hconsistent hleft ⊢
  have hjob := Job.ofCollection?_eq hconsistent length
  generalize Job.mk length late.schemaIndex _ = job at hjob
  -- Whoever finds exactly the redundant indices leaves the same.
  have hsurvivors : ∀ found : IndexSet,
      (∀ i, i ∈ found ↔ i < job.size ∧ job.isRedundant i = true) →
      job.survivors found late.table = ((start basis ⟨limit, .always, workers⟩).collectUpTo length
        strategy cancelled observe state).collection.representatives length := by
    intro found hfound
    rw [Job.survivors_ofCollection hconsistent hjob hfound, hleft]
    rfl
  have hsize : job.size < Text.bound64 := by
    rw [Job.ofCollection?_eq hconsistent] at hjob
    obtain rfl := Option.some.inj hjob
    rw [representatives, List.length_map] at hcount
    rwa [Job.size, List.length_map, List.length_zipIdx]
  refine ⟨job, hjob, ?_, fun moves course hcourse => ?_⟩
  · obtain ⟨found, hrun, hfound⟩ := Group.exists_run job ranks sharing hsize
    exact ⟨found, hrun, hsurvivors found hfound⟩
  · have hpos : 0 < max ranks 1 := Nat.lt_of_lt_of_le Nat.zero_lt_one (Nat.le_max_right _ _)
    have hinvariant := Course.invariant_follow? hpos hsize hcourse
    refine ⟨fun rank ending hending => ?_, fun found hfound => ?_⟩
    · cases hinvariant.ended rank ending hending with
      | told => exact ⟨none, rfl⟩
      | found found _ _ => exact ⟨some found, rfl⟩
    · cases hinvariant.ended _ _ hfound with
      | found _ hexact _ => exact hsurvivors found hexact

/-- Collect two weakenings up to length three, all at once. -/
def weakeningsUpToThree (filter : InstanceFilter) : Progress Unit :=
  (start weakenings ⟨.disabled, filter, 1⟩).collectUpTo 3 .combined false
    (fun _ _ _ => (.ok (), ())) ()

/-- Two ranks that filter three representatives of length three later leave the two that are left by
filtering right away. -/
theorem late_filtering_weakenings :
    ((weakeningsUpToThree ⟨some 3⟩).collection.representatives 3).map (·.1) =
      ["D11", "D12", "D21"] ∧
    ∃ job found, Job.ofCollection? (weakeningsUpToThree ⟨some 3⟩).collection 3 = some job ∧
      Group.run job 2 .standard false = some (.ok found) ∧
      (job.survivors found (weakeningsUpToThree ⟨some 3⟩).collection.table).map (·.1) =
        ["D11", "D12"] := by
  have houtcome := fun filter => exists_outcome_collectUpTo weakenings ⟨.disabled, filter, 1⟩
    .combined 3 (fun (_ : Unit) _ _ => (.ok (), ())) (fun _ _ _ => rfl) ()
  obtain ⟨reports, hok⟩ := houtcome .always
  obtain ⟨reports', hok'⟩ := houtcome ⟨some 3⟩
  have hfiltered : ((weakeningsUpToThree .always).collection.representatives 3).map (·.1) =
      ["D11", "D12"] := by cbv
  have hunfiltered : ((weakeningsUpToThree ⟨some 3⟩).collection.representatives 3).map (·.1) =
      ["D11", "D12", "D21"] := by cbv
  have hcount : ((weakeningsUpToThree ⟨some 3⟩).collection.representatives 3).length <
      Text.bound64 := by
    rw [← List.length_map (·.1), hunfiltered]
    decide
  obtain ⟨job, hjob, ⟨found, hrun, hsurvivors⟩, -⟩ :=
    late_filtering (Nat.le_succ 2) hok hok' hcount 2 .standard
  refine ⟨hunfiltered, job, found, hjob, hrun, ?_⟩
  rw [← hfiltered]
  exact congrArg (List.map (·.1)) hsurvivors

end collectUpTo

end Collection

end Detachment
