import Mathlib.Data.List.GetD
import Detachment.Proofs.ExactFilter
import Detachment.Proofs.Incidents
import Detachment.Proofs.MixedJobs

/-! # Handshakes

The coordinator of a group compares what every other rank loaded with its own job. However the steps
of the ranks are ordered, it does not end with a result before all of them were compared.

* `Course.Outcome` says how the run of the coordinator may end.
* `Course.Watched` is what every incident keeps: the run goes on, or it has ended like this.
* `Course.mismatch_noticed` is the main result. -/

namespace Detachment.Cluster

/-- The coordinator fails if another rank has loaded something else (`Job.load`), and tells everyone
why. -/
theorem Member.receive_mismatch {m : Member} {job : Job} (hrank : m.rank = coordinator)
    (hload : job.load ≠ m.load) (sender : Nat) :
    m.receive sender (.handshake job.size job.length) =
      ⟨m, m.tellPeers (.abort (RunError.mismatch sender m.load job.load).message),
        .fails (.mismatch sender m.load job.load)⟩ := by
  rw [Job.load] at hload
  simp [receive, compareLoad, isCoordinator, hrank, hload, Job.load]

namespace Course

variable {c d : Course} {g₀ : Group} {job : Nat → Job} {size rank sender : Nat} {r : Reaction}
  {received : Received} {checks : List Check} {message : Message} {incident : Incident}

/-! ## The end of the coordinator's run -/

/-- How the run of the coordinator may end after some incidents, in a group where each rank has its
own `job rank`. -/
inductive Outcome (job : Nat → Job) (size : Nat) (incidents : List Incident) : Ending → Prop where
  /-- It has a result, and every rank loaded the same. -/
  | agreed (found : IndexSet)
      (hloads : ∀ rank < size, (job rank).load = (job Member.coordinator).load) :
      Outcome job size incidents (.result (some found))
  /-- It fails because a rank loaded something else. -/
  | mismatch {rank : Nat} (hrank : rank < size)
      (hload : (job rank).load ≠ (job Member.coordinator).load) :
      Outcome job size incidents
        (.failure (.mismatch rank (job Member.coordinator).load (job rank).load))
  /-- It was cancelled. -/
  | cancelled (hcancel : .cancel Member.coordinator ∈ incidents) :
      Outcome job size incidents (.failure .cancelled)
  /-- It fails because a peer is gone. -/
  | lost {peer : Nat} (hlose : .lose Member.coordinator peer ∈ incidents) :
      Outcome job size incidents (.failure (.transport (.disconnected peer)))

/-- What every incident keeps: `Mixed` as long as the run of the coordinator goes on, and then an
`Outcome`. -/
inductive Watched (job : Nat → Job) (size : Nat) (incidents : List Incident) (c : Course) :
    Prop where
  /-- The run of the coordinator goes on. -/
  | going (hmixed : c.Mixed job size)
  /-- It has ended. -/
  | ended {e : Ending} (hending : c.group.ending? Member.coordinator = some e)
      (houtcome : Outcome job size incidents e)

variable {incidents : List Incident}

/-- The coordinator has loaded `job Member.coordinator`. -/
theorem Mixed.load (h : c.Mixed job size) :
    (c.group.member Member.coordinator).load = (job Member.coordinator).load := by
  have hjob : (c.group.member Member.coordinator).job = job Member.coordinator :=
    (h.sound _ h.pos).job_eq
  rw [Member.load, hjob, Job.load]

/-- A reaction that ends the run of the coordinator, with letters that can be carried, leaves the
course `Watched`. -/
theorem Mixed.ended (h : c.Mixed job size) (ho : c.group.Opened g₀) {e : Ending}
    (hletters : ∀ letter ∈ r.letters, letter.recipient < size)
    (hverdict : r.verdict.ending? none = some e) (houtcome : Outcome job size incidents e) :
    Watched job size incidents ⟨checks, g₀.react Member.coordinator r⟩ := by
  refine .ended ?_ houtcome
  rw [(h.toStaffed.reacted ho h.pos hletters).ending, if_pos rfl, hverdict]

/-- The letters to the peers of the coordinator (`Member.tellPeers`) can be carried. -/
theorem Mixed.tellPeers (h : c.Mixed job size) {letter : Letter}
    (hletter : letter ∈ (c.group.member Member.coordinator).tellPeers message) :
    letter.recipient < size := by
  have hsize : (c.group.member Member.coordinator).size = size := (h.sound _ h.pos).size_eq
  exact hsize ▸ (mem_circular hletter).1.1

/-! ## Incidents -/

/-- The coordinator reads what another rank loaded, and has loaded something else: the run ends with
the mismatch (`receive_mismatch`). -/
theorem Mixed.mismatch (h : c.Mixed job size)
    (hfirst : c.group.mail.firstFrom? rank sender = some received)
    (hhandshake : received.message.isHandshake = true)
    (hload : (job sender).load ≠ (job rank).load) :
    Watched job size incidents ⟨checks, (c.group.without rank sender).react rank
      ((c.group.member rank).receive sender received.message)⟩ := by
  obtain ⟨origin, message⟩ := received
  obtain rfl : origin = sender := (Mailboxes.firstFrom?_eq_some hfirst).1
  obtain ⟨⟨hsender, -, -⟩, hlawful⟩ := h.lawful _ (Mailboxes.mem_inFlight_of_firstFrom? hfirst)
  cases message with
  | handshake candidates length =>
    obtain ⟨rfl, hcandidates, hlength⟩ := hlawful
    obtain rfl : candidates = (job origin).size := hcandidates
    obtain rfl : length = (job origin).length := hlength
    have hrank : (c.group.member Member.coordinator).rank = Member.coordinator :=
      (h.sound _ h.pos).rank_eq
    have hdiffers : (job origin).load ≠ (c.group.member Member.coordinator).load :=
      h.load ▸ hload
    dsimp only
    rw [Member.receive_mismatch hrank hdiffers]
    refine h.ended (Group.opened_without hfirst) (fun letter hletter => h.tellPeers hletter) rfl ?_
    rw [h.load]
    exact .mismatch hsender hload
  | _ => cases hhandshake

/-- The communicator of a rank handles a message: the jobs agree and the group stays `Mixed`, or
this is the `mismatch`. -/
theorem Mixed.receive (h : c.Mixed job size) (hrank : rank < size)
    (hfirst : c.group.mail.firstFrom? rank sender = some received) :
    Watched job size incidents ⟨checks, (c.group.without rank sender).react rank
      ((c.group.member rank).receive sender received.message)⟩ := by
  by_cases hload : received.message.isHandshake = true → (job sender).load = (job rank).load
  · obtain ⟨hadvances, hlasting⟩ := h.toStaffed.receive hrank hfirst hload
    exact .going (h.advance_without hfirst hload hadvances hlasting.goesOn)
  · obtain ⟨hhandshake, hdiffers⟩ := Classical.not_imp.mp hload
    exact h.mismatch hfirst hhandshake hdiffers

/-- The coordinator ends the run once every other rank is finished, so it has compared all jobs: as
many ranks are in `closedPeers` as there are peers, and each of them was `Greeted`. -/
theorem Mixed.load_of_finished (h : c.Mixed job size)
    (hpeers : size ≤ (c.group.member Member.coordinator).finishedPeers + 1) :
    ∀ rank < size, (job rank).load = (job Member.coordinator).load := by
  have hsubset : closedPeers c.group size ⊆ (Finset.range size).erase Member.coordinator := by
    intro q hq
    obtain ⟨hlt, hzero, -⟩ := mem_closedPeers.mp hq
    exact Finset.mem_erase.mpr ⟨hzero, Finset.mem_range.mpr hlt⟩
  have hall : closedPeers c.group size = (Finset.range size).erase Member.coordinator := by
    refine Finset.eq_of_subset_of_card_le hsubset ?_
    rw [Finset.card_erase_of_mem (Finset.mem_range.mpr h.pos), Finset.card_range]
    have hcounted := h.finishedPeers
    omega
  intro q hq
  by_cases hzero : q = Member.coordinator
  · rw [hzero]
  · have hmem : q ∈ closedPeers c.group size := by
      rw [hall]
      exact Finset.mem_erase.mpr ⟨hzero, Finset.mem_range.mpr hq⟩
    have hgreeted := h.compared q hq hzero
    rw [(mem_closedPeers.mp hmem).2.2] at hgreeted
    exact hgreeted.load_of_closed

/-- The coordinator ends the run, with jobs that all agree (`load_of_finished`). -/
theorem Mixed.conclude (h : c.Mixed job size) (hrank : rank < size)
    (hr : (c.group.member rank).conclude? = some r) :
    Watched job size incidents ⟨checks, c.group.react rank r⟩ := by
  have hrank_eq : (c.group.member rank).rank = rank := (h.sound rank hrank).rank_eq
  have hsize_eq : (c.group.member rank).size = size := (h.sound rank hrank).size_eq
  obtain ⟨hzero, -, hpeers, rfl⟩ := Member.conclude?_eq_some hr
  obtain rfl : rank = Member.coordinator := hrank_eq.symm.trans hzero
  exact h.ended c.group.opened_self (fun letter hletter => h.tellPeers hletter) rfl
    (.agreed _ (h.load_of_finished (hsize_eq ▸ hpeers)))

/-- A rank other than the coordinator ends its run without a letter, or hears that a peer is gone;
the group stays `Mixed`. -/
theorem Mixed.withdraw (h : c.Mixed job size) (hrank : rank < size)
    (hzero : rank ≠ Member.coordinator) (hmember : r.member = c.group.member rank)
    (hletters : r.letters = []) : Mixed job size ⟨checks, c.group.react rank r⟩ :=
  h.advance_self (h.toStaffed.ignore c.group.opened_self hrank hmember
    (hletters.symm ▸ List.forall_mem_nil _) (hletters.symm ▸ List.forall_mem_nil _) fun _ => rfl)
    fun heq => absurd heq hzero

/-- The step lemma: whatever happens while the run of the coordinator goes on (`Met`), it goes on or
ends as it may. -/
theorem Mixed.met (h : c.Mixed job size) (hincident : incident ∈ incidents)
    (hd : c.Met incident d) : d.Watched job size incidents := by
  -- Only a rank whose run goes on meets anything.
  have hseat : ∀ {rank m}, c.group.running? rank = some m →
      rank < size ∧ c.group.member rank = m := by
    intro rank m hm
    obtain ⟨hlt, hmember, -⟩ := Group.running?_eq_some hm
    exact ⟨h.seats_size ▸ hlt, hmember⟩
  cases hd with
  | work _ hm hwork =>
    obtain ⟨hrank, rfl⟩ := hseat hm
    exact .going (h.advance_self (h.toStaffed.work hrank hwork) fun _ => rfl)
  | attend _ hm hevents =>
    obtain ⟨hrank, rfl⟩ := hseat hm
    exact .going (h.advance_self (h.toStaffed.attend hrank hevents)
      fun _ => Member.verdict_attend _ _)
  | receive _ hm hfirst =>
    obtain ⟨hrank, rfl⟩ := hseat hm
    exact h.receive hrank hfirst
  | conclude _ hm hr =>
    obtain ⟨hrank, rfl⟩ := hseat hm
    exact h.conclude hrank hr
  | @cancel rank _ hm =>
    obtain ⟨hrank, rfl⟩ := hseat hm
    by_cases hzero : rank = Member.coordinator
    · -- The run of the coordinator ends here, and the incident is a reason for it.
      subst hzero
      exact h.ended c.group.opened_self (List.forall_mem_nil _) rfl (.cancelled hincident)
    · exact .going (h.withdraw hrank hzero rfl rfl)
  | @lose rank _ peer hm =>
    obtain ⟨hrank, rfl⟩ := hseat hm
    have hrank_eq : (c.group.member rank).rank = rank := (h.sound rank hrank).rank_eq
    by_cases hzero : rank = Member.coordinator
    · subst hzero
      have hfails : (c.group.member Member.coordinator).lose peer =
          (c.group.member Member.coordinator).fails (.transport (.disconnected peer)) := by
        simp [Member.lose, Member.isCoordinator, hrank_eq]
      rw [hfails]
      exact h.ended c.group.opened_self (List.forall_mem_nil _) rfl (.lost hincident)
    · have hquiet : ((c.group.member rank).lose peer).member = c.group.member rank ∧
          ((c.group.member rank).lose peer).letters = [] := by
        unfold Member.lose
        split <;> exact ⟨rfl, rfl⟩
      exact .going (h.withdraw hrank hzero hquiet.1 hquiet.2)
  | nothing _ => exact .going h

/-! ## The start -/

/-- The greetings on their way from `q` to the coordinator are those of the members with the rank
`q`. The induction is on the members, with any mailboxes. -/
theorem line_greetings (members : List Member) {mail : Mailboxes} (hmail : 0 < mail.size) (q : Nat) :
    (members.foldl (fun mail m => (mail.sendAll m.rank m.greeting).2) mail).line q 0 =
      mail.line q 0 ++ members.flatMap fun m =>
        if m.rank = q then m.greeting.map (·.message) else [] := by
  induction members generalizing mail with
  | nil => simp
  | cons m members ih =>
    have hgreeting : ∀ letter ∈ m.greeting, letter.recipient = 0 := by
      intro letter hletter
      rw [(Group.greeting_recipient hletter).2]
    obtain ⟨-, hsize, -, hline⟩ := Mailboxes.sendAll_carried
      (fun letter hletter => (hgreeting letter hletter).symm ▸ hmail) m.rank
    have hall : m.greeting.filter (·.recipient = 0) = m.greeting :=
      List.filter_eq_self.mpr fun letter hletter => decide_eq_true (hgreeting letter hletter)
    rw [List.foldl_cons, ih (hsize ▸ hmail), hline, hall, List.flatMap_cons, List.append_assoc]

/-- Every rank other than the coordinator sends one greeting, about its own job. The ranks are
counted from `next` on, which the induction on the jobs needs. -/
theorem greetings_of_rank (jobs : List Job) (sharing : Sharing) (size next : Nat) {q : Nat}
    (hq : q ≠ Member.coordinator) :
    ((jobs.zipIdx next).map fun p => Member.start p.1 sharing size p.2).flatMap
        (fun m => if m.rank = q then m.greeting.map (·.message) else []) =
      (if next ≤ q then jobs[q - next]? else none).toList.map
        fun job => .handshake job.size job.length := by
  induction jobs generalizing next with
  | nil => simp
  | cons job jobs ih =>
    rw [List.zipIdx_cons, List.map_cons, List.flatMap_cons, ih]
    rcases Nat.lt_trichotomy next q with hlt | rfl | hgt
    · obtain ⟨k, rfl⟩ : ∃ k, q = next + (k + 1) := ⟨q - next - 1, by omega⟩
      have hk : next + (k + 1) - (next + 1) = k := by omega
      simp [Member.start, hk, show next + 1 ≤ next + (k + 1) by omega]
    · simp [Member.start, Member.greeting, Member.isCoordinator, hq]
    · simp [Member.start, show ¬next + 1 ≤ q by omega, show ¬next ≤ q by omega, show next ≠ q by omega]

/-- At the start, what a rank loaded (`.handshake`) is the only message on its way to the
coordinator. -/
theorem line_start {jobs : List Job} {job : Job} {sharing : Sharing} {q : Nat}
    (hjob : jobs[q]? = some job) (hq : q ≠ Member.coordinator) :
    (start jobs sharing).group.mail.line q Member.coordinator =
      [.handshake job.size job.length] := by
  have hpos : 0 < jobs.length := Nat.zero_lt_of_lt (List.getElem?_eq_some_iff.mp hjob).1
  have hsize : (Mailboxes.ofSize jobs.length).size = jobs.length := Array.size_replicate
  have hline := line_greetings
    (jobs.zipIdx.map fun p => Member.start p.1 sharing jobs.length p.2) (hsize.symm ▸ hpos) q
  rw [greetings_of_rank jobs sharing jobs.length 0 hq] at hline
  refine hline.trans ?_
  simp [hjob, Mailboxes.line, Mailboxes.box, Mailboxes.ofSize, hpos]

/-- The group is `Mixed` at the start, with every handshake still `unread`. The coordinator has
counted nobody as finished. -/
theorem mixed_start {jobs : List Job} (sharing : Sharing) (hpos : 0 < jobs.length)
    (hjob : ∀ rank < jobs.length, jobs[rank]? = some (job rank)) :
    Mixed job jobs.length (start jobs sharing) where
  toStaffed := Group.staffed_start sharing hpos hjob
  running := Group.ending?_start
  finishedPeers := by
    have hmember : (start jobs sharing).group.member Member.coordinator =
        .start (job Member.coordinator) sharing jobs.length Member.coordinator :=
      congrArg Desk.member (Group.desk_start (hjob _ hpos))
    rw [hmember]
    exact Nat.zero_le _
  compared q hq hzero := by
    refine .unread [] (line_start (hjob q hq) hzero) (List.forall_mem_nil _) ?_
    rw [start, Group.desk_start (hjob q hq)]
    exact Desk.isClosed_of_phase (by simp [Member.start])

/-- The run lemma: in every run of a group (`undergo?`), the course stays `Watched`. -/
theorem watched_undergo? {jobs : List Job} {sharing : Sharing} (hpos : 0 < jobs.length)
    (hjob : ∀ rank < jobs.length, jobs[rank]? = some (job rank))
    (hc : (start jobs sharing).undergo? incidents = some c) :
    c.Watched job jobs.length incidents := by
  refine undergo?_induction (fun c incident d hincident h hd => ?_)
    (.going (mixed_start sharing hpos hjob)) hc
  have hmet := met_of_meet? hd
  cases h with
  | going hmixed => exact hmixed.met hincident hmet
  | ended hending houtcome => exact .ended (hmet.ending? hending) houtcome

variable {first : Job}

/-- Handshake mismatches are never missed: if the coordinator ends with a result, every rank loaded
as many candidates of the same length as the coordinator. If some rank did not, the coordinator can
only end with the mismatch of a rank, unless it is cancelled (`.cancel`) or loses a peer
(`.lose`). -/
theorem mismatch_noticed {others : List Job} {sharing : Sharing}
    (hc : (start (first :: others) sharing).undergo? incidents = some c) :
    (∀ result, c.group.ending? Member.coordinator = some (.result result) →
      ∀ job ∈ others, job.size = first.size ∧ job.length = first.length) ∧
    ((∃ job ∈ others, job.size ≠ first.size ∨ job.length ≠ first.length) →
      ∀ ending, c.group.ending? Member.coordinator = some ending →
        (∃ rank job, others[rank]? = some job ∧
          (job.size ≠ first.size ∨ job.length ≠ first.length) ∧
          ending = .failure (.mismatch (rank + 1) ⟨first.size, first.length⟩
            ⟨job.size, job.length⟩)) ∨
        (ending = .failure .cancelled ∧ .cancel Member.coordinator ∈ incidents) ∨
        ∃ peer, ending = .failure (.transport (.disconnected peer)) ∧
          .lose Member.coordinator peer ∈ incidents) := by
  have hpos : 0 < (first :: others).length := Nat.succ_pos _
  -- Beyond the last rank, the job does not matter.
  have hjob : ∀ rank < (first :: others).length,
      (first :: others)[rank]? = some ((first :: others).getD rank first) := by
    intro rank hrank
    rw [List.getElem?_eq_getElem hrank, List.getD_eq_getElem _ _ hrank]
  have houtcome : ∀ {e}, c.group.ending? Member.coordinator = some e →
      Outcome ((first :: others).getD · first) (first :: others).length incidents e := by
    intro e he
    cases watched_undergo? hpos hjob hc with
    | going hmixed => exact nomatch hmixed.running.symm.trans he
    | ended hending houtcome => exact Option.some.inj (hending.symm.trans he) ▸ houtcome
  have hagreed : (∀ rank < (first :: others).length,
      ((first :: others).getD rank first).load = first.load) →
      ∀ job ∈ others, job.size = first.size ∧ job.length = first.length := by
    intro hloads job hjob
    obtain ⟨rank, hrank, rfl⟩ := List.getElem_of_mem hjob
    have hload := hloads (rank + 1) (Nat.succ_lt_succ hrank)
    rw [List.getD_cons_succ, List.getD_eq_getElem _ _ hrank] at hload
    exact Job.load_eq_iff.mp hload
  refine ⟨fun result hresult => ?_, fun hdiffers ending hending => ?_⟩
  · cases houtcome hresult with
    | agreed _ hloads => exact hagreed hloads
  · cases houtcome hending with
    | agreed _ hloads =>
      obtain ⟨job, hjob, hdiffers⟩ := hdiffers
      have hsame := hagreed hloads job hjob
      omega
    | @mismatch rank hrank hload =>
      cases rank with
      | zero => exact absurd rfl hload
      | succ rank =>
        have hother := hjob (rank + 1) hrank
        rw [List.getElem?_cons_succ] at hother
        rw [Ne, Job.load_eq_iff, not_and_or] at hload
        exact .inl ⟨rank, _, hother, hload, rfl⟩
    | cancelled hcancel => exact .inr (.inl ⟨rfl, hcancel⟩)
    | lost hlose => exact .inr (.inr ⟨_, rfl, hlose⟩)

/-- A job without candidates. -/
def nothing (length : Nat) : Job :=
  ⟨length, .empty, []⟩

/-- The second rank is done, and the third has answered its questions, before the coordinator reads
what the third loaded. -/
def lateHandshake : List Incident :=
  [.work 0, .attend 0, .receive 0 1, .work 1, .attend 1, .receive 0 1, .receive 1 0, .receive 0 1,
    .receive 1 0, .receive 2 0, .receive 2 1, .receive 1 2, .work 1, .attend 1, .receive 0 1,
    .receive 0 2].map .step

/-- Two ranks that loaded the same end with a result, and a third one that did not is noticed. -/
theorem mismatch_noticed_late :
    (∃ c found, (start [twoInstances, twoInstances] ⟨2, 1⟩).undergo? (takeover.map .step) = some c ∧
      c.group.ending? Member.coordinator = some (.result (some found)) ∧
      ∀ job ∈ [twoInstances], job.size = 4 ∧ job.length = 1) ∧
    ∃ c, (start [nothing 1, nothing 1, nothing 3] ⟨2, 1⟩).undergo? lateHandshake = some c ∧
      c.group.ending? Member.coordinator = some (.failure (.mismatch 2 ⟨0, 1⟩ ⟨0, 3⟩)) := by
  have hsame : ((start [twoInstances, twoInstances] ⟨2, 1⟩).undergo? (takeover.map .step)).map
      isComplete = some true := by
    cbv
  have hlate : ((start [nothing 1, nothing 1, nothing 3] ⟨2, 1⟩).undergo?
      lateHandshake).map (fun c => (c.group.ending? Member.coordinator).isSome) = some true := by
    decide +kernel
  obtain ⟨c, hc, hcomplete⟩ := Option.map_eq_some_iff.mp hsame
  obtain ⟨found, hfound⟩ := exists_result_of_isComplete hcomplete
  obtain ⟨d, hd, hended⟩ := Option.map_eq_some_iff.mp hlate
  obtain ⟨ending, hending⟩ := Option.isSome_iff_exists.mp hended
  have hdiffers : ∃ job ∈ [nothing 1, nothing 3],
      job.size ≠ (nothing 1).size ∨ job.length ≠ (nothing 1).length :=
    ⟨nothing 3, by simp, by decide⟩
  refine ⟨⟨c, found, hc, hfound, (mismatch_noticed hc).1 _ hfound⟩, d, hd, ?_⟩
  rcases (mismatch_noticed hd).2 hdiffers ending hending with
    ⟨rank, job, hjob, hload, rfl⟩ | ⟨-, hcancel⟩ | ⟨peer, -, hlose⟩
  · -- The second rank loaded what the coordinator did, so the mismatch is the third one's.
    rcases rank with - | - | rank
    · obtain rfl := Option.some.inj hjob
      exact absurd hload (by decide)
    · obtain rfl := Option.some.inj hjob
      exact hending
    · cases hjob
  · simp [lateHandshake] at hcancel
  · simp [lateHandshake] at hlose

end Course

end Detachment.Cluster
