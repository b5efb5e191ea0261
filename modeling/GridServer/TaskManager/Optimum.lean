import GridServer.Jobs.Results
import GridServer.TaskManager.Combinations
import GridServer.TaskManager.Parts

namespace GridServer.TaskManager
open Jobs Library Library.Allotment

/-- The result carries the distances for both sets of the task of its id. -/
def Delivered (externals : Externals) (charge : ℕ → Finset ℕ → Distance) (data : JobData)
    (result : WorkerResult) : Prop :=
  let task := data.task result.id
  result.id < data.total ∧ externals.decodeTaskResult result.data = .ok ⟨task.taxi,
    ((task.combinations.1, charge task.taxi (members task.combinations.1)),
      (task.combinations.2, charge task.taxi (members task.combinations.2)))⟩

/-- A job whose combinations and whose distances can all be counted. -/
structure Posed (charge : ℕ → Finset ℕ → Distance) (data : JobData) : Prop where
  valid : data.validate = true
  some_taxi : 1 ≤ data.t
  some_passenger : 1 ≤ data.p
  few_passengers : data.p ≤ 63
  countable : data.t ^ data.p < 2 ^ 128
  fits : ∀ f : Fin data.p → Fin data.t, cost charge f < 2 ^ 64

/-- The results that come while a job is under way carry the distances of that job. -/
def Answers (externals : Externals) (charge : ℕ → Finset ℕ → Distance) (data : JobData)
    (more : List WorkerResult) : JobState Started Distance → Prop
  | .started _ => ∀ result ∈ more, Delivered externals charge data result
  | _ => True

def Answered (externals : Externals) (distance : Uuid → ℕ → Finset ℕ → Distance) (s : State)
    (e : Event) : Prop :=
  ∀ job ∈ s.currentJob, Posed (distance job.id) job.data ∧
    Answers externals (distance job.id) job.data (results e) job.state

/-- The current job has as many passengers as taxis. -/
def Even (s : State) : Prop := ∀ job ∈ s.currentJob, job.data.p = job.data.t

/-- The jobs that have been completed came to the least of the sums over all functions from the
passengers to the taxis. -/
def Shortest (distance : Uuid → ℕ → Finset ℕ → Distance) (s : State) : Prop :=
  s.Completed fun id data found =>
    IsLeast (Set.range fun f : Fin data.p → Fin data.t => cost (distance id) f) found

/-- The least distance of the first `k` combinations that are tried. -/
def tried (charge : ℕ → Finset ℕ → Distance) {t : Nat} (pos : 0 < t) (p k : Nat) : Distance :=
  ((List.range' 0 k).map fun i => cost charge (nth pos p (t ^ p - 1 - i))).foldl min distanceMax

/-- How far the work on a job is, and what it will need later. -/
def Searching (externals : Externals) (charge : ℕ → Finset ℕ → Distance) (data : JobData)
    (received : List WorkerResult) (work : Started) : Prop :=
  match work.phase with
  | .reducing reducer minimal => ∃ (pos : 0 < data.t) (parts : _) (k : Nat),
      Priced charge data.t data.p parts ∧ k ≤ data.t ^ data.p ∧
        reducer = .left parts data.t data.p (data.t ^ data.p - k) ∧
          minimal = tried charge pos data.p k
  | _ => ∀ result ∈ received, Delivered externals charge data result

/-- What the jobs that have been completed came to. -/
def completions (s : State) : List (Uuid × JobData × Distance) :=
  s.jobsFinished.filterMap fun job =>
    match job.state with
    | .finished (.completed found _) => some (job.id, job.data, found)
    | _ => none

def Pursued (externals : Externals) (distance : Uuid → ℕ → Finset ℕ → Distance)
    (received : List WorkerResult) (s : State) : Prop :=
  s.Works fun id data work => Posed (distance id) data → data.p = data.t →
    Searching externals (distance id) data received work

section
variable {checks : Bool} {externals : Externals} {charge : ℕ → Finset ℕ → Distance}
  {distance : Uuid → ℕ → Finset ℕ → Distance} {data : JobData} {result : WorkerResult}
  {received : List WorkerResult} {s t u : State} {job : Job} {work : Started}
  {out out' : List Sent} {flow : Flow Distance} {e : Event} {es : List Event}

theorem Shortest.isLeast (h : Shortest distance s) {id : Uuid} {found : Distance}
    (hfound : (id, data, found) ∈ completions s) :
    IsLeast (Set.range fun f : Fin data.p → Fin data.t => cost (distance id) f) found := by
  obtain ⟨job, hjob, hstate⟩ := List.mem_filterMap.mp hfound
  split at hstate
  · rename_i found' stats hfinished
    cases hstate
    exact h job hjob found stats hfinished
  · cases hstate

theorem Delivered.computed (h : Delivered externals charge data result) :
    Computed externals data result := by
  obtain ⟨hid, hdecode⟩ := h
  refine ⟨hid, ?_⟩
  rw [hdecode]
  exact ⟨rfl, rfl⟩

theorem distance_of_reported (h : ∀ result ∈ received, Delivered externals charge data result)
    {taxi set : Nat} {found : Distance} (reported : Reported externals received taxi set found) :
    found = charge taxi (members set) := by
  obtain ⟨result, hresult, task, hdecode, rfl, hplace⟩ := reported
  rw [(h result hresult).2, Except.ok.injEq] at hdecode
  subst hdecode
  rcases hplace with hplace | hplace
  · obtain ⟨rfl, rfl⟩ := Prod.mk.inj hplace
    rfl
  · obtain ⟨rfl, rfl⟩ := Prod.mk.inj hplace
    rfl

theorem Answered.genuine (h : Answered externals distance s e) : Genuine externals s e := by
  intro job hjob _
  have hanswered := (h job hjob).2
  split
  · rename_i hstate
    rw [hstate] at hanswered
    exact fun result hresult => (hanswered result hresult).computed
  · trivial

/-- With as many taxis as passengers there can be no more than 31 of each. -/
theorem Posed.total_lt (posed : Posed charge data) (even : data.p = data.t) :
    data.total < 2 ^ 64 := by
  have hcountable := posed.countable
  rw [even] at hcountable
  have hfew : data.t ≤ 31 := by
    by_contra hmany
    have hmany : 32 ≤ data.t := by omega
    have hpow : 32 ^ 32 ≤ data.t ^ data.t :=
      (Nat.pow_le_pow_left hmany 32).trans (Nat.pow_le_pow_right (by omega) hmany)
    omega
  calc data.t * 2 ^ (data.p - 1) ≤ 31 * 2 ^ 30 :=
        Nat.mul_le_mul hfew (Nat.pow_le_pow_right (by decide) (by omega))
    _ < 2 ^ 64 := by decide

theorem Posed.suited (posed : Posed charge data) (even : data.p = data.t) :
    Suited checks data :=
  ⟨posed.some_passenger, posed.few_passengers, fun _ => posed.total_lt even⟩

/-- The tables of an attempt that misses nothing have what the results have brought. -/
theorem Attempt.priced (a : Attempt checks externals data received data.total ∅ work)
    (suited : Suited checks data)
    (delivered : ∀ result ∈ received, Delivered externals charge data result) :
    Priced charge data.t data.p work.parts := by
  refine ⟨a.tables, ?_⟩
  intro taxi htaxi set hset
  obtain ⟨found, hentry, hreported⟩ := a.covers suited htaxi hset
  rw [hentry, distance_of_reported delivered hreported]

theorem tried_add {taxies : Nat} (pos : 0 < taxies) (p k n : Nat) : tried charge pos p (k + n) =
    ((List.range' k n).map fun i => cost charge (nth pos p (taxies ^ p - 1 - i))).foldl min
      (tried charge pos p k) := by
  have hrange : List.range' 0 (k + n) = List.range' 0 k ++ List.range' k n := by
    rw [← List.range'_append_1, Nat.zero_add]
  rw [tried, hrange, List.map_append, List.foldl_append]
  rfl

theorem Posed.isLeast_tried (posed : Posed charge data) (pos : 0 < data.t) :
    IsLeast (Set.range fun f : Fin data.p → Fin data.t => cost charge f)
      (tried charge pos data.p (data.t ^ data.p)) :=
  isLeast_foldl_min pos fun f => Nat.le_sub_one_of_lt (posed.fits f)

/-- The next combinations of a job are tried, or the last of them and the job is completed. -/
theorem reduceJob_eq (checks : Bool) (s : State) (posed : Posed charge job.data)
    {reducer : TaskReducer} {minimal : Distance}
    (hphase : work.phase = .reducing reducer minimal)
    (h : Searching externals charge job.data received work) :
    (∃ work', reduceJob checks s job work reducer minimal =
        .ok ({ s with currentJob := some { job with state := .started work' } }, [], .continue) ∧
      Searching externals charge job.data received work') ∨
    ∃ work' found, reduceJob checks s job work reducer minimal =
        .ok ({ s with currentJob := some { job with state := .started work' } }, [],
          .finish (.completed found work.stats)) ∧
      IsLeast (Set.range fun f : Fin job.data.p → Fin job.data.t => cost charge f) found := by
  simp only [Searching, hphase] at h
  obtain ⟨pos, parts, k, priced, hk, rfl, rfl⟩ := h
  have enumerates : Enumerates (TaskReducer.next checks) _ _ _ :=
    TaskReducer.enumerates pos (priced.charges posed.some_passenger posed.few_passengers)
      posed.fits
  rcases enumerates.nextChunk hk 128 with ⟨hle, hchunk⟩ | ⟨hlt, hchunk⟩
  · refine .inl ⟨_, by rw [reduceJob, hchunk]; rfl, ?_⟩
    refine ⟨pos, parts, k + 128, priced, hle, rfl, ?_⟩
    rw [tried_add]
  · refine .inr ⟨_, _, by rw [reduceJob, hchunk]; rfl, ?_⟩
    rw [← tried_add, Nat.add_sub_cancel' hk]
    exact posed.isLeast_tried pos

/-- A job that waits for no more results is reduced with full tables. -/
theorem awaitJob_eq (posed : Posed charge job.data) (even : job.data.p = job.data.t)
    (hphase : work.phase = .waitingTasksCompletions)
    (going : Going checks externals job.data received work)
    (h : Searching externals charge job.data received work) :
    (∃ u, awaitJob checks s job work = .ok (u, [], .continue) ∧ u.currentJob = s.currentJob) ∨
      ∃ work', awaitJob checks s job work =
          .ok ({ s with currentJob := some { job with state := .started work' } }, [], .continue) ∧
        Searching externals charge job.data received work' := by
  simp only [Searching, hphase] at h
  simp only [Going, hphase] at going
  obtain ⟨missing, a⟩ := going
  cases hready : s.scheduler.ready with
  | false =>
    exact .inl ⟨{ s with needProcessJob := false }, by simp [awaitJob, hready], rfl⟩
  | true =>
    cases hempty : work.tasks.isEmpty with
    | false => exact .inl ⟨s, by simp [awaitJob, hready, hempty], rfl⟩
    | true =>
      have a : Attempt checks externals job.data received job.data.total ∅ work :=
        a.eq_empty hempty ▸ a
      have hnew : TaskReducer.new checks job.data.taxies.length job.data.taxies.length work.parts =
          .ok (.left work.parts job.data.t job.data.p (job.data.t ^ job.data.p)) := by
        have hcountable := posed.countable
        rw [even] at hcountable ⊢
        exact TaskReducer.new_eq checks work.parts posed.some_taxi hcountable
      refine .inr ⟨{ work with
        parts := []
        phase := .reducing (.left work.parts job.data.t job.data.p (job.data.t ^ job.data.p))
          distanceMax }, ?_, ?_⟩
      · simp [awaitJob, hready, hempty, hnew]
      · exact ⟨posed.some_taxi, work.parts, 0, a.priced (posed.suited even) h, Nat.zero_le _, rfl,
          rfl⟩

theorem startJob_succeeds (posed : Posed charge job.data) (even : job.data.p = job.data.t) :
    Succeeds (startJob checks externals s job) := by
  have hsome : 1 ≤ job.data.passengers.length := posed.some_passenger
  have hfew : job.data.passengers.length ≤ 63 := posed.few_passengers
  have htotal : (TaskSplitter.after job.data.taxies.length job.data.passengers.length
      0).totalTasks checks = .ok (TaskSplitter.half job.data.p * job.data.t) := by
    refine mulBits_of_lt ?_ checks
    have hsmall := posed.total_lt even
    rw [JobData.total, Nat.mul_comm] at hsmall
    exact hsmall.trans (by decide)
  obtain ⟨tables, htables, _⟩ := parts_ok checks job.data.taxies.length
    (by omega : job.data.passengers.length < 64)
  unfold startJob
  split
  · exact succeeds_ok _
  · simp only [TaskSplitter.new_eq hsome (by omega), ok_bind]
    split
    · exact succeeds_ok _
    · simp only [htotal, htables, ok_bind]
      exact succeeds_ok _

theorem splitJob_succeeds (posed : Posed charge job.data) (even : job.data.p = job.data.t)
    {splitter : TaskSplitter} (hphase : work.phase = .splitting splitter)
    (going : Going checks externals job.data received work) :
    Succeeds (splitJob checks externals s job work splitter) := by
  simp only [Going, hphase] at going
  obtain ⟨k, missing, a, rfl⟩ := going
  have hwithin := a.within
  have hsmall := posed.total_lt even
  have hcard : missing.card ≤ k := by
    have hsubset : missing ⊆ Finset.range k :=
      fun id hid => Finset.mem_range.mpr (a.emitted id hid)
    have hle := Finset.card_le_card hsubset
    rwa [Finset.card_range] at hle
  have enlists : ∀ n, k + n ≤ job.data.total → Succeeds (enlist checks externals work.tasks
      ((List.range' k n).map fun id => (id, TaskSplitter.task job.data.p id))) := by
    intro n hn
    obtain ⟨tasks, workersTasks, henlist, _⟩ := enlist_total externals
      ((List.range' k n).map fun id => (id, TaskSplitter.task job.data.p id))
      a.tasks fun _ => by
        rw [List.length_map, List.length_range']
        omega
    exact ⟨_, henlist⟩
  have enumerates := TaskSplitter.enumerates checks posed.some_passenger hsmall
  unfold splitJob
  split
  · exact succeeds_ok _
  · rcases enumerates.nextChunk hwithin 128 with ⟨hle, hchunk⟩ | ⟨_, hchunk⟩
    · obtain ⟨⟨tasks, workersTasks⟩, henlist⟩ := enlists 128 hle
      simp only [hchunk, henlist, ok_bind]
      cases workersTasks with
      | none => exact succeeds_ok _
      | some workersTasks => exact succeeds_ok _
    · obtain ⟨⟨tasks, workersTasks⟩, henlist⟩ := enlists
        (job.data.t * TaskSplitter.half job.data.p - k) (Nat.add_sub_cancel' hwithin).le
      simp only [hchunk, henlist, ok_bind]
      cases workersTasks with
      | none => exact succeeds_ok _
      | some workersTasks => exact succeeds_ok _

/-- Nothing fails that is processed of a job whose distances can be counted. -/
theorem processCurrent_succeeds (underway : Underway checks externals received s)
    (h : Pursued externals distance received s) (hc : s.currentJob = some job)
    (posed : Posed (distance job.id) job.data) (even : job.data.p = job.data.t) :
    Succeeds (processCurrent checks externals s job) := by
  unfold processCurrent
  cases hstate : job.state with
  | finished result => exact succeeds_ok _
  | notStarted => exact startJob_succeeds posed even
  | started work =>
    have going := underway.current job work hc hstate (posed.suited even)
    have searching := h.current job work hc hstate posed even
    dsimp only
    cases hphase : work.phase with
    | splitting splitter => exact splitJob_succeeds posed even hphase going
    | waitingTasksCompletions =>
      rcases awaitJob_eq (s := s) posed even hphase going searching with
        ⟨u, hawait, _⟩ | ⟨work', hawait, _⟩
      · exact ⟨_, hawait⟩
      · exact ⟨_, hawait⟩
    | reducing reducer minimal =>
      rcases reduceJob_eq checks s posed hphase searching with
        ⟨work', hreduce, _⟩ | ⟨work', found, hreduce, _⟩
      · exact ⟨_, hreduce⟩
      · exact ⟨_, hreduce⟩

theorem results_of_none (h : e.received = none) : results e = [] := by
  unfold results
  split
  · cases h
  · cases h
  · rfl

theorem Searching.of_phase {work' : Started} (h : Searching externals charge data received work)
    (hphase : work'.phase = work.phase) : Searching externals charge data received work' := by
  unfold Searching at h ⊢
  rw [hphase]
  exact h

/-- The received results of a job that is not reduced yet. -/
theorem Searching.delivered (h : Searching externals charge data received work)
    (hphase : ∀ reducer minimal, work.phase ≠ .reducing reducer minimal) :
    ∀ result ∈ received, Delivered externals charge data result := by
  unfold Searching at h
  split at h
  · rename_i reducer minimal hreducing
    exact absurd hreducing (hphase reducer minimal)
  · exact h

theorem Searching.of_delivered (h : ∀ result ∈ received, Delivered externals charge data result)
    (hphase : ∀ reducer minimal, work.phase ≠ .reducing reducer minimal) :
    Searching externals charge data received work := by
  unfold Searching
  split
  · rename_i reducer minimal hreducing
    exact absurd hreducing (hphase reducer minimal)
  · exact h

theorem Searching.mono (h : Searching externals charge data received work)
    {more : List WorkerResult}
    (delivered : ∀ result ∈ more, Delivered externals charge data result) :
    Searching externals charge data (received ++ more) work := by
  unfold Searching at h ⊢
  split at h
  · exact h
  · intro result hresult
    rcases List.mem_append.mp hresult with hold | hnew
    · exact h result hold
    · exact delivered result hnew

theorem not_reducing (h : reducing s = none) (hc : s.currentJob = some job)
    (hstate : job.state = .started work) (reducer : TaskReducer) (minimal : Distance) :
    work.phase ≠ .reducing reducer minimal := by
  intro hphase
  simp [reducing, hc, hstate, hphase] at h

theorem note_of_started (hc : s.currentJob = some job) (hstate : job.state = .started work) :
    note received s .processJob out = received := by
  simp [note, hc, hstate, results]

/-- What is processed of the current job goes on from what it has come to. -/
theorem processCurrent_searching (underway : Underway checks externals received s)
    (h : Pursued externals distance received s) (hc : s.currentJob = some job)
    (taken : processCurrent checks externals s job = .ok (u, out, .continue)) {job' : Job}
    {work' : Started} (hc' : u.currentJob = some job') (hstate' : job'.state = .started work')
    (posed : Posed (distance job.id) job.data) (even : job.data.p = job.data.t) :
    Searching externals (distance job.id) job.data (note received s .processJob out') work' := by
  have hsame : u.currentJob = s.currentJob → job' = job := by
    intro hsame
    rw [hsame, hc, Option.some.injEq] at hc'
    exact hc'.symm
  unfold processCurrent at taken
  cases hstate : job.state with
  | notStarted =>
    have hnote : note received s .processJob out' = [] := by simp [note, hc, hstate]
    rw [hstate] at taken
    rw [hnote]
    exact .of_delivered (by simp) (not_reducing (startJob_reducing hc hstate taken) hc' hstate')
  | finished result =>
    rw [hstate] at taken
    cases taken
    rw [hsame rfl, hstate] at hstate'
    cases hstate'
  | started work =>
    rw [note_of_started hc hstate]
    rw [hstate] at taken
    have going := underway.current job work hc hstate (posed.suited even)
    have searching := h.current job work hc hstate posed even
    cases hphase : work.phase with
    | splitting splitter =>
      simp only [hphase] at taken
      have hdelivered := searching.delivered fun reducer minimal => by simp [hphase]
      exact .of_delivered hdelivered
        (not_reducing (splitJob_reducing hc hstate hphase taken) hc' hstate')
    | waitingTasksCompletions =>
      simp only [hphase] at taken
      rcases awaitJob_eq (s := s) posed even hphase going searching with
        ⟨u', hawait, hcurrent⟩ | ⟨work₁, hawait, hsearching⟩
      · rw [hawait] at taken
        cases taken
        rw [hsame hcurrent, hstate, JobState.started.injEq] at hstate'
        exact hstate' ▸ searching
      · rw [hawait] at taken
        cases taken
        cases hc'
        cases hstate'
        exact hsearching
    | reducing reducer minimal =>
      simp only [hphase] at taken
      rcases reduceJob_eq checks s posed hphase searching with
        ⟨work₁, hreduce, hsearching⟩ | ⟨work₁, found, hreduce, _⟩
      · rw [hreduce] at taken
        cases taken
        cases hc'
        cases hstate'
        exact hsearching
      · rw [hreduce] at taken
        cases taken

/-- A job comes to the least distance when it is completed by its last combinations. -/
theorem processCurrent_isLeast (h : Pursued externals distance received s)
    (hc : s.currentJob = some job) {found : Distance} {stats : Option JobStats}
    (taken : processCurrent checks externals s job = .ok (u, out, .finish (.completed found stats)))
    (posed : Posed (distance job.id) job.data) (even : job.data.p = job.data.t) :
    IsLeast (Set.range fun f : Fin job.data.p → Fin job.data.t => cost (distance job.id) f)
      found := by
  unfold processCurrent at taken
  cases hstate : job.state with
  | notStarted =>
    rw [hstate] at taken
    change startJob checks externals s job = _ at taken
    unfold startJob at taken
    split at taken
    · cases taken
    · obtain ⟨_, _, taken⟩ := bind_ok.mp taken
      split at taken
      · cases taken
      · simp [bind_ok] at taken
  | finished result =>
    rw [hstate] at taken
    cases taken
  | started work =>
    rw [hstate] at taken
    cases hphase : work.phase with
    | splitting splitter =>
      simp only [hphase, splitJob] at taken
      split at taken
      · cases taken
      · obtain ⟨_, _, taken⟩ := bind_ok.mp taken
        obtain ⟨⟨_, workersTasks⟩, _, taken⟩ := bind_ok.mp taken
        cases workersTasks with
        | none => cases taken
        | some workersTasks => cases taken
    | waitingTasksCompletions =>
      simp only [hphase, awaitJob] at taken
      split at taken
      · cases taken
      · split at taken
        · obtain ⟨_, _, taken⟩ := bind_ok.mp taken
          cases taken
        · cases taken
    | reducing reducer minimal =>
      simp only [hphase] at taken
      rcases reduceJob_eq checks s posed hphase
          (h.current job work hc hstate posed even) with
        ⟨work₁, hreduce, _⟩ | ⟨work₁, found', hreduce, hleast⟩
      · rw [hreduce] at taken
        cases taken
      · rw [hreduce] at taken
        cases taken
        exact hleast

theorem step_pursued (underway : Underway checks externals received s)
    (h : Pursued externals distance received s) (answered : Answered externals distance s e)
    (taken : s.step (engine checks externals) e = .ok (t, out)) :
    Pursued externals distance (note received s e out) t := by
  apply Jobs.State.works_of_step h ?still ?receives ?processes taken
  case still =>
    intro he hnone id data work searching posed even
    rw [note_of_ne he, results_of_none hnone, List.append_nil]
    exact searching posed even
  case receives =>
    intro stats more hreceived job work work' flow hc hstate hreceive posed even
    obtain ⟨hresults, he⟩ := results_of_received hreceived
    have hdelivered := (answered job hc).2
    rw [hstate, hresults] at hdelivered
    have going := underway.current job work hc hstate (posed.suited even)
    obtain ⟨work₂, hreceive₂, _, hphase⟩ := going.receive (posed.suited even) stats
      fun result hresult => (hdelivered result hresult).computed
    rw [hreceive, Except.ok.injEq, Prod.mk.injEq] at hreceive₂
    rw [note_of_ne he, hresults, hreceive₂.1]
    exact ((h.current job work hc hstate posed even).mono hdelivered).of_phase hphase
  case processes =>
    intro he job u hc hprocess job' work hc' hstate' posed even
    subst he
    have hjob : job'.id = job.id ∧ job'.data = job.data := by
      rcases (processCurrent_onlyJob hprocess).2.2 with hsame | ⟨state, hsame⟩
      · rw [hsame, hc, Option.some.injEq] at hc'
        exact hc' ▸ ⟨rfl, rfl⟩
      · rw [hsame, Option.some.injEq] at hc'
        exact hc' ▸ ⟨rfl, rfl⟩
    rw [hjob.1, hjob.2] at posed ⊢
    rw [hjob.2] at even
    exact processCurrent_searching underway h hc hprocess hc' hstate' posed even

/-- A step at which the distances are there fails only when its branch is not ready or when there
is no connection any more. -/
theorem step_error {fault : Fault} (underway : Underway checks externals received s)
    (h : Pursued externals distance received s) (answered : Answered externals distance s e)
    (even : Even s) (failed : s.step (engine checks externals) e = .error fault) :
    fault = .notReady ∨ fault = .stopped := by
  rcases Jobs.State.error_of_step failed with hready | hstopped | ⟨_, job, hc, hprocess⟩ |
    ⟨stats, more, job, work, hreceived, hc, hstate, hfail⟩
  · exact .inl hready
  · exact .inr hstopped
  · obtain ⟨turn, hturn⟩ := processCurrent_succeeds underway h hc (answered job hc).1 (even job hc)
    cases hturn.symm.trans hprocess
  · have suited : Suited checks job.data := (answered job hc).1.suited (even job hc)
    have hdelivered := (answered job hc).2
    rw [hstate, (results_of_received hreceived).1] at hdelivered
    obtain ⟨work', hreceive, _⟩ := (underway.current job work hc hstate suited).receive suited stats
      fun result hresult => (hdelivered result hresult).computed
    cases hreceive.symm.trans hfail

theorem step_shortest (h : Pursued externals distance received s)
    (underway : Underway checks externals received s) (answered : Answered externals distance s e)
    (even : Even s) (shortest : Shortest distance s)
    (taken : s.step (engine checks externals) e = .ok (t, out)) : Shortest distance t := by
  apply Jobs.State.completed_of_step shortest ?receives ?processes taken
  case receives =>
    intro stats more hreceived job work work' found stats' hc hstate hreceive
    have suited : Suited checks job.data := (answered job hc).1.suited (even job hc)
    have hdelivered := (answered job hc).2
    rw [hstate, (results_of_received hreceived).1] at hdelivered
    obtain ⟨work₂, hreceive₂, _⟩ := (underway.current job work hc hstate suited).receive suited
      stats fun result hresult => (hdelivered result hresult).computed
    cases hreceive.symm.trans hreceive₂
  case processes =>
    intro _ job u out' found stats hc hprocess
    exact processCurrent_isLeast h hc hprocess (answered job hc).1 (even job hc)

theorem pursued_of_run (run : Run (Jobs.State.step (engine checks externals))
    (fun s e => Answered externals distance s e ∧ Even s) .new es out s) :
    Underway checks externals
        (history (Jobs.State.step (engine checks externals)) note [] .new es) s ∧
      Pursued externals distance
        (history (Jobs.State.step (engine checks externals)) note [] .new es) s ∧
        Shortest distance s := by
  apply run.invariant_history note (I := fun received _ _ s => Underway checks externals received s ∧
    Pursued externals distance received s ∧ Shortest distance s)
  · refine ⟨.new, .new, ?_⟩
    intro job hjob
    cases hjob
  · intro received es out s e t out' ⟨underway, h, shortest⟩ ⟨answered, even⟩ taken
    exact ⟨step_underway underway answered.genuine taken, step_pursued underway h answered taken,
      step_shortest h underway answered even shortest taken⟩

/-- With as many taxis as passengers no step panics, and completed jobs come to the least
distance. -/
theorem run_shortest (run : Run (Jobs.State.step (engine checks externals))
    (fun s e => Answered externals distance s e ∧ Even s) .new es out s) :
    (∀ e fault, Answered externals distance s e → Even s →
      s.step (engine checks externals) e = .error fault → fault = .notReady ∨ fault = .stopped) ∧
      Shortest distance s := by
  obtain ⟨underway, h, shortest⟩ := pursued_of_run run
  exact ⟨fun e fault answered even failed => step_error underway h answered even failed, shortest⟩

end

section
variable (charge : ℕ → Finset ℕ → Distance) (data : JobData)

instance : Decidable (Posed charge data) :=
  decidable_of_iff (data.validate = true ∧ 1 ≤ data.t ∧ 1 ≤ data.p ∧ data.p ≤ 63 ∧
      data.t ^ data.p < 2 ^ 128 ∧ ∀ f : Fin data.p → Fin data.t, cost charge f < 2 ^ 64)
    ⟨fun h => ⟨h.1, h.2.1, h.2.2.1, h.2.2.2.1, h.2.2.2.2.1, h.2.2.2.2.2⟩,
      fun h => ⟨h.valid, h.some_taxi, h.some_passenger, h.few_passengers, h.countable, h.fits⟩⟩

instance (externals : Externals) (result : WorkerResult) :
    Decidable (Delivered externals charge data result) := by
  unfold Delivered
  infer_instance

instance (externals : Externals) (more : List WorkerResult) (state : JobState Started Distance) :
    Decidable (Answers externals charge data more state) := by
  unfold Answers
  split <;> infer_instance

end

instance (externals : Externals) (distance : Uuid → ℕ → Finset ℕ → Distance) (s : State)
    (e : Event) : Decidable (Answered externals distance s e) := by
  unfold Answered
  infer_instance

instance (s : State) : Decidable (Even s) := by
  unfold Even
  infer_instance

/-- The only taxi drives 5 for the only passenger. -/
theorem run_shortest_single : ∃ s out, Run (Jobs.State.step (engine true plain))
    (fun s e => Answered plain (fun _ _ set => if set = ∅ then 0 else 5) s e ∧ Even s) .new
      (singleEvents ++ [.processJob, .processJob]) out s ∧
    completions s = [(7, single, 5)] ∧ Shortest (fun _ _ set => if set = ∅ then 0 else 5) s := by
  obtain ⟨s, out, run, h⟩ := exists_run (Jobs.State.step (engine true plain))
    (fun s e => Answered plain (fun _ _ set => if set = ∅ then 0 else 5) s e ∧ Even s) .new
    (singleEvents ++ [.processJob, .processJob])
    (fun r => completions r.1 = [(7, single, 5)]) (by decide +kernel)
  exact ⟨s, out, run, of_decide_eq_true h, (run_shortest run).2⟩

/-! One taxi and two passengers: the taxi drives 10 for both of them, and is said to drive 1. -/

def shared : JobData := ⟨[[0]], [0], [(0, 0), (0, 0)]⟩

/-- A taxi drives 10 for two passengers, and 1 for any other number of them. -/
def sharedCharge (_ : Uuid) (_ : Nat) (set : Finset ℕ) : Distance := if set.card = 2 then 10 else 1

/-- A codec for the results of the job's two tasks. -/
def sharedExternals : Externals :=
  { plain with
    decodeTaskResult := fun data =>
      .ok (if data = [0] then ⟨0, (2, 1), (1, 1)⟩ else ⟨0, (3, 10), (0, 1)⟩) }

/-- Only as many passengers as there are taxis are given a taxi. -/
theorem shortest_fails : ¬ ∀ (checks : Bool) (externals : Externals)
    (distance : Uuid → ℕ → Finset ℕ → Distance) (es : List Event) (out : List Sent) (s : State),
    Run (Jobs.State.step (engine checks externals)) (Answered externals distance) .new es out s →
      (∀ e fault, Answered externals distance s e → s.step (engine checks externals) e =
        .error fault → fault = .notReady ∨ fault = .stopped) ∧ Shortest distance s := by
  intro h
  obtain ⟨s, out, run, hfound⟩ := exists_run (Jobs.State.step (engine true sharedExternals))
    (Answered sharedExternals sharedCharge) .new
    [.command (.addJob shared 7), .processJob, .scheduler (.message .schedulerFree), .processJob,
      .processJob, .scheduler (.message (.taskResults [⟨0, 0, [0]⟩, ⟨1, 0, [1]⟩])), .processJob,
      .processJob]
    (fun r => completions r.1 = [(7, shared, 1)]) (by decide +kernel)
  have hfound : completions s = [(7, shared, 1)] := of_decide_eq_true hfound
  have hmem : (7, shared, 1) ∈ completions s := by rw [hfound]; exact List.mem_cons_self
  obtain ⟨⟨f, hf⟩, _⟩ := (h true sharedExternals sharedCharge _ out s run).2.isLeast hmem
  have hcost : ∀ f : Fin shared.p → Fin shared.t, cost (sharedCharge 7) f ≠ 1 := by
    decide +kernel
  exact hcost f hf

end GridServer.TaskManager
