import GridServer.System.Grid
import GridServer.TaskManager.Plans
import GridServer.TaskManager.Requests

namespace GridServer.TaskManager
open Library PathFinding

/-- Jobs of taxis and passengers, on which workers run the compiled job. -/
def trade (externals : Externals) (codec : Codec) : Trade JobData where
  accepts := Solvable
  issues data job := ∃ args, externals.encodeJobData data = some args ∧
    job = externals.workerJobData args
  part data task := task.id < data.total ∧
    externals.encodeTaskData (data.task task.id) = some task.data
  computes args task result := result.id = task.id ∧
    ∃ build, executeJob codec build args task.data = .ok (.ok result.data)

section
variable {checks : Bool} {externals : Externals} {codec : Codec} {data : JobData}
  {result : WorkerResult} {received : List WorkerResult} {s t u : State} {job : Job}
  {out : List Sent} {flow : Jobs.Flow Distance} {e : Event} {work : Started} {k : Nat}
  {splitter : TaskSplitter}

theorem executed_of_done (done : (trade externals codec).Done data result) :
    Executed externals codec data result := by
  obtain ⟨job, task, ⟨args, hargs, rfl⟩, ⟨hlt, hinput⟩, hid, build, hexecute⟩ := done
  rw [← hid] at hlt hinput
  exact ⟨hlt, build, args, task.data, hargs, hinput, hexecute⟩

theorem received_of_results (h : result ∈ results e) : ∃ stats more,
    e.received = some (stats, more) ∧ result ∈ more := by
  unfold results at h
  split at h
  · exact ⟨none, _, rfl, h⟩
  · exact ⟨some _, _, rfl, h⟩
  · cases h

theorem worked_of_fed (fed : (trade externals codec).Fed s e) : Worked externals codec s e := by
  refine ⟨fed.1, ?_⟩
  intro job work hc hstate result hresult
  obtain ⟨stats, more, hreceived, hmem⟩ := received_of_results hresult
  exact executed_of_done (fed.2 stats more hreceived job work hc hstate result hmem)

theorem startJob_asks (hc : s.currentJob = some job)
    (h : startJob checks externals s job = .ok (u, out, flow)) :
    (trade externals codec).Asks (engine checks externals) job u (Jobs.requests out) := by
  have hidle : u.currentJob = s.currentJob →
      (trade externals codec).Asks (engine checks externals) job u [] := by
    intro hsame
    refine .nothing ?_
    intro job' hjob'
    rw [hsame, hc, Option.mem_some] at hjob'
    exact hjob' ▸ fun hsplits => hsplits
  unfold startJob at h
  split at h
  · cases h
    exact hidle rfl
  · obtain ⟨splitter, _, h⟩ := bind_ok.mp h
    split at h
    · cases h
      exact hidle rfl
    · rename_i args hargs
      simp only [bind_ok, except_pure, Except.ok.injEq, Prod.mk.injEq] at h
      obtain ⟨total, _, tables, _, rfl, rfl, _⟩ := h
      exact .announces total _ ⟨args, hargs, rfl⟩

/-- The tasks of a batch are the job's, encoded. -/
theorem part_of_enlist {tasks tasks' : TaskSet} {items : List (TaskId × TaskData)}
    {workersTasks : List WorkerTask} (suited : Suited checks data) (hle : k ≤ data.total)
    (hlt : k < 2 ^ 64)
    (y : Yields (TaskSplitter.next checks) (.after data.t data.p k) items splitter)
    (h : enlist checks externals tasks items = .ok (tasks', some workersTasks)) :
    ∀ task ∈ workersTasks, (trade externals codec).part data task := by
  obtain ⟨n, hitems, _, hle', _⟩ := yields_after suited.some_passenger hle hlt suited.countable y
  intro task htask
  have hmem := List.mem_map_of_mem (f := some) htask
  rw [enlist_encodes h, hitems, List.map_map] at hmem
  obtain ⟨id, hid, hencode⟩ := List.mem_map.mp hmem
  obtain ⟨bytes, hbytes, rfl⟩ := Option.map_eq_some_iff.mp hencode
  exact ⟨(List.mem_range'_1.mp hid).2.trans_le hle', hbytes⟩

theorem splitJob_asks (going : Going checks externals job.data received work)
    (suited : Suited checks job.data) (hstate : job.state = .started work)
    (hphase : work.phase = .splitting splitter)
    (h : splitJob checks externals s job work splitter = .ok (u, out, .continue)) :
    (trade externals codec).Asks (engine checks externals) job u (Jobs.requests out) := by
  have hsplits : job.Splits (engine checks externals) :=
    ⟨work, hstate, by simp [engine, hphase, JobPhase.json]⟩
  simp only [Going, hphase] at going
  obtain ⟨k, missing, a, rfl⟩ := going
  unfold splitJob at h
  split at h
  · cases h
    exact .nothing fun _ _ _ => hsplits
  · obtain ⟨⟨chunk, splitter'⟩, hchunk, h⟩ := bind_ok.mp h
    obtain ⟨⟨tasks, workersTasks⟩, henlist, h⟩ := bind_ok.mp h
    cases workersTasks with
    | none => cases h
    | some workersTasks =>
      simp only [except_pure, Except.ok.injEq, Prod.mk.injEq] at h
      obtain ⟨rfl, rfl, _⟩ := h
      refine .splits workersTasks hsplits ?_
      cases chunk with
      | ok batch =>
        exact part_of_enlist suited a.within a.small (yields_of_full hchunk).1 henlist
      | error left =>
        obtain ⟨last, hyields, _⟩ := yields_of_left hchunk
        exact part_of_enlist suited a.within a.small hyields henlist

/-- Past the splitting nothing is asked. -/
theorem processCurrent_asks (planned : Planned checks externals received s)
    (hc : s.currentJob = some job)
    (h : processCurrent checks externals s job = .ok (u, out, .continue)) :
    (trade externals codec).Asks (engine checks externals) job u (Jobs.requests out) := by
  have solvable := planned.current hc
  have suited : Suited checks job.data := solvable.posed.suited solvable.even
  have still : u.currentJob = s.currentJob →
      (trade externals codec).Asks (engine checks externals) job u [] := by
    intro hsame
    refine .nothing ?_
    intro job' hjob'
    rw [hsame, hc, Option.mem_some] at hjob'
    exact hjob' ▸ fun hsplits => hsplits
  have reducing : ∀ work' reducer minimal, work'.phase = .reducing reducer minimal →
      u.currentJob = some { job with state := .started work' } →
        (trade externals codec).Asks (engine checks externals) job u [] := by
    intro work' reducer minimal hphase hcurrent
    refine .nothing ?_
    rintro job' hjob' ⟨work₁, hstate₁, hsplitting⟩
    rw [hcurrent, Option.mem_some] at hjob'
    subst hjob'
    cases hstate₁
    simp [engine, hphase, JobPhase.json] at hsplitting
  unfold processCurrent at h
  cases hstate : job.state with
  | notStarted =>
    rw [hstate] at h
    exact startJob_asks hc h
  | finished result =>
    rw [hstate] at h
    cases h
    exact still rfl
  | started work =>
    rw [hstate] at h
    cases hphase : work.phase with
    | splitting splitter =>
      simp only [hphase] at h
      exact splitJob_asks (planned.underway.current job work hc hstate suited) suited hstate hphase h
    | waitingTasksCompletions =>
      simp only [hphase] at h
      unfold awaitJob at h
      split at h
      · cases h
        exact still rfl
      · split at h
        · obtain ⟨reducer, _, h⟩ := bind_ok.mp h
          cases h
          exact reducing _ reducer distanceMax rfl rfl
        · cases h
          exact still rfl
    | reducing reducer minimal =>
      simp only [hphase] at h
      unfold reduceJob at h
      obtain ⟨⟨chunk, reducer'⟩, _, h⟩ := bind_ok.mp h
      cases chunk with
      | ok distances =>
        cases h
        exact reducing _ reducer' _ rfl rfl
      | error left => cases h

/-- A job ends without a word to the scheduler. -/
theorem processCurrent_ends {found : Jobs.JobResult Distance}
    (h : processCurrent checks externals s job = .ok (u, out, .finish found)) :
    Jobs.requests out = [] := by
  unfold processCurrent at h
  split at h
  · unfold startJob at h
    split at h
    · cases h
    · obtain ⟨splitter, _, h⟩ := bind_ok.mp h
      split at h
      · cases h
        rfl
      · simp only [bind_ok, except_pure, Except.ok.injEq, Prod.mk.injEq] at h
        obtain ⟨_, _, _, _, _, _, hflow⟩ := h
        cases hflow
  · split at h
    · unfold splitJob at h
      split at h
      · cases h
      · obtain ⟨⟨chunk, splitter'⟩, _, h⟩ := bind_ok.mp h
        obtain ⟨⟨tasks, workersTasks⟩, _, h⟩ := bind_ok.mp h
        cases workersTasks with
        | none =>
          cases h
          rfl
        | some workersTasks => cases h
    · unfold awaitJob at h
      split at h
      · cases h
      · split at h
        · obtain ⟨reducer, _, h⟩ := bind_ok.mp h
          cases h
        · cases h
    · unfold reduceJob at h
      obtain ⟨⟨chunk, reducer'⟩, _, h⟩ := bind_ok.mp h
      cases chunk with
      | ok distances => cases h
      | error left =>
        cases h
        rfl
  · cases h

/-- The task manager keeps its plans on what comes to it. -/
def trader (checks : Bool) {externals : Externals} {codec : Codec} (agree : Agree externals codec) :
    Trader (trade externals codec) (engine checks externals) where
  keeps s := ∃ received, Planned checks externals received s
  start := by
    refine ⟨[], ?_, .new, .new, ?_⟩
    · rintro job ⟨⟩
    · rintro job ⟨⟩
  queued := fun _ ⟨_, planned⟩ => planned.sought.queued
  step := fun s t e out ⟨received, planned⟩ fed taken =>
    ⟨note received s e out, step_planned planned agree (worked_of_fed fed) taken⟩
  error := fun _ _ _ ⟨_, planned⟩ fed failed => planned.error agree (worked_of_fed fed) failed
  asks := fun _ _ _ _ ⟨_, planned⟩ hc h => processCurrent_asks planned hc h
  ends := fun _ _ _ _ _ _ _ h => processCurrent_ends h
  receives := fun _ _ _ _ _ h => congrArg JobPhase.json (receive_phase h)

end

def streetTurns : List (Grid.Turn JobData) :=
  [.manager (.command (.addJob street 7)), .manager .processJob,
    .manager (.scheduler (.message .schedulerFree)), .manager .processJob, .manager .processJob,
    .request, .request, .scheduler (Scheduler.joinOf 1 1), .scheduler .schedule,
    .scheduler (.worker (.message 1 (.result ⟨0, 5, [0, 1, 3, 0, 0]⟩))), .response,
    .manager .processJob, .manager .processJob]

/-- What the turns keep to can be told by looking. -/
def streetFair (g : Grid JobData Started Distance) : Grid.Turn JobData → Bool
  | .manager event => decide (event.received = none ∧ ∀ job ∈ event.addedJob?, job.2 = street)
  | .response => decide ((∀ about ∈ g.down.head?, about.1 = some 7) ∧
      ∀ job ∈ g.manager.currentJob, job.id = 7)
  | .scheduler (.taskManager (.message _)) => false
  | .scheduler event => decide (∀ result ∈ g.scheduler.accepts event,
      result = ⟨0, 5, [0, 1, 3, 0, 0]⟩ ∧ (∀ job ∈ g.scheduler.scheduledJob, job.id = 7) ∧
        (⟨7, some (streetArgs, []), [], [⟨0, [0, 1, 0]⟩]⟩ : WorkerRequest) ∈ g.orders)
  | .request => true
  | .cut _ => true

theorem fair_street {g : Grid JobData Started Distance} {turn : Grid.Turn JobData}
    (h : streetFair g turn = true) : Grid.Fair (trade streetExternals streetCodec) g turn := by
  have computes : (trade streetExternals streetCodec).computes streetArgs ⟨0, [0, 1, 0]⟩
      ⟨0, 5, [0, 1, 3, 0, 0]⟩ := ⟨rfl, false, by decide +kernel⟩
  unfold streetFair at h
  split at h
  · obtain ⟨hreceived, hadded⟩ := of_decide_eq_true h
    exact ⟨hreceived, fun job hjob => hadded job hjob ▸ solvable_street⟩
  · obtain ⟨htag, hid⟩ := of_decide_eq_true h
    intro about habout _ job work hc _
    rw [htag about habout, hid job hc]
  · cases h
  · rename_i event hnot
    refine ⟨hnot, ?_⟩
    intro result job haccepts hj
    obtain ⟨rfl, hid, horder⟩ := of_decide_eq_true h result haccepts
    exact ⟨_, horder, _, horder, (hid job hj).symm, (hid job hj).symm, streetArgs, [], rfl, _,
      List.mem_cons_self, computes⟩
  · trivial
  · trivial

end GridServer.TaskManager
