import GridServer.Library.Run
import GridServer.Scheduler.Refinement.Results
import GridServer.Scheduler.Refinement.Scheduling

namespace GridServer.Scheduler
open Library

variable {checks : Bool} {s s' : Scheduler} {job : ScheduledJob} {out : List Sent}

/-- The moves of an event, other than a turn of the scheduling branch or the start of a job. -/
def moves (s : Scheduler) (job : ScheduledJob) : Event → List Move
  | .worker (.connected info _) => [.join info.workerId info.subworkers]
  | .worker (.disconnected w) => [.leave w]
  | .worker (.message w (.result result)) => resultMoves (s.board job) job w result.id
  | .worker (.message w (.error (.libraryMissing tasks replacements))) =>
    (tasks.map fun t => .report w t none) ++ replacements.map fun r => .report w r.2 (some r.1)
  | .worker (.message w (.error (.taskExecutionError t _))) => [.report w t none]
  | .worker (.message w (.error (.noFreeExecutors tasks))) => refusal (s.board job) w tasks
  | .nodeManager (.message (.disconnect w)) => [.leave w]
  | .nodeManager (.message .createdSession) =>
    if s.connectionManager.nodeManager then [] else [.forget]
  | .taskManager (.message (.task batch)) => batch.map fun taskData => .queue taskData.id
  | _ => []

/-- The moves a step makes. Those of the scheduling branch depend on the order of the queues:
they are some tasks for the worker at the head, no more than it accepts, and some in place of
tasks it is due to have replaced. -/
inductive Traces (checks : Bool) (s : Scheduler) (job : ScheduledJob) : Event → List Move → Prop where
  | event (e : Event) : e ≠ .schedule → Traces checks s job e (s.moves job e)
  | idle : Traces checks s job .schedule []
  | schedule {w : WorkerId} {v : Worker} {n : Nat} {kept : List TaskId} (tasks : List WorkerTask)
      (replacements : List (TaskId × WorkerTask)) :
      s.workersQueue.heap[0]? = some w → s.workersQueue.get w = some v →
      v.canAccept checks = .ok n → tasks.length ≤ n →
      v.replacements = kept ++ (replacements.map Prod.fst).reverse →
      Traces checks s job .schedule
        ((tasks.map fun t => .give w t.id) ++ replacements.flatMap (replacementMoves w))

/-- The workers there at the end were there before, or have nothing to do. -/
def KeepsWorkers (s s' : Scheduler) : Prop :=
  ∀ w v, s'.workersQueue.get w = some v →
    s.workersQueue.get w = some v ∨ (v.assignments = [] ∧ v.replacements = [])

/-- What a step can come to: no job, a job given up, a new job, or the same job with its books
moved. -/
inductive Outcome (checks : Bool) (s : Scheduler) (e : Event) (s' : Scheduler) : Prop where
  | jobless : s'.scheduledJob = none → KeepsWorkers s s' → Outcome checks s e s'
  | abandoned (job job' : ScheduledJob) (w : WorkerId) (t : TaskId) (error : String) :
      e = .worker (.message w (.error (.taskExecutionError t error))) →
      s.scheduledJob = some job → s'.scheduledJob = none →
      s'.board job' = (s.board job).move (.report w t none) → Outcome checks s e s'
  | started (id : Uuid) (totalTasks : Nat) (job : WorkerJobData) :
      e = .taskManager (.message (.newJob id totalTasks job)) →
      s' = (s.processNewJob id totalTasks job).1 → Outcome checks s e s'
  | moved (job : ScheduledJob) (ms : List Move) : s.scheduledJob = some job →
      Traces checks s job e ms → Follows s job s' ms → Outcome checks s e s'

theorem KeepsWorkers.refl (s : Scheduler) : KeepsWorkers s s := fun _ _ h => .inl h

theorem KeepsWorkers.update {o : Option Worker} {w : WorkerId}
    (h : s'.workersQueue.get = Function.update s.workersQueue.get w o)
    (ho : ∀ v, o = some v → v.assignments = [] ∧ v.replacements = []) : KeepsWorkers s s' := by
  intro k v hv
  rw [h] at hv
  by_cases hk : k = w
  · subst hk
    rw [Function.update_self] at hv
    exact .inr (ho v hv)
  · rw [Function.update_of_ne hk] at hv
    exact .inl hv

theorem KeepsWorkers.cleared (h : s'.workersQueue = s.workersQueue.clear) : KeepsWorkers s s' := by
  intro w v hv
  rw [h, PriorityQueue.get_clear] at hv
  cases hv

theorem processConnected_sound (sound : s.Sound) {info : WorkerInfo} {node : Node}
    (h : s.processConnected checks info node = .ok (s', out)) :
    s'.Sound ∧ s'.scheduledJob = s.scheduledJob ∧ KeepsWorkers s s' := by
  obtain ⟨rfl, workersQueue, old, hp, rfl⟩ := processConnected_ok h
  obtain ⟨hi, hget⟩ := PriorityQueue.push_content sound.workers.indexed hp
  exact ⟨⟨sound.tasks, sound.workers.update hi hget (by rintro v ⟨⟩; rfl), sound.completed⟩, rfl,
    .update hget (by rintro v ⟨⟩; exact ⟨rfl, rfl⟩)⟩

theorem processWorkerDisconnect_sound (sound : s.Sound) (hj : s.scheduledJob = none)
    {w : WorkerId} (h : s.processWorkerDisconnect checks w = .ok s') :
    s'.Sound ∧ s'.scheduledJob = none ∧ KeepsWorkers s s' := by
  rcases processWorkerDisconnect_left sound.workers.indexed h with ⟨_, rfl⟩ |
    ⟨v, workersQueue, tasksQueue, j, hv, hi, hget, rfl, hend⟩
  · exact ⟨⟨sound.tasks, sound.workers, sound.completed⟩, hj, .refl s⟩
  · rcases hend with ⟨_, rfl, rfl⟩ | ⟨before, _, hbefore, _⟩
    · refine ⟨⟨sound.tasks, sound.workers.update hi hget (by rintro v ⟨⟩), ?_⟩, rfl,
        .update hget (by rintro v ⟨⟩)⟩
      rintro _ ⟨⟩
    · rw [hj] at hbefore
      cases hbefore

theorem processCreatedSession_sound (sound : s.Sound) (hj : s.scheduledJob = none)
    (h : s.processCreatedSession = .ok (s', out)) :
    s'.Sound ∧ s'.scheduledJob = none ∧ KeepsWorkers s s' := by
  rcases processCreatedSession_ok h with ⟨rfl, _⟩ | ⟨_, tasksQueue, j, rfl, hend⟩
  · exact ⟨sound, hj, .refl s⟩
  · rcases hend with ⟨_, rfl, rfl, _⟩ | ⟨before, hbefore, _⟩
    · exact ⟨⟨sound.tasks, .clear, by rintro _ ⟨⟩⟩, rfl, .cleared rfl⟩
    · rw [hj] at hbefore
      cases hbefore

/-- Without a job, only the start of one brings one. -/
theorem step_jobless (sound : s.Sound) (hj : s.scheduledJob = none) {e : Event}
    (hnew : ∀ id totalTasks job, e ≠ .taskManager (.message (.newJob id totalTasks job)))
    (h : s.step checks e = .ok (s', out)) : s'.Sound ∧ s'.scheduledJob = none ∧ KeepsWorkers s s' := by
  have same : ∀ {x : Except Fault (Scheduler × List Sent)}, x = .ok (s, []) →
      x = .ok (s', out) → s'.Sound ∧ s'.scheduledJob = none ∧ KeepsWorkers s s' := by
    intro x hx h
    rw [hx, Except.ok.injEq, Prod.mk.injEq] at h
    exact h.1 ▸ ⟨sound, hj, .refl s⟩
  cases step_branch h with
  | hello | noTaskManager | nodes | nodeManagerConnected | scheduledJob | listedWorkers
  | listedTasks => exact ⟨sound, hj, .refl s⟩
  | newJob id totalTasks data => exact absurd rfl (hnew id totalTasks data)
  | tasks batch _ _ taken => exact same (by simp [processTaskBatch, hj]) taken
  | taskManagerConnected | restoredSession | nodeManagerLeft =>
    exact ⟨⟨sound.tasks, sound.workers, sound.completed⟩, hj, .refl s⟩
  | taskManagerLeft => exact ⟨⟨.clear, .clear, by rintro _ ⟨⟩⟩, rfl, .cleared rfl⟩
  | nodeLeft w _ taken | disconnected w _ taken =>
    exact processWorkerDisconnect_sound sound hj taken
  | createdSession _ _ taken => exact processCreatedSession_sound sound hj taken
  | schedule _ _ _ taken => exact same (by simp [processScheduling, hj]) taken
  | connected info node _ _ taken =>
    obtain ⟨hs, he, hk⟩ := processConnected_sound sound taken
    exact ⟨hs, he.trans hj, hk⟩
  | result w result _ _ taken => exact same (by simp [processResult, hj]) taken
  | libraryMissing w tasks replacements _ _ taken =>
    exact same (by simp [processLibraryMissing, hj]) taken
  | taskExecutionError w t error _ _ taken =>
    exact same (by simp [processTaskExecutionError, hj]) taken
  | noFreeExecutors w tasks _ _ taken => exact same (by simp [processNoFreeExecutors, hj]) taken

/-- With a job, every event but the start of another follows its moves, or ends the job. -/
theorem step_moved (sound : s.Sound) (hj : s.scheduledJob = some job) {e : Event}
    (hnew : ∀ id totalTasks job, e ≠ .taskManager (.message (.newJob id totalTasks job)))
    (h : s.step checks e = .ok (s', out)) :
    s'.Sound ∧ Outcome checks s e s' := by
  have follows : e ≠ .schedule → Follows s job s' (s.moves job e) →
      s'.Sound ∧ Outcome checks s e s' :=
    fun hne hf => ⟨hf.sound, .moved job _ hj (.event e hne) hf⟩
  have unmoved : s'.scheduledJob = s.scheduledJob → s'.tasksQueue = s.tasksQueue →
      s'.workersQueue = s.workersQueue → Follows s job s' [] := by
    intro hjob htasks hworkers
    refine ⟨⟨htasks ▸ sound.tasks, hworkers ▸ sound.workers, hjob ▸ sound.completed⟩, job,
      hjob.trans hj, .refl job, ?_⟩
    rw [board, htasks, hworkers]
    rfl
  cases step_branch h with
  | hello | noTaskManager | nodes | nodeManagerConnected | scheduledJob | listedWorkers
  | listedTasks => exact follows (by simp) (.refl sound hj)
  | newJob id totalTasks data => exact absurd rfl (hnew id totalTasks data)
  | tasks batch _ _ taken => exact follows (by simp) (processTaskBatch_refines sound hj taken)
  | taskManagerConnected | restoredSession | nodeManagerLeft =>
    exact follows (by simp) (unmoved rfl rfl rfl)
  | taskManagerLeft => exact ⟨⟨.clear, .clear, by simp⟩, .jobless rfl (.cleared rfl)⟩
  | nodeLeft w _ taken | disconnected w _ taken =>
    exact follows (by simp) (processWorkerDisconnect_refines sound hj taken)
  | createdSession _ _ taken =>
    exact follows (by simp) (processCreatedSession_refines sound hj taken)
  | schedule _ _ _ taken =>
    rcases processScheduling_refines sound hj taken with ⟨_, _, hf⟩ |
      ⟨w, v, n, tasks, replacements, kept, hw, hv, hn, hlen, hkept, hf, _⟩
    · exact ⟨hf.sound, .moved job [] hj .idle hf⟩
    · exact ⟨hf.sound, .moved job _ hj (.schedule tasks replacements hw hv hn hlen hkept) hf⟩
  | connected info node _ _ taken => exact follows (by simp) (processConnected_refines sound hj taken)
  | result w result _ _ taken => exact follows (by simp) (processResult_refines sound hj taken)
  | libraryMissing w tasks replacements _ _ taken =>
    exact follows (by simp) (processLibraryMissing_refines sound hj taken)
  | taskExecutionError w t error _ _ taken =>
    rcases processTaskExecutionError_refines sound hj taken with ⟨hs, hnone, job', hboard⟩ | hf
    · exact ⟨hs, .abandoned job job' w t error rfl hj hnone hboard⟩
    · exact follows (by simp) hf
  | noFreeExecutors w tasks _ _ taken =>
    exact follows (by simp) (processNoFreeExecutors_refines sound hj taken)

/-- Every step keeps the queues sound and comes to one of the outcomes. -/
theorem step_outcome (sound : s.Sound) {e : Event} (h : s.step checks e = .ok (s', out)) :
    s'.Sound ∧ Outcome checks s e s' := by
  by_cases hnew : ∃ id totalTasks job, e = .taskManager (.message (.newJob id totalTasks job))
  · obtain ⟨id, totalTasks, job, rfl⟩ := hnew
    simp only [step, processTaskManager, Except.ok.injEq] at h
    have hs : s' = (s.processNewJob id totalTasks job).1 := by rw [h]
    refine ⟨?_, .started id totalTasks job rfl hs⟩
    rw [hs]
    exact ⟨.clear, .clear, by rintro _ ⟨⟩; simp⟩
  · have hne : ∀ id totalTasks job,
        e ≠ .taskManager (.message (.newJob id totalTasks job)) :=
      fun id totalTasks job he => hnew ⟨id, totalTasks, job, he⟩
    cases hj : s.scheduledJob with
    | none =>
      obtain ⟨hs, hnone, hkept⟩ := step_jobless sound hj hne h
      exact ⟨hs, .jobless hnone hkept⟩
    | some job => exact step_moved sound hj hne h

theorem sound_new (config : Config) : (Scheduler.new config).Sound :=
  ⟨.new, .new, by rintro _ ⟨⟩⟩

/-- Every reachable state is sound. -/
theorem run_sound {config : Config} {meets : Scheduler → Event → Prop} {es : List Event}
    (run : Run (step checks) meets (Scheduler.new config) es out s) : s.Sound :=
  run.preserves (I := Scheduler.Sound) (sound_new config)
    fun _ _ _ _ hI _ h => (step_outcome hI h).1

/-- The books of a new job are empty. -/
theorem board_newJob (s : Scheduler) (id : Uuid) (totalTasks : Nat) (data : WorkerJobData) :
    ∃ job, (s.processNewJob id totalTasks data).1.scheduledJob = some job ∧
      (s.processNewJob id totalTasks data).1.board job =
        ⟨fun _ => none, fun _ => none, 0, 0⟩ := by
  refine ⟨_, rfl, ?_⟩
  simp [board, Board.of, processNewJob, reset]

/-- The rule for the books: what holds of empty books, and what the moves of every step keep,
holds of the books of every job that a run reaches. -/
theorem run_books {config : Config} {meets : Scheduler → Event → Prop} {es : List Event}
    {I : Board → Prop} (empty : I ⟨fun _ => none, fun _ => none, 0, 0⟩)
    (keep : ∀ s job e ms, s.Sound → s.scheduledJob = some job → meets s e →
      Traces checks s job e ms → I (s.board job) → I (ms.foldl Board.move (s.board job)))
    (run : Run (step checks) meets (Scheduler.new config) es out s) :
    ∀ job, s.scheduledJob = some job → I (s.board job) := by
  refine (run.preserves (I := fun s => s.Sound ∧ ∀ job, s.scheduledJob = some job →
    I (s.board job)) ⟨sound_new config, by rintro _ ⟨⟩⟩ ?_).2
  intro t e u _ hI met taken
  obtain ⟨hsound, outcome⟩ := step_outcome hI.1 taken
  refine ⟨hsound, ?_⟩
  intro job' hjob'
  cases outcome with
  | jobless hn _ =>
    rw [hn] at hjob'
    cases hjob'
  | abandoned _ _ _ _ _ _ _ hn _ =>
    rw [hn] at hjob'
    cases hjob'
  | started id totalTasks data _ hu =>
    obtain ⟨job, hjob, hboard⟩ := board_newJob t id totalTasks data
    rw [hu, hjob, Option.some.injEq] at hjob'
    rw [hu, ← hjob', hboard]
    exact empty
  | moved job ms hj traces follows =>
    obtain ⟨job₁, hjob₁, _, hboard⟩ := follows.books
    rw [hjob₁, Option.some.injEq] at hjob'
    rw [← hjob', hboard]
    exact keep t job e ms hI.1 hj met traces (hI.2 job hj)

end GridServer.Scheduler
