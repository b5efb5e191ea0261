import GridServer.Scheduler.Refinement.Reports

namespace GridServer.Scheduler
open Library

variable {checks : Bool} {s s' : Scheduler} {job : ScheduledJob} {out : List Sent}

section Results

/-- One other worker of a completed task is one step of the books' loop. -/
theorem replaceTask_refines (tasks : TaskId → Option Task) (job : ScheduledJob) {t : TaskId}
    {q q' : PriorityQueue Worker} {w : WorkerId} (hk : Keyed Worker.id q)
    (h : replaceTask checks t q w = .ok q') :
    Keyed Worker.id q' ∧ Board.of tasks q'.get job = (Board.of tasks q.get job).replace t w := by
  unfold replaceTask at h
  split at h
  · rename_i hn
    rw [Except.ok.injEq] at h
    subst h
    refine ⟨hk, (Board.editWorker_absent ?_ _).symm⟩
    simp [Board.of, PriorityQueue.getMut_eq_none.mp hn]
  · rename_i worker hw
    obtain ⟨v, hv, rfl⟩ := PriorityQueue.getMut_eq_some.mp hw
    obtain ⟨hq, hget⟩ := (((RefMut.of_get hv).releaseTask t).addReplacement t).drop hk
      (by simpa using hk.keyed w v hv) h
    refine ⟨hq, ?_⟩
    rw [hget, RefMut.addReplacement_key, RefMut.releaseTask_key]
    exact Board.of_editWorker hv (by
      simp [Worker.holder, Holder.release, Holder.addReplacement])

theorem settleReporter_refines (tasks : TaskId → Option Task) (job : ScheduledJob) {t : TaskId}
    {q q' : PriorityQueue Worker} {w : WorkerId} (hk : Keyed Worker.id q)
    (h : settleReporter checks q w t = .ok q') :
    Keyed Worker.id q' ∧ Board.of tasks q'.get job =
      (Board.of tasks q.get job).editWorker w fun h => h.release t := by
  unfold settleReporter at h
  split at h
  · rename_i hn
    rw [Except.ok.injEq] at h
    subst h
    refine ⟨hk, (Board.editWorker_absent ?_ _).symm⟩
    simp [Board.of, PriorityQueue.getMut_eq_none.mp hn]
  · rename_i worker hw
    obtain ⟨v, hv, rfl⟩ := PriorityQueue.getMut_eq_some.mp hw
    obtain ⟨hq, hget⟩ := ((RefMut.of_get hv).releaseTask t).drop hk
      (by simpa using hk.keyed w v hv) h
    refine ⟨hq, ?_⟩
    rw [hget, RefMut.releaseTask_key]
    exact Board.of_editWorker hv (by simp [Worker.holder, Holder.release])

/-- The workers after the result of a queued task follow the books' `complete`. -/
theorem settleWorkers_refines (tasks : TaskId → Option Task) (job : ScheduledJob) {t : TaskId}
    {task : Task} {q q' : PriorityQueue Worker} {w : WorkerId} (hk : Keyed Worker.id q)
    (h : settleWorkers checks q w t task = .ok q') :
    Keyed Worker.id q' ∧ Board.of tasks q'.get job =
      (withdraw task.assignments w).foldl (Board.replace t)
        ((Board.of tasks q.get job).editWorker w fun h => h.release t) := by
  simp only [settleWorkers, bind_ok] at h
  obtain ⟨q₁, h₁, hloop⟩ := h
  have hsim := foldlM_simulates (m := id) (g := Board.replace t)
    (R := fun q board => Keyed Worker.id q ∧ Board.of tasks q.get job = board)
    (fun w q q' board hR hw => by
      obtain ⟨hq, he⟩ := replaceTask_refines tasks job hR.1 hw
      exact ⟨hq, hR.2 ▸ he⟩) (settleReporter_refines tasks job hk h₁) hloop
  rwa [List.map_id] at hsim

/-- The state after the result of a queued task, before the test for completion. -/
def accepted (s : Scheduler) (job : ScheduledJob) (average : Duration)
    (tasksQueue : PriorityQueue Task) (workersQueue : PriorityQueue Worker)
    (buffer : Buffer WorkerResult 200) : Scheduler :=
  { s with
    scheduledJob := some { job with
      completedTasks := job.completedTasks + 1, avgTaskCompletionTime := average }
    tasksQueue := tasksQueue
    workersQueue := workersQueue
    resultsBuffer := buffer
    needSchedule := true }

/-- What a result does while its task is queued: the task leaves, the result is buffered, and the
last one closes the job. -/
theorem processResult_queued (sound : s.Sound) (hj : s.scheduledJob = some job) {w : WorkerId}
    {result : WorkerResult} {task : Task} (ht : s.tasksQueue.get result.id = some task)
    (h : s.processResult checks w result = .ok (s', out)) :
    ∃ average tasksQueue workersQueue buffer batch,
      s.tasksQueue.remove Task.cmpPriority result.id = .ok (tasksQueue, some (result.id, task)) ∧
      s.resultsBuffer.push result = .ok (buffer, batch) ∧
      settleWorkers checks s.workersQueue w result.id task = .ok workersQueue ∧
      nextAverage job (job.completedTasks + 1) result.executionTime = .ok average ∧
      job.completedTasks + 1 < 2 ^ 128 ∧
      ((job.completedTasks + 1 = job.totalTasks ∧
          s' = (s.accepted job average tasksQueue workersQueue buffer).reset ∧
          out = (batch.toList.map fun batch => .taskManager (.taskResults batch)) ++
            [.taskManager (.jobComplete buffer.contents
              { job.stats with
                completedTasks := job.completedTasks + 1, avgTaskCompletionTime := average }),
             .nodeManager .releaseDemand]) ∨
        (job.completedTasks + 1 ≠ job.totalTasks ∧
          s' = s.accepted job average tasksQueue workersQueue buffer ∧
          out = batch.toList.map fun batch => .taskManager (.taskResults batch))) := by
  unfold processResult at h
  split at h
  · rename_i hn
    rw [hn] at hj
    cases hj
  rename_i job₀ hj₀
  rw [hj, Option.some.injEq] at hj₀
  subst hj₀
  rw [bind_ok] at h
  obtain ⟨⟨tasksQueue, removed⟩, hr, h⟩ := h
  rcases PriorityQueue.remove_content sound.tasks.indexed hr with
    ⟨_, _, hnone⟩ | ⟨v, rfl, hv, _, _⟩
  · rw [hnone] at ht
    cases ht
  · rw [ht, Option.some.injEq] at hv
    subst hv
    simp only [acceptResult, bind_ok] at h
    obtain ⟨completedTasks, hadd, average, havg, ⟨buffer, batch⟩, hpush, workersQueue, hsettle,
      h⟩ := h
    have hsum : completedTasks = job.completedTasks + 1 ∧ job.completedTasks + 1 < 2 ^ 128 := by
      have hlt := sound.completed job hj
      have hval := addBits_ok hadd
      by_cases hfit : job.completedTasks + 1 < 2 ^ 128
      · exact ⟨by rw [hval, wrappingAdd_of_lt hfit], hfit⟩
      · -- the count would wrap to zero, by which the average is divided
        have hzero : completedTasks = 0 := by
          rw [hval, wrappingAdd, if_neg hfit]
          omega
        rw [hzero] at havg
        simp [nextAverage, u128Div] at havg
    obtain ⟨rfl, hfit⟩ := hsum
    refine ⟨average, tasksQueue, workersQueue, buffer, batch, hr, hpush, hsettle, havg, hfit, ?_⟩
    split at h
    · rename_i hdone
      simp only [Buffer.filledSlice_eq, ok_bind, except_pure, Except.ok.injEq, Prod.mk.injEq] at h
      exact .inl ⟨hdone, h.1.symm, h.2.symm⟩
    · rename_i hmore
      simp only [except_pure, Except.ok.injEq, Prod.mk.injEq] at h
      exact .inr ⟨hmore, h.1.symm, h.2.symm⟩

/-- A result of a task that is not queued at most edits the worker that sent it. -/
theorem processResult_late (sound : s.Sound) (hj : s.scheduledJob = some job) {w : WorkerId}
    {result : WorkerResult} (ht : s.tasksQueue.get result.id = none)
    (h : s.processResult checks w result = .ok (s', out)) :
    out = [] ∧ (∃ workersQueue need, s' = { s with
        workersQueue := workersQueue, needSchedule := need }) ∧
      Follows s job s' [.report w result.id none] := by
  have hboard : (s.board job).tasks result.id = none := by rw [board_tasks, ht, Option.map_none]
  unfold processResult at h
  split at h
  · rename_i hn
    rw [hn] at hj
    cases hj
  rw [bind_ok] at h
  obtain ⟨⟨tasksQueue, removed⟩, hr, h⟩ := h
  rcases PriorityQueue.remove_content sound.tasks.indexed hr with
    ⟨rfl, rfl, _⟩ | ⟨v, _, hv, _, _⟩
  · simp only [lateResult] at h
    split at h
    · rename_i hw
      simp only [Except.ok.injEq, Prod.mk.injEq] at h
      obtain ⟨rfl, rfl⟩ := h
      exact ⟨rfl, ⟨_, _, rfl⟩, .absent sound hj hw (by simp)⟩
    · rename_i worker hw
      obtain ⟨v, hv, rfl⟩ := PriorityQueue.getMut_eq_some.mp hw
      simp only [bind_ok, except_pure, Except.ok.injEq, Prod.mk.injEq] at h
      obtain ⟨worker, hworker, workersQueue, hd, rfl, rfl⟩ := h
      obtain ⟨hkey, ⟨ts, hts⟩, hholder, hof⟩ := RefMut.releaseFinished_ok hworker
      obtain ⟨hq, hget⟩ := (hof (RefMut.of_get hv)).drop sound.workers
        (by rw [hts, hkey]; exact sound.workers.keyed w v hv) hd
      refine ⟨rfl, ⟨_, _, rfl⟩, ⟨sound.tasks, hq, sound.completed⟩, job, hj, .refl job, ?_⟩
      have hb : (s.board job).workers w = some v.holder := by
        rw [board_workers, hv, Option.map_some]
      simp only [List.foldl_cons, List.foldl_nil, Board.move, Board.report, hb, hboard]
      rw [board, hget, hkey, Board.of_editWorker (f := fun h => h.releaseFinished result.id) hv hholder]
      rfl
  · rw [ht] at hv
    cases hv

/-- The moves of a result: the task is completed, or the report comes too late. -/
def resultMoves (b : Board) (job : ScheduledJob) (w : WorkerId) (t : TaskId) : List Move :=
  if (b.tasks t).isSome then
    .complete w t :: if job.completedTasks + 1 = job.totalTasks then [.clear] else []
  else [.report w t none]

theorem processResult_refines (sound : s.Sound) (hj : s.scheduledJob = some job) {w : WorkerId}
    {result : WorkerResult} (h : s.processResult checks w result = .ok (s', out)) :
    Follows s job s' (resultMoves (s.board job) job w result.id) := by
  cases ht : s.tasksQueue.get result.id with
  | none =>
    have hmoves : resultMoves (s.board job) job w result.id = [.report w result.id none] := by
      simp [resultMoves, board_tasks, ht]
    rw [hmoves]
    exact (processResult_late sound hj ht h).2.2
  | some task =>
    obtain ⟨average, tasksQueue, workersQueue, buffer, batch, hr, _, hsettle, _, hfit, hend⟩ :=
      processResult_queued sound hj ht h
    rcases PriorityQueue.remove_content sound.tasks.indexed hr with
      ⟨hnone, _⟩ | ⟨v, hsome, hv, hi, hget⟩
    · cases hnone
    · obtain ⟨hq, hbooks⟩ := settleWorkers_refines tasksQueue.get
        { job with
          completedTasks := job.completedTasks + 1, avgTaskCompletionTime := average }
        sound.workers hsettle
      have hb : (s.board job).tasks result.id = some task.assignments := by
        rw [board_tasks, ht, Option.map_some]
      have hcomplete : (s.accepted job average tasksQueue workersQueue buffer).board
          { job with
            completedTasks := job.completedTasks + 1, avgTaskCompletionTime := average } =
          (s.board job).move (.complete w result.id) := by
        simp only [board, accepted, hbooks, Board.move, Board.complete]
        rw [show (Board.of s.tasksQueue.get s.workersQueue.get job).tasks result.id = _ from hb]
        simp only
        rw [hget, Board.of_setTask]
        rfl
      have hsound : (s.accepted job average tasksQueue workersQueue buffer).Sound := by
        refine ⟨sound.tasks.update hi hget (by rintro v ⟨⟩), hq, ?_⟩
        rintro _ ⟨⟩
        exact hfit
      rcases hend with ⟨hdone, rfl, _⟩ | ⟨hmore, rfl, _⟩
      · refine ⟨⟨.clear, .clear, hsound.completed⟩, _, rfl, ⟨rfl, rfl, rfl⟩, ?_⟩
        simp only [resultMoves, hb, Option.isSome_some, hdone, ↓reduceIte, List.foldl_cons,
          List.foldl_nil, ← hcomplete]
        simp [board, Board.of, Board.move, reset]
      · refine ⟨hsound, _, rfl, ⟨rfl, rfl, rfl⟩, ?_⟩
        simp only [resultMoves, hb, Option.isSome_some, hmore, ↓reduceIte, List.foldl_cons,
          List.foldl_nil]
        exact hcomplete

end Results

section Managers

theorem queueTask_content {q q' : PriorityQueue Task} {taskData : WorkerTask}
    (hk : Keyed Task.key q) (h : queueTask q taskData = .ok q') :
    Keyed Task.key q' ∧ q'.get = Function.update q.get taskData.id
      (some { failedExecutions := 0, assignments := [], taskData := taskData }) := by
  simp only [queueTask, bind_ok, except_pure, Except.ok.injEq] at h
  obtain ⟨⟨q₁, old⟩, hp, rfl⟩ := h
  obtain ⟨hi, hget⟩ := PriorityQueue.push_content hk.indexed hp
  exact ⟨hk.update hi hget (by rintro v ⟨⟩; rfl), hget⟩

/-- One new task is one move of the books. -/
theorem queueTask_refines (workers : WorkerId → Option Worker) (job : ScheduledJob)
    {q q' : PriorityQueue Task} {taskData : WorkerTask} (hk : Keyed Task.key q)
    (h : queueTask q taskData = .ok q') :
    Keyed Task.key q' ∧
      Board.of q'.get workers job = (Board.of q.get workers job).move (.queue taskData.id) := by
  obtain ⟨hk', hget⟩ := queueTask_content hk h
  refine ⟨hk', ?_⟩
  rw [hget, Board.of_setTask]
  rfl

theorem processTaskBatch_refines (sound : s.Sound) (hj : s.scheduledJob = some job)
    {batch : List WorkerTask} (h : s.processTaskBatch checks batch = .ok (s', out)) :
    Follows s job s' (batch.map fun taskData => .queue taskData.id) := by
  obtain ⟨_, ⟨_, hnone⟩ | ⟨job', received, tasksQueue, hjob, _, hloop, rfl⟩⟩ :=
    processTaskBatch_ok h
  · rw [hj] at hnone
    cases hnone
  rw [hj, Option.some.injEq] at hjob
  subst hjob
  have hsim := foldlM_simulates (m := fun taskData : WorkerTask => Move.queue taskData.id)
    (R := fun q board => Keyed Task.key q ∧ Board.of q.get s.workersQueue.get job = board)
    (fun taskData q q' board hR hq => by
      obtain ⟨hk, he⟩ := queueTask_refines s.workersQueue.get job hR.1 hq
      exact ⟨hk, hR.2 ▸ he⟩) ⟨sound.tasks, rfl⟩ hloop
  refine ⟨⟨hsim.1, sound.workers, ?_⟩, _, rfl, ⟨rfl, rfl, rfl⟩, ?_⟩
  · rintro _ ⟨⟩
    exact sound.completed job hj
  · rw [← show s.board job = Board.of s.tasksQueue.get s.workersQueue.get job from rfl] at hsim
    rw [← hsim.2]
    rfl

theorem processCreatedSession_refines (sound : s.Sound) (hj : s.scheduledJob = some job)
    (h : s.processCreatedSession = .ok (s', out)) :
    Follows s job s' (if s.connectionManager.nodeManager then [] else [.forget]) := by
  rcases processCreatedSession_ok h with ⟨rfl, _, connected⟩ | ⟨away, tasksQueue, j, rfl, hend⟩
  · rw [if_pos connected]
    exact .refl sound hj
  · rcases hend with ⟨hnone, _⟩ | ⟨before, hbefore, hm, rfl, _⟩
    · rw [hj] at hnone
      cases hnone
    rw [hj, Option.some.injEq] at hbefore
    subst hbefore
    obtain ⟨hi, hget⟩ := PriorityQueue.mapValues_content sound.tasks.indexed hm
    rw [if_neg (by simp [away])]
    refine ⟨⟨⟨hi, ?_⟩, .clear, ?_⟩, _, rfl, ⟨rfl, rfl, rfl⟩, ?_⟩
    · intro t task ht
      rw [hget, Option.map_eq_some_iff] at ht
      obtain ⟨v, hv, rfl⟩ := ht
      exact sound.tasks.keyed t v hv
    · rintro _ ⟨⟩
      exact sound.completed job hj
    · simp only [board, List.foldl_cons, List.foldl_nil, Board.move, Board.of, hget,
        PriorityQueue.get_clear, Option.map_none, Option.map_map]
      rfl

end Managers

end GridServer.Scheduler
