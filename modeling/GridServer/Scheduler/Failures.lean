import GridServer.Scheduler.Requests

namespace GridServer.Scheduler
open Library

variable {checks : Bool} {s s' : Scheduler} {job : ScheduledJob} {out : List Sent} {limit : Nat}

/-- The limit is the one the scheduler was started with, and no queued task has failed more often
than it allows. -/
structure Bounded (limit : Nat) (s : Scheduler) : Prop where
  config : s.config.failedExecutionsLimit = limit
  tasks : PriorityQueue.AllGood (fun task : Task => task.failedExecutions ≤ limit) s.tasksQueue

section Queues
variable {q q' : PriorityQueue Task}

/-- The queue is sound, and none of its tasks has failed more often than `limit`. -/
structure Limited (limit : Nat) (q : PriorityQueue Task) : Prop where
  keyed : Keyed Task.key q
  good : PriorityQueue.AllGood (fun task : Task => task.failedExecutions ≤ limit) q

theorem Limited.new : Limited limit PriorityQueue.new := ⟨.new, fun _ _ h => by simp at h⟩

theorem Limited.clear : Limited limit q.clear := ⟨.clear, fun _ _ h => by simp at h⟩

theorem Limited.drop (h : Limited limit q) {task : RefMut Task} (hof : task.Of q)
    (hid : task.value.key = task.key) (hle : task.value.failedExecutions ≤ limit)
    (hd : q.dropRefMut Task.cmpPriority task = .ok q') : Limited limit q' := by
  obtain ⟨hk, hget⟩ := hof.drop h.keyed hid hd
  refine ⟨hk, h.good.update hget ?_⟩
  intro v hv
  rw [Option.some.injEq] at hv
  exact hv ▸ hle

/-- A failed execution is counted only below the limit. -/
theorem countFailure_le {r r' : RefMut Task} (hle : r.value.failedExecutions ≤ limit)
    (h : countFailure checks limit r = .ok r') : r'.value.failedExecutions ≤ limit := by
  unfold countFailure at h
  split at h
  · rw [Except.ok.injEq] at h
    exact h ▸ hle
  · rename_i hne
    simp only [bind_ok, except_pure, Except.ok.injEq] at h
    obtain ⟨n, hn, rfl⟩ := h
    have hn := addBits_ok hn
    unfold wrappingAdd at hn
    rw [RefMut.derefMut_value]
    dsimp only
    split at hn <;> omega

/-- Counting a failed execution does not overflow, as the limit itself fits. -/
theorem countFailure_total {r : RefMut Task} (hle : r.value.failedExecutions ≤ limit)
    (hlimit : limit < 2 ^ 16) : Succeeds (countFailure checks limit r) := by
  unfold countFailure
  split
  · exact succeeds_ok r
  · have hadd : u16Add checks r.value.failedExecutions 1 = .ok (r.value.failedExecutions + 1) :=
      addBits_of_lt (by omega) checks
    rw [hadd]
    exact succeeds_ok _

theorem report_limited {edit : RefMut Task → Except Fault (RefMut Task)}
    {after : RefMut Worker → RefMut Worker} (he : Unrecorded edit)
    (hedit : ∀ r r', r.value.failedExecutions ≤ limit → edit r = .ok r' →
      r'.value.failedExecutions ≤ limit) {b b' : Borrowed} {t : TaskId}
    (h : Limited limit b.tasksQueue) (hr : report checks edit after b t = .ok b') :
    Limited limit b'.tasksQueue := by
  unfold report at hr
  split at hr
  · simp only [bind_ok, except_pure, Except.ok.injEq] at hr
    obtain ⟨worker, _, rfl⟩ := hr
    exact h
  · rename_i task htask
    obtain ⟨v, hv, rfl⟩ := PriorityQueue.getMut_eq_some.mp htask
    simp only [bind_ok, except_pure, Except.ok.injEq] at hr
    obtain ⟨_, _, task', htask', tasksQueue, hd, rfl⟩ := hr
    obtain ⟨hkey, hdata, _, hof⟩ := he _ _ htask'
    refine h.drop (hof _ ((RefMut.of_get hv).releaseWorker _)) ?_ (hedit _ _ ?_ htask') hd
    · rw [Task.key, hdata, hkey, RefMut.releaseWorker_value, RefMut.releaseWorker_key]
      exact h.keyed.keyed t v hv
    · rw [RefMut.releaseWorker_value]
      exact h.good t v hv

theorem reportTask_limited {b b' : Borrowed} {t : TaskId} (h : Limited limit b.tasksQueue)
    (hr : reportTask checks b t = .ok b') : Limited limit b'.tasksQueue := by
  refine report_limited unrecorded_ok ?_ h hr
  intro r r' hle he
  rw [Except.ok.injEq] at he
  exact he ▸ hle

theorem reportReplacement_limited {b b' : Borrowed} {r : TaskId × TaskId}
    (h : Limited limit b.tasksQueue) (hr : reportReplacement checks b r = .ok b') :
    Limited limit b'.tasksQueue := by
  refine report_limited unrecorded_ok ?_ h hr
  intro r r' hle he
  rw [Except.ok.injEq] at he
  exact he ▸ hle

theorem abandonTask_limited {w : WorkerId} {held held' : PriorityQueue Task × ScheduledJob}
    {t : TaskId} (h : Limited limit held.1) (ha : abandonTask checks w held t = .ok held') :
    Limited limit held'.1 := by
  unfold abandonTask at ha
  split at ha
  · rw [Except.ok.injEq] at ha
    exact ha ▸ h
  · rename_i task htask
    obtain ⟨v, hv, rfl⟩ := PriorityQueue.getMut_eq_some.mp htask
    simp only [bind_ok, except_pure, Except.ok.injEq] at ha
    obtain ⟨_, _, tasksQueue, hd, rfl⟩ := ha
    refine h.drop ((RefMut.of_get hv).releaseWorker w) ?_ ?_ hd
    · rw [RefMut.releaseWorker_value, RefMut.releaseWorker_key]
      exact h.keyed.keyed t v hv
    · rw [RefMut.releaseWorker_value]
      exact h.good t v hv

theorem queueTask_limited {taskData : WorkerTask} (h : Limited limit q)
    (hq : queueTask q taskData = .ok q') : Limited limit q' := by
  obtain ⟨hk, hget⟩ := queueTask_content h.keyed hq
  refine ⟨hk, h.good.update hget ?_⟩
  intro v hv
  rw [Option.some.injEq] at hv
  rw [← hv]
  exact Nat.zero_le _

end Queues

theorem Bounded.limited (h : Bounded limit s) (sound : s.Sound) : Limited limit s.tasksQueue :=
  ⟨sound.tasks, h.tasks⟩

/-- Putting a borrow back keeps the limit. -/
theorem Bounded.putBack (h : Bounded limit s) {b : Borrowed} {j : Option ScheduledJob} {need : Bool}
    (hb : Limited limit b.tasksQueue) (hp : s.putBack checks b j need = .ok s') :
    Bounded limit s' := by
  obtain ⟨workersQueue, _, rfl⟩ := putBack_ok.mp hp
  exact ⟨h.config, hb.good⟩

theorem processScheduling_bounded (sound : s.Sound) (h : Bounded limit s)
    (hp : s.processScheduling checks = .ok (s', out)) : Bounded limit s' := by
  cases hj : s.scheduledJob with
  | none =>
    obtain ⟨rfl, _⟩ := processScheduling_idle hj hp
    exact h
  | some job =>
    have hconfig : s'.config = s.config := by
      rcases processScheduling_cases hj hp with ⟨rfl, _⟩ |
        ⟨_, _, _, _, _, _, _, _, _, _, _, _, _, _, _, rfl, _⟩ <;> rfl
    rcases processScheduling_dispatches sound hj hp with idles |
      ⟨w, v, kept, request, _, _, dispatched⟩
    · exact ⟨hconfig ▸ h.config, h.tasks.congr idles.tasks⟩
    · refine ⟨hconfig ▸ h.config, ?_⟩
      intro t task htask
      rw [dispatched.tasks, Option.map_eq_some_iff] at htask
      obtain ⟨before, hbefore, rfl⟩ := htask
      exact h.tasks t before hbefore

theorem processWorkerDisconnect_bounded (sound : s.Sound) (h : Bounded limit s) {w : WorkerId}
    (hp : s.processWorkerDisconnect checks w = .ok s') : Bounded limit s' := by
  obtain ⟨_, _, tasksQueue, _, _, _, rfl, hend⟩ := processWorkerDisconnect_ok hp
  rcases hend with ⟨_, rfl, _⟩ | ⟨_, v, _, _, hloop⟩
  · exact ⟨h.config, h.tasks⟩
  · rcases hloop with ⟨_, rfl, _⟩ | ⟨before, after, _, _, hloop⟩
    · exact ⟨h.config, h.tasks⟩
    · have hlimited : Limited limit tasksQueue :=
        foldlM_invariant (I := fun _ held => Limited limit held.1)
          (fun _ _ _ _ hI ha => abandonTask_limited hI ha) (h.limited sound) hloop
      exact ⟨h.config, hlimited.good⟩

theorem processResult_bounded (sound : s.Sound) (h : Bounded limit s)
    (hj : s.scheduledJob = some job) {w : WorkerId} {result : WorkerResult}
    (hp : s.processResult checks w result = .ok (s', out)) : Bounded limit s' := by
  cases ht : s.tasksQueue.get result.id with
  | none =>
    obtain ⟨_, ⟨workersQueue, need, rfl⟩, _⟩ := processResult_late sound hj ht hp
    exact ⟨h.config, h.tasks⟩
  | some task =>
    obtain ⟨average, tasksQueue, workersQueue, buffer, batch, hr, _, _, _, _, hend⟩ :=
      processResult_queued sound hj ht hp
    have hgood : PriorityQueue.AllGood (fun task : Task => task.failedExecutions ≤ limit)
        tasksQueue := by
      rcases PriorityQueue.remove_content sound.tasks.indexed hr with
        ⟨hnone, _⟩ | ⟨v, _, _, _, hget⟩
      · cases hnone
      · refine h.tasks.update hget ?_
        intro v hv
        cases hv
    rcases hend with ⟨_, rfl, _⟩ | ⟨_, rfl, _⟩
    · exact ⟨h.config, Limited.clear.good⟩
    · exact ⟨h.config, hgood⟩

theorem processLibraryMissing_bounded (sound : s.Sound) (h : Bounded limit s) {w : WorkerId}
    {tasks : List TaskId} {replacements : List (TaskId × TaskId)}
    (hp : s.processLibraryMissing checks w tasks replacements = .ok (s', out)) :
    Bounded limit s' := by
  obtain ⟨_, ⟨rfl, _⟩ | ⟨job, worker, b₁, b₂, _, _, h₁, h₂, h₃⟩⟩ := processLibraryMissing_ok hp
  · exact h
  · have hlimited₁ : Limited limit b₁.tasksQueue :=
      foldlM_invariant (I := fun _ b => Limited limit b.tasksQueue)
        (fun _ _ _ _ hI hr => reportTask_limited hI hr) (h.limited sound) h₁
    have hlimited₂ : Limited limit b₂.tasksQueue :=
      foldlM_invariant (I := fun _ b => Limited limit b.tasksQueue)
        (fun _ _ _ _ hI hr => reportReplacement_limited hI hr) hlimited₁ h₂
    exact h.putBack hlimited₂ h₃

theorem processTaskExecutionError_bounded (sound : s.Sound) (h : Bounded limit s) {w : WorkerId}
    {t : TaskId} {error : String}
    (hp : s.processTaskExecutionError checks w t error = .ok (s', out)) : Bounded limit s' := by
  rcases processTaskExecutionError_ok hp with ⟨rfl, _⟩ | ⟨job, worker, b, j, _, _, hb, hput, _⟩
  · exact h
  · have hlimited : Limited limit b.tasksQueue := by
      refine report_limited (unrecorded_countFailure _) ?_ (h.limited sound) hb
      intro r r' hle hr
      rw [h.config] at hr
      exact countFailure_le hle hr
    exact h.putBack hlimited hput

theorem processNoFreeExecutors_bounded (sound : s.Sound) (h : Bounded limit s) {w : WorkerId}
    {tasks : List TaskId} (hp : s.processNoFreeExecutors checks w tasks = .ok (s', out)) :
    Bounded limit s' := by
  obtain ⟨_, ⟨rfl, _⟩ | ⟨job, worker, shrunk, need, b, _, _, _, hb, hput⟩⟩ :=
    processNoFreeExecutors_ok hp
  · exact h
  · have hlimited : Limited limit b.tasksQueue :=
      foldlM_invariant (I := fun _ b => Limited limit b.tasksQueue)
        (fun _ _ _ _ hI hr => reportTask_limited hI hr) (h.limited sound) hb
    exact h.putBack hlimited hput

theorem processTaskBatch_bounded (sound : s.Sound) (h : Bounded limit s)
    {batch : List WorkerTask} (hp : s.processTaskBatch checks batch = .ok (s', out)) :
    Bounded limit s' := by
  obtain ⟨_, ⟨rfl, _⟩ | ⟨_, _, tasksQueue, _, _, hloop, rfl⟩⟩ := processTaskBatch_ok hp
  · exact h
  · have hlimited : Limited limit tasksQueue :=
      foldlM_invariant (I := fun _ q => Limited limit q)
        (fun _ _ _ _ hI hq => queueTask_limited hI hq) (h.limited sound) hloop
    exact ⟨h.config, hlimited.good⟩

theorem processCreatedSession_bounded (sound : s.Sound) (h : Bounded limit s)
    (hp : s.processCreatedSession = .ok (s', out)) : Bounded limit s' := by
  rcases processCreatedSession_ok hp with ⟨rfl, _⟩ | ⟨_, tasksQueue, _, rfl, hend⟩
  · exact h
  · rcases hend with ⟨_, rfl, _⟩ | ⟨_, _, hm, _⟩
    · exact ⟨h.config, h.tasks⟩
    · obtain ⟨_, hget⟩ := PriorityQueue.mapValues_content sound.tasks.indexed hm
      refine ⟨h.config, ?_⟩
      intro t task htask
      rw [hget, Option.map_eq_some_iff] at htask
      obtain ⟨before, hbefore, rfl⟩ := htask
      exact h.tasks t before hbefore

theorem step_bounded (sound : s.Sound) (h : Bounded limit s) {e : Event}
    (hp : s.step checks e = .ok (s', out)) : Bounded limit s' := by
  cases step_branch hp with
  | hello | noTaskManager | nodes | nodeManagerConnected | scheduledJob | listedWorkers
  | listedTasks => exact h
  | taskManagerConnected | restoredSession | nodeManagerLeft => exact ⟨h.config, h.tasks⟩
  | taskManagerLeft | newJob => exact ⟨h.config, Limited.clear.good⟩
  | tasks batch _ _ taken => exact processTaskBatch_bounded sound h taken
  | nodeLeft w _ taken | disconnected w _ taken =>
    exact processWorkerDisconnect_bounded sound h taken
  | createdSession _ _ taken => exact processCreatedSession_bounded sound h taken
  | schedule _ _ _ taken => exact processScheduling_bounded sound h taken
  | connected info node _ _ taken =>
    obtain ⟨_, _, _, _, rfl⟩ := processConnected_ok taken
    exact ⟨h.config, h.tasks⟩
  | result w result _ _ taken =>
    cases hj : s.scheduledJob with
    | none =>
      simp only [processResult, hj, Except.ok.injEq, Prod.mk.injEq] at taken
      exact taken.1 ▸ h
    | some job => exact processResult_bounded sound h hj taken
  | libraryMissing w tasks replacements _ _ taken =>
    exact processLibraryMissing_bounded sound h taken
  | taskExecutionError w t error _ _ taken => exact processTaskExecutionError_bounded sound h taken
  | noFreeExecutors w tasks _ _ taken => exact processNoFreeExecutors_bounded sound h taken

/-- In every reachable state no queued task has failed more often than the limit allows. -/
theorem run_bounded {config : Config} {meets : Scheduler → Event → Prop} {es : List Event}
    (run : Run (step checks) meets (Scheduler.new config) es out s) :
    Bounded config.failedExecutionsLimit s := by
  refine (run.preserves (I := fun s => s.Sound ∧ Bounded config.failedExecutionsLimit s)
    ⟨sound_new config, rfl, Limited.new.good⟩ ?_).2
  intro t e u _ hI _ taken
  exact ⟨(step_outcome hI.1 taken).1, step_bounded hI.1 hI.2 taken⟩

end GridServer.Scheduler
