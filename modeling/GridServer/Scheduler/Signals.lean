import GridServer.Scheduler.Refinement.Step

namespace GridServer

/-- The task manager and the node manager hear of it. -/
def Sent.Signal : Sent → Prop
  | .taskManager _ | .nodeManager _ => True
  | _ => False

/-- The events that neither start nor end a job, nor touch the session with the node manager. -/
def Event.Quiet : Event → Prop
  | .taskManager (.message (.newJob ..)) | .taskManager .disconnect => False
  | .nodeManager (.message .createdSession) | .nodeManager (.message .restoredSession)
  | .nodeManager .disconnected => False
  | .worker (.message _ (.result _)) => False
  | .worker (.message _ (.error (.taskExecutionError ..))) => False
  | _ => True

theorem Event.quiet_or (e : Event) :
    e.Quiet ∨ (∃ id totalTasks data, e = .taskManager (.message (.newJob id totalTasks data))) ∨
      e = .taskManager .disconnect ∨ e = .nodeManager (.message .createdSession) ∨
      e = .nodeManager (.message .restoredSession) ∨ e = .nodeManager .disconnected ∨
      (∃ w result, e = .worker (.message w (.result result))) ∨
      ∃ w t error, e = .worker (.message w (.error (.taskExecutionError t error))) := by
  cases e with
  | schedule | command => exact .inl trivial
  | taskManager event =>
    cases event with
    | message request => cases request <;> simp [Quiet]
    | disconnect => simp
    | connected => exact .inl trivial
  | nodeManager event =>
    cases event with
    | message response => cases response <;> simp [Quiet]
    | disconnected => simp
    | connected | connectionNotEstablished => exact .inl trivial
  | worker event =>
    cases event with
    | connected | disconnected => exact .inl trivial
    | message w response =>
      cases response with
      | result => simp
      | error error => cases error <;> simp [Quiet]

namespace Scheduler
open Library

variable {checks : Bool} {s s' : Scheduler} {job : ScheduledJob} {out : List Sent}

/-- A step that no manager hears of, and that leaves the buffer, the session with the node manager
and the configuration alone. -/
structure Silent (s s' : Scheduler) (out : List Sent) : Prop where
  signals : ∀ m ∈ out, ¬m.Signal
  buffer : s'.resultsBuffer = s.resultsBuffer
  session : s'.connectionManager.nodeManager = s.connectionManager.nodeManager
  job : s'.scheduledJob.isSome = s.scheduledJob.isSome

theorem Silent.refl (s : Scheduler) : Silent s s [] := ⟨by simp, rfl, rfl, rfl⟩

theorem putBack_silent {b : Borrowed} {j : ScheduledJob} {need : Bool} (hj : s.scheduledJob = some job)
    (h : s.putBack checks b (some j) need = .ok s') : Silent s s' [] := by
  obtain ⟨_, _, rfl⟩ := putBack_ok.mp h
  exact ⟨by simp, rfl, rfl, by rw [hj]; rfl⟩

theorem processScheduling_silent (h : s.processScheduling checks = .ok (s', out)) :
    Silent s s' out := by
  cases hj : s.scheduledJob with
  | none =>
    obtain ⟨rfl, rfl⟩ := processScheduling_idle hj h
    exact .refl _
  | some job =>
    rcases processScheduling_cases hj h with ⟨rfl, rfl, _⟩ |
      ⟨w, v, n, g₁, tasks, g₂, replacements, workersQueue, _, _, _, _, _, _, _, rfl, rfl⟩
    · exact ⟨by simp, rfl, rfl, rfl⟩
    · refine ⟨?_, rfl, rfl, by rw [hj]; rfl⟩
      intro m hm
      simp only [dispatch, sendNode] at hm
      split at hm
      · split at hm
        · rw [List.mem_singleton.mp hm]
          exact id
        · cases hm
      · cases hm

theorem processConnected_silent {info : WorkerInfo} {node : Node}
    (h : s.processConnected checks info node = .ok (s', out)) : Silent s s' out := by
  obtain ⟨rfl, _, _, _, rfl⟩ := processConnected_ok h
  exact ⟨by simp, rfl, rfl, rfl⟩

theorem processWorkerDisconnect_silent {w : WorkerId}
    (h : s.processWorkerDisconnect checks w = .ok s') : Silent s s' [] := by
  obtain ⟨_, _, _, job, _, _, rfl, hend⟩ := processWorkerDisconnect_ok h
  refine ⟨by simp, rfl, rfl, ?_⟩
  rcases hend with ⟨_, _, rfl, _⟩ | ⟨_, _, _, _, hloop⟩
  · rfl
  · rcases hloop with ⟨hj, _, rfl⟩ | ⟨before, after, hj, rfl, _⟩
    · rw [hj]
    · rw [hj]
      rfl

theorem processLibraryMissing_silent {w : WorkerId} {tasks : List TaskId}
    {replacements : List (TaskId × TaskId)}
    (h : s.processLibraryMissing checks w tasks replacements = .ok (s', out)) : Silent s s' out := by
  obtain ⟨rfl, ⟨rfl, _⟩ | ⟨_, _, _, _, hj, _, _, _, hput⟩⟩ := processLibraryMissing_ok h
  · exact .refl s
  · exact putBack_silent hj hput

theorem processNoFreeExecutors_silent {w : WorkerId} {tasks : List TaskId}
    (h : s.processNoFreeExecutors checks w tasks = .ok (s', out)) : Silent s s' out := by
  obtain ⟨rfl, ⟨rfl, _⟩ | ⟨_, _, _, _, _, hj, _, _, _, hput⟩⟩ := processNoFreeExecutors_ok h
  · exact .refl s
  · exact putBack_silent hj hput

/-- A failed execution by a worker that is there, of a task that has used up its executions. -/
def Aborts (s : Scheduler) (w : WorkerId) (t : TaskId) : Prop :=
  s.scheduledJob.isSome ∧ (s.workersQueue.get w).isSome ∧
    ∃ task ∈ s.tasksQueue.get t, task.failedExecutions = s.config.failedExecutionsLimit

instance (s : Scheduler) (w : WorkerId) (t : TaskId) : Decidable (s.Aborts w t) := by
  unfold Aborts
  infer_instance

/-- A failed execution either gives the job up, and says so, or nobody hears of it. -/
theorem processTaskExecutionError_cases {w : WorkerId} {t : TaskId} {error : String}
    (h : s.processTaskExecutionError checks w t error = .ok (s', out)) :
    (s.Aborts w t ∧ s'.scheduledJob = none ∧ s'.resultsBuffer = s.resultsBuffer ∧
        s'.connectionManager = s.connectionManager ∧
        ∃ stats, out = [.taskManager (.taskExecutionError error stats)]) ∨
      (¬s.Aborts w t ∧ Silent s s' out) := by
  rcases processTaskExecutionError_ok h with ⟨rfl, rfl, absent⟩ |
    ⟨job, worker, b, j, hj, hw, _, hput, hend⟩
  · refine .inr ⟨?_, .refl s⟩
    rintro ⟨hjob, hworker, _⟩
    obtain ⟨job, hj⟩ := Option.isSome_iff_exists.mp hjob
    rw [PriorityQueue.getMut_eq_none.mp (absent job hj)] at hworker
    cases hworker
  · obtain ⟨v, hv, rfl⟩ := PriorityQueue.getMut_eq_some.mp hw
    rcases hend with ⟨hlimit, rfl, rfl⟩ | ⟨hlimit, rfl, rfl⟩
    · obtain ⟨_, _, rfl⟩ := putBack_ok.mp hput
      exact .inl ⟨⟨by simp [hj], by simp [hv], hlimit⟩, rfl, rfl, rfl, _, rfl⟩
    · exact .inr ⟨fun aborts => hlimit aborts.2.2, putBack_silent hj hput⟩

/-- No manager hears of a quiet event. -/
theorem step_silent {e : Event} (quiet : e.Quiet) (h : s.step checks e = .ok (s', out)) :
    Silent s s' out := by
  cases step_branch h with
  | hello | noTaskManager | nodeManagerConnected => exact .refl s
  | nodes | scheduledJob | listedWorkers | listedTasks =>
    exact ⟨by simp [Sent.Signal], rfl, rfl, rfl⟩
  | newJob | taskManagerLeft | restoredSession | createdSession | nodeManagerLeft | result
  | taskExecutionError => exact quiet.elim
  | tasks batch _ _ taken =>
    obtain ⟨rfl, ⟨rfl, _⟩ | ⟨_, _, _, hj, _, _, rfl⟩⟩ := processTaskBatch_ok taken
    · exact .refl s
    · exact ⟨by simp, rfl, rfl, by rw [hj]; rfl⟩
  | taskManagerConnected => exact ⟨by simp, rfl, rfl, rfl⟩
  | nodeLeft w _ taken | disconnected w _ taken => exact processWorkerDisconnect_silent taken
  | schedule _ _ _ taken => exact processScheduling_silent taken
  | connected info node _ _ taken => exact processConnected_silent taken
  | libraryMissing w tasks replacements _ _ taken => exact processLibraryMissing_silent taken
  | noFreeExecutors w tasks _ _ taken => exact processNoFreeExecutors_silent taken

end Scheduler
end GridServer
