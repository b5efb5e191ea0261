import GridServer.Scheduler.Handlers
import GridServer.Shared.PriorityQueueIndex

namespace GridServer.Scheduler
open Library

variable {checks : Bool} {s s' : Scheduler} {out : List Sent} {e : Event} {w : WorkerId}

theorem putBack_ok {b : Borrowed} {j : Option ScheduledJob} {need : Bool} :
    s.putBack checks b j need = .ok s' ↔ ∃ workersQueue,
      s.workersQueue.dropRefMut (Worker.cmpPriority checks) b.worker = .ok workersQueue ∧
        { s with
          scheduledJob := j
          tasksQueue := b.tasksQueue
          workersQueue := workersQueue
          needSchedule := need } = s' := by
  simp only [putBack, bind_ok, except_pure, Except.ok.injEq]

theorem processConnected_ok {info : WorkerInfo} {node : Node}
    (h : s.processConnected checks info node = .ok (s', out)) : out = [] ∧ ∃ workersQueue old,
      s.workersQueue.push (Worker.cmpPriority checks) info.workerId
        { id := info.workerId, subworkers := info.subworkers, platform := info.platform
          hasJobData := false, address := info.address, replacements := [], assignments := [] } =
        .ok (workersQueue, old) ∧
      s' = { s with
        connectionManager := { s.connectionManager with
          nodes := s.connectionManager.nodes.insert info.workerId node }
        workersQueue := workersQueue
        needSchedule := true } := by
  simp only [processConnected, bind_ok, except_pure, Except.ok.injEq, Prod.mk.injEq] at h
  obtain ⟨⟨workersQueue, old⟩, hp, rfl, rfl⟩ := h
  exact ⟨rfl, workersQueue, old, hp, rfl⟩

/-- What is left of the scheduler when the queue is rid of a worker. -/
theorem processWorkerDisconnect_ok (h : s.processWorkerDisconnect checks w = .ok s') :
    ∃ workersQueue removed tasksQueue job need,
      s.workersQueue.remove (Worker.cmpPriority checks) w = .ok (workersQueue, removed) ∧
      s' = { s with
        connectionManager := { s.connectionManager with
          nodes := s.connectionManager.nodes.remove w }
        workersQueue := workersQueue
        tasksQueue := tasksQueue
        scheduledJob := job
        needSchedule := need } ∧
      ((removed = none ∧ tasksQueue = s.tasksQueue ∧ job = s.scheduledJob ∧
          need = s.needSchedule) ∨
        ∃ id v, removed = some (id, v) ∧ need = true ∧
          ((s.scheduledJob = none ∧ tasksQueue = s.tasksQueue ∧ job = none) ∨
            ∃ before after, s.scheduledJob = some before ∧ job = some after ∧
              v.assignments.foldlM (abandonTask checks w) (s.tasksQueue, before) =
                .ok (tasksQueue, after))) := by
  simp only [processWorkerDisconnect, bind_ok] at h
  obtain ⟨⟨workersQueue, removed⟩, hr, h⟩ := h
  cases removed with
  | none =>
    simp only [except_pure, Except.ok.injEq] at h
    exact ⟨_, _, _, _, _, hr, h.symm, .inl ⟨rfl, rfl, rfl, rfl⟩⟩
  | some entry =>
    obtain ⟨id, v⟩ := entry
    cases hj : s.scheduledJob with
    | none =>
      simp only [hj, except_pure, Except.ok.injEq] at h
      exact ⟨_, _, _, _, _, hr, h.symm, .inr ⟨id, v, rfl, rfl, .inl ⟨rfl, rfl, rfl⟩⟩⟩
    | some job =>
      simp only [hj, bind_ok, except_pure, Except.ok.injEq] at h
      obtain ⟨⟨tasksQueue, after⟩, hloop, h⟩ := h
      exact ⟨_, _, _, _, _, hr, h.symm,
        .inr ⟨id, v, rfl, rfl, .inr ⟨job, after, rfl, rfl, hloop⟩⟩⟩

/-- The same with what the removal does: a worker that is not there changes nothing but the nodes. -/
theorem processWorkerDisconnect_left (indexed : s.workersQueue.Indexed)
    (h : s.processWorkerDisconnect checks w = .ok s') :
    (s.workersQueue.get w = none ∧ s' = { s with
        connectionManager := { s.connectionManager with
          nodes := s.connectionManager.nodes.remove w } }) ∨
      ∃ v workersQueue tasksQueue job, s.workersQueue.get w = some v ∧ workersQueue.Indexed ∧
        workersQueue.get = Function.update s.workersQueue.get w none ∧
        s' = { s with
          connectionManager := { s.connectionManager with
            nodes := s.connectionManager.nodes.remove w }
          workersQueue := workersQueue
          tasksQueue := tasksQueue
          scheduledJob := job
          needSchedule := true } ∧
        ((s.scheduledJob = none ∧ tasksQueue = s.tasksQueue ∧ job = none) ∨
          ∃ before after, s.scheduledJob = some before ∧ job = some after ∧
            v.assignments.foldlM (abandonTask checks w) (s.tasksQueue, before) =
              .ok (tasksQueue, after)) := by
  obtain ⟨workersQueue, removed, tasksQueue, job, need, hr, rfl, hend⟩ :=
    processWorkerDisconnect_ok h
  rcases PriorityQueue.remove_content indexed hr with ⟨rfl, rfl, hnone⟩ | ⟨v, rfl, hv, hi, hget⟩
  · rcases hend with ⟨_, rfl, rfl, rfl⟩ | ⟨id, v, hremoved, _⟩
    · exact .inl ⟨hnone, rfl⟩
    · cases hremoved
  · rcases hend with ⟨hremoved, _⟩ | ⟨id, v', hremoved, rfl, hloop⟩
    · cases hremoved
    · rw [Option.some.injEq, Prod.mk.injEq] at hremoved
      obtain ⟨rfl, rfl⟩ := hremoved
      exact .inr ⟨v, workersQueue, tasksQueue, job, hv, hi, hget, rfl, hloop⟩

section Errors

theorem processLibraryMissing_ok {tasks : List TaskId} {replacements : List (TaskId × TaskId)}
    (h : s.processLibraryMissing checks w tasks replacements = .ok (s', out)) :
    out = [] ∧ ((s = s' ∧ ∀ job, s.scheduledJob = some job → s.workersQueue.getMut w = none) ∨
      ∃ job worker b₁ b₂, s.scheduledJob = some job ∧ s.workersQueue.getMut w = some worker ∧
        tasks.foldlM (reportTask checks)
          ⟨worker.derefMut { worker.value with hasJobData := false }, s.tasksQueue, job⟩ = .ok b₁ ∧
        replacements.foldlM (reportReplacement checks) b₁ = .ok b₂ ∧
        s.putBack checks b₂ (some b₂.job) true = .ok s') := by
  cases hj : s.scheduledJob with
  | none =>
    simp only [processLibraryMissing, hj, Except.ok.injEq, Prod.mk.injEq] at h
    exact ⟨h.2.symm, .inl ⟨h.1, by rintro _ ⟨⟩⟩⟩
  | some job =>
    cases hw : s.workersQueue.getMut w with
    | none =>
      simp only [processLibraryMissing, hj, hw, Except.ok.injEq, Prod.mk.injEq] at h
      exact ⟨h.2.symm, .inl ⟨h.1, fun _ _ => rfl⟩⟩
    | some worker =>
      simp only [processLibraryMissing, hj, hw, bind_ok, except_pure, Except.ok.injEq,
        Prod.mk.injEq] at h
      obtain ⟨b₁, h₁, b₂, h₂, s₁, hput, rfl, rfl⟩ := h
      exact ⟨rfl, .inr ⟨job, worker, b₁, b₂, rfl, rfl, h₁, h₂, hput⟩⟩

theorem processNoFreeExecutors_ok {tasks : List TaskId}
    (h : s.processNoFreeExecutors checks w tasks = .ok (s', out)) :
    out = [] ∧ ((s = s' ∧ ∀ job, s.scheduledJob = some job → s.workersQueue.getMut w = none) ∨
      ∃ job worker shrunk need b, s.scheduledJob = some job ∧
        s.workersQueue.getMut w = some worker ∧
        shrink checks worker tasks.length s.needSchedule = .ok (shrunk, need) ∧
        tasks.foldlM (reportTask checks) ⟨shrunk, s.tasksQueue, job⟩ = .ok b ∧
        s.putBack checks b (some b.job) need = .ok s') := by
  cases hj : s.scheduledJob with
  | none =>
    simp only [processNoFreeExecutors, hj, Except.ok.injEq, Prod.mk.injEq] at h
    exact ⟨h.2.symm, .inl ⟨h.1, by rintro _ ⟨⟩⟩⟩
  | some job =>
    cases hw : s.workersQueue.getMut w with
    | none =>
      simp only [processNoFreeExecutors, hj, hw, Except.ok.injEq, Prod.mk.injEq] at h
      exact ⟨h.2.symm, .inl ⟨h.1, fun _ _ => rfl⟩⟩
    | some worker =>
      simp only [processNoFreeExecutors, hj, hw, bind_ok, except_pure, Except.ok.injEq,
        Prod.mk.injEq] at h
      obtain ⟨⟨shrunk, need⟩, hshrink, b, hloop, s₁, hput, rfl, rfl⟩ := h
      exact ⟨rfl, .inr ⟨job, worker, shrunk, need, b, rfl, rfl, hshrink, hloop, hput⟩⟩

theorem processTaskExecutionError_ok {t : TaskId} {error : String}
    (h : s.processTaskExecutionError checks w t error = .ok (s', out)) :
    (s = s' ∧ out = [] ∧ ∀ job, s.scheduledJob = some job → s.workersQueue.getMut w = none) ∨
      ∃ job worker b j, s.scheduledJob = some job ∧ s.workersQueue.getMut w = some worker ∧
        report checks (countFailure checks s.config.failedExecutionsLimit) id
          ⟨worker, s.tasksQueue, job⟩ t = .ok b ∧
        s.putBack checks b j true = .ok s' ∧
        (((∃ task ∈ s.tasksQueue.get t, task.failedExecutions = s.config.failedExecutionsLimit) ∧
            j = none ∧ out = [.taskManager (.taskExecutionError error job.stats)]) ∨
          ((¬∃ task ∈ s.tasksQueue.get t,
              task.failedExecutions = s.config.failedExecutionsLimit) ∧
            j = some b.job ∧ out = [])) := by
  have hany : ((s.tasksQueue.get t).any fun task =>
      task.failedExecutions = s.config.failedExecutionsLimit) = true ↔
      ∃ task ∈ s.tasksQueue.get t, task.failedExecutions = s.config.failedExecutionsLimit := by
    simp only [Option.any_eq_true, decide_eq_true_eq, Option.mem_def]
  cases hj : s.scheduledJob with
  | none =>
    simp only [processTaskExecutionError, hj, Except.ok.injEq, Prod.mk.injEq] at h
    exact .inl ⟨h.1, h.2.symm, by rintro _ ⟨⟩⟩
  | some job =>
    cases hw : s.workersQueue.getMut w with
    | none =>
      simp only [processTaskExecutionError, hj, hw, Except.ok.injEq, Prod.mk.injEq] at h
      exact .inl ⟨h.1, h.2.symm, fun _ _ => rfl⟩
    | some worker =>
      simp only [processTaskExecutionError, hj, hw, bind_ok] at h
      obtain ⟨b, hb, h⟩ := h
      split at h
      · rename_i hlimit
        simp only [bind_ok, except_pure, Except.ok.injEq, Prod.mk.injEq] at h
        obtain ⟨_, hput, rfl, rfl⟩ := h
        exact .inr ⟨job, worker, b, none, rfl, rfl, hb, hput, .inl ⟨hany.mp hlimit, rfl, rfl⟩⟩
      · rename_i hlimit
        simp only [bind_ok, except_pure, Except.ok.injEq, Prod.mk.injEq] at h
        obtain ⟨_, hput, rfl, rfl⟩ := h
        exact .inr ⟨job, worker, b, some b.job, rfl, rfl, hb, hput,
          .inr ⟨fun hex => hlimit (hany.mpr hex), rfl, rfl⟩⟩

end Errors

theorem processTaskBatch_ok {batch : List WorkerTask}
    (h : s.processTaskBatch checks batch = .ok (s', out)) :
    out = [] ∧ ((s = s' ∧ s.scheduledJob = none) ∨ ∃ job receivedTasks tasksQueue,
      s.scheduledJob = some job ∧
      u128Add checks job.receivedTasks batch.length = .ok receivedTasks ∧
      batch.foldlM queueTask s.tasksQueue = .ok tasksQueue ∧
      s' = { s with
        scheduledJob := some { job with receivedTasks := receivedTasks }
        tasksQueue := tasksQueue
        needSchedule := true }) := by
  cases hj : s.scheduledJob with
  | none =>
    simp only [processTaskBatch, hj, Except.ok.injEq, Prod.mk.injEq] at h
    exact ⟨h.2.symm, .inl ⟨h.1, rfl⟩⟩
  | some job =>
    simp only [processTaskBatch, hj, bind_ok, except_pure, Except.ok.injEq, Prod.mk.injEq] at h
    obtain ⟨receivedTasks, hn, tasksQueue, hloop, rfl, rfl⟩ := h
    exact ⟨rfl, .inr ⟨job, receivedTasks, tasksQueue, rfl, hn, hloop, rfl⟩⟩

theorem processCreatedSession_ok (h : s.processCreatedSession = .ok (s', out)) :
    (s = s' ∧ out = [] ∧ s.connectionManager.nodeManager = true) ∨
      (s.connectionManager.nodeManager = false ∧ ∃ tasksQueue job,
        s' = { s with
          workersQueue := s.workersQueue.clear
          connectionManager := { s.connectionManager with
            nodeManager := true, nodes := s.connectionManager.nodes.clear }
          tasksQueue := tasksQueue
          scheduledJob := job } ∧
        ((s.scheduledJob = none ∧ tasksQueue = s.tasksQueue ∧ job = none ∧ out = []) ∨
          ∃ before, s.scheduledJob = some before ∧
            s.tasksQueue.mapValues Task.cmpPriority (fun task => { task with assignments := [] }) =
              .ok tasksQueue ∧
            job = some { before with scheduledTasks := before.completedTasks } ∧
            out = [.nodeManager (.workersDemand none before.job.platforms)])) := by
  unfold processCreatedSession at h
  split at h
  · rename_i connected
    simp only [Except.ok.injEq, Prod.mk.injEq] at h
    exact .inl ⟨h.1, h.2.symm, connected⟩
  · rename_i away
    refine .inr ⟨Bool.eq_false_of_not_eq_true away, ?_⟩
    cases hj : s.scheduledJob with
    | none =>
      simp only [hj, Except.ok.injEq, Prod.mk.injEq] at h
      exact ⟨_, _, h.1.symm, .inl ⟨rfl, rfl, rfl, h.2.symm⟩⟩
    | some job =>
      simp only [hj, bind_ok, except_pure, Except.ok.injEq, Prod.mk.injEq] at h
      obtain ⟨tasksQueue, hm, hs, hout⟩ := h
      exact ⟨_, _, hs.symm, .inr ⟨job, rfl, hm, rfl, hout.symm⟩⟩

/-- The ways a turn of the main loop can go. -/
inductive Branch (checks : Bool) (s : Scheduler) : Event → Scheduler → List Sent → Prop where
  | hello : Branch checks s (.taskManager (.message .helloMessage)) s []
  | newJob (id : Uuid) (totalTasks : Nat) (data : WorkerJobData) :
    Branch checks s (.taskManager (.message (.newJob id totalTasks data)))
      (s.processNewJob id totalTasks data).1 (s.processNewJob id totalTasks data).2
  | tasks (batch : List WorkerTask) (s' : Scheduler) (out : List Sent)
    (h : s.processTaskBatch checks batch = .ok (s', out)) :
    Branch checks s (.taskManager (.message (.task batch))) s' out
  | taskManagerConnected (address : SocketAddr) :
    Branch checks s (.taskManager (.connected address))
      { s with connectionManager := { s.connectionManager with taskManager := some address } } []
  | taskManagerLeft (address : SocketAddr) (h : s.connectionManager.taskManager = some address) :
    Branch checks s (.taskManager .disconnect)
      { s.reset with
        scheduledJob := none
        connectionManager := { s.reset.connectionManager with taskManager := none } }
      [.nodeManager .releaseDemand]
  | noTaskManager (h : s.connectionManager.taskManager = none) :
    Branch checks s (.taskManager .disconnect) s []
  | nodes (workers : List WorkerInfo) :
    Branch checks s (.nodeManager (.message (.connect workers))) s (workers.map .connectNode)
  | nodeLeft (w : WorkerId) (s' : Scheduler) (h : s.processWorkerDisconnect checks w = .ok s') :
    Branch checks s (.nodeManager (.message (.disconnect w))) s' []
  | restoredSession : Branch checks s (.nodeManager (.message .restoredSession))
      { s with connectionManager := { s.connectionManager with nodeManager := true } } []
  | createdSession (s' : Scheduler) (out : List Sent)
    (h : s.processCreatedSession = .ok (s', out)) :
    Branch checks s (.nodeManager (.message .createdSession)) s' out
  | nodeManagerConnected : Branch checks s (.nodeManager .connected) s []
  | nodeManagerLeft : Branch checks s (.nodeManager .disconnected)
      { s with connectionManager := { s.connectionManager with nodeManager := false } }
      [.connectNodeManager s.config.nodeManagerAddress]
  | scheduledJob :
    Branch checks s (.command .scheduledJob) s [.scheduledJob (s.scheduledJob.map ScheduledJob.toJson)]
  | listedWorkers (limit : Nat) (workers : List Worker) :
    Branch checks s (.command (.workers limit)) s [.workers workers]
  | listedTasks (limit : Nat) (tasks : List Task) :
    Branch checks s (.command (.tasks limit)) s [.tasks tasks]
  | schedule (s' : Scheduler) (out : List Sent) (need : s.needSchedule = true)
    (h : s.processScheduling checks = .ok (s', out)) : Branch checks s .schedule s' out
  | connected (info : WorkerInfo) (node : Node) (s' : Scheduler) (out : List Sent)
    (h : s.processConnected checks info node = .ok (s', out)) :
    Branch checks s (.worker (.connected info node)) s' out
  | disconnected (w : WorkerId) (s' : Scheduler) (h : s.processWorkerDisconnect checks w = .ok s') :
    Branch checks s (.worker (.disconnected w)) s' []
  | result (w : WorkerId) (result : WorkerResult) (s' : Scheduler) (out : List Sent)
    (h : s.processResult checks w result = .ok (s', out)) :
    Branch checks s (.worker (.message w (.result result))) s' out
  | libraryMissing (w : WorkerId) (tasks : List TaskId) (replacements : List (TaskId × TaskId))
    (s' : Scheduler) (out : List Sent)
    (h : s.processLibraryMissing checks w tasks replacements = .ok (s', out)) :
    Branch checks s (.worker (.message w (.error (.libraryMissing tasks replacements)))) s' out
  | taskExecutionError (w : WorkerId) (t : TaskId) (error : String) (s' : Scheduler)
    (out : List Sent) (h : s.processTaskExecutionError checks w t error = .ok (s', out)) :
    Branch checks s (.worker (.message w (.error (.taskExecutionError t error)))) s' out
  | noFreeExecutors (w : WorkerId) (tasks : List TaskId) (s' : Scheduler) (out : List Sent)
    (h : s.processNoFreeExecutors checks w tasks = .ok (s', out)) :
    Branch checks s (.worker (.message w (.error (.noFreeExecutors tasks)))) s' out

section Managers

theorem processTaskManager_branch {event : TaskManagerEvent}
    (h : s.processTaskManager checks event = .ok (s', out)) :
    Branch checks s (.taskManager event) s' out := by
  cases event with
  | connected address =>
    cases h
    exact .taskManagerConnected address
  | disconnect =>
    simp only [processTaskManager] at h
    split at h
    · rename_i address hslot
      cases h
      exact .taskManagerLeft address hslot
    · rename_i hslot
      cases h
      exact .noTaskManager hslot
  | message request =>
    cases request with
    | helloMessage =>
      cases h
      exact .hello
    | newJob id totalTasks data =>
      cases h
      exact .newJob id totalTasks data
    | task batch => exact .tasks batch s' out h

theorem processNodeManager_branch {event : NodeManagerEvent}
    (h : s.processNodeManager checks event = .ok (s', out)) :
    Branch checks s (.nodeManager event) s' out := by
  cases event with
  | connected =>
    cases h
    exact .nodeManagerConnected
  | connectionNotEstablished => cases h
  | disconnected =>
    cases h
    exact .nodeManagerLeft
  | message response =>
    cases response with
    | createdSession => exact .createdSession s' out h
    | restoredSession =>
      cases h
      exact .restoredSession
    | connect workers =>
      cases h
      exact .nodes workers
    | disconnect w =>
      obtain ⟨_, hleft, h⟩ := bind_ok.mp h
      cases h
      exact .nodeLeft w s' hleft

theorem processCommand_branch {command : Command} (h : s.processCommand command = .ok (s', out)) :
    Branch checks s (.command command) s' out := by
  cases command with
  | scheduledJob =>
    cases h
    exact .scheduledJob
  | workers limit =>
    obtain ⟨workers, _, h⟩ := bind_ok.mp h
    cases h
    exact .listedWorkers limit workers
  | tasks limit =>
    obtain ⟨tasks, _, h⟩ := bind_ok.mp h
    cases h
    exact .listedTasks limit tasks

end Managers

theorem processWorkers_branch {event : WorkerEvent}
    (h : s.processWorkers checks event = .ok (s', out)) :
    Branch checks s (.worker event) s' out := by
  cases event with
  | connected info node => exact .connected info node s' out h
  | disconnected w =>
    obtain ⟨_, hleft, h⟩ := bind_ok.mp h
    cases h
    exact .disconnected w s' hleft
  | message w response =>
    cases response with
    | result result => exact .result w result s' out h
    | error error =>
      cases error with
      | libraryMissing tasks replacements => exact .libraryMissing w tasks replacements s' out h
      | taskExecutionError t error => exact .taskExecutionError w t error s' out h
      | noFreeExecutors tasks => exact .noFreeExecutors w tasks s' out h

/-- What a turn does, said once: every turn that ends goes one of these ways. -/
theorem step_branch (h : s.step checks e = .ok (s', out)) : Branch checks s e s' out := by
  cases e with
  | taskManager event => exact processTaskManager_branch h
  | nodeManager event => exact processNodeManager_branch h
  | worker event => exact processWorkers_branch h
  | command command => exact processCommand_branch h
  | schedule =>
    simp only [step] at h
    split at h
    · rename_i need
      exact .schedule s' out need h
    · cases h

end GridServer.Scheduler
