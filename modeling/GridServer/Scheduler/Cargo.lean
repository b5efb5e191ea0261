import GridServer.Scheduler.Delivery
import GridServer.Scheduler.Requests

namespace GridServer
open Library

/-- What has come in for the job that is scheduled: its data, the tasks of its batches and the
results of workers for tasks that were queued. -/
structure Cargo where
  job : Option (Uuid × WorkerJobData)
  tasks : List WorkerTask
  results : List WorkerResult

/-- The tasks that a batch from the task manager brings. -/
def Event.batch : Event → List WorkerTask
  | .taskManager (.message (.task batch)) => batch
  | _ => []

namespace Cargo

def none : Cargo := ⟨.none, [], []⟩

/-- The history variable. A new job starts with nothing. -/
def note (cargo : Cargo) (s : Scheduler) (e : Event) (_ : List Sent) : Cargo :=
  match e with
  | .taskManager (.message (.newJob id _ job)) => ⟨some (id, job), [], []⟩
  | e => { cargo with
      tasks := cargo.tasks ++ e.batch, results := cargo.results ++ (s.accepts e).toList }

end Cargo

namespace Scheduler

/-- The job, the queued tasks and the buffered results have come in for the job. -/
structure Laden (cargo : Cargo) (s : Scheduler) : Prop where
  job : ∀ job, s.scheduledJob = some job → cargo.job = some (job.id, job.job)
  tasks : PriorityQueue.AllGood (fun task : Task => task.taskData ∈ cargo.tasks) s.tasksQueue
  results : ∀ result ∈ s.resultsBuffer.contents, result ∈ cargo.results

/-- A request goes to the node of a worker that is queued, for the scheduled job and with tasks that
are queued. The job's arguments and the program for the worker's platform go along as long as the
worker does not have them. -/
structure Asks (s : Scheduler) (link : Node) (w : WorkerId) (request : WorkerRequest) : Prop where
  node : s.connectionManager.nodes.get w = some link
  job : ∃ job v, s.scheduledJob = some job ∧ s.workersQueue.get w = some v ∧ request.job = job.id ∧
    request.jobData = if v.hasJobData then none
      else (job.job.data.lookup v.platform).map fun program => (job.job.args, program)
  tasks : ∀ d ∈ request.tasks ++ request.replacements.map Prod.snd,
    ∃ task, s.tasksQueue.get d.id = some task ∧ task.taskData = d

/-- A request with nothing but what came in for the job. -/
structure Delivered (cargo : Cargo) (s : Scheduler) (w : WorkerId) (request : WorkerRequest) :
    Prop where
  job : ∃ job v, cargo.job = some (request.job, job) ∧ s.workersQueue.get w = some v ∧
    request.jobData = if v.hasJobData then none
      else (job.data.lookup v.platform).map fun program => (job.args, program)
  tasks : ∀ d ∈ request.tasks ++ request.replacements.map Prod.snd, d ∈ cargo.tasks

variable {checks : Bool} {s s' : Scheduler} {job : ScheduledJob} {out : List Sent} {e : Event}
  {w : WorkerId}

section Queues
variable {T : WorkerTask → Prop} {q q' : PriorityQueue Task}

/-- A queue of tasks whose data meets `T`. -/
structure Bears (T : WorkerTask → Prop) (q : PriorityQueue Task) : Prop where
  keyed : Keyed Task.key q
  good : PriorityQueue.AllGood (fun task : Task => T task.taskData) q

theorem bears_clear : Bears T q.clear := ⟨.clear, fun _ _ h => by simp at h⟩

theorem Bears.drop (h : Bears T q) {task : RefMut Task} (hof : task.Of q)
    (hid : task.value.key = task.key) (hdata : T task.value.taskData)
    (hd : q.dropRefMut Task.cmpPriority task = .ok q') : Bears T q' := by
  obtain ⟨hk, hget⟩ := hof.drop h.keyed hid hd
  refine ⟨hk, h.good.update hget ?_⟩
  intro v hv
  rw [Option.some.injEq] at hv
  exact hv ▸ hdata

theorem report_bears {edit : RefMut Task → Except Fault (RefMut Task)}
    {after : RefMut Worker → RefMut Worker} (he : Unrecorded edit) {b b' : Borrowed} {t : TaskId}
    (h : Bears T b.tasksQueue) (hr : report checks edit after b t = .ok b') :
    Bears T b'.tasksQueue := by
  unfold report at hr
  split at hr
  · simp only [bind_ok, except_pure, Except.ok.injEq] at hr
    obtain ⟨worker, _, rfl⟩ := hr
    exact h
  · rename_i task htask
    obtain ⟨v, hv, rfl⟩ := PriorityQueue.getMut_eq_some.mp htask
    simp only [bind_ok, except_pure, Except.ok.injEq] at hr
    obtain ⟨_, _, task', htask', tasksQueue, hd, rfl⟩ := hr
    obtain ⟨hkey, hdata, _, hof⟩ := he _ _ htask'
    refine h.drop (hof _ ((RefMut.of_get hv).releaseWorker _)) ?_ ?_ hd
    · rw [Task.key, hdata, hkey, RefMut.releaseWorker_value, RefMut.releaseWorker_key]
      exact h.keyed.keyed t v hv
    · rw [hdata, RefMut.releaseWorker_value]
      exact h.good t v hv

theorem abandonTask_bears {held held' : PriorityQueue Task × ScheduledJob} {t : TaskId}
    (h : Bears T held.1) (ha : abandonTask checks w held t = .ok held') : Bears T held'.1 := by
  unfold abandonTask at ha
  split at ha
  · rw [Except.ok.injEq] at ha
    exact ha ▸ h
  · rename_i task htask
    obtain ⟨v, hv, rfl⟩ := PriorityQueue.getMut_eq_some.mp htask
    simp only [bind_ok, except_pure, Except.ok.injEq] at ha
    obtain ⟨_, _, tasksQueue, hd, rfl⟩ := ha
    refine h.drop ((RefMut.of_get hv).releaseWorker w) ?_ ?_ hd
    · rw [RefMut.releaseWorker_value, RefMut.releaseWorker_key]
      exact h.keyed.keyed t v hv
    · rw [RefMut.releaseWorker_value]
      exact h.good t v hv

theorem queueTask_bears {taskData : WorkerTask} (h : Bears T q) (hdata : T taskData)
    (hq : queueTask q taskData = .ok q') : Bears T q' := by
  obtain ⟨hk, hget⟩ := queueTask_content h.keyed hq
  refine ⟨hk, h.good.update hget ?_⟩
  intro v hv
  rw [Option.some.injEq] at hv
  rw [← hv]
  exact hdata

end Queues

section Steps
variable {T : WorkerTask → Prop}

theorem processScheduling_bears (sound : s.Sound) (hj : s.scheduledJob = some job)
    (h : PriorityQueue.AllGood (fun task : Task => T task.taskData) s.tasksQueue)
    (hp : s.processScheduling checks = .ok (s', out)) :
    PriorityQueue.AllGood (fun task : Task => T task.taskData) s'.tasksQueue := by
  rcases processScheduling_dispatches sound hj hp with idles |
    ⟨w, v, kept, request, _, _, dispatched⟩
  · exact h.congr idles.tasks
  · intro t task htask
    rw [dispatched.tasks, Option.map_eq_some_iff] at htask
    obtain ⟨before, hbefore, rfl⟩ := htask
    exact h t before hbefore

/-- The request goes to the worker at the head, with its data unless the worker has it. -/
theorem processScheduling_asks (sound : s.Sound) (hj : s.scheduledJob = some job)
    (hp : s.processScheduling checks = .ok (s', out)) :
    ∀ m ∈ out, ∃ link w request, m = .node link w request ∧ s.Asks link w request := by
  have hqueued : ∀ d link w request, .node link w request ∈ out →
      d ∈ request.tasks ++ request.replacements.map Prod.snd →
        ∃ task, s.tasksQueue.get d.id = some task ∧ task.taskData = d := by
    intro d link w request hm hd
    rcases processScheduling_dispatches sound hj hp with idles |
      ⟨w', v, kept, request', _, hout, dispatched⟩
    · rw [idles.sent] at hm
      cases hm
    · rw [hout] at hm
      unfold sendNode at hm
      split at hm
      · rw [List.mem_singleton, Sent.node.injEq] at hm
        obtain ⟨_, _, rfl⟩ := hm
        exact dispatched.queued d hd
      · cases hm
  intro m hm
  rcases processScheduling_cases hj hp with ⟨_, rfl, _⟩ |
    ⟨w, v, n, g₁, tasks, g₂, replacements, workersQueue, _, hv, _, _, h₁, h₂, _, _, hout⟩
  · cases hm
  · have ready : Giving.Ready job s.workersQueue w
        ⟨job, s.tasksQueue, ⟨w, v, false⟩, s.needSchedule⟩ :=
      ⟨.refl job, rfl, sound.tasks, rfl, sound.workers.keyed w v hv, RefMut.of_get hv⟩
    obtain ⟨_, _, _, ready₁, _, hw₁, _⟩ := giveTasks_refines ready h₁
    obtain ⟨_, kept, _, _, ready₂, _, _, hw₂, _⟩ :=
      giveReplacements_refines ready₁ (Nat.le_refl _) h₂
    obtain ⟨hid, _, hdata⟩ := ready₂.continues
    have hworker : g₂.worker.value.hasJobData = v.hasJobData ∧
        g₂.worker.value.platform = v.platform := by rw [hw₂, hw₁]; exact ⟨rfl, rfl⟩
    unfold dispatch at hout
    split at hout
    · unfold sendNode at hout
      rw [(jobDataFor_worker _ _).2, ready₂.id] at hout
      split at hout
      · rename_i link hlink
        have hmem := hout ▸ hm
        rw [List.mem_singleton] at hmem
        refine ⟨link, w, _, hmem, hlink, ⟨job, v, hj, hv, hid, ?_⟩, ?_⟩
        · rw [jobDataFor, hworker.1, hworker.2, hdata]
          cases v.hasJobData <;> rfl
        · exact fun d hd => hqueued d _ _ _ (hmem ▸ hm) hd
      · rw [hout] at hm
        cases hm
    · rw [hout] at hm
      cases hm

theorem processWorkerDisconnect_bears (sound : s.Sound)
    (h : PriorityQueue.AllGood (fun task : Task => T task.taskData) s.tasksQueue)
    (hp : s.processWorkerDisconnect checks w = .ok s') :
    PriorityQueue.AllGood (fun task : Task => T task.taskData) s'.tasksQueue := by
  obtain ⟨_, _, tasksQueue, _, _, _, rfl, hend⟩ := processWorkerDisconnect_ok hp
  rcases hend with ⟨_, rfl, _⟩ | ⟨_, v, _, _, ⟨_, rfl, _⟩ | ⟨before, after, _, _, hloop⟩⟩
  · exact h
  · exact h
  · exact (foldlM_invariant (I := fun _ held => Bears T held.1)
      (fun _ _ _ _ hI ha => abandonTask_bears hI ha) ⟨sound.tasks, h⟩ hloop).good

theorem processResult_bears (sound : s.Sound)
    (h : PriorityQueue.AllGood (fun task : Task => T task.taskData) s.tasksQueue)
    {result : WorkerResult} (hp : s.processResult checks w result = .ok (s', out)) :
    PriorityQueue.AllGood (fun task : Task => T task.taskData) s'.tasksQueue := by
  cases hj : s.scheduledJob with
  | none =>
    simp only [processResult, hj, Except.ok.injEq, Prod.mk.injEq] at hp
    exact hp.1 ▸ h
  | some job =>
    cases ht : s.tasksQueue.get result.id with
    | none =>
      obtain ⟨_, ⟨workersQueue, need, rfl⟩, _⟩ := processResult_late sound hj ht hp
      exact h
    | some task =>
      obtain ⟨average, tasksQueue, workersQueue, buffer, batch, hr, _, _, _, _, hend⟩ :=
        processResult_queued sound hj ht hp
      rcases hend with ⟨_, rfl, _⟩ | ⟨_, rfl, _⟩
      · exact bears_clear.good
      · rcases PriorityQueue.remove_content sound.tasks.indexed hr with
          ⟨hnone, _⟩ | ⟨v, _, _, _, hget⟩
        · cases hnone
        · exact h.update hget (by rintro v ⟨⟩)

/-- Only a batch from the task manager brings tasks, and only one of the job that is scheduled. -/
theorem step_bears (sound : s.Sound) (hbatch : ∀ d ∈ e.batch, T d)
    (h : PriorityQueue.AllGood (fun task : Task => T task.taskData) s.tasksQueue)
    (hp : s.step checks e = .ok (s', out)) :
    PriorityQueue.AllGood (fun task : Task => T task.taskData) s'.tasksQueue := by
  have bears : Bears T s.tasksQueue := ⟨sound.tasks, h⟩
  cases step_branch hp with
  | hello | noTaskManager | nodes | nodeManagerConnected | scheduledJob | listedWorkers
  | listedTasks | taskManagerConnected | restoredSession | nodeManagerLeft => exact h
  | taskManagerLeft | newJob => exact bears_clear.good
  | tasks batch _ _ taken =>
    obtain ⟨_, ⟨rfl, _⟩ | ⟨_, _, tasksQueue, _, _, hloop, rfl⟩⟩ := processTaskBatch_ok taken
    · exact h
    · refine (foldlM_invariant (I := fun ds q => Bears T q ∧ ∀ d ∈ ds, T d) ?_
        ⟨bears, hbatch⟩ hloop).1.good
      rintro d ds q q' ⟨hq, hds⟩ hqueue
      exact ⟨queueTask_bears hq (hds d List.mem_cons_self) hqueue,
        fun d' hd' => hds d' (List.mem_cons_of_mem _ hd')⟩
  | nodeLeft w _ taken | disconnected w _ taken => exact processWorkerDisconnect_bears sound h taken
  | createdSession _ _ taken =>
    rcases processCreatedSession_ok taken with ⟨rfl, _⟩ | ⟨_, tasksQueue, _, rfl, hend⟩
    · exact h
    · rcases hend with ⟨_, rfl, _⟩ | ⟨_, _, hm, _⟩
      · exact h
      · obtain ⟨_, hget⟩ := PriorityQueue.mapValues_content sound.tasks.indexed hm
        intro t task htask
        rw [hget, Option.map_eq_some_iff] at htask
        obtain ⟨before, hbefore, rfl⟩ := htask
        exact h t before hbefore
  | schedule _ _ _ taken =>
    cases hj : s.scheduledJob with
    | none =>
      obtain ⟨rfl, _⟩ := processScheduling_idle hj taken
      exact h
    | some job => exact processScheduling_bears sound hj h taken
  | connected info node _ _ taken =>
    obtain ⟨_, _, _, _, rfl⟩ := processConnected_ok taken
    exact h
  | result w result _ _ taken => exact processResult_bears sound h taken
  | libraryMissing w tasks replacements _ _ taken =>
    obtain ⟨_, ⟨rfl, _⟩ | ⟨job, worker, b₁, b₂, _, _, h₁, h₂, hput⟩⟩ := processLibraryMissing_ok taken
    · exact h
    · have bears₁ : Bears T b₁.tasksQueue := foldlM_invariant (I := fun _ b => Bears T b.tasksQueue)
        (fun _ _ _ _ hI hr => report_bears unrecorded_ok hI hr) bears h₁
      have bears₂ : Bears T b₂.tasksQueue := foldlM_invariant (I := fun _ b => Bears T b.tasksQueue)
        (fun _ _ _ _ hI hr => report_bears unrecorded_ok hI hr) bears₁ h₂
      obtain ⟨_, _, rfl⟩ := putBack_ok.mp hput
      exact bears₂.good
  | taskExecutionError w t error _ _ taken =>
    rcases processTaskExecutionError_ok taken with ⟨rfl, _⟩ |
      ⟨job, worker, b, j, _, _, hb, hput, _⟩
    · exact h
    · have bears' : Bears T b.tasksQueue := report_bears (unrecorded_countFailure _) bears hb
      obtain ⟨_, _, rfl⟩ := putBack_ok.mp hput
      exact bears'.good
  | noFreeExecutors w tasks _ _ taken =>
    obtain ⟨_, ⟨rfl, _⟩ | ⟨job, worker, shrunk, need, b, _, _, _, hb, hput⟩⟩ :=
      processNoFreeExecutors_ok taken
    · exact h
    · have bears' : Bears T b.tasksQueue := foldlM_invariant (I := fun _ b => Bears T b.tasksQueue)
        (fun _ _ _ _ hI hr => report_bears unrecorded_ok hI hr) bears hb
      obtain ⟨_, _, rfl⟩ := putBack_ok.mp hput
      exact bears'.good

/-- Only the scheduling branch sends anything to a worker. -/
theorem step_asks (sound : s.Sound) (hp : s.step checks e = .ok (s', out)) {link : Node}
    {request : WorkerRequest} (hm : .node link w request ∈ out) : s.Asks link w request := by
  cases step_branch hp with
  | hello | noTaskManager | nodeManagerConnected | taskManagerConnected | restoredSession
  | nodeLeft | disconnected => cases hm
  | nodes workers =>
    obtain ⟨_, _, hm⟩ := List.mem_map.mp hm
    cases hm
  | scheduledJob | listedWorkers | listedTasks | nodeManagerLeft | taskManagerLeft =>
    cases List.mem_singleton.mp hm
  | newJob id totalTasks data =>
    unfold processNewJob at hm
    dsimp only at hm
    split at hm
    · cases List.mem_singleton.mp hm
    · cases hm
  | tasks batch _ _ taken =>
    rw [(processTaskBatch_ok taken).1] at hm
    cases hm
  | createdSession _ _ taken =>
    rcases processCreatedSession_ok taken with ⟨_, rfl, _⟩ |
      ⟨_, _, _, _, ⟨_, _, _, rfl⟩ | ⟨_, _, _, _, rfl⟩⟩
    · cases hm
    · cases hm
    · cases List.mem_singleton.mp hm
  | schedule _ _ _ taken =>
    cases hj : s.scheduledJob with
    | none =>
      rw [(processScheduling_idle hj taken).2] at hm
      cases hm
    | some job =>
      obtain ⟨_, _, _, hnode, asks⟩ := processScheduling_asks sound hj taken _ hm
      rw [Sent.node.injEq] at hnode
      obtain ⟨rfl, rfl, rfl⟩ := hnode
      exact asks
  | connected info node _ _ taken =>
    rw [(processConnected_ok taken).1] at hm
    cases hm
  | result w' result _ _ taken =>
    cases hj : s.scheduledJob with
    | none =>
      simp only [processResult, hj, Except.ok.injEq, Prod.mk.injEq] at taken
      rw [← taken.2] at hm
      cases hm
    | some job =>
      cases ht : s.tasksQueue.get result.id with
      | none =>
        rw [(processResult_late sound hj ht taken).1] at hm
        cases hm
      | some task =>
        obtain ⟨_, _, _, _, batch, _, _, _, _, _, hend⟩ := processResult_queued sound hj ht taken
        rcases hend with ⟨_, _, rfl⟩ | ⟨_, _, rfl⟩
        · simp at hm
        · simp at hm
  | libraryMissing w' tasks replacements _ _ taken =>
    rw [(processLibraryMissing_ok taken).1] at hm
    cases hm
  | taskExecutionError w' t error _ _ taken =>
    rcases processTaskExecutionError_ok taken with ⟨_, rfl, _⟩ |
      ⟨_, _, _, _, _, _, _, _, ⟨_, _, rfl⟩ | ⟨_, _, rfl⟩⟩
    · cases hm
    · cases List.mem_singleton.mp hm
    · cases hm
  | noFreeExecutors w' tasks _ _ taken =>
    rw [(processNoFreeExecutors_ok taken).1] at hm
    cases hm

/-- What is buffered or handed over was buffered before, or is the result that comes in. -/
theorem step_results (sound : s.Sound) (hp : s.step checks e = .ok (s', out)) {result : WorkerResult}
    (hresult : result ∈ s'.resultsBuffer.contents ∨ ∃ batch ∈ batches out, result ∈ batch) :
    result ∈ s.resultsBuffer.contents ∨ s.accepts e = some result := by
  have unbuffered : (∀ m ∈ out, m.batch? = none) → (s'.resultsBuffer.contents = [] ∨
      s'.resultsBuffer = s.resultsBuffer) → result ∈ s.resultsBuffer.contents ∨
        s.accepts e = some result := by
    intro hout hbuffer
    rw [(batches_eq_nil hout).1] at hresult
    simp only [List.not_mem_nil, false_and, exists_false, or_false] at hresult
    rcases hbuffer with hnil | hsame
    · rw [hnil] at hresult
      cases hresult
    · exact .inl (hsame ▸ hresult)
  have carried : ∀ {w result'}, e = .worker (.message w (.result result')) →
      s.processResult checks w result' = .ok (s', out) → result ∈ s.resultsBuffer.contents ∨
        s.accepts e = some result := by
    rintro w result' rfl hp
    cases hj : s.scheduledJob with
    | none =>
      simp only [processResult, hj, Except.ok.injEq, Prod.mk.injEq] at hp
      obtain ⟨rfl, rfl⟩ := hp
      exact unbuffered (by simp) (.inr rfl)
    | some job =>
      cases ht : s.tasksQueue.get result'.id with
      | none =>
        obtain ⟨rfl, ⟨workersQueue, need, rfl⟩, _⟩ := processResult_late sound hj ht hp
        exact unbuffered (by simp) (.inr rfl)
      | some task =>
        obtain ⟨average, tasksQueue, workersQueue, buffer, batch, _, hpush, _, _, _, hend⟩ :=
          processResult_queued sound hj ht hp
        have hcontents := (Buffer.push_content (by omega) hpush).1
        have hmem : result ∈ batch.toList.flatten ++ buffer.contents := by
          rcases hend with ⟨_, rfl, rfl⟩ | ⟨_, rfl, rfl⟩
          · rcases hresult with hin | ⟨taken, htaken, hin⟩
            · simp [reset, accepted] at hin
            · cases batch with
              | none =>
                simp only [batches, Sent.batch?, Option.toList_none, List.map_nil, List.nil_append,
                  List.filterMap_cons, List.filterMap_nil, List.mem_singleton] at htaken
                exact htaken ▸ List.mem_append_right _ hin
              | some batch =>
                simp only [batches, Sent.batch?, Option.toList_some, List.map_cons, List.map_nil,
                  List.cons_append, List.nil_append, List.filterMap_cons, List.filterMap_nil,
                  List.mem_cons, List.not_mem_nil, or_false] at htaken
                rcases htaken with rfl | rfl
                · exact List.mem_append_left _ (by simpa using hin)
                · exact List.mem_append_right _ hin
          · rcases hresult with hin | ⟨taken, htaken, hin⟩
            · exact List.mem_append_right _ hin
            · obtain ⟨taken', rfl⟩ : ∃ taken', batch = some taken' := by
                cases batch with
                | none => simp [batches] at htaken
                | some taken' => exact ⟨taken', rfl⟩
              have htaken' : taken = taken' := by simpa [batches, Sent.batch?] using htaken
              exact List.mem_append_left _ (by simpa [htaken'] using hin)
        rw [hcontents, List.mem_append, List.mem_singleton] at hmem
        refine hmem.imp_right fun he => ?_
        rw [he]
        simp [accepts, hj, ht]
  by_cases hevent : s.JobEvent e
  · by_cases hne : ∃ w result', e = .worker (.message w (.result result'))
    · obtain ⟨w, result', rfl⟩ := hne
      exact carried rfl hp
    · obtain ⟨hout, hbuffer, _⟩ := step_undelivered hevent (by grind) hp
      exact unbuffered hout (.inr hbuffer)
  · cases step_branch hp with
    | newJob id totalTasks data =>
      refine unbuffered ?_ (.inl rfl)
      intro m hm
      unfold processNewJob at hm
      dsimp only at hm
      split at hm
      · rw [List.mem_singleton.mp hm]
        rfl
      · cases hm
    | taskManagerLeft => exact unbuffered (by simp [Sent.batch?]) (.inl rfl)
    | noTaskManager => exact unbuffered (by simp) (.inr rfl)
    | taskExecutionError w t error _ _ taken =>
      rcases processTaskExecutionError_ok taken with ⟨rfl, rfl, _⟩ |
        ⟨_, _, _, _, _, _, _, hput, hend⟩
      · exact unbuffered (by simp) (.inr rfl)
      · obtain ⟨_, _, rfl⟩ := putBack_ok.mp hput
        rcases hend with ⟨_, _, rfl⟩ | ⟨_, _, rfl⟩
        · exact unbuffered (by simp [Sent.batch?]) (.inr rfl)
        · exact unbuffered (by simp) (.inr rfl)
    | _ => exact absurd trivial hevent

/-- Without a job the task manager is handed no results. -/
theorem step_batches (hj : s.scheduledJob = none) (hp : s.step checks e = .ok (s', out)) :
    batches out = [] := by
  refine (batches_eq_nil ?_).1
  cases step_branch hp with
  | hello | noTaskManager | nodeManagerConnected | taskManagerConnected | restoredSession
  | nodeLeft | disconnected => simp
  | nodes workers =>
    intro m hm
    obtain ⟨_, _, rfl⟩ := List.mem_map.mp hm
    rfl
  | scheduledJob | listedWorkers | listedTasks | nodeManagerLeft | taskManagerLeft =>
    simp [Sent.batch?]
  | newJob id totalTasks data =>
    intro m hm
    unfold processNewJob at hm
    dsimp only at hm
    split at hm
    · rw [List.mem_singleton.mp hm]
      rfl
    · cases hm
  | tasks batch _ _ taken => simp [(processTaskBatch_ok taken).1]
  | createdSession _ _ taken =>
    rcases processCreatedSession_ok taken with ⟨_, rfl, _⟩ |
      ⟨_, _, _, _, ⟨_, _, _, rfl⟩ | ⟨_, _, _, _, rfl⟩⟩
    · simp
    · simp
    · simp [Sent.batch?]
  | schedule _ _ _ taken => simp [(processScheduling_idle hj taken).2]
  | connected info node _ _ taken => simp [(processConnected_ok taken).1]
  | result w' result _ _ taken =>
    simp only [processResult, hj, Except.ok.injEq, Prod.mk.injEq] at taken
    simp [← taken.2]
  | libraryMissing w' tasks replacements _ _ taken => simp [(processLibraryMissing_ok taken).1]
  | taskExecutionError w' t error _ _ taken =>
    rcases processTaskExecutionError_ok taken with ⟨_, rfl, _⟩ | ⟨_, _, _, _, hjob, _⟩
    · simp
    · cases hj.symm.trans hjob
  | noFreeExecutors w' tasks _ _ taken => simp [(processNoFreeExecutors_ok taken).1]

/-- Only the start of a job brings one. -/
theorem step_job (sound : s.Sound) (hnew : ∀ id totalTasks data,
      e ≠ .taskManager (.message (.newJob id totalTasks data)))
    (hp : s.step checks e = .ok (s', out)) {job' : ScheduledJob}
    (hj' : s'.scheduledJob = some job') :
    ∃ job, s.scheduledJob = some job ∧ job'.id = job.id ∧ job'.job = job.job := by
  cases (step_outcome sound hp).2 with
  | jobless hnone =>
    rw [hnone] at hj'
    cases hj'
  | abandoned _ _ _ _ _ _ _ hnone =>
    rw [hnone] at hj'
    cases hj'
  | started id totalTasks data he => exact absurd he (hnew id totalTasks data)
  | moved job ms hj _ follows =>
    obtain ⟨job'', hj'', continues, _⟩ := follows.books
    rw [hj', Option.some.injEq] at hj''
    subst hj''
    exact ⟨job, hj, continues.1, continues.2.2⟩

theorem step_laden {cargo : Cargo} (sound : s.Sound) (h : Laden cargo s)
    (hp : s.step checks e = .ok (s', out)) : Laden (cargo.note s e out) s' := by
  by_cases hnew : ∃ id totalTasks data, e = .taskManager (.message (.newJob id totalTasks data))
  · obtain ⟨id, totalTasks, data, rfl⟩ := hnew
    simp only [step, processTaskManager, Except.ok.injEq] at hp
    obtain ⟨rfl, _⟩ := Prod.mk.inj hp
    refine ⟨?_, bears_clear.good, ?_⟩
    · rintro job ⟨⟩
      rfl
    · intro result hresult
      cases hresult
  · have hnote : cargo.note s e out = { cargo with
        tasks := cargo.tasks ++ e.batch, results := cargo.results ++ (s.accepts e).toList } := by
      unfold Cargo.note
      split
      · exact absurd ⟨_, _, _, rfl⟩ hnew
      · rfl
    rw [hnote]
    refine ⟨?_, ?_, ?_⟩
    · intro job' hj'
      obtain ⟨job, hj, hid, hdata⟩ :=
        step_job sound (fun id n data he => hnew ⟨id, n, data, he⟩) hp hj'
      rw [hid, hdata]
      exact h.job job hj
    · refine step_bears sound (fun d hd => List.mem_append_right _ hd) ?_ hp
      exact fun t task htask => List.mem_append_left _ (h.tasks t task htask)
    · intro result hresult
      rcases step_results sound hp (.inl hresult) with hin | hin
      · exact List.mem_append_left _ (h.results result hin)
      · exact List.mem_append_right _ (by simp [hin])

theorem Asks.delivered {cargo : Cargo} {link : Node} {request : WorkerRequest} (h : Laden cargo s)
    (asks : s.Asks link w request) : Delivered cargo s w request := by
  obtain ⟨_, ⟨job, v, hj, hv, hid, hdata⟩, htasks⟩ := asks
  refine ⟨⟨job.job, v, ?_, hv, hdata⟩, ?_⟩
  · rw [hid]
    exact h.job job hj
  · intro d hd
    obtain ⟨task, htask, rfl⟩ := htasks d hd
    exact h.tasks _ task htask

end Steps

/-- At every moment the scheduler holds nothing but what came in for the job it was given last, and
gives nothing else away: to the workers the job's arguments, programs and tasks, to the task manager
results that workers sent since for tasks that were queued. -/
theorem run_laden {config : Config} {es : List Event}
    (run : Run (step checks) (fun _ _ => True) (Scheduler.new config) es out s) :
    Laden (history (step checks) Cargo.note .none (Scheduler.new config) es) s ∧
      ∀ e s' out', s.step checks e = .ok (s', out') →
        (∀ link w request, .node link w request ∈ out' →
          Delivered (history (step checks) Cargo.note .none (Scheduler.new config) es) s w request) ∧
        ∀ batch ∈ batches out', ∀ result ∈ batch, s.accepts e = some result ∨
          result ∈ (history (step checks) Cargo.note .none (Scheduler.new config) es).results := by
  obtain ⟨sound, laden⟩ := run.invariant_history Cargo.note
    (I := fun cargo _ _ s => s.Sound ∧ Laden cargo s)
    ⟨sound_new config, by rintro job ⟨⟩, fun _ _ h => by simp [Scheduler.new] at h,
      by rintro result ⟨⟩⟩
    fun cargo _ _ _ _ _ _ hI _ taken =>
      ⟨(step_outcome hI.1 taken).1, step_laden hI.1 hI.2 taken⟩
  refine ⟨laden, ?_⟩
  intro e s' out' hp
  refine ⟨fun link w request hm => (step_asks sound hp hm).delivered laden, ?_⟩
  intro batch hbatch result hresult
  exact (step_results sound hp (.inr ⟨batch, hbatch, hresult⟩)).symm.imp_right
    (laden.results result)

/-- The first request to a worker brings it the job's program and its two tasks. -/
theorem run_laden_small : ∃ out s s' link request,
    Run (step true) (fun _ _ => True) (Scheduler.new smallConfig)
      [jobOf 2, tasksOf [0, 1], joinOf 1 2] out s ∧
    s.step true .schedule = .ok (s', [.node link 1 request]) ∧
    request = ⟨7, some ([], [1]), [], [⟨0, []⟩, ⟨1, []⟩]⟩ ∧
    Delivered (history (step true) Cargo.note .none (Scheduler.new smallConfig)
      [jobOf 2, tasksOf [0, 1], joinOf 1 2]) s 1 request := by
  obtain ⟨s, out, run, h⟩ := exists_run (step true) (fun _ _ => True) (Scheduler.new smallConfig)
    [jobOf 2, tasksOf [0, 1], joinOf 1 2]
    (fun r => (r.1.step true .schedule).toOption.any fun after : Scheduler × List Sent =>
      decide (after.2 = [Sent.node ⟨1⟩ 1 ⟨7, some ([], [1]), [], [⟨0, []⟩, ⟨1, []⟩]⟩]))
    (by decide +kernel)
  rw [Option.any_eq_true] at h
  obtain ⟨⟨s', out'⟩, htaken, hout⟩ := h
  rw [decide_eq_true_eq] at hout
  cases taken : s.step true .schedule with
  | error fault => simp [taken, Except.toOption] at htaken
  | ok after =>
    obtain rfl : after = (s', out') := by simpa [taken, Except.toOption] using htaken
    dsimp only at hout
    rw [hout] at taken
    exact ⟨out, s, s', ⟨1⟩, _, run, taken, rfl,
      ((run_laden run).2 .schedule s' _ taken).1 ⟨1⟩ 1 _ List.mem_cons_self⟩

end Scheduler
end GridServer
