import GridServer.Scheduler.Cargo

namespace GridServer
open Library

/-- The link of a request that brings its worker the job's data. -/
def Sent.supply? : Sent → Option (Node × WorkerId)
  | .node link w request => if request.jobData.isSome then some (link, w) else none
  | _ => none

/-- The history variable: the links over which the data of the job has gone out since the worker at
their end joined. -/
def supplied (links : List (Node × WorkerId)) (_ : Scheduler) (e : Event) (out : List Sent) :
    List (Node × WorkerId) :=
  match e with
  | .taskManager (.message (.newJob ..)) => []
  | .worker (.connected info _) => links.filter fun link => link.2 ≠ info.workerId
  | _ => links ++ out.filterMap Sent.supply?

/-- What an event leaves of a worker, when nothing is sent to it. -/
structure Worker.Stays (v v' : Worker) : Prop where
  platform : v'.platform = v.platform
  address : v'.address = v.address
  data : v'.hasJobData = true → v.hasJobData = true

theorem Worker.Stays.refl (v : Worker) : v.Stays v := ⟨rfl, rfl, fun h => h⟩

theorem Worker.Stays.trans {v v' v'' : Worker} (h : v.Stays v') (h' : v'.Stays v'') : v.Stays v'' :=
  ⟨h'.platform.trans h.platform, h'.address.trans h.address, fun hdata => h.data (h'.data hdata)⟩

/-- The event neither starts a job nor brings a worker. -/
def Event.Continues : Event → Prop
  | .taskManager (.message (.newJob ..)) => False
  | .worker (.connected ..) => False
  | _ => True

/-- Nor does it take one away. -/
def Event.Keeps : Event → Prop
  | .worker (.disconnected _) => False
  | e => e.Continues

theorem Event.Keeps.continues {e : Event} (keeps : e.Keeps) : e.Continues := by
  cases e with
  | worker event =>
    cases event with
    | disconnected w => exact keeps.elim
    | connected info node => exact keeps
    | message w response => trivial
  | taskManager event => exact keeps
  | nodeManager event => trivial
  | command command => trivial
  | schedule => trivial

namespace Scheduler

/-- The workers that are queued are those that have a node, and one that is taken to have the job's
data was sent it over that node, unless the job has no program for it. -/
structure Supplied (links : List (Node × WorkerId)) (s : Scheduler) : Prop where
  linked : ∀ w, (s.workersQueue.get w).isSome = (s.connectionManager.nodes.get w).isSome
  data : ∀ w v job, s.workersQueue.get w = some v → v.hasJobData = true →
    s.scheduledJob = some job → (job.job.data.lookup v.platform).isSome →
      ∃ link, s.connectionManager.nodes.get w = some link ∧ (link, w) ∈ links

/-- The same workers are queued, and none has data that it did not have. -/
structure Retains (q q' : PriorityQueue Worker) : Prop where
  keyed : Keyed Worker.id q'
  workers : ∀ w v', q'.get w = some v' → ∃ v, q.get w = some v ∧ v.Stays v'
  stay : ∀ w, (q'.get w).isSome = (q.get w).isSome

variable {checks : Bool} {s s' : Scheduler} {job : ScheduledJob} {out : List Sent} {e : Event}
  {w : WorkerId}

section Queues
variable {q q' q'' : PriorityQueue Worker} {b b' : Borrowed}

theorem Retains.refl (hk : Keyed Worker.id q) : Retains q q :=
  ⟨hk, fun _ v hv => ⟨v, hv, .refl v⟩, fun _ => rfl⟩

theorem Retains.trans (h : Retains q q') (h' : Retains q' q'') : Retains q q'' := by
  refine ⟨h'.keyed, ?_, fun w => (h'.stay w).trans (h.stay w)⟩
  intro w v'' hv''
  obtain ⟨v', hv', stays'⟩ := h'.workers w v'' hv''
  obtain ⟨v, hv, stays⟩ := h.workers w v' hv'
  exact ⟨v, hv, stays.trans stays'⟩

/-- Putting back a borrowed worker that has no more data than before. -/
theorem Retains.drop (hk : Keyed Worker.id q) {r : RefMut Worker} (hof : r.Of q)
    (hid : r.value.id = r.key) {v : Worker} (hv : q.get r.key = some v) (stays : v.Stays r.value)
    (hd : q.dropRefMut (Worker.cmpPriority checks) r = .ok q') : Retains q q' := by
  obtain ⟨hk', hget⟩ := hof.drop hk hid hd
  refine ⟨hk', ?_, ?_⟩
  · intro k v' hv'
    rw [hget] at hv'
    by_cases he : k = r.key
    · subst he
      rw [Function.update_self, Option.some.injEq] at hv'
      exact ⟨v, hv, hv' ▸ stays⟩
    · rw [Function.update_of_ne he] at hv'
      exact ⟨v', hv', .refl v'⟩
  · intro k
    rw [hget]
    by_cases he : k = r.key
    · subst he
      rw [Function.update_self, hv]
      rfl
    · rw [Function.update_of_ne he]

theorem settleReporter_retains {t : TaskId} (hk : Keyed Worker.id q)
    (h : settleReporter checks q w t = .ok q') : Retains q q' := by
  unfold settleReporter at h
  split at h
  · rw [Except.ok.injEq] at h
    exact h ▸ .refl hk
  · rename_i worker hworker
    obtain ⟨v, hv, rfl⟩ := PriorityQueue.getMut_eq_some.mp hworker
    refine .drop hk ((RefMut.of_get hv).releaseTask t) ?_ (v := v) ?_ ?_ h
    · rw [RefMut.releaseTask_value, RefMut.releaseTask_key]
      exact hk.keyed w v hv
    · rw [RefMut.releaseTask_key]
      exact hv
    · rw [RefMut.releaseTask_value]
      exact ⟨rfl, rfl, fun h => h⟩

theorem replaceTask_retains {t : TaskId} (hk : Keyed Worker.id q)
    (h : replaceTask checks t q w = .ok q') : Retains q q' := by
  unfold replaceTask at h
  split at h
  · rw [Except.ok.injEq] at h
    exact h ▸ .refl hk
  · rename_i worker hworker
    obtain ⟨v, hv, rfl⟩ := PriorityQueue.getMut_eq_some.mp hworker
    refine .drop hk (((RefMut.of_get hv).releaseTask t).addReplacement t) ?_ (v := v) ?_ ?_ h
    · rw [RefMut.addReplacement_value, RefMut.releaseTask_value, RefMut.addReplacement_key,
        RefMut.releaseTask_key]
      exact hk.keyed w v hv
    · rw [RefMut.addReplacement_key, RefMut.releaseTask_key]
      exact hv
    · rw [RefMut.addReplacement_value, RefMut.releaseTask_value]
      exact ⟨rfl, rfl, fun h => h⟩

theorem settleWorkers_retains {t : TaskId} {task : Task} (hk : Keyed Worker.id q)
    (h : settleWorkers checks q w t task = .ok q') : Retains q q' := by
  simp only [settleWorkers, bind_ok] at h
  obtain ⟨q₁, h₁, hloop⟩ := h
  exact foldlM_invariant (I := fun _ q₂ => Retains q q₂)
    (fun _ _ _ _ hI hr => hI.trans (replaceTask_retains hI.keyed hr))
    (settleReporter_retains hk h₁) hloop

theorem report_stays {edit : RefMut Task → Except Fault (RefMut Task)}
    {after : RefMut Worker → RefMut Worker}
    (hafter : ∀ r : RefMut Worker, r.value.Stays (after r).value) {t : TaskId}
    (h : report checks edit after b t = .ok b') : b.worker.value.Stays b'.worker.value := by
  unfold report at h
  split at h
  · simp only [bind_ok, except_pure, Except.ok.injEq] at h
    obtain ⟨worker, hworker, rfl⟩ := h
    obtain ⟨_, ⟨ts, hts⟩, _, _⟩ := RefMut.releaseFinished_ok (q := .new) hworker
    rw [hts]
    exact ⟨rfl, rfl, fun h => h⟩
  · simp only [bind_ok, except_pure, Except.ok.injEq] at h
    obtain ⟨_, _, task, _, tasksQueue, _, rfl⟩ := h
    refine Worker.Stays.trans ?_ (hafter _)
    rw [RefMut.releaseTask_value]
    exact ⟨rfl, rfl, fun h => h⟩

theorem reportTasks_stay {ts : List TaskId} (h : ts.foldlM (reportTask checks) b = .ok b') :
    b.worker.value.Stays b'.worker.value :=
  foldlM_invariant (I := fun _ b₁ => b.worker.value.Stays b₁.worker.value)
    (fun _ _ _ _ hI hr => hI.trans (report_stays (fun r => .refl r.value) hr)) (.refl _) h

theorem reportReplacement_stays {r : TaskId × TaskId}
    (h : reportReplacement checks b r = .ok b') : b.worker.value.Stays b'.worker.value := by
  refine report_stays ?_ h
  intro worker
  exact ⟨rfl, rfl, fun h => h⟩

theorem reportReplacements_stay {rs : List (TaskId × TaskId)}
    (h : rs.foldlM (reportReplacement checks) b = .ok b') :
    b.worker.value.Stays b'.worker.value :=
  foldlM_invariant (I := fun _ b₁ => b.worker.value.Stays b₁.worker.value)
    (fun _ _ _ _ hI hr => hI.trans (reportReplacement_stays hr)) (.refl _) h

end Queues

/-- What a step does with the workers and their nodes. -/
inductive Manning (s s' : Scheduler) (e : Event) (out : List Sent) : Prop where
  | kept (keeps : e.Keeps) (workers : Retains s.workersQueue s'.workersQueue)
    (nodes : s'.connectionManager.nodes = s.connectionManager.nodes)
  | cleared (workers : ∀ w, s'.workersQueue.get w = none)
    (nodes : ∀ w, s'.connectionManager.nodes.get w = none)
  | left (w : WorkerId) (continues : e.Continues)
    (named : ∀ k, e = .worker (.disconnected k) → k = w)
    (workers : s'.workersQueue.get = Function.update s.workersQueue.get w none)
    (nodes : s'.connectionManager.nodes.get =
      Function.update s.connectionManager.nodes.get w none)
  | joined (info : WorkerInfo) (node : Node) (event : e = .worker (.connected info node))
    (workers : s'.workersQueue.get = Function.update s.workersQueue.get info.workerId
      (some { id := info.workerId, subworkers := info.subworkers, platform := info.platform
              hasJobData := false, address := info.address, replacements := [], assignments := [] }))
    (nodes : s'.connectionManager.nodes.get =
      Function.update s.connectionManager.nodes.get info.workerId (some node))
  | asked (job : ScheduledJob) (w : WorkerId) (v : Worker) (kept : List TaskId)
    (request : WorkerRequest) (event : e = .schedule) (scheduled : s.scheduledJob = some job)
    (dispatched : Dispatches s s' job w v kept request) (sent : out = s.sendNode w request)

section Steps
variable {links links' : List (Node × WorkerId)}

theorem Manning.reset {r : Scheduler} (h : s' = r.reset) : Manning s s' e out := by
  subst h
  refine .cleared ?_ ?_
  · intro w
    exact PriorityQueue.get_clear _ w
  · intro w
    exact VecMap.get_clear r.connectionManager.nodes w

theorem Supplied.empty (hworkers : ∀ w, s.workersQueue.get w = none)
    (hnodes : ∀ w, s.connectionManager.nodes.get w = none) : Supplied links s := by
  refine ⟨?_, ?_⟩
  · intro w
    rw [hworkers, hnodes]
    rfl
  · intro w v job hv
    rw [hworkers] at hv
    cases hv

theorem connected_manning (sound : s.Sound) {info : WorkerInfo} {node : Node}
    (hp : s.processConnected checks info node = .ok (s', out)) :
    Manning s s' (.worker (.connected info node)) out := by
  obtain ⟨_, workersQueue, old, hpush, rfl⟩ := processConnected_ok hp
  obtain ⟨_, hget⟩ := PriorityQueue.push_content sound.workers.indexed hpush
  refine .joined info node rfl hget ?_
  exact VecMap.get_insert ..

theorem left_manning (sound : s.Sound) (hp : s.processWorkerDisconnect checks w = .ok s')
    (continues : e.Continues) (named : ∀ k, e = .worker (.disconnected k) → k = w) :
    Manning s s' e out := by
  refine .left w continues named ?_ ?_
  · rcases processWorkerDisconnect_left sound.workers.indexed hp with ⟨hnone, rfl⟩ |
      ⟨v, workersQueue, tasksQueue, j, _, _, hget, rfl, _⟩
    · rw [← hnone, Function.update_eq_self]
    · exact hget
  · rcases processWorkerDisconnect_left sound.workers.indexed hp with ⟨_, rfl⟩ |
      ⟨v, workersQueue, tasksQueue, j, _, _, _, rfl, _⟩
    · exact VecMap.get_remove _ w
    · exact VecMap.get_remove _ w

theorem schedule_manning (sound : s.Sound) (hp : s.step checks .schedule = .ok (s', out)) :
    Manning s s' .schedule out := by
  have taken : s.processScheduling checks = .ok (s', out) := by
    cases step_branch hp with
    | schedule _ _ _ taken => exact taken
  cases hj : s.scheduledJob with
  | none =>
    obtain ⟨rfl, rfl⟩ := processScheduling_idle hj taken
    exact .kept trivial (.refl sound.workers) rfl
  | some job =>
    rcases processScheduling_dispatches sound hj taken with idles |
      ⟨w, v, kept, request, _, hout, dispatched⟩
    · have hnodes : s'.connectionManager.nodes = s.connectionManager.nodes := by
        rcases processScheduling_cases hj taken with ⟨rfl, _⟩ |
          ⟨_, _, _, _, _, _, _, _, _, _, _, _, _, _, _, rfl, _⟩ <;> rfl
      refine .kept trivial ⟨(step_outcome sound hp).1.workers, ?_, ?_⟩ hnodes
      · intro w v hv
        exact ⟨v, idles.workers ▸ hv, .refl v⟩
      · intro w
        rw [idles.workers]
    · exact .asked job w v kept request rfl hj dispatched hout

theorem late_retains (sound : s.Sound) (hj : s.scheduledJob = some job) {result : WorkerResult}
    (ht : s.tasksQueue.get result.id = none)
    (hp : s.processResult checks w result = .ok (s', out)) :
    Retains s.workersQueue s'.workersQueue ∧
      s'.connectionManager.nodes = s.connectionManager.nodes := by
  simp only [processResult, hj, bind_ok] at hp
  obtain ⟨⟨tasksQueue, removed⟩, hr, hp⟩ := hp
  rcases PriorityQueue.remove_content sound.tasks.indexed hr with
    ⟨rfl, rfl, _⟩ | ⟨v, _, hv, _, _⟩
  · simp only [lateResult] at hp
    split at hp
    · obtain ⟨rfl, _⟩ := Prod.mk.inj (Except.ok.inj hp)
      exact ⟨.refl sound.workers, rfl⟩
    · rename_i worker hw
      obtain ⟨v, hv, rfl⟩ := PriorityQueue.getMut_eq_some.mp hw
      simp only [bind_ok, except_pure, Except.ok.injEq, Prod.mk.injEq] at hp
      obtain ⟨worker, hworker, workersQueue, hd, rfl, _⟩ := hp
      obtain ⟨hkey, ⟨ts, hts⟩, _, hof⟩ := RefMut.releaseFinished_ok hworker
      refine ⟨.drop sound.workers (hof (RefMut.of_get hv)) ?_ (v := v) ?_ ?_ hd, rfl⟩
      · rw [hts, hkey]
        exact sound.workers.keyed w v hv
      · rw [hkey]
        exact hv
      · rw [hts]
        exact ⟨rfl, rfl, fun h => h⟩
  · rw [ht] at hv
    cases hv

theorem result_manning (sound : s.Sound) {result : WorkerResult}
    (hp : s.processResult checks w result = .ok (s', out)) (keeps : e.Keeps) :
    Manning s s' e out := by
  cases hj : s.scheduledJob with
  | none =>
    simp only [processResult, hj, Except.ok.injEq, Prod.mk.injEq] at hp
    obtain ⟨rfl, _⟩ := hp
    exact .kept keeps (.refl sound.workers) rfl
  | some job =>
    cases ht : s.tasksQueue.get result.id with
    | none =>
      obtain ⟨hr, hnodes⟩ := late_retains sound hj ht hp
      exact .kept keeps hr hnodes
    | some task =>
      obtain ⟨_, _, workersQueue, _, _, _, _, hsettle, _, _, ⟨_, hs, _⟩ | ⟨_, rfl, _⟩⟩ :=
        processResult_queued sound hj ht hp
      · exact .reset hs
      · exact .kept keeps (settleWorkers_retains sound.workers hsettle) rfl

/-- Putting back the worker of a report that has no more data than before. -/
theorem putBack_manning (sound : s.Sound) {b : Borrowed} {v : Worker} {j : Option ScheduledJob}
    {need : Bool} (ready : b.Ready job s.workersQueue w) (hv : s.workersQueue.get w = some v)
    (stays : v.Stays b.worker.value) (hput : s.putBack checks b j need = .ok s')
    (keeps : e.Keeps) : Manning s s' e out := by
  obtain ⟨workersQueue, hd, rfl⟩ := putBack_ok.mp hput
  refine .kept keeps (.drop sound.workers ready.borrow ?_ ?_ stays hd) rfl
  · rw [ready.id, ready.key]
  · rw [ready.key]
    exact hv

theorem libraryMissing_manning (sound : s.Sound) {tasks : List TaskId}
    {replacements : List (TaskId × TaskId)}
    (hp : s.processLibraryMissing checks w tasks replacements = .ok (s', out))
    (keeps : e.Keeps) : Manning s s' e out := by
  obtain ⟨_, ⟨rfl, _⟩ | ⟨job, worker, b₁, b₂, hj, hw, h₁, h₂, hput⟩⟩ := processLibraryMissing_ok hp
  · exact .kept keeps (.refl sound.workers) rfl
  · obtain ⟨v, hv, rfl⟩ := PriorityQueue.getMut_eq_some.mp hw
    obtain ⟨ready, _⟩ := borrow_same job sound hv rfl (sound.workers.keyed w v hv)
      ((RefMut.of_get hv).derefMut { v with hasJobData := false }) rfl
    obtain ⟨ready₁, _⟩ := reportTasks_refines ready h₁
    obtain ⟨ready₂, _⟩ := reportReplacements_refines ready₁ h₂
    have stays₀ : v.Stays { v with hasJobData := false } := ⟨rfl, rfl, by rintro ⟨⟩⟩
    exact putBack_manning sound ready₂ hv
      ((stays₀.trans (reportTasks_stay h₁)).trans (reportReplacements_stay h₂)) hput keeps

theorem taskExecutionError_manning (sound : s.Sound) {t : TaskId} {error : String}
    (hp : s.processTaskExecutionError checks w t error = .ok (s', out))
    (keeps : e.Keeps) : Manning s s' e out := by
  rcases processTaskExecutionError_ok hp with ⟨rfl, _⟩ | ⟨job, worker, b, j, hj, hw, hb, hput, _⟩
  · exact .kept keeps (.refl sound.workers) rfl
  · obtain ⟨v, hv, rfl⟩ := PriorityQueue.getMut_eq_some.mp hw
    obtain ⟨ready, _⟩ := borrow_same job sound hv rfl (sound.workers.keyed w v hv)
      (RefMut.of_get hv) rfl
    obtain ⟨ready₁, _⟩ := report_refines none (unrecorded_countFailure _) (fun _ => rfl) ready hb
    exact putBack_manning sound ready₁ hv (report_stays (fun r => .refl r.value) hb) hput keeps

theorem noFreeExecutors_manning (sound : s.Sound) {tasks : List TaskId}
    (hp : s.processNoFreeExecutors checks w tasks = .ok (s', out))
    (keeps : e.Keeps) : Manning s s' e out := by
  obtain ⟨_, ⟨rfl, _⟩ | ⟨job, worker, shrunk, need, b, hj, hw, hshrink, hb, hput⟩⟩ :=
    processNoFreeExecutors_ok hp
  · exact .kept keeps (.refl sound.workers) rfl
  · obtain ⟨v, hv, rfl⟩ := PriorityQueue.getMut_eq_some.mp hw
    have hshrunk : shrunk.key = w ∧ shrunk.value.id = w ∧ shrunk.Of s.workersQueue ∧
        v.Stays shrunk.value := by
      unfold shrink at hshrink
      split at hshrink
      · simp only [bind_ok, except_pure, Except.ok.injEq, Prod.mk.injEq] at hshrink
        obtain ⟨n, _, rfl, _⟩ := hshrink
        exact ⟨rfl, sound.workers.keyed w v hv, (RefMut.of_get hv).derefMut _, rfl, rfl, fun h => h⟩
      · obtain ⟨rfl, _⟩ := Prod.mk.inj (Except.ok.inj hshrink)
        exact ⟨rfl, sound.workers.keyed w v hv, RefMut.of_get hv, .refl v⟩
    obtain ⟨hkey, hid, hof, stays⟩ := hshrunk
    obtain ⟨ready, _⟩ := borrow_ready job sound hv hkey hid hof
    obtain ⟨ready₁, _⟩ := reportTasks_refines ready hb
    exact putBack_manning sound ready₁ hv (stays.trans (reportTasks_stay hb)) hput keeps

theorem createdSession_manning (sound : s.Sound) (hp : s.processCreatedSession = .ok (s', out))
    (keeps : e.Keeps) : Manning s s' e out := by
  rcases processCreatedSession_ok hp with ⟨rfl, _⟩ | ⟨_, _, _, rfl, _⟩
  · exact .kept keeps (.refl sound.workers) rfl
  · refine .cleared ?_ ?_
    · intro w
      exact PriorityQueue.get_clear _ w
    · intro w
      exact VecMap.get_clear s.connectionManager.nodes w

theorem step_manning (sound : s.Sound) (hp : s.step checks e = .ok (s', out)) :
    Manning s s' e out := by
  cases step_branch hp with
  | hello | noTaskManager | nodes | nodeManagerConnected | scheduledJob | listedWorkers
  | listedTasks | taskManagerConnected | restoredSession | nodeManagerLeft =>
    exact .kept trivial (.refl sound.workers) rfl
  | taskManagerLeft | newJob =>
    refine .cleared ?_ ?_
    · intro w
      exact PriorityQueue.get_clear _ w
    · intro w
      exact VecMap.get_clear s.connectionManager.nodes w
  | tasks batch _ _ taken =>
    have hsame : s'.workersQueue = s.workersQueue ∧
        s'.connectionManager.nodes = s.connectionManager.nodes := by
      rcases processTaskBatch_ok taken with ⟨_, ⟨rfl, _⟩ | ⟨_, _, _, _, _, _, rfl⟩⟩
      · exact ⟨rfl, rfl⟩
      · exact ⟨rfl, rfl⟩
    refine .kept trivial ?_ hsame.2
    rw [hsame.1]
    exact .refl sound.workers
  | nodeLeft w _ taken => exact left_manning sound taken trivial (by rintro _ ⟨⟩)
  | disconnected w _ taken =>
    refine left_manning sound taken trivial ?_
    rintro k ⟨⟩
    rfl
  | createdSession _ _ taken => exact createdSession_manning sound taken trivial
  | schedule => exact schedule_manning sound hp
  | connected info node _ _ taken => exact connected_manning sound taken
  | result w result _ _ taken => exact result_manning sound taken trivial
  | libraryMissing w tasks replacements _ _ taken =>
    exact libraryMissing_manning sound taken trivial
  | taskExecutionError w t error _ _ taken => exact taskExecutionError_manning sound taken trivial
  | noFreeExecutors w tasks _ _ taken => exact noFreeExecutors_manning sound taken trivial

theorem subset_supplied (continues : e.Continues) : links ⊆ supplied links s e out := by
  unfold supplied
  split
  · exact continues.elim
  · exact continues.elim
  · exact List.subset_append_left ..

/-- Workers join and leave with their nodes. -/
theorem Manning.linked (manning : Manning s s' e out)
    (linked : ∀ w, (s.workersQueue.get w).isSome = (s.connectionManager.nodes.get w).isSome)
    (w : WorkerId) :
    (s'.workersQueue.get w).isSome = (s'.connectionManager.nodes.get w).isSome := by
  cases manning with
  | kept _ hr hnodes =>
    rw [hr.stay, hnodes]
    exact linked w
  | cleared hworkers hnodes =>
    rw [hworkers, hnodes]
    rfl
  | left k _ _ hqueue hnodes =>
    rw [hqueue, hnodes]
    by_cases hw : w = k
    · subst hw
      simp
    · rw [Function.update_of_ne hw, Function.update_of_ne hw]
      exact linked w
  | joined info node _ hqueue hnodes =>
    rw [hqueue, hnodes]
    by_cases hw : w = info.workerId
    · subst hw
      simp
    · rw [Function.update_of_ne hw, Function.update_of_ne hw]
      exact linked w
  | asked job k v kept request _ _ dispatched _ =>
    have hnodes : s'.connectionManager.nodes = s.connectionManager.nodes := by rw [dispatched.rest]
    rw [dispatched.workers, hnodes]
    by_cases hw : w = k
    · subst hw
      rw [Function.update_self, ← linked w, dispatched.worker]
      rfl
    · rw [Function.update_of_ne hw]
      exact linked w

/-- Who is sent tasks has the data already, or it comes with them. -/
theorem dispatched_data (sound : s.Sound) (h : Supplied links s)
    (hp : s.step checks .schedule = .ok (s', out)) (hj : s.scheduledJob = some job) {k : WorkerId}
    {v v' : Worker} {kept : List TaskId} {request : WorkerRequest}
    (dispatched : Dispatches s s' job k v kept request) (hsent : out = s.sendNode k request)
    (hv' : s'.workersQueue.get w = some v') (hdata : v'.hasJobData = true)
    (hprogram : (job.job.data.lookup v'.platform).isSome) :
    ∃ link, s'.connectionManager.nodes.get w = some link ∧
      (link, w) ∈ supplied links s .schedule out := by
  have hwas : s.workersQueue.get k = some v := dispatched.worker
  have hnodes : s'.connectionManager.nodes = s.connectionManager.nodes := by rw [dispatched.rest]
  obtain ⟨link, hlink⟩ : ∃ link, s.connectionManager.nodes.get k = some link := by
    rw [← Option.isSome_iff_exists, ← h.linked, hwas]
    rfl
  have hout : out = [.node link k request] := by rw [hsent, sendNode, hlink]
  rw [dispatched.workers] at hv'
  rw [hnodes]
  by_cases hw : w = k
  · subst hw
    rw [Function.update_self, Option.some.injEq] at hv'
    rw [← hv'] at hprogram
    refine ⟨link, hlink, ?_⟩
    cases had : v.hasJobData with
    | true =>
      obtain ⟨link', hlink', hmem⟩ := h.data w v job hwas had hj hprogram
      rw [hlink, Option.some.injEq] at hlink'
      exact List.mem_append_left _ (hlink' ▸ hmem)
    | false =>
      -- the request itself brings the data
      obtain ⟨_, ⟨job₀, v₀, hj₀, hv₀, _, hrequest⟩, _⟩ :=
        step_asks sound hp (hout ▸ List.mem_cons_self)
      rw [hj, Option.some.injEq] at hj₀
      rw [hwas, Option.some.injEq] at hv₀
      subst hj₀ hv₀
      obtain ⟨program, hsome⟩ := Option.isSome_iff_exists.mp hprogram
      refine List.mem_append_right _ ?_
      simp [hout, Sent.supply?, hrequest, had, hsome]
  · rw [Function.update_of_ne hw] at hv'
    obtain ⟨link', hlink', hmem⟩ := h.data w v' job hv' hdata hj hprogram
    exact ⟨link', hlink', List.mem_append_left _ hmem⟩

theorem step_supplied (sound : s.Sound) (h : Supplied links s)
    (hp : s.step checks e = .ok (s', out)) : Supplied (supplied links s e out) s' := by
  have hjob : e.Continues → ∀ job', s'.scheduledJob = some job' →
      ∃ job, s.scheduledJob = some job ∧ job'.job = job.job := by
    intro continues job' hj'
    have hnew : ∀ id totalTasks data, e ≠ .taskManager (.message (.newJob id totalTasks data)) := by
      rintro id totalTasks data rfl
      exact continues
    obtain ⟨job, hj, _, hsame⟩ := step_job sound hnew hp hj'
    exact ⟨job, hj, hsame⟩
  have manning := step_manning sound hp
  refine ⟨manning.linked h.linked, ?_⟩
  intro w v' job' hv' hdata hj' hprogram
  cases manning with
  | kept keeps hr hnodes =>
    obtain ⟨v, hv, stays⟩ := hr.workers w v' hv'
    obtain ⟨job, hj, hsame⟩ := hjob keeps.continues job' hj'
    rw [stays.platform, hsame] at hprogram
    obtain ⟨link, hlink, hmem⟩ := h.data w v job hv (stays.data hdata) hj hprogram
    exact ⟨link, hnodes ▸ hlink, subset_supplied keeps.continues hmem⟩
  | cleared hworkers hnodes =>
    rw [hworkers] at hv'
    cases hv'
  | left k continues _ hqueue hnodes =>
    rw [hqueue] at hv'
    rw [hnodes]
    by_cases hw : w = k
    · subst hw
      rw [Function.update_self] at hv'
      cases hv'
    · rw [Function.update_of_ne hw] at hv' ⊢
      obtain ⟨job, hj, hsame⟩ := hjob continues job' hj'
      rw [hsame] at hprogram
      obtain ⟨link, hlink, hmem⟩ := h.data w v' job hv' hdata hj hprogram
      exact ⟨link, hlink, subset_supplied continues hmem⟩
  | joined info node he hqueue hnodes =>
    subst he
    obtain ⟨_, _, _, _, rfl⟩ := processConnected_ok hp
    rw [hqueue] at hv'
    by_cases hw : w = info.workerId
    · -- who joins has no data
      subst hw
      rw [Function.update_self, Option.some.injEq] at hv'
      rw [← hv'] at hdata
      cases hdata
    · rw [Function.update_of_ne hw] at hv'
      obtain ⟨link, hlink, hmem⟩ := h.data w v' job' hv' hdata hj' hprogram
      refine ⟨link, ?_, List.mem_filter.mpr ⟨hmem, by simpa using hw⟩⟩
      rw [hnodes, Function.update_of_ne hw]
      exact hlink
  | asked job k v kept request he hj dispatched hsent =>
    subst he
    obtain ⟨before, hbefore, hsame⟩ := hjob trivial job' hj'
    rw [hj, Option.some.injEq] at hbefore
    rw [hsame, ← hbefore] at hprogram
    exact dispatched_data sound h hp hj dispatched hsent hv' hdata hprogram

/-- The scheduling branch records nothing, or sends just what it records. -/
theorem Supplied.dispatches (sound : s.Sound) (h : Supplied links s)
    (hj : s.scheduledJob = some job) (hp : s.processScheduling checks = .ok (s', out)) :
    Idles s s' out ∨ ∃ link w v kept request, out = [.node link w request] ∧
      s.connectionManager.nodes.get w = some link ∧ Dispatches s s' job w v kept request := by
  rcases processScheduling_dispatches sound hj hp with idles |
    ⟨w, v, kept, request, _, hout, dispatched⟩
  · exact .inl idles
  · have hsome : (s.connectionManager.nodes.get w).isSome := by
      rw [← h.linked, dispatched.worker]
      rfl
    obtain ⟨link, hlink⟩ := Option.isSome_iff_exists.mp hsome
    rw [sendNode, hlink] at hout
    exact .inr ⟨link, w, v, kept, request, hout, hlink, dispatched⟩

end Steps

/-- In every reachable state the workers that are queued are those that have a node; so a turn of the
scheduling branch records nothing or sends just what it records; and a request without the job's
data goes only to a worker that was sent it over the same node, or for which the job has no
program. -/
theorem run_supplied {config : Config} {es : List Event}
    (run : Run (step checks) (fun _ _ => True) (Scheduler.new config) es out s) :
    (∀ w, (s.workersQueue.get w).isSome = (s.connectionManager.nodes.get w).isSome) ∧
      ∀ e s' out', s.step checks e = .ok (s', out') →
        (∀ job, e = .schedule → s.scheduledJob = some job → Idles s s' out' ∨
          ∃ link w v kept request, out' = [.node link w request] ∧
            Dispatches s s' job w v kept request) ∧
        ∀ link w request, .node link w request ∈ out' →
          s.connectionManager.nodes.get w = some link ∧ ∃ job v, s.scheduledJob = some job ∧
            s.workersQueue.get w = some v ∧
            (request.jobData = (job.job.data.lookup v.platform).map
                (fun program => (job.job.args, program)) ∨
              request.jobData = none ∧
                (link, w) ∈ history (step checks) supplied [] (Scheduler.new config) es) := by
  obtain ⟨sound, h⟩ := run.invariant_history supplied
    (I := fun links _ _ s => s.Sound ∧ Supplied links s)
    ⟨sound_new config, .empty (fun w => PriorityQueue.get_new w) fun w => VecMap.get_new w⟩
    fun links _ _ _ _ _ _ hI _ taken =>
      ⟨(step_outcome hI.1 taken).1, step_supplied hI.1 hI.2 taken⟩
  refine ⟨h.linked, ?_⟩
  intro e s' out' hp
  have hschedule : ∀ job, e = .schedule → s.scheduledJob = some job → Idles s s' out' ∨
      ∃ link w v kept request, out' = [.node link w request] ∧
        s.connectionManager.nodes.get w = some link ∧ Dispatches s s' job w v kept request := by
    rintro job rfl hj
    cases step_branch hp with
    | schedule _ _ _ taken => exact h.dispatches sound hj taken
  refine ⟨?_, ?_⟩
  · intro job he hj
    rcases hschedule job he hj with idles | ⟨link, w, v, kept, request, hout, _, dispatched⟩
    · exact .inl idles
    · exact .inr ⟨link, w, v, kept, request, hout, dispatched⟩
  · intro link w request hm
    obtain ⟨hlink, ⟨job, v, hj, hv, _, hdata⟩, _⟩ := step_asks sound hp hm
    refine ⟨hlink, job, v, hj, hv, ?_⟩
    cases had : v.hasJobData with
    | false =>
      rw [had] at hdata
      exact .inl hdata
    | true =>
      rw [had] at hdata
      cases hprogram : job.job.data.lookup v.platform with
      | none => exact .inl hdata
      | some program =>
        obtain ⟨link', hlink', hmem⟩ := h.data w v job hv had hj (by rw [hprogram]; rfl)
        rw [hlink, Option.some.injEq] at hlink'
        exact .inr ⟨hdata, hlink' ▸ hmem⟩

/-- A worker that has been sent the data with its first task is sent the next one without. -/
theorem run_supplied_second : ∃ out s s' request,
    Run (step true) (fun _ _ => True) (Scheduler.new smallConfig)
      [jobOf 2, tasksOf [0], joinOf 1 2, .schedule, tasksOf [1]] out s ∧
    s.step true .schedule = .ok (s', [.node ⟨1⟩ 1 request]) ∧ request.jobData = none ∧
    (⟨1⟩, 1) ∈ history (step true) supplied [] (Scheduler.new smallConfig)
      [jobOf 2, tasksOf [0], joinOf 1 2, .schedule, tasksOf [1]] := by
  obtain ⟨s, out, run, h⟩ := exists_run (step true) (fun _ _ => True) (Scheduler.new smallConfig)
    [jobOf 2, tasksOf [0], joinOf 1 2, .schedule, tasksOf [1]]
    (fun r => (r.1.step true .schedule).toOption.any fun after : Scheduler × List Sent =>
      decide (after.2 = [Sent.node ⟨1⟩ 1 ⟨7, none, [], [⟨1, []⟩]⟩]) &&
        r.1.scheduledJob.all fun job : ScheduledJob => (r.1.workersQueue.get 1).all
          fun v : Worker => (job.job.data.lookup v.platform).isSome)
    (by decide +kernel)
  rw [Option.any_eq_true] at h
  obtain ⟨⟨s', out'⟩, htaken, h⟩ := h
  rw [Bool.and_eq_true, decide_eq_true_eq] at h
  obtain ⟨hout, hprogram⟩ := h
  cases taken : s.step true .schedule with
  | error fault => simp [taken, Except.toOption] at htaken
  | ok after =>
    obtain rfl : after = (s', out') := by simpa [taken, Except.toOption] using htaken
    dsimp only at hout
    rw [hout] at taken
    refine ⟨out, s, s', _, run, taken, rfl, ?_⟩
    obtain ⟨_, job, v, hj, hv, hdata | ⟨_, hmem⟩⟩ :=
      ((run_supplied run).2 .schedule s' _ taken).2 ⟨1⟩ 1 _ List.mem_cons_self
    · simp only [hj, hv, Option.all_some] at hprogram
      obtain ⟨program, hsome⟩ := Option.isSome_iff_exists.mp hprogram
      rw [hsome] at hdata
      cases hdata
    · exact hmem

end Scheduler
end GridServer
