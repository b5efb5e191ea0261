import GridServer.Scheduler.Borrows
import GridServer.Scheduler.Branches

namespace GridServer
open Library

namespace Board

theorem of_setTask (tasks : TaskId → Option Task) (workers : WorkerId → Option Worker)
    (job : ScheduledJob) (t : TaskId) (o : Option Task) :
    of (Function.update tasks t o) workers job =
      (of tasks workers job).setTask t (o.map Task.assignments) := by
  simp only [of, setTask, mk.injEq, and_self, and_true]
  funext k
  by_cases hk : k = t
  · subst hk; simp
  · simp [Function.update_of_ne hk]

theorem of_editWorker {tasks : TaskId → Option Task} {workers : WorkerId → Option Worker}
    {job : ScheduledJob} {w : WorkerId} {v u : Worker} {f : Holder → Holder}
    (h : workers w = some v) (hf : u.holder = f v.holder) :
    of tasks (Function.update workers w (some u)) job = (of tasks workers job).editWorker w f := by
  simp only [of, editWorker, mk.injEq, and_self, and_true, true_and]
  funext k
  by_cases hk : k = w
  · subst hk; simp [h, hf]
  · simp [Function.update_of_ne hk]

/-- The books of a worker are those of its holder. -/
theorem of_holder {tasks : TaskId → Option Task} {workers : WorkerId → Option Worker}
    {job : ScheduledJob} {w : WorkerId} {v v' : Worker} (h : v'.holder = v.holder) :
    of tasks (Function.update workers w (some v')) job =
      of tasks (Function.update workers w (some v)) job := by
  simp only [of, mk.injEq, and_self, and_true, true_and]
  funext k
  by_cases hk : k = w
  · subst hk; simp [h]
  · simp [Function.update_of_ne hk]

theorem editWorker_absent {b : Board} {w : WorkerId} (h : b.workers w = none) (f : Holder → Holder) :
    b.editWorker w f = b := by
  unfold editWorker
  rw [h, Option.map_none, ← h, Function.update_eq_self]

theorem report_absent {b : Board} {w : WorkerId} (h : b.workers w = none) (t : TaskId)
    (due : Option TaskId) : b.move (.report w t due) = b := by
  simp [move, report, h]

/-- A report of a worker that is not there changes nothing. -/
theorem reports_absent {b : Board} {w : WorkerId} (h : b.workers w = none) (ms : List Move)
    (reports : ∀ m ∈ ms, ∃ t due, m = .report w t due) : ms.foldl move b = b := by
  induction ms with
  | nil => rfl
  | cons m ms ih =>
    obtain ⟨t, due, rfl⟩ := reports m List.mem_cons_self
    rw [List.foldl_cons, report_absent h]
    exact ih fun m hm => reports m (List.mem_cons_of_mem _ hm)

end Board

/-- `job'` is the same job at a later time. -/
def ScheduledJob.Continues (job job' : ScheduledJob) : Prop :=
  job'.id = job.id ∧ job'.totalTasks = job.totalTasks ∧ job'.job = job.job

theorem ScheduledJob.Continues.refl (job : ScheduledJob) : job.Continues job := ⟨rfl, rfl, rfl⟩

theorem ScheduledJob.Continues.trans {job job' job'' : ScheduledJob} (h : job.Continues job')
    (h' : job'.Continues job'') : job.Continues job'' :=
  ⟨h'.1.trans h.1, h'.2.1.trans h.2.1, h'.2.2.trans h.2.2⟩

namespace Scheduler
variable {checks : Bool}

section Reports
variable {job : ScheduledJob} {q : PriorityQueue Worker} {w : WorkerId} {b b' : Borrowed}

/-- The books while an error handler holds `b` and the other workers are `ws`. -/
def Borrowed.board (ws : WorkerId → Option Worker) (b : Borrowed) : Board :=
  .of b.tasksQueue.get (Function.update ws b.worker.key (some b.worker.value)) b.job

/-- What stays true of a borrow between two reported tasks. -/
structure Borrowed.Ready (job : ScheduledJob) (q : PriorityQueue Worker) (w : WorkerId)
    (b : Borrowed) : Prop where
  continues : job.Continues b.job
  completed : b.job.completedTasks = job.completedTasks
  tasks : Keyed Task.key b.tasksQueue
  key : b.worker.key = w
  id : b.worker.value.id = w
  borrow : b.worker.Of q

/-- `edit` does nothing to a task that the books record. -/
def Unrecorded (edit : RefMut Task → Except Fault (RefMut Task)) : Prop :=
  ∀ r r', edit r = .ok r' → r'.key = r.key ∧ r'.value.taskData = r.value.taskData ∧
    r'.value.assignments = r.value.assignments ∧ ∀ q, r.Of q → r'.Of q

theorem unrecorded_ok : Unrecorded .ok := by
  intro r r' h
  rw [Except.ok.injEq] at h
  subst h
  exact ⟨rfl, rfl, rfl, fun _ h => h⟩

theorem unrecorded_countFailure (limit : Nat) : Unrecorded (countFailure checks limit) := by
  intro r r' h
  unfold countFailure at h
  split at h
  · exact unrecorded_ok r r' h
  · simp only [bind_ok, except_pure, Except.ok.injEq] at h
    obtain ⟨n, _, rfl⟩ := h
    exact ⟨rfl, rfl, rfl, fun _ h => h.derefMut _⟩

/-- One reported task is one move of the books. `due` is what `after` adds for the worker. -/
theorem report_refines (due : Option TaskId) {edit : RefMut Task → Except Fault (RefMut Task)}
    {after : RefMut Worker → RefMut Worker} (he : Unrecorded edit)
    (ha : ∀ r, after r = due.elim r r.addReplacement) {t : TaskId} (ready : b.Ready job q w)
    (h : report checks edit after b t = .ok b') :
    b'.Ready job q w ∧ b'.board q.get = (b.board q.get).move (.report w t due) := by
  have hpresent : (b.board q.get).workers w = some b.worker.value.holder := by
    simp [Borrowed.board, Board.of, ready.key]
  unfold report at h
  split at h
  · rename_i hn
    simp only [bind_ok, except_pure, Except.ok.injEq] at h
    obtain ⟨worker, hw, rfl⟩ := h
    obtain ⟨hkey, ⟨ts, hts⟩, hholder, hof⟩ := RefMut.releaseFinished_ok hw
    refine ⟨⟨ready.continues, ready.completed, ready.tasks, hkey.trans ready.key,
      by rw [hts]; exact ready.id, hof ready.borrow⟩, ?_⟩
    have htask : (b.board q.get).tasks t = none := by
      simp [Borrowed.board, Board.of, PriorityQueue.getMut_eq_none.mp hn]
    simp only [Board.move, Board.report, hpresent, htask]
    rw [Borrowed.board, Borrowed.board, ← Board.of_editWorker (v := b.worker.value)
      (by rw [ready.key, Function.update_self]) hholder, hkey, ready.key, Function.update_idem]
  · rename_i task htask
    obtain ⟨v, hv, rfl⟩ := PriorityQueue.getMut_eq_some.mp htask
    simp only [bind_ok, except_pure, Except.ok.injEq] at h
    obtain ⟨scheduledTasks, hs, task', htask', tasksQueue, hd, rfl⟩ := h
    obtain ⟨hkey, hdata, hassign, hof⟩ := he _ _ htask'
    have hid : Task.key task'.value = task'.key := by
      rw [Task.key, hdata, hkey, RefMut.releaseWorker_value, RefMut.releaseWorker_key]
      exact ready.tasks.keyed t v hv
    obtain ⟨hq', hget⟩ := (hof _ ((RefMut.of_get hv).releaseWorker _)).drop ready.tasks hid hd
    have htk : task'.key = t := by rw [hkey, RefMut.releaseWorker_key]
    have hws : task'.value.assignments = withdraw v.assignments w := by
      rw [hassign, RefMut.releaseWorker_value, ready.key]
    have hafter : (after (b.worker.releaseTask t)).key = w ∧
        (after (b.worker.releaseTask t)).value.id = w ∧
        (after (b.worker.releaseTask t)).Of q ∧
        (after (b.worker.releaseTask t)).value.holder =
          due.elim (b.worker.value.holder.release t)
            (b.worker.value.holder.release t).addReplacement := by
      have hr : (b.worker.releaseTask t).Of q := ready.borrow.releaseTask t
      rw [ha]
      cases due with
      | none => exact ⟨by simp [ready.key], by simp [ready.id], hr, by
          simp [Worker.holder, Holder.release]⟩
      | some r => exact ⟨by simp [ready.key], by simp [ready.id], hr.addReplacement r, by
          simp [Worker.holder, Holder.release, Holder.addReplacement]⟩
    refine ⟨⟨ready.continues, ready.completed, hq', hafter.1, hafter.2.1, hafter.2.2.1⟩, ?_⟩
    have htb : (b.board q.get).tasks t = some v.assignments := by
      simp [Borrowed.board, Board.of, hv]
    have hbooks : Board.of tasksQueue.get
        (Function.update q.get (after (b.worker.releaseTask t)).key
          (some (after (b.worker.releaseTask t)).value)) b.job =
        ((b.board q.get).editWorker w fun h =>
          due.elim (h.release t) (h.release t).addReplacement).setTask t
            (some (withdraw v.assignments w)) := by
      rw [hafter.1, hget, htk, Board.of_setTask, Option.map_some, hws, Borrowed.board,
        ← Board.of_editWorker (v := b.worker.value) (by rw [ready.key, Function.update_self])
          hafter.2.2.2, ready.key, Function.update_idem]
    simp only [Board.move, Board.report, hpresent, htb]
    rw [← hbooks, Borrowed.board]
    have hsched := subBits_ok hs
    have hhas : (!v.hasAssignments).toNat = v.assignments.isEmpty.toNat := by
      simp [Task.hasAssignments]
    simp only [Board.of, hsched, hhas]
    rfl

theorem reportTasks_refines {ts : List TaskId} (ready : b.Ready job q w)
    (h : ts.foldlM (reportTask checks) b = .ok b') :
    b'.Ready job q w ∧ b'.board q.get =
      (ts.map fun t => Move.report w t none).foldl Board.move (b.board q.get) :=
  foldlM_simulates (R := fun b board => b.Ready job q w ∧ b.board q.get = board)
    (fun _ _ _ _ hR hb => by
      obtain ⟨hr, he⟩ := report_refines none unrecorded_ok (fun _ => rfl) hR.1 hb
      exact ⟨hr, hR.2 ▸ he⟩) ⟨ready, rfl⟩ h

theorem reportReplacements_refines {rs : List (TaskId × TaskId)} (ready : b.Ready job q w)
    (h : rs.foldlM (reportReplacement checks) b = .ok b') :
    b'.Ready job q w ∧ b'.board q.get =
      (rs.map fun r => Move.report w r.2 (some r.1)).foldl Board.move (b.board q.get) :=
  foldlM_simulates (R := fun b board => b.Ready job q w ∧ b.board q.get = board)
    (fun r _ _ _ hR hb => by
      obtain ⟨hr, he⟩ := report_refines (some r.1) unrecorded_ok (fun _ => rfl) hR.1 hb
      exact ⟨hr, hR.2 ▸ he⟩) ⟨ready, rfl⟩ h

end Reports

section Handlers
variable {s s' : Scheduler} {job : ScheduledJob} {out : List Sent}

/-- The step keeps the job, and moves the books by `ms`. -/
structure Follows (s : Scheduler) (job : ScheduledJob) (s' : Scheduler) (ms : List Move) : Prop where
  sound : s'.Sound
  books : ∃ job', s'.scheduledJob = some job' ∧ job.Continues job' ∧
    s'.board job' = ms.foldl Board.move (s.board job)

theorem Follows.refl (sound : s.Sound) (hj : s.scheduledJob = some job) : Follows s job s [] :=
  ⟨sound, job, hj, .refl job, rfl⟩

theorem board_workers (w : WorkerId) :
    (s.board job).workers w = (s.workersQueue.get w).map Worker.holder := rfl

theorem board_tasks (t : TaskId) :
    (s.board job).tasks t = (s.tasksQueue.get t).map Task.assignments := rfl

/-- Reports of a worker that is not there change nothing. -/
theorem Follows.absent (sound : s.Sound) (hj : s.scheduledJob = some job) {w : WorkerId}
    (hw : s.workersQueue.getMut w = none) {ms : List Move}
    (reports : ∀ m ∈ ms, ∃ t due, m = .report w t due) : Follows s job s ms := by
  refine ⟨sound, job, hj, .refl job, (Board.reports_absent ?_ ms reports).symm⟩
  rw [board_workers, PriorityQueue.getMut_eq_none.mp hw, Option.map_none]

/-- The books when an error handler borrows a worker. -/
theorem borrow_ready (job : ScheduledJob) (sound : s.Sound) {worker : RefMut Worker}
    {w : WorkerId} {v : Worker} (hv : s.workersQueue.get w = some v) (hkey : worker.key = w) (hid : worker.value.id = w)
    (hof : worker.Of s.workersQueue) :
    Borrowed.Ready job s.workersQueue w ⟨worker, s.tasksQueue, job⟩ ∧
      ∀ f : Holder → Holder, worker.value.holder = f v.holder →
        Borrowed.board s.workersQueue.get ⟨worker, s.tasksQueue, job⟩ =
          (s.board job).editWorker w f := by
  refine ⟨⟨.refl job, rfl, sound.tasks, hkey, hid, hof⟩, ?_⟩
  intro f hf
  rw [Borrowed.board, hkey, Board.of_editWorker hv hf]
  rfl

theorem editWorker_id {b : Board} {w : WorkerId} {f : Holder → Holder} (hf : ∀ h, f h = h) :
    b.editWorker w f = b := by
  have hmap : (b.workers w).map f = b.workers w := by
    cases b.workers w with
    | none => rfl
    | some h => rw [Option.map_some, hf]
  rw [Board.editWorker, hmap, Function.update_eq_self]

/-- The books when the borrowed worker is as the queue has it. -/
theorem borrow_same (job : ScheduledJob) (sound : s.Sound) {worker : RefMut Worker} {w : WorkerId}
    {v : Worker} (hv : s.workersQueue.get w = some v) (hkey : worker.key = w)
    (hid : worker.value.id = w) (hof : worker.Of s.workersQueue)
    (hf : worker.value.holder = v.holder) :
    Borrowed.Ready job s.workersQueue w ⟨worker, s.tasksQueue, job⟩ ∧
      Borrowed.board s.workersQueue.get ⟨worker, s.tasksQueue, job⟩ = s.board job := by
  obtain ⟨ready, hbooks⟩ := borrow_ready job sound hv hkey hid hof
  exact ⟨ready, (hbooks id hf).trans (editWorker_id fun _ => rfl)⟩

/-- Putting back what an error handler holds makes its books the scheduler's. -/
theorem putBack_refines {b : Borrowed} {w : WorkerId} {scheduledJob : Option ScheduledJob}
    {need : Bool} (sound : s.Sound) (ready : b.Ready job s.workersQueue w)
    (hc : ∀ job', scheduledJob = some job' → job'.completedTasks < 2 ^ 128)
    (h : s.putBack checks b scheduledJob need = .ok s') :
    s'.Sound ∧ s'.scheduledJob = scheduledJob ∧
      s'.board b.job = b.board s.workersQueue.get := by
  obtain ⟨workersQueue, hd, rfl⟩ := putBack_ok.mp h
  obtain ⟨hq, hget⟩ := ready.borrow.drop sound.workers (by rw [ready.id, ready.key]) hd
  refine ⟨⟨ready.tasks, hq, hc⟩, rfl, ?_⟩
  simp only [board, hget]
  rfl

/-- What the error handlers share: reports on a borrowed worker, put back at the end. -/
theorem Follows.putBack {b : Borrowed} {w : WorkerId} {need : Bool} {ms : List Move}
    (sound : s.Sound) (hj : s.scheduledJob = some job) (ready : b.Ready job s.workersQueue w)
    (books : b.board s.workersQueue.get = ms.foldl Board.move (s.board job))
    (h : s.putBack checks b (some b.job) need = .ok s') : Follows s job s' ms := by
  obtain ⟨hsound, hjob, hboard⟩ := putBack_refines sound ready (by
    rintro job' ⟨⟩
    rw [ready.completed]
    exact sound.completed job hj) h
  exact ⟨hsound, b.job, hjob, ready.continues, hboard.trans books⟩

theorem processLibraryMissing_refines (sound : s.Sound) (hj : s.scheduledJob = some job)
    {w : WorkerId} {tasks : List TaskId} {replacements : List (TaskId × TaskId)}
    (h : s.processLibraryMissing checks w tasks replacements = .ok (s', out)) :
    Follows s job s' ((tasks.map fun t => .report w t none) ++
      replacements.map fun r => .report w r.2 (some r.1)) := by
  obtain ⟨_, ⟨rfl, absent⟩ | ⟨job', worker, b₁, b₂, hjob, hw, h₁, h₂, h₃⟩⟩ :=
    processLibraryMissing_ok h
  · refine .absent sound hj (absent job hj) fun m hm => ?_
    rcases List.mem_append.mp hm with hm | hm
    · obtain ⟨t, _, rfl⟩ := List.mem_map.mp hm
      exact ⟨t, none, rfl⟩
    · obtain ⟨r, _, rfl⟩ := List.mem_map.mp hm
      exact ⟨r.2, some r.1, rfl⟩
  · rw [hj, Option.some.injEq] at hjob
    subst hjob
    obtain ⟨v, hv, rfl⟩ := PriorityQueue.getMut_eq_some.mp hw
    obtain ⟨ready, hbooks⟩ := borrow_same job sound hv rfl (sound.workers.keyed w v hv)
      ((RefMut.of_get hv).derefMut { v with hasJobData := false }) rfl
    obtain ⟨ready₁, hb₁⟩ := reportTasks_refines ready h₁
    obtain ⟨ready₂, hb₂⟩ := reportReplacements_refines ready₁ h₂
    refine .putBack sound hj ready₂ ?_ h₃
    rw [hb₂, hb₁, hbooks, List.foldl_append]

/-- A failed execution is one reported task; past the limit the job is given up. -/
theorem processTaskExecutionError_refines (sound : s.Sound) (hj : s.scheduledJob = some job)
    {w : WorkerId} {t : TaskId} {error : String}
    (h : s.processTaskExecutionError checks w t error = .ok (s', out)) :
    (s'.Sound ∧ s'.scheduledJob = none ∧
        ∃ job', s'.board job' = (s.board job).move (.report w t none)) ∨
      Follows s job s' [.report w t none] := by
  rcases processTaskExecutionError_ok h with ⟨rfl, _, absent⟩ |
    ⟨job', worker, b₁, j, hjob, hw, h₁, h₂, hend⟩
  · exact .inr (.absent sound hj (absent job hj) (by simp))
  · rw [hj, Option.some.injEq] at hjob
    subst hjob
    obtain ⟨v, hv, rfl⟩ := PriorityQueue.getMut_eq_some.mp hw
    obtain ⟨ready, hbooks⟩ := borrow_same job sound hv rfl (sound.workers.keyed w v hv)
      (RefMut.of_get hv) rfl
    obtain ⟨ready₁, hb₁⟩ := report_refines none
      (unrecorded_countFailure s.config.failedExecutionsLimit) (fun _ => rfl) ready h₁
    have hbooks₁ : b₁.board s.workersQueue.get = (s.board job).move (.report w t none) := by
      rw [hb₁, hbooks]
    rcases hend with ⟨_, rfl, _⟩ | ⟨_, rfl, _⟩
    · obtain ⟨hsound, hnone, hboard⟩ := putBack_refines sound ready₁ (by rintro _ ⟨⟩) h₂
      exact .inl ⟨hsound, hnone, b₁.job, hboard.trans hbooks₁⟩
    · exact .inr (.putBack sound hj ready₁ hbooks₁ h₂)

/-- The moves of a worker that turns tasks down: fewer subworkers, then one report for each. -/
def refusal (b : Board) (w : WorkerId) (tasks : List TaskId) : List Move :=
  (if (b.workers w).any (·.subworkers ≠ 0) then [.shrink w tasks.length] else []) ++
    tasks.map fun t => .report w t none

theorem processNoFreeExecutors_refines (sound : s.Sound) (hj : s.scheduledJob = some job)
    {w : WorkerId} {tasks : List TaskId}
    (h : s.processNoFreeExecutors checks w tasks = .ok (s', out)) :
    Follows s job s' (refusal (s.board job) w tasks) := by
  obtain ⟨_, ⟨rfl, absent⟩ | ⟨job', worker, shrunk, need, b₁, hjob, hw, hworker, h₁, h₂⟩⟩ :=
    processNoFreeExecutors_ok h
  · have habsent := absent job hj
    refine .absent sound hj habsent fun m hm => ?_
    have hb : (s.board job).workers w = none := by
      rw [board_workers, PriorityQueue.getMut_eq_none.mp habsent, Option.map_none]
    simp only [refusal, hb, Option.any_none, Bool.false_eq_true, ↓reduceIte, List.nil_append,
      List.mem_map] at hm
    obtain ⟨t, _, rfl⟩ := hm
    exact ⟨t, none, rfl⟩
  · rw [hj, Option.some.injEq] at hjob
    subst hjob
    obtain ⟨v, hv, rfl⟩ := PriorityQueue.getMut_eq_some.mp hw
    have hb : (s.board job).workers w = some v.holder := by rw [board_workers, hv, Option.map_some]
    by_cases hsub : v.subworkers = 0
    · simp only [shrink, hsub, ne_eq, not_true_eq_false, ↓reduceIte, Except.ok.injEq,
        Prod.mk.injEq] at hworker
      obtain ⟨rfl, rfl⟩ := hworker
      obtain ⟨ready, hbooks⟩ := borrow_same job sound hv rfl
        (sound.workers.keyed w v hv) (RefMut.of_get hv) rfl
      obtain ⟨ready₁, hb₁⟩ := reportTasks_refines ready h₁
      refine .putBack sound hj ready₁ ?_ h₂
      rw [hb₁, hbooks]
      simp [refusal, hb, Worker.holder, hsub]
    · simp only [shrink, hsub, ne_eq, not_false_eq_true, ↓reduceIte, bind_ok, except_pure,
        Except.ok.injEq, Prod.mk.injEq] at hworker
      obtain ⟨n, hn, rfl, rfl⟩ := hworker
      obtain ⟨ready, hbooks⟩ := borrow_ready job sound hv rfl
        (sound.workers.keyed w v hv) ((RefMut.of_get hv).derefMut { v with subworkers := n })
      obtain ⟨ready₁, hb₁⟩ := reportTasks_refines ready h₁
      refine .putBack sound hj ready₁ ?_ h₂
      rw [hb₁, hbooks (fun h => { h with subworkers := wrappingSub 64 h.subworkers tasks.length })
        (by rw [subBits_ok hn]; rfl)]
      simp [refusal, hb, Worker.holder, hsub, Board.move]

theorem processConnected_refines (sound : s.Sound) (hj : s.scheduledJob = some job)
    {info : WorkerInfo} {node : Node} (h : s.processConnected checks info node = .ok (s', out)) :
    Follows s job s' [.join info.workerId info.subworkers] := by
  obtain ⟨_, workersQueue, old, hp, rfl⟩ := processConnected_ok h
  obtain ⟨hi, hget⟩ := PriorityQueue.push_content sound.workers.indexed hp
  refine ⟨⟨sound.tasks, sound.workers.update hi hget (by rintro v ⟨⟩; rfl), sound.completed⟩,
    job, hj, .refl job, ?_⟩
  simp only [board, hget, List.foldl_cons, List.foldl_nil, Board.move, Board.of, Board.mk.injEq,
    and_self, and_true, true_and]
  funext k
  by_cases hk : k = info.workerId
  · subst hk; simp [Worker.holder]
  · simp [Function.update_of_ne hk]

/-- One assignment of a worker that left is one step of the books' loop. -/
theorem abandonTask_refines (workers : WorkerId → Option Worker) {w : WorkerId}
    {held held' : PriorityQueue Task × ScheduledJob} {t : TaskId}
    (hk : Keyed Task.key held.1) (h : abandonTask checks w held t = .ok held') :
    Keyed Task.key held'.1 ∧ held.2.Continues held'.2 ∧
      held'.2.completedTasks = held.2.completedTasks ∧
      Board.of held'.1.get workers held'.2 =
        (Board.of held.1.get workers held.2).abandon w t := by
  unfold abandonTask at h
  split at h
  · rename_i hn
    rw [Except.ok.injEq] at h
    subst h
    refine ⟨hk, .refl _, rfl, ?_⟩
    simp [Board.abandon, Board.of, PriorityQueue.getMut_eq_none.mp hn]
  · rename_i task ht
    obtain ⟨v, hv, rfl⟩ := PriorityQueue.getMut_eq_some.mp ht
    simp only [bind_ok, except_pure, Except.ok.injEq] at h
    obtain ⟨n, hn, tasksQueue, hd, rfl⟩ := h
    obtain ⟨hq, hget⟩ := ((RefMut.of_get hv).releaseWorker w).drop hk
      (by rw [RefMut.releaseWorker_value, RefMut.releaseWorker_key]; exact hk.keyed t v hv) hd
    refine ⟨hq, ⟨rfl, rfl, rfl⟩, rfl, ?_⟩
    have hb : (Board.of held.1.get workers held.2).tasks t = some v.assignments := by
      simp [Board.of, hv]
    simp only [Board.abandon, hb, hget, RefMut.releaseWorker_key, Board.of_setTask, Option.map_some,
      RefMut.releaseWorker_value]
    rw [subBits_ok hn]
    simp [Board.of, Board.setTask, Task.hasAssignments]

/-- The books once a worker has left the queue. -/
theorem board_without (job : ScheduledJob) {q : PriorityQueue Worker} {w : WorkerId}
    (hget : q.get = Function.update s.workersQueue.get w none) :
    Board.of s.tasksQueue.get q.get job =
      { s.board job with workers := Function.update (s.board job).workers w none } := by
  rw [hget]
  simp only [board, Board.of, Board.mk.injEq, and_self, and_true, true_and]
  funext k
  by_cases hk : k = w
  · subst hk; simp
  · simp [Function.update_of_ne hk]

theorem processWorkerDisconnect_refines (sound : s.Sound) (hj : s.scheduledJob = some job)
    {w : WorkerId} (h : s.processWorkerDisconnect checks w = .ok s') :
    Follows s job s' [.leave w] := by
  rcases processWorkerDisconnect_left sound.workers.indexed h with ⟨hnone, rfl⟩ |
    ⟨v, workersQueue, tasksQueue, j, hv, hi, hget, rfl, hend⟩
  · refine ⟨⟨sound.tasks, sound.workers, sound.completed⟩, job, hj, .refl job, ?_⟩
    have hb : (s.board job).workers w = none := by rw [board_workers, hnone, Option.map_none]
    simp only [List.foldl_cons, List.foldl_nil, Board.move, Board.leave, Board.holds, hb,
      Option.elim_none]
    rw [← hb, Function.update_eq_self]
    rfl
  · rcases hend with ⟨hnone, _⟩ | ⟨before, job', hbefore, rfl, hloop⟩
    · rw [hj] at hnone
      cases hnone
    rw [hj, Option.some.injEq] at hbefore
    subst hbefore
    have hb : (s.board job).workers w = some v.holder := by rw [board_workers, hv, Option.map_some]
    have hsim := foldlM_simulates (g := Board.abandon w) (m := id)
      (R := fun held board => Keyed Task.key held.1 ∧ job.Continues held.2 ∧
        held.2.completedTasks = job.completedTasks ∧
        Board.of held.1.get workersQueue.get held.2 = board)
      (fun t held held' board hR ht => by
        obtain ⟨hk, hc, hn, he⟩ := abandonTask_refines workersQueue.get hR.1 ht
        refine ⟨hk, hR.2.1.trans hc, hn.trans hR.2.2.1, ?_⟩
        rw [he, hR.2.2.2]
        rfl) ⟨sound.tasks, .refl job, rfl, board_without job hget⟩ hloop
    refine ⟨⟨hsim.1, sound.workers.update hi hget (by rintro v ⟨⟩), ?_⟩, job', rfl, hsim.2.1, ?_⟩
    · rintro _ ⟨⟩
      exact hsim.2.2.1 ▸ sound.completed job hj
    simp only [List.foldl_cons, List.foldl_nil, Board.move, Board.leave, Board.holds, hb]
    rw [List.map_id] at hsim
    exact hsim.2.2.2

end Handlers
end Scheduler
end GridServer
