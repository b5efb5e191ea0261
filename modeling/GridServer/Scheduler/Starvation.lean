import GridServer.Scheduler.Progress

namespace GridServer
open Library

/-- The worker has room for a task, or a replacement is due to it. -/
def Holder.Free (h : Holder) : Prop :=
  h.assignments.length + h.replacements.length < h.subworkers ∨ h.replacements ≠ []

/-- No worker is free while a task may be given out: one that nobody has, or any once `total` are
scheduled. -/
def Board.Settled (b : Board) (total : Nat) : Prop :=
  ∀ w t h ws, b.workers w = some h → b.tasks t = some ws → h.Free →
    ¬(ws = [] ∨ b.scheduled = total)

namespace Board
variable {b : Board} {w : WorkerId} {t : TaskId} {h : Holder} {total : Nat}

theorem settled_empty (hnone : ∀ w, b.workers w = none) : b.Settled total := by
  intro w t h ws hw
  rw [hnone] at hw
  cases hw

/-- What the reports of a worker that has nothing, and is listed nowhere, may change. -/
structure Unmoved (b b' : Board) : Prop where
  workers : b'.workers = b.workers
  tasks : b'.tasks = b.tasks
  scheduled : b'.scheduled = b.scheduled ∨ ∃ t, b.tasks t = some []

theorem Unmoved.refl (b : Board) : b.Unmoved b := ⟨rfl, rfl, .inl rfl⟩

theorem Unmoved.settled {b' : Board} (u : b.Unmoved b') (settled : b.Settled total) :
    b'.Settled total := by
  intro w t h ws hw ht free offered
  rw [u.workers] at hw
  rw [u.tasks] at ht
  rcases u.scheduled with hsame | ⟨t₀, ht₀⟩
  · rw [hsame] at offered
    exact settled w t h ws hw ht free offered
  · exact settled w t₀ h [] hw ht₀ free (.inl rfl)

/-- A worker without assignments and replacements changes nothing by a report, but the counter for
a task that nobody has. -/
theorem report_unmoved {b₀ : Board} (u : b₀.Unmoved b) (hb : b₀.workers w = some h)
    (ha : h.assignments = []) (hr : h.replacements = []) (unlisted : ∀ t, w ∉ b₀.heldBy t) :
    b₀.Unmoved (b.move (.report w t none)) := by
  obtain ⟨subworkers, assignments, replacements⟩ := h
  dsimp only at ha hr
  subst ha hr
  have hb' : b.workers w = some ⟨subworkers, [], []⟩ := by rw [u.workers, hb]
  have hsame : ∀ f : Holder → Holder, f ⟨subworkers, [], []⟩ = ⟨subworkers, [], []⟩ →
      (b.editWorker w f).workers = b.workers := by
    intro f hf
    rw [editWorker, hb', Option.map_some, hf, ← hb', Function.update_eq_self]
  cases ht : b.tasks t with
  | none =>
    have hmove : b.move (.report w t none) = b.editWorker w fun h => h.releaseFinished t := by
      simp only [move, report, hb', ht]
    rw [hmove]
    exact ⟨(hsame _ rfl).trans u.workers, u.tasks, u.scheduled⟩
  | some ws =>
    have hout : w ∉ ws := by
      have hnot := unlisted t
      rwa [heldBy, ← u.tasks, ht, Option.getD_some] at hnot
    have hmove : b.move (.report w t none) =
        { (b.editWorker w fun h => h.release t).setTask t (some (withdraw ws w)) with
          scheduled := wrappingSub 128 b.scheduled ws.isEmpty.toNat } := by
      simp only [move, report, hb', ht, Option.elim_none]
    rw [hmove, withdraw_of_not_mem hout]
    refine ⟨(hsame _ rfl).trans u.workers, ?_, ?_⟩
    · change Function.update b.tasks t (some ws) = b₀.tasks
      rw [← ht, Function.update_eq_self, u.tasks]
    · by_cases hws : ws = []
      · subst hws
        exact .inr ⟨t, u.tasks ▸ ht⟩
      · have hempty : ws.isEmpty.toNat = 0 := by rw [List.isEmpty_eq_false_iff.mpr hws]; rfl
        rw [hempty]
        exact u.scheduled

theorem reports_unmoved (hb : b.workers w = some h) (ha : h.assignments = [])
    (hr : h.replacements = []) (unlisted : ∀ t, w ∉ b.heldBy t) (ts : List TaskId) :
    b.Unmoved ((ts.map fun t => Move.report w t none).foldl move b) := by
  refine along_invariant (I := fun b' => b.Unmoved b') (Q := fun _ m => ∃ t, m = .report w t none)
    ?_ (along_of_forall ?_) (.refl b)
  · intro b' m hm u
    obtain ⟨t, rfl⟩ := hm
    exact report_unmoved u hb ha hr unlisted
  · intro m hm _
    obtain ⟨t, _, rfl⟩ := List.mem_map.mp hm
    exact ⟨t, rfl⟩

end Board
/-- The worker accepts a task, or is due a replacement. -/
def Worker.CanTake (checks : Bool) (v : Worker) : Prop :=
  (∃ n, v.canAccept checks = .ok n ∧ 0 < n) ∨ 0 < v.needReplace

/-- `process_scheduling` may give the task out. -/
def ScheduledJob.MayGive (job : ScheduledJob) (task : Task) : Prop :=
  task.hasAssignments = false ∨ job.scheduledTasks = job.totalTasks

namespace Scheduler
variable {checks : Bool} {s s' : Scheduler} {job : ScheduledJob} {out : List Sent}

section Giving
variable {g g' : Giving} {q : PriorityQueue Worker} {w : WorkerId}

/-- When the head of an ordered queue is not offered, no task of it may be given out. -/
theorem offered_none_ordered (h : g.offered = .ok none) (hk : Keyed Task.key g.tasksQueue)
    (ordered : PriorityQueue.HeapOrdered Task.rank g.tasksQueue) {t : TaskId} {task : Task}
    (ht : g.tasksQueue.get t = some task) :
    ¬(task.assignments = [] ∨ g.job.scheduledTasks = g.job.totalTasks) := by
  have hmem : t ∈ g.tasksQueue.heap := (hk.indexed.mem_iff t).mpr (by rw [ht]; rfl)
  rcases Giving.offered_none h with hnil | ⟨root, head, hroot, hhead, hheld, hmore⟩
  · rw [hnil] at hmem
    cases hmem
  · have hrank := ordered.root_max hk.indexed hroot hhead ht
    have hlen : head.assignments.length ≤ task.assignments.length :=
      OrderDual.toDual_le_toDual.mp hrank
    have hpos := List.length_pos_iff.mpr hheld
    intro offered
    rcases offered with hnil | hall
    · rw [hnil, List.length_nil] at hlen
      omega
    · exact hmore hall

theorem give_ordered {task : RefMut Task} (hk : Keyed Task.key g.tasksQueue)
    (ordered : PriorityQueue.HeapOrdered Task.rank g.tasksQueue)
    (hroot : g.tasksQueue.heap[0]? = some task.key) (h : g.give checks task = .ok g') :
    PriorityQueue.HeapOrdered Task.rank g'.tasksQueue := by
  simp only [Giving.give, bind_ok, except_pure, Except.ok.injEq] at h
  obtain ⟨tasksQueue, hd, n, _, rfl⟩ := h
  obtain ⟨q', hd', ordered'⟩ := PriorityQueue.dropPeekMut_ordered Task.cmpPriority_decides
    hk.indexed (fun _ _ _ => trivial) trivial ordered
    (r := task.derefMut
      { task.value with assignments := task.value.assignments ++ [g.worker.value.id] }) hroot
  rw [hd, Except.ok.injEq] at hd'
  exact hd' ▸ ordered'

theorem give_keeps_ordered {task : RefMut Task}
    (h : g.Ready job q w ∧ PriorityQueue.HeapOrdered Task.rank g.tasksQueue)
    (ho : g.offered = .ok (some task)) (hgive : g.give checks task = .ok g') :
    g'.Ready job q w ∧ PriorityQueue.HeapOrdered Task.rank g'.tasksQueue := by
  obtain ⟨ready, ordered⟩ := h
  obtain ⟨_, hroot, hv, _⟩ := Giving.offered_some ho
  exact ⟨(give_refines ready hv hgive).1, give_ordered ready.tasks ordered hroot hgive⟩

theorem giveTasks_ordered {n : Nat} {tasks tasks' : List WorkerTask} (ready : g.Ready job q w)
    (ordered : PriorityQueue.HeapOrdered Task.rank g.tasksQueue)
    (h : giveTasks checks n g tasks = .ok (g', tasks')) :
    PriorityQueue.HeapOrdered Task.rank g'.tasksQueue :=
  (giveTasks_keeps
    (I := fun g => g.Ready job q w ∧ PriorityQueue.HeapOrdered Task.rank g.tasksQueue)
    (fun _ kept => ⟨kept.1.stop, kept.2⟩) (fun _ _ _ => give_keeps_ordered) ⟨ready, ordered⟩ h).2

theorem giveReplacements_ordered {n : Nat} {rs rs' : List (TaskId × WorkerTask)}
    (ready : g.Ready job q w) (ordered : PriorityQueue.HeapOrdered Task.rank g.tasksQueue)
    (h : giveReplacements checks n g rs = .ok (g', rs')) :
    PriorityQueue.HeapOrdered Task.rank g'.tasksQueue :=
  (giveReplacements_keeps
    (I := fun g => g.Ready job q w ∧ PriorityQueue.HeapOrdered Task.rank g.tasksQueue)
    (fun _ kept => ⟨kept.1.stop, kept.2⟩) (fun _ _ _ => give_keeps_ordered)
    (fun _ kept => ⟨(popped_refines kept.1).1, kept.2⟩) ⟨ready, ordered⟩ h).2

end Giving

/-- An ordered queue whose head is not free has no free worker. -/
theorem head_full (sound : s.Sound) (fits : s.Capacity)
    (ordered : PriorityQueue.HeapOrdered Worker.rank s.workersQueue) {root : WorkerId}
    {head : Worker} (hroot : s.workersQueue.heap[0]? = some root)
    (hhead : s.workersQueue.get root = some head) (hfull : head.canAccept checks = .ok 0)
    (hdue : head.replacements = []) {w : WorkerId} {v : Worker}
    (hv : s.workersQueue.get w = some v) : ¬v.holder.Free := by
  have hroom := canAccept_eq hfull (fits root head hhead)
  have hfits := fits w v hv
  have hrank := ordered.root_max sound.workers.indexed hroot hhead hv
  have hle : v.subworkers - v.assignments.length ≤ head.subworkers - head.assignments.length := by
    rcases (Prod.Lex.le_iff).mp hrank with hlt | ⟨heq, _⟩
    · exact Nat.le_of_lt hlt
    · exact Nat.le_of_eq heq
  rw [hdue, List.length_nil] at hroom
  intro free
  rcases free with hless | hsome
  · change v.assignments.length + v.replacements.length < v.subworkers at hless
    omega
  · have hpos : 0 < v.replacements.length := List.length_pos_iff.mpr hsome
    omega

/-- When a call of `process_scheduling` lowers `need_schedule`, and both queues were in order, no
worker is left free while a task may be given out. -/
theorem processScheduling_settled (sound : s.Sound) (fits : s.Capacity)
    (hj : s.scheduledJob = some job) (need : s.needSchedule = true)
    (tasks : PriorityQueue.HeapOrdered Task.rank s.tasksQueue)
    (workers : PriorityQueue.HeapOrdered Worker.rank s.workersQueue)
    (h : s.processScheduling checks = .ok (s', out)) (done : s'.needSchedule = false)
    {job' : ScheduledJob} (hj' : s'.scheduledJob = some job') :
    (s'.board job').Settled job'.totalTasks := by
  rcases processScheduling_cases hj h with ⟨rfl, _, hnone⟩ |
    ⟨w, v, n, g₁, given, g₂, replacements, workersQueue, hw, hv, hn, hfree, h₁, h₂, hd, rfl, _⟩
  · rcases hnone with hnil | ⟨root, head, hroot, hhead, hfull, hdue⟩
    · refine Board.settled_empty fun w => ?_
      rw [board_workers, Option.map_eq_none_iff]
      cases hv : s.workersQueue.get w with
      | none => rfl
      | some v =>
        have hmem := (sound.workers.indexed.mem_iff w).mpr (by rw [hv]; rfl)
        rw [hnil] at hmem
        cases hmem
    · intro w t holder ws hholder _ free
      rw [board_workers, Option.map_eq_some_iff] at hholder
      obtain ⟨v, hv, rfl⟩ := hholder
      exact absurd free (head_full sound fits workers hroot hhead hfull hdue hv)
  · have ready : Giving.Ready job s.workersQueue w
        ⟨job, s.tasksQueue, ⟨w, v, false⟩, s.needSchedule⟩ :=
      ⟨.refl job, rfl, sound.tasks, rfl, sound.workers.keyed w v hv, RefMut.of_get hv⟩
    obtain ⟨_, _, _, ready₁, _, _, hend₁⟩ := giveTasks_refines ready h₁
    obtain ⟨_, _, _, _, ready₂, _, _, _, hend₂⟩ :=
      giveReplacements_refines ready₁ (Nat.le_refl _) h₂
    have ordered := giveReplacements_ordered ready₁ (giveTasks_ordered ready tasks h₁) h₂
    have stopped : g₂.offered = .ok none := by
      rcases hend₁ with ⟨_, hsame₁⟩ | ⟨_, hnone⟩
      · rcases hend₂ with ⟨_, hsame₂⟩ | ⟨_, hnone⟩
        · -- both loops ran to their ends, and left `need_schedule` as it was
          rw [show g₂.needSchedule = true by rw [hsame₂, hsame₁, need]] at done
          cases done
        · exact hnone
      · exact (giveReplacements_stopped hnone h₂).2.1
    rw [Option.some.injEq] at hj'
    subst hj'
    intro w' t holder ws _ hws _
    rw [board_tasks, Option.map_eq_some_iff] at hws
    obtain ⟨task, htask, rfl⟩ := hws
    exact offered_none_ordered stopped ready₂.tasks ordered htask

/-- What an event that is not a turn of the scheduling branch does about free workers: it wakes the
branch, or there is no job or no worker left, or nothing changed that the branch looks at, or a
worker without subworkers turned tasks down. -/
inductive Rouses (s : Scheduler) (e : Event) (s' : Scheduler) : Prop
  | woken (need : s'.needSchedule = true)
  | jobless (none : s'.scheduledJob = none)
  | empty (none : ∀ w, s'.workersQueue.get w = none)
  | still (job : s'.scheduledJob = s.scheduledJob) (tasks : s'.tasksQueue.get = s.tasksQueue.get)
      (workers : s'.workersQueue.get = s.workersQueue.get) (need : s'.needSchedule = s.needSchedule)
  | refused (w : WorkerId) (v : Worker) (tasks : List TaskId) (worker : s.workersQueue.get w = some v)
      (subworkers : v.subworkers = 0) (need : s'.needSchedule = s.needSchedule)
      (event : e = .worker (.message w (.error (.noFreeExecutors tasks))))

namespace Rouses
variable {e : Event}

theorem refl (s : Scheduler) (e : Event) : Rouses s e s := .still rfl rfl rfl rfl

theorem putBack {b : Borrowed} {j : Option ScheduledJob} {need : Bool}
    (h : s.putBack checks b j need = .ok s') : s'.needSchedule = need := by
  obtain ⟨_, _, rfl⟩ := putBack_ok.mp h
  rfl

theorem disconnect {w : WorkerId} (sound : s.Sound)
    (h : s.processWorkerDisconnect checks w = .ok s') : Rouses s e s' := by
  rcases processWorkerDisconnect_left sound.workers.indexed h with ⟨_, rfl⟩ |
    ⟨_, _, _, _, _, _, _, rfl, _⟩
  · exact .still rfl rfl rfl rfl
  · exact .woken rfl

theorem result (sound : s.Sound) {w : WorkerId} {result : WorkerResult}
    (h : s.processResult checks w result = .ok (s', out)) : Rouses s e s' := by
  cases hj : s.scheduledJob with
  | none =>
    simp only [processResult, hj, Except.ok.injEq, Prod.mk.injEq] at h
    exact h.1 ▸ .refl s e
  | some job =>
    cases ht : s.tasksQueue.get result.id with
    | some task =>
      obtain ⟨_, _, _, _, _, _, _, _, _, _, hend⟩ := processResult_queued sound hj ht h
      rcases hend with ⟨_, rfl, _⟩ | ⟨_, rfl, _⟩
      · exact .empty fun w => PriorityQueue.get_clear _ _
      · exact .woken rfl
    | none =>
      simp only [processResult, hj, bind_ok] at h
      obtain ⟨⟨tasksQueue, removed⟩, hr, h⟩ := h
      rcases PriorityQueue.remove_content sound.tasks.indexed hr with
        ⟨rfl, rfl, _⟩ | ⟨v, _, hv, _, _⟩
      · simp only [lateResult] at h
        split at h
        · simp only [Except.ok.injEq, Prod.mk.injEq] at h
          exact h.1 ▸ .still hj.symm rfl rfl rfl
        · simp only [bind_ok, except_pure, Except.ok.injEq, Prod.mk.injEq] at h
          obtain ⟨_, _, _, _, rfl, _⟩ := h
          exact .woken rfl
      · rw [ht] at hv
        cases hv

theorem libraryMissing {w : WorkerId} {tasks : List TaskId} {replacements : List (TaskId × TaskId)}
    (h : s.processLibraryMissing checks w tasks replacements = .ok (s', out)) : Rouses s e s' := by
  obtain ⟨_, ⟨rfl, _⟩ | ⟨_, _, _, _, _, _, _, _, hput⟩⟩ := processLibraryMissing_ok h
  · exact .refl s e
  · exact .woken (putBack hput)

theorem taskExecutionError {w : WorkerId} {t : TaskId} {error : String}
    (h : s.processTaskExecutionError checks w t error = .ok (s', out)) : Rouses s e s' := by
  rcases processTaskExecutionError_ok h with ⟨rfl, _, _⟩ | ⟨_, _, _, _, _, _, _, hput, _⟩
  · exact .refl s e
  · exact .woken (putBack hput)

theorem noFreeExecutors {w : WorkerId} {tasks : List TaskId}
    (h : s.processNoFreeExecutors checks w tasks = .ok (s', out)) :
    Rouses s (.worker (.message w (.error (.noFreeExecutors tasks)))) s' := by
  obtain ⟨_, ⟨rfl, _⟩ | ⟨_, _, shrunk, need, _, _, hw, hshrink, _, hput⟩⟩ :=
    processNoFreeExecutors_ok h
  · exact .refl s _
  · obtain ⟨v, hv, rfl⟩ := PriorityQueue.getMut_eq_some.mp hw
    by_cases hsub : v.subworkers = 0
    · simp only [shrink, hsub, ne_eq, not_true_eq_false, ↓reduceIte, Except.ok.injEq,
        Prod.mk.injEq] at hshrink
      exact .refused w v tasks hv hsub ((putBack hput).trans hshrink.2.symm) rfl
    · simp only [shrink, hsub, ne_eq, not_false_eq_true, ↓reduceIte, bind_ok, except_pure,
        Except.ok.injEq, Prod.mk.injEq] at hshrink
      obtain ⟨_, _, _, hneed⟩ := hshrink
      exact .woken ((putBack hput).trans hneed.symm)

theorem createdSession (h : s.processCreatedSession = .ok (s', out)) : Rouses s e s' := by
  rcases processCreatedSession_ok h with ⟨rfl, _⟩ | ⟨_, _, _, rfl, _⟩
  · exact .refl s e
  · exact .empty fun w => PriorityQueue.get_clear _ _

end Rouses

theorem step_rouses (sound : s.Sound) {e : Event} (hne : e ≠ .schedule)
    (h : s.step checks e = .ok (s', out)) : Rouses s e s' := by
  cases step_branch h with
  | schedule => exact absurd rfl hne
  | hello | noTaskManager | nodes | nodeManagerConnected | scheduledJob | listedWorkers
  | listedTasks => exact .refl s _
  | taskManagerConnected | restoredSession | nodeManagerLeft => exact .still rfl rfl rfl rfl
  | taskManagerLeft => exact .jobless rfl
  | newJob => exact .empty fun w => PriorityQueue.get_clear _ _
  | tasks batch _ _ taken =>
    obtain ⟨_, ⟨rfl, _⟩ | ⟨_, _, _, _, _, _, rfl⟩⟩ := processTaskBatch_ok taken
    · exact .refl s _
    · exact .woken rfl
  | nodeLeft w _ taken | disconnected w _ taken => exact .disconnect sound taken
  | createdSession _ _ taken => exact .createdSession taken
  | connected info node _ _ taken =>
    obtain ⟨_, _, _, _, rfl⟩ := processConnected_ok taken
    exact .woken rfl
  | result w result _ _ taken => exact .result sound taken
  | libraryMissing w tasks replacements _ _ taken => exact .libraryMissing taken
  | taskExecutionError w t error _ _ taken => exact .taskExecutionError taken
  | noFreeExecutors w tasks _ _ taken => exact .noFreeExecutors taken

/-- A worker without subworkers that turns tasks down leaves the others settled. -/
theorem refused_settled (sound : s.Sound) (fits : s.Capacity) (ledger : s.Ledger)
    (hj : s.scheduledJob = some job) {w : WorkerId} {v : Worker} {tasks : List TaskId}
    (hv : s.workersQueue.get w = some v) (hsub : v.subworkers = 0)
    (h : s.processNoFreeExecutors checks w tasks = .ok (s', out)) {job' : ScheduledJob}
    (hj' : s'.scheduledJob = some job') (settled : (s.board job).Settled job.totalTasks) :
    (s'.board job').Settled job'.totalTasks := by
  obtain ⟨job₁, hj₁, continues, hboard⟩ := (processNoFreeExecutors_refines sound hj h).books
  rw [hj₁, Option.some.injEq] at hj'
  subst hj'
  have hb : (s.board job).workers w = some v.holder := by rw [board_workers, hv, Option.map_some]
  have hmoves : refusal (s.board job) w tasks = tasks.map fun t => .report w t none := by
    simp [refusal, hb, Worker.holder, hsub]
  have hfits := fits w v hv
  have ha : v.assignments = [] := List.eq_nil_of_length_eq_zero (by omega)
  have hr : v.replacements = [] := List.eq_nil_of_length_eq_zero (by omega)
  have unlisted : ∀ t, w ∉ (s.board job).heldBy t := by
    intro t
    have hledger : (s.board job).Ledger := board_ledger.mpr ledger
    have hcount := hledger w t
    rw [Board.holds, hb, Option.elim_some] at hcount
    change v.assignments.count t = _ at hcount
    rw [ha, List.count_nil] at hcount
    exact List.count_eq_zero.mp hcount.symm
  rw [hboard, hmoves, continues.2.1]
  exact (Board.reports_unmoved hb ha hr unlisted tasks).settled settled

/-- The step keeps the books, and `process_scheduling` finds both queues in order. -/
def OrderedStep (s : Scheduler) (e : Event) : Prop :=
  s.BooksStep e ∧ (e = .schedule → PriorityQueue.HeapOrdered Task.rank s.tasksQueue ∧
    PriorityQueue.HeapOrdered Worker.rank s.workersQueue)

instance (s : Scheduler) (e : Event) : Decidable (s.OrderedStep e) := by
  unfold OrderedStep
  infer_instance

/-- The scheduling branch sleeps while a worker that could be given something, and a task that may
be given out, are both there. -/
def Starves (checks : Bool) (s : Scheduler) : Prop :=
  ∃ job w v t task, s.scheduledJob = some job ∧ s.needSchedule = false ∧
    s.workersQueue.get w = some v ∧ v.CanTake checks ∧
    s.tasksQueue.get t = some task ∧ job.MayGive task

theorem holder_free {v : Worker} (fits : v.assignments.length + v.replacements.length ≤ v.subworkers)
    (free : v.CanTake checks) : v.holder.Free := by
  rcases free with ⟨n, hn, hpos⟩ | hdue
  · have hroom := canAccept_eq hn fits
    refine .inl ?_
    change v.assignments.length + v.replacements.length < v.subworkers
    omega
  · exact .inr (List.length_pos_iff.mp hdue)

/-- While there is a job and `need_schedule` is not set, no worker is free that could be fed. -/
def Fed (s : Scheduler) : Prop :=
  ∀ job, s.scheduledJob = some job → s.needSchedule = false →
    (s.board job).Settled job.totalTasks

theorem Fed.not_starves (fed : s.Fed) (fits : s.Capacity) : ¬s.Starves checks := by
  intro starves
  obtain ⟨job, w, v, t, task, hj, need, hv, free, ht, give⟩ := starves
  refine fed job hj need w t v.holder task.assignments (by rw [board_workers, hv, Option.map_some])
    (by rw [board_tasks, ht, Option.map_some]) (holder_free (fits w v hv) free) ?_
  exact give.imp (fun hnone => by simpa [Task.hasAssignments] using hnone) id

theorem step_fed {e : Event} (sound : s.Sound) (fits : s.Capacity)
    (ledger : ∀ job, s.scheduledJob = some job → s.Ledger) (fed : s.Fed) (met : s.OrderedStep e)
    (h : s.step checks e = .ok (s', out)) : s'.Fed := by
  intro job' hj' done
  by_cases he : e = .schedule
  · subst he
    obtain ⟨tasks, workers⟩ := met.2 rfl
    simp only [step] at h
    split at h
    · rename_i need
      cases hj : s.scheduledJob with
      | none =>
        obtain ⟨rfl, _⟩ := processScheduling_idle hj h
        rw [need] at done
        cases done
      | some job => exact processScheduling_settled sound fits hj need tasks workers h done hj'
    · cases h
  · cases step_rouses sound he h with
    | woken need =>
      rw [need] at done
      cases done
    | jobless hnone =>
      rw [hnone] at hj'
      cases hj'
    | empty hnone =>
      refine Board.settled_empty fun w => ?_
      rw [board_workers, hnone, Option.map_none]
    | still hsame htasks hworkers hneed =>
      have settled := fed job' (hsame ▸ hj') (hneed ▸ done)
      rwa [board, htasks, hworkers]
    | refused w v tasks hv hsub hneed hevent =>
      subst hevent
      cases hj : s.scheduledJob with
      | none =>
        simp only [step, processWorkers, processNoFreeExecutors, hj, Except.ok.injEq,
          Prod.mk.injEq] at h
        rw [← h.1, hj] at hj'
        cases hj'
      | some job =>
        exact refused_settled sound fits (ledger job hj) hj hv hsub h hj'
          (fed job hj (hneed ▸ done))

/-- In every run that keeps the books, and in which `process_scheduling` finds both queues in
order, no free worker is left without a task that may be given out. -/
theorem run_feeds {config : Config} {es : List Event}
    (run : Run (step checks) OrderedStep (Scheduler.new config) es out s) : ¬s.Starves checks := by
  have fed : s.Fed := by
    induction run with
    | nil => rintro _ ⟨⟩
    | snoc before met taken ih =>
      have books := before.weaken fun _ _ met => met.1
      obtain ⟨sound, fits⟩ := capacity_of_run (books.weaken fun _ _ met => met.2)
      exact step_fed sound fits (fun job hj => (books_of_run books hj).2.2) ih met taken
  refine fed.not_starves (capacity_of_run (run.weaken fun _ _ met => met.1.2)).2

/-- Two workers with one subworker each are given two of three tasks, and the branch sleeps. -/
theorem run_feeds_small : ∃ out s,
    Run (step true) OrderedStep (Scheduler.new smallConfig)
      [jobOf 3, tasksOf [0, 1, 2], joinOf 1 1, joinOf 2 1, .schedule, .schedule, .schedule] out s ∧
      s.scheduledJob.isSome ∧ s.needSchedule = false ∧ ¬s.Starves true := by
  obtain ⟨s, out, run, h⟩ := exists_run (step true) OrderedStep (Scheduler.new smallConfig)
    [jobOf 3, tasksOf [0, 1, 2], joinOf 1 1, joinOf 2 1, .schedule, .schedule, .schedule]
    (fun r => r.1.scheduledJob.isSome && !r.1.needSchedule) (by decide +kernel)
  rw [Bool.and_eq_true, Bool.not_eq_true'] at h
  exact ⟨out, s, run, h.1, h.2, run_feeds run⟩

/-- The worker that is not at the head is done first: it stays there, the head is full, and the
branch goes to sleep. -/
theorem run_starves : ¬∀ checks config es out s,
    Run (step checks) (fun _ _ => True) (Scheduler.new config) es out s → ¬s.Starves checks := by
  intro hall
  obtain ⟨s, out, run, h⟩ := exists_run (step true) BooksStep (Scheduler.new smallConfig)
    [jobOf 3, tasksOf [0, 1, 2], joinOf 1 1, joinOf 2 1, .schedule, .schedule, .schedule,
      resultOf 1 0, .schedule]
    (fun r => r.1.scheduledJob.isSome && !r.1.needSchedule &&
      ((r.1.workersQueue.get 1).any fun v : Worker =>
        decide ((v.canAccept true).toOption = some 1)) &&
      (r.1.tasksQueue.get 2).any fun task : Task => decide (task.hasAssignments = false))
    (by decide +kernel)
  simp only [Bool.and_eq_true, Bool.not_eq_true', decide_eq_true_eq, Option.any_eq_true] at h
  obtain ⟨⟨⟨hjob, need⟩, v, hv, hroom⟩, task, htask, hnone⟩ := h
  obtain ⟨job, hj⟩ := Option.isSome_iff_exists.mp hjob
  exact hall true smallConfig _ out s (run.weaken fun _ _ _ => trivial)
    ⟨job, 1, v, 2, task, hj, need, hv, .inl ⟨1, toOption_eq_some.mp hroom, Nat.one_pos⟩, htask,
      .inl hnone⟩

end Scheduler
end GridServer
