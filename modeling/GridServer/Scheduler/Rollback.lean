import GridServer.NodeWorker.State
import GridServer.Scheduler.Requests

namespace GridServer.Scheduler
open Library

variable {checks : Bool} {s s' : Scheduler} {job : ScheduledJob} {out : List Sent}

/-- The task `c` is the task `a`, with `ws` put in somewhere among its assignments. -/
def Task.With (ws : List WorkerId) (a c : Task) : Prop :=
  c = { a with assignments := c.assignments } ∧ c.assignments.Perm (a.assignments ++ ws)

/-- The scheduler is as it was, but for the order of the lists and for the job data of `w`. -/
structure RolledBack (s s' : Scheduler) (w : WorkerId) (v : Worker) : Prop where
  rest : s' = { s with
    tasksQueue := s'.tasksQueue, workersQueue := s'.workersQueue, needSchedule := true }
  tasks : ∀ t, Option.Rel (Task.With []) (s.tasksQueue.get t) (s'.tasksQueue.get t)
  worker : ∃ assignments replacements, s'.workersQueue.get = Function.update s.workersQueue.get w
      (some { v with
        hasJobData := false, assignments := assignments, replacements := replacements }) ∧
    assignments.Perm v.assignments ∧ replacements.Perm v.replacements

/-- A report of a task that is assigned leaves the counter as it is. -/
theorem report_held (checks : Bool) {edit : RefMut Task → Except Fault (RefMut Task)}
    (he : Unrecorded edit)
    (after : RefMut Worker → RefMut Worker) {b : Borrowed} {t : TaskId} {c : Task}
    (keyed : Keyed Task.key b.tasksQueue) (hc : b.tasksQueue.get t = some c)
    (held : c.assignments ≠ [])
    (hedit : Succeeds (edit (RefMut.releaseWorker ⟨t, c, false⟩ b.worker.key))) :
    ∃ task tasksQueue, edit (RefMut.releaseWorker ⟨t, c, false⟩ b.worker.key) = .ok task ∧
      report checks edit after b t = .ok
        { worker := after (b.worker.releaseTask t), tasksQueue := tasksQueue, job := b.job } ∧
      Keyed Task.key tasksQueue ∧
      tasksQueue.get = Function.update b.tasksQueue.get t (some task.value) := by
  obtain ⟨task, htask⟩ := hedit
  obtain ⟨hkey, hdata, _, hof⟩ := he _ _ htask
  have hmut : b.tasksQueue.getMut t = some ⟨t, c, false⟩ :=
    PriorityQueue.getMut_eq_some.mpr ⟨c, hc, rfl⟩
  have borrow := hof _ ((RefMut.of_get hc).releaseWorker b.worker.key)
  rw [RefMut.releaseWorker_key] at hkey
  have hid : task.value.key = task.key := by
    rw [Task.key, hdata, hkey, RefMut.releaseWorker_value]
    exact keyed.keyed t c hc
  obtain ⟨tasksQueue, hd⟩ := PriorityQueue.dropRefMut_total Task.cmpPriority_decides
    keyed.indexed (fun _ _ _ => trivial) trivial borrow.present
  obtain ⟨hkeyed, hget⟩ := borrow.drop keyed hid hd
  rw [hkey] at hget
  refine ⟨task, tasksQueue, htask, ?_, hkeyed, hget⟩
  have hheld : (!c.hasAssignments).toNat = 0 := by simp [Task.hasAssignments, held]
  have hsub : u128Sub checks b.job.scheduledTasks (!c.hasAssignments).toNat =
      .ok b.job.scheduledTasks := by
    rw [hheld]
    exact subBits_of_le (Nat.zero_le _) checks
  simp only [report, hmut, hsub, ok_bind, htask, hd, except_pure]

/-- What is left to undo while the library-missing handler goes through a request: `ids` are still
assigned to `w`, and `due` are the replacements that it took. -/
structure Undoing (s : Scheduler) (q : PriorityQueue Worker) (job : ScheduledJob) (w : WorkerId)
    (v : Worker) (ids due : List TaskId) (b : Borrowed) : Prop where
  key : b.worker.key = w
  borrow : b.worker.Of q
  keyed : Keyed Task.key b.tasksQueue
  job : b.job = job
  worker : b.worker.value = { v with
    hasJobData := false, assignments := b.worker.value.assignments
    replacements := b.worker.value.replacements }
  assignments : b.worker.value.assignments.Perm (v.assignments ++ ids)
  replacements : (b.worker.value.replacements ++ due).Perm v.replacements
  queued : ∀ t ∈ ids, (s.tasksQueue.get t).isSome
  tasks : ∀ t, Option.Rel (Task.With (List.replicate (ids.count t) w)) (s.tasksQueue.get t)
    (b.tasksQueue.get t)

section Undoing
variable {q : PriorityQueue Worker} {w : WorkerId} {v : Worker} {ids due : List TaskId}
  {b : Borrowed}

/-- One reported task comes off the worker, and the worker off the task. `after` puts back the
replacement that it took, if it took one. -/
theorem Undoing.report (checks : Bool) {t : TaskId} (h : Undoing s q job w v (t :: ids) due b)
    (after : RefMut Worker → RefMut Worker) (back : List TaskId) {due' : List TaskId}
    (hdue : due = back ++ due') (hkey : ∀ r, (after r).key = r.key)
    (hvalue : ∀ r, (after r).value =
      { r.value with replacements := r.value.replacements ++ back })
    (hof : ∀ r, RefMut.Of q r → (after r).Of q) :
    ∃ b', report checks .ok after b t = .ok b' ∧ Undoing s q job w v ids due' b' := by
  obtain ⟨a, ha⟩ := Option.isSome_iff_exists.mp (h.queued t List.mem_cons_self)
  obtain ⟨c, hc, hwith⟩ : ∃ c, b.tasksQueue.get t = some c ∧
      Task.With (List.replicate ((t :: ids).count t) w) a c := by
    have hrel := h.tasks t
    rw [ha] at hrel
    cases hb : b.tasksQueue.get t with
    | none =>
      rw [hb] at hrel
      cases hrel
    | some c =>
      rw [hb] at hrel
      cases hrel with
      | some hwith => exact ⟨c, rfl, hwith⟩
  rw [List.count_cons_self, List.replicate_succ] at hwith
  have hw : w ∈ c.assignments := hwith.2.mem_iff.mpr (by simp)
  have ht : t ∈ b.worker.value.assignments := h.assignments.mem_iff.mpr (by simp)
  obtain ⟨task, tasksQueue, htask, hreport, hkeyed, hget⟩ := report_held checks unrecorded_ok
    after h.keyed hc (List.ne_nil_of_mem hw) (succeeds_ok _)
  rw [Except.ok.injEq] at htask
  rw [← htask, RefMut.releaseWorker_value] at hget
  refine ⟨_, hreport, ?_, hof _ (h.borrow.releaseTask t), hkeyed, h.job, ?_, ?_, ?_, ?_, ?_⟩
  · rw [hkey, RefMut.releaseTask_key, h.key]
  · rw [hvalue, RefMut.releaseTask_value, h.worker]
  · rw [hvalue, RefMut.releaseTask_value]
    exact (((perm_withdraw ht).trans h.assignments).trans List.perm_middle).cons_inv
  · rw [hvalue, RefMut.releaseTask_value, List.append_assoc, ← hdue]
    exact h.replacements
  · exact fun t' ht' => h.queued t' (List.mem_cons_of_mem _ ht')
  · intro t'
    rw [hget, h.key]
    by_cases he : t' = t
    · subst he
      rw [Function.update_self, ha]
      refine .some ⟨?_, ?_⟩
      · rw [hwith.1]
      · exact (((perm_withdraw hw).trans hwith.2).trans List.perm_middle).cons_inv
    · have hcount : (t :: ids).count t' = ids.count t' := List.count_cons_of_ne (Ne.symm he)
      rw [Function.update_of_ne he, ← hcount]
      exact h.tasks t'

theorem Undoing.reportTasks (checks : Bool) {tasks : List TaskId}
    (h : Undoing s q job w v (tasks ++ ids) due b) :
    ∃ b', tasks.foldlM (reportTask checks) b = .ok b' ∧ Undoing s q job w v ids due b' := by
  refine foldlM_total (I := fun tasks b => Undoing s q job w v (tasks ++ ids) due b) ?_ h
  intro t tasks b h
  exact h.report checks id [] rfl (fun _ => rfl) (fun r => by simp) fun _ hof => hof

theorem Undoing.reportReplacements (checks : Bool) {replacements : List (TaskId × TaskId)}
    (h : Undoing s q job w v (replacements.map Prod.snd) (replacements.map Prod.fst) b) :
    ∃ b', replacements.foldlM (reportReplacement checks) b = .ok b' ∧
      Undoing s q job w v [] [] b' := by
  refine foldlM_total (I := fun (replacements : List (TaskId × TaskId)) b =>
    Undoing s q job w v (replacements.map Prod.snd) (replacements.map Prod.fst) b) ?_ h
  intro r replacements b h
  exact h.report checks (fun worker => worker.addReplacement r.1) [r.1] rfl
    (fun worker => worker.addReplacement_key r.1) (fun worker => worker.addReplacement_value r.1)
    fun _ hof => hof.addReplacement r.1

end Undoing

/-- After a request, undoing starts with all of it. -/
theorem Dispatches.undoing {w : WorkerId} {v : Worker} {kept : List TaskId}
    {request : WorkerRequest} (h : Dispatches s s' job w v kept request) (sound : s'.Sound)
    (job' : ScheduledJob) {v' : Worker} (hv' : s'.workersQueue.get w = some v') :
    Undoing s s'.workersQueue job' w v (request.tasks.map WorkerTask.id ++
        request.replacements.map fun r => r.2.id) (request.replacements.map Prod.fst)
      ⟨RefMut.derefMut ⟨w, v', false⟩ { v' with hasJobData := false }, s'.tasksQueue, job'⟩ := by
  have hworker : v' = { v with
      hasJobData := true, assignments := v.assignments ++ request.named, replacements := kept } := by
    rw [h.workers, Function.update_self, Option.some.injEq] at hv'
    exact hv'.symm
  refine ⟨rfl, (RefMut.of_get hv').derefMut _, sound.tasks, rfl, ?_, ?_, ?_, ?_, ?_⟩
  · rw [RefMut.derefMut_value, hworker]
  · rw [RefMut.derefMut_value, hworker]
    exact .rfl
  · rw [RefMut.derefMut_value, hworker, h.popped]
    exact (List.reverse_perm _).symm.append_left kept
  · intro t ht
    have hids : request.replacements.map (fun r => r.2.id) =
        (request.replacements.map Prod.snd).map WorkerTask.id := by
      rw [List.map_map]
      rfl
    rw [hids, ← List.map_append] at ht
    obtain ⟨d, hd, rfl⟩ := List.mem_map.mp ht
    obtain ⟨task, htask, _⟩ := h.queued d hd
    rw [htask]
    rfl
  · intro t
    rw [h.tasks]
    cases s.tasksQueue.get t with
    | none => exact .none
    | some task => exact .some ⟨rfl, .rfl⟩

/-- The worker that was sent a request turns it down for want of the job's library: what the
scheduler recorded for the request is undone, except in the counter. -/
theorem processLibraryMissing_undoes (sound : s.Sound) (fits : s.Capacity)
    (hj : s.scheduledJob = some job) (h : s.processScheduling checks = .ok (s', out)) {w : WorkerId}
    {v : Worker} {kept : List TaskId} {request : WorkerRequest}
    (dispatched : Dispatches s s' job w v kept request) :
    ∃ s'', s'.step checks (.worker (.message w (.error (NodeWorker.libraryMissing request)))) =
        .ok (s'', []) ∧ (RolledBack s s'' w v ↔ s'.scheduledJob = some job) := by
  obtain ⟨fits', ms, follows, _⟩ := processScheduling_gifts sound fits hj h
  obtain ⟨job', hj', _⟩ := follows.books
  obtain ⟨v', hv'⟩ : ∃ v', s'.workersQueue.get w = some v' := by
    rw [dispatched.workers, Function.update_self]
    exact ⟨_, rfl⟩
  have hstart := dispatched.undoing follows.sound job' hv'
  obtain ⟨b₁, h₁, undoing₁⟩ := hstart.reportTasks checks
  have hreplaced : request.replacements.map (fun r => r.2.id) =
      (request.replacements.map fun r => (r.1, r.2.id)).map Prod.snd := by
    rw [List.map_map]
    rfl
  have htaken : request.replacements.map Prod.fst =
      (request.replacements.map fun r => (r.1, r.2.id)).map Prod.fst := by
    rw [List.map_map]
    rfl
  rw [hreplaced, htaken] at undoing₁
  obtain ⟨b₂, h₂, undoing₂⟩ := undoing₁.reportReplacements checks
  have hassigned : b₂.worker.value.assignments.Perm v.assignments := by
    simpa using undoing₂.assignments
  have hdue : b₂.worker.value.replacements.Perm v.replacements := by
    simpa using undoing₂.replacements
  have hgood : b₂.worker.value.assignments.length ≤ b₂.worker.value.subworkers := by
    have hfits := fits w v dispatched.worker
    rw [hassigned.length_eq, undoing₂.worker]
    dsimp only
    omega
  have hall : PriorityQueue.AllGood (fun v : Worker => v.assignments.length ≤ v.subworkers)
      s'.workersQueue := by
    intro w' v' hv'
    have := fits' w' v' hv'
    omega
  obtain ⟨workersQueue, hd⟩ := PriorityQueue.dropRefMut_total (Worker.cmpPriority_decides checks)
    follows.sound.workers.indexed hall hgood undoing₂.borrow.present
  have hmut : s'.workersQueue.getMut w = some ⟨w, v', false⟩ :=
    PriorityQueue.getMut_eq_some.mpr ⟨v', hv', rfl⟩
  have hstep : s'.step checks
      (.worker (.message w (.error (NodeWorker.libraryMissing request)))) =
        .ok ({ s' with
          scheduledJob := some b₂.job, tasksQueue := b₂.tasksQueue
          workersQueue := workersQueue, needSchedule := true }, []) := by
    simp only [step, processWorkers, NodeWorker.libraryMissing, processLibraryMissing, hj', hmut,
      h₁, h₂, ok_bind, putBack, hd, except_pure]
  refine ⟨_, hstep, ?_⟩
  have hid : b₂.worker.value.id = b₂.worker.key := by
    rw [undoing₂.worker, undoing₂.key]
    exact sound.workers.keyed w v dispatched.worker
  obtain ⟨_, hget⟩ := undoing₂.borrow.drop follows.sound.workers hid hd
  constructor
  · intro back
    have hsame : some b₂.job = s.scheduledJob := congrArg Scheduler.scheduledJob back.rest
    rw [hj', ← hj, ← hsame, undoing₂.job]
  · intro hsame
    have hconnections : s'.connectionManager = s.connectionManager := by rw [dispatched.rest]
    have hbuffer : s'.resultsBuffer = s.resultsBuffer := by rw [dispatched.rest]
    have hconfig : s'.config = s.config := by rw [dispatched.rest]
    refine ⟨?_, undoing₂.tasks, _, _, ?_, hassigned, hdue⟩
    · rw [undoing₂.job, ← hj', hsame, ← hj, hconnections, hbuffer, hconfig]
    · rw [← undoing₂.worker]
      exact hget.trans (by rw [dispatched.workers, undoing₂.key, Function.update_idem])

/-- The counter is what it was exactly when no task of the request was fresh. -/
theorem Dispatches.counter_iff {w : WorkerId} {v : Worker} {kept : List TaskId}
    {request : WorkerRequest} (h : Dispatches s s' job w v kept request)
    (scheduled : job.scheduledTasks < 2 ^ 128) (named : request.named.length < 2 ^ 128) :
    s'.scheduledJob = some job ↔ freshTasks s.tasksQueue.get request.named = ∅ := by
  obtain ⟨n, hn, hmod, hlt⟩ := h.job
  have hcard : (freshTasks s.tasksQueue.get request.named).card < 2 ^ 128 := by
    refine Nat.lt_of_le_of_lt ?_ named
    exact (Finset.card_filter_le _ _).trans (List.toFinset_card_le _)
  rw [hn, Option.some.injEq, ← Finset.card_eq_zero]
  constructor
  · intro hsame
    have hsame : n = job.scheduledTasks := congrArg ScheduledJob.scheduledTasks hsame
    rw [hsame] at hmod
    have hzero : 0 ≡ (freshTasks s.tasksQueue.get request.named).card [MOD 2 ^ 128] :=
      Nat.ModEq.add_left_cancel' job.scheduledTasks hmod
    exact (hzero.eq_of_lt_of_lt (by decide) hcard).symm
  · intro hzero
    rw [hzero, Nat.add_zero] at hmod
    rw [hmod.eq_of_lt_of_lt (hlt scheduled) scheduled]

/-- Some worker has every task that the request names. -/
def Assigned (s : Scheduler) (request : WorkerRequest) : Prop :=
  ∀ t ∈ request.named, ∀ task, s.tasksQueue.get t = some task → task.assignments ≠ []

theorem freshTasks_eq_empty {request : WorkerRequest} :
    freshTasks s.tasksQueue.get request.named = ∅ ↔ s.Assigned request := by
  simp only [freshTasks, Finset.filter_eq_empty_iff, List.mem_toFinset, Assigned,
    Option.any_eq_true, not_exists, not_and, Task.hasAssignments, Bool.not_not,
    List.isEmpty_iff, ne_eq]

/-- When a worker turns down the request that it was just sent, for want of the job's library, the
scheduler is back where it was exactly if no task of the request was fresh: the counter counted
the fresh ones, and keeps them. -/
theorem processLibraryMissing_rollsBack (sound : s.Sound) (fits : s.Capacity)
    (hj : s.scheduledJob = some job) (scheduled : job.scheduledTasks < 2 ^ 128)
    (subworkers : ∀ w v, s.workersQueue.get w = some v → v.subworkers < 2 ^ 64) {node : Node}
    {w : WorkerId} {request : WorkerRequest}
    (h : s.processScheduling checks = .ok (s', [.node node w request])) :
    ∃ v s'', s.workersQueue.get w = some v ∧
      s'.step checks (.worker (.message w (.error (NodeWorker.libraryMissing request)))) =
        .ok (s'', []) ∧ (RolledBack s s'' w v ↔ s.Assigned request) := by
  rcases processScheduling_dispatches sound hj h with idles |
    ⟨w', v, kept, request', _, hout, dispatched⟩
  · cases idles.sent
  obtain ⟨rfl, rfl⟩ : w' = w ∧ request' = request := by
    unfold sendNode at hout
    split at hout
    · cases hout
      exact ⟨rfl, rfl⟩
    · cases hout
  obtain ⟨s'', hstep, hback⟩ := processLibraryMissing_undoes sound fits hj h dispatched
  have hnamed : request'.named.length ≤ v.subworkers := by
    have fits' := (processScheduling_gifts sound fits hj h).1
    have := fits' w' _ (by rw [dispatched.workers, Function.update_self])
    simp only [List.length_append] at this
    omega
  have hbits := subworkers w' v dispatched.worker
  refine ⟨v, s'', dispatched.worker, hstep, ?_⟩
  rw [hback, dispatched.counter_iff scheduled (by omega), freshTasks_eq_empty]

/-- A second worker is sent a copy of the only task, and turns it down. -/
theorem processLibraryMissing_rollsBack_copy : ∃ s job s' request v s'',
    s.scheduledJob = some job ∧
      s.processScheduling true = .ok (s', [.node ⟨2⟩ 2 request]) ∧
      s'.step true (.worker (.message 2 (.error (NodeWorker.libraryMissing request)))) =
        .ok (s'', []) ∧ RolledBack s s'' 2 v := by
  obtain ⟨request, hrequest⟩ : ∃ request : WorkerRequest,
      request = ⟨7, some ([], [1]), [], [⟨0, []⟩]⟩ := ⟨_, rfl⟩
  obtain ⟨s, out, run, h⟩ := exists_run (step true) BooksStep (Scheduler.new smallConfig)
    [jobOf 1, tasksOf [0], joinOf 1 1, .schedule, joinOf 2 1]
    (fun r => (r.1.scheduledJob.any fun job : ScheduledJob =>
        decide (job.scheduledTasks < 2 ^ 128)) &&
      decide (∀ w ∈ r.1.workersQueue.heap, ∀ v ∈ r.1.workersQueue.get w, v.subworkers < 2 ^ 64) &&
      decide (∀ task ∈ r.1.tasksQueue.get 0, task.assignments ≠ []) &&
      (processScheduling true r.1).toOption.any fun after : Scheduler × List Sent =>
        decide (after.2 = [.node ⟨2⟩ 2 ⟨7, some ([], [1]), [], [⟨0, []⟩]⟩])) (by decide +kernel)
  simp only [Bool.and_eq_true, decide_eq_true_eq, Option.any_eq_true] at h
  obtain ⟨⟨⟨⟨job, hj, hscheduled⟩, hsubworkers⟩, hbusy⟩, ⟨s', out'⟩, hok, hsent⟩ := h
  obtain ⟨sound, fits, _⟩ := books_of_run run hj
  have hsched : s.processScheduling true = .ok (s', [.node ⟨2⟩ 2 request]) := by
    rw [hrequest, ← hsent]
    exact toOption_eq_some.mp hok
  obtain ⟨v, s'', _, hstep, hback⟩ := processLibraryMissing_rollsBack sound fits hj hscheduled
    (fun w v hv => hsubworkers w ((sound.workers.indexed.mem_iff w).mpr (by rw [hv]; rfl)) v hv)
    hsched
  refine ⟨s, job, s', request, v, s'', hj, hsched, hstep, hback.mpr fun t ht task htask => ?_⟩
  rw [hrequest] at ht
  rw [List.mem_singleton.mp ht] at htask
  exact hbusy task htask

/-- The only worker turns down the only task: the task stays counted as scheduled. -/
theorem processLibraryMissing_keepsCount :
    ¬∀ s job s' node w request, s.Sound → s.Ledger → s.Capacity →
      PriorityQueue.HeapOrdered Task.rank s.tasksQueue →
      PriorityQueue.HeapOrdered Worker.rank s.workersQueue → s.scheduledJob = some job →
      s.processScheduling true = .ok (s', [.node node w request]) →
      ∃ v s'', s.workersQueue.get w = some v ∧
        s'.step true (.worker (.message w (.error (NodeWorker.libraryMissing request)))) =
          .ok (s'', []) ∧ RolledBack s s'' w v := by
  intro hall
  obtain ⟨s, out, run, h⟩ := exists_run (step true) BooksStep (Scheduler.new smallConfig)
    [jobOf 1, tasksOf [0], joinOf 1 1]
    (fun r => decide (r.1.tasksQueue.heap.length = 1 ∧ r.1.workersQueue.heap.length = 1) &&
      (r.1.scheduledJob.any fun job : ScheduledJob => decide (job.scheduledTasks = 0)) &&
      (processScheduling true r.1).toOption.any fun after : Scheduler × List Sent =>
        decide (after.2 = [.node ⟨1⟩ 1 ⟨7, some ([], [1]), [], [⟨0, []⟩]⟩]) &&
        ((after.1.step true (.worker (.message 1 (.error (.libraryMissing [0] []))))).toOption.any
          fun last : Scheduler × List Sent =>
            last.1.scheduledJob.any fun job : ScheduledJob => decide (job.scheduledTasks = 1)))
      (by decide +kernel)
  simp only [Bool.and_eq_true, decide_eq_true_eq, Option.any_eq_true] at h
  obtain ⟨⟨⟨htasks, hworkers⟩, job, hj, hzero⟩, ⟨s', out'⟩, hok, hsent, ⟨s₂, out₂⟩, hlast, job₂,
    hj₂, hone⟩ := h
  obtain ⟨sound, fits, ledger⟩ := books_of_run run hj
  have hsched : s.processScheduling true =
      .ok (s', [.node ⟨1⟩ 1 ⟨7, some ([], [1]), [], [⟨0, []⟩]⟩]) := by
    rw [← hsent]
    exact toOption_eq_some.mp hok
  obtain ⟨v, s'', _, hstep, back⟩ := hall s job s' ⟨1⟩ 1 _ sound ledger fits
    (PriorityQueue.ordered_of_length_le (Nat.le_of_eq htasks))
    (PriorityQueue.ordered_of_length_le (Nat.le_of_eq hworkers)) hj hsched
  have hsame : s₂.scheduledJob = s.scheduledJob := by
    change (s'.step true (.worker (.message 1 (.error (.libraryMissing [0] []))))) = _ at hstep
    rw [hstep] at hlast
    have hs : s'' = s₂ := congrArg Prod.fst (Option.some.inj hlast)
    rw [← hs, back.rest]
  rw [hj, hj₂, Option.some.injEq] at hsame
  rw [← hsame, hone] at hzero
  cases hzero

end GridServer.Scheduler
