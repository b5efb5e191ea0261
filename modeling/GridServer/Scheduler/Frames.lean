import GridServer.Scheduler.Failures
import GridServer.Scheduler.Rollback
import GridServer.Shared.PriorityQueueRepair

namespace GridServer
open Library

/-- How often a worker has a task on its two lists. -/
def Holder.count (h : Holder) (t : TaskId) : Nat :=
  h.assignments.count t + h.replacements.count t

/-- Of the ids on the two lists, only `t` may have changed. -/
def Holder.KeepsOthers (t : TaskId) (h h' : Holder) : Prop :=
  ∀ t', t' ≠ t → h'.assignments.count t' = h.assignments.count t' ∧
    h'.replacements.count t' = h.replacements.count t'

/-- `h'` is `h` with one `t` struck off its two lists. -/
structure Holder.Struck (t : TaskId) (h h' : Holder) : Prop where
  others : h.KeepsOthers t h'
  once : h'.count t + 1 = h.count t

namespace Holder
variable {t : TaskId} {h h' h'' : Holder}

theorem KeepsOthers.refl (t : TaskId) (h : Holder) : h.KeepsOthers t h := fun _ _ => ⟨rfl, rfl⟩

theorem KeepsOthers.trans (first : h.KeepsOthers t h') (second : h'.KeepsOthers t h'') :
    h.KeepsOthers t h'' := by
  intro t' hne
  obtain ⟨ha, hr⟩ := first t' hne
  obtain ⟨ha', hr'⟩ := second t' hne
  exact ⟨ha'.trans ha, hr'.trans hr⟩

theorem keepsOthers_release (t : TaskId) (h : Holder) : h.KeepsOthers t (h.release t) :=
  fun _ hne => ⟨count_withdraw_of_ne h.assignments hne, rfl⟩

theorem keepsOthers_replace (t : TaskId) (h : Holder) :
    h.KeepsOthers t ((h.release t).addReplacement t) := by
  intro t' hne
  refine ⟨count_withdraw_of_ne h.assignments hne, ?_⟩
  simp [addReplacement, release, List.count_cons_of_ne (Ne.symm hne)]

theorem count_release (h : Holder) (t : TaskId) :
    (h.release t).count t + (decide (t ∈ h.assignments)).toNat = h.count t := by
  unfold count release
  rw [count_withdraw, if_pos rfl]
  by_cases ht : t ∈ h.assignments
  · have := List.count_pos_iff.mpr ht
    simp only [ht, decide_true, Bool.toNat_true]
    omega
  · have := List.count_eq_zero_of_not_mem ht
    simp only [ht, decide_false, Bool.toNat_false]
    omega

/-- A task that is due in place of itself is still there as often. -/
theorem count_replace (ht : t ∈ h.assignments) :
    ((h.release t).addReplacement t).count t = h.count t := by
  have hrelease := h.count_release t
  simp only [ht, decide_true, Bool.toNat_true] at hrelease
  simp only [count, addReplacement, List.count_append, List.count_singleton_self] at hrelease ⊢
  omega

/-- The removal at another list's position leaves a task that is not assigned where it is. -/
theorem count_releaseFinished (ht : t ∉ h.assignments) :
    (h.releaseFinished t).count t = h.count t := by
  unfold count releaseFinished
  cases hp : (h.replacements.idxOf? t).bind (swapRemove h.assignments) with
  | none => rfl
  | some ts =>
    obtain ⟨pos, _, hs⟩ := Option.bind_eq_some_iff.mp hp
    have hpos : pos < h.assignments.length := by
      by_contra hge
      rw [swapRemove_eq_none.mpr (Nat.le_of_not_lt hge)] at hs
      cases hs
    have hperm := swapRemove_perm (List.getElem?_eq_getElem hpos) hs
    have hts : t ∉ ts := by
      intro hmem
      exact ht (hperm.mem_iff.mp (List.mem_cons_of_mem _ hmem))
    rw [Option.getD_some, List.count_eq_zero_of_not_mem hts, List.count_eq_zero_of_not_mem ht]

end Holder

namespace Board
variable {b : Board} {w : WorkerId} {t : TaskId} {h : Holder}

/-- What a report of `t` leaves of its reporter: one `t` fewer if it is assigned. -/
structure Reported (t : TaskId) (queued : Prop) (h h' : Holder) : Prop where
  count : h'.count t = (h.release t).count t
  others : queued → h.KeepsOthers t h'

/-- The subworkers have no part in it. -/
theorem Reported.of_lists {queued queued' : Prop} {h₁ h' : Holder} (r : Reported t queued h₁ h')
    (ha : h₁.assignments = h.assignments) (hr : h₁.replacements = h.replacements)
    (hq : queued' → queued) : Reported t queued' h h' := by
  obtain ⟨count, others⟩ := r
  unfold Holder.KeepsOthers at others
  unfold Holder.count Holder.release at count
  rw [ha, hr] at count others
  exact ⟨count, fun hqueued => others (hq hqueued)⟩

theorem report_reported (hb : b.workers w = some h) (gone : b.tasks t = none → t ∉ h.assignments) :
    ∃ h', (b.move (.report w t none)).workers w = some h' ∧
      Reported t (b.tasks t).isSome h h' := by
  cases ht : b.tasks t with
  | none =>
    have hmove : b.move (.report w t none) = b.editWorker w fun h => h.releaseFinished t := by
      simp only [move, report, hb, ht]
    rw [hmove, editWorker_self hb]
    refine ⟨_, rfl, ?_, fun hsome => by cases hsome⟩
    have hcount := h.count_release t
    simp only [gone ht, decide_false, Bool.toNat_false] at hcount
    rw [Holder.count_releaseFinished (gone ht), ← hcount, Nat.add_zero]
  | some ws =>
    refine ⟨h.release t, ?_, rfl, fun _ => Holder.keepsOthers_release t h⟩
    simp only [move, report, hb, ht, setTask]
    exact editWorker_self hb fun h => h.release t

/-- The replacements of a completed task leave a worker its share, if it has the task as often as
it is listed. -/
theorem replaces_worker (ws : List WorkerId) (hb : b.workers w = some h)
    (listed : ws.count w ≤ h.assignments.count t) :
    ∃ h', (ws.foldl (replace t) b).workers w = some h' ∧ h.KeepsOthers t h' ∧
      h'.count t = h.count t := by
  induction ws generalizing b h with
  | nil => exact ⟨h, hb, .refl t h, rfl⟩
  | cons w' ws ih =>
    by_cases he : w' = w
    · subst he
      rw [List.count_cons_self] at listed
      have ht : t ∈ h.assignments := List.count_pos_iff.mp (by omega)
      have hfirst : (replace t b w').workers w' = some ((h.release t).addReplacement t) :=
        editWorker_self hb fun h => (h.release t).addReplacement t
      have hless : ws.count w' ≤ ((h.release t).addReplacement t).assignments.count t := by
        simp only [Holder.addReplacement, Holder.release, count_withdraw, ↓reduceIte]
        omega
      obtain ⟨h', hh', hothers, hcount⟩ := ih hfirst hless
      exact ⟨h', hh', (Holder.keepsOthers_replace t h).trans hothers,
        hcount.trans (Holder.count_replace ht)⟩
    · rw [List.count_cons_of_ne he] at listed
      exact ih ((editWorker_of_ne (Ne.symm he) _).trans hb) listed

theorem complete_reported {ws : List WorkerId} (hb : b.workers w = some h)
    (ht : b.tasks t = some ws) (listed : ws.count w = h.assignments.count t) :
    ∃ h', (b.move (.complete w t)).workers w = some h' ∧ Reported t True h h' := by
  have hstart : ({ (b.setTask t none).editWorker w fun h => h.release t with
      completed := b.completed + 1 } : Board).workers w = some (h.release t) :=
    editWorker_self (b := b.setTask t none) hb fun h => h.release t
  have hless : (withdraw ws w).count w ≤ (h.release t).assignments.count t := by
    simp only [Holder.release, count_withdraw, ↓reduceIte, listed, Nat.le_refl]
  obtain ⟨h', hh', hothers, hcount⟩ := replaces_worker (withdraw ws w) hstart hless
  refine ⟨h', ?_, hcount, fun _ => (Holder.keepsOthers_release t h).trans hothers⟩
  simp only [move, complete, ht]
  exact hh'

end Board

namespace Scheduler
variable {checks : Bool} {s s' : Scheduler} {job : ScheduledJob} {out : List Sent} {w : WorkerId}
  {v : Worker} {m : WorkerResponse} {t : TaskId}

/-- The message reports `t`, and nothing else. -/
inductive ReportsOne (t : TaskId) : WorkerResponse → Prop
  | result (result : WorkerResult) (of : result.id = t) : ReportsOne t (.result result)
  | taskExecutionError (error : String) : ReportsOne t (.error (.taskExecutionError t error))
  | noFreeExecutors : ReportsOne t (.error (.noFreeExecutors [t]))
  | libraryMissing : ReportsOne t (.error (.libraryMissing [t] []))

/-- The message completes the job, or aborts it. -/
def Ends (s : Scheduler) (job : ScheduledJob) : WorkerResponse → Prop
  | .result result =>
    (s.tasksQueue.get result.id).isSome ∧ job.completedTasks + 1 = job.totalTasks
  | .error (.taskExecutionError t _) =>
    ∃ task ∈ s.tasksQueue.get t, task.failedExecutions = s.config.failedExecutionsLimit
  | _ => False

/-- The completed tasks can be counted on after the message. -/
def Countable (job : ScheduledJob) : WorkerResponse → Prop
  | .result _ => job.completedTasks + 1 < 2 ^ 128
  | .error _ => True

/-- The books' worker is the queue's. -/
theorem worker_of_board {h : Holder} (hb : (s.board job).workers w = some h) :
    ∃ v, s.workersQueue.get w = some v ∧ v.holder = h := by
  rw [board_workers, Option.map_eq_some_iff] at hb
  exact hb

/-- What a message that reports one task leaves of the worker that sent it. -/
theorem processWorkers_reported (sound : s.Sound) (ledger : s.Ledger)
    (hj : s.scheduledJob = some job) (hv : s.workersQueue.get w = some v)
    (reports : ReportsOne t m) (goesOn : ¬s.Ends job m)
    (h : s.processWorkers checks (.message w m) = .ok (s', out)) :
    ∃ v', s'.workersQueue.get w = some v' ∧
      Board.Reported t (s.tasksQueue.get t).isSome v.holder v'.holder := by
  have hb : (s.board job).workers w = some v.holder := by rw [board_workers, hv, Option.map_some]
  have htasks : ((s.board job).tasks t).isSome = (s.tasksQueue.get t).isSome := by
    rw [board_tasks, Option.isSome_map]
  have hcount := ledger w t
  rw [hv, Option.elim_some] at hcount
  have gone : (s.board job).tasks t = none → t ∉ v.holder.assignments := by
    intro hnone
    rw [board_tasks, Option.map_eq_none_iff] at hnone
    rw [hnone, Option.elim_none] at hcount
    exact List.count_eq_zero.mp hcount.symm
  have reported : ∀ {b : Board} {h : Holder} {job'}, s'.board job' = b.move (.report w t none) →
      b.workers w = some h → h.assignments = v.assignments → h.replacements = v.replacements →
      b.tasks = (s.board job).tasks → ∃ v', s'.workersQueue.get w = some v' ∧
        Board.Reported t (s.tasksQueue.get t).isSome v.holder v'.holder := by
    intro b h job' hboard hb ha hr hsame
    obtain ⟨h', hh', hreported⟩ := Board.report_reported hb (t := t) (by rw [hsame, ha]; exact gone)
    rw [← hboard] at hh'
    obtain ⟨v', hv', rfl⟩ := worker_of_board hh'
    exact ⟨v', hv', hreported.of_lists ha hr fun hqueued => by rw [hsame, htasks]; exact hqueued⟩
  cases reports with
  | result result of =>
    subst of
    obtain ⟨job', _, _, hboard⟩ := (processResult_refines sound hj h).books
    cases htask : s.tasksQueue.get result.id with
    | none =>
      have hmoves : resultMoves (s.board job) job w result.id = [.report w result.id none] := by
        simp [resultMoves, board_tasks, htask]
      rw [hmoves] at hboard
      rw [← htask]
      exact reported hboard hb rfl rfl rfl
    | some task =>
      have hmore : job.completedTasks + 1 ≠ job.totalTasks := by
        intro hdone
        exact goesOn ⟨by rw [htask]; rfl, hdone⟩
      have hmoves : resultMoves (s.board job) job w result.id = [.complete w result.id] := by
        simp [resultMoves, board_tasks, htask, hmore]
      have hqueued : (s.board job).tasks result.id = some task.assignments := by
        rw [board_tasks, htask, Option.map_some]
      rw [htask, Option.elim_some] at hcount
      rw [hmoves, List.foldl_cons, List.foldl_nil] at hboard
      obtain ⟨h', hh', hreported⟩ := Board.complete_reported hb hqueued hcount
      rw [← hboard] at hh'
      obtain ⟨v', hv', rfl⟩ := worker_of_board hh'
      exact ⟨v', hv', hreported.of_lists rfl rfl fun _ => trivial⟩
  | taskExecutionError error =>
    rcases processTaskExecutionError_refines sound hj h with ⟨_, _, job', hboard⟩ | follows
    · exact reported hboard hb rfl rfl rfl
    · obtain ⟨job', _, _, hboard⟩ := follows.books
      exact reported hboard hb rfl rfl rfl
  | noFreeExecutors =>
    obtain ⟨job', _, _, hboard⟩ := (processNoFreeExecutors_refines sound hj h).books
    by_cases hsub : v.subworkers = 0
    · have hmoves : refusal (s.board job) w [t] = [.report w t none] := by
        simp [refusal, hb, Worker.holder, hsub]
      rw [hmoves] at hboard
      exact reported hboard hb rfl rfl rfl
    · have hmoves : refusal (s.board job) w [t] = [.shrink w 1, .report w t none] := by
        simp [refusal, hb, Worker.holder, hsub]
      rw [hmoves] at hboard
      exact reported (b := (s.board job).move (.shrink w 1)) hboard
        (Board.editWorker_self hb fun h => { h with subworkers := wrappingSub 64 h.subworkers 1 })
        rfl rfl rfl
  | libraryMissing =>
    obtain ⟨job', _, _, hboard⟩ := (processLibraryMissing_refines sound hj h).books
    exact reported hboard hb rfl rfl rfl

/-- Every worker of the queue can be compared. -/
def Comparable (q : PriorityQueue Worker) : Prop :=
  PriorityQueue.AllGood (fun v : Worker => v.assignments.length ≤ v.subworkers) q

theorem Capacity.comparable (fits : s.Capacity) : Comparable s.workersQueue := by
  intro w v hv
  have := fits w v hv
  omega

/-- What a worker has assigned is queued, and lists the worker. -/
theorem Ledger.queued (ledger : s.Ledger) (hv : s.workersQueue.get w = some v)
    (ht : t ∈ v.assignments) : ∃ task, s.tasksQueue.get t = some task ∧ w ∈ task.assignments := by
  have hcount := ledger w t
  have hpos := List.count_pos_iff.mpr ht
  rw [hv, Option.elim_some] at hcount
  cases htask : s.tasksQueue.get t with
  | none =>
    rw [htask, Option.elim_none] at hcount
    omega
  | some task =>
    rw [htask, Option.elim_some] at hcount
    exact ⟨task, rfl, List.count_pos_iff.mp (by omega)⟩

section Totality

/-- Dropping a comparable worker succeeds, and leaves comparable workers. -/
theorem dropWorker_total (checks : Bool) {q : PriorityQueue Worker} {r : RefMut Worker}
    (hk : Keyed Worker.id q) (hq : Comparable q) (hof : r.Of q) (hid : r.value.id = r.key)
    (hgood : r.value.assignments.length ≤ r.value.subworkers) :
    ∃ q', q.dropRefMut (Worker.cmpPriority checks) r = .ok q' ∧ Keyed Worker.id q' ∧
      Comparable q' := by
  obtain ⟨q', hd⟩ := PriorityQueue.dropRefMut_total (Worker.cmpPriority_decides checks) hk.indexed
    hq hgood hof.present
  obtain ⟨hk', hget⟩ := hof.drop hk hid hd
  refine ⟨q', hd, hk', PriorityQueue.AllGood.update hq hget ?_⟩
  intro v hv
  rw [Option.some.injEq] at hv
  exact hv ▸ hgood

theorem settleReporter_total (checks : Bool) {q : PriorityQueue Worker} (hk : Keyed Worker.id q)
    (hq : Comparable q) (w : WorkerId) (t : TaskId) :
    ∃ q', settleReporter checks q w t = .ok q' ∧ Keyed Worker.id q' ∧ Comparable q' := by
  unfold settleReporter
  cases hw : q.getMut w with
  | none => exact ⟨q, rfl, hk, hq⟩
  | some worker =>
    obtain ⟨v, hv, rfl⟩ := PriorityQueue.getMut_eq_some.mp hw
    refine dropWorker_total checks hk hq ((RefMut.of_get hv).releaseTask t)
      (by simpa using hk.keyed w v hv) ?_
    rw [RefMut.releaseTask_value]
    exact Nat.le_trans (length_withdraw_le v.assignments t) (hq w v hv)

theorem replaceTask_total (checks : Bool) {q : PriorityQueue Worker} (hk : Keyed Worker.id q)
    (hq : Comparable q) (w : WorkerId) (t : TaskId) :
    ∃ q', replaceTask checks t q w = .ok q' ∧ Keyed Worker.id q' ∧ Comparable q' := by
  unfold replaceTask
  cases hw : q.getMut w with
  | none => exact ⟨q, rfl, hk, hq⟩
  | some worker =>
    obtain ⟨v, hv, rfl⟩ := PriorityQueue.getMut_eq_some.mp hw
    refine dropWorker_total checks hk hq
      (((RefMut.of_get hv).releaseTask t).addReplacement t) (by simpa using hk.keyed w v hv) ?_
    rw [RefMut.addReplacement_value, RefMut.releaseTask_value]
    exact Nat.le_trans (length_withdraw_le v.assignments t) (hq w v hv)

theorem settleWorkers_total (checks : Bool) {q : PriorityQueue Worker} (hk : Keyed Worker.id q)
    (hq : Comparable q) (w : WorkerId) (t : TaskId) (task : Task) :
    Succeeds (settleWorkers checks q w t task) := by
  obtain ⟨q₁, h₁, hk₁, hq₁⟩ := settleReporter_total checks hk hq w t
  obtain ⟨q₂, h₂, _⟩ : ∃ q₂, (withdraw task.assignments w).foldlM (replaceTask checks t) q₁ =
      .ok q₂ ∧ Keyed Worker.id q₂ ∧ Comparable q₂ :=
    foldlM_total (I := fun _ q => Keyed Worker.id q ∧ Comparable q)
      (fun w' _ _ hI => replaceTask_total checks hI.1 hI.2 w' t) ⟨hk₁, hq₁⟩
  exact ⟨q₂, by simp only [settleWorkers, h₁, ok_bind, h₂]⟩

theorem nextAverage_total (job : ScheduledJob) {completedTasks : Nat} (h : completedTasks ≠ 0)
    (executionTime : Duration) : Succeeds (nextAverage job completedTasks executionTime) := by
  simp only [nextAverage, u128Div, h]
  exact succeeds_ok _

/-- The result of a queued task is taken in, if it can be counted. -/
theorem processResult_total (sound : s.Sound) (fits : s.Capacity) (hj : s.scheduledJob = some job)
    {result : WorkerResult} {task : Task} (ht : s.tasksQueue.get result.id = some task)
    (countable : job.completedTasks + 1 < 2 ^ 128) : Succeeds (s.processResult checks w result) := by
  obtain ⟨⟨tasksQueue, removed⟩, hr⟩ := PriorityQueue.remove_total Task.cmpPriority_decides
    sound.tasks.indexed (fun _ _ _ => trivial) result.id
  rcases PriorityQueue.remove_content sound.tasks.indexed hr with
    ⟨_, _, hnone⟩ | ⟨v, hremoved, hv, _, _⟩
  · rw [hnone] at ht
    cases ht
  subst hremoved
  have hadd : u128Add checks job.completedTasks 1 = .ok (job.completedTasks + 1) :=
    addBits_of_lt countable checks
  obtain ⟨average, haverage⟩ := nextAverage_total job
    (Nat.succ_ne_zero job.completedTasks) result.executionTime
  obtain ⟨⟨buffer, batch⟩, hpush⟩ : Succeeds (s.resultsBuffer.push result) := by
    obtain ⟨buffer, ⟨_, hpush, _⟩ | ⟨_, hpush, _⟩⟩ := s.resultsBuffer.push_eq result (by decide)
    · exact ⟨_, hpush⟩
    · exact ⟨_, hpush⟩
  obtain ⟨workersQueue, hsettle⟩ := settleWorkers_total checks sound.workers fits.comparable w
    result.id v
  simp only [processResult, hj, hr, ok_bind, acceptResult, hadd, haverage, hpush, hsettle]
  split
  · simp only [Buffer.filledSlice_eq, ok_bind]
    exact succeeds_ok _
  · exact succeeds_ok _

/-- A task that its reporter has can be reported: the loop succeeds on it, and so does putting the
worker back. -/
theorem report_total (checks : Bool) (sound : s.Sound) (fits : s.Capacity)
    {edit : RefMut Task → Except Fault (RefMut Task)} (he : Unrecorded edit)
    {worker : RefMut Worker} {task : Task} (ht : s.tasksQueue.get t = some task)
    (hedit : Succeeds (edit (RefMut.releaseWorker ⟨t, task, false⟩ worker.key)))
    (held : task.assignments ≠ []) (hof : worker.Of s.workersQueue)
    (hid : worker.value.id = worker.key) (hmem : t ∈ worker.value.assignments)
    (room : worker.value.assignments.length ≤ worker.value.subworkers + 1) (job : ScheduledJob) :
    ∃ b, report checks edit id ⟨worker, s.tasksQueue, job⟩ t = .ok b ∧
      ∀ j need, Succeeds (s.putBack checks b j need) := by
  obtain ⟨task', tasksQueue, _, hreport, _⟩ := report_held checks he id
    (b := ⟨worker, s.tasksQueue, job⟩) sound.tasks ht held hedit
  refine ⟨_, hreport, fun j need => ?_⟩
  have hlen := length_withdraw hmem
  obtain ⟨q', hd, _⟩ := dropWorker_total checks sound.workers fits.comparable (hof.releaseTask t)
    (by simpa using hid) (by
      rw [RefMut.releaseTask_value]
      dsimp only
      omega)
  simp only [putBack, id, hd, ok_bind, except_pure]
  exact succeeds_ok _

/-- A message about a task that its sender has assigned is taken in. -/
theorem processWorkers_total (sound : s.Sound) (fits : s.Capacity) (ledger : s.Ledger) {limit : Nat}
    (bounded : Bounded limit s) (hlimit : limit < 2 ^ 16) (hj : s.scheduledJob = some job)
    (hv : s.workersQueue.get w = some v) (reports : ReportsOne t m) (ht : t ∈ v.assignments)
    (countable : Countable job m) : Succeeds (s.processWorkers checks (.message w m)) := by
  obtain ⟨task, htask, hlisted⟩ := ledger.queued hv ht
  have held := List.ne_nil_of_mem hlisted
  have hmut : s.workersQueue.getMut w = some ⟨w, v, false⟩ :=
    PriorityQueue.getMut_eq_some.mpr ⟨v, hv, rfl⟩
  have hid := sound.workers.keyed w v hv
  have hlen : v.assignments.length ≤ v.subworkers := fits.comparable w v hv
  cases reports with
  | result result of =>
    subst of
    exact processResult_total sound fits hj htask countable
  | taskExecutionError error =>
    have hedit : Succeeds (countFailure checks s.config.failedExecutionsLimit
        (RefMut.releaseWorker ⟨t, task, false⟩ w)) := by
      rw [bounded.config]
      refine countFailure_total ?_ hlimit
      rw [RefMut.releaseWorker_value]
      exact bounded.tasks t task htask
    obtain ⟨b, hreport, hput⟩ := report_total checks sound fits (unrecorded_countFailure _) htask
      hedit held (RefMut.of_get hv) hid ht (Nat.le_succ_of_le hlen) job
    simp only [processWorkers, processTaskExecutionError, hj, hmut, hreport, ok_bind]
    split
    · obtain ⟨s', hs'⟩ := hput none true
      simp only [hs', ok_bind]
      exact succeeds_ok _
    · obtain ⟨s', hs'⟩ := hput (some b.job) true
      simp only [hs', ok_bind]
      exact succeeds_ok _
  | noFreeExecutors =>
    have hmem := List.length_pos_of_mem ht
    have hsub : usizeSub checks v.subworkers 1 = .ok (v.subworkers - 1) :=
      subBits_of_le (by omega) checks
    have hshrink : shrink checks ⟨w, v, false⟩ [t].length s.needSchedule =
        .ok (RefMut.derefMut ⟨w, v, false⟩ { v with subworkers := v.subworkers - 1 }, true) := by
      simp only [shrink, List.length_singleton, hsub, ok_bind, except_pure]
      exact if_pos (by omega)
    obtain ⟨b, hreport, hput⟩ := report_total checks sound fits unrecorded_ok htask
      (succeeds_ok _) held ((RefMut.of_get hv).derefMut { v with subworkers := v.subworkers - 1 })
      hid ht (by
        rw [RefMut.derefMut_value]
        dsimp only
        omega) job
    have hloop : [t].foldlM (reportTask checks) ⟨RefMut.derefMut ⟨w, v, false⟩
        { v with subworkers := v.subworkers - 1 }, s.tasksQueue, job⟩ = .ok b := by
      simp only [List.foldlM_cons, List.foldlM_nil, reportTask, hreport, ok_bind, except_pure]
    obtain ⟨s', hs'⟩ := hput (some b.job) true
    simp only [processWorkers, processNoFreeExecutors, hj, hmut, hshrink, ok_bind, hloop, hs']
    exact succeeds_ok _
  | libraryMissing =>
    obtain ⟨b, hreport, hput⟩ := report_total checks sound fits unrecorded_ok htask
      (succeeds_ok _) held ((RefMut.of_get hv).derefMut { v with hasJobData := false })
      hid ht (Nat.le_succ_of_le hlen) job
    have hloop : [t].foldlM (reportTask checks) ⟨RefMut.derefMut ⟨w, v, false⟩
        { v with hasJobData := false }, s.tasksQueue, job⟩ = .ok b := by
      simp only [List.foldlM_cons, List.foldlM_nil, reportTask, hreport, ok_bind, except_pure]
    have hnone : [].foldlM (reportReplacement checks) b = .ok b := rfl
    obtain ⟨s', hs'⟩ := hput (some b.job) true
    simp only [processWorkers, processLibraryMissing, hj, hmut, hloop, hnone, ok_bind, hs']
    exact succeeds_ok _

end Totality

/-- The message is taken in, and strikes one `t`, and nothing else, off the lists of its sender. -/
def Strikes (checks : Bool) (s : Scheduler) (w : WorkerId) (v : Worker) (m : WorkerResponse)
    (t : TaskId) : Prop :=
  ∃ s' out v', s.processWorkers checks (.message w m) = .ok (s', out) ∧
    s'.workersQueue.get w = some v' ∧ v.holder.Struck t v'.holder

/-- In every run that keeps the books, a message about one task strikes it off its sender's lists
exactly when the sender has it assigned, so that it is still queued: the report of a task that
another worker completed strikes off another one, or none, or panics. -/
theorem processWorkers_strikes {config : Config} {es : List Event}
    (limit : config.failedExecutionsLimit < 2 ^ 16)
    (run : Run (step checks) BooksStep (Scheduler.new config) es out s)
    (hj : s.scheduledJob = some job) (hv : s.workersQueue.get w = some v)
    (reports : ReportsOne t m) (goesOn : ¬s.Ends job m) :
    Strikes checks s w v m t ↔ t ∈ v.assignments ∧ Countable job m := by
  obtain ⟨sound, fits, ledger⟩ := books_of_run run hj
  have hrelease := v.holder.count_release t
  constructor
  · intro strikes
    obtain ⟨s', out', v', htaken, hv', struck⟩ := strikes
    obtain ⟨v'', hv'', reported⟩ :=
      processWorkers_reported sound ledger hj hv reports goesOn htaken
    rw [hv', Option.some.injEq] at hv''
    subst hv''
    have ht : t ∈ v.assignments := by
      by_contra hnot
      have honce := struck.once
      rw [reported.count, ← hrelease] at honce
      simp only [show t ∉ v.holder.assignments from hnot, decide_false, Bool.toNat_false] at honce
      omega
    refine ⟨ht, ?_⟩
    cases reports with
    | result result of =>
      subst of
      obtain ⟨task, htask, _⟩ := ledger.queued hv ht
      obtain ⟨_, _, _, _, _, _, _, _, _, hfits, _⟩ := processResult_queued sound hj htask htaken
      exact hfits
    | taskExecutionError | noFreeExecutors | libraryMissing => exact trivial
  · intro held
    obtain ⟨ht, countable⟩ := held
    obtain ⟨task, htask, _⟩ := ledger.queued hv ht
    have taken : Succeeds (s.processWorkers checks (.message w m)) :=
      processWorkers_total sound fits ledger (run_bounded run) limit hj hv reports ht countable
    obtain ⟨⟨s', out'⟩, htaken⟩ := taken
    obtain ⟨v', hv', reported⟩ := processWorkers_reported sound ledger hj hv reports goesOn htaken
    refine ⟨s', out', v', htaken, hv', reported.others (by rw [htask]; rfl), ?_⟩
    rw [reported.count, ← hrelease]
    simp only [show t ∈ v.holder.assignments from ht, decide_true, Bool.toNat_true]

/-- A worker that has two tasks reports the first. -/
theorem processWorkers_strikes_first : ∃ s v, s.workersQueue.get 1 = some v ∧
    v.assignments.length = 2 ∧ Strikes true s 1 v (.result ⟨0, 5, []⟩) 0 := by
  obtain ⟨s, out, run, h⟩ := exists_run (step true) BooksStep (Scheduler.new smallConfig)
    [jobOf 2, tasksOf [0, 1], joinOf 1 2, .schedule]
    (fun r => (r.1.workersQueue.get 1).any (fun v : Worker =>
        decide (v.assignments.length = 2 ∧ 0 ∈ v.assignments)) &&
      r.1.scheduledJob.any fun job : ScheduledJob =>
        decide (job.completedTasks = 0 ∧ job.totalTasks = 2)) (by decide +kernel)
  simp only [Bool.and_eq_true, decide_eq_true_eq, Option.any_eq_true] at h
  obtain ⟨⟨v, hv, hlen, ht⟩, job, hj, hzero, htwo⟩ := h
  refine ⟨s, v, hv, hlen, (processWorkers_strikes (by decide) run hj hv (.result _ rfl) ?_).mpr
    ⟨ht, ?_⟩⟩
  · intro ends
    have hdone := ends.2
    omega
  · change job.completedTasks + 1 < 2 ^ 128
    rw [hzero]
    decide

/-- The late result of task 1 strikes task 0 off the worker that sent it. -/
theorem lateResult_strikes_another :
    ¬∀ checks config es out s job w v m t, config.failedExecutionsLimit < 2 ^ 16 →
      Run (step checks) (fun _ _ => True) (Scheduler.new config) es out s →
      s.scheduledJob = some job → s.workersQueue.get w = some v → ReportsOne t m →
      (t ∈ v.assignments ∨ t ∈ v.replacements) → ¬s.Ends job m → Strikes checks s w v m t := by
  intro hall
  obtain ⟨s, out, run, h⟩ := exists_run (step true) BooksStep (Scheduler.new smallConfig)
    [jobOf 2, tasksOf [0, 1], joinOf 1 2, .schedule, joinOf 2 1, .schedule, resultOf 2 1]
    (fun r => r.1.scheduledJob.isSome && (r.1.tasksQueue.get 1).isNone &&
      ((r.1.workersQueue.get 1).any fun v : Worker =>
        decide (0 ∈ v.assignments ∧ 1 ∈ v.replacements)) &&
      (processWorkers true r.1 (.message 1 (.result ⟨1, 5, []⟩))).toOption.any
        fun after : Scheduler × List Sent => (after.1.workersQueue.get 1).any fun v : Worker =>
          decide (0 ∉ v.assignments)) (by decide +kernel)
  simp only [Bool.and_eq_true, decide_eq_true_eq, Option.any_eq_true] at h
  obtain ⟨⟨⟨hjob, hgone⟩, v, hv, hzero, hone⟩, after, hafter, v₁, hv₁, hstruck⟩ := h
  obtain ⟨job, hj⟩ := Option.isSome_iff_exists.mp hjob
  have goesOn : ¬s.Ends job (.result ⟨1, 5, []⟩) := by
    intro ends
    have hqueued := ends.1
    rw [Option.isNone_iff_eq_none.mp hgone] at hqueued
    cases hqueued
  obtain ⟨s', out', v', htaken, hv', struck⟩ := hall true smallConfig _ out s job 1 v _ 1
    (by decide) (run.weaken fun _ _ _ => trivial) hj hv (.result _ rfl) (.inr hone) goesOn
  have hsame : after.1 = s' := by
    rw [toOption_eq_some.mp hafter, Except.ok.injEq] at htaken
    rw [htaken]
  rw [hsame, hv', Option.some.injEq] at hv₁
  have hcount := (struck.others 0 (by decide)).1
  have hpos : 0 < v.holder.assignments.count 0 := List.count_pos_iff.mpr hzero
  rw [← hcount] at hpos
  exact hstruck (hv₁ ▸ List.count_pos_iff.mp hpos)

end Scheduler
end GridServer
