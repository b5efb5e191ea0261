import GridServer.NodeWorker.Partition

namespace GridServer.NodeWorker
open Library

/-! The executors run what they are sent. A run that was aborted may still have left a result in
its executor's stream. -/

structure Execution where
  executorId : ExecutorId
  key : Key
  aborted : Bool
deriving DecidableEq, Repr

/-- What a message of the worker does to the runs of its executors. -/
def executionsAfter (executions : List Execution) : Sent → List Execution
  | .abort executorId =>
    executions.map fun x => if x.executorId = executorId then { x with aborted := true } else x
  | .startJob executorId job => executions ++ [⟨executorId, (job.jobId, job.taskId), false⟩]
  | _ => executions

/-- A worker with the runs of its executors whose results it has not read. -/
structure WasmNode where
  worker : WasmWorker
  executions : List Execution

inductive NodeEvent where
  | request (request : WorkerRequest)
  | executed (execution : Execution) (executionTime : Duration)
    (result : Except String (List UInt8))
  | reset (drained : List Key)
  | compiled (job : Uuid) (bytes : List UInt8)
deriving DecidableEq, Repr

namespace WasmNode

def new (executorsNum : Nat) : WasmNode := ⟨WasmWorker.new executorsNum, []⟩

/-- The worker takes the event, and its executors what the worker puts out. -/
def serve (n : WasmNode) (executions : List Execution) (e : WasmEvent) :
    Except Fault (WasmNode × List Sent) := do
  let (worker, out) ← n.worker.step e
  return (⟨worker, out.foldl executionsAfter executions⟩, out)

/-- A result comes from a run. -/
def step (n : WasmNode) : NodeEvent → Except Fault (WasmNode × List Sent)
  | .request request => n.serve n.executions (.request request)
  | .executed execution executionTime result =>
    if execution ∈ n.executions then
      n.serve (n.executions.erase execution) (.message execution.executorId
        { jobId := execution.key.1, taskId := execution.key.2, executionTime := executionTime
          result := result })
    else .error .notReady
  | .reset drained => n.serve n.executions (.reset drained)
  | .compiled job bytes => n.serve n.executions (.compiled job bytes)

/-- No task that is still assigned is given to another executor, and no result of a run that was
aborted comes while its task is assigned again. -/
def Meets (n : WasmNode) : NodeEvent → Prop
  | .request request => n.worker.RepeatsNone request
  | .executed execution _ _ => execution.aborted = true → execution.key ∉ n.worker.assignments
  | _ => True

end WasmNode

/-- The runs that were not aborted. -/
def running (executions : List Execution) : List Execution :=
  executions.filter fun x => !x.aborted

theorem mem_running {executions : List Execution} {x : Execution} :
    x ∈ running executions ↔ x ∈ executions ∧ x.aborted = false := by
  simp [running]

theorem running_abort (executions : List Execution) (id : ExecutorId) :
    running (executionsAfter executions (.abort id)) =
      (running executions).filter fun x => x.executorId ≠ id := by
  simp only [executionsAfter, running, List.filter_map, List.filter_filter]
  induction executions with
  | nil => rfl
  | cons x executions ih =>
    by_cases hid : x.executorId = id <;> cases ha : x.aborted <;> simp_all

/-- Every run that was not aborted is that of a task assigned to its executor, at most one each. -/
structure Owned {M : Type} (s : State M) (executions : List Execution) : Prop where
  nodup : (running executions).Nodup
  assigned : ∀ x, x ∈ running executions → s.assignments.lookup x.key = some x.executorId

namespace Owned
variable {M : Type} {s : State M} {executions : List Execution}

theorem busy (h : Owned s executions) {x : Execution} (hx : x ∈ running executions) :
    x.executorId ∈ s.busyExecutors :=
  State.mem_busy.mpr ⟨x.key, h.assigned x hx⟩

/-- An executor that runs a task is not on the free list. -/
theorem not_free (h : Owned s executions) (hs : s.Partitioned) {x : Execution}
    (hx : x ∈ running executions) : x.executorId ∉ s.freeExecutors :=
  fun hfree => hs.disjoint x.executorId hfree (h.busy hx)

/-- Giving a new task to an executor that runs none. -/
theorem assign (h : Owned s executions) {id : ExecutorId} {job : Uuid} {task : WorkerTask}
    (hid : id ∈ s.executors) (hnew : (job, task.id) ∉ s.assignments)
    (hidle : ∀ x, x ∈ running executions → x.executorId ≠ id) :
    Owned (s.assign id job task []).1
      ((s.assign id job task []).2.foldl executionsAfter executions) := by
  have hother : ∀ x, x ∈ running executions →
      (s.assign id job task []).1.assignments.lookup x.key = some x.executorId := by
    intro x hx
    have hx' := h.assigned x hx
    have hne : x.key ≠ (job, task.id) := by
      intro he
      rw [he] at hx'
      exact hnew (AList.lookup_isSome.mp (by rw [hx']; rfl))
    rw [(State.assign_lookup hid ..).2.2, AList.lookup_insert_ne hne]
    exact hx'
  have hout : (s.assign id job task []).2 = (s.jobArgs.get job).2.toList.map fun args =>
      .startJob id { jobId := job, jobData := args, taskId := task.id, taskData := task.data } := by
    rw [State.assign, if_pos hid]
    rfl
  rw [hout]
  cases (s.jobArgs.get job).2 with
  | none => exact ⟨h.nodup, hother⟩
  | some args =>
    have hrunning : running (executions ++ [⟨id, (job, task.id), false⟩]) =
        running executions ++ [⟨id, (job, task.id), false⟩] := by simp [running]
    simp only [Option.toList_some, List.map_cons, List.map_nil, List.foldl_cons, List.foldl_nil,
      executionsAfter]
    constructor
    · rw [hrunning, List.nodup_append]
      refine ⟨h.nodup, List.nodup_singleton _, ?_⟩
      intro x hx y hy he
      rw [List.mem_singleton] at hy
      exact hidle x hx (by rw [he, hy])
    · intro x hx
      rw [hrunning, List.mem_append, List.mem_singleton] at hx
      rcases hx with hold | rfl
      · exact hother x hold
      · rw [(State.assign_lookup hid ..).2.2, AList.lookup_insert]

/-- Aborting what runs on an executor takes its runs out, so its task can go. -/
theorem abort (h : Owned s executions) {key : Key} {id : ExecutorId}
    (hkey : s.assignments.lookup key = some id) :
    Owned (s.unassign key) (executionsAfter executions (.abort id)) ∧
      ∀ x, x ∈ running (executionsAfter executions (.abort id)) → x.executorId ≠ id := by
  have hmem : ∀ x, x ∈ running (executionsAfter executions (.abort id)) →
      x ∈ running executions ∧ x.executorId ≠ id := by
    intro x hx
    rw [running_abort, List.mem_filter] at hx
    exact ⟨hx.1, by simpa using hx.2⟩
  refine ⟨⟨?_, ?_⟩, fun x hx => (hmem x hx).2⟩
  · rw [running_abort]
    exact h.nodup.filter _
  · intro x hx
    obtain ⟨hold, hne⟩ := hmem x hx
    have hx' := h.assigned x hold
    have hkey' : x.key ≠ key := by
      intro he
      rw [he, hkey, Option.some.injEq] at hx'
      exact hne hx'.symm
    rw [State.unassign, AList.lookup_erase_ne hkey']
    exact hx'

/-- The last stage of a request. -/
theorem tasksAssignment (h : Owned s executions) (hs : s.Partitioned) (job : Uuid)
    {tasks : List WorkerTask} (hnew : AssignsNew (s.held job)
      ((tasks.map WorkerTask.id).take s.freeExecutors.length)) :
    Owned (s.tasksAssignment job tasks).1
      ((s.tasksAssignment job tasks).2.1.foldl executionsAfter executions) := by
  induction tasks generalizing s executions with
  | nil => exact h
  | cons task tasks ih =>
    rcases List.eq_nil_or_concat' s.freeExecutors with hnil | ⟨front, id, hfree⟩
    · rw [State.tasksAssignment_stop hnil]
      exact h
    · obtain ⟨t, ht⟩ : ∃ t, t = ({ s with freeExecutors := front } : State M) := ⟨_, rfl⟩
      have hid : id ∈ t.executors := ht ▸ hs.live id (by simp [State.pool, hfree])
      have hheld : t.held job = s.held job := ht ▸ rfl
      rw [hfree, List.length_append, List.length_singleton, List.map_cons, List.take_succ_cons,
        assignsNew_cons, ← hheld, State.mem_held, ← State.held_assign hid job task []] at hnew
      have hmoved := State.moved_assign (ht ▸ State.pool_pop hfree) (by rw [ht]) hid
        job task []
      have hidle : ∀ x, x ∈ running executions → x.executorId ≠ id := by
        intro x hx he
        exact h.not_free hs hx (by rw [he, hfree]; simp)
      have howned : Owned t executions := ⟨h.nodup, ht ▸ h.assigned⟩
      have hlen : (t.assign id job task []).1.freeExecutors.length = front.length := by
        rw [(State.assign_lookup hid ..).1, ht]
      rw [State.tasksAssignment_next hfree job task tasks ht, List.foldl_append]
      exact ih (howned.assign hid hnew.1 hidle) ((hmoved.partitioned_iff hs).mpr hnew.1)
        (hlen ▸ hnew.2)

/-- The replacements of a request. -/
theorem processTaskReplacement {s : WasmWorker} (h : Owned s executions) (hs : s.Partitioned)
    (job : Uuid) {replacements : List (TaskId × WorkerTask)}
    (hnew : ReplacesNew (s.held job) replacements) :
    Owned (WasmWorker.processTaskReplacement s job replacements).1
      ((WasmWorker.processTaskReplacement s job replacements).2.foldl executionsAfter
        executions) := by
  induction replacements generalizing s executions with
  | nil => exact h
  | cons replacement replacements ih =>
    obtain ⟨replaceTaskId, task⟩ := replacement
    unfold ReplacesNew at hnew
    cases hlookup : s.assignments.lookup (job, replaceTaskId) with
    | none =>
      have hnot : replaceTaskId ∉ s.held job := State.not_held_of_lookup hlookup
      rw [if_neg hnot] at hnew
      rw [WasmWorker.processTaskReplacement_skip hlookup]
      exact ih h hs hnew
    | some id =>
      have hheld : replaceTaskId ∈ s.held job := State.held_of_lookup hlookup
      obtain ⟨t, ht⟩ : ∃ t, t = State.unassign s (job, replaceTaskId) := ⟨_, rfl⟩
      have hid : id ∈ t.executors :=
        ht ▸ hs.live id (List.mem_append_right _ (State.mem_busy.mpr ⟨_, hlookup⟩))
      rw [if_pos hheld, ← State.held_unassign, ← ht, State.mem_held,
        ← State.held_assign hid job task []] at hnew
      have hmoved := State.moved_assign (ht ▸ State.pool_unassign hlookup) (by rw [ht]; rfl) hid
        job task []
      obtain ⟨howned, hidle⟩ := h.abort hlookup
      rw [← ht] at howned
      rw [WasmWorker.processTaskReplacement_next hlookup ht hid, List.foldl_append,
        List.foldl_cons]
      exact ih (howned.assign hid hnew.1 hidle) ((hmoved.partitioned_iff hs).mpr hnew.1) hnew.2

theorem processRequest {s : WasmWorker} (h : Owned s executions) (hs : s.Partitioned)
    {request : WorkerRequest} (hnew : s.RepeatsNone request) :
    Owned (WasmWorker.processRequest s request).1
      ((WasmWorker.processRequest s request).2.1.foldl executionsAfter executions) := by
  rcases WasmWorker.processModule_cases s request with ⟨_, herror⟩ |
    ⟨present, jobCache, jobArgs, hok⟩
  · rw [WasmWorker.processRequest, herror]
    exact h
  · obtain ⟨hreplaces, hassigns⟩ := hnew.resolve_left present
    obtain ⟨t, ht⟩ : ∃ t : WasmWorker, t = { s with jobCache := jobCache, jobArgs := jobArgs } :=
      ⟨_, rfl⟩
    have hpart : t.Partitioned := ht ▸ hs.cached jobCache jobArgs
    have hheld : t.held request.job = s.held request.job := ht ▸ rfl
    have hfree : t.freeExecutors = s.freeExecutors := ht ▸ rfl
    have howned : Owned t executions := ⟨h.nodup, ht ▸ h.assigned⟩
    rw [← hheld] at hreplaces hassigns
    obtain ⟨hmoved, hheld', hfree'⟩ :=
      WasmWorker.processTaskReplacement_moved hpart.live request.job request.replacements
    rw [← hheld', ← hfree, ← hfree'] at hassigns
    rw [WasmWorker.processRequest, hok, ← ht]
    simp only [List.foldl_append]
    exact (howned.processTaskReplacement hpart request.job hreplaces).tasksAssignment
      ((hmoved.partitioned_iff hpart).mpr hreplaces) request.job hassigns

/-- A result of the run that its task is assigned to frees the executor. -/
theorem finish (h : Owned s executions) (result : ExecutorResult) {x : Execution}
    (hkey : x.key = result.key) (hx : x ∈ executions)
    (late : x.aborted = true → x.key ∉ s.assignments) :
    Owned (s.finish result).1
      ((s.finish result).2.foldl executionsAfter (executions.erase x)) := by
  have hsub : (running (executions.erase x)).Sublist (running executions) :=
    (List.erase_sublist).filter _
  unfold State.finish
  cases hlookup : s.assignments.lookup result.key with
  | none => exact ⟨h.nodup.sublist hsub, fun y hy => h.assigned y (hsub.subset hy)⟩
  | some id =>
    have hrun : x ∈ running executions := by
      refine mem_running.mpr ⟨hx, ?_⟩
      rw [← Bool.not_eq_true]
      intro haborted
      exact late haborted (hkey ▸ AList.lookup_isSome.mp (by rw [hlookup]; rfl))
    have herase : running (executions.erase x) = (running executions).erase x :=
      List.erase_filter.symm
    refine ⟨h.nodup.sublist hsub, fun y hy => ?_⟩
    have hy' := h.assigned y (hsub.subset hy)
    have hne : y.key ≠ x.key := by
      intro he
      have hid := h.assigned x hrun
      rw [← he, hy', Option.some.injEq] at hid
      have hsame : y = x := by
        obtain ⟨_, hay⟩ := mem_running.mp (hsub.subset hy)
        obtain ⟨_, hax⟩ := mem_running.mp hrun
        cases x
        cases y
        simp_all
      rw [hsame] at hy
      change x ∈ running (executions.erase x) at hy
      rw [herase] at hy
      exact h.nodup.not_mem_erase hy
    change (s.assignments.erase result.key).lookup y.key = _
    rw [← hkey, AList.lookup_erase_ne hne]
    exact hy'

/-- Draining the assignments aborts every run. -/
theorem reset {s : WasmWorker} (h : Owned s executions) (hs : s.Partitioned) {drained : List Key}
    (hdrained : drained.Perm s.assignments.keys) :
    Owned (WasmWorker.reset s drained).1
      ((WasmWorker.reset s drained).2.foldl executionsAfter executions) := by
  have hids : ∀ (ids : List ExecutorId) (executions : List Execution),
      (∀ x, x ∈ running executions → x.executorId ∈ ids) →
        running ((ids.map Sent.abort).foldl executionsAfter executions) = [] := by
    intro ids
    induction ids with
    | nil =>
      intro executions hall
      exact List.eq_nil_iff_forall_not_mem.mpr fun x hx => List.not_mem_nil (hall x hx)
    | cons id ids ih =>
      intro executions hall
      refine ih _ fun x hx => ?_
      rw [running_abort, List.mem_filter] at hx
      rcases List.mem_cons.mp (hall x hx.1) with he | hmem
      · simp [he] at hx
      · exact hmem
  have hnone : running ((WasmWorker.reset s drained).2.foldl executionsAfter executions) = [] := by
    refine hids _ executions fun x hx => ?_
    have hbusy := h.busy hx
    rw [List.mem_filter, (State.drained_perm hdrained).mem_iff]
    exact ⟨hbusy, by simpa using hs.live _ (List.mem_append_right _ hbusy)⟩
  refine ⟨by rw [hnone]; exact List.nodup_nil, fun x hx => ?_⟩
  rw [hnone] at hx
  cases hx

end Owned

theorem foldl_answered (executions : List Execution) (error : Option WorkerError) :
    (answered error).foldl executionsAfter executions = executions := by
  cases error <;> rfl

namespace WasmNode
variable {n n' : WasmNode}

/-- What holds as long as every event meets what is asked of it. -/
structure Sound (n : WasmNode) : Prop where
  partitioned : n.worker.Partitioned
  owned : Owned n.worker n.executions

theorem serve_ok {executions : List Execution} {e : WasmEvent} {out : List Sent} :
    n.serve executions e = .ok (n', out) ↔ n.worker.step e = .ok (n'.worker, out) ∧
      n'.executions = out.foldl executionsAfter executions := by
  obtain ⟨worker, after⟩ := n'
  simp only [serve, bind_ok, except_pure, Except.ok.injEq, Prod.mk.injEq, mk.injEq, Prod.exists]
  constructor
  · intro ⟨_, _, hstep, ⟨hworker, hafter⟩, hout⟩
    subst hworker hout
    exact ⟨hstep, hafter.symm⟩
  · intro ⟨hstep, hafter⟩
    exact ⟨worker, out, hstep, ⟨rfl, hafter.symm⟩, rfl⟩

theorem Sound.step {e : NodeEvent} {out : List Sent} (h : n.Sound) (met : n.Meets e)
    (taken : n.step e = .ok (n', out)) : n'.Sound := by
  cases e with
  | request request =>
    obtain ⟨hstep, hafter⟩ := serve_ok.mp taken
    refine ⟨(WasmWorker.step_partitioned h.partitioned hstep).mpr met, ?_⟩
    simp only [WasmWorker.step, Except.ok.injEq, Prod.mk.injEq] at hstep
    rw [hafter, ← hstep.1, ← hstep.2, List.foldl_append, foldl_answered]
    exact h.owned.processRequest h.partitioned met
  | executed execution executionTime result =>
    simp only [WasmNode.step] at taken
    split at taken
    · rename_i hmem
      obtain ⟨hstep, hafter⟩ := serve_ok.mp taken
      refine ⟨(WasmWorker.step_partitioned h.partitioned hstep).mpr trivial, ?_⟩
      simp only [WasmWorker.step] at hstep
      split at hstep
      · have hpair := Except.ok.inj hstep
        have hfinish := h.owned.finish { jobId := execution.key.1, taskId := execution.key.2
                                         executionTime := executionTime, result := result }
          rfl hmem met
        rw [hafter]
        rw [WasmWorker.processMessage] at hpair
        rw [hpair] at hfinish
        exact hfinish
      · cases hstep
    · cases taken
  | reset drained =>
    obtain ⟨hstep, hafter⟩ := serve_ok.mp taken
    refine ⟨(WasmWorker.step_partitioned h.partitioned hstep).mpr trivial, ?_⟩
    simp only [WasmWorker.step] at hstep
    split at hstep
    · rename_i hdrained
      have hpair := Except.ok.inj hstep
      have hreset := h.owned.reset h.partitioned hdrained
      rw [hafter]
      rw [hpair] at hreset
      exact hreset
    · cases hstep
  | compiled job bytes =>
    obtain ⟨hstep, hafter⟩ := serve_ok.mp taken
    refine ⟨(WasmWorker.step_partitioned h.partitioned hstep).mpr trivial, ?_⟩
    simp only [WasmWorker.step, Except.ok.injEq, Prod.mk.injEq] at hstep
    rw [hafter, ← hstep.1, ← hstep.2]
    exact ⟨h.owned.nodup, h.owned.assigned⟩

end WasmNode

/-- As long as no request gives out a task that is still assigned, the executors of a `WasmWorker`
are partitioned into the free ones and those with one task each, whatever results come, and a next
step keeps them so if and only if it does the same. If no aborted run reports on a task that is
assigned again either, an executor that runs a task has it assigned, and is not free. -/
theorem executors_partitioned (executorsNum : Nat) :
    (∀ es out s, Run WasmWorker.step WasmWorker.Meets (WasmWorker.new executorsNum) es out s →
      s.Partitioned ∧ ∀ e s' out', s.step e = .ok (s', out') → (s'.Partitioned ↔ s.Meets e)) ∧
    ∀ es out n, Run WasmNode.step WasmNode.Meets (WasmNode.new executorsNum) es out n →
      n.worker.Partitioned ∧ ∀ x, x ∈ running n.executions →
        n.worker.assignments.lookup x.key = some x.executorId ∧
          x.executorId ∉ n.worker.freeExecutors := by
  have start : (WasmWorker.new executorsNum).Partitioned :=
    State.partitioned_start List.nodup_range
  constructor
  · intro es out s run
    have hs : s.Partitioned := by
      refine run.preserves (I := State.Partitioned) start ?_
      intro t e u out' ht met taken
      exact (WasmWorker.step_partitioned ht taken).mpr met
    exact ⟨hs, fun e s' out' taken => WasmWorker.step_partitioned hs taken⟩
  · intro es out n run
    have start' : (WasmNode.new executorsNum).Sound :=
      ⟨start, List.nodup_nil, fun x hx => absurd hx List.not_mem_nil⟩
    have hn : n.Sound := by
      refine run.preserves (I := WasmNode.Sound) start' ?_
      intro t e u out' ht met taken
      exact ht.step met taken
    refine ⟨hn.partitioned, fun x hx => ?_⟩
    exact ⟨hn.owned.assigned x hx, hn.owned.not_free hn.partitioned hx⟩

/-- Two executors, and the same task in two requests: the first executor is in neither list. -/
theorem repeated_task_leaks :
    ¬∀ executorsNum es out s, Run WasmWorker.step (fun _ _ => True) (WasmWorker.new executorsNum)
      es out s → s.Partitioned := by
  intro hall
  obtain ⟨s, out, run, hlt⟩ := exists_run WasmWorker.step (fun _ _ => True) (WasmWorker.new 2)
    [.request { job := 0, jobData := some ([], []), replacements := [], tasks := [⟨1, []⟩] },
      .request { job := 0, jobData := none, replacements := [], tasks := [⟨1, []⟩] }]
    (fun r => decide (r.1.pool.length < r.1.executors.card)) (by decide)
  have hs := hall 2 _ out s run
  rw [decide_eq_true_eq, hs.length_eq] at hlt
  exact absurd hlt (Nat.lt_irrefl _)

end GridServer.NodeWorker
