import GridServer.Scheduler.Refinement.Step

namespace GridServer
open Library

namespace Board

/-- The two sides of the books agree. -/
def Ledger (b : Board) : Prop := TwoSided b.holds b.heldBy

/-- What a move must not run into for the books to stay two-sided: a report on a finished task
that is still due to be replaced, a worker joining under an id that holds tasks, a task queued
again while it is assigned. -/
def LedgerSafe (b : Board) : Move → Prop
  | .report w t _ => b.tasks t = none → ∀ h ∈ b.workers w, t ∉ h.replacements
  | .join w _ => b.holds w = []
  | .queue t => b.heldBy t = []
  | _ => True

instance (b : Board) (m : Move) : Decidable (b.LedgerSafe m) := by
  cases m <;> unfold LedgerSafe <;> infer_instance

variable {b : Board}

theorem Ledger.of_eq {holds : WorkerId → List TaskId} {heldBy : TaskId → List WorkerId}
    (hholds : b.holds = holds) (hheld : b.heldBy = heldBy) (h : TwoSided holds heldBy) : b.Ledger := by
  rw [Ledger, hholds, hheld]
  exact h

theorem Ledger.give (h : b.Ledger) (w : WorkerId) (t : TaskId) : (b.give w t).Ledger := by
  unfold Board.give
  split
  · rename_i v ws hw ht
    have hholds := holds_editWorker b w (f := fun h => { h with assignments := h.assignments ++ [t] })
      (fun ts => ts ++ [t]) (fun _ => rfl) (fun hn => by rw [hn] at hw; cases hw)
    have hheld : b.heldBy t = ws := by simp [heldBy, ht]
    have hgive := TwoSided.give h w t
    rw [hheld] at hgive
    exact .of_eq hholds (heldBy_setTask b t (some (ws ++ [w]))) hgive
  · exact h

/-- What `report` leaves a worker: the task is taken out, and another may become due. -/
theorem report_assignments (due : Option TaskId) (h : Holder) (t : TaskId) :
    (due.elim (h.release t) (h.release t).addReplacement).assignments =
      withdraw h.assignments t := by
  cases due <;> rfl

/-- A task that is not due to be replaced is not found, and nothing is removed. -/
theorem releaseFinished_of_not_mem {h : Holder} {t : TaskId} (ht : t ∉ h.replacements) :
    h.releaseFinished t = h := by
  simp [Holder.releaseFinished, List.idxOf?_eq_none_iff.mpr ht]

theorem Ledger.report (h : b.Ledger) {w : WorkerId} {t : TaskId} {due : Option TaskId}
    (safe : b.LedgerSafe (.report w t due)) : (b.report w t due).Ledger := by
  unfold Board.report
  split
  · rename_i v ws hw ht
    have hholds := holds_editWorker b w
      (f := fun h => due.elim (h.release t) (h.release t).addReplacement)
      (fun ts => withdraw ts t) (fun h => report_assignments due h t)
      (fun hn => by rw [hn] at hw; cases hw)
    have hheld : b.heldBy t = ws := by simp [heldBy, ht]
    have hrelease := TwoSided.release h w t
    rw [hheld] at hrelease
    exact .of_eq hholds (heldBy_setTask b t (some (withdraw ws w))) hrelease
  · rename_i v hw ht
    have hsame : b.editWorker w (fun h => h.releaseFinished t) = b := by
      unfold editWorker
      rw [hw, Option.map_some, releaseFinished_of_not_mem (safe ht v hw), ← hw,
        Function.update_eq_self]
    rw [hsame]
    exact h
  · exact h

theorem withdraw_nil {α : Type} [DecidableEq α] (a : α) : withdraw ([] : List α) a = [] :=
  withdraw_of_not_mem List.not_mem_nil

theorem holds_release (b : Board) (w : WorkerId) (t : TaskId) :
    (b.editWorker w fun h => h.release t).holds =
      Function.update b.holds w (withdraw (b.holds w) t) :=
  holds_editWorker b w (fun ts => withdraw ts t) (fun _ => rfl) fun _ => withdraw_nil t

/-- The workers of a completed task all let go of it. -/
theorem holds_replaces (b : Board) (t : TaskId) (ws : List WorkerId) :
    (ws.foldl (replace t) b).holds = letGo t b.holds ws ∧
      (ws.foldl (replace t) b).heldBy = b.heldBy := by
  induction ws generalizing b with
  | nil => exact ⟨rfl, rfl⟩
  | cons w ws ih =>
    have hone : (replace t b w).holds = Function.update b.holds w (withdraw (b.holds w) t) :=
      holds_editWorker b w (fun ts => withdraw ts t) (fun _ => rfl) fun _ => withdraw_nil t
    obtain ⟨hholds, hheld⟩ := ih (replace t b w)
    rw [List.foldl_cons, letGo_cons, hholds, hheld, hone]
    exact ⟨rfl, rfl⟩

theorem Ledger.complete (h : b.Ledger) (w : WorkerId) (t : TaskId) : (b.complete w t).Ledger := by
  unfold Board.complete
  split
  · rename_i ws ht
    have hheld : b.heldBy t = ws := by simp [heldBy, ht]
    obtain ⟨hholds, hheldBy⟩ := holds_replaces
      { (b.setTask t none).editWorker w fun h => h.release t with completed := b.completed + 1 } t
      (withdraw ws w)
    have hstart : ({ (b.setTask t none).editWorker w fun h => h.release t with
        completed := b.completed + 1 } : Board).holds =
          Function.update b.holds w (withdraw (b.holds w) t) := holds_release (b.setTask t none) w t
    have hstart' : ({ (b.setTask t none).editWorker w fun h => h.release t with
        completed := b.completed + 1 } : Board).heldBy = Function.update b.heldBy t [] :=
      heldBy_setTask b t none
    rw [Ledger, hholds, hheldBy, hstart, hstart', ← letGo_cons]
    apply TwoSided.settle h
    · intro w'
      rw [count_letGo, h w' t, hheld, List.count_cons, count_withdraw]
      by_cases hw : w' = w
      · subst hw
        simp only [↓reduceIte, beq_self_eq_true]
        omega
      · simp [hw]
    · exact fun w' t' hne => count_letGo_of_ne hne _ _ w'
  · exact h

/-- The tasks of a worker that left all let go of it. -/
theorem heldBy_abandons (b : Board) (w : WorkerId) (ts : List TaskId) :
    (ts.foldl (abandon w) b).heldBy = letGo w b.heldBy ts ∧
      (ts.foldl (abandon w) b).holds = b.holds := by
  induction ts generalizing b with
  | nil => exact ⟨rfl, rfl⟩
  | cons t ts ih =>
    have hone : (abandon w b t).heldBy = Function.update b.heldBy t (withdraw (b.heldBy t) w) ∧
        (abandon w b t).holds = b.holds := by
      unfold abandon
      split
      · rename_i ws ht
        have hheld : b.heldBy t = ws := by simp [heldBy, ht]
        rw [hheld]
        exact ⟨heldBy_setTask b t (some (withdraw ws w)), rfl⟩
      · rename_i ht
        have hheld : b.heldBy t = [] := by simp [heldBy, ht]
        refine ⟨?_, rfl⟩
        rw [hheld, withdraw_nil, ← hheld, Function.update_eq_self]
    obtain ⟨hheld, hholds⟩ := ih (abandon w b t)
    rw [List.foldl_cons, letGo_cons, hheld, hholds, hone.1, hone.2]
    exact ⟨rfl, rfl⟩

theorem Ledger.leave (h : b.Ledger) (w : WorkerId) : (b.leave w).Ledger := by
  unfold Board.leave
  obtain ⟨hheld, hholds⟩ := heldBy_abandons
    { b with workers := Function.update b.workers w none } w (b.holds w)
  have hgone : ({ b with workers := Function.update b.workers w none } : Board).holds =
      Function.update b.holds w [] := by
    funext k
    by_cases hk : k = w
    · subst hk; simp [Board.holds]
    · simp [Board.holds, Function.update_of_ne hk]
  rw [Ledger, hheld, hholds, hgone]
  exact (TwoSided.letGo h.symm w).symm

/-- Every safe move keeps the books two-sided. -/
theorem Ledger.move (m : Move) (safe : b.LedgerSafe m) (h : b.Ledger) : (b.move m).Ledger := by
  cases m with
  | give w t => exact h.give w t
  | useReplacement w =>
    have hholds := holds_editWorker b w
      (f := fun h => { h with replacements := h.replacements.dropLast }) id (fun _ => rfl)
      fun _ => rfl
    rw [id, Function.update_eq_self] at hholds
    rw [Ledger, Board.move, hholds, heldBy_editWorker]
    exact h
  | report w t due => exact h.report safe
  | complete w t => exact h.complete w t
  | leave w => exact h.leave w
  | join w subworkers =>
    have hholds : (b.move (.join w subworkers)).holds = b.holds := by
      funext k
      by_cases hk : k = w
      · subst hk
        simpa [Board.move, holds] using (show b.holds k = [] from safe).symm
      · simp [Board.move, holds, Function.update_of_ne hk]
    rw [Ledger, hholds]
    exact h
  | queue t =>
    have hheld : (b.move (.queue t)).heldBy = b.heldBy := by
      rw [Board.move, heldBy_setTask, Option.getD_some, ← show b.heldBy t = [] from safe,
        Function.update_eq_self]
    rw [Ledger, hheld]
    exact h
  | shrink w n =>
    have hholds := holds_editWorker b w
      (f := fun h => { h with subworkers := wrappingSub 64 h.subworkers n }) id (fun _ => rfl)
      fun _ => rfl
    rw [id, Function.update_eq_self] at hholds
    rw [Ledger, Board.move, hholds, heldBy_editWorker]
    exact h
  | start => exact fun _ _ => rfl
  | clear => exact fun _ _ => rfl
  | forget =>
    intro w t
    cases ht : b.tasks t <;> simp [Board.move, holds, heldBy, ht]

end Board

namespace Scheduler
variable {checks : Bool}

/-- The assignment ledger: a worker is listed with a task as often as the task is with it. -/
def Ledger (s : Scheduler) : Prop :=
  ∀ w t, (s.tasksQueue.get t).elim 0 (fun task => task.assignments.count w) =
    (s.workersQueue.get w).elim 0 fun worker => worker.assignments.count t

theorem board_ledger {s : Scheduler} {job : ScheduledJob} : (s.board job).Ledger ↔ s.Ledger := by
  have hholds : ∀ w t, ((s.board job).holds w).count t =
      (s.workersQueue.get w).elim 0 fun worker => worker.assignments.count t := by
    intro w t
    rw [Board.holds, board_workers]
    cases s.workersQueue.get w <;> rfl
  have hheld : ∀ w t, ((s.board job).heldBy t).count w =
      (s.tasksQueue.get t).elim 0 fun task => task.assignments.count w := by
    intro w t
    rw [Board.heldBy, board_tasks]
    cases s.tasksQueue.get t <;> rfl
  constructor
  · intro h w t
    rw [← hholds, ← hheld, h w t]
  · intro h w t
    rw [hholds, hheld, h w t]

/-- No move of the event is one that the books do not survive. -/
def LedgerStep (s : Scheduler) (e : Event) : Prop :=
  ∀ job ∈ s.scheduledJob, Along Board.move Board.LedgerSafe (s.board job) (s.moves job e)

instance (s : Scheduler) (e : Event) : Decidable (s.LedgerStep e) := by
  unfold LedgerStep
  infer_instance

/-- What is true of every gift is true along a turn of the scheduling branch. -/
theorem along_gives {P : Board → Move → Prop} (hgive : ∀ b w t, P b (.give w t))
    (huse : ∀ b w, P b (.useReplacement w)) (b : Board) (w : WorkerId) (tasks : List WorkerTask)
    (replacements : List (TaskId × WorkerTask)) :
    Along Board.move P b ((tasks.map fun t => .give w t.id) ++
      replacements.flatMap (replacementMoves w)) := by
  apply along_of_forall
  intro m hm b
  rcases List.mem_append.mp hm with hm | hm
  · obtain ⟨t, _, rfl⟩ := List.mem_map.mp hm
    exact hgive b w t.id
  · obtain ⟨r, _, hm⟩ := List.mem_flatMap.mp hm
    rcases List.mem_cons.mp hm with rfl | hm
    · exact huse b w
    · rw [List.mem_singleton.mp hm]
      exact hgive b w r.2.id

/-- The moves of a step that meets the condition are safe. -/
theorem LedgerStep.along {s : Scheduler} {e : Event} {job : ScheduledJob} {ms : List Move}
    (h : s.LedgerStep e) (hj : s.scheduledJob = some job) (traces : Traces checks s job e ms) :
    Along Board.move Board.LedgerSafe (s.board job) ms := by
  cases traces with
  | event _ _ => exact h job hj
  | idle => trivial
  | schedule tasks replacements => exact along_gives (fun _ _ _ => trivial) (fun _ _ => trivial) ..

theorem ledger_of_run {config : Config} {es : List Event} {out : List Sent} {s : Scheduler}
    {job : ScheduledJob} (run : Run (step checks) LedgerStep (Scheduler.new config) es out s)
    (hj : s.scheduledJob = some job) : s.Ledger := by
  refine board_ledger.mp (run_books (I := Board.Ledger) (fun _ _ => rfl) ?_ run job hj)
  intro t job e ms _ hj met traces hI
  exact along_invariant (fun _ _ safe h => h.move _ safe) (met.along hj traces) hI

/-- In every run whose steps are safe, the assignment ledger is two-sided while there is a job. -/
theorem run_ledger {config : Config} {es : List Event} {out : List Sent} {s : Scheduler}
    (run : Run (step checks) LedgerStep (Scheduler.new config) es out s)
    (hj : s.scheduledJob.isSome) : s.Ledger := by
  obtain ⟨job, hj⟩ := Option.isSome_iff_exists.mp hj
  exact ledger_of_run run hj

/-- The tasks a message reports. -/
def reported : WorkerResponse → List TaskId
  | .result result => [result.id]
  | .error (.libraryMissing tasks replacements) => tasks ++ replacements.map Prod.snd
  | .error (.taskExecutionError t _) => [t]
  | .error (.noFreeExecutors tasks) => tasks

/-- The sender of a message was sent every task it reports, and has not reported it before. -/
def ReportsOwn (s : Scheduler) : Event → Prop
  | .worker (.message w response) => ∀ v ∈ s.workersQueue.get w, ∀ t ∈ reported response,
      t ∈ v.assignments ∨ t ∈ v.replacements
  | _ => True

instance (s : Scheduler) (e : Event) : Decidable (s.ReportsOwn e) := by
  unfold ReportsOwn
  split <;> infer_instance

section SmallRuns

/-- A scheduler that gives a job up after one failed execution of a task. -/
def smallConfig : Config :=
  { failedExecutionsLimit := 0, nodeManagerAddress := ⟨[127, 0, 0, 1], 7000⟩ }

def smallPlatform : Platform := ⟨.wasm32, .unknown, .unknown⟩

def jobOf (totalTasks : Nat) : Event :=
  .taskManager (.message (.newJob 7 totalTasks ⟨[], [(smallPlatform, [1])], by decide⟩))

def tasksOf (ids : List TaskId) : Event :=
  .taskManager (.message (.task (ids.map fun id => ⟨id, []⟩)))

def joinOf (w : WorkerId) (subworkers : Nat) : Event :=
  .worker (.connected ⟨w, subworkers, ⟨[127, 0, 0, 1], 7001⟩, smallPlatform⟩ ⟨w⟩)

def resultOf (w : WorkerId) (t : TaskId) : Event := .worker (.message w (.result ⟨t, 5, []⟩))

end SmallRuns

/-- Two workers share a task, one completes it, and both stay on the books. -/
theorem run_ledger_small : ∃ out s,
    Run (step true) LedgerStep (Scheduler.new smallConfig)
      [jobOf 2, tasksOf [0, 1], joinOf 1 2, .schedule, joinOf 2 1, .schedule, resultOf 2 1] out s ∧
      s.scheduledJob.isSome ∧ s.Ledger := by
  obtain ⟨s, out, run, hj⟩ := exists_run (step true) LedgerStep (Scheduler.new smallConfig)
    [jobOf 2, tasksOf [0, 1], joinOf 1 2, .schedule, joinOf 2 1, .schedule, resultOf 2 1]
    (fun r => r.1.scheduledJob.isSome) (by decide +kernel)
  exact ⟨out, s, run, hj, run_ledger run hj⟩

/-- The worker that was beaten to a task reports it too: another task is struck off its
assignments, and that task still lists the worker. -/
theorem run_ledger_fails : ∃ out s,
    Run (step true) ReportsOwn (Scheduler.new smallConfig)
      [jobOf 2, tasksOf [0, 1], joinOf 1 2, .schedule, joinOf 2 1, .schedule, resultOf 2 1,
        resultOf 1 1] out s ∧
      s.scheduledJob.isSome ∧ ¬ s.Ledger := by
  obtain ⟨s, out, run, h⟩ := exists_run (step true) ReportsOwn (Scheduler.new smallConfig)
    [jobOf 2, tasksOf [0, 1], joinOf 1 2, .schedule, joinOf 2 1, .schedule, resultOf 2 1,
      resultOf 1 1]
    (fun r => r.1.scheduledJob.isSome &&
      decide ((r.1.tasksQueue.get 0).elim 0 (fun task => task.assignments.count 1) ≠
        (r.1.workersQueue.get 1).elim 0 fun worker => worker.assignments.count 0))
    (by decide +kernel)
  rw [Bool.and_eq_true, decide_eq_true_eq] at h
  exact ⟨out, s, run, h.1, fun ledger => h.2 (ledger 1 0)⟩

end Scheduler
end GridServer
