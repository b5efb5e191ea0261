import GridServer.Scheduler.Capacity
import GridServer.Shared.PriorityQueueFaults

namespace GridServer
open Library

/-- A comparison of this worker's priority does not go below zero. -/
def Worker.Roomy (bits : Nat) (v : Worker) : Prop :=
  bits = 64 → v.assignments.length ≤ v.subworkers

theorem Worker.cmpPriority_spares {bits : Nat} {checks : Bool} (a b : Worker) (ha : a.Roomy bits)
    (hb : b.Roomy bits) : Spares (.subOverflow bits) (Worker.cmpPriority checks a b) :=
  (subBits_spares checks ha).bind fun _ _ => (subBits_spares checks hb).bind fun _ _ =>
    spares_pure _ _

theorem Task.cmpPriority_spares {bits : Nat} (a b : Task) (_ : True) (_ : True) :
    Spares (.subOverflow bits) (Task.cmpPriority a b) := spares_ok _ _

/-- The counter covers what a move takes off it. -/
def Board.Covers (b : Board) : Move → Prop
  | .report w t _ => (b.workers w).isSome → ∀ ws ∈ b.tasks t, ws.isEmpty.toNat ≤ b.scheduled
  | .leave w =>
    Along (abandon w) (fun b t => ∀ ws ∈ b.tasks t, (withdraw ws w).isEmpty.toNat ≤ b.scheduled)
      { b with workers := Function.update b.workers w none } (b.holds w)
  | _ => True

namespace Scheduler
variable {bits : Nat} {checks : Bool} {s : Scheduler} {job : ScheduledJob}

/-- Every move of `ms` finds the 128-bit counter large enough. -/
def Covered (bits : Nat) (b : Board) (ms : List Move) : Prop :=
  Along Board.move (fun b m => bits = 128 → b.Covers m) b ms

/-- Every worker of the queue can be compared. -/
def AllRoomy (bits : Nat) (q : PriorityQueue Worker) : Prop := q.AllGood (Worker.Roomy bits)

theorem allTrue (q : PriorityQueue Task) : q.AllGood fun _ => True := fun _ _ _ => trivial

theorem releaseFinished_spares (r : RefMut Worker) (t : TaskId) :
    Spares (.subOverflow bits) (r.releaseFinished t) := by
  unfold RefMut.releaseFinished
  split
  · split <;> simp
  · simp

section Reports
variable {q : PriorityQueue Worker} {w : WorkerId} {b : Borrowed}

theorem report_spares (due : Option TaskId) {edit : RefMut Task → Except Fault (RefMut Task)}
    {after : RefMut Worker → RefMut Worker} (he : Unrecorded edit)
    (hs : ∀ r, Spares (.subOverflow bits) (edit r)) {t : TaskId} (ready : b.Ready job q w)
    (covers : bits = 128 → (b.board q.get).Covers (.report w t due)) :
    Spares (.subOverflow bits) (report checks edit after b t) := by
  unfold report
  split
  · exact (releaseFinished_spares _ t).bind fun _ _ => spares_pure _ _
  · rename_i task htask
    obtain ⟨v, hv, rfl⟩ := PriorityQueue.getMut_eq_some.mp htask
    refine (subBits_spares checks fun hbits => ?_).bind fun _ _ => (hs _).bind fun task' htask' => ?_
    · have htb : (b.board q.get).tasks t = some v.assignments := by
        simp [Borrowed.board, Board.of, hv]
      have := covers hbits (by simp [Borrowed.board, Board.of, ready.key]) v.assignments htb
      simpa [Task.hasAssignments, Borrowed.board, Board.of] using this
    · obtain ⟨hkey, _, _, hof⟩ := he _ _ htask'
      have hpresent := (hof _ ((RefMut.of_get hv).releaseWorker b.worker.key)).present
      exact (PriorityQueue.dropRefMut_spares Task.cmpPriority_spares ready.tasks.indexed
        (allTrue _) hpresent trivial).bind fun _ _ => spares_pure _ _

theorem reportTasks_spares {ts : List TaskId} (ready : b.Ready job q w)
    (covered : Covered bits (b.board q.get) (ts.map fun t => .report w t none)) :
    Spares (.subOverflow bits) (ts.foldlM (reportTask checks) b) :=
  foldlM_spares_along (R := fun b board => b.Ready job q w ∧ b.board q.get = board)
    (fun _ _ _ _ hR hb => by
      obtain ⟨hr, he⟩ := report_refines none unrecorded_ok (fun _ => rfl) hR.1 hb
      exact ⟨hr, hR.2 ▸ he⟩)
    (fun _ _ _ hR hcov => report_spares none unrecorded_ok (fun r => spares_ok _ r) hR.1
      (hR.2.symm ▸ hcov)) covered ⟨ready, rfl⟩

theorem reportReplacements_spares {rs : List (TaskId × TaskId)} (ready : b.Ready job q w)
    (covered : Covered bits (b.board q.get) (rs.map fun r => .report w r.2 (some r.1))) :
    Spares (.subOverflow bits) (rs.foldlM (reportReplacement checks) b) :=
  foldlM_spares_along (R := fun b board => b.Ready job q w ∧ b.board q.get = board)
    (fun r _ _ _ hR hb => by
      obtain ⟨hr, he⟩ := report_refines (some r.1) unrecorded_ok (fun _ => rfl) hR.1 hb
      exact ⟨hr, hR.2 ▸ he⟩)
    (fun r _ _ hR hcov => report_spares (some r.1) unrecorded_ok (fun r => spares_ok _ r) hR.1
      (hR.2.symm ▸ hcov)) covered ⟨ready, rfl⟩

/-- A worker that fits in the books can be compared. -/
theorem Borrowed.Ready.roomy (ready : b.Ready job q w)
    (fits : bits = 64 → (b.board q.get).Capacity) : b.worker.value.Roomy bits := by
  intro hbits
  have hb : (b.board q.get).workers w = some b.worker.value.holder := by
    simp [Borrowed.board, Board.of, ready.key]
  have := fits hbits w _ hb
  unfold Holder.Fits at this
  simp only [Worker.holder] at this
  omega

theorem putBack_spares (sound : s.Sound) (ready : b.Ready job s.workersQueue w)
    (roomy : AllRoomy bits s.workersQueue) (hv : b.worker.value.Roomy bits)
    (scheduledJob : Option ScheduledJob) (need : Bool) :
    Spares (.subOverflow bits) (s.putBack checks b scheduledJob need) :=
  (PriorityQueue.dropRefMut_spares Worker.cmpPriority_spares sound.workers.indexed roomy
    ready.borrow.present hv).bind fun _ _ => spares_pure _ _

end Reports

section Errors
variable {w : WorkerId}

theorem processLibraryMissing_spares (sound : s.Sound) (hj : s.scheduledJob = some job)
    (roomy : AllRoomy bits s.workersQueue) {tasks : List TaskId}
    {replacements : List (TaskId × TaskId)} {ms : List Move}
    (hms : ms = (tasks.map fun t => .report w t none) ++
      replacements.map fun r => .report w r.2 (some r.1))
    (covered : Covered bits (s.board job) ms)
    (fits : bits = 64 → (ms.foldl Board.move (s.board job)).Capacity) :
    Spares (.subOverflow bits) (s.processLibraryMissing checks w tasks replacements) := by
  subst hms
  rw [Covered, along_append] at covered
  simp only [processLibraryMissing, hj]
  split
  · rename_i hjob hw
    rw [Option.some.injEq] at hjob
    subst hjob
    obtain ⟨v, hv, rfl⟩ := PriorityQueue.getMut_eq_some.mp hw
    obtain ⟨ready, hbooks⟩ := borrow_same job sound hv rfl (sound.workers.keyed w v hv)
      ((RefMut.of_get hv).derefMut { v with hasJobData := false }) rfl
    refine (reportTasks_spares ready (hbooks ▸ covered.1)).bind fun b₁ h₁ => ?_
    obtain ⟨ready₁, hb₁⟩ := reportTasks_refines ready h₁
    rw [hbooks] at hb₁
    refine (reportReplacements_spares ready₁ (hb₁ ▸ covered.2)).bind fun b₂ h₂ => ?_
    obtain ⟨ready₂, hb₂⟩ := reportReplacements_refines ready₁ h₂
    refine (putBack_spares sound ready₂ roomy (ready₂.roomy fun hbits => ?_) _ _).bind
      fun _ _ => spares_pure _ _
    rw [hb₂, hb₁, ← List.foldl_append]
    exact fits hbits
  · exact spares_ok _ _

theorem processTaskExecutionError_spares (sound : s.Sound) (hj : s.scheduledJob = some job)
    (roomy : AllRoomy bits s.workersQueue) {t : TaskId} {error : String}
    (covered : Covered bits (s.board job) [.report w t none])
    (fits : bits = 64 → ((s.board job).move (.report w t none)).Capacity) :
    Spares (.subOverflow bits) (s.processTaskExecutionError checks w t error) := by
  simp only [processTaskExecutionError, hj]
  split
  · rename_i hjob hw
    rw [Option.some.injEq] at hjob
    subst hjob
    obtain ⟨v, hv, rfl⟩ := PriorityQueue.getMut_eq_some.mp hw
    obtain ⟨ready, hbooks⟩ := borrow_same job sound hv rfl (sound.workers.keyed w v hv)
      (RefMut.of_get hv) rfl
    have hcount : ∀ r, Spares (.subOverflow bits)
        (countFailure checks s.config.failedExecutionsLimit r) := by
      intro r
      unfold countFailure
      split
      · exact spares_ok _ _
      · exact (addBits_spares _ _ _ _ _).bind fun _ _ => spares_pure _ _
    refine (report_spares none (unrecorded_countFailure _) hcount ready
      (hbooks.symm ▸ covered.1)).bind fun b₁ h₁ => ?_
    obtain ⟨ready₁, hb₁⟩ := report_refines none (unrecorded_countFailure _) (fun _ => rfl) ready h₁
    have hroomy : b₁.worker.value.Roomy bits := ready₁.roomy fun hbits => by
      rw [hb₁, hbooks]
      exact fits hbits
    split
    · exact (putBack_spares sound ready₁ roomy hroomy _ _).bind fun _ _ => spares_pure _ _
    · exact (putBack_spares sound ready₁ roomy hroomy _ _).bind fun _ _ => spares_pure _ _
  · exact spares_ok _ _

theorem processNoFreeExecutors_spares (sound : s.Sound) (hj : s.scheduledJob = some job)
    (roomy : AllRoomy bits s.workersQueue) {tasks : List TaskId}
    (covered : Covered bits (s.board job) (refusal (s.board job) w tasks))
    (fits : bits = 64 → ((refusal (s.board job) w tasks).foldl Board.move (s.board job)).Capacity)
    (enough : bits = 64 → ∀ v ∈ s.workersQueue.get w, v.subworkers ≠ 0 →
      tasks.length ≤ v.subworkers) :
    Spares (.subOverflow bits) (s.processNoFreeExecutors checks w tasks) := by
  simp only [processNoFreeExecutors, hj]
  split
  · rename_i hjob hw
    rw [Option.some.injEq] at hjob
    subst hjob
    obtain ⟨v, hv, rfl⟩ := PriorityQueue.getMut_eq_some.mp hw
    have hb : (s.board job).workers w = some v.holder := by rw [board_workers, hv, Option.map_some]
    apply Spares.bind
    · unfold shrink
      split
      · rename_i hsub
        exact (subBits_spares checks fun hbits => enough hbits v hv hsub).bind
          fun _ _ => spares_pure _ _
      · exact spares_ok _ _
    intro shrunk hworker
    obtain ⟨worker, need⟩ := shrunk
    -- with subworkers the moves begin with `shrink`, without they do not
    obtain ⟨ready, ms, hms, hbooks⟩ : Borrowed.Ready job s.workersQueue w
          ⟨worker, s.tasksQueue, job⟩ ∧ ∃ ms, refusal (s.board job) w tasks =
            ms ++ tasks.map (fun t => .report w t none) ∧
          Borrowed.board s.workersQueue.get ⟨worker, s.tasksQueue, job⟩ =
            ms.foldl Board.move (s.board job) := by
      by_cases hsub : v.subworkers = 0
      · simp only [shrink, hsub, ne_eq, not_true_eq_false, ↓reduceIte, Except.ok.injEq,
          Prod.mk.injEq] at hworker
        obtain ⟨rfl, rfl⟩ := hworker
        obtain ⟨ready, hbooks⟩ := borrow_same job sound hv rfl (sound.workers.keyed w v hv)
          (RefMut.of_get hv) rfl
        exact ⟨ready, [], by simp [refusal, hb, Worker.holder, hsub], hbooks⟩
      · simp only [shrink, hsub, ne_eq, not_false_eq_true, ↓reduceIte, bind_ok, except_pure,
          Except.ok.injEq, Prod.mk.injEq] at hworker
        obtain ⟨n, hn, rfl, rfl⟩ := hworker
        obtain ⟨ready, hbooks⟩ := borrow_ready job sound hv rfl (sound.workers.keyed w v hv)
          ((RefMut.of_get hv).derefMut { v with subworkers := n })
        exact ⟨ready, [.shrink w tasks.length], by simp [refusal, hb, Worker.holder, hsub],
          hbooks (fun h => { h with subworkers := wrappingSub 64 h.subworkers tasks.length })
            (by rw [subBits_ok hn]; rfl)⟩
    rw [hms] at covered fits
    rw [Covered, along_append] at covered
    refine (reportTasks_spares ready (hbooks ▸ covered.2)).bind fun b₁ h₁ => ?_
    obtain ⟨ready₁, hb₁⟩ := reportTasks_refines ready h₁
    refine (putBack_spares sound ready₁ roomy (ready₁.roomy fun hbits => ?_) _ _).bind
      fun _ _ => spares_pure _ _
    rw [hb₁, hbooks, ← List.foldl_append]
    exact fits hbits
  · exact spares_ok _ _

end Errors

section Results
variable {w : WorkerId}

theorem roomy_release {v : Worker} (hv : v.Roomy bits) (t : TaskId) :
    Worker.Roomy bits { v with assignments := withdraw v.assignments t } :=
  fun hbits => Nat.le_trans (length_withdraw_le v.assignments t) (hv hbits)

/-- Dropping a comparable worker leaves comparable workers. -/
theorem dropWorker_spares {q : PriorityQueue Worker} {r : RefMut Worker} (hk : Keyed Worker.id q)
    (roomy : AllRoomy bits q) (hof : r.Of q) (hid : r.value.id = r.key) (hv : r.value.Roomy bits) :
    Spares (.subOverflow bits) (q.dropRefMut (Worker.cmpPriority checks) r) ∧
      ∀ q', q.dropRefMut (Worker.cmpPriority checks) r = .ok q' →
        Keyed Worker.id q' ∧ AllRoomy bits q' := by
  refine ⟨PriorityQueue.dropRefMut_spares Worker.cmpPriority_spares hk.indexed roomy hof.present hv,
    fun q' h => ?_⟩
  obtain ⟨hq, hget⟩ := hof.drop hk hid h
  exact ⟨hq, PriorityQueue.AllGood.update roomy hget (by rintro v ⟨⟩; exact hv)⟩

theorem replaceTask_spares {q : PriorityQueue Worker} (hk : Keyed Worker.id q)
    (roomy : AllRoomy bits q) (t : TaskId) :
    Spares (.subOverflow bits) (replaceTask checks t q w) ∧
      ∀ q', replaceTask checks t q w = .ok q' → Keyed Worker.id q' ∧ AllRoomy bits q' := by
  unfold replaceTask
  split
  · exact ⟨spares_ok _ _, fun q' h => Except.ok.inj h ▸ ⟨hk, roomy⟩⟩
  · rename_i worker hw
    obtain ⟨v, hv, rfl⟩ := PriorityQueue.getMut_eq_some.mp hw
    refine dropWorker_spares hk roomy (((RefMut.of_get hv).releaseTask t).addReplacement t)
      (by simpa using hk.keyed w v hv) ?_
    rw [RefMut.addReplacement_value, RefMut.releaseTask_value]
    exact roomy_release (roomy w v hv) t

theorem settleReporter_spares {q : PriorityQueue Worker} (hk : Keyed Worker.id q)
    (roomy : AllRoomy bits q) (t : TaskId) :
    Spares (.subOverflow bits) (settleReporter checks q w t) ∧
      ∀ q', settleReporter checks q w t = .ok q' → Keyed Worker.id q' ∧ AllRoomy bits q' := by
  unfold settleReporter
  split
  · exact ⟨spares_ok _ _, fun q' h => Except.ok.inj h ▸ ⟨hk, roomy⟩⟩
  · rename_i worker hw
    obtain ⟨v, hv, rfl⟩ := PriorityQueue.getMut_eq_some.mp hw
    refine dropWorker_spares hk roomy ((RefMut.of_get hv).releaseTask t)
      (by simpa using hk.keyed w v hv) ?_
    rw [RefMut.releaseTask_value]
    exact roomy_release (roomy w v hv) t

theorem settleWorkers_spares {q : PriorityQueue Worker} (hk : Keyed Worker.id q)
    (roomy : AllRoomy bits q) (t : TaskId) (task : Task) :
    Spares (.subOverflow bits) (settleWorkers checks q w t task) := by
  unfold settleWorkers
  obtain ⟨hspares, hkept⟩ := @settleReporter_spares bits checks w q hk roomy t
  refine hspares.bind fun q₁ h₁ => ?_
  exact foldlM_spares (I := fun _ q => Keyed Worker.id q ∧ AllRoomy bits q)
    (fun _ _ _ hI => (replaceTask_spares hI.1 hI.2 t).1)
    (fun _ _ _ q' hI h => (replaceTask_spares hI.1 hI.2 t).2 q' h) (hkept q₁ h₁)

theorem nextAverage_spares (job : ScheduledJob) (completedTasks : Nat) (time : Duration) :
    Spares (.subOverflow bits) (nextAverage job completedTasks time) := by
  have hdiv : ∀ a b, Spares (.subOverflow bits) (u128Div a b) := by
    intro a b
    unfold u128Div
    split <;> simp
  exact (hdiv _ _).bind fun _ _ => (hdiv _ _).bind fun _ _ => spares_pure _ _

theorem bufferPush_spares {T : Type} {N : Nat} (buffer : Buffer T N) (item : T) (h : 0 < N) :
    Spares (.subOverflow bits) (buffer.push item) := by
  obtain ⟨b, ⟨_, he, _⟩ | ⟨_, he, _⟩⟩ := Buffer.push_eq buffer item h
  · exact he ▸ spares_ok _ _
  · exact he ▸ spares_ok _ _

theorem processResult_spares (sound : s.Sound) (roomy : AllRoomy bits s.workersQueue)
    (result : WorkerResult) : Spares (.subOverflow bits) (s.processResult checks w result) := by
  unfold processResult
  split
  · exact spares_ok _ _
  apply (PriorityQueue.remove_spares Task.cmpPriority_spares sound.tasks.indexed (allTrue _)
    result.id).bind
  intro r _
  obtain ⟨tasksQueue, removed⟩ := r
  dsimp only
  split
  · unfold lateResult
    split
    · exact spares_ok _ _
    · rename_i worker hw
      obtain ⟨v, hv, rfl⟩ := PriorityQueue.getMut_eq_some.mp hw
      refine (releaseFinished_spares _ _).bind fun worker' hworker => ?_
      obtain ⟨hkey, ⟨ts, hts⟩, hholder, hof⟩ := RefMut.releaseFinished_ok hworker
      refine (PriorityQueue.dropRefMut_spares Worker.cmpPriority_spares sound.workers.indexed roomy
        (hof (RefMut.of_get hv)).present fun hbits => ?_).bind fun _ _ => spares_pure _ _
      have hle := v.holder.releaseFinished_length result.id
      have hroom := roomy w v hv hbits
      rw [← hholder] at hle
      rw [hts]
      simp only [hts, Worker.holder] at hle ⊢
      omega
  · apply (addBits_spares _ _ _ _ _).bind
    intro _ _
    apply (nextAverage_spares _ _ _).bind
    intro _ _
    apply (bufferPush_spares _ _ (by omega)).bind
    intro pushed _
    obtain ⟨_, _⟩ := pushed
    apply (settleWorkers_spares sound.workers roomy _ _).bind
    intro _ _
    dsimp only
    split
    · rw [Buffer.filledSlice_eq]
      exact spares_ok _ _
    · exact spares_pure _ _

end Results

section Workers
variable {w : WorkerId}

theorem abandonTask_spares (workers : WorkerId → Option Worker)
    {held : PriorityQueue Task × ScheduledJob} {t : TaskId} (hk : Keyed Task.key held.1)
    (covers : bits = 128 → ∀ ws ∈ (Board.of held.1.get workers held.2).tasks t,
      (withdraw ws w).isEmpty.toNat ≤ held.2.scheduledTasks) :
    Spares (.subOverflow bits) (abandonTask checks w held t) := by
  unfold abandonTask
  split
  · exact spares_ok _ _
  · rename_i task ht
    obtain ⟨v, hv, rfl⟩ := PriorityQueue.getMut_eq_some.mp ht
    refine (subBits_spares checks fun hbits => ?_).bind fun _ _ => ?_
    · have := covers hbits v.assignments (by simp [Board.of, hv])
      simpa [Task.hasAssignments] using this
    · exact (PriorityQueue.dropRefMut_spares Task.cmpPriority_spares hk.indexed (allTrue _)
        ((RefMut.of_get hv).releaseWorker w).present trivial).bind fun _ _ => spares_pure _ _

theorem processWorkerDisconnect_spares (sound : s.Sound) (roomy : AllRoomy bits s.workersQueue)
    (covered : ∀ job, s.scheduledJob = some job → Covered bits (s.board job) [.leave w]) :
    Spares (.subOverflow bits) (s.processWorkerDisconnect checks w) := by
  unfold processWorkerDisconnect
  apply (PriorityQueue.remove_spares Worker.cmpPriority_spares sound.workers.indexed roomy w).bind
  intro r hr
  obtain ⟨workersQueue, removed⟩ := r
  rcases PriorityQueue.remove_content sound.workers.indexed hr with
    ⟨rfl, rfl, _⟩ | ⟨v, rfl, hv, hi, hget⟩
  · exact spares_pure _ _
  · dsimp only
    split
    · rename_i job hj
      refine Spares.bind ?_ fun _ _ => spares_pure _ _
      have hb : (s.board job).workers w = some v.holder := by
        rw [board_workers, hv, Option.map_some]
      have along : Along (Board.abandon w) (fun b t => bits = 128 → ∀ ws ∈ b.tasks t,
          (withdraw ws w).isEmpty.toNat ≤ b.scheduled)
          { s.board job with workers := Function.update (s.board job).workers w none }
          (v.assignments.map id) := by
        by_cases hbits : bits = 128
        · have := (covered job hj).1 hbits
          simp only [Board.Covers, Board.holds, hb] at this
          simpa [hbits, Worker.holder] using this
        · exact along_of_forall fun _ _ _ h => absurd h hbits
      refine foldlM_spares_along (R := fun held board => Keyed Task.key held.1 ∧
        Board.of held.1.get workersQueue.get held.2 = board) ?_ ?_ along ⟨sound.tasks, ?_⟩
      · intro t held held' board hR ht
        obtain ⟨hk, _, _, he⟩ := abandonTask_refines workersQueue.get hR.1 ht
        exact ⟨hk, he.trans (by rw [hR.2]; rfl)⟩
      · rintro t held _ ⟨hk, rfl⟩ hcov
        exact abandonTask_spares workersQueue.get hk hcov
      · exact board_without job hget
    · exact spares_pure _ _

theorem processConnected_spares (sound : s.Sound) (roomy : AllRoomy bits s.workersQueue)
    (info : WorkerInfo) (node : Node) :
    Spares (.subOverflow bits) (s.processConnected checks info node) :=
  (PriorityQueue.push_spares Worker.cmpPriority_spares sound.workers.indexed roomy
    (fun _ => Nat.zero_le _)).bind fun _ _ => spares_pure _ _

end Workers

section Managers

theorem processTaskBatch_spares (sound : s.Sound) (batch : List WorkerTask) :
    Spares (.subOverflow bits) (s.processTaskBatch checks batch) := by
  unfold processTaskBatch
  split
  · exact spares_ok _ _
  · refine (addBits_spares _ _ _ _ _).bind fun _ _ => Spares.bind ?_ fun _ _ => spares_pure _ _
    refine foldlM_spares (I := fun _ q => Keyed Task.key q) (fun taskData _ q hk => ?_)
      (fun taskData _ q q' hk h => ?_) sound.tasks
    · exact (PriorityQueue.push_spares Task.cmpPriority_spares hk.indexed (allTrue _) trivial).bind
        fun _ _ => spares_pure _ _
    · exact (queueTask_content hk h).1

theorem processCreatedSession_spares (sound : s.Sound) :
    Spares (.subOverflow bits) s.processCreatedSession := by
  unfold processCreatedSession
  split
  · exact spares_ok _ _
  · dsimp only
    split
    · exact spares_ok _ _
    · exact (PriorityQueue.mapValues_spares Task.cmpPriority_spares sound.tasks.indexed
        (fun _ _ _ => trivial)).bind fun _ _ => spares_pure _ _

theorem firstValues_spares {V : Type} (q : PriorityQueue V) (limit : Nat) :
    Spares (.subOverflow bits) (q.firstValues limit) := by
  unfold PriorityQueue.firstValues
  induction q.heap.take limit with
  | nil => exact spares_pure _ _
  | cons id ids ih =>
    rw [List.mapM_cons]
    refine Spares.bind ((PriorityQueue.getUnchecked_spares _ _).bind fun _ _ => spares_pure _ _)
      fun _ _ => ih.bind fun _ _ => spares_pure _ _

end Managers

section Scheduling
variable {g : Giving} {q : PriorityQueue Worker} {w : WorkerId}

theorem offered_spares (g : Giving) : Spares (.subOverflow bits) g.offered := by
  unfold Giving.offered
  refine PriorityQueue.peekMut_spares.bind fun r _ => ?_
  split <;> exact spares_pure _ _

theorem give_spares {task : RefMut Task} (ready : g.Ready job q w)
    (hv : g.tasksQueue.get task.key = some task.value) :
    Spares (.subOverflow bits) (g.give checks task) :=
  (PriorityQueue.dropPeekMut_spares Task.cmpPriority_spares ready.tasks.indexed (allTrue _)
    (by simp [hv]) trivial).bind fun _ _ => (addBits_spares _ _ _ _ _).bind fun _ _ =>
      spares_pure _ _

theorem giveTasks_spares {n : Nat} {tasks : List WorkerTask} (ready : g.Ready job q w) :
    Spares (.subOverflow bits) (giveTasks checks n g tasks) := by
  induction n generalizing g tasks with
  | zero => exact spares_ok _ _
  | succ n ih =>
    refine (offered_spares g).bind fun offer ho => ?_
    cases offer with
    | none => exact spares_pure _ _
    | some task =>
      obtain ⟨_, _, hv, _⟩ := Giving.offered_some ho
      exact (give_spares ready hv).bind fun g₁ h₁ => ih (give_refines ready hv h₁).1

theorem giveReplacements_spares {n : Nat} {rs : List (TaskId × WorkerTask)}
    (ready : g.Ready job q w) : Spares (.subOverflow bits) (giveReplacements checks n g rs) := by
  induction n generalizing g rs with
  | zero => exact spares_ok _ _
  | succ n ih =>
    refine (offered_spares g).bind fun offer ho => ?_
    cases offer with
    | none => exact spares_pure _ _
    | some task =>
      obtain ⟨_, _, hv, _⟩ := Giving.offered_some ho
      have ready₀ := (popped_refines ready).1
      dsimp only
      split
      · exact (give_spares ready₀ hv).bind fun g₁ h₁ => ih (give_refines ready₀ hv h₁).1
      · exact ih ready₀

theorem processScheduling_spares (sound : s.Sound) (fits : bits = 64 → s.Capacity) :
    Spares (.subOverflow bits) (s.processScheduling checks) := by
  unfold processScheduling
  split
  · exact spares_ok _ _
  rename_i job hj
  refine PriorityQueue.peekMut_spares.bind fun peeked hp => ?_
  rcases PriorityQueue.peekMut_ok hp with ⟨rfl, _⟩ | ⟨w, v, rfl, _, hv⟩
  · exact spares_pure _ _
  refine (subBits_spares checks fun hbits => fits hbits w v hv).bind fun n hn => ?_
  dsimp only
  split
  · have ready : Giving.Ready job s.workersQueue w
        ⟨job, s.tasksQueue, ⟨w, v, false⟩, s.needSchedule⟩ :=
      ⟨.refl job, rfl, sound.tasks, rfl, sound.workers.keyed w v hv, RefMut.of_get hv⟩
    apply (giveTasks_spares ready).bind
    intro r h₁
    obtain ⟨g₁, tasks⟩ := r
    obtain ⟨_, _, _, ready₁, _⟩ := giveTasks_refines ready h₁
    apply (giveReplacements_spares ready₁).bind
    intro r h₂
    obtain ⟨g₂, replacements⟩ := r
    obtain ⟨_, _, _, _, ready₂, _⟩ := giveReplacements_refines ready₁ (Nat.le_refl _) h₂
    have hof := dispatch_of (s := s) ready₂.borrow tasks replacements
    refine Spares.bind (x := s.workersQueue.dropPeekMut (Worker.cmpPriority checks)
      (s.dispatch g₂ tasks replacements).1) ?_ fun _ _ => spares_pure _ _
    exact PriorityQueue.dropPeekMut_spares Worker.cmpPriority_spares sound.workers.indexed
      (fun w v hv hbits => Nat.le_trans (Nat.le_add_right _ _) (fits hbits w v hv)) hof.present
      fun hbits => dispatch_fits ready hn (fits hbits w v hv) h₁ h₂
  · exact spares_pure _ _

end Scheduling

/-- No step goes below zero on integers of `bits` bits: not on 64 while everything fits, and not
on 128 while the counter covers what the moves take off it. -/
theorem step_spares {e : Event} (sound : s.Sound) (fits : bits = 64 → s.Capacity)
    (met : bits = 64 → s.CapacityStep e)
    (covered : ∀ job, s.scheduledJob = some job → Covered bits (s.board job) (s.moves job e)) :
    Spares (.subOverflow bits) (s.step checks e) := by
  have roomy : AllRoomy bits s.workersQueue := fun w v hv hbits =>
    Nat.le_trans (Nat.le_add_right _ _) (fits hbits w v hv)
  have after : ∀ job, s.scheduledJob = some job → e ≠ .schedule → bits = 64 →
      ((s.moves job e).foldl Board.move (s.board job)).Capacity := fun job hj hne hbits =>
    (met hbits).traces hj (show Traces checks s job e _ from .event e hne)
      (board_capacity.mpr (fits hbits))
  match e with
  | .schedule =>
    simp only [step]
    split
    · exact processScheduling_spares sound fits
    · simp
  | .command .scheduledJob => exact spares_ok _ _
  | .command (.workers limit) => exact (firstValues_spares _ _).bind fun _ _ => spares_pure _ _
  | .command (.tasks limit) => exact (firstValues_spares _ _).bind fun _ _ => spares_pure _ _
  | .taskManager (.message .helloMessage) => exact spares_ok _ _
  | .taskManager (.message (.newJob _ _ _)) => exact spares_ok _ _
  | .taskManager (.message (.task batch)) => exact processTaskBatch_spares sound batch
  | .taskManager .disconnect =>
    simp only [step, processTaskManager]
    split <;> exact spares_ok _ _
  | .taskManager (.connected _) => exact spares_ok _ _
  | .nodeManager (.message (.connect _)) => exact spares_ok _ _
  | .nodeManager (.message (.disconnect w)) =>
    exact (processWorkerDisconnect_spares sound roomy covered).bind fun _ _ => spares_pure _ _
  | .nodeManager (.message .restoredSession) => exact spares_ok _ _
  | .nodeManager (.message .createdSession) => exact processCreatedSession_spares sound
  | .nodeManager .disconnected => exact spares_ok _ _
  | .nodeManager .connected => exact spares_ok _ _
  | .nodeManager .connectionNotEstablished => simp [step, processNodeManager]
  | .worker (.connected info node) => exact processConnected_spares sound roomy info node
  | .worker (.disconnected w) =>
    exact (processWorkerDisconnect_spares sound roomy covered).bind fun _ _ => spares_pure _ _
  | .worker (.message w (.result result)) => exact processResult_spares sound roomy result
  | .worker (.message w (.error error)) =>
    cases hj : s.scheduledJob with
    | none =>
      cases error <;> simp [step, processWorkers, processLibraryMissing,
        processTaskExecutionError, processNoFreeExecutors, hj]
    | some job =>
      have cov := covered job hj
      have fits' := after job hj (by rintro ⟨⟩)
      cases error with
      | libraryMissing tasks replacements =>
        exact processLibraryMissing_spares sound hj roomy rfl cov fits'
      | taskExecutionError t error =>
        exact processTaskExecutionError_spares sound hj roomy cov fits'
      | noFreeExecutors tasks =>
        refine processNoFreeExecutors_spares sound hj roomy cov fits' fun hbits v hv hsub => ?_
        exact (Board.refusal_worker (v := v.holder) (by rw [board_workers, hv, Option.map_some])
          hsub (met hbits job hj)).1

/-- In every run whose steps let no replacement outgrow its worker, every worker's assignments and
replacements fit its subworkers, and none of the subtractions on them goes below zero. -/
theorem run_capacity {config : Config} {es : List Event} {out : List Sent}
    (run : Run (step checks) CapacityStep (Scheduler.new config) es out s) :
    s.Capacity ∧ ∀ e, s.CapacityStep e → Spares (.subOverflow 64) (s.step true e) := by
  have fits := capacity_of_run run
  refine ⟨fits.2, fun e met => step_spares fits.1 (fun _ => fits.2) (fun _ => met) ?_⟩
  exact fun _ _ => along_of_forall fun _ _ _ h => absurd h (by decide)

/-- Two workers share a task, one completes it, and the other still fits. -/
theorem run_capacity_small : ∃ out s,
    Run (step true) CapacityStep (Scheduler.new smallConfig)
      [jobOf 2, tasksOf [0, 1], joinOf 1 2, .schedule, joinOf 2 1, .schedule, resultOf 2 1] out s ∧
      s.Capacity ∧ Spares (.subOverflow 64) (s.step true .schedule) := by
  obtain ⟨s, out, run, _⟩ := exists_run (step true) CapacityStep (Scheduler.new smallConfig)
    [jobOf 2, tasksOf [0, 1], joinOf 1 2, .schedule, joinOf 2 1, .schedule, resultOf 2 1]
    (fun _ => true) (by decide +kernel)
  obtain ⟨fits, spares⟩ := run_capacity run
  exact ⟨out, s, run, fits, spares .schedule fun _ _ => trivial⟩

/-- A worker turns down two tasks, one of which another has completed meanwhile: for that one the
other task is struck off its assignments, and its subworkers run out while a replacement is due. -/
theorem run_capacity_fails : ∃ out s,
    Run (step true) ReportsOwn (Scheduler.new smallConfig)
      [jobOf 2, tasksOf [0, 1], joinOf 1 2, .schedule, joinOf 2 1, .schedule, resultOf 2 1,
        .worker (.message 1 (.error (.noFreeExecutors [1, 0]))), .worker (.disconnected 2)] out s ∧
      ¬ s.Capacity ∧ ¬ Spares (.subOverflow 64) (s.step true .schedule) := by
  obtain ⟨s, out, run, h⟩ := exists_run (step true) ReportsOwn (Scheduler.new smallConfig)
    [jobOf 2, tasksOf [0, 1], joinOf 1 2, .schedule, joinOf 2 1, .schedule, resultOf 2 1,
      .worker (.message 1 (.error (.noFreeExecutors [1, 0]))), .worker (.disconnected 2)]
    (fun r => (r.1.workersQueue.get 1).any (fun v =>
        decide (v.subworkers < v.assignments.length + v.replacements.length)) &&
      match r.1.step true .schedule with
      | .error f => f == .subOverflow 64
      | .ok _ => false) (by decide +kernel)
  simp only [Bool.and_eq_true, Option.any_eq_true, decide_eq_true_eq] at h
  obtain ⟨⟨v, hv, hover⟩, hstep⟩ := h
  refine ⟨out, s, run, fun fits => absurd (fits 1 v hv) (by omega), fun spares => ?_⟩
  split at hstep
  · rename_i f hf
    exact spares (hf.trans (by rw [beq_iff_eq.mp hstep]))
  · cases hstep

end Scheduler
end GridServer
