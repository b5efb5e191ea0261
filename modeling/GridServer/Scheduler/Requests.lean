import GridServer.Scheduler.Progress
import Mathlib.Data.Nat.ModEq

namespace GridServer.Scheduler
open Library

variable {checks : Bool} {s s' : Scheduler} {job : ScheduledJob} {out : List Sent}

/-- The named tasks that are queued and that no worker has. -/
def freshTasks (tasks : TaskId → Option Task) (ids : List TaskId) : Finset TaskId :=
  ids.toFinset.filter fun t => (tasks t).any fun task => !task.hasAssignments

/-- What the tasks of `given` leave in the queue and in the counter, once `w` has them. -/
structure Granted (w : WorkerId) (given : List WorkerTask) (g g' : Giving) : Prop where
  queued : ∀ d ∈ given, ∃ task, g.tasksQueue.get d.id = some task ∧ task.taskData = d
  tasks : ∀ t, g'.tasksQueue.get t = (g.tasksQueue.get t).map fun task =>
    { task with
      assignments := task.assignments ++ List.replicate ((given.map WorkerTask.id).count t) w }
  job : ∃ n, g'.job = { g.job with scheduledTasks := n }
  still : given = [] → g'.job = g.job
  scheduled : g'.job.scheduledTasks ≡ g.job.scheduledTasks +
    (freshTasks g.tasksQueue.get (given.map WorkerTask.id)).card [MOD 2 ^ 128]
  fits : g.job.scheduledTasks < 2 ^ 128 → g'.job.scheduledTasks < 2 ^ 128

theorem wrappingAdd_modEq (bits a b : Nat) : wrappingAdd bits a b ≡ a + b [MOD 2 ^ bits] := by
  unfold wrappingAdd
  split
  · exact .rfl
  · rename_i h
    have hle : 2 ^ bits ≤ a + b := Nat.le_of_not_lt h
    exact (Nat.modEq_iff_dvd' (Nat.sub_le _ _)).mpr (by
      rw [Nat.sub_sub_self hle])

theorem wrappingAdd_lt {bits a b : Nat} (ha : a < 2 ^ bits) (hb : b ≤ 2 ^ bits) :
    wrappingAdd bits a b < 2 ^ bits := by
  unfold wrappingAdd
  split <;> omega

namespace Granted
variable {w : WorkerId} {given given' : List WorkerTask} {g g' g'' : Giving}

theorem refl (w : WorkerId) (g : Giving) : Granted w [] g g := by
  refine ⟨?_, ?_, ⟨_, rfl⟩, fun _ => rfl, .rfl, id⟩
  · intro d hd
    cases hd
  · intro t
    simp

/-- Neither the worker nor the flag has a part in it. -/
theorem congr {k k' : Giving} (h : Granted w given g g') (htasks : k.tasksQueue = g.tasksQueue)
    (hjob : k.job = g.job) (htasks' : k'.tasksQueue = g'.tasksQueue) (hjob' : k'.job = g'.job) :
    Granted w given k k' := by
  refine ⟨?_, ?_, ?_, ?_, ?_, ?_⟩
  · rw [htasks]
    exact h.queued
  · rw [htasks, htasks']
    exact h.tasks
  · rw [hjob, hjob']
    exact h.job
  · rw [hjob, hjob']
    exact h.still
  · rw [hjob, hjob', htasks]
    exact h.scheduled
  · rw [hjob, hjob']
    exact h.fits

/-- A task that is given twice is fresh at most the first time. -/
theorem fresh_append (h : Granted w given g g') (ids : List TaskId) :
    (freshTasks g.tasksQueue.get (given.map WorkerTask.id ++ ids)).card =
      (freshTasks g.tasksQueue.get (given.map WorkerTask.id)).card +
        (freshTasks g'.tasksQueue.get ids).card := by
  have hfresh : ∀ t, t ∈ freshTasks g'.tasksQueue.get ids ↔
      t ∈ freshTasks g.tasksQueue.get ids ∧ t ∉ given.map WorkerTask.id := by
    intro t
    simp only [freshTasks, Finset.mem_filter, List.mem_toFinset, h.tasks t, and_assoc]
    refine and_congr_right fun _ => ?_
    cases g.tasksQueue.get t with
    | none => simp
    | some task =>
      simp [Task.hasAssignments, List.count_eq_zero]
  rw [← Finset.card_union_of_disjoint]
  · congr 1
    ext t
    rw [Finset.mem_union, hfresh]
    simp only [freshTasks, Finset.mem_filter, List.mem_toFinset, List.mem_append]
    tauto
  · rw [Finset.disjoint_left]
    intro t ht ht'
    rw [freshTasks, Finset.mem_filter, List.mem_toFinset] at ht
    exact ((hfresh t).mp ht').2 ht.1

theorem trans (h : Granted w given g g') (h' : Granted w given' g' g'') :
    Granted w (given ++ given') g g'' := by
  refine ⟨?_, ?_, ?_, ?_, ?_, fun hlt => h'.fits (h.fits hlt)⟩
  · intro d hd
    rcases List.mem_append.mp hd with hd | hd
    · exact h.queued d hd
    · obtain ⟨task, htask, hdata⟩ := h'.queued d hd
      rw [h.tasks, Option.map_eq_some_iff] at htask
      obtain ⟨before, hbefore, rfl⟩ := htask
      exact ⟨before, hbefore, hdata⟩
  · intro t
    rw [h'.tasks, h.tasks, Option.map_map]
    refine congrArg (fun f => Option.map f _) (funext fun task => ?_)
    simp only [Function.comp_apply, List.map_append, List.count_append, List.append_assoc,
      List.replicate_append_replicate]
  · obtain ⟨n, hn⟩ := h.job
    obtain ⟨n', hn'⟩ := h'.job
    exact ⟨n', by rw [hn', hn]⟩
  · intro hnil
    obtain ⟨hgiven, hgiven'⟩ := List.append_eq_nil_iff.mp hnil
    exact (h'.still hgiven').trans (h.still hgiven)
  · rw [List.map_append, h.fresh_append, ← Nat.add_assoc]
    exact h'.scheduled.trans (h.scheduled.add_right _)

end Granted

/-- Giving a task out appends the worker to it. -/
theorem give_granted {g g' : Giving} {q : PriorityQueue Worker} {w : WorkerId} {task : RefMut Task}
    (ready : g.Ready job q w) (hv : g.tasksQueue.get task.key = some task.value)
    (h : g.give checks task = .ok g') : Granted w [task.value.taskData] g g' := by
  simp only [Giving.give, bind_ok, except_pure, Except.ok.injEq] at h
  obtain ⟨tasksQueue, hd, n, hn, rfl⟩ := h
  have hkey : task.value.taskData.id = task.key := ready.tasks.keyed _ _ hv
  have hof : (task.derefMut { task.value with
      assignments := task.value.assignments ++ [g.worker.value.id] }).Of g.tasksQueue :=
    ⟨by simp [hv], by simp [RefMut.derefMut]⟩
  obtain ⟨_, hget⟩ := hof.dropPeek ready.tasks hkey hd
  have hfresh : (freshTasks g.tasksQueue.get [task.key]).card =
      (!task.value.hasAssignments).toNat := by
    cases hb : task.value.hasAssignments <;> simp [freshTasks, Finset.filter_singleton, hv, hb]
  refine ⟨?_, ?_, ⟨n, rfl⟩, by simp, ?_, ?_⟩
  · intro d hd
    rw [List.mem_singleton.mp hd]
    exact ⟨task.value, by rw [hkey]; exact hv, rfl⟩
  · intro t
    rw [hget, RefMut.derefMut_key, RefMut.derefMut_value, ready.id]
    by_cases ht : t = task.key
    · subst ht
      simp [hv, hkey]
    · simp [Function.update_of_ne ht, hkey, Ne.symm ht]
  · rw [List.map_singleton, hkey, hfresh, addBits_ok hn]
    exact wrappingAdd_modEq _ _ _
  · intro hlt
    rw [addBits_ok hn]
    exact wrappingAdd_lt hlt (Nat.le_trans (Bool.toNat_le _) (by decide))

theorem giveTasks_granted {g g' : Giving} {q : PriorityQueue Worker} {w : WorkerId} {n : Nat}
    {tasks tasks' : List WorkerTask} (ready : g.Ready job q w)
    (h : giveTasks checks n g tasks = .ok (g', tasks')) :
    ∃ given, tasks' = tasks ++ given ∧ Granted w given g g' := by
  induction n generalizing g tasks with
  | zero =>
    simp only [giveTasks, Except.ok.injEq, Prod.mk.injEq] at h
    obtain ⟨rfl, rfl⟩ := h
    exact ⟨[], by simp, .refl w g⟩
  | succ n ih =>
    rcases giveTasks_succ h with ⟨_, rfl, rfl⟩ | ⟨task, g₁, ho, h₁, h⟩
    · exact ⟨[], by simp, (Granted.refl w g).congr rfl rfl rfl rfl⟩
    · obtain ⟨_, _, hv, _⟩ := Giving.offered_some ho
      obtain ⟨given, rfl, granted⟩ := ih (give_refines ready hv h₁).1 h
      exact ⟨task.value.taskData :: given, by simp, (give_granted ready hv h₁).trans granted⟩

theorem giveReplacements_granted {g g' : Giving} {q : PriorityQueue Worker} {w : WorkerId} {n : Nat}
    {rs rs' : List (TaskId × WorkerTask)} (ready : g.Ready job q w)
    (h : giveReplacements checks n g rs = .ok (g', rs')) :
    ∃ given, rs' = rs ++ given ∧ Granted w (given.map Prod.snd) g g' := by
  induction n generalizing g rs with
  | zero =>
    simp only [giveReplacements, Except.ok.injEq, Prod.mk.injEq] at h
    obtain ⟨rfl, rfl⟩ := h
    exact ⟨[], by simp, .refl w g⟩
  | succ n ih =>
    rcases giveReplacements_succ h with ⟨_, rfl, rfl⟩ | ⟨task, g₀, ho, rfl, hnext⟩
    · exact ⟨[], by simp, (Granted.refl w g).congr rfl rfl rfl rfl⟩
    · obtain ⟨_, _, hv, _⟩ := Giving.offered_some ho
      have ready₀ := (popped_refines ready).1
      rcases hnext with ⟨due, g₁, _, h₁, h⟩ | ⟨_, h⟩
      · obtain ⟨given, rfl, granted⟩ := ih (give_refines ready₀ hv h₁).1 h
        exact ⟨(due, task.value.taskData) :: given, by simp,
          ((give_granted ready₀ hv h₁).trans granted).congr rfl rfl rfl rfl⟩
      · obtain ⟨given, rfl, granted⟩ := ih ready₀ h
        exact ⟨given, rfl, granted.congr rfl rfl rfl rfl⟩

/-- Nothing goes out, and no worker, task or counter changes. -/
structure Idles (s s' : Scheduler) (out : List Sent) : Prop where
  sent : out = []
  workers : s'.workersQueue.get = s.workersQueue.get
  tasks : s'.tasksQueue.get = s.tasksQueue.get
  job : s'.scheduledJob = s.scheduledJob

/-- What the worker at the head and the tasks named by `request` are left with, once it is sent.
The counter is that of the build without overflow checks. -/
structure Dispatches (s s' : Scheduler) (job : ScheduledJob) (w : WorkerId) (v : Worker)
    (kept : List TaskId) (request : WorkerRequest) : Prop where
  rest : s' = { s with
    scheduledJob := s'.scheduledJob, tasksQueue := s'.tasksQueue
    workersQueue := s'.workersQueue, needSchedule := s'.needSchedule }
  id : request.job = job.id
  head : s.workersQueue.heap[0]? = some w
  worker : s.workersQueue.get w = some v
  popped : v.replacements = kept ++ (request.replacements.map Prod.fst).reverse
  workers : s'.workersQueue.get = Function.update s.workersQueue.get w
    (some { v with
      hasJobData := true, assignments := v.assignments ++ request.named, replacements := kept })
  queued : ∀ d ∈ request.tasks ++ request.replacements.map Prod.snd,
    ∃ task, s.tasksQueue.get d.id = some task ∧ task.taskData = d
  tasks : ∀ t, s'.tasksQueue.get t = (s.tasksQueue.get t).map fun task =>
    { task with assignments := task.assignments ++ List.replicate (request.named.count t) w }
  job : ∃ n, s'.scheduledJob = some { job with scheduledTasks := n } ∧
    n ≡ job.scheduledTasks + (freshTasks s.tasksQueue.get request.named).card [MOD 2 ^ 128] ∧
    (job.scheduledTasks < 2 ^ 128 → n < 2 ^ 128)

/-- One call of `process_scheduling` leaves everything as it is, or records one request. -/
theorem processScheduling_dispatches (sound : s.Sound) (hj : s.scheduledJob = some job)
    (h : s.processScheduling checks = .ok (s', out)) :
    Idles s s' out ∨ ∃ w v kept request, request.named ≠ [] ∧ out = s.sendNode w request ∧
      Dispatches s s' job w v kept request := by
  rcases processScheduling_cases hj h with ⟨rfl, hout, _⟩ |
    ⟨w, v, n, g₁, tasks, g₂, replacements, workersQueue, hw, hv, hn, _, h₁, h₂, hd, rfl, hout⟩
  · exact .inl ⟨hout, rfl, rfl, rfl⟩
  have ready : Giving.Ready job s.workersQueue w
      ⟨job, s.tasksQueue, ⟨w, v, false⟩, s.needSchedule⟩ :=
    ⟨.refl job, rfl, sound.tasks, rfl, sound.workers.keyed w v hv, RefMut.of_get hv⟩
  obtain ⟨given, htasks, _, ready₁, _, hw₁, _⟩ := giveTasks_refines ready h₁
  obtain ⟨_, htasks', granted₁⟩ := giveTasks_granted ready h₁
  obtain ⟨_, kept, hreplacements, _, ready₂, _, hkept, hw₂, _⟩ :=
    giveReplacements_refines ready₁ (Nat.le_refl _) h₂
  obtain ⟨_, hreplacements', granted₂⟩ := giveReplacements_granted ready₁ h₂
  rw [List.nil_append] at htasks htasks' hreplacements hreplacements'
  subst htasks htasks' hreplacements hreplacements'
  have granted := granted₁.trans granted₂
  have hof := dispatch_of (s := s) ready₂.borrow tasks replacements
  obtain ⟨hkey, hasJobData, hval⟩ := dispatch_worker (s := s) g₂ tasks replacements
  rw [ready₂.key] at hkey
  obtain ⟨_, hget⟩ := hof.dropPeek sound.workers (by rw [hval, hkey]; exact ready₂.id) hd
  rw [hw₁] at hkept
  have hvalue : g₂.worker.value = { v with
      assignments := v.assignments ++ (tasks.map WorkerTask.id ++
        replacements.map fun r => r.2.id)
      replacements := kept } := by
    rw [hw₂, hw₁, List.append_assoc]
  by_cases hnone : tasks = [] ∧ replacements = []
  · obtain ⟨rfl, rfl⟩ := hnone
    have hsame : s.dispatch g₂ [] [] = (g₂.worker, []) := rfl
    have hkept' : v.replacements = kept := by simpa using hkept
    have hv' : g₂.worker.value = v := by
      rw [hvalue, ← hkept']
      simp
    rw [hsame] at hget hkey
    refine .inl ⟨hout, ?_, ?_, ?_⟩
    · rw [hget, hkey, hv', ← hv, Function.update_eq_self]
    · funext t
      simpa using granted.tasks t
    · exact (congrArg some (granted.still rfl)).trans hj.symm
  · have hsome : (!tasks.isEmpty || !replacements.isEmpty) = true := by
      rw [Bool.or_eq_true, Bool.not_eq_true', Bool.not_eq_true', List.isEmpty_eq_false_iff,
        List.isEmpty_eq_false_iff, ← not_and_or]
      exact hnone
    obtain ⟨request, hrequest⟩ : ∃ request : WorkerRequest, request =
        { job := g₂.job.id, jobData := (jobDataFor g₂.job g₂.worker).2
          replacements := replacements, tasks := tasks } := ⟨_, rfl⟩
    have hdispatch : s.dispatch g₂ tasks replacements =
        ((jobDataFor g₂.job g₂.worker).1, s.sendNode w request) := by
      rw [dispatch, if_pos hsome, hrequest, (jobDataFor_worker _ _).2, ready₂.id]
    have hids : (tasks ++ replacements.map Prod.snd).map WorkerTask.id = request.named := by
      rw [hrequest, WorkerRequest.named, List.map_append, List.map_map]
      rfl
    have hnamed : request.named ≠ [] := by
      rw [← hids, Ne, List.map_eq_nil_iff, List.append_eq_nil_iff, List.map_eq_nil_iff]
      exact hnone
    rw [hdispatch] at hget hkey hout
    refine .inr ⟨w, v, kept, request, hnamed, hout, rfl, ?_, hw, hv, ?_, ?_, ?_, ?_, ?_⟩
    · rw [hrequest]
      exact ready₂.continues.1
    · rw [hrequest]
      exact hkept
    · rw [hget, hkey, (jobDataFor_worker _ _).2, hvalue, hrequest]
      rfl
    · rw [hrequest]
      exact granted.queued
    · rw [← hids]
      exact granted.tasks
    · obtain ⟨n, hn⟩ := granted.job
      have hscheduled := granted.scheduled
      have hfits := granted.fits
      rw [hids, hn] at hscheduled
      rw [hn] at hfits
      exact ⟨n, by rw [hn], hscheduled, hfits⟩

/-- The fresh tasks that are named have room in the counter, if all those of the queue have. -/
theorem fresh_fits (room : (s.board job).Room) (ids : List TaskId) :
    job.scheduledTasks + (freshTasks s.tasksQueue.get ids).card < 2 ^ 128 := by
  have hroom := room.room
  have hbusy := room.finite.subset (s.board job).busy_subset_queued
  have hmem : ∀ t ∈ freshTasks s.tasksQueue.get ids,
      t ∉ (s.board job).busy ∧ t ∈ (s.board job).queued := by
    intro t ht
    rw [freshTasks, Finset.mem_filter] at ht
    cases htask : s.tasksQueue.get t with
    | none =>
      rw [htask] at ht
      exact absurd ht.2 (by simp)
    | some task =>
      rw [htask] at ht
      have hnone : task.assignments = [] := by simpa [Task.hasAssignments] using ht.2
      simp [Board.busy, Board.heldBy, Board.queued, board_tasks, htask, hnone]
  have hdisjoint : Disjoint (↑(freshTasks s.tasksQueue.get ids) : Set TaskId)
      (s.board job).busy := by
    rw [Set.disjoint_left]
    exact fun t ht => (hmem t ht).1
  have hunion : (↑(freshTasks s.tasksQueue.get ids) : Set TaskId) ∪ (s.board job).busy ⊆
      (s.board job).queued :=
    Set.union_subset (fun t ht => (hmem t ht).2) (s.board job).busy_subset_queued
  have hcard := Set.ncard_le_ncard hunion room.finite
  rw [Set.ncard_union_eq hdisjoint (Finset.finite_toSet _) hbusy, Set.ncard_coe_finset] at hcard
  change job.scheduledTasks + _ < _ at hroom
  omega

/-- One call of `process_scheduling` does nothing, or what it records is what it sends. -/
def Schedules (checks : Bool) (s : Scheduler) (job : ScheduledJob) : Prop :=
  ∃ s' out, s.processScheduling checks = .ok (s', out) ∧
    (Idles s s' out ∨ ∃ w v kept node request,
      out = [.node node w request] ∧ Dispatches s s' job w v kept request ∧
        s'.scheduledJob = some { job with
          scheduledTasks := job.scheduledTasks +
            (freshTasks s.tasksQueue.get request.named).card })

/-- As long as the worker at the head has its node, and the counter has room for the tasks that no
worker has, what a call of `process_scheduling` records is what it sends. -/
theorem processScheduling_schedules (sound : s.Sound) (fits : s.Capacity)
    (hj : s.scheduledJob = some job) (room : (s.board job).Room)
    (linked : ∀ w, s.workersQueue.heap[0]? = some w →
      (s.connectionManager.nodes.get w).isSome) : Schedules checks s job := by
  have total : Succeeds (s.processScheduling checks) := by
    refine processScheduling_total sound fits ?_
    intro job' hj'
    rw [hj, Option.some.injEq] at hj'
    exact hj' ▸ room
  obtain ⟨⟨s', out⟩, h⟩ := total
  refine ⟨s', out, h, ?_⟩
  rcases processScheduling_dispatches sound hj h with idles |
    ⟨w, v, kept, request, _, hout, dispatched⟩
  · exact .inl idles
  · obtain ⟨node, hnode⟩ := Option.isSome_iff_exists.mp (linked w dispatched.head)
    have hsent : out = [.node node w request] := by rw [hout, sendNode, hnode]
    obtain ⟨n, hn, hmod, hlt⟩ := dispatched.job
    have hfresh := fresh_fits room request.named
    have hexact := hmod.eq_of_lt_of_lt (hlt (by omega)) hfresh
    exact .inr ⟨w, v, kept, node, request, hsent, dispatched, by rw [hn, hexact]⟩

/-- A worker connects while a job of two tasks waits for one. -/
theorem processScheduling_schedules_small : ∃ s job, s.scheduledJob = some job ∧
    s.tasksQueue.heap.length = 2 ∧ Schedules true s job := by
  obtain ⟨s, out, run, h⟩ := exists_run (step true) CapacityStep (Scheduler.new smallConfig)
    [jobOf 2, tasksOf [0, 1], joinOf 1 2]
    (fun r => decide (r.1.tasksQueue.heap.length = 2) &&
      (r.1.scheduledJob.any fun job : ScheduledJob =>
        decide (job.scheduledTasks + 2 < 2 ^ 128)) &&
      decide (r.1.workersQueue.heap[0]? = some 1 ∧
        (r.1.connectionManager.nodes.get 1).isSome)) (by decide +kernel)
  simp only [Bool.and_eq_true, decide_eq_true_eq, Option.any_eq_true] at h
  obtain ⟨⟨hlen, job, hj, hroom⟩, hhead, hnode⟩ := h
  obtain ⟨sound, fits⟩ := capacity_of_run run
  refine ⟨s, job, hj, hlen, processScheduling_schedules sound fits hj
    (room_of_lt sound (hlen.symm ▸ hroom)) fun w hw => ?_⟩
  rw [hhead, Option.some.injEq] at hw
  exact hw ▸ hnode

def unlinked (s : Scheduler) : Scheduler :=
  { s with connectionManager := { s.connectionManager with nodes := VecMap.new } }

def counterFull (s : Scheduler) : Scheduler :=
  { s with scheduledJob := s.scheduledJob.map fun job =>
      { job with scheduledTasks := 2 ^ 128 - 1 } }

/-- A worker whose node is not there is given a task that is not sent; and a counter that is full
cannot count one. -/
theorem processScheduling_strays :
    (¬∀ s job, s.Sound → PriorityQueue.HeapOrdered Task.rank s.tasksQueue →
      PriorityQueue.HeapOrdered Worker.rank s.workersQueue → s.Capacity →
        s.scheduledJob = some job → (s.board job).Room → Schedules true s job) ∧
    ¬∀ s job, s.Sound → PriorityQueue.HeapOrdered Task.rank s.tasksQueue →
      PriorityQueue.HeapOrdered Worker.rank s.workersQueue → s.Capacity →
        s.scheduledJob = some job → (∀ w, s.workersQueue.heap[0]? = some w →
          (s.connectionManager.nodes.get w).isSome) → Schedules true s job := by
  obtain ⟨s, out, run, h⟩ := exists_run (step true) CapacityStep (Scheduler.new smallConfig)
    [jobOf 1, tasksOf [0], joinOf 1 1]
    (fun r => decide (r.1.tasksQueue.heap.length = 1 ∧ r.1.workersQueue.heap = [1] ∧
        (r.1.connectionManager.nodes.get 1).isSome) &&
      (r.1.scheduledJob.any fun job : ScheduledJob => decide (job.scheduledTasks + 1 < 2 ^ 128)) &&
      ((processScheduling true (unlinked r.1)).toOption.any
        fun after : Scheduler × List Sent =>
        decide (after.2 = [] ∧ after.1.tasksQueue.get 0 ≠ r.1.tasksQueue.get 0)) &&
      (processScheduling true (counterFull r.1)).toOption.isNone) (by decide +kernel)
  simp only [Bool.and_eq_true, decide_eq_true_eq, Option.any_eq_true] at h
  obtain ⟨⟨⟨⟨htasks, hworkers, hnode⟩, job, hj, hroom⟩, ⟨s₁, out₁⟩, h₁, hout₁, hgiven⟩, h₂⟩ := h
  obtain ⟨sound, fits⟩ := capacity_of_run run
  have ordered : PriorityQueue.HeapOrdered Task.rank s.tasksQueue ∧
      PriorityQueue.HeapOrdered Worker.rank s.workersQueue :=
    ⟨PriorityQueue.ordered_of_length_le (by rw [htasks]),
      PriorityQueue.ordered_of_length_le (by rw [hworkers]; rfl)⟩
  constructor
  · intro hall
    have sound' : (unlinked s).Sound := ⟨sound.tasks, sound.workers, sound.completed⟩
    obtain ⟨s', out', hok, hcase⟩ := hall (unlinked s) job sound' ordered.1 ordered.2 fits hj
      (room_of_lt sound' (htasks.symm ▸ hroom))
    rw [hok] at h₁
    obtain ⟨rfl, rfl⟩ := Prod.mk.inj (Option.some.inj h₁)
    rcases hcase with idles | ⟨_, _, _, _, _, hsent, _⟩
    · exact hgiven (congrFun idles.tasks 0)
    · rw [hsent] at hout₁
      cases hout₁
  · intro hall
    have sound' : (counterFull s).Sound := by
      refine ⟨sound.tasks, sound.workers, ?_⟩
      intro job' hj'
      obtain ⟨job'', hj'', rfl⟩ := Option.map_eq_some_iff.mp hj'
      exact sound.completed job'' hj''
    have hj' : (counterFull s).scheduledJob = some { job with scheduledTasks := 2 ^ 128 - 1 } := by
      rw [counterFull, hj, Option.map_some]
    have linked : ∀ w, (counterFull s).workersQueue.heap[0]? = some w →
        ((counterFull s).connectionManager.nodes.get w).isSome := by
      intro w hw
      have hone : w = 1 := by simpa [counterFull, hworkers] using hw.symm
      exact hone ▸ hnode
    obtain ⟨s', out', hok, _⟩ := hall (counterFull s) _ sound' ordered.1 ordered.2 fits hj' linked
    rw [hok] at h₂
    cases h₂

end GridServer.Scheduler
