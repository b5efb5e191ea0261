import GridServer.Scheduler.Refinement.Reports

namespace GridServer.Scheduler
open Library

variable {checks : Bool} {s s' : Scheduler} {job : ScheduledJob} {out : List Sent}
  {g g' : Giving}

/-- The books while the loops of `process_scheduling` hold `g` and the other workers are `ws`. -/
def Giving.board (ws : WorkerId → Option Worker) (g : Giving) : Board :=
  .of g.tasksQueue.get (Function.update ws g.worker.key (some g.worker.value)) g.job

/-- What stays true between two tasks that are given out. -/
structure Giving.Ready (job : ScheduledJob) (q : PriorityQueue Worker) (w : WorkerId) (g : Giving) :
    Prop where
  continues : job.Continues g.job
  completed : g.job.completedTasks = job.completedTasks
  tasks : Keyed Task.key g.tasksQueue
  key : g.worker.key = w
  id : g.worker.value.id = w
  borrow : g.worker.Of q

/-- The offered task is the one at the head of the queue. -/
theorem Giving.offered_some {task : RefMut Task} (h : g.offered = .ok (some task)) :
    task.modified = false ∧ g.tasksQueue.heap[0]? = some task.key ∧
      g.tasksQueue.get task.key = some task.value ∧
      (task.value.assignments = [] ∨ g.job.scheduledTasks = g.job.totalTasks) := by
  simp only [offered, bind_ok] at h
  obtain ⟨r, hr, h⟩ := h
  rcases PriorityQueue.peekMut_ok hr with ⟨rfl, _⟩ | ⟨id, v, rfl, hid, hv⟩
  · simp at h
  · simp only [except_pure, Except.ok.injEq] at h
    split at h
    · rename_i hc
      rw [Option.some.injEq] at h
      subst h
      refine ⟨rfl, hid, hv, ?_⟩
      simpa [Task.hasAssignments] using hc
    · cases h

/-- Nothing is offered when the queue is empty, or when its head is assigned while other tasks of
the job are not. -/
theorem Giving.offered_none (h : g.offered = .ok none) :
    g.tasksQueue.heap = [] ∨ ∃ t task, g.tasksQueue.heap[0]? = some t ∧
      g.tasksQueue.get t = some task ∧ task.assignments ≠ [] ∧
      g.job.scheduledTasks ≠ g.job.totalTasks := by
  simp only [offered, bind_ok] at h
  obtain ⟨r, hr, h⟩ := h
  rcases PriorityQueue.peekMut_ok hr with ⟨rfl, hnil⟩ | ⟨id, v, rfl, hid, hv⟩
  · exact .inl hnil
  · simp only [except_pure, Except.ok.injEq] at h
    split at h
    · cases h
    · rename_i hc
      refine .inr ⟨id, v, hid, hv, ?_⟩
      simpa [Task.hasAssignments] using hc

theorem Giving.Ready.stop {q : PriorityQueue Worker} {w : WorkerId} (ready : g.Ready job q w) :
    Giving.Ready job q w { g with needSchedule := false } :=
  ⟨ready.continues, ready.completed, ready.tasks, ready.key, ready.id, ready.borrow⟩

/-- A round of the first loop ends it, or gives the offered task out. -/
theorem giveTasks_succ {n : Nat} {tasks tasks' : List WorkerTask}
    (h : giveTasks checks (n + 1) g tasks = .ok (g', tasks')) :
    g.offered = .ok none ∧ g' = { g with needSchedule := false } ∧ tasks' = tasks ∨
    ∃ task g₁, g.offered = .ok (some task) ∧ g.give checks task = .ok g₁ ∧
      giveTasks checks n g₁ (tasks ++ [task.value.taskData]) = .ok (g', tasks') := by
  simp only [giveTasks, bind_ok] at h
  obtain ⟨offer, ho, h⟩ := h
  cases offer with
  | none =>
    simp only [except_pure, Except.ok.injEq, Prod.mk.injEq] at h
    exact .inl ⟨ho, h.1.symm, h.2.symm⟩
  | some task =>
    obtain ⟨g₁, h₁, h⟩ := bind_ok.mp h
    exact .inr ⟨task, g₁, ho, h₁, h⟩

/-- A round of the second loop also takes a replacement off, and gives nothing out if there is
none. -/
theorem giveReplacements_succ {n : Nat} {rs rs' : List (TaskId × WorkerTask)}
    (h : giveReplacements checks (n + 1) g rs = .ok (g', rs')) :
    g.offered = .ok none ∧ g' = { g with needSchedule := false } ∧ rs' = rs ∨
    ∃ task g₀, g.offered = .ok (some task) ∧
      g₀ = { g with worker := g.worker.derefMut { g.worker.value with
        replacements := g.worker.value.replacements.dropLast } } ∧
      ((∃ due g₁, g.worker.value.replacements.getLast? = some due ∧
          g₀.give checks task = .ok g₁ ∧
          giveReplacements checks n g₁ (rs ++ [(due, task.value.taskData)]) = .ok (g', rs')) ∨
        g.worker.value.replacements.getLast? = none ∧
          giveReplacements checks n g₀ rs = .ok (g', rs')) := by
  simp only [giveReplacements, bind_ok] at h
  obtain ⟨offer, ho, h⟩ := h
  cases offer with
  | none =>
    simp only [except_pure, Except.ok.injEq, Prod.mk.injEq] at h
    exact .inl ⟨ho, h.1.symm, h.2.symm⟩
  | some task =>
    refine .inr ⟨task, _, ho, rfl, ?_⟩
    dsimp only at h
    split at h
    · rename_i due hdue
      obtain ⟨g₁, h₁, h⟩ := bind_ok.mp h
      exact .inl ⟨due, g₁, hdue, h₁, h⟩
    · rename_i hnone
      exact .inr ⟨hnone, h⟩

/-- What every round keeps, the first loop keeps. -/
theorem giveTasks_keeps {I : Giving → Prop} (stop : ∀ g, I g → I { g with needSchedule := false })
    (step : ∀ g task g₁, I g → g.offered = .ok (some task) → g.give checks task = .ok g₁ → I g₁)
    (start : I g) {n : Nat} {tasks tasks' : List WorkerTask}
    (h : giveTasks checks n g tasks = .ok (g', tasks')) : I g' := by
  induction n generalizing g tasks with
  | zero =>
    simp only [giveTasks, Except.ok.injEq, Prod.mk.injEq] at h
    exact h.1 ▸ start
  | succ n ih =>
    rcases giveTasks_succ h with ⟨_, rfl, _⟩ | ⟨task, g₁, ho, h₁, h⟩
    · exact stop g start
    · exact ih (step g task g₁ start ho h₁) h

theorem giveReplacements_keeps {I : Giving → Prop}
    (stop : ∀ g, I g → I { g with needSchedule := false })
    (step : ∀ g task g₁, I g → g.offered = .ok (some task) → g.give checks task = .ok g₁ → I g₁)
    (pop : ∀ g, I g → I { g with worker := g.worker.derefMut { g.worker.value with
      replacements := g.worker.value.replacements.dropLast } })
    (start : I g) {n : Nat} {rs rs' : List (TaskId × WorkerTask)}
    (h : giveReplacements checks n g rs = .ok (g', rs')) : I g' := by
  induction n generalizing g rs with
  | zero =>
    simp only [giveReplacements, Except.ok.injEq, Prod.mk.injEq] at h
    exact h.1 ▸ start
  | succ n ih =>
    rcases giveReplacements_succ h with ⟨_, rfl, _⟩ | ⟨task, g₀, ho, rfl, hnext⟩
    · exact stop g start
    · rcases hnext with ⟨due, g₁, _, h₁, h⟩ | ⟨_, h⟩
      -- What is offered does not depend on the worker.
      · exact ih (step _ task g₁ (pop g start) ho h₁) h
      · exact ih (pop g start) h

/-- Giving a task out is one move of the books. -/
theorem give_refines {q : PriorityQueue Worker} {w : WorkerId} {task : RefMut Task}
    (ready : g.Ready job q w) (hv : g.tasksQueue.get task.key = some task.value)
    (h : g.give checks task = .ok g') :
    g'.Ready job q w ∧ g'.board q.get = (g.board q.get).move (.give w task.key) ∧
      g'.needSchedule = g.needSchedule ∧ g'.worker.modified = true ∧
      g'.worker.value = { g.worker.value with
        assignments := g.worker.value.assignments ++ [task.key] } := by
  simp only [Giving.give, bind_ok, except_pure, Except.ok.injEq] at h
  obtain ⟨tasksQueue, hd, n, hn, rfl⟩ := h
  have hkey : task.value.taskData.id = task.key := ready.tasks.keyed _ _ hv
  have hof : (task.derefMut { task.value with
      assignments := task.value.assignments ++ [g.worker.value.id] }).Of g.tasksQueue :=
    ⟨by simp [hv], by simp [RefMut.derefMut]⟩
  obtain ⟨hq, hget⟩ := hof.dropPeek ready.tasks hkey hd
  refine ⟨⟨ready.continues, ready.completed, hq, ready.key, ready.id, ready.borrow.derefMut _⟩,
    ?_, rfl, rfl, by simp [hkey]⟩
  have hb : (g.board q.get).tasks task.key = some task.value.assignments := by
    simp [Giving.board, Board.of, hv]
  have hbooks : ((g.board q.get).editWorker w fun h => { h with
        assignments := h.assignments ++ [task.key] }).setTask task.key
          (some (task.value.assignments ++ [w])) =
      .of tasksQueue.get (Function.update q.get w (some { g.worker.value with
        assignments := g.worker.value.assignments ++ [task.key] })) g.job := by
    rw [hget, RefMut.derefMut_key, RefMut.derefMut_value, Board.of_setTask, Giving.board,
      ← Board.of_editWorker (v := g.worker.value) (by rw [ready.key, Function.update_self])
        (u := { g.worker.value with
          assignments := g.worker.value.assignments ++ [task.key] }) rfl,
      ready.key, Function.update_idem, ready.id]
    rfl
  have hpresent : (g.board q.get).workers w = some g.worker.value.holder := by
    simp [Giving.board, Board.of, ready.key]
  simp only [Board.move, Board.give, hpresent, hb]
  rw [hbooks, addBits_ok hn]
  simp [Giving.board, Board.of, Task.hasAssignments, ready.key, hkey]

/-- `for _ in 0..can_accept` gives out some tasks, one move each, and stops early only when
nothing more is offered. -/
theorem giveTasks_refines {q : PriorityQueue Worker} {w : WorkerId} {n : Nat}
    {tasks tasks' : List WorkerTask} (ready : g.Ready job q w)
    (h : giveTasks checks n g tasks = .ok (g', tasks')) :
    ∃ given, tasks' = tasks ++ given ∧ given.length ≤ n ∧ g'.Ready job q w ∧
      g'.board q.get = (given.map fun t => .give w t.id).foldl Board.move (g.board q.get) ∧
      g'.worker.value = { g.worker.value with
        assignments := g.worker.value.assignments ++ given.map WorkerTask.id } ∧
      (given.length = n ∧ g'.needSchedule = g.needSchedule ∨
        g'.needSchedule = false ∧ g'.offered = .ok none) := by
  induction n generalizing g tasks with
  | zero =>
    simp only [giveTasks, Except.ok.injEq, Prod.mk.injEq] at h
    obtain ⟨rfl, rfl⟩ := h
    exact ⟨[], by simp, by simp, ready, rfl, by simp, .inl ⟨rfl, rfl⟩⟩
  | succ n ih =>
    rcases giveTasks_succ h with ⟨ho, rfl, rfl⟩ | ⟨task, g₁, ho, h₁, h⟩
    · exact ⟨[], by simp, by simp, ready.stop, rfl, by simp, .inr ⟨rfl, ho⟩⟩
    · obtain ⟨_, _, hv, _⟩ := Giving.offered_some ho
      have hkey : task.value.taskData.id = task.key := ready.tasks.keyed _ _ hv
      obtain ⟨ready₁, hb₁, hn₁, _, hw₁⟩ := give_refines ready hv h₁
      obtain ⟨given, rfl, hlen, ready', hb, hw, hend⟩ := ih ready₁ h
      refine ⟨task.value.taskData :: given, by simp, by simpa using hlen, ready', ?_, ?_, ?_⟩
      · rw [hb, hb₁, List.map_cons, List.foldl_cons, hkey]
      · rw [hw, hw₁, List.map_cons, hkey]
        simp
      · rcases hend with ⟨he, hneed⟩ | hend
        · exact .inl ⟨by simp [he], hneed.trans hn₁⟩
        · exact .inr hend

/-- The moves of one task that replaces another. -/
def replacementMoves (w : WorkerId) (r : TaskId × WorkerTask) : List Move :=
  [.useReplacement w, .give w r.2.id]

theorem popped_refines {q : PriorityQueue Worker} {w : WorkerId} (ready : g.Ready job q w) :
    Giving.Ready job q w { g with worker := g.worker.derefMut { g.worker.value with
      replacements := g.worker.value.replacements.dropLast } } ∧
    Giving.board q.get { g with worker := g.worker.derefMut { g.worker.value with
      replacements := g.worker.value.replacements.dropLast } } =
      (g.board q.get).move (.useReplacement w) := by
  refine ⟨⟨ready.continues, ready.completed, ready.tasks, ready.key, ready.id,
    ready.borrow.derefMut _⟩, ?_⟩
  rw [Board.move, Giving.board, Giving.board, ← Board.of_editWorker (v := g.worker.value)
    (by rw [ready.key, Function.update_self]) (u := { g.worker.value with
      replacements := g.worker.value.replacements.dropLast }) rfl, ready.key, Function.update_idem]
  simp [ready.key]

/-- `for i in 0..need_replace` pops one replacement for each task it gives out. -/
theorem giveReplacements_refines {q : PriorityQueue Worker} {w : WorkerId} {n : Nat}
    {rs rs' : List (TaskId × WorkerTask)} (ready : g.Ready job q w)
    (hn : n ≤ g.worker.value.replacements.length)
    (h : giveReplacements checks n g rs = .ok (g', rs')) :
    ∃ given kept, rs' = rs ++ given ∧ given.length ≤ n ∧ g'.Ready job q w ∧
      g'.board q.get = (given.flatMap (replacementMoves w)).foldl Board.move (g.board q.get) ∧
      g.worker.value.replacements = kept ++ (given.map Prod.fst).reverse ∧
      g'.worker.value = { g.worker.value with
        assignments := g.worker.value.assignments ++ given.map fun r => r.2.id
        replacements := kept } ∧
      (given.length = n ∧ g'.needSchedule = g.needSchedule ∨
        g'.needSchedule = false ∧ g'.offered = .ok none) := by
  induction n generalizing g rs with
  | zero =>
    simp only [giveReplacements, Except.ok.injEq, Prod.mk.injEq] at h
    obtain ⟨rfl, rfl⟩ := h
    exact ⟨[], g.worker.value.replacements, by simp, by simp, ready, rfl, by simp, by simp,
      .inl ⟨rfl, rfl⟩⟩
  | succ n ih =>
    rcases giveReplacements_succ h with ⟨ho, rfl, rfl⟩ | ⟨task, g₀, ho, hg₀, hnext⟩
    · exact ⟨[], g.worker.value.replacements, by simp, by simp, ready.stop, rfl, by simp, by simp,
        .inr ⟨rfl, ho⟩⟩
    · obtain ⟨init, due, hsplit⟩ : ∃ init due, g.worker.value.replacements = init ++ [due] := by
        rcases List.eq_nil_or_concat g.worker.value.replacements with hnil | ⟨init, due, hc⟩
        · rw [hnil] at hn
          simp at hn
        · exact ⟨init, due, by rw [hc, List.concat_eq_append]⟩
      simp only [hsplit, List.getLast?_concat, Option.some.injEq, reduceCtorEq, false_and,
        or_false] at hnext
      obtain ⟨_, g₁, rfl, h₁, h⟩ := hnext
      obtain ⟨_, _, hv, _⟩ := Giving.offered_some ho
      have hkey : task.value.taskData.id = task.key := ready.tasks.keyed _ _ hv
      obtain ⟨ready₀, hb₀⟩ := popped_refines ready
      rw [hsplit, List.dropLast_concat] at hg₀ ready₀ hb₀
      subst hg₀
      obtain ⟨ready₁, hb₁, hn₁, _, hw₁⟩ := give_refines ready₀ hv h₁
      have hlen₁ : n ≤ g₁.worker.value.replacements.length := by
        rw [hw₁]
        rw [hsplit, List.length_append, List.length_singleton] at hn
        exact Nat.le_of_succ_le_succ hn
      obtain ⟨given, kept, rfl, hlen, ready', hb, hkept, hw, hend⟩ := ih ready₁ hlen₁ h
      have hreps : g₁.worker.value.replacements = init := by rw [hw₁]; rfl
      refine ⟨(due, task.value.taskData) :: given, kept, by simp, by simpa using hlen, ready', ?_,
        ?_, ?_, ?_⟩
      · rw [hb, hb₁, hb₀, List.flatMap_cons, List.foldl_append, replacementMoves, hkey]
        rfl
      · rw [hreps] at hkept
        simp [hsplit, hkept]
      · rw [hw, hw₁]
        simp [hkey]
      · rcases hend with ⟨he, hneed⟩ | hend
        · exact .inl ⟨by simp [he], hneed.trans hn₁⟩
        · exact .inr hend

/-- Once nothing is offered, the second loop gives nothing out. -/
theorem giveReplacements_stopped (ho : g.offered = .ok none) {n : Nat}
    {rs rs' : List (TaskId × WorkerTask)} (h : giveReplacements checks n g rs = .ok (g', rs')) :
    rs' = rs ∧ g'.offered = .ok none ∧ (g.needSchedule = false → g'.needSchedule = false) := by
  cases n with
  | zero =>
    simp only [giveReplacements, Except.ok.injEq, Prod.mk.injEq] at h
    obtain ⟨rfl, rfl⟩ := h
    exact ⟨rfl, ho, id⟩
  | succ n =>
    simp only [giveReplacements, ho, ok_bind, except_pure, Except.ok.injEq, Prod.mk.injEq] at h
    obtain ⟨rfl, rfl⟩ := h
    exact ⟨rfl, ho, fun _ => rfl⟩

/-- The worker that process_scheduling puts back, and what it sends to it. -/
def dispatch (s : Scheduler) (g : Giving) (tasks : List WorkerTask)
    (replacements : List (TaskId × WorkerTask)) : RefMut Worker × List Sent :=
  if !tasks.isEmpty || !replacements.isEmpty then
    ((jobDataFor g.job g.worker).1, s.sendNode (jobDataFor g.job g.worker).1.value.id
      { job := g.job.id, jobData := (jobDataFor g.job g.worker).2
        replacements := replacements, tasks := tasks })
  else (g.worker, [])

theorem processScheduling_idle (hj : s.scheduledJob = none)
    (h : s.processScheduling checks = .ok (s', out)) : s' = s ∧ out = [] := by
  simp only [processScheduling, hj, Except.ok.injEq, Prod.mk.injEq] at h
  exact ⟨h.1.symm, h.2.symm⟩

/-- The two ways `process_scheduling` can go. -/
theorem processScheduling_cases (hj : s.scheduledJob = some job)
    (h : s.processScheduling checks = .ok (s', out)) :
    (s' = { s with needSchedule := false } ∧ out = [] ∧
      (s.workersQueue.heap = [] ∨ ∃ w v, s.workersQueue.heap[0]? = some w ∧
        s.workersQueue.get w = some v ∧ v.canAccept checks = .ok 0 ∧ v.replacements = [])) ∨
    ∃ w v n g₁ tasks g₂ replacements workersQueue,
      s.workersQueue.heap[0]? = some w ∧ s.workersQueue.get w = some v ∧
      v.canAccept checks = .ok n ∧ (0 < n ∨ 0 < v.replacements.length) ∧
      giveTasks checks n ⟨job, s.tasksQueue, ⟨w, v, false⟩, s.needSchedule⟩ [] = .ok (g₁, tasks) ∧
      giveReplacements checks g₁.worker.value.replacements.length g₁ [] =
        .ok (g₂, replacements) ∧
      s.workersQueue.dropPeekMut (Worker.cmpPriority checks)
        (s.dispatch g₂ tasks replacements).1 = .ok workersQueue ∧
      s' = { s with
        scheduledJob := some g₂.job
        tasksQueue := g₂.tasksQueue
        workersQueue := workersQueue
        needSchedule := g₂.needSchedule } ∧
      out = (s.dispatch g₂ tasks replacements).2 := by
  unfold processScheduling at h
  split at h
  · rename_i hn
    rw [hn] at hj
    cases hj
  rename_i job₀ hj₀
  rw [hj, Option.some.injEq] at hj₀
  subst hj₀
  rw [bind_ok] at h
  obtain ⟨peeked, hp, h⟩ := h
  rcases PriorityQueue.peekMut_ok hp with ⟨rfl, hnil⟩ | ⟨w, v, rfl, hw, hv⟩
  · simp only [except_pure, Except.ok.injEq, Prod.mk.injEq] at h
    exact .inl ⟨h.1.symm, h.2.symm, .inl hnil⟩
  · simp only [bind_ok] at h
    obtain ⟨n, hn, h⟩ := h
    split at h
    · rename_i hfree
      simp only [bind_ok, except_pure, Except.ok.injEq, Prod.mk.injEq] at h
      obtain ⟨⟨g₁, tasks⟩, h₁, ⟨g₂, replacements⟩, h₂, workersQueue, hd, rfl, rfl⟩ := h
      refine .inr ⟨w, v, n, g₁, tasks, g₂, replacements, workersQueue, hw, hv, hn, hfree, h₁, h₂,
        ?_, rfl, ?_⟩
      · rw [← hd, dispatch]
      · rw [dispatch]
    · rename_i hfull
      simp only [except_pure, Except.ok.injEq, Prod.mk.injEq] at h
      rw [not_or, Nat.not_lt, Nat.not_lt, Nat.le_zero, Nat.le_zero] at hfull
      refine .inl ⟨h.1.symm, h.2.symm, .inr ⟨w, v, hw, hv, hfull.1 ▸ hn, ?_⟩⟩
      exact List.eq_nil_of_length_eq_zero hfull.2

theorem jobDataFor_worker (job : ScheduledJob) (worker : RefMut Worker) :
    (jobDataFor job worker).1.key = worker.key ∧
      (jobDataFor job worker).1.value = { worker.value with hasJobData := true } := by
  unfold jobDataFor
  split
  · exact ⟨rfl, rfl⟩
  · rename_i hd
    have : worker.value.hasJobData = true := by simpa using hd
    exact ⟨rfl, by simp [← this]⟩

/-- The worker put back differs from the borrowed one in `has_job_data` only. -/
theorem dispatch_worker (g : Giving) (tasks : List WorkerTask)
    (replacements : List (TaskId × WorkerTask)) :
    (s.dispatch g tasks replacements).1.key = g.worker.key ∧
      ∃ hasJobData, (s.dispatch g tasks replacements).1.value =
        { g.worker.value with hasJobData := hasJobData } := by
  unfold dispatch
  split
  · exact ⟨(jobDataFor_worker _ _).1, true, (jobDataFor_worker _ _).2⟩
  · exact ⟨rfl, _, rfl⟩

theorem RefMut.Of.jobDataFor {q : PriorityQueue Worker} {worker : RefMut Worker}
    (h : worker.Of q) (job : ScheduledJob) : (jobDataFor job worker).1.Of q := by
  unfold Scheduler.jobDataFor
  split
  · exact h.derefMut _
  · exact h

theorem dispatch_of {q : PriorityQueue Worker} (h : g.worker.Of q) (tasks : List WorkerTask)
    (replacements : List (TaskId × WorkerTask)) :
    (s.dispatch g tasks replacements).1.Of q := by
  unfold dispatch
  split
  · exact RefMut.Of.jobDataFor h g.job
  · exact h

/-- One call of `process_scheduling`: nothing, or one request to the worker at the head of its
queue, whose tasks and replacements are the moves of the books. -/
theorem processScheduling_refines (sound : s.Sound) (hj : s.scheduledJob = some job)
    (h : s.processScheduling checks = .ok (s', out)) :
    (s' = { s with needSchedule := false } ∧ out = [] ∧ Follows s job s' []) ∨
    ∃ w v n, ∃ tasks : List WorkerTask, ∃ replacements : List (TaskId × WorkerTask), ∃ kept,
      s.workersQueue.heap[0]? = some w ∧
      s.workersQueue.get w = some v ∧ v.canAccept checks = .ok n ∧ tasks.length ≤ n ∧
      v.replacements = kept ++ (replacements.map Prod.fst).reverse ∧
      Follows s job s' ((tasks.map fun t => .give w t.id) ++
        replacements.flatMap (replacementMoves w)) ∧
      (s'.workersQueue.get w).map Worker.holder = some { v.holder with
        assignments := v.assignments ++ tasks.map WorkerTask.id ++ replacements.map fun r => r.2.id
        replacements := kept } := by
  rcases processScheduling_cases hj h with ⟨hs, hout, _⟩ |
    ⟨w, v, n, g₁, tasks, g₂, replacements, workersQueue, hw, hv, hn, _, h₁, h₂, hd, rfl, rfl⟩
  · subst hs
    exact .inl ⟨rfl, hout, ⟨sound.tasks, sound.workers, sound.completed⟩, job, hj, .refl job, rfl⟩
  · have ready : Giving.Ready job s.workersQueue w
        ⟨job, s.tasksQueue, ⟨w, v, false⟩, s.needSchedule⟩ :=
      ⟨.refl job, rfl, sound.tasks, rfl, sound.workers.keyed w v hv, RefMut.of_get hv⟩
    obtain ⟨_, rfl, hlen, ready₁, hb₁, hw₁, _⟩ := giveTasks_refines ready h₁
    obtain ⟨_, kept, rfl, _, ready₂, hb₂, hkept, hw₂, _⟩ :=
      giveReplacements_refines ready₁ (Nat.le_refl _) h₂
    obtain ⟨hkey, hasJobData, hval⟩ := dispatch_worker (s := s) g₂ tasks replacements
    have hof := dispatch_of (s := s) ready₂.borrow tasks replacements
    obtain ⟨hq, hget⟩ := hof.dropPeek sound.workers
      (by rw [hval, hkey, ready₂.key]; exact ready₂.id) hd
    have hstart : Giving.board s.workersQueue.get
        ⟨job, s.tasksQueue, ⟨w, v, false⟩, s.needSchedule⟩ = s.board job := by
      rw [Giving.board, ← hv, Function.update_eq_self]
      rfl
    have hbooks : Board.of g₂.tasksQueue.get workersQueue.get g₂.job =
        ((tasks.map fun t => Move.give w t.id) ++ replacements.flatMap (replacementMoves w)).foldl
          Board.move (s.board job) := by
      rw [List.foldl_append, ← hstart, ← hb₁, ← hb₂, hget, hkey, hval]
      exact Board.of_holder rfl
    refine .inr ⟨w, v, n, tasks, replacements, kept, hw, hv, hn, hlen, ?_,
      ⟨⟨ready₂.tasks, hq, ?_⟩, g₂.job, rfl, ready₂.continues, hbooks⟩, ?_⟩
    · rw [hw₁] at hkept
      exact hkept
    · rintro _ ⟨⟩
      rw [ready₂.completed]
      exact sound.completed job hj
    · rw [hget, hkey, ready₂.key, Function.update_self, Option.map_some, hval, hw₂, hw₁]
      rfl

end GridServer.Scheduler
