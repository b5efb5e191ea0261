import GridServer.Scheduler.Counter
import GridServer.Scheduler.Ranks

namespace GridServer.Scheduler
open Library

variable {checks : Bool} {s s' : Scheduler} {job : ScheduledJob} {out : List Sent}

section Totals
variable {g : Giving} {q : PriorityQueue Worker} {w : WorkerId}

theorem offered_total (ready : g.Ready job q w) : Succeeds g.offered := by
  unfold Giving.offered
  refine (PriorityQueue.peekMut_total ready.tasks.indexed).bind fun r _ => ?_
  split <;> exact succeeds_pure _

theorem give_total {task : RefMut Task} (ready : g.Ready job q w)
    (room : (g.board q.get).Room) (hv : g.tasksQueue.get task.key = some task.value) :
    Succeeds (g.give checks task) := by
  have hb : (g.board q.get).tasks task.key = some task.value.assignments := by
    simp [Giving.board, Board.of, hv]
  have hfits : g.job.scheduledTasks + (!task.value.hasAssignments).toNat < 2 ^ 128 := by
    simpa [Task.hasAssignments, Giving.board, Board.of] using room.fits hb
  have hadd : Succeeds (u128Add checks g.job.scheduledTasks (!task.value.hasAssignments).toNat) :=
    ⟨_, addBits_of_lt hfits checks⟩
  exact (PriorityQueue.dropPeekMut_total Task.cmpPriority_decides ready.tasks.indexed
    (fun _ _ _ => trivial) trivial (by simp [hv])).bind fun _ _ => hadd.bind
      fun _ _ => succeeds_pure _

theorem giveTasks_total {n : Nat} {tasks : List WorkerTask} (ready : g.Ready job q w)
    (room : (g.board q.get).Room) : Succeeds (giveTasks checks n g tasks) := by
  induction n generalizing g tasks with
  | zero => exact succeeds_ok _
  | succ n ih =>
    refine (offered_total ready).bind fun offer ho => ?_
    cases offer with
    | none => exact succeeds_pure _
    | some task =>
      obtain ⟨_, _, hv, _⟩ := Giving.offered_some ho
      refine (give_total ready room hv).bind fun g₁ h₁ => ?_
      obtain ⟨ready₁, hb₁, _⟩ := give_refines ready hv h₁
      exact ih ready₁ (hb₁ ▸ room.give w task.key)

theorem giveReplacements_total {n : Nat} {rs : List (TaskId × WorkerTask)}
    (ready : g.Ready job q w) (room : (g.board q.get).Room) :
    Succeeds (giveReplacements checks n g rs) := by
  induction n generalizing g rs with
  | zero => exact succeeds_ok _
  | succ n ih =>
    refine (offered_total ready).bind fun offer ho => ?_
    cases offer with
    | none => exact succeeds_pure _
    | some task =>
      obtain ⟨_, _, hv, _⟩ := Giving.offered_some ho
      obtain ⟨ready₀, hb₀⟩ := popped_refines ready
      have room₀ := hb₀ ▸ room.useReplacement w
      dsimp only
      split
      · refine (give_total ready₀ room₀ hv).bind fun g₁ h₁ => ?_
        obtain ⟨ready₁, hb₁, _⟩ := give_refines ready₀ hv h₁
        exact ih ready₁ (hb₁ ▸ room₀.give w task.key)
      · exact ih ready₀ room₀

/-- While every worker fits and the counter has room, `process_scheduling` ends. -/
theorem processScheduling_total (sound : s.Sound) (fits : s.Capacity)
    (room : ∀ job, s.scheduledJob = some job → (s.board job).Room) :
    Succeeds (s.processScheduling checks) := by
  unfold processScheduling
  split
  · exact succeeds_ok _
  rename_i job hj
  refine (PriorityQueue.peekMut_total sound.workers.indexed).bind fun peeked hp => ?_
  rcases PriorityQueue.peekMut_ok hp with ⟨rfl, _⟩ | ⟨w, v, rfl, _, hv⟩
  · exact succeeds_pure _
  have hfit := fits w v hv
  refine Succeeds.bind ⟨_, subBits_of_le hfit checks⟩ fun n hn => ?_
  dsimp only
  split
  · have ready : Giving.Ready job s.workersQueue w
        ⟨job, s.tasksQueue, ⟨w, v, false⟩, s.needSchedule⟩ :=
      ⟨.refl job, rfl, sound.tasks, rfl, sound.workers.keyed w v hv, RefMut.of_get hv⟩
    have room₀ : (Giving.board s.workersQueue.get
        ⟨job, s.tasksQueue, ⟨w, v, false⟩, s.needSchedule⟩).Room := by
      rw [Giving.board, ← hv, Function.update_eq_self]
      exact room job hj
    apply (giveTasks_total ready room₀).bind
    intro r h₁
    obtain ⟨g₁, tasks⟩ := r
    obtain ⟨given, _, _, ready₁, hb₁, _⟩ := giveTasks_refines ready h₁
    have room₁ : (g₁.board s.workersQueue.get).Room := by
      rw [hb₁]
      refine room₀.gifts fun m hm => ?_
      obtain ⟨t, _, rfl⟩ := List.mem_map.mp hm
      exact .inl ⟨w, t.id, rfl⟩
    apply (giveReplacements_total ready₁ room₁).bind
    intro r h₂
    obtain ⟨g₂, replacements⟩ := r
    obtain ⟨_, _, _, _, ready₂, _⟩ := giveReplacements_refines ready₁ (Nat.le_refl _) h₂
    have hof := dispatch_of (s := s) ready₂.borrow tasks replacements
    refine Succeeds.bind (x := s.workersQueue.dropPeekMut (Worker.cmpPriority checks)
      (s.dispatch g₂ tasks replacements).1) ?_ fun _ _ => succeeds_pure _
    exact PriorityQueue.dropPeekMut_total (Worker.cmpPriority_decides checks)
      sound.workers.indexed (fun w v hv => Nat.le_trans (Nat.le_add_right _ _) (fits w v hv))
      (dispatch_fits ready hn hfit h₁ h₂) hof.present
  · exact succeeds_pure _

end Totals

section Progress

/-- What the workers together could still be given. -/
def slack (s : Scheduler) : Nat :=
  s.workersQueue.total fun v => v.subworkers - v.assignments.length

/-- A call that does not lower `need_schedule` fills the worker at the head. -/
theorem processScheduling_progress (sound : s.Sound) (fits : s.Capacity)
    (hj : s.scheduledJob = some job) (h : s.processScheduling checks = .ok (s', out)) :
    s'.needSchedule = false ∨ s'.slack < s.slack := by
  rcases processScheduling_cases hj h with ⟨rfl, _⟩ |
    ⟨w, v, n, g₁, tasks, g₂, replacements, workersQueue, hw, hv, hn, hfree, h₁, h₂, hd, rfl, _⟩
  · exact .inl rfl
  have ready : Giving.Ready job s.workersQueue w
      ⟨job, s.tasksQueue, ⟨w, v, false⟩, s.needSchedule⟩ :=
    ⟨.refl job, rfl, sound.tasks, rfl, sound.workers.keyed w v hv, RefMut.of_get hv⟩
  obtain ⟨given, _, _, ready₁, _, hw₁, hend₁⟩ := giveTasks_refines ready h₁
  obtain ⟨given', kept, _, _, ready₂, _, _, hw₂, hend₂⟩ :=
    giveReplacements_refines ready₁ (Nat.le_refl _) h₂
  rcases hend₁ with ⟨hlen, _⟩ | ⟨hneed, hnone⟩
  · rcases hend₂ with ⟨hlen', _⟩ | ⟨hneed, _⟩
    · -- both loops ran to their ends
      refine .inr ?_
      have hroom := canAccept_eq hn (fits w v hv)
      have hof := dispatch_of (s := s) ready₂.borrow tasks replacements
      obtain ⟨hkey, hasJobData, hval⟩ := dispatch_worker (s := s) g₂ tasks replacements
      rw [ready₂.key] at hkey
      obtain ⟨hi, hget⟩ := PriorityQueue.dropPeekMut_content sound.workers.indexed hof.present
        hof.clean hd
      rw [hkey] at hget
      have htotal := PriorityQueue.total_update (f := fun v : Worker =>
        v.subworkers - v.assignments.length) sound.workers.indexed hi hv hget
      have hdue : g₁.worker.value.replacements = v.replacements := by rw [hw₁]
      rw [hdue] at hlen'
      rw [hval, hw₂, hw₁] at htotal
      simp only [List.length_append, List.length_map] at htotal
      change workersQueue.total _ < s.workersQueue.total _
      omega
    · exact .inl hneed
  · exact .inl ((giveReplacements_stopped hnone h₂).2.2 hneed)

/-- One call of `process_scheduling` is some gifts, and everything still fits. -/
theorem processScheduling_gifts (sound : s.Sound) (fits : s.Capacity)
    (hj : s.scheduledJob = some job) (h : s.processScheduling checks = .ok (s', out)) :
    s'.Capacity ∧ ∃ ms, Follows s job s' ms ∧ ∀ m ∈ ms, Board.Gift m := by
  obtain ⟨ms, follows, traces, gifts⟩ : ∃ ms, Follows s job s' ms ∧
      Traces checks s job .schedule ms ∧ ∀ m ∈ ms, Board.Gift m := by
    rcases processScheduling_refines sound hj h with ⟨_, _, hf⟩ |
      ⟨w, v, n, tasks, replacements, kept, hw, hv, hn, hlen, hkept, hf, _⟩
    · exact ⟨[], hf, .idle, by simp⟩
    · exact ⟨_, hf, .schedule tasks replacements hw hv hn hlen hkept,
        fun m hm => Board.gift_of_mem hm⟩
  obtain ⟨job', hj', _, hboard⟩ := follows.books
  have met : s.CapacityStep .schedule := fun _ _ => trivial
  have fits' : (s'.board job').Capacity := by
    rw [hboard]
    exact met.traces hj traces (board_capacity.mpr fits)
  exact ⟨board_capacity.mp fits', ms, follows, gifts⟩

/-- What a call of `process_scheduling` leaves as it needs it. -/
theorem processScheduling_keeps (sound : s.Sound) (fits : s.Capacity)
    (hj : s.scheduledJob = some job) (room : (s.board job).Room)
    (h : s.processScheduling checks = .ok (s', out)) :
    s'.Sound ∧ s'.Capacity ∧ ∃ job', s'.scheduledJob = some job' ∧ (s'.board job').Room := by
  obtain ⟨fits', ms, follows, gifts⟩ := processScheduling_gifts sound fits hj h
  obtain ⟨job', hj', _, hboard⟩ := follows.books
  refine ⟨follows.sound, fits', job', hj', ?_⟩
  rw [hboard]
  exact room.gifts gifts

/-- `n` calls of `process_scheduling`, with no other event in between. -/
def scheduleTimes (checks : Bool) : Nat → Scheduler → Except Fault Scheduler
  | 0, s => .ok s
  | n + 1, s => do
    let (s, _) ← s.processScheduling checks
    scheduleTimes checks n s

/-- With a job, the calls end after as many as there is slack, and one more. -/
theorem scheduleTimes_settles (n : Nat) (hslack : s.slack ≤ n) (sound : s.Sound)
    (fits : s.Capacity) (hj : s.scheduledJob = some job) (room : (s.board job).Room) :
    ∃ k ≤ 1 + n, ∃ s', scheduleTimes checks k s = .ok s' ∧ s'.needSchedule = false := by
  have total : ∀ (s : Scheduler) (job : ScheduledJob), s.Sound → s.Capacity → s.scheduledJob = some job →
      (s.board job).Room → Succeeds (s.processScheduling checks) := by
    intro s job sound fits hj room
    refine processScheduling_total sound fits fun job' hj' => ?_
    rw [hj, Option.some.injEq] at hj'
    exact hj' ▸ room
  induction n generalizing s job with
  | zero =>
    obtain ⟨⟨s₁, out⟩, h⟩ := total s job sound fits hj room
    rcases processScheduling_progress sound fits hj h with hdone | hless
    · exact ⟨1, by omega, s₁, by simp [scheduleTimes, h], hdone⟩
    · omega
  | succ n ih =>
    obtain ⟨⟨s₁, out⟩, h⟩ := total s job sound fits hj room
    rcases processScheduling_progress sound fits hj h with hdone | hless
    · exact ⟨1, by omega, s₁, by simp [scheduleTimes, h], hdone⟩
    · obtain ⟨sound₁, fits₁, job₁, hj₁, room₁⟩ := processScheduling_keeps sound fits hj room h
      obtain ⟨k, hk, s', hs, hdone⟩ := ih (by omega) sound₁ fits₁ hj₁ room₁
      exact ⟨k + 1, by omega, s', by simpa [scheduleTimes, h] using hs, hdone⟩

/-- Without a job, a call changes nothing. -/
theorem scheduleTimes_jobless (hj : s.scheduledJob = none) (n : Nat) :
    scheduleTimes checks n s = .ok s := by
  induction n with
  | zero => rfl
  | succ n ih => simpa [scheduleTimes, processScheduling, hj] using ih

end Progress

/-- In every run that keeps the workers within their subworkers, a state that waits for
`process_scheduling` settles within the slack and one more call exactly when there is a job. -/
theorem run_settles {config : Config} {es : List Event}
    (run : Run (step checks) CapacityStep (Scheduler.new config) es out s)
    (hneed : s.needSchedule = true)
    (room : ∀ job, s.scheduledJob = some job →
      job.scheduledTasks + s.tasksQueue.heap.length < 2 ^ 128) :
    (∃ n ≤ 1 + s.slack, ∃ s', scheduleTimes checks n s = .ok s' ∧ s'.needSchedule = false) ↔
      s.scheduledJob.isSome := by
  constructor
  · rintro ⟨n, _, s', hs, hdone⟩
    cases hj : s.scheduledJob with
    | some job => rfl
    | none =>
      rw [scheduleTimes_jobless hj, Except.ok.injEq] at hs
      rw [← hs, hneed] at hdone
      cases hdone
  · intro hsome
    obtain ⟨job, hj⟩ := Option.isSome_iff_exists.mp hsome
    have sound := run_sound run
    exact scheduleTimes_settles _ (Nat.le_refl _) sound (capacity_of_run run).2 hj
      (room_of_lt sound (room job hj))

/-- A worker connects while a job waits for one. -/
theorem run_settles_small : ∃ out s,
    Run (step true) CapacityStep (Scheduler.new smallConfig)
      [jobOf 2, tasksOf [0, 1], joinOf 1 2] out s ∧ s.needSchedule = true ∧
      ((∃ n ≤ 1 + s.slack, ∃ s', scheduleTimes true n s = .ok s' ∧ s'.needSchedule = false) ↔
        s.scheduledJob.isSome) := by
  obtain ⟨s, out, run, h⟩ := exists_run (step true) CapacityStep (Scheduler.new smallConfig)
    [jobOf 2, tasksOf [0, 1], joinOf 1 2]
    (fun r => r.1.needSchedule && decide (∀ job ∈ r.1.scheduledJob,
      job.scheduledTasks + r.1.tasksQueue.heap.length < 2 ^ 128)) (by decide +kernel)
  rw [Bool.and_eq_true, decide_eq_true_eq] at h
  exact ⟨out, s, run, h.1, run_settles run h.1 h.2⟩

/-- A worker connects before there is a job: `need_schedule` stays, however often the scheduling
branch runs. -/
theorem run_settles_fails : ∃ out s,
    Run (step true) ReportsOwn (Scheduler.new smallConfig) [joinOf 1 2] out s ∧
      s.needSchedule = true ∧
      ∀ n, ∃ s', scheduleTimes true n s = .ok s' ∧ s'.needSchedule = true := by
  obtain ⟨s, out, run, h⟩ := exists_run (step true) ReportsOwn (Scheduler.new smallConfig)
    [joinOf 1 2] (fun r => r.1.needSchedule && r.1.scheduledJob.isNone) (by decide +kernel)
  rw [Bool.and_eq_true, Option.isNone_iff_eq_none] at h
  exact ⟨out, s, run, h.1, fun n => ⟨s, scheduleTimes_jobless h.2 n, h.1⟩⟩

end GridServer.Scheduler
