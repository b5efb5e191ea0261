import GridServer.Scheduler.Delivery
import Mathlib.Algebra.Order.Field.Rat
import Mathlib.Tactic.FieldSimp
import Mathlib.Tactic.NormNum
import Mathlib.Tactic.Positivity
import Mathlib.Tactic.Ring

namespace GridServer
open Library

/-- What a result changes of a job, and nothing else does until the next job starts. -/
def ScheduledJob.progress (job : ScheduledJob) : Nat × Duration :=
  (job.completedTasks, job.avgTaskCompletionTime)

namespace Scheduler
variable {checks : Bool} {s s' : Scheduler} {job job' : ScheduledJob} {out : List Sent} {e : Event}

section Loops
variable {g g' : Giving} {b b' : Borrowed}

theorem give_progress {task : RefMut Task} (h : g.give checks task = .ok g') :
    g'.job.progress = g.job.progress := by
  simp only [Giving.give, bind_ok, except_pure, Except.ok.injEq] at h
  obtain ⟨_, _, _, _, rfl⟩ := h
  rfl

theorem giveTasks_progress {n : Nat} {tasks tasks' : List WorkerTask}
    (h : giveTasks checks n g tasks = .ok (g', tasks')) : g'.job.progress = g.job.progress :=
  giveTasks_keeps (I := fun g' => g'.job.progress = g.job.progress) (fun _ kept => kept)
    (fun _ _ _ kept _ hgive => (give_progress hgive).trans kept) rfl h

theorem giveReplacements_progress {n : Nat} {rs rs' : List (TaskId × WorkerTask)}
    (h : giveReplacements checks n g rs = .ok (g', rs')) : g'.job.progress = g.job.progress :=
  giveReplacements_keeps (I := fun g' => g'.job.progress = g.job.progress) (fun _ kept => kept)
    (fun _ _ _ kept _ hgive => (give_progress hgive).trans kept) (fun _ kept => kept) rfl h

theorem report_progress {edit : RefMut Task → Except Fault (RefMut Task)}
    {after : RefMut Worker → RefMut Worker} {t : TaskId}
    (h : report checks edit after b t = .ok b') : b'.job.progress = b.job.progress := by
  unfold report at h
  split at h
  · obtain ⟨_, _, h⟩ := bind_ok.mp h
    cases h
    rfl
  · simp only [bind_ok, except_pure, Except.ok.injEq] at h
    obtain ⟨_, _, _, _, _, _, rfl⟩ := h
    rfl

/-- A loop of reports. -/
theorem reports_progress {α : Type} {f : Borrowed → α → Except Fault Borrowed}
    (step : ∀ b a b', f b a = .ok b' → b'.job.progress = b.job.progress) {as : List α}
    (h : as.foldlM f b = .ok b') : b'.job.progress = b.job.progress :=
  foldlM_invariant (I := fun _ (b' : Borrowed) => b'.job.progress = b.job.progress)
    (fun a _ b b' hb hf => (step b a b' hf).trans hb) rfl h

theorem abandonTask_progress {w : WorkerId} {t : TaskId}
    {held held' : PriorityQueue Task × ScheduledJob} (h : abandonTask checks w held t = .ok held') :
    held'.2.progress = held.2.progress := by
  unfold abandonTask at h
  split at h
  · cases h
    rfl
  · simp only [bind_ok, except_pure, Except.ok.injEq] at h
    obtain ⟨_, _, _, _, rfl⟩ := h
    rfl

end Loops

/-- The step has at most the job that there was, as far along as it was. -/
def Carries (s s' : Scheduler) : Prop :=
  ∀ job', s'.scheduledJob = some job' →
    ∃ job, s.scheduledJob = some job ∧ job'.progress = job.progress

namespace Carries

theorem of_eq (h : s'.scheduledJob = s.scheduledJob) : Carries s s' := by
  intro job' hj'
  exact ⟨job', h ▸ hj', rfl⟩

theorem none (h : s'.scheduledJob = .none) : Carries s s' := by
  intro job' hj'
  rw [h] at hj'
  cases hj'

theorem some (hj : s.scheduledJob = .some job) (h : s'.scheduledJob = .some job')
    (same : job'.progress = job.progress) : Carries s s' := by
  intro job'' hj''
  rw [h, Option.some.injEq] at hj''
  exact ⟨job, hj, hj'' ▸ same⟩

theorem putBack {b : Borrowed} {need : Bool} (hj : s.scheduledJob = .some job)
    (same : b.job.progress = job.progress) (h : s.putBack checks b (.some b.job) need = .ok s') :
    Carries s s' := by
  obtain ⟨_, _, rfl⟩ := putBack_ok.mp h
  exact .some hj rfl same

theorem schedule (h : s.processScheduling checks = .ok (s', out)) : Carries s s' := by
  cases hj : s.scheduledJob with
  | none =>
    obtain ⟨rfl, _⟩ := processScheduling_idle hj h
    exact .of_eq rfl
  | some job =>
    rcases processScheduling_cases hj h with ⟨rfl, _⟩ |
      ⟨_, _, _, g₁, _, g₂, _, _, _, _, _, _, hgive, hreplace, _, rfl, _⟩
    · exact .of_eq rfl
    · exact .some hj rfl ((giveReplacements_progress hreplace).trans (giveTasks_progress hgive))

theorem workerDisconnect {w : WorkerId} (h : s.processWorkerDisconnect checks w = .ok s') :
    Carries s s' := by
  obtain ⟨_, _, _, job, _, _, rfl, hend⟩ := processWorkerDisconnect_ok h
  rcases hend with ⟨_, _, rfl, _⟩ | ⟨_, _, _, _, ⟨hj, _, rfl⟩ | ⟨before, after, hj, rfl, hloop⟩⟩
  · exact .of_eq rfl
  · exact .none rfl
  · refine .some hj rfl ?_
    exact foldlM_invariant
      (I := fun _ (held : PriorityQueue Task × ScheduledJob) => held.2.progress = before.progress)
      (fun _ _ _ _ hheld hstep => (abandonTask_progress hstep).trans hheld) rfl hloop

theorem libraryMissing {w : WorkerId} {tasks : List TaskId} {replacements : List (TaskId × TaskId)}
    (h : s.processLibraryMissing checks w tasks replacements = .ok (s', out)) : Carries s s' := by
  obtain ⟨_, ⟨rfl, _⟩ | ⟨job, _, b₁, b₂, hj, _, htasks, hreplacements, hput⟩⟩ :=
    processLibraryMissing_ok h
  · exact .of_eq rfl
  · refine .putBack hj ?_ hput
    have first := reports_progress (fun _ _ _ hstep => report_progress hstep) htasks
    have second := reports_progress (fun _ _ _ hstep => report_progress hstep) hreplacements
    exact second.trans first

theorem noFreeExecutors {w : WorkerId} {tasks : List TaskId}
    (h : s.processNoFreeExecutors checks w tasks = .ok (s', out)) : Carries s s' := by
  obtain ⟨_, ⟨rfl, _⟩ | ⟨job, _, _, _, b, hj, _, _, htasks, hput⟩⟩ := processNoFreeExecutors_ok h
  · exact .of_eq rfl
  · exact .putBack hj (reports_progress (fun _ _ _ hstep => report_progress hstep) htasks) hput

theorem taskExecutionError {w : WorkerId} {t : TaskId} {error : String}
    (h : s.processTaskExecutionError checks w t error = .ok (s', out)) : Carries s s' := by
  rcases processTaskExecutionError_ok h with ⟨rfl, _⟩ | ⟨job, _, b, _, hj, _, hreport, hput, hend⟩
  · exact .of_eq rfl
  · rcases hend with ⟨_, rfl, _⟩ | ⟨_, rfl, _⟩
    · obtain ⟨_, _, rfl⟩ := putBack_ok.mp hput
      exact .none rfl
    · exact .putBack hj (report_progress hreport) hput

theorem tasks {batch : List WorkerTask} (h : s.processTaskBatch checks batch = .ok (s', out)) :
    Carries s s' := by
  obtain ⟨_, ⟨rfl, _⟩ | ⟨_, _, _, hj, _, _, rfl⟩⟩ := processTaskBatch_ok h
  · exact .of_eq rfl
  · exact .some hj rfl rfl

theorem createdSession (h : s.processCreatedSession = .ok (s', out)) : Carries s s' := by
  rcases processCreatedSession_ok h with ⟨rfl, _⟩ | ⟨_, _, _, rfl, hend⟩
  · exact .of_eq rfl
  · rcases hend with ⟨_, _, rfl, _⟩ | ⟨before, hj, _, rfl, _⟩
    · exact .none rfl
    · exact .some hj rfl rfl

end Carries

/-- Only the start of a job and a result change its progress. -/
theorem step_carries
    (hnew : ∀ id totalTasks data, e ≠ .taskManager (.message (.newJob id totalTasks data)))
    (hresult : ∀ w result, e ≠ .worker (.message w (.result result)))
    (h : s.step checks e = .ok (s', out)) : Carries s s' := by
  cases step_branch h with
  | hello | noTaskManager | nodes | nodeManagerConnected | scheduledJob | listedWorkers
  | listedTasks | taskManagerConnected | restoredSession | nodeManagerLeft => exact .of_eq rfl
  | newJob id totalTasks data => exact absurd rfl (hnew id totalTasks data)
  | tasks batch _ _ taken => exact .tasks taken
  | taskManagerLeft => exact .none rfl
  | nodeLeft w _ taken | disconnected w _ taken => exact .workerDisconnect taken
  | createdSession _ _ taken => exact .createdSession taken
  | schedule _ _ _ taken => exact .schedule taken
  | connected info node _ _ taken =>
    obtain ⟨_, _, _, _, rfl⟩ := processConnected_ok taken
    exact .of_eq rfl
  | result w result _ _ taken => exact absurd rfl (hresult w result)
  | libraryMissing w tasks replacements _ _ taken => exact .libraryMissing taken
  | taskExecutionError w t error _ _ taken => exact .taskExecutionError taken
  | noFreeExecutors w tasks _ _ taken => exact .noFreeExecutors taken

/-- The weight of the earlier results is cut off to nothing. -/
theorem nextAverage_eq (job : ScheduledJob) (time : Duration) :
    nextAverage job (job.completedTasks + 1) time =
      .ok (time / (job.completedTasks + 1) % 2 ^ 64) := by
  have hweight : job.completedTasks / (job.completedTasks + 1) = 0 :=
    Nat.div_eq_of_lt (Nat.lt_succ_self _)
  simp only [nextAverage, u128Div, Nat.add_one_ne_zero, ↓reduceIte, ok_bind, hweight, Nat.mul_zero,
    Nat.zero_add, except_pure]

/-- The history variable: the execution times of the results accepted for the current job. -/
def noteTime (times : List Duration) (s : Scheduler) (e : Event) (_ : List Sent) : List Duration :=
  match e with
  | .taskManager (.message (.newJob ..)) => []
  | .worker (.message _ (.result _)) =>
    times ++ ((s.accepts e).map WorkerResult.executionTime).toList
  | _ => times

/-- The results are counted, and the average is the share of the last one. -/
structure Timed (job : ScheduledJob) (times : List Duration) : Prop where
  count : job.completedTasks = times.length
  average : ∀ earlier last, times = earlier ++ [last] →
    job.avgTaskCompletionTime = last / times.length % 2 ^ 64

theorem Timed.carries {times : List Duration} (timed : Timed job times)
    (same : job'.progress = job.progress) : Timed job' times := by
  obtain ⟨hcount, haverage⟩ := Prod.mk.inj same
  exact ⟨hcount.trans timed.count, fun earlier last h => haverage.trans (timed.average earlier last h)⟩

theorem Timed.accept {times : List Duration} (timed : Timed job times) {time : Duration}
    (hcount : job'.completedTasks = job.completedTasks + 1)
    (haverage : nextAverage job (job.completedTasks + 1) time = .ok job'.avgTaskCompletionTime) :
    Timed job' (times ++ [time]) := by
  rw [nextAverage_eq, Except.ok.injEq] at haverage
  refine ⟨?_, ?_⟩
  · rw [hcount, timed.count, List.length_append, List.length_singleton]
  · intro earlier last h
    have hlast : time = last := (List.append_inj' h rfl).2 |> List.singleton_inj.mp
    rw [← haverage, hlast, timed.count, List.length_append, List.length_singleton]

theorem timed_result {times : List Duration} (sound : s.Sound)
    (timed : ∀ job, s.scheduledJob = some job → Timed job times) {w : WorkerId}
    {result : WorkerResult} (h : s.processResult checks w result = .ok (s', out)) :
    ∀ job, s'.scheduledJob = some job →
      Timed job (noteTime times s (.worker (.message w (.result result))) out) := by
  intro job' hj'
  cases hj : s.scheduledJob with
  | none =>
    simp only [processResult, hj, Except.ok.injEq, Prod.mk.injEq] at h
    rw [← h.1, hj] at hj'
    cases hj'
  | some job =>
    cases ht : s.tasksQueue.get result.id with
    | none =>
      obtain ⟨_, ⟨_, _, rfl⟩, _⟩ := processResult_late sound hj ht h
      rw [noteTime, accepts, ht]
      simpa using timed job' hj'
    | some task =>
      obtain ⟨average, tasksQueue, workersQueue, buffer, _, _, _, _, haverage, _, hend⟩ :=
        processResult_queued sound hj ht h
      have hjob : job' = { job with
          completedTasks := job.completedTasks + 1, avgTaskCompletionTime := average } := by
        rcases hend with ⟨_, rfl, _⟩ | ⟨_, rfl, _⟩
        · exact (Option.some.inj hj').symm
        · exact (Option.some.inj hj').symm
      subst hjob
      rw [noteTime, accepts, hj, ht]
      exact (timed job hj).accept rfl haverage

theorem step_timed {times : List Duration} (sound : s.Sound)
    (timed : ∀ job, s.scheduledJob = some job → Timed job times)
    (h : s.step checks e = .ok (s', out)) :
    ∀ job, s'.scheduledJob = some job → Timed job (noteTime times s e out) := by
  have carried (hnew : ∀ id totalTasks data, e ≠ .taskManager (.message (.newJob id totalTasks data)))
      (hresult : ∀ w result, e ≠ .worker (.message w (.result result))) :
      ∀ job, s'.scheduledJob = some job → Timed job times := by
    intro job' hj'
    obtain ⟨job, hj, same⟩ := step_carries hnew hresult h job' hj'
    exact (timed job hj).carries same
  cases e with
  | schedule | command | nodeManager => exact carried (by simp) (by simp)
  | taskManager event =>
    cases event with
    | connected | disconnect => exact carried (by simp) (by simp)
    | message request =>
      cases request with
      | helloMessage | task => exact carried (by simp) (by simp)
      | newJob id totalTasks data =>
        intro job hj
        simp only [step, processTaskManager, Except.ok.injEq, Prod.mk.injEq, processNewJob] at h
        rw [← h.1, Option.some.injEq] at hj
        subst hj
        exact ⟨rfl, by simp [noteTime]⟩
  | worker event =>
    cases event with
    | connected | disconnected => exact carried (by simp) (by simp)
    | message w response =>
      cases response with
      | error => exact carried (by simp) (by simp)
      | result result => exact timed_result sound timed h

/-- An average is as near to the mean of the times as two nanoseconds for each of them. -/
def NearMean (average : Duration) (times : List Duration) : Prop :=
  |(average : ℚ) - (times.sum : ℚ) / times.length| ≤ 2 * times.length

/-- The share of the last time is near to the mean when the earlier ones are small. -/
theorem nearMean_share (earlier : List Duration) (last : Duration) :
    NearMean (last / (earlier ++ [last]).length) (earlier ++ [last]) ↔
      earlier.sum + last % (earlier.length + 1) ≤ 2 * (earlier.length + 1) ^ 2 := by
  obtain ⟨n, hn⟩ : ∃ n, n = earlier.length + 1 := ⟨_, rfl⟩
  have hpos : (0 : ℚ) < n := by
    rw [hn]
    exact_mod_cast Nat.succ_pos _
  have hlength : (earlier ++ [last]).length = n := by simp [hn]
  have hsum : (earlier ++ [last]).sum = earlier.sum + last % n + n * (last / n) := by
    have hlast : last % n + n * (last / n) = last := Nat.mod_add_div last n
    rw [List.sum_append, List.sum_singleton, Nat.add_assoc, hlast]
  have hdiff : ((last / n : ℕ) : ℚ) - ((earlier ++ [last]).sum : ℚ) / n =
      -(((earlier.sum + last % n : ℕ) : ℚ) / n) := by
    rw [hsum]
    push_cast
    field_simp
    ring
  rw [NearMean, hlength, hdiff, abs_neg, abs_of_nonneg (by positivity), div_le_iff₀ hpos, ← hn]
  have hsquare : (2 * n * n : ℚ) = ((2 * n ^ 2 : ℕ) : ℚ) := by
    push_cast
    ring
  rw [hsquare, Nat.cast_le]

/-- In every run, the average after the results of a job is near to the mean of their execution
times exactly when those of all results but the last, with what the share of the last one cuts off,
come to no more than twice the square of their number. -/
theorem run_average {config : Config} {es : List Event} {earlier : List Duration} {last : Duration}
    (run : Run (noted (step checks) noteTime) (fun _ _ => True) (Scheduler.new config, []) es out
      (s, earlier ++ [last])) (hj : s.scheduledJob = some job)
    (fits : (earlier ++ [last]).sum < 2 ^ 64) :
    NearMean job.avgTaskCompletionTime (earlier ++ [last]) ↔
      earlier.sum + last % (earlier.length + 1) ≤ 2 * (earlier.length + 1) ^ 2 := by
  have timed : s.Sound ∧ ∀ job, s.scheduledJob = some job → Timed job (earlier ++ [last]) := by
    refine run.preserves
      (I := fun p => p.1.Sound ∧ ∀ job, p.1.scheduledJob = some job → Timed job p.2)
      ⟨sound_new config, by rintro _ ⟨⟩⟩ ?_
    intro p e q out hI _ taken
    obtain ⟨htaken, hnote⟩ := noted_ok.mp taken
    rw [hnote]
    exact ⟨(step_outcome hI.1 htaken).1, step_timed hI.1 hI.2 htaken⟩
  have hsmall : last / (earlier ++ [last]).length < 2 ^ 64 := by
    rw [List.sum_append, List.sum_singleton] at fits
    exact (Nat.div_le_self _ _).trans_lt ((Nat.le_add_left _ _).trans_lt fits)
  rw [(timed.2 job hj).average earlier last rfl, Nat.mod_eq_of_lt hsmall]
  exact nearMean_share earlier last

section SmallRuns

/-- A result that took a second. -/
def slowResultOf (w : WorkerId) (t : TaskId) : Event :=
  .worker (.message w (.result ⟨t, 1000000000, []⟩))

end SmallRuns

/-- Two results of five nanoseconds each average two. -/
theorem run_average_small : ∃ out s job,
    Run (noted (step true) noteTime) (fun _ _ => True) (Scheduler.new smallConfig, [])
      [jobOf 3, tasksOf [0, 1, 2], joinOf 1 1, .schedule, resultOf 1 0, .schedule, resultOf 1 1] out
      (s, [5] ++ [5]) ∧ s.scheduledJob = some job ∧ NearMean job.avgTaskCompletionTime [5, 5] := by
  obtain ⟨⟨s, times⟩, out, run, h⟩ := exists_run (noted (step true) noteTime) (fun _ _ => True)
    (Scheduler.new smallConfig, [])
    [jobOf 3, tasksOf [0, 1, 2], joinOf 1 1, .schedule, resultOf 1 0, .schedule, resultOf 1 1]
    (fun r => r.1.1.scheduledJob.isSome && decide (r.1.2 = [5] ++ [5])) (by decide +kernel)
  rw [Bool.and_eq_true, decide_eq_true_eq] at h
  obtain ⟨job, hj⟩ := Option.isSome_iff_exists.mp h.1
  have htimes : times = [5] ++ [5] := h.2
  subst htimes
  exact ⟨out, s, job, run, hj, (run_average run hj (by decide)).mpr (by decide)⟩

/-- Two results take a second each, and the average is half a second. -/
theorem run_average_fails : ¬∀ checks config es out s times job,
    Run (noted (step checks) noteTime) (fun _ _ => True) (Scheduler.new config, []) es out
      (s, times) → s.scheduledJob = some job → times ≠ [] → times.sum < 2 ^ 64 →
      NearMean job.avgTaskCompletionTime times := by
  intro hall
  obtain ⟨⟨s, times⟩, out, run, h⟩ := exists_run (noted (step true) noteTime) (fun _ _ => True)
    (Scheduler.new smallConfig, [])
    [jobOf 3, tasksOf [0, 1, 2], joinOf 1 1, .schedule, slowResultOf 1 0, .schedule,
      slowResultOf 1 1]
    (fun r => r.1.1.scheduledJob.any (fun job => job.avgTaskCompletionTime = 500000000) &&
      decide (r.1.2 = [1000000000, 1000000000])) (by decide +kernel)
  rw [Bool.and_eq_true, decide_eq_true_eq, Option.any_eq_true_iff_get] at h
  obtain ⟨⟨hsome, haverage⟩, htimes⟩ := h
  have htimes : times = [1000000000, 1000000000] := htimes
  subst htimes
  have hnear := hall true smallConfig _ out s _ (s.scheduledJob.get hsome) run
    (Option.some_get hsome).symm (by simp) (by decide)
  rw [NearMean, of_decide_eq_true haverage] at hnear
  norm_num at hnear

end Scheduler
end GridServer
