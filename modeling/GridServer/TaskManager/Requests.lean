import GridServer.Jobs.Announced
import GridServer.TaskManager.Underway

namespace GridServer.TaskManager
open Jobs Library

/-- The job's task of that id as it is sent, if it can be encoded. -/
def Externals.workerTask (externals : Externals) (data : JobData) (id : TaskId) :
    Option WorkerTask :=
  (externals.encodeTaskData (data.task id)).map fun bytes => ⟨id, bytes⟩

/-- The scheduler has been told of the job and of its first `k` tasks, each once and in the order of
their ids. -/
structure Told (externals : Externals) (id : Uuid) (data : JobData) (said : Said) (k : Nat) :
    Prop where
  job : ∃ args, externals.encodeJobData data = some args ∧
    said.job = some (id, data.total, externals.workerJobData args)
  tasks : said.tasks.map some = (List.range k).map (externals.workerTask data)

/-- What has been told of a job, by how far the work on it is. -/
def Telling (externals : Externals) (said : Said) (id : Uuid) (data : JobData) (work : Started) :
    Prop :=
  match work.phase with
  | .splitting splitter => ∃ k, splitter = .after data.t data.p k ∧ k ≤ data.total ∧ k < 2 ^ 64 ∧
      Told externals id data said k
  | _ => Told externals id data said data.total

/-- The scheduler has been told of the current job what its work says. -/
def Tells (checks : Bool) (externals : Externals) (said : Said) (s : State) : Prop :=
  s.Works fun id data work => Suited checks data → Telling externals said id data work

section
variable {checks : Bool} {externals : Externals} {s t u : State} {job : Job} {work work' : Started}
  {data : JobData} {said : Said} {id : Uuid} {k : Nat} {out : List Sent} {flow : Flow Distance}
  {tasks tasks' : TaskSet} {items : List (TaskId × TaskData)} {e : Event} {es : List Event}

theorem enlist_encodes {workersTasks : List WorkerTask}
    (h : enlist checks externals tasks items = .ok (tasks', some workersTasks)) :
    workersTasks.map some = items.map fun item =>
      (externals.encodeTaskData item.2).map fun bytes => (⟨item.1, bytes⟩ : WorkerTask) := by
  induction items generalizing tasks workersTasks with
  | nil =>
    cases h
    rfl
  | cons item items ih =>
    obtain ⟨id, task⟩ := item
    simp only [enlist, bind_ok] at h
    obtain ⟨⟨tasks₁, new⟩, _, h⟩ := h
    cases hencode : externals.encodeTaskData task with
    | none => simp [hencode] at h
    | some bytes =>
      simp only [hencode, bind_ok, except_pure, Except.ok.injEq, Prod.mk.injEq] at h
      obtain ⟨⟨tasks₂, rest⟩, hrest, rfl, hsome⟩ := h
      cases rest with
      | none => cases hsome
      | some rest =>
        cases hsome
        rw [List.map_cons, List.map_cons, ih hrest]
        simp [hencode]

theorem processResult_phase {result : WorkerResult}
    (h : processResult checks externals work result = .ok (work', flow)) :
    work'.phase = work.phase := by
  unfold processResult at h
  split at h
  · cases h
    rfl
  · obtain ⟨⟨tasks, removed⟩, _, h⟩ := bind_ok.mp h
    cases removed with
    | false =>
      cases h
      rfl
    | true =>
      simp only [↓reduceIte, bind_ok, except_pure, Except.ok.injEq, Prod.mk.injEq] at h
      obtain ⟨_, _, _, _, rfl, _⟩ := h
      rfl

theorem processResults_phase {results : List WorkerResult}
    (h : processResults checks externals work results = .ok (work', flow)) :
    work'.phase = work.phase := by
  induction results generalizing work with
  | nil =>
    cases h
    rfl
  | cons result results ih =>
    obtain ⟨⟨work₁, flow₁⟩, hfirst, h⟩ := bind_ok.mp h
    have hphase := processResult_phase hfirst
    cases flow₁ with
    | «continue» => exact (ih h).trans hphase
    | finish jobResult =>
      cases h
      exact hphase
    | stop =>
      cases h
      exact hphase

theorem receive_phase {stats : Option JobStats} {results : List WorkerResult}
    (h : (engine checks externals).receive work stats results = .ok (work', flow)) :
    work'.phase = work.phase := by
  cases stats with
  | none => exact processResults_phase h
  | some jobStats =>
    have hphase : work'.phase = { work with stats := some jobStats }.phase := processResults_phase h
    exact hphase

theorem Telling.of_phase (h : Telling externals said id data work) (hphase : work'.phase = work.phase) :
    Telling externals said id data work' := by
  unfold Telling at h ⊢
  rw [hphase]
  exact h

/-- The number of tasks that is announced is that of the tasks there are. -/
theorem Suited.totalTasks (suited : Suited checks data) {total : Nat}
    (h : (TaskSplitter.after data.t data.p 0).totalTasks checks = .ok total) :
    total = data.total := by
  have hcomm : TaskSplitter.half data.p * data.t = data.total := Nat.mul_comm _ _
  change mulBits 128 checks (TaskSplitter.half data.p) data.t = .ok total at h
  unfold mulBits at h
  rw [hcomm] at h
  split at h
  · cases h
  · rename_i hfits
    rw [Except.ok.injEq] at h
    rw [← h]
    refine Nat.mod_eq_of_lt ?_
    cases hchecks : checks with
    | false =>
      have hcountable := suited.countable hchecks
      omega
    | true => exact Nat.lt_of_not_le fun hle => hfits ⟨hchecks, hle⟩

/-- A started job is announced with the number of tasks that there are to be. -/
theorem startJob_tells (queued : ∀ job ∈ s.jobsQueue, job.state = .notStarted)
    (hc : s.currentJob = some job) (hstate : job.state = .notStarted)
    (h : startJob checks externals s job = .ok (u, out, flow)) :
    Tells checks externals (said.note s .processJob out) u := by
  have hidle : Tells checks externals (said.note s .processJob out) s := by
    apply Jobs.State.Works.idle queued
    intro job' hjob'
    rw [hc, Option.mem_some] at hjob'
    rw [← hjob', hstate]
  unfold startJob at h
  split at h
  · cases h
    exact hidle.congr rfl rfl
  · obtain ⟨splitter, hsplitter, h⟩ := bind_ok.mp h
    split at h
    · cases h
      exact hidle
    · rename_i args hargs
      simp only [bind_ok, except_pure, Except.ok.injEq, Prod.mk.injEq] at h
      obtain ⟨total, htotal, tables, htables, rfl, rfl, _⟩ := h
      refine ⟨queued, Jobs.State.forall_work rfl ?_⟩
      intro suited
      obtain ⟨hafter, a⟩ := (Attempt.start suited hsplitter htables :
        _ ∧ Attempt checks externals _ [] 0 ∅ _)
      have hcount := suited.totalTasks (hafter ▸ htotal)
      exact ⟨0, hafter, Nat.zero_le _, a.small, ⟨args, hargs, by rw [hcount]; rfl⟩, rfl⟩

/-- A batch continues with the next tasks. -/
theorem Told.more (h : Told externals id data said k) {n : Nat} {workersTasks : List WorkerTask}
    (hitems : items = (List.range' k n).map fun id => (id, data.task id))
    (henlist : enlist checks externals tasks items = .ok (tasks', some workersTasks)) :
    Told externals id data (said.hear (.task workersTasks)) (k + n) := by
  refine ⟨h.job, ?_⟩
  have hmore := enlist_encodes henlist
  rw [hitems, List.map_map] at hmore
  change (said.tasks ++ workersTasks).map some = _
  rw [List.map_append, h.tasks, hmore, List.range_eq_range', List.range_eq_range',
    ← List.range'_append, List.map_append, Nat.zero_add, Nat.one_mul]
  rfl

theorem splitJob_tells {splitter : TaskSplitter} (h₀ : Tells checks externals said s)
    (hc : s.currentJob = some job) (hstate : job.state = .started work)
    (hphase : work.phase = .splitting splitter)
    (h : splitJob checks externals s job work splitter = .ok (u, out, .continue)) :
    Tells checks externals (said.note s .processJob out) u := by
  unfold splitJob at h
  split at h
  · cases h
    exact h₀.congr rfl rfl
  · obtain ⟨⟨chunk, splitter'⟩, hchunk, h⟩ := bind_ok.mp h
    obtain ⟨⟨tasks, workersTasks⟩, henlist, h⟩ := bind_ok.mp h
    cases workersTasks with
    | none => cases h
    | some workersTasks =>
      simp only [except_pure, Except.ok.injEq, Prod.mk.injEq] at h
      obtain ⟨rfl, rfl, _⟩ := h
      refine ⟨h₀.queued, Jobs.State.forall_work rfl ?_⟩
      intro suited
      have htelling := h₀.current job work hc hstate suited
      simp only [Telling, hphase] at htelling
      obtain ⟨k, rfl, hle, hlt, told⟩ := htelling
      cases chunk with
      | ok batch =>
        obtain ⟨hyields, _⟩ := yields_of_full hchunk
        obtain ⟨n, hitems, hsplitter, hle', hlt'⟩ :=
          yields_after suited.some_passenger hle hlt suited.countable hyields
        exact ⟨k + n, hsplitter, hle', hlt', told.more hitems henlist⟩
      | error left =>
        obtain ⟨last, hyields, hend⟩ := yields_of_left hchunk
        obtain ⟨n, hitems, rfl, hle', hlt'⟩ :=
          yields_after suited.some_passenger hle hlt suited.countable hyields
        have htotal : k + n = job.data.total := by
          by_contra hne
          rw [TaskSplitter.next_eq suited.some_passenger (lt_of_le_of_ne hle' hne), bind_ok] at hend
          obtain ⟨_, _, hend⟩ := hend
          cases hend
        have htold := told.more hitems henlist
        rw [htotal] at htold
        exact htold

theorem processCurrent_tells (h₀ : Tells checks externals said s) (hc : s.currentJob = some job)
    (h : processCurrent checks externals s job = .ok (u, out, .continue)) :
    Tells checks externals (said.note s .processJob out) u := by
  unfold processCurrent at h
  cases hstate : job.state with
  | notStarted =>
    rw [hstate] at h
    exact startJob_tells h₀.queued hc hstate h
  | finished result =>
    rw [hstate] at h
    cases h
    exact h₀
  | started work =>
    rw [hstate] at h
    cases hphase : work.phase with
    | splitting splitter =>
      simp only [hphase] at h
      exact splitJob_tells h₀ hc hstate hphase h
    | waitingTasksCompletions =>
      simp only [hphase] at h
      have htelling := h₀.current job work hc hstate
      simp only [Telling, hphase] at htelling
      unfold awaitJob at h
      split at h
      · cases h
        exact h₀.congr rfl rfl
      · split at h
        · obtain ⟨reducer, _, h⟩ := bind_ok.mp h
          cases h
          exact ⟨h₀.queued, Jobs.State.forall_work rfl htelling⟩
        · cases h
          exact h₀
    | reducing reducer minimal =>
      simp only [hphase] at h
      have htelling := h₀.current job work hc hstate
      simp only [Telling, hphase] at htelling
      unfold reduceJob at h
      obtain ⟨⟨chunk, reducer'⟩, _, h⟩ := bind_ok.mp h
      cases chunk with
      | ok distances =>
        cases h
        exact ⟨h₀.queued, Jobs.State.forall_work rfl htelling⟩
      | error left => cases h

theorem step_tells (h₀ : Tells checks externals said s)
    (h : s.step (engine checks externals) e = .ok (t, out)) :
    Tells checks externals (said.note s e out) t := by
  have quiet : e ≠ .processJob → said.note s e out = said := by
    intro he
    rw [Said.note, requests_of_step he h]
    rfl
  apply Jobs.State.works_of_step h₀ ?still ?receives ?processes h
  case still =>
    intro he _ id data work htelling
    rw [quiet he]
    exact htelling
  case receives =>
    intro stats more hreceived job work work' flow hc hstate hreceive suited
    rw [quiet (results_of_received hreceived).2]
    exact (h₀.current job work hc hstate suited).of_phase (receive_phase hreceive)
  case processes =>
    intro he job u hc hprocess
    subst he
    exact (processCurrent_tells h₀ hc hprocess).current

end

end GridServer.TaskManager
