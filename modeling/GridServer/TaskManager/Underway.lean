import GridServer.Jobs.Current
import GridServer.TaskManager.Attempt

namespace GridServer.TaskManager
open Jobs Library

/-- The results that the scheduler sends. -/
def results : Event → List WorkerResult
  | .scheduler (.message (.taskResults received)) => received
  | .scheduler (.message (.jobComplete left _)) => left
  | _ => []

/-- Every result that comes while a job of one to 63 passengers is under way was computed for the
task of its id. -/
def Genuine (externals : Externals) (s : State) (e : Event) : Prop :=
  ∀ job ∈ s.currentJob, 1 ≤ job.data.p ∧ job.data.p ≤ 63 →
    match job.state with
    | .started _ => ∀ result ∈ results e, Computed externals job.data result
    | _ => True

instance (externals : Externals) (s : State) (e : Event) :
    Decidable (Genuine externals s e) := by
  unfold Genuine
  have (job : Job) : Decidable (match job.state with
      | .started _ => ∀ result ∈ results e, Computed externals job.data result
      | _ => True) := by
    split <;> infer_instance
  infer_instance

theorem genuine_of_results {externals : Externals} {s : State} {e : Event}
    (h : results e = []) : Genuine externals s e := by
  intro job _ _
  rw [h]
  split
  · simp
  · trivial

/-- The results that have come since the current job was last started. -/
def note (received : List WorkerResult) (s : State) (e : Event)
    (_ : List Sent) : List WorkerResult :=
  match e, s.currentJob.map Jobs.Job.state with
  | .processJob, some .notStarted => []
  | _, _ => received ++ results e

/-- How far the work on a job is. -/
def Going (checks : Bool) (externals : Externals) (data : JobData) (received : List WorkerResult)
    (work : Started) : Prop :=
  match work.phase with
  | .splitting splitter => ∃ k missing,
      Attempt checks externals data received k missing work ∧ splitter = .after data.t data.p k
  | .waitingTasksCompletions =>
      ∃ missing, Attempt checks externals data received data.total missing work
  | .reducing _ _ => work.tasks.Represents checks ∅

/-- The work on the current job is as far as the results that have come. -/
def Underway (checks : Bool) (externals : Externals) (received : List WorkerResult) (s : State) :
    Prop :=
  s.Works fun _ data work => Suited checks data → Going checks externals data received work

section
variable {checks : Bool} {externals : Externals} {s t u : State} {job : Job} {work : Started}
  {received : List WorkerResult} {out out' : List Sent} {flow : Flow Distance}
  {e : Event} {es : List Event}

theorem Going.mono {data : JobData} (g : Going checks externals data received work)
    (more : List WorkerResult) : Going checks externals data (received ++ more) work := by
  unfold Going at g ⊢
  split at g
  · obtain ⟨k, missing, a, hsplitter⟩ := g
    exact ⟨k, missing, a.mono more, hsplitter⟩
  · obtain ⟨missing, a⟩ := g
    exact ⟨missing, a.mono more⟩
  · exact g

theorem startJob_underway (queued : ∀ job ∈ s.jobsQueue, job.state = .notStarted)
    (hc : s.currentJob = some job) (hstate : job.state = .notStarted)
    (h : startJob checks externals s job = .ok (u, out, flow)) :
    Underway checks externals [] u := by
  have hidle : Underway checks externals [] s := by
    apply Jobs.State.Works.idle queued
    intro job' hjob'
    rw [hc, Option.mem_some] at hjob'
    rw [← hjob', hstate]
  unfold startJob at h
  split at h
  · cases h
    exact hidle.congr rfl rfl
  · obtain ⟨splitter, hsplitter, h⟩ := bind_ok.mp h
    split at h
    · cases h
      exact hidle
    · simp only [bind_ok, except_pure, Except.ok.injEq, Prod.mk.injEq] at h
      obtain ⟨_, _, tables, htables, rfl, _⟩ := h
      refine ⟨queued, Jobs.State.forall_work rfl ?_⟩
      intro suited
      obtain ⟨hafter, a⟩ := Attempt.start suited hsplitter htables
      exact ⟨0, ∅, a, hafter⟩

theorem splitJob_underway {splitter : TaskSplitter} (h₀ : Underway checks externals received s)
    (hc : s.currentJob = some job) (hstate : job.state = .started work)
    (hphase : work.phase = .splitting splitter)
    (h : splitJob checks externals s job work splitter = .ok (u, out, .continue)) :
    Underway checks externals received u := by
  unfold splitJob at h
  split at h
  · cases h
    exact h₀.congr rfl rfl
  · obtain ⟨⟨chunk, splitter'⟩, hchunk, h⟩ := bind_ok.mp h
    obtain ⟨⟨tasks, workersTasks⟩, henlist, h⟩ := bind_ok.mp h
    cases workersTasks with
    | none => cases h
    | some workersTasks =>
      simp only [except_pure, Except.ok.injEq, Prod.mk.injEq] at h
      obtain ⟨rfl, _⟩ := h
      refine ⟨h₀.queued, Jobs.State.forall_work rfl ?_⟩
      intro suited
      have hgoing := h₀.current job work hc hstate suited
      simp only [Going, hphase] at hgoing
      obtain ⟨k, missing, a, rfl⟩ := hgoing
      cases chunk with
      | ok batch =>
        obtain ⟨hyields, _⟩ := yields_of_full hchunk
        obtain ⟨n, missing', hsplitter, ha⟩ := a.emit suited hyields henlist
        exact ⟨k + n, missing', ha _, hsplitter⟩
      | error left =>
        obtain ⟨last, hyields, hend⟩ := yields_of_left hchunk
        obtain ⟨n, missing', rfl, ha⟩ := a.emit suited hyields henlist
        have htotal : k + n = job.data.total := by
          have hle := (ha .waitingTasksCompletions).within
          by_contra hne
          rw [TaskSplitter.next_eq suited.some_passenger (lt_of_le_of_ne hle hne), bind_ok] at hend
          obtain ⟨_, _, hend⟩ := hend
          cases hend
        exact ⟨missing', htotal ▸ ha _⟩

theorem awaitJob_underway (h₀ : Underway checks externals received s)
    (hc : s.currentJob = some job) (hstate : job.state = .started work)
    (hphase : work.phase = .waitingTasksCompletions)
    (h : awaitJob checks s job work = .ok (u, out, flow)) : Underway checks externals received u := by
  unfold awaitJob at h
  split at h
  · cases h
    exact h₀.congr rfl rfl
  · split at h
    · rename_i hempty
      obtain ⟨reducer, hreducer, h⟩ := bind_ok.mp h
      cases h
      refine ⟨h₀.queued, Jobs.State.forall_work rfl ?_⟩
      intro suited
      have hgoing := h₀.current job work hc hstate suited
      simp only [Going, hphase] at hgoing
      obtain ⟨missing, a⟩ := hgoing
      have htasks := a.tasks
      rw [a.eq_empty hempty] at htasks
      exact htasks
    · cases h
      exact h₀

theorem reduceJob_underway {reducer : TaskReducer} {minimal : Distance}
    (h₀ : Underway checks externals received s) (hc : s.currentJob = some job)
    (hstate : job.state = .started work) (hphase : work.phase = .reducing reducer minimal)
    (h : reduceJob checks s job work reducer minimal = .ok (u, out, flow)) :
    Underway checks externals received u := by
  have hgoing : ∀ data, Suited checks data → data = job.data →
      work.tasks.Represents checks ∅ := by
    intro data suited hdata
    subst hdata
    have hgoing := h₀.current job work hc hstate suited
    simpa only [Going, hphase] using hgoing
  unfold reduceJob at h
  obtain ⟨⟨chunk, reducer'⟩, hchunk, h⟩ := bind_ok.mp h
  cases chunk with
  | ok distances =>
    cases h
    refine ⟨h₀.queued, Jobs.State.forall_work rfl ?_⟩
    intro suited
    exact hgoing _ suited rfl
  | error left =>
    cases h
    refine ⟨h₀.queued, Jobs.State.forall_work rfl ?_⟩
    intro suited
    exact hgoing _ suited rfl

/-- The results go to the work on the current job. -/
theorem Going.receive {data : JobData} (g : Going checks externals data received work)
    (suited : Suited checks data) (stats : Option JobStats) {more : List WorkerResult}
    (computed : ∀ result ∈ more, Computed externals data result) :
    ∃ work', (engine checks externals).receive work stats more = .ok (work', .continue) ∧
      Going checks externals data (received ++ more) work' ∧ work'.phase = work.phase := by
  obtain ⟨start, hreceive, htasks, hparts, hphase⟩ : ∃ start : Started,
      (engine checks externals).receive work stats more =
        processResults checks externals start more ∧
      start.tasks = work.tasks ∧ start.parts = work.parts ∧ start.phase = work.phase := by
    cases stats with
    | none => exact ⟨work, rfl, rfl, rfl, rfl⟩
    | some jobStats => exact ⟨{ work with stats := some jobStats }, rfl, rfl, rfl, rfl⟩
  have hstart : ∀ k missing, Attempt checks externals data received k missing work →
      Attempt checks externals data received k missing start := fun k missing a =>
    ⟨htasks ▸ a.tasks, a.emitted, a.within, a.small, hparts ▸ a.tables, hparts ▸ a.sound,
      hparts ▸ a.complete⟩
  rw [hreceive]
  unfold Going at g
  cases hp : work.phase with
  | splitting splitter =>
    rw [hp] at g
    obtain ⟨k, missing, a, hsplitter⟩ := g
    obtain ⟨work', missing', hresults, a', hphase'⟩ := (hstart k missing a).processResults suited
      computed
    refine ⟨work', hresults, ?_, hphase'.trans (hphase.trans hp)⟩
    rw [Going, hphase', hphase, hp]
    exact ⟨k, missing', a', hsplitter⟩
  | waitingTasksCompletions =>
    rw [hp] at g
    obtain ⟨missing, a⟩ := g
    obtain ⟨work', missing', hresults, a', hphase'⟩ := (hstart _ missing a).processResults suited
      computed
    refine ⟨work', hresults, ?_, hphase'.trans (hphase.trans hp)⟩
    rw [Going, hphase', hphase, hp]
    exact ⟨missing', a'⟩
  | reducing reducer minimal =>
    rw [hp] at g
    obtain ⟨work', hresults, hdone, hphase'⟩ := processResults_done
      (htasks ▸ g : start.tasks.Represents checks ∅) computed
    refine ⟨work', hresults, ?_, hphase'.trans (hphase.trans hp)⟩
    rw [Going, hphase', hphase, hp]
    exact hdone

theorem processCurrent_underway (h₀ : Underway checks externals received s)
    (hc : s.currentJob = some job)
    (h : processCurrent checks externals s job = .ok (u, out, .continue)) :
    Underway checks externals (note received s .processJob out') u := by
  unfold processCurrent at h
  cases hstate : job.state with
  | notStarted =>
    have hnote : note received s .processJob out' = [] := by simp [note, hc, hstate]
    rw [hstate] at h
    rw [hnote]
    exact startJob_underway h₀.queued hc hstate h
  | started work =>
    have hnote : note received s .processJob out' = received := by
      simp [note, hc, hstate, results]
    rw [hstate] at h
    rw [hnote]
    cases hphase : work.phase with
    | splitting splitter =>
      simp only [hphase] at h
      exact splitJob_underway h₀ hc hstate hphase h
    | waitingTasksCompletions =>
      simp only [hphase] at h
      exact awaitJob_underway h₀ hc hstate hphase h
    | reducing reducer minimal =>
      simp only [hphase] at h
      exact reduceJob_underway h₀ hc hstate hphase h
  | finished result =>
    have hnote : note received s .processJob out' = received := by
      simp [note, hc, hstate, results]
    rw [hstate] at h
    cases h
    rw [hnote]
    exact h₀

theorem note_of_ne (he : e ≠ .processJob) : note received s e out = received ++ results e := by
  cases e with
  | processJob => exact absurd rfl he
  | scheduler event => rfl
  | command command => rfl

theorem results_of_received {stats : Option JobStats} {more : List WorkerResult}
    (h : e.received = some (stats, more)) : results e = more ∧ e ≠ .processJob := by
  unfold Jobs.Event.received at h
  split at h
  · cases h
    exact ⟨rfl, fun he => by cases he⟩
  · cases h
    exact ⟨rfl, fun he => by cases he⟩
  · cases h

theorem step_underway (h₀ : Underway checks externals received s) (genuine : Genuine externals s e)
    (h : s.step (engine checks externals) e = .ok (t, out)) :
    Underway checks externals (note received s e out) t := by
  apply Jobs.State.works_of_step h₀ ?still ?receives ?processes h
  case still =>
    intro he _ id data work hgoing suited
    rw [note_of_ne he]
    exact (hgoing suited).mono _
  case receives =>
    intro stats more hreceived job work work' flow hc hstate hreceive suited
    obtain ⟨hresults, he⟩ := results_of_received hreceived
    have hcomputed := genuine job hc ⟨suited.some_passenger, suited.few_passengers⟩
    rw [hstate, hresults] at hcomputed
    obtain ⟨work₂, hreceive₂, hgoing, _⟩ :=
      (h₀.current job work hc hstate suited).receive suited stats hcomputed
    rw [hreceive, Except.ok.injEq, Prod.mk.injEq] at hreceive₂
    rw [note_of_ne he, hresults, hreceive₂.1]
    exact hgoing
  case processes =>
    intro he job u hc hprocess
    subst he
    exact (processCurrent_underway h₀ hc hprocess).current

theorem underway_of_run
    (run : Run (Jobs.State.step (engine checks externals)) (Genuine externals) .new es out s) :
    Underway checks externals
      (history (Jobs.State.step (engine checks externals)) note [] .new es) s := by
  apply run.invariant_history note (I := fun received _ _ s => Underway checks externals received s)
  · exact .new
  · intro received es out s e t out' h₀ genuine taken
    exact step_underway h₀ genuine taken

end

end GridServer.TaskManager
