import GridServer.Jobs.Order
import GridServer.Necklace.TaskManager
import GridServer.TaskManager.Handlers

namespace GridServer.TaskManager
open Jobs Library

/-- Both task managers list their jobs rightly if and only if no job waits and none is finished, in
every state of every run in which no two jobs are given the same id. -/
theorem run_listed (checks : Bool) (externals : Externals) (necklaces : Necklace.Externals) :
    (∀ es out s,
      Run (Jobs.State.step (engine checks externals)) (fun _ _ => True) .new es out s →
        (es.filterMap Event.added?).Nodup →
          (State.Listed (engine checks externals)
              (history (Jobs.State.step (engine checks externals)) State.note .none .new es) s ↔
            s.jobsQueue = [] ∧ s.jobsFinished = [])) ∧
    ∀ es out s,
      Run (Jobs.State.step (Necklace.engine checks necklaces)) (fun _ _ => True) .new es out s →
        (es.filterMap Event.added?).Nodup →
          (State.Listed (Necklace.engine checks necklaces)
              (history (Jobs.State.step (Necklace.engine checks necklaces)) State.note .none .new es)
              s ↔
            s.jobsQueue = [] ∧ s.jobsFinished = []) := by
  constructor
  · intro es out s run distinct
    exact State.listed_of_run run distinct
  · intro es out s run distinct
    exact State.listed_of_run run distinct

/-- A codec that encodes nothing and programs that are empty. -/
def bare : Externals :=
  { encodeJobData := fun _ => none
    encodeTaskData := fun _ => none
    decodeTaskResult := fun _ => .error ""
    libjobSo := []
    jobDll := []
    jobWasm := [] }

/-- No scripts. -/
def scriptless : Necklace.Externals :=
  { PyIterator := Unit
    splitter := fun _ => .error ""
    pyNext := fun iter => (none, iter)
    reducer := fun _ _ => .error ""
    debug := fun text => text
    executorWasm := [] }

theorem run_listed_current : ∃ s : State, s.currentJob.isSome ∧
    State.Listed (engine true bare)
      (history (Jobs.State.step (engine true bare)) State.note .none .new
        [.command (.addJob ⟨[], [], []⟩ 7), .processJob]) s := by
  obtain ⟨s, out, run, h⟩ := exists_run (Jobs.State.step (engine true bare)) (fun _ _ => True) .new
    [.command (.addJob ⟨[], [], []⟩ 7), .processJob]
    (fun r => r.1.currentJob.isSome && r.1.jobsQueue.isEmpty && r.1.jobsFinished.isEmpty)
    (by decide)
  simp only [Bool.and_eq_true, List.isEmpty_iff] at h
  exact ⟨s, h.1.1, (((run_listed true bare scriptless).1 _ out s run (by decide)).mpr ⟨h.1.2, h.2⟩)⟩

/-- A job that waits is in none of the lists. -/
theorem job_unlisted : ¬ ∀ checks externals es out s,
    Run (Jobs.State.step (engine checks externals)) (fun _ _ => True) .new es out s →
      (es.filterMap Event.added?).Nodup →
        State.Listed (engine checks externals)
          (history (Jobs.State.step (engine checks externals)) State.note .none .new es) s := by
  intro h
  obtain ⟨s, out, run, hqueued⟩ := exists_run (Jobs.State.step (engine true bare))
    (fun _ _ => True) .new [.command (.addJob ⟨[], [], []⟩ 7)]
    (fun r => r.1.listed (engine true bare) .queuedJobs = []) (by decide)
  rw [decide_eq_true_eq] at hqueued
  have hlisted := (h true bare _ out s run (by decide)).queued
  rw [hqueued] at hlisted
  have hwaiting : (history (Jobs.State.step (engine true bare)) State.note .none .new
      [.command (.addJob ⟨[], [], []⟩ 7)]).waiting = [7] := by decide
  rw [hwaiting] at hlisted
  cases hlisted

/-- Both task managers work off their jobs in order, in every run in which no two jobs are given the
same id. -/
theorem run_ordered (checks : Bool) (externals : Externals) (necklaces : Necklace.Externals) :
    (∀ es out s,
      Run (Jobs.State.step (engine checks externals)) (fun _ _ => True) .new es out s →
        (es.filterMap Event.added?).Nodup → State.InOrder (engine checks externals) es s) ∧
    ∀ es out s,
      Run (Jobs.State.step (Necklace.engine checks necklaces)) (fun _ _ => True) .new es out s →
        (es.filterMap Event.added?).Nodup → State.InOrder (Necklace.engine checks necklaces) es s := by
  constructor
  · intro es out s run distinct
    exact State.inOrder_of_run run distinct
  · intro es out s run distinct
    exact State.inOrder_of_run run distinct

/-- The second of three jobs is taken out of the queue while the first is current. -/
def threeJobs : List Event :=
  [.command (.addJob ⟨[], [], []⟩ 7), .processJob, .command (.addJob ⟨[], [], []⟩ 8),
    .command (.addJob ⟨[], [], []⟩ 9), .command (.cancelJob 8)]

theorem run_ordered_three : ∃ s : State, s.jobs.map Prod.fst = [7, 9] ∧
    State.InOrder (engine true bare) threeJobs s := by
  obtain ⟨s, out, run, h⟩ := exists_run (Jobs.State.step (engine true bare)) (fun _ _ => True) .new
    threeJobs (fun r => r.1.jobs.map Prod.fst = [7, 9]) (by decide)
  exact ⟨s, of_decide_eq_true h, (run_ordered true bare scriptless).1 _ out s run (by decide)⟩

end GridServer.TaskManager
