import GridServer.Necklace.Scripts
import GridServer.System.Grid

namespace GridServer.Necklace
open Jobs Library

/-- Jobs of grids to fill, on whose combinations workers run the executor. -/
def trade (grids : Pickle (List Cell)) (solutions : Pickle (List Nat)) (records : Pickle TaskResult)
    (externals : Externals) : Trade (List UInt8) where
  accepts _ := True
  issues data job := job = externals.workerJobData data
  part data task := ∀ count combinations, splitter grids data = .ok (count, combinations) →
    ∃ combination, combinations[task.id]? = some combination ∧
      task.data = solutions.dumps combination
  computes args task result := result.id = task.id ∧
    executeJob grids solutions records args task.data = .ok result.data

section
variable {checks : Bool} {externals : Externals} {work : Started externals}
  {s u : State externals} {job : Job externals} {out : List (Jobs.Sent (List UInt8) String)}
  {flow : Flow String} {found : JobResult String}

/-- What the scheduler is asked for while a job is split are the job's tasks. -/
theorem splitJob_requests {script : Script externals job.data} {p : WorkerResult → Prop} {k : Nat}
    {missing : Finset Nat} (hk : k ≤ script.total) (g : Gathered checks p k missing work)
    (h : splitJob checks externals s job work (script.after k) = .ok (u, out, flow)) :
    (u = { s with needProcessJob := false } ∧ requests out = []) ∨
      ∃ batch, requests out = [.task batch] ∧
        ∀ task ∈ batch, task.id < script.total ∧ task.data = script.task task.id := by
  have tasks : ∀ n, k + n ≤ script.total →
      ∀ task ∈ (List.range' k n).map fun id => (⟨id, script.task id⟩ : WorkerTask),
        task.id < script.total ∧ task.data = script.task task.id := by
    intro n hn task htask
    obtain ⟨id, hid, rfl⟩ := List.mem_map.mp htask
    exact ⟨(List.mem_range'_1.mp hid).2.trans_le hn, rfl⟩
  unfold splitJob at h
  split at h
  · cases h
    exact .inl ⟨rfl, rfl⟩
  · rcases (script.enumerates checks).nextChunk hk 128 with ⟨hle, hchunk⟩ | ⟨_, hchunk⟩
    · obtain ⟨_, _, henlist, _⟩ := g.enlist hle
      simp only [hchunk, henlist, ok_bind, except_pure] at h
      cases h
      exact .inr ⟨_, rfl, tasks 128 hle⟩
    · obtain ⟨_, _, henlist, _⟩ := g.enlist (n := script.total - k) (Nat.add_sub_cancel' hk).le
      simp only [hchunk, henlist, ok_bind, except_pure] at h
      cases h
      exact .inr ⟨_, rfl, tasks _ (Nat.add_sub_cancel' hk).le⟩

/-- A job ends without a word to the scheduler. -/
theorem processCurrent_ends (h : processCurrent checks externals s job = .ok (u, out, .finish found)) :
    requests out = [] := by
  unfold processCurrent at h
  split at h
  · unfold startJob at h
    split at h
    · cases h
    · split at h
      · cases h
        rfl
      · cases h
  · split at h
    · unfold splitJob at h
      split at h
      · cases h
      · obtain ⟨_, _, h⟩ := bind_ok.mp h
        obtain ⟨⟨_, workersTasks⟩, _, h⟩ := bind_ok.mp h
        cases workersTasks with
        | error err =>
          cases h
          rfl
        | ok workersTasks => cases h
    · unfold awaitJob at h
      split at h
      · cases h
      · split at h
        · cases h
        · cases h
    · simp only [reduceJob] at h
      split at h
      · cases h
        rfl
      · cases h
        rfl
  · cases h

theorem receive_phase {work' : Started externals} {results : List WorkerResult}
    (h : receive checks externals work results = .ok (work', flow)) : work'.phase = work.phase := by
  induction results generalizing work with
  | nil =>
    cases h
    rfl
  | cons result results ih =>
    obtain ⟨⟨tasks, removed⟩, _, h⟩ := bind_ok.mp h
    have hphase := ih h
    exact hphase

end

section
variable {grids : Pickle (List Cell)} {solutions : Pickle (List Nat)}
  {records : Pickle TaskResult} {message : PyError → String} {debug : String → String}
  {wasm : List UInt8} {checks : Bool} {data : List UInt8} {result : WorkerResult}
  {s u : State (scripts grids solutions records message debug wasm)}
  {job : Job (scripts grids solutions records message debug wasm)}
  {out : List (Jobs.Sent (List UInt8) String)} {flow : Flow String}
  {P : List UInt8 → WorkerResult → Prop}

theorem executed_of_done {externals : Externals}
    (done : (trade grids solutions records externals).Done data result) :
    Executed grids solutions records data result := by
  obtain ⟨job, task, rfl, part, hid, hexecute⟩ := done
  intro count combinations hsplit
  obtain ⟨combination, hcombination, hdata⟩ := part count combinations hsplit
  rw [← hid] at hcombination
  rw [hdata] at hexecute
  exact ⟨combination, hcombination, hexecute⟩

theorem processCurrent_asks (h : Underway checks P s) (hc : s.currentJob = some job)
    (hprocess : processCurrent checks (scripts grids solutions records message debug wasm) s job =
      .ok (u, out, .continue)) :
    (trade grids solutions records (scripts grids solutions records message debug wasm)).Asks
      (engine checks (scripts grids solutions records message debug wasm)) job u (requests out) := by
  have still : u.currentJob = s.currentJob →
      (trade grids solutions records (scripts grids solutions records message debug wasm)).Asks
        (engine checks (scripts grids solutions records message debug wasm)) job u [] := by
    intro hsame
    refine .nothing ?_
    intro job' hjob'
    rw [hsame, hc, Option.mem_some] at hjob'
    exact hjob' ▸ fun hsplits => hsplits
  unfold processCurrent at hprocess
  cases hstate : job.state with
  | notStarted =>
    simp only [hstate, startJob] at hprocess
    split at hprocess
    · cases hprocess
      exact still rfl
    · split at hprocess
      · cases hprocess
      · cases hprocess
        exact .announces _ _ rfl
  | finished result =>
    rw [hstate] at hprocess
    cases hprocess
    exact still rfl
  | started work =>
    obtain ⟨⟨found, hfound⟩, going⟩ := h.current job work hc hstate
    obtain ⟨count, combinations, hsplit, hsmall⟩ := splitter_scripts hfound
    have going := going (script hsplit hsmall)
    unfold Going at going
    cases hphase : work.phase with
    | splitting splitter =>
      rw [hphase] at going
      obtain ⟨k, missing, hk, rfl, g⟩ := going
      simp only [hstate, hphase] at hprocess
      rcases splitJob_requests hk g hprocess with ⟨rfl, hnone⟩ | ⟨batch, hbatch, hparts⟩
      · rw [hnone]
        exact still rfl
      · rw [hbatch]
        refine .splits batch ⟨work, hstate, by simp [engine, hphase, JobPhase.json]⟩ ?_
        intro task htask count' combinations' hsplit'
        cases hsplit.symm.trans hsplit'
        obtain ⟨hlt, hdata⟩ := hparts task htask
        have hlength : task.id < combinations.length := splitter_length hsplit ▸ hlt
        refine ⟨combinations[task.id], List.getElem?_eq_getElem hlength, ?_⟩
        rw [hdata]
        simp only [script, List.getD_eq_getElem _ _ hlength]
    | waitingTasksCompletions =>
      simp only [hstate, hphase, awaitJob] at hprocess
      split at hprocess
      · cases hprocess
        exact still rfl
      · split at hprocess
        · cases hprocess
          refine .nothing ?_
          rintro job' hjob' ⟨work', hstate', hsplitting⟩
          cases hjob'
          cases hstate'
          cases hsplitting
        · cases hprocess
          exact still rfl
    | reducing =>
      simp only [hstate, hphase, reduceJob] at hprocess
      split at hprocess
      · cases hprocess
      · cases hprocess

/-- The task manager keeps the solutions on what comes to it. -/
def trader (grids : Pickle (List Cell)) (solutions : Pickle (List Nat)) (records : Pickle TaskResult)
    (message : PyError → String) (debug : String → String) (wasm : List UInt8) (checks : Bool) :
    Trader (trade grids solutions records (scripts grids solutions records message debug wasm))
      (engine checks (scripts grids solutions records message debug wasm)) where
  keeps s := Underway checks (Executed grids solutions records) s ∧
    s.Completed fun _ data output => Reduced (scripts grids solutions records message debug wasm)
      (Executed grids solutions records) data output
  start := by
    refine ⟨.new, ?_⟩
    rintro job ⟨⟩
  queued := fun _ ⟨h, _⟩ => h.queued
  step := by
    rintro s t e out ⟨h, completed⟩ fed taken
    have answered : Answered (Executed grids solutions records) s e := by
      intro stats results hreceived job work hc hstate result hresult
      exact executed_of_done (fed.2 stats results hreceived job work hc hstate result hresult)
    exact ⟨step_underway h answered taken, step_reduced h completed taken⟩
  error := by
    rintro s e fault ⟨h, _⟩ _ failed
    refine (h.imp fun _ _ _ => trivial).error (fun data found hfound => ?_) failed
    obtain ⟨count, combinations, hsplit, hsmall⟩ := splitter_scripts hfound
    exact ⟨script hsplit hsmall⟩
  asks := fun _ _ _ _ ⟨h, _⟩ hc hprocess => processCurrent_asks h hc hprocess
  ends := fun _ _ _ _ _ _ _ hprocess => processCurrent_ends hprocess
  receives := by
    intro work stats results work' flow hreceive
    cases stats with
    | none => exact congrArg JobPhase.json (receive_phase hreceive)
    | some jobStats =>
      have hphase : work'.phase = { work with stats := some jobStats }.phase := receive_phase hreceive
      exact congrArg JobPhase.json hphase

end

/-! The one cell again, with a worker that has a subworker for each of the seven tasks. -/

def cellTurns : List (Grid.Turn (List UInt8)) :=
  [.manager (.command (.addJob (unaryGrids.dumps [.zero]) 7)), .manager .processJob,
    .manager (.scheduler (.message .schedulerFree)), .manager .processJob, .manager .processJob,
    .request, .request, .scheduler (Scheduler.joinOf 1 7), .scheduler .schedule] ++
  (cellResults.map fun result => .scheduler (.worker (.message 1 (.result result)))) ++
  [.response, .manager .processJob, .manager .processJob]

/-- What the worker is sent. -/
def cellOrder : WorkerRequest :=
  ⟨7, some (unaryGrids.dumps [.zero], []), [],
    [0, 1, 3, 4, 2, 5, 6].map fun id => ⟨id, unarySolutions.dumps [id + 1]⟩⟩

/-- What the turns keep to can be told by looking. -/
def cellFair (g : Grid (List UInt8) (Started unaryScripts) String) : Grid.Turn (List UInt8) → Bool
  | .manager event => decide (event.received = none)
  | .response => decide ((∀ about ∈ g.down.head?, about.1 = some 7) ∧
      ∀ job ∈ g.manager.currentJob, job.id = 7)
  | .scheduler (.taskManager (.message _)) => false
  | .scheduler event => decide (∀ result ∈ g.scheduler.accepts event, result ∈ cellResults ∧
      (∀ job ∈ g.scheduler.scheduledJob, job.id = 7) ∧ cellOrder ∈ g.orders)
  | .request => true
  | .cut _ => true

theorem fair_cell {g : Grid (List UInt8) (Started unaryScripts) String}
    {turn : Grid.Turn (List UInt8)} (h : cellFair g turn = true) :
    Grid.Fair (trade unaryGrids unarySolutions unaryRecords unaryScripts) g turn := by
  have computes : ∀ result ∈ cellResults, ∃ task ∈ cellOrder.tasks, result.id = task.id ∧
      executeJob unaryGrids unarySolutions unaryRecords (unaryGrids.dumps [.zero]) task.data =
        .ok result.data := by decide +kernel
  unfold cellFair at h
  split at h
  · exact ⟨of_decide_eq_true h, fun _ _ => trivial⟩
  · obtain ⟨htag, hid⟩ := of_decide_eq_true h
    intro about habout _ job work hc _
    rw [htag about habout, hid job hc]
  · cases h
  · rename_i event hnot
    refine ⟨hnot, ?_⟩
    intro result job haccepts hj
    obtain ⟨hresult, hid, horder⟩ := of_decide_eq_true h result haccepts
    obtain ⟨task, htask, hcomputes⟩ := computes result hresult
    exact ⟨cellOrder, horder, cellOrder, horder, (hid job hj).symm, (hid job hj).symm,
      unaryGrids.dumps [.zero], [], rfl, task, List.mem_append_left _ htask, hcomputes⟩
  · trivial
  · trivial

end GridServer.Necklace
