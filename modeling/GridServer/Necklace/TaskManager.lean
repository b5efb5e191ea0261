import GridServer.Jobs.Listing
import GridServer.Library.Chunk
import GridServer.Shared.BitSet

namespace GridServer.Necklace
open Jobs Library

/-- What the task manager takes from outside: the job's Python scripts with the iterator that the
splitter returns, how Rust prints a string within quotes, and the job's program. -/
structure Externals where
  PyIterator : Type
  splitter : List UInt8 → Except String (Nat × PyIterator)
  pyNext : PyIterator → Option (Except String (List UInt8)) × PyIterator
  reducer : List UInt8 → List (List UInt8) → Except String String
  debug : String → String
  executorWasm : List UInt8

/-- The arguments of a job with the one program of `JOB_DATA`. -/
def Externals.workerJobData (externals : Externals) (args : List UInt8) : WorkerJobData :=
  { args := args
    data := [(⟨.wasm32, .unknown, .unknown⟩, externals.executorWasm)]
    distinct := by simp }

section
variable (checks : Bool) (externals : Externals)

structure TaskSplitter where
  totalTasks : Nat
  n : Nat
  iter : externals.PyIterator

def TaskSplitter.new (data : List UInt8) : Except String (TaskSplitter externals) := do
  let (totalTasks, iter) ← externals.splitter data
  return ⟨totalTasks, 0, iter⟩

def TaskSplitter.next (splitter : TaskSplitter externals) :
    Except Fault (Option (Except String (TaskId × List UInt8)) × TaskSplitter externals) :=
  match externals.pyNext splitter.iter with
  | (none, iter) => .ok (none, { splitter with iter := iter })
  | (some (.error err), iter) => .ok (some (.error err), { splitter with iter := iter })
  | (some (.ok data), iter) => do
    let n ← usizeAdd checks splitter.n 1
    return (some (.ok (splitter.n, data)), { splitter with iter := iter, n := n })

inductive JobPhase where
  | splitting (splitter : TaskSplitter externals)
  | waitingTasksCompletions
  | reducing

/-- What `JobState::Started` holds. -/
structure Started where
  stats : Option JobStats
  results : List WorkerResult
  tasks : BitSet
  phase : JobPhase externals

abbrev Job := Jobs.Job (List UInt8) (Started externals) String

abbrev State := Jobs.State (List UInt8) (Started externals) String

abbrev Turn := Jobs.Turn (List UInt8) (Started externals) String

def JobPhase.json {externals : Externals} : JobPhase externals → JsonJobPhase
  | splitting _ => .splitting
  | waitingTasksCompletions => .waitingTasksCompletion
  | reducing => .reducing

/-- Note the tasks of a chunk as not completed. The first that the script fails at ends it. -/
def enlist : BitSet → List (Except String (TaskId × List UInt8)) →
    Except Fault (BitSet × Except String (List WorkerTask))
  | tasks, [] => .ok (tasks, .ok [])
  | tasks, .error err :: _ => .ok (tasks, .error err)
  | tasks, .ok (id, data) :: chunk => do
    let (tasks, _) ← tasks.insert checks id
    let (tasks, workersTasks) ← enlist tasks chunk
    return (tasks, workersTasks.map fun workersTasks => ⟨id, data⟩ :: workersTasks)

def startJob (s : State externals) (job : Job externals) : Except Fault (Turn externals) := do
  if !s.scheduler.ready then return ({ s with needProcessJob := false }, [], .continue)
  else
    match TaskSplitter.new externals job.data with
    | .error err =>
      return (s, [],
        .finish (.error ("Failed to create task splitter: " ++ externals.debug err) none))
    | .ok taskSplitter =>
      let work :=
        { stats := none, tasks := BitSet.new, results := [], phase := .splitting taskSplitter }
      return ({ s with currentJob := some { job with state := .started work } },
        [.request (.newJob job.id taskSplitter.totalTasks (externals.workerJobData job.data))],
        .continue)

def splitJob (s : State externals) (job : Job externals) (work : Started externals)
    (splitter : TaskSplitter externals) : Except Fault (Turn externals) := do
  if !s.scheduler.ready then return ({ s with needProcessJob := false }, [], .continue)
  else
    let (chunk, splitter) ← nextChunk (TaskSplitter.next checks externals) 128 splitter
    let (batch, phase) := match chunk with
      | .ok batch => (batch, JobPhase.splitting splitter)
      | .error left => (left, JobPhase.waitingTasksCompletions)
    let (tasks, workersTasks) ← enlist checks work.tasks batch
    match workersTasks with
    | .error err =>
      return ({ s with currentJob := some { job with state := .started { work with
          tasks := tasks, phase := .splitting splitter } } }, [], .finish (.error err none))
    | .ok workersTasks =>
      return ({ s with currentJob := some { job with state := .started { work with
          tasks := tasks, phase := phase } } }, [.request (.task workersTasks)], .continue)

def awaitJob (s : State externals) (job : Job externals) (work : Started externals) :
    Turn externals :=
  if !s.scheduler.ready then ({ s with needProcessJob := false }, [], .continue)
  else if work.tasks.isEmpty then
    ({ s with currentJob := some { job with state := .started { work with phase := .reducing } } },
      [], .continue)
  else (s, [], .continue)

def reduceJob (s : State externals) (job : Job externals) (work : Started externals) :
    Turn externals :=
  let results := work.results.map WorkerResult.data
  let taken := work.results.map fun result => { result with data := [] }
  match externals.reducer job.data results with
  | .error err =>
    ({ s with currentJob := some { job with state := .started { work with results := taken } } },
      [], .finish (.error ("Failed to create reduce tasks: " ++ externals.debug err) none))
  | .ok output =>
    ({ s with currentJob := some { job with state := .started { work with
        results := taken, stats := none } } }, [], .finish (.completed output work.stats))

def processCurrent (s : State externals) (job : Job externals) : Except Fault (Turn externals) :=
  match job.state with
  | .notStarted => startJob externals s job
  | .started work =>
    match work.phase with
    | .splitting splitter => splitJob checks externals s job work splitter
    | .waitingTasksCompletions => .ok (awaitJob externals s job work)
    | .reducing => .ok (reduceJob externals s job work)
  | .finished _ => .ok (s, [], .continue)

/-- Keep the results of the tasks that were not completed. -/
def receive (work : Started externals) :
    List WorkerResult → Except Fault (Started externals × Flow String)
  | [] => .ok (work, .continue)
  | result :: results => do
    let (tasks, removed) ← work.tasks.remove checks result.id
    receive { work with
      tasks := tasks
      results := if removed then work.results ++ [result] else work.results } results

end

section
variable {checks : Bool} {externals : Externals} {s : State externals} {job : Job externals}
  {turn : Turn externals}

theorem startJob_onlyJob (h : startJob externals s job = .ok turn) : OnlyJob s job turn.1 := by
  unfold startJob at h
  split at h
  · cases h
    exact ⟨rfl, rfl, .inl rfl⟩
  · split at h
    · cases h
      exact ⟨rfl, rfl, .inl rfl⟩
    · cases h
      exact ⟨rfl, rfl, .inr ⟨_, rfl⟩⟩

theorem splitJob_onlyJob {work : Started externals} {splitter : TaskSplitter externals}
    (h : splitJob checks externals s job work splitter = .ok turn) : OnlyJob s job turn.1 := by
  unfold splitJob at h
  split at h
  · cases h
    exact ⟨rfl, rfl, .inl rfl⟩
  · obtain ⟨_, _, h⟩ := bind_ok.mp h
    obtain ⟨⟨_, workersTasks⟩, _, h⟩ := bind_ok.mp h
    cases workersTasks with
    | error err =>
      cases h
      exact ⟨rfl, rfl, .inr ⟨_, rfl⟩⟩
    | ok workersTasks =>
      cases h
      exact ⟨rfl, rfl, .inr ⟨_, rfl⟩⟩

theorem awaitJob_onlyJob (s : State externals) (job : Job externals) (work : Started externals) :
    OnlyJob s job (awaitJob externals s job work).1 := by
  unfold awaitJob
  split
  · exact ⟨rfl, rfl, .inl rfl⟩
  · split
    · exact ⟨rfl, rfl, .inr ⟨_, rfl⟩⟩
    · exact ⟨rfl, rfl, .inl rfl⟩

theorem reduceJob_onlyJob (s : State externals) (job : Job externals) (work : Started externals) :
    OnlyJob s job (reduceJob externals s job work).1 := by
  simp only [reduceJob]
  split
  · exact ⟨rfl, rfl, .inr ⟨_, rfl⟩⟩
  · exact ⟨rfl, rfl, .inr ⟨_, rfl⟩⟩

theorem processCurrent_onlyJob (h : processCurrent checks externals s job = .ok turn) :
    OnlyJob s job turn.1 := by
  unfold processCurrent at h
  split at h
  · exact startJob_onlyJob h
  · split at h
    · exact splitJob_onlyJob h
    · cases h
      exact awaitJob_onlyJob ..
    · cases h
      exact reduceJob_onlyJob ..
  · cases h
    exact ⟨rfl, rfl, .inl rfl⟩

end

/-- The task manager whose jobs are Python scripts. -/
def engine (checks : Bool) (externals : Externals) :
    Engine (List UInt8) (Started externals) String where
  processCurrent := processCurrent checks externals
  receive work stats results :=
    match stats with
    | some jobStats => receive checks externals { work with stats := some jobStats } results
    | none => receive checks externals work results
  stats work := work.stats
  incompleteTasks work := work.tasks.len
  phase work := work.phase.json
  onlyJob _ _ _ h := processCurrent_onlyJob h

end GridServer.Necklace
