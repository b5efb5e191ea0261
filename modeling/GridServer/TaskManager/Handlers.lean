import GridServer.TaskManager.State

namespace GridServer.TaskManager
open Jobs Library

variable (checks : Bool) (externals : Externals)

/-- File a distance in the table of the taxi. -/
def file (parts : List (MultilevelVecMap Distance)) (taxi : Nat) (combination : Nat × Distance) :
    Except Fault (List (MultilevelVecMap Distance)) :=
  match parts[taxi]? with
  | none => .error .indexOutOfBounds
  | some part => do
    let (part, _) ← part.insert checks (split combination.1) combination.2
    return parts.set taxi part

def processResult (work : Started) (result : WorkerResult) : Except Fault (Started × Flow Distance) :=
  match externals.decodeTaskResult result.data with
  | .error err => .ok (work, .finish (.error err work.stats))
  | .ok taskResult => do
    let (tasks, removed) ← work.tasks.remove checks result.id
    if removed then
      let parts ← file checks work.parts taskResult.taxi taskResult.result.1
      let parts ← file checks parts taskResult.taxi taskResult.result.2
      return ({ work with tasks := tasks, parts := parts }, .continue)
    else return ({ work with tasks := tasks }, .continue)

/-- The results one after another, up to the first that ends the job. -/
def processResults : Started → List WorkerResult → Except Fault (Started × Flow Distance)
  | work, [] => .ok (work, .continue)
  | work, result :: results => do
    let (work, flow) ← processResult checks externals work result
    match flow with
    | .continue => processResults work results
    | .finish jobResult => return (work, .finish jobResult)
    | .stop => return (work, .stop)

/-- Note the tasks of a chunk as not completed, and encode them. A task that cannot be encoded
leaves the rest of the chunk alone. -/
def enlist : TaskSet → List (TaskId × TaskData) → Except Fault (TaskSet × Option (List WorkerTask))
  | tasks, [] => .ok (tasks, some [])
  | tasks, (id, task) :: chunk => do
    let (tasks, _) ← tasks.insert checks id
    match externals.encodeTaskData task with
    | none => return (tasks, none)
    | some data =>
      let (tasks, workersTasks) ← enlist tasks chunk
      return (tasks, workersTasks.map fun workersTasks => ⟨id, data⟩ :: workersTasks)

def parts (taxies passengers : Nat) : Except Fault (List (MultilevelVecMap Distance)) := do
  let part ← MultilevelVecMap.new checks (passengers % 64 + 1)
  return List.replicate taxies part

def startJob (s : State) (job : Job) : Except Fault Turn := do
  if !s.scheduler.ready then return ({ s with needProcessJob := false }, [], .continue)
  else
    let taxies := job.data.taxies.length
    let passengers := job.data.passengers.length
    let taskSplitter ← TaskSplitter.new checks taxies passengers
    match externals.encodeJobData job.data with
    | none => return (s, [], .finish (.error "Failed to serialize job arguments" none))
    | some args =>
      let workerJobData := externals.workerJobData args
      let totalTasks ← taskSplitter.totalTasks checks
      let parts ← parts checks taxies passengers
      let work :=
        { stats := none, tasks := BitSet.new, parts := parts, phase := .splitting taskSplitter }
      return ({ s with currentJob := some { job with state := .started work } },
        [.request (.newJob job.id totalTasks workerJobData)], .continue)

def splitJob (s : State) (job : Job) (work : Started) (splitter : TaskSplitter) :
    Except Fault Turn := do
  if !s.scheduler.ready then return ({ s with needProcessJob := false }, [], .continue)
  else
    let (chunk, splitter) ← nextChunk (TaskSplitter.next checks) 128 splitter
    let (batch, phase) := match chunk with
      | .ok batch => (batch, JobPhase.splitting splitter)
      | .error left => (left, JobPhase.waitingTasksCompletions)
    let (tasks, workersTasks) ← enlist checks externals work.tasks batch
    match workersTasks with
    | none =>
      return ({ s with currentJob := some { job with state := .started { work with
          tasks := tasks, stats := none, phase := .splitting splitter } } }, [],
        .finish (.error "Failed to serialize task data" work.stats))
    | some workersTasks =>
      return ({ s with currentJob := some { job with state := .started { work with
          tasks := tasks, phase := phase } } }, [.request (.task workersTasks)], .continue)

def awaitJob (s : State) (job : Job) (work : Started) : Except Fault Turn := do
  if !s.scheduler.ready then return ({ s with needProcessJob := false }, [], .continue)
  else if work.tasks.isEmpty then
    let taxies := job.data.taxies.length
    let passengers := job.data.taxies.length
    let reducer ← TaskReducer.new checks taxies passengers work.parts
    return ({ s with currentJob := some { job with state := .started { work with
      parts := [], phase := .reducing reducer distanceMax } } }, [], .continue)
  else return (s, [], .continue)

def reduceJob (s : State) (job : Job) (work : Started) (reducer : TaskReducer)
    (minimal : Distance) : Except Fault Turn := do
  let (chunk, reducer) ← nextChunk (TaskReducer.next checks) 128 reducer
  match chunk with
  | .ok distances =>
    return ({ s with currentJob := some { job with state := .started { work with
      phase := .reducing reducer (distances.foldl min minimal) } } }, [], .continue)
  | .error left =>
    let minimal := left.foldl min minimal
    return ({ s with currentJob := some { job with state := .started { work with
      stats := none, phase := .reducing reducer minimal } } }, [],
      .finish (.completed minimal work.stats))

def processCurrent (s : State) (job : Job) : Except Fault Turn :=
  match job.state with
  | .notStarted => startJob checks externals s job
  | .started work =>
    match work.phase with
    | .splitting splitter => splitJob checks externals s job work splitter
    | .waitingTasksCompletions => awaitJob checks s job work
    | .reducing reducer minimal => reduceJob checks s job work reducer minimal
  | .finished _ => .ok (s, [], .continue)

section
variable {checks : Bool} {externals : Externals} {s : State} {job : Job} {turn : Turn}

theorem startJob_onlyJob (h : startJob checks externals s job = .ok turn) : OnlyJob s job turn.1 := by
  unfold startJob at h
  split at h
  · cases h
    exact ⟨rfl, rfl, .inl rfl⟩
  · obtain ⟨_, _, h⟩ := bind_ok.mp h
    split at h
    · cases h
      exact ⟨rfl, rfl, .inl rfl⟩
    · simp only [bind_ok, except_pure, Except.ok.injEq] at h
      obtain ⟨_, _, _, _, rfl⟩ := h
      exact ⟨rfl, rfl, .inr ⟨_, rfl⟩⟩

theorem splitJob_onlyJob {work : Started} {splitter : TaskSplitter}
    (h : splitJob checks externals s job work splitter = .ok turn) : OnlyJob s job turn.1 := by
  unfold splitJob at h
  split at h
  · cases h
    exact ⟨rfl, rfl, .inl rfl⟩
  · obtain ⟨_, _, h⟩ := bind_ok.mp h
    obtain ⟨⟨_, workersTasks⟩, _, h⟩ := bind_ok.mp h
    cases workersTasks with
    | none =>
      cases h
      exact ⟨rfl, rfl, .inr ⟨_, rfl⟩⟩
    | some workersTasks =>
      cases h
      exact ⟨rfl, rfl, .inr ⟨_, rfl⟩⟩

theorem awaitJob_onlyJob {work : Started} (h : awaitJob checks s job work = .ok turn) :
    OnlyJob s job turn.1 := by
  unfold awaitJob at h
  split at h
  · cases h
    exact ⟨rfl, rfl, .inl rfl⟩
  · split at h
    · obtain ⟨_, _, h⟩ := bind_ok.mp h
      cases h
      exact ⟨rfl, rfl, .inr ⟨_, rfl⟩⟩
    · cases h
      exact ⟨rfl, rfl, .inl rfl⟩

theorem reduceJob_onlyJob {work : Started} {reducer : TaskReducer} {minimal : Distance}
    (h : reduceJob checks s job work reducer minimal = .ok turn) : OnlyJob s job turn.1 := by
  unfold reduceJob at h
  obtain ⟨⟨chunk, _⟩, _, h⟩ := bind_ok.mp h
  cases chunk with
  | ok distances =>
    cases h
    exact ⟨rfl, rfl, .inr ⟨_, rfl⟩⟩
  | error left =>
    cases h
    exact ⟨rfl, rfl, .inr ⟨_, rfl⟩⟩

theorem processCurrent_onlyJob (h : processCurrent checks externals s job = .ok turn) :
    OnlyJob s job turn.1 := by
  unfold processCurrent at h
  split at h
  · exact startJob_onlyJob h
  · split at h
    · exact splitJob_onlyJob h
    · exact awaitJob_onlyJob h
    · exact reduceJob_onlyJob h
  · cases h
    exact ⟨rfl, rfl, .inl rfl⟩

end

/-- The task manager for jobs of taxis and passengers. -/
def engine : Engine JobData Started Distance where
  processCurrent := processCurrent checks externals
  receive work stats results :=
    match stats with
    | some jobStats => processResults checks externals { work with stats := some jobStats } results
    | none => processResults checks externals work results
  stats work := work.stats
  incompleteTasks work := work.tasks.len
  phase work := work.phase.json
  onlyJob _ _ _ h := processCurrent_onlyJob h

variable {checks externals}

/-- A turn that works on the current job. -/
theorem step_current {s : State} {job : Job} {turn : Turn} (needed : s.needProcessJob = true)
    (hc : s.currentJob = some job) (h : processCurrent checks externals s job = .ok turn) :
    s.step (engine checks externals) .processJob = State.follow turn := by
  have hturn : s.processJob (engine checks externals) = .ok turn := by
    rw [State.processJob, hc]
    exact h
  rw [State.step, if_pos needed, hturn]
  rfl

end GridServer.TaskManager
