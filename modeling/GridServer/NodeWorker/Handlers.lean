import GridServer.NodeWorker.State

namespace GridServer.NodeWorker
open Library

inductive WasmModule where
  | compiled (bytes : List UInt8)
  | source (bytes : List UInt8)
deriving DecidableEq, Repr

abbrev WasmWorker := State WasmModule

namespace WasmWorker

/-- `WasmWorker::new`: the slab numbers the executors. -/
def new (executorsNum : Nat) : WasmWorker := State.start (List.range executorsNum)

def assignTask (s : WasmWorker) (executorId : ExecutorId) (job : Uuid) (task : WorkerTask)
    (needAbort : Bool) : WasmWorker × List Sent :=
  s.assign executorId job task (if needAbort then [.abort executorId] else [])

def processTasksAssignment (s : WasmWorker) (job : Uuid) (tasks : List WorkerTask) :
    WasmWorker × List Sent × Option WorkerError :=
  s.tasksAssignment job tasks.reverse

def processTaskReplacement (s : WasmWorker) (job : Uuid) :
    List (TaskId × WorkerTask) → WasmWorker × List Sent
  | [] => (s, [])
  | (replaceTaskId, task) :: replacements =>
    match s.assignments.lookup (job, replaceTaskId) with
    | some executorId =>
      let (s, out) := assignTask (s.unassign (job, replaceTaskId)) executorId job task true
      let (s, out') := processTaskReplacement s job replacements
      (s, out ++ out')
    | none => processTaskReplacement s job replacements

theorem processTaskReplacement_skip {s : WasmWorker} {job : Uuid} {replaceTaskId : TaskId}
    (h : s.assignments.lookup (job, replaceTaskId) = none) (task : WorkerTask)
    (replacements : List (TaskId × WorkerTask)) :
    processTaskReplacement s job ((replaceTaskId, task) :: replacements) =
      processTaskReplacement s job replacements := by
  rw [processTaskReplacement, h]

theorem processTaskReplacement_next {s t : WasmWorker} {job : Uuid} {replaceTaskId : TaskId}
    {executorId : ExecutorId} (h : s.assignments.lookup (job, replaceTaskId) = some executorId)
    (ht : t = s.unassign (job, replaceTaskId)) (hid : executorId ∈ t.executors) (task : WorkerTask)
    (replacements : List (TaskId × WorkerTask)) :
    processTaskReplacement s job ((replaceTaskId, task) :: replacements) =
      ((processTaskReplacement (t.assign executorId job task []).1 job replacements).1,
        .abort executorId :: (t.assign executorId job task []).2 ++
          (processTaskReplacement (t.assign executorId job task []).1 job replacements).2) := by
  have hassign : assignTask t executorId job task true =
      ((t.assign executorId job task []).1,
        .abort executorId :: (t.assign executorId job task []).2) :=
    State.assign_before hid job task [.abort executorId]
  rw [processTaskReplacement, h]
  simp only [← ht, hassign]

def processModule (s : WasmWorker) (request : WorkerRequest) : Except WorkerError WasmWorker :=
  if s.jobCache.contains request.job then .ok s
  else
    match request.jobData with
    | none => .error (libraryMissing request)
    | some (args, data) =>
      .ok { s with jobCache := (s.jobCache.push request.job (.source data)).1
                   jobArgs := (s.jobArgs.push request.job args).1 }

def processRequest (s : WasmWorker) (request : WorkerRequest) :
    WasmWorker × List Sent × Option WorkerError :=
  match processModule s request with
  | .error error => (s, [], some error)
  | .ok s =>
    let (s, out) := processTaskReplacement s request.job request.replacements
    let (s, out', error) := processTasksAssignment s request.job request.tasks
    (s, out ++ out', error)

def processMessage (s : WasmWorker) (result : ExecutorResult) : WasmWorker × List Sent :=
  s.finish result

/-- `reset`, which drains the assignments in the order of `drained`. -/
def reset (s : WasmWorker) (drained : List Key) : WasmWorker × List Sent :=
  let ids := drained.filterMap s.assignments.lookup
  ({ s with assignments := ∅, freeExecutors := s.freeExecutors ++ ids },
    (ids.filter fun id => id ∈ s.executors).map Sent.abort)

/-- What an executor does to the cache when it is the first to compile a module. -/
def compile (s : WasmWorker) (job : Uuid) (bytes : List UInt8) : WasmWorker :=
  { s with jobCache := s.jobCache.write job (.compiled bytes) }

end WasmWorker

abbrev DllWorker := State Unit

inductive DllExecutorEvent where
  | terminated (error : String)
  | result (result : ExecutorResult)
deriving DecidableEq, Repr

namespace DllWorker

/-- `DllWorker::new`, with the processes it has started. -/
def new (processIds : List ExecutorId) : DllWorker := State.start processIds

def stopExecutor (s : DllWorker) (executorId : ExecutorId) : DllWorker × List Sent :=
  if executorId ∈ s.executors then
    ({ s with executors := s.executors.erase executorId
              freeExecutors := s.freeExecutors.filter fun id => id ≠ executorId },
      [.stopExecutor executorId])
  else (s, [])

/-- The operating system gives the new process the next of the ids, one that no executor has. -/
def startExecutor (s : DllWorker) :
    List ExecutorId → Except Fault (DllWorker × ExecutorId × List Sent × List ExecutorId)
  | [] => .error .notReady
  | processId :: processIds =>
    if processId ∈ s.executors then .error .notReady
    else .ok ({ s with executors := insert processId s.executors }, processId,
      [.startExecutor processId], processIds)

def restartExecutor (s : DllWorker) (executorId : ExecutorId) (processIds : List ExecutorId) :
    Except Fault (DllWorker × ExecutorId × List Sent × List ExecutorId) := do
  let (s, stopped) := stopExecutor s executorId
  let (s, executorId, started, processIds) ← startExecutor s processIds
  return (s, executorId, stopped ++ started, processIds)

def assignTask (s : DllWorker) (executorId : ExecutorId) (job : Uuid) (task : WorkerTask) :
    DllWorker × List Sent :=
  s.assign executorId job task []

def processTasksAssignment (s : DllWorker) (job : Uuid) (tasks : List WorkerTask) :
    DllWorker × List Sent × Option WorkerError :=
  s.tasksAssignment job tasks.reverse

def processTaskReplacement (s : DllWorker) (job : Uuid) : List (TaskId × WorkerTask) →
    List ExecutorId → Except Fault (DllWorker × List Sent)
  | [], _ => .ok (s, [])
  | (replaceTaskId, task) :: replacements, processIds =>
    match s.assignments.lookup (job, replaceTaskId) with
    | some executorId => do
      let (s, executorId, restarted, processIds) ←
        restartExecutor (s.unassign (job, replaceTaskId)) executorId processIds
      let (s, out) := assignTask s executorId job task
      let (s, out') ← processTaskReplacement s job replacements processIds
      return (s, restarted ++ out ++ out')
    | none => processTaskReplacement s job replacements processIds

def processLibrary (s : DllWorker) (request : WorkerRequest) :
    Except WorkerError (DllWorker × List Sent) :=
  match s.jobCache.get request.job with
  | (jobCache, some _) => .ok ({ s with jobCache := jobCache }, [])
  | (_, none) =>
    match request.jobData with
    | none => .error (libraryMissing request)
    | some (args, data) =>
      let (jobCache, removed) := s.jobCache.push request.job ()
      .ok ({ s with jobArgs := (s.jobArgs.push request.job args).1, jobCache := jobCache },
        .addLibrary request.job data :: removed.toList.map fun entry => .removeLibrary entry.1)

def processRequest (s : DllWorker) (request : WorkerRequest) (processIds : List ExecutorId) :
    Except Fault (DllWorker × List Sent × Option WorkerError) :=
  match processLibrary s request with
  | .error error => .ok (s, [], some error)
  | .ok (s, cached) => do
    let (s, out) ← processTaskReplacement s request.job request.replacements processIds
    let (s, out', error) := processTasksAssignment s request.job request.tasks
    return (s, cached ++ out ++ out', error)

/-- `process_message`. `keys` is the order in which `extract_if` goes through the assignments. It
looks for the id of the executor that was started, not of the one that terminated. -/
def processMessage (s : DllWorker) (executorId : ExecutorId) (event : DllExecutorEvent)
    (processIds : List ExecutorId) (keys : List Key) : Except Fault (DllWorker × List Sent) :=
  match event with
  | .terminated error => do
    let (s, executorId, restarted, _) ← restartExecutor s executorId processIds
    let s := { s with freeExecutors := s.freeExecutors ++ [executorId] }
    match keys.find? fun key => s.assignments.lookup key = some executorId with
    | some key =>
      return (s.unassign key,
        restarted ++ [.respond (.error (.taskExecutionError key.2 error))])
    | none => return (s, restarted)
  | .result result => .ok (s.finish result)

/-- The loop of `reset` on the executors that were assigned. -/
def restartAll (s : DllWorker) :
    List ExecutorId → List ExecutorId → Except Fault (DllWorker × List Sent)
  | [], _ => .ok (s, [])
  | executorId :: ids, processIds => do
    let (s, executorId, restarted, processIds) ← restartExecutor s executorId processIds
    let (s, out) ← restartAll { s with freeExecutors := s.freeExecutors ++ [executorId] } ids
      processIds
    return (s, restarted ++ out)

/-- `reset`, which drains the assignments in the order of `drained`. -/
def reset (s : DllWorker) (drained : List Key) (processIds : List ExecutorId) :
    Except Fault (DllWorker × List Sent) :=
  restartAll { s with assignments := ∅ } (drained.filterMap s.assignments.lookup) processIds

end DllWorker

inductive WasmEvent where
  | request (request : WorkerRequest)
  | message (executorId : ExecutorId) (result : ExecutorResult)
  | reset (drained : List Key)
  | compiled (job : Uuid) (bytes : List UInt8)
deriving DecidableEq, Repr

inductive DllEvent where
  | request (request : WorkerRequest) (processIds : List ExecutorId)
  | message (executorId : ExecutorId) (event : DllExecutorEvent) (processIds : List ExecutorId)
    (keys : List Key)
  | reset (drained : List Key) (processIds : List ExecutorId)
deriving DecidableEq, Repr

/-- `Node::process_request` sends the error of a request on to the client. -/
def answered (error : Option WorkerError) : List Sent :=
  error.toList.map fun error => .respond (.error error)

/-- What the node does with its worker. A message comes from an executor that is there, and a map
is gone through in any order. -/
def WasmWorker.step (s : WasmWorker) : WasmEvent → Except Fault (WasmWorker × List Sent)
  | .request request =>
    let (s, out, error) := processRequest s request
    .ok (s, out ++ answered error)
  | .message executorId result =>
    if executorId ∈ s.executors then .ok (processMessage s result) else .error .notReady
  | .reset drained =>
    if drained.Perm s.assignments.keys then .ok (reset s drained) else .error .notReady
  | .compiled job bytes => .ok (compile s job bytes, [])

def DllWorker.step (s : DllWorker) : DllEvent → Except Fault (DllWorker × List Sent)
  | .request request processIds => do
    let (s, out, error) ← processRequest s request processIds
    return (s, out ++ answered error)
  | .message executorId event processIds keys =>
    if executorId ∈ s.executors ∧ keys.Perm s.assignments.keys then
      processMessage s executorId event processIds keys
    else .error .notReady
  | .reset drained processIds =>
    if drained.Perm s.assignments.keys then reset s drained processIds else .error .notReady

end GridServer.NodeWorker
