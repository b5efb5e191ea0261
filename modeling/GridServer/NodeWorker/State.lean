import GridServer.Library.LruCache
import GridServer.Shared.Fault
import GridServer.Shared.Messages

namespace GridServer.NodeWorker
open Library

abbrev ExecutorId := Nat

/-- A task of a job, as an executor that works on it is filed. -/
abbrev Key := Uuid × TaskId

structure ExecutorJob where
  jobId : Uuid
  jobData : List UInt8
  taskId : TaskId
  taskData : List UInt8
deriving DecidableEq, Repr

structure ExecutorResult where
  jobId : Uuid
  taskId : TaskId
  executionTime : Duration
  result : Except String (List UInt8)
deriving DecidableEq, Repr

namespace ExecutorResult

def key (r : ExecutorResult) : Key := (r.jobId, r.taskId)

def response (r : ExecutorResult) : WorkerResponse :=
  match r.result with
  | .ok data => .result { id := r.taskId, executionTime := r.executionTime, data := data }
  | .error error => .error (.taskExecutionError r.taskId error)

end ExecutorResult

/-- What the two workers keep: a module of type `M` for each cached job, and the ids of the
executors, each of which has its stream of messages. -/
structure State (M : Type) where
  freeExecutors : List ExecutorId
  assignments : AList fun _ : Key => ExecutorId
  executors : Finset ExecutorId
  jobCache : LruCache Uuid M
  jobArgs : LruCache Uuid (List UInt8)

/-- What a worker puts out. -/
inductive Sent where
  | abort (executorId : ExecutorId)
  | startJob (executorId : ExecutorId) (job : ExecutorJob)
  | startExecutor (executorId : ExecutorId)
  | stopExecutor (executorId : ExecutorId)
  | addLibrary (job : Uuid) (data : List UInt8)
  | removeLibrary (job : Uuid)
  | respond (response : WorkerResponse)
deriving DecidableEq, Repr

/-- `NoFreeExecutors` and `LibraryMissing` name the tasks of the request. -/
def libraryMissing (request : WorkerRequest) : WorkerError :=
  .libraryMissing (request.tasks.map WorkerTask.id)
    (request.replacements.map fun replacement => (replacement.1, replacement.2.id))

namespace State
variable {M : Type}

/-- A worker with its executors started and all of them free. -/
def start (ids : List ExecutorId) : State M :=
  { freeExecutors := ids
    assignments := ∅
    executors := ids.toFinset
    jobCache := LruCache.new 10 (by decide)
    jobArgs := LruCache.new 10 (by decide) }

/-- The executors that tasks are assigned to. -/
def busyExecutors (s : State M) : List ExecutorId := s.assignments.entries.map fun entry => entry.2

def unassign (s : State M) (key : Key) : State M :=
  { s with assignments := s.assignments.erase key }

/-- What `assign_task` does with an executor that is there, after sending it `before`. -/
def assign (s : State M) (executorId : ExecutorId) (job : Uuid) (task : WorkerTask)
    (before : List Sent) : State M × List Sent :=
  if executorId ∈ s.executors then
    let (jobArgs, args) := s.jobArgs.get job
    ({ s with assignments := s.assignments.insert (job, task.id) executorId, jobArgs := jobArgs },
      before ++ args.toList.map fun args =>
        .startJob executorId
          { jobId := job, jobData := args, taskId := task.id, taskData := task.data })
  else (s, [])

theorem assign_before {s : State M} {executorId : ExecutorId} (h : executorId ∈ s.executors)
    (job : Uuid) (task : WorkerTask) (before : List Sent) :
    s.assign executorId job task before =
      ((s.assign executorId job task []).1, before ++ (s.assign executorId job task []).2) := by
  rw [assign, assign, if_pos h, if_pos h]
  rfl

/-- `process_tasks_assignment`, on the tasks from the last to the first. -/
def tasksAssignment (s : State M) (job : Uuid) :
    List WorkerTask → State M × List Sent × Option WorkerError
  | [] => (s, [], none)
  | task :: tasks =>
    match s.freeExecutors.getLast? with
    | none => (s, [], some (.noFreeExecutors ((task :: tasks).reverse.map WorkerTask.id)))
    | some executorId =>
      let (s, out) :=
        assign { s with freeExecutors := s.freeExecutors.dropLast } executorId job task []
      let (s, out', error) := s.tasksAssignment job tasks
      (s, out ++ out', error)

theorem tasksAssignment_stop {s : State M} (h : s.freeExecutors = []) (job : Uuid)
    (task : WorkerTask) (tasks : List WorkerTask) :
    s.tasksAssignment job (task :: tasks) =
      (s, [], some (.noFreeExecutors ((task :: tasks).reverse.map WorkerTask.id))) := by
  rw [tasksAssignment, h]
  rfl

theorem tasksAssignment_next {s : State M} {front : List ExecutorId} {executorId : ExecutorId}
    (h : s.freeExecutors = front ++ [executorId]) (job : Uuid) (task : WorkerTask)
    (tasks : List WorkerTask) {t : State M} (ht : t = { s with freeExecutors := front }) :
    s.tasksAssignment job (task :: tasks) =
      (((t.assign executorId job task []).1.tasksAssignment job tasks).1,
        (t.assign executorId job task []).2 ++
          ((t.assign executorId job task []).1.tasksAssignment job tasks).2.1,
        ((t.assign executorId job task []).1.tasksAssignment job tasks).2.2) := by
  rw [tasksAssignment, h, List.getLast?_concat, List.dropLast_concat, ht]

/-- What `process_message` does with a result, whichever executor it comes from. -/
def finish (s : State M) (result : ExecutorResult) : State M × List Sent :=
  match s.assignments.lookup result.key with
  | some executorId =>
    ({ s.unassign result.key with freeExecutors := s.freeExecutors ++ [executorId] },
      [.respond result.response])
  | none => (s, [])

/-- The tasks of a job that are assigned. -/
def held (s : State M) (job : Uuid) : Finset TaskId :=
  ((s.assignments.keys.filter fun key => key.1 = job).map Prod.snd).toFinset

theorem mem_held {s : State M} {job : Uuid} {taskId : TaskId} :
    taskId ∈ s.held job ↔ (job, taskId) ∈ s.assignments := by
  simp [held, AList.mem_keys]

theorem held_of_lookup {s : State M} {job : Uuid} {taskId : TaskId} {id : ExecutorId}
    (h : s.assignments.lookup (job, taskId) = some id) : taskId ∈ s.held job := by
  rw [mem_held, ← AList.lookup_isSome, h]
  rfl

theorem not_held_of_lookup {s : State M} {job : Uuid} {taskId : TaskId}
    (h : s.assignments.lookup (job, taskId) = none) : taskId ∉ s.held job := by
  rw [mem_held]
  exact AList.lookup_eq_none.mp h

end State

end GridServer.NodeWorker
