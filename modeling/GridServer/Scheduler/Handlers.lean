import GridServer.Scheduler.State

namespace GridServer
open Library

/-- Take the worker out of the task's assignments. -/
def RefMut.releaseWorker (task : RefMut Task) (workerId : WorkerId) : RefMut Task :=
  match removeFirst task.value.assignments workerId with
  | some assignments => task.derefMut { task.value with assignments := assignments }
  | none => task

/-- Take the task out of the worker's assignments. -/
def RefMut.releaseTask (worker : RefMut Worker) (taskId : TaskId) : RefMut Worker :=
  match removeFirst worker.value.assignments taskId with
  | some assignments => worker.derefMut { worker.value with assignments := assignments }
  | none => worker

/-- What every handler does about a task that is no longer queued: the position comes from
`replacements`, the removal is from `assignments`. -/
def RefMut.releaseFinished (worker : RefMut Worker) (taskId : TaskId) :
    Except Fault (RefMut Worker) :=
  match worker.value.replacements.idxOf? taskId with
  | some pos =>
    match swapRemove worker.value.assignments pos with
    | some assignments => .ok (worker.derefMut { worker.value with assignments := assignments })
    | none => .error .indexOutOfBounds
  | none => .ok worker

def RefMut.addReplacement (worker : RefMut Worker) (taskId : TaskId) : RefMut Worker :=
  worker.derefMut { worker.value with replacements := worker.value.replacements ++ [taskId] }

namespace Scheduler

/-- `reset_scheduler`. The job itself stays. -/
def reset (s : Scheduler) : Scheduler :=
  { s with
    workersQueue := s.workersQueue.clear
    tasksQueue := s.tasksQueue.clear
    resultsBuffer := s.resultsBuffer.clear
    connectionManager := { s.connectionManager with nodes := s.connectionManager.nodes.clear }
    needSchedule := false }

/-- What the two loops of `process_scheduling` work on. -/
structure Giving where
  job : ScheduledJob
  tasksQueue : PriorityQueue Task
  worker : RefMut Worker
  needSchedule : Bool

section Giving
variable (checks : Bool)

/-- The least-assigned task, when it may be given out. -/
def Giving.offered (g : Giving) : Except Fault (Option (RefMut Task)) := do
  match ← g.tasksQueue.peekMut with
  | some task =>
    return if !task.value.hasAssignments || g.job.scheduledTasks == g.job.totalTasks then some task
      else none
  | none => return none

def Giving.give (g : Giving) (task : RefMut Task) : Except Fault Giving := do
  let tasksQueue ← g.tasksQueue.dropPeekMut Task.cmpPriority
    (task.derefMut
      { task.value with assignments := task.value.assignments ++ [g.worker.value.id] })
  let scheduledTasks ← u128Add checks g.job.scheduledTasks (!task.value.hasAssignments).toNat
  return { g with
    job := { g.job with scheduledTasks := scheduledTasks }
    tasksQueue := tasksQueue
    worker := g.worker.derefMut
      { g.worker.value with
        assignments := g.worker.value.assignments ++ [task.value.taskData.id] } }

/-- `for _ in 0..can_accept`. -/
def giveTasks : Nat → Giving → List WorkerTask → Except Fault (Giving × List WorkerTask)
  | 0, g, tasks => .ok (g, tasks)
  | n + 1, g, tasks => do
    match ← g.offered with
    | some task =>
      let g ← g.give checks task
      giveTasks n g (tasks ++ [task.value.taskData])
    | none => return ({ g with needSchedule := false }, tasks)

/-- `for i in 0..need_replace`. -/
def giveReplacements : Nat → Giving → List (TaskId × WorkerTask) →
    Except Fault (Giving × List (TaskId × WorkerTask))
  | 0, g, replacements => .ok (g, replacements)
  | n + 1, g, replacements => do
    match ← g.offered with
    | some task =>
      let popped := g.worker.derefMut
        { g.worker.value with replacements := g.worker.value.replacements.dropLast }
      match g.worker.value.replacements.getLast? with
      | some taskId =>
        let g ← { g with worker := popped }.give checks task
        giveReplacements n g (replacements ++ [(taskId, task.value.taskData)])
      | none => giveReplacements n { g with worker := popped } replacements
    | none => return ({ g with needSchedule := false }, replacements)

/-- The data sent along with a worker's first request of the job. -/
def jobDataFor (job : ScheduledJob) (worker : RefMut Worker) :
    RefMut Worker × Option (List UInt8 × List UInt8) :=
  if !worker.value.hasJobData then
    (worker.derefMut { worker.value with hasJobData := true },
      (job.job.data.lookup worker.value.platform).map fun data => (job.job.args, data))
  else (worker, none)

/-- `nodes.send`: a request for a worker without a node goes nowhere. -/
def sendNode (s : Scheduler) (workerId : WorkerId) (request : WorkerRequest) : List Sent :=
  match s.connectionManager.nodes.get workerId with
  | some node => [.node node workerId request]
  | none => []

def processScheduling (s : Scheduler) : Except Fault (Scheduler × List Sent) :=
  match s.scheduledJob with
  | none => .ok (s, [])
  | some job => do
    match ← s.workersQueue.peekMut with
    | none => return ({ s with needSchedule := false }, [])
    | some worker =>
      let canAccept ← worker.value.canAccept checks
      if 0 < canAccept ∨ 0 < worker.value.needReplace then
        let (g, tasks) ← giveTasks checks canAccept ⟨job, s.tasksQueue, worker, s.needSchedule⟩ []
        let (g, replacements) ← giveReplacements checks g.worker.value.needReplace g []
        let (worker, sent) :=
          if !tasks.isEmpty || !replacements.isEmpty then
            let (worker, jobData) := jobDataFor g.job g.worker
            (worker, s.sendNode worker.value.id
              { job := g.job.id, jobData := jobData, replacements := replacements, tasks := tasks })
          else (g.worker, [])
        let workersQueue ← s.workersQueue.dropPeekMut (Worker.cmpPriority checks) worker
        return ({ s with
          scheduledJob := some g.job
          tasksQueue := g.tasksQueue
          workersQueue := workersQueue
          needSchedule := g.needSchedule }, sent)
      else return ({ s with needSchedule := false }, [])

end Giving

section Workers
variable (checks : Bool)

def processConnected (s : Scheduler) (workerInfo : WorkerInfo) (node : Node) :
    Except Fault (Scheduler × List Sent) := do
  let nodes := s.connectionManager.nodes.insert workerInfo.workerId node
  let (workersQueue, _) ← s.workersQueue.push (Worker.cmpPriority checks) workerInfo.workerId
    { subworkers := workerInfo.subworkers
      platform := workerInfo.platform
      id := workerInfo.workerId
      address := workerInfo.address
      hasJobData := false
      assignments := []
      replacements := [] }
  return ({ s with
    connectionManager := { s.connectionManager with nodes := nodes }
    workersQueue := workersQueue
    needSchedule := true }, [])

/-- One assignment of a worker that left. -/
def abandonTask (workerId : WorkerId) (held : PriorityQueue Task × ScheduledJob) (taskId : TaskId) :
    Except Fault (PriorityQueue Task × ScheduledJob) :=
  match held.1.getMut taskId with
  | none => .ok held
  | some task => do
    let task := task.releaseWorker workerId
    let scheduledTasks ← u128Sub checks held.2.scheduledTasks (!task.value.hasAssignments).toNat
    let tasksQueue ← held.1.dropRefMut Task.cmpPriority task
    return (tasksQueue, { held.2 with scheduledTasks := scheduledTasks })

def processWorkerDisconnect (s : Scheduler) (workerId : WorkerId) : Except Fault Scheduler := do
  let nodes := s.connectionManager.nodes.remove workerId
  let (workersQueue, removed) ← s.workersQueue.remove (Worker.cmpPriority checks) workerId
  let s := { s with
    connectionManager := { s.connectionManager with nodes := nodes }
    workersQueue := workersQueue }
  match removed with
  | some (_, worker) =>
    match s.scheduledJob with
    | some job =>
      let (tasksQueue, job) ← worker.assignments.foldlM (abandonTask checks workerId) (s.tasksQueue, job)
      return { s with scheduledJob := some job, tasksQueue := tasksQueue, needSchedule := true }
    | none => return { s with needSchedule := true }
  | none => return s

/-- `avg_task_completion_time` after one more result. -/
def nextAverage (job : ScheduledJob) (completedTasks : Nat) (executionTime : Duration) :
    Except Fault Duration := do
  let weight ← u128Div job.completedTasks completedTasks
  let share ← u128Div executionTime completedTasks
  return (job.avgTaskCompletionTime * weight + share) % 2 ^ 64

/-- One other worker that a completed task was assigned to. -/
def replaceTask (taskId : TaskId) (workersQueue : PriorityQueue Worker) (id : WorkerId) :
    Except Fault (PriorityQueue Worker) :=
  match workersQueue.getMut id with
  | none => .ok workersQueue
  | some worker =>
    workersQueue.dropRefMut (Worker.cmpPriority checks)
      ((worker.releaseTask taskId).addReplacement taskId)

/-- The worker that reported a completed task. -/
def settleReporter (workersQueue : PriorityQueue Worker) (workerId : WorkerId) (taskId : TaskId) :
    Except Fault (PriorityQueue Worker) :=
  match workersQueue.getMut workerId with
  | none => .ok workersQueue
  | some worker =>
    workersQueue.dropRefMut (Worker.cmpPriority checks) (worker.releaseTask taskId)

/-- The workers after the result of a queued task: the reporter lets go of it, and every other
worker it was assigned to is due a replacement. -/
def settleWorkers (workersQueue : PriorityQueue Worker) (workerId : WorkerId) (taskId : TaskId)
    (task : Task) : Except Fault (PriorityQueue Worker) := do
  let workersQueue ← settleReporter checks workersQueue workerId taskId
  (withdraw task.assignments workerId).foldlM (replaceTask checks taskId) workersQueue

/-- A result of a task that is no longer queued. -/
def lateResult (s : Scheduler) (workerId : WorkerId) (taskId : TaskId) :
    Except Fault (Scheduler × List Sent) :=
  match s.workersQueue.getMut workerId with
  | none => .ok (s, [])
  | some worker => do
    let worker ← worker.releaseFinished taskId
    let workersQueue ← s.workersQueue.dropRefMut (Worker.cmpPriority checks) worker
    return ({ s with workersQueue := workersQueue, needSchedule := true }, [])

/-- The first result of a task, which has just left the queue. -/
def acceptResult (s : Scheduler) (job : ScheduledJob) (workerId : WorkerId) (result : WorkerResult)
    (taskId : TaskId) (task : Task) : Except Fault (Scheduler × List Sent) := do
  let completedTasks ← u128Add checks job.completedTasks 1
  let average ← nextAverage job completedTasks result.executionTime
  let job := { job with completedTasks := completedTasks, avgTaskCompletionTime := average }
  let (resultsBuffer, batch) ← s.resultsBuffer.push result
  let sent := batch.toList.map fun batch => Sent.taskManager (.taskResults batch)
  let workersQueue ← settleWorkers checks s.workersQueue workerId taskId task
  let s := { s with
    scheduledJob := some job
    workersQueue := workersQueue
    resultsBuffer := resultsBuffer
    needSchedule := true }
  if job.completedTasks = job.totalTasks then
    let batch ← resultsBuffer.filledSlice
    return (s.reset, sent ++
      [.taskManager (.jobComplete batch job.stats), .nodeManager .releaseDemand])
  else return (s, sent)

def processResult (s : Scheduler) (workerId : WorkerId) (result : WorkerResult) :
    Except Fault (Scheduler × List Sent) :=
  match s.scheduledJob with
  | none => .ok (s, [])
  | some job => do
    let (tasksQueue, removed) ← s.tasksQueue.remove Task.cmpPriority result.id
    match removed with
    | none => lateResult checks { s with tasksQueue := tasksQueue } workerId result.id
    | some (taskId, task) =>
      acceptResult checks { s with tasksQueue := tasksQueue } job workerId result taskId task

/-- What an error handler holds while it goes through the reported tasks. -/
structure Borrowed where
  worker : RefMut Worker
  tasksQueue : PriorityQueue Task
  job : ScheduledJob

/-- One reported task. `edit` is what the handler adds for the task, `after` for the worker, when
the task is still queued. -/
def report (edit : RefMut Task → Except Fault (RefMut Task)) (after : RefMut Worker → RefMut Worker)
    (b : Borrowed) (taskId : TaskId) : Except Fault Borrowed :=
  match b.tasksQueue.getMut taskId with
  | none => do
    let worker ← b.worker.releaseFinished taskId
    return { b with worker := worker }
  | some task => do
    let scheduledTasks ← u128Sub checks b.job.scheduledTasks (!task.value.hasAssignments).toNat
    let task ← edit (task.releaseWorker b.worker.key)
    let tasksQueue ← b.tasksQueue.dropRefMut Task.cmpPriority task
    return {
      worker := after (b.worker.releaseTask taskId)
      tasksQueue := tasksQueue
      job := { b.job with scheduledTasks := scheduledTasks } }

def reportTask (b : Borrowed) (taskId : TaskId) : Except Fault Borrowed :=
  report checks .ok id b taskId

/-- A task that was sent to replace `replacement.1`. -/
def reportReplacement (b : Borrowed) (replacement : TaskId × TaskId) : Except Fault Borrowed :=
  report checks .ok (fun worker => worker.addReplacement replacement.1) b replacement.2

/-- A failed execution counts against the task, up to the limit. -/
def countFailure (limit : Nat) (task : RefMut Task) : Except Fault (RefMut Task) :=
  if task.value.failedExecutions = limit then .ok task
  else do
    let failedExecutions ← u16Add checks task.value.failedExecutions 1
    return task.derefMut { task.value with failedExecutions := failedExecutions }

/-- Put back what an error handler borrowed. -/
def putBack (s : Scheduler) (b : Borrowed) (scheduledJob : Option ScheduledJob)
    (needSchedule : Bool) : Except Fault Scheduler := do
  let workersQueue ← s.workersQueue.dropRefMut (Worker.cmpPriority checks) b.worker
  return { s with
    scheduledJob := scheduledJob
    tasksQueue := b.tasksQueue
    workersQueue := workersQueue
    needSchedule := needSchedule }

def processLibraryMissing (s : Scheduler) (workerId : WorkerId) (tasks : List TaskId)
    (replacements : List (TaskId × TaskId)) : Except Fault (Scheduler × List Sent) :=
  match s.scheduledJob, s.workersQueue.getMut workerId with
  | some job, some worker => do
    let worker := worker.derefMut { worker.value with hasJobData := false }
    let b ← tasks.foldlM (reportTask checks) ⟨worker, s.tasksQueue, job⟩
    let b ← replacements.foldlM (reportReplacement checks) b
    let s ← s.putBack checks b (some b.job) true
    return (s, [])
  | _, _ => .ok (s, [])

def processTaskExecutionError (s : Scheduler) (workerId : WorkerId) (taskId : TaskId)
    (error : String) : Except Fault (Scheduler × List Sent) :=
  match s.scheduledJob, s.workersQueue.getMut workerId with
  | some job, some worker => do
    let limit := s.config.failedExecutionsLimit
    let b ← report checks (countFailure checks limit) id ⟨worker, s.tasksQueue, job⟩ taskId
    if (s.tasksQueue.get taskId).any fun task => task.failedExecutions = limit then
      let s ← s.putBack checks b none true
      return (s, [.taskManager (.taskExecutionError error job.stats)])
    else
      let s ← s.putBack checks b (some b.job) true
      return (s, [])
  | _, _ => .ok (s, [])

/-- `subworkers -= n`, which wakes the scheduling branch, unless there are none. -/
def shrink (worker : RefMut Worker) (n : Nat) (needSchedule : Bool) :
    Except Fault (RefMut Worker × Bool) :=
  if worker.value.subworkers ≠ 0 then do
    let subworkers ← usizeSub checks worker.value.subworkers n
    return (worker.derefMut { worker.value with subworkers := subworkers }, true)
  else .ok (worker, needSchedule)

def processNoFreeExecutors (s : Scheduler) (workerId : WorkerId) (tasks : List TaskId) :
    Except Fault (Scheduler × List Sent) :=
  match s.scheduledJob, s.workersQueue.getMut workerId with
  | some job, some worker => do
    let (worker, needSchedule) ← shrink checks worker tasks.length s.needSchedule
    let b ← tasks.foldlM (reportTask checks) ⟨worker, s.tasksQueue, job⟩
    let s ← s.putBack checks b (some b.job) needSchedule
    return (s, [])
  | _, _ => .ok (s, [])

def processWorkers (s : Scheduler) : WorkerEvent → Except Fault (Scheduler × List Sent)
  | .connected workerInfo node => s.processConnected checks workerInfo node
  | .disconnected workerId => do
    let s ← s.processWorkerDisconnect checks workerId
    return (s, [])
  | .message workerId (.result result) => s.processResult checks workerId result
  | .message workerId (.error (.libraryMissing tasks replacements)) =>
    s.processLibraryMissing checks workerId tasks replacements
  | .message workerId (.error (.taskExecutionError taskId error)) =>
    s.processTaskExecutionError checks workerId taskId error
  | .message workerId (.error (.noFreeExecutors tasks)) =>
    s.processNoFreeExecutors checks workerId tasks

end Workers

section Managers
variable (checks : Bool)

def processNewJob (s : Scheduler) (id : Uuid) (totalTasks : Nat) (job : WorkerJobData) :
    Scheduler × List Sent :=
  ({ s.reset with
      scheduledJob := some
        { id := id, totalTasks := totalTasks, job := job, scheduledTasks := 0, receivedTasks := 0
          completedTasks := 0, failedTasks := 0, avgTaskCompletionTime := 0 } },
    if s.connectionManager.nodeManager then
      [.nodeManager (.workersDemand none job.platforms)]
    else [])

def queueTask (tasksQueue : PriorityQueue Task) (taskData : WorkerTask) :
    Except Fault (PriorityQueue Task) := do
  let (tasksQueue, _) ← tasksQueue.push Task.cmpPriority taskData.id
    { failedExecutions := 0, assignments := [], taskData := taskData }
  return tasksQueue

def processTaskBatch (s : Scheduler) (batch : List WorkerTask) : Except Fault (Scheduler × List Sent) :=
  match s.scheduledJob with
  | none => .ok (s, [])
  | some job => do
    let receivedTasks ← u128Add checks job.receivedTasks batch.length
    let tasksQueue ← batch.foldlM queueTask s.tasksQueue
    return ({ s with
      scheduledJob := some { job with receivedTasks := receivedTasks }
      tasksQueue := tasksQueue
      needSchedule := true }, [])

def processTaskManager (s : Scheduler) : TaskManagerEvent → Except Fault (Scheduler × List Sent)
  | .message .helloMessage => .ok (s, [])
  | .message (.newJob id totalTasks job) => .ok (s.processNewJob id totalTasks job)
  | .message (.task batch) => s.processTaskBatch checks batch
  | .disconnect =>
    match s.connectionManager.taskManager with
    | some _ =>
      .ok ({ s.reset with
          scheduledJob := none
          connectionManager := { s.reset.connectionManager with taskManager := none } },
        [.nodeManager .releaseDemand])
    | none => .ok (s, [])
  | .connected address =>
    .ok ({ s with connectionManager := { s.connectionManager with taskManager := some address } }, [])

/-- A node manager that has forgotten the session knows none of the workers: forget them too. -/
def processCreatedSession (s : Scheduler) : Except Fault (Scheduler × List Sent) :=
  if s.connectionManager.nodeManager then .ok (s, [])
  else
    let s := { s with
      workersQueue := s.workersQueue.clear
      connectionManager := { s.connectionManager with
        nodeManager := true, nodes := s.connectionManager.nodes.clear } }
    match s.scheduledJob with
    | none => .ok (s, [])
    | some job => do
      let tasksQueue ← s.tasksQueue.mapValues Task.cmpPriority
        fun task => { task with assignments := [] }
      return ({ s with
        scheduledJob := some { job with scheduledTasks := job.completedTasks }
        tasksQueue := tasksQueue }, [.nodeManager (.workersDemand none job.job.platforms)])

def processNodeManager (s : Scheduler) : NodeManagerEvent → Except Fault (Scheduler × List Sent)
  | .message (.connect workers) => .ok (s, workers.map .connectNode)
  | .message (.disconnect workerId) => do
    let s ← s.processWorkerDisconnect checks workerId
    return (s, [])
  | .message .restoredSession =>
    .ok ({ s with connectionManager := { s.connectionManager with nodeManager := true } }, [])
  | .message .createdSession => s.processCreatedSession
  | .disconnected =>
    .ok ({ s with connectionManager := { s.connectionManager with nodeManager := false } },
      [.connectNodeManager s.config.nodeManagerAddress])
  | .connected => .ok (s, [])
  | .connectionNotEstablished => .error .stopped

def processCommand (s : Scheduler) : Command → Except Fault (Scheduler × List Sent)
  | .scheduledJob => .ok (s, [.scheduledJob (s.scheduledJob.map ScheduledJob.toJson)])
  | .workers limit => do
    let workers ← s.workersQueue.firstValues limit
    return (s, [.workers workers])
  | .tasks limit => do
    let tasks ← s.tasksQueue.firstValues limit
    return (s, [.tasks tasks])

/-- One turn of the main loop. The scheduling branch is ready only while `need_schedule` is set. -/
def step (s : Scheduler) : Event → Except Fault (Scheduler × List Sent)
  | .taskManager event => s.processTaskManager checks event
  | .nodeManager event => s.processNodeManager checks event
  | .worker event => s.processWorkers checks event
  | .command command => s.processCommand command
  | .schedule => if s.needSchedule then s.processScheduling checks else .error .notReady

end Managers
end Scheduler
end GridServer
