import GridServer.Shared.Buffer
import GridServer.Shared.Messages
import GridServer.Shared.PriorityQueue

namespace GridServer

structure Worker where
  id : WorkerId
  subworkers : Nat
  platform : Platform
  hasJobData : Bool
  address : SocketAddr
  replacements : List TaskId
  assignments : List TaskId
deriving DecidableEq, Repr

namespace Worker

def priority (checks : Bool) (w : Worker) : Except Fault Nat :=
  usizeSub checks w.subworkers w.assignments.length

def canAccept (checks : Bool) (w : Worker) : Except Fault Nat :=
  usizeSub checks w.subworkers (w.assignments.length + w.replacements.length)

def needReplace (w : Worker) : Nat := w.replacements.length

/-- `Max::cmp_priority`, by `PartialOrd for Worker`: the priorities decide, then whether the job
data is there. -/
def cmpPriority (checks : Bool) (lower larger : Worker) : Except Fault Bool := do
  let a ← lower.priority checks
  let b ← larger.priority checks
  return if a = b then !lower.hasJobData && larger.hasJobData else a < b

end Worker

structure Task where
  taskData : WorkerTask
  failedExecutions : Nat
  assignments : List WorkerId
deriving DecidableEq, Repr

namespace Task

def priority (t : Task) : Nat := t.assignments.length

def hasAssignments (t : Task) : Bool := !t.assignments.isEmpty

/-- `Min::cmp_priority`, by `PartialOrd for Task`. -/
def cmpPriority (lower larger : Task) : Except Fault Bool := .ok (larger.priority < lower.priority)

end Task

structure ScheduledJob where
  totalTasks : Nat
  scheduledTasks : Nat
  receivedTasks : Nat
  completedTasks : Nat
  failedTasks : Nat
  avgTaskCompletionTime : Duration
  job : WorkerJobData
  id : Uuid
deriving DecidableEq, Repr

def ScheduledJob.stats (job : ScheduledJob) : JobStats :=
  { totalTasks := job.totalTasks
    completedTasks := job.completedTasks
    failedTasks := job.failedTasks
    avgTaskCompletionTime := job.avgTaskCompletionTime }

/-- The sending half of a connection to a node, known by the connection it writes to. -/
structure Node where
  connection : Nat
deriving DecidableEq, Repr

/-- The scheduler's side of its connections: who holds the task manager's slot, whether the node
manager has confirmed a session, and the connected nodes. -/
structure ConnectionManager where
  taskManager : Option SocketAddr
  nodeManager : Bool
  nodes : VecMap Node
deriving DecidableEq, Repr

structure Config where
  failedExecutionsLimit : Nat
  nodeManagerAddress : SocketAddr
deriving DecidableEq, Repr

structure Scheduler where
  scheduledJob : Option ScheduledJob
  connectionManager : ConnectionManager
  tasksQueue : PriorityQueue Task
  workersQueue : PriorityQueue Worker
  resultsBuffer : Buffer WorkerResult 200
  needSchedule : Bool
  config : Config

/-- What `Command::ScheduledJob` returns; the average time is formatted by the caller. -/
structure JsonScheduledJob where
  failedTasks : Nat
  avgTaskCompletionTime : Duration
  receivedTasks : Nat
  totalTasks : Nat
  scheduledTasks : Nat
  completedTasks : Nat
  jobPlatforms : List Platform
  id : Uuid
deriving DecidableEq, Repr

def ScheduledJob.toJson (job : ScheduledJob) : JsonScheduledJob :=
  { failedTasks := job.failedTasks
    avgTaskCompletionTime := job.avgTaskCompletionTime
    receivedTasks := job.receivedTasks
    totalTasks := job.totalTasks
    scheduledTasks := job.scheduledTasks
    completedTasks := job.completedTasks
    jobPlatforms := job.job.platforms
    id := job.id }

/-- What a step of the scheduler puts out. -/
inductive Sent where
  | taskManager (response : SchedulerResponse)
  | nodeManager (request : NodeManagerRequest)
  | node (node : Node) (workerId : WorkerId) (request : WorkerRequest)
  | connectNode (worker : WorkerInfo)
  | connectNodeManager (address : SocketAddr)
  | scheduledJob (job : Option JsonScheduledJob)
  | workers (workers : List Worker)
  | tasks (tasks : List Task)
deriving DecidableEq, Repr

inductive Command where
  | scheduledJob
  | workers (limit : Nat)
  | tasks (limit : Nat)
deriving DecidableEq, Repr

inductive TaskManagerEvent where
  | connected (address : SocketAddr)
  | disconnect
  | message (request : SchedulerRequest)
deriving DecidableEq, Repr

inductive NodeManagerEvent where
  | connected
  | connectionNotEstablished
  | disconnected
  | message (response : NodeManagerResponse)
deriving DecidableEq, Repr

inductive WorkerEvent where
  | connected (workerInfo : WorkerInfo) (node : Node)
  | disconnected (workerId : WorkerId)
  | message (workerId : WorkerId) (response : WorkerResponse)
deriving DecidableEq, Repr

/-- A turn of the scheduler's main loop. -/
inductive Event where
  | taskManager (event : TaskManagerEvent)
  | nodeManager (event : NodeManagerEvent)
  | worker (event : WorkerEvent)
  | command (command : Command)
  | schedule
deriving DecidableEq, Repr

/-- `Scheduler::new`: nothing is connected and nothing is queued. -/
def Scheduler.new (config : Config) : Scheduler :=
  { scheduledJob := none
    connectionManager := { taskManager := none, nodeManager := false, nodes := VecMap.new }
    tasksQueue := PriorityQueue.new
    workersQueue := PriorityQueue.new
    resultsBuffer := Buffer.new
    needSchedule := false
    config := config }

end GridServer
