import GridServer.Shared.Fault
import GridServer.Shared.Messages

namespace GridServer.Jobs

/-- What a job comes to: an output of the manager's kind of job, or an error. -/
inductive JobResult (Output : Type) where
  | completed (output : Output) (stats : Option JobStats)
  | error (errorMessage : String) (stats : Option JobStats)
deriving DecidableEq, Repr

inductive JobState (Work Output : Type) where
  | notStarted
  | started (work : Work)
  | finished (result : JobResult Output)
deriving DecidableEq, Repr

structure Job (Data Work Output : Type) where
  id : Uuid
  data : Data
  state : JobState Work Output
deriving DecidableEq, Repr

inductive JsonJobPhase where
  | splitting | waitingTasksCompletion | reducing
deriving DecidableEq, Repr

inductive JsonJobState (Output : Type) where
  | notStarted
  | started (incompleteTasks : Nat) (phase : JsonJobPhase)
  | completed (result : JobResult Output)
deriving DecidableEq, Repr

/-- A job as the API reports it. -/
structure JsonJob (Data Output : Type) where
  id : Uuid
  data : Data
  state : JsonJobState Output
deriving DecidableEq, Repr

structure SchedulerConnection where
  ready : Bool
deriving DecidableEq, Repr

/-- A task manager. The two that there are differ in their jobs only. -/
structure State (Data Work Output : Type) where
  scheduler : SchedulerConnection
  jobsFinished : List (Job Data Work Output)
  jobsQueue : List (Job Data Work Output)
  currentJob : Option (Job Data Work Output)
  needProcessJob : Bool

/-- `TaskManager::new`. -/
def State.new {Data Work Output : Type} : State Data Work Output :=
  { jobsQueue := []
    jobsFinished := []
    scheduler := ⟨false⟩
    currentJob := none
    needProcessJob := false }

inductive SchedulerEvent where
  | connected
  | disconnected
  | message (response : SchedulerResponse)
  | connectionNotEstablished
deriving DecidableEq, Repr

/-- A command of the API. A new job comes with the id that is drawn for it. -/
inductive Command (Data : Type) where
  | addJob (data : Data) (id : Uuid)
  | cancelJob (uuid : Uuid)
  | finishedJobs
  | queuedJobs
  | currentJob
deriving DecidableEq, Repr

/-- A turn of the main loop. -/
inductive Event (Data : Type) where
  | scheduler (event : SchedulerEvent)
  | command (command : Command Data)
  | processJob
deriving DecidableEq, Repr

/-- What a turn puts out: requests to the scheduler, a new connection to it, and answers to
commands. -/
inductive Sent (Data Output : Type) where
  | request (request : SchedulerRequest)
  | reconnected
  | id (id : Uuid)
  | job (job : Option (JsonJob Data Output))
  | jobs (jobs : List (JsonJob Data Output))
deriving DecidableEq, Repr

/-- What a handler makes the main loop do next. -/
inductive Flow (Output : Type) where
  | continue
  /-- `Break(Ok(result))`. -/
  | finish (result : JobResult Output)
  /-- `Break(Err(_))`. -/
  | stop
deriving DecidableEq, Repr

/-- What a handler leaves behind. -/
abbrev Turn (Data Work Output : Type) := State Data Work Output × List (Sent Data Output) × Flow Output

/-- At most the state of the job is another, and nothing of the other jobs. -/
def OnlyJob {Data Work Output : Type} (s : State Data Work Output) (job : Job Data Work Output)
    (t : State Data Work Output) : Prop :=
  t.jobsQueue = s.jobsQueue ∧ t.jobsFinished = s.jobsFinished ∧
    (t.currentJob = s.currentJob ∨ ∃ state, t.currentJob = some { job with state := state })

/-- How a task manager works on the job that it has started or is about to start. -/
structure Engine (Data Work Output : Type) where
  processCurrent : State Data Work Output → Job Data Work Output →
    Except Fault (Turn Data Work Output)
  /-- Take results from the scheduler, and the job's statistics if they come with them. -/
  receive : Work → Option JobStats → List WorkerResult → Except Fault (Work × Flow Output)
  stats : Work → Option JobStats
  /-- The number of tasks that are not completed. -/
  incompleteTasks : Work → Nat
  phase : Work → JsonJobPhase
  onlyJob : ∀ s job turn, processCurrent s job = .ok turn → OnlyJob s job turn.1

end GridServer.Jobs
