import GridServer.Jobs.State
import GridServer.Library.Run

namespace GridServer.Jobs
open Library

variable {Data Work Output : Type} (engine : Engine Data Work Output)

def JobState.json : JobState Work Output → JsonJobState Output
  | notStarted => .notStarted
  | started work => .started (engine.incompleteTasks work) (engine.phase work)
  | finished result => .completed result

def Job.json (job : Job Data Work Output) : JsonJob Data Output :=
  ⟨job.id, job.data, job.state.json engine⟩

/-- A job that still waits for results starts over. -/
def Job.restart (job : Job Data Work Output) : Job Data Work Output :=
  match job.state with
  | .started work =>
    match engine.phase work with
    | .splitting => { job with state := .notStarted }
    | .waitingTasksCompletion => { job with state := .notStarted }
    | .reducing => job
  | _ => job

theorem Job.restart_cases (job : Job Data Work Output) :
    job.restart engine = { job with state := .notStarted } ∨ job.restart engine = job := by
  unfold Job.restart
  split
  · split
    · exact .inl rfl
    · exact .inl rfl
    · exact .inr rfl
  · exact .inr rfl

namespace State

def processJob (s : State Data Work Output) : Except Fault (Turn Data Work Output) :=
  match s.currentJob with
  | some job => engine.processCurrent s job
  | none =>
    match s.jobsQueue with
    | [] => .ok ({ s with needProcessJob := false }, [], .continue)
    | job :: jobs =>
      .ok ({ s with jobsQueue := jobs, currentJob := some job, needProcessJob := true }, [],
        .continue)

/-- Hand what the scheduler sends to the current job, if it has been started. -/
def receive (s : State Data Work Output) (stats : Option JobStats) (results : List WorkerResult) :
    Except Fault (Turn Data Work Output) :=
  match s.currentJob with
  | none => .ok (s, [], .continue)
  | some job =>
    match job.state with
    | .started work => do
      let (work, flow) ← engine.receive work stats results
      return ({ s with currentJob := some { job with state := .started work } }, [], flow)
    | _ => .ok (s, [], .continue)

def processScheduler (s : State Data Work Output) :
    SchedulerEvent → Except Fault (Turn Data Work Output)
  | .message (.jobComplete left jobStats) => s.receive engine (some jobStats) left
  | .connected => .ok (s, [], .continue)
  | .disconnected =>
    .ok ({ s with
      scheduler := ⟨false⟩
      currentJob := s.currentJob.map (Job.restart engine) }, [.reconnected], .continue)
  | .message (.taskResults results) => s.receive engine none results
  | .message .schedulerBusy =>
    .ok ({ s with
      scheduler := ⟨false⟩
      currentJob := s.currentJob.map (Job.restart engine) }, [], .continue)
  | .message .schedulerFree =>
    .ok ({ s with scheduler := ⟨true⟩, needProcessJob := true }, [], .continue)
  | .message (.taskExecutionError error stats) => .ok (s, [], .finish (.error error (some stats)))
  | .connectionNotEstablished => .ok (s, [], .stop)

def processCommand (s : State Data Work Output) : Command Data → Turn Data Work Output
  | .addJob data id =>
    ({ s with
      jobsQueue := s.jobsQueue ++ [{ id := id, data := data, state := .notStarted }]
      needProcessJob := true }, [.id id], .continue)
  | .cancelJob uuid =>
    match s.currentJob.filter fun job => job.id = uuid with
    | some job =>
      let stats := match job.state with
        | .started work => engine.stats work
        | _ => none
      (s, [.job (some (job.json engine))], .finish (.error "Job has been cancelled" stats))
    | none =>
      match s.jobsQueue.findIdx? fun job => job.id = uuid with
      | some pos => ({ s with jobsQueue := s.jobsQueue.eraseIdx pos },
          [.job (s.jobsQueue[pos]?.map (Job.json engine))], .continue)
      | none => (s, [.job none], .continue)
  | .finishedJobs => (s, [.jobs (s.jobsFinished.map (Job.json engine))], .continue)
  | .queuedJobs => (s, [.jobs (s.jobsFinished.map (Job.json engine))], .continue)
  | .currentJob => (s, [.job (s.currentJob.map (Job.json engine))], .continue)

/-- The current job is finished with the result. -/
def finish (s : State Data Work Output) (result : JobResult Output) : State Data Work Output :=
  match s.currentJob with
  | none => s
  | some job => { s with
      currentJob := none
      jobsFinished := s.jobsFinished ++ [{ job with state := .finished result }] }

/-- What the main loop does after a handler. -/
def follow : Turn Data Work Output → Except Fault (State Data Work Output × List (Sent Data Output))
  | (s, out, .continue) => .ok (s, out)
  | (s, out, .finish result) => .ok (s.finish result, out)
  | (_, _, .stop) => .error .stopped

/-- One turn of the main loop. The last branch is ready while a job is to be processed. -/
def step (s : State Data Work Output) :
    Event Data → Except Fault (State Data Work Output × List (Sent Data Output))
  | .scheduler event => do follow (← s.processScheduler engine event)
  | .command command => follow (s.processCommand engine command)
  | .processJob => do
    if s.needProcessJob then follow (← s.processJob engine)
    else .error .notReady

end State
end GridServer.Jobs
