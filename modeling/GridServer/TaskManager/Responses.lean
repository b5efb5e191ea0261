import GridServer.Jobs.Current
import GridServer.TaskManager.Attempt

namespace GridServer.TaskManager
open Jobs Library

/-- The results that a response brings. -/
def answers : SchedulerResponse → List WorkerResult
  | .taskResults batch => batch
  | .jobComplete batch _ => batch
  | _ => []

/-- The response is about the scheduler itself and not about a job. -/
def General : SchedulerResponse → Bool
  | .schedulerBusy => true
  | .schedulerFree => true
  | _ => false

/-- A task manager and what its connection to the scheduler carries. The responses carry no job id;
here they stand beside the job that the scheduler has produced them for. -/
structure System where
  manager : State
  /-- The jobs that the scheduler has been given. -/
  submitted : List Uuid
  inFlight : List (Option Uuid × SchedulerResponse)

namespace System

def new : System := ⟨.new, [], []⟩

inductive Event where
  /-- A turn of the task manager on anything but a response. -/
  | turns (event : TaskManager.Event)
  /-- The scheduler sends a response. -/
  | responds (source : Option Uuid) (response : SchedulerResponse)
  /-- The task manager takes the next response. -/
  | delivers
deriving DecidableEq, Repr

/-- The scheduler produces responses for jobs that it has been given. -/
def MayRespond (s : System) (source : Option Uuid) (response : SchedulerResponse) : Prop :=
  match source with
  | none => General response = true
  | some id => General response = false ∧ id ∈ s.submitted

instance (s : System) (source : Option Uuid) (response : SchedulerResponse) :
    Decidable (s.MayRespond source response) := by
  cases source with
  | none => exact inferInstanceAs (Decidable (General response = true))
  | some id => exact inferInstanceAs (Decidable (General response = false ∧ id ∈ s.submitted))

def submits? : Sent → Option Uuid
  | .request (.newJob id _ _) => some id
  | _ => none

variable (checks : Bool) (externals : Externals)

/-- A new connection has nothing in flight. -/
def step (s : System) : Event → Except Fault (System × List Sent)
  | .turns (.scheduler (.message _)) => .error .notReady
  | .turns event => do
    let (manager, out) ← s.manager.step (engine checks externals) event
    return ({ manager := manager
              submitted := s.submitted ++ out.filterMap submits?
              inFlight := if event = .scheduler .disconnected then [] else s.inFlight }, out)
  | .responds source response =>
    if s.MayRespond source response then
      .ok ({ s with inFlight := s.inFlight ++ [(source, response)] }, [])
    else .error .notReady
  | .delivers =>
    match s.inFlight with
    | [] => .error .notReady
    | (_, response) :: later => do
      let (manager, out) ← s.manager.step (engine checks externals)
        (.scheduler (.message response))
      return ({ s with manager := manager, inFlight := later }, out)

/-- The job has no use for the response: it has not been started, or misses none of the tasks up to
the first result that cannot be decoded. -/
def Useless (job : Job) : SchedulerResponse → Prop
  | .taskResults batch =>
    match job.state with
    | .started work => ∀ result ∈ batch.takeWhile fun result =>
        (externals.decodeTaskResult result.data).isOk, work.tasks.inner.bit result.id = false
    | _ => True
  | .jobComplete _ _ =>
    match job.state with
    | .started _ => False
    | _ => True
  | .taskExecutionError _ _ => False
  | _ => True

/-- The response that is taken was produced for the current job, or that has no use for it. -/
def Meets (s : System) : Event → Prop
  | .delivers => ∀ delivery ∈ s.inFlight.head?, ∀ job ∈ s.manager.currentJob,
      delivery.1 = some job.id ∨ Useless externals job delivery.2
  | _ => True

instance (job : Job) : ∀ response, Decidable (Useless externals job response)
  | .taskResults batch =>
    match hs : job.state with
    | .notStarted => .isTrue (by simp only [Useless, hs])
    | .started work => decidable_of_iff (∀ result ∈ batch.takeWhile fun result : WorkerResult =>
        (externals.decodeTaskResult result.data).isOk, work.tasks.inner.bit result.id = false)
        (by simp only [Useless, hs])
    | .finished _ => .isTrue (by simp only [Useless, hs])
  | .jobComplete _ _ =>
    match hs : job.state with
    | .notStarted => .isTrue (by simp only [Useless, hs])
    | .started _ => .isFalse (by simp only [Useless, hs, not_false_eq_true])
    | .finished _ => .isTrue (by simp only [Useless, hs])
  | .taskExecutionError _ _ => .isFalse id
  | .schedulerBusy => .isTrue trivial
  | .schedulerFree => .isTrue trivial

instance (s : System) : ∀ e, Decidable (s.Meets externals e)
  | .delivers => decidable_of_iff (∀ delivery ∈ s.inFlight.head?, ∀ job ∈ s.manager.currentJob,
      delivery.1 = some job.id ∨ Useless externals job delivery.2) .rfl
  | .turns _ => .isTrue trivial
  | .responds _ _ => .isTrue trivial

end System

/-- What has come to pass with the responses: which were taken, the tasks that the current job has
sent since it was started, and the jobs that a failed task has ended, with the job for which that
response was produced. -/
structure Trace where
  delivered : List (Option Uuid × SchedulerResponse)
  emitted : List TaskId
  ended : List (Uuid × Option Uuid)

namespace Trace

def none : Trace := ⟨[], [], []⟩

def emit (ids : List TaskId) : Sent → List TaskId
  | .request (.newJob _ _ _) => []
  | .request (.task tasks) => ids ++ tasks.map WorkerTask.id
  | _ => ids

def fails : SchedulerResponse → Bool
  | .taskExecutionError _ _ => true
  | _ => false

def note (g : Trace) (s : System) (e : System.Event) (out : List Sent) : Trace :=
  match e, s.inFlight with
  | .turns .processJob, _ => { g with emitted := out.foldl emit g.emitted }
  | .delivers, (source, response) :: _ =>
    { g with
      delivered := g.delivered ++ [(source, response)]
      ended := g.ended ++ if fails response then
        (s.manager.currentJob.map fun job => (job.id, source)).toList else [] }
  | _, _ => g

end Trace

/-- Where the distances of a job are. -/
def Started.tables (work : Started) : List (MultilevelVecMap Distance) :=
  match work.phase with
  | .reducing reducer _ => reducer.completedParts
  | _ => work.parts

/-- A result among these has been decoded to the distance for the taxi and the set's key. -/
def Stored (externals : Externals) (results : List WorkerResult) (taxi set : Nat)
    (distance : Distance) : Prop :=
  ∃ result ∈ results, ∃ found, externals.decodeTaskResult result.data = .ok found ∧
    found.taxi = taxi ∧ ∃ combination ∈ [found.result.1, found.result.2],
      split combination.1 = split set ∧ combination.2 = distance

/-- What a job has comes from responses that were produced for this job. -/
structure Owned (externals : Externals) (g : Trace) (id : Uuid) (work : Started) : Prop where
  values : ∀ taxi set distance, entry work.tables taxi set = some distance →
    ∃ response, (some id, response) ∈ g.delivered ∧
      Stored externals (answers response) taxi set distance
  removed : ∀ task ∈ g.emitted, work.tasks.inner.bit task = false →
    ∃ response, (some id, response) ∈ g.delivered ∧ ∃ result ∈ answers response, result.id = task
  stats : ∀ stats, work.stats = some stats →
    ∃ left, (some id, SchedulerResponse.jobComplete left stats) ∈ g.delivered

/-- No job is mixed up with another. -/
structure Unmixed (externals : Externals) (g : Trace) (s : State) : Prop where
  current : ∀ job work, s.currentJob = some job → job.state = .started work →
    Owned externals g job.id work
  ended : ∀ job source, (job, source) ∈ g.ended → source = some job

end GridServer.TaskManager
