import GridServer.NodeWorker.Orders

namespace GridServer.NodeWorker
open Library

/-! The executors of a `DllWorker`, each a process at its end of a socket. -/

/-- What the system's loader makes of the bytes of a library, and what the function in it can
return on the arguments of a job and the data of a task. -/
structure Loader where
  opens : List UInt8 → Bool
  exports : List UInt8 → Bool
  Returns : List UInt8 → List UInt8 → List UInt8 → Except String (List UInt8) → Prop

/-- How a call ends that does. -/
inductive Call where
  | returned (result : Except String (List UInt8))
  | panicked
deriving DecidableEq, Repr

/-- An executor with the jobs that it has not read and the results that were not read from it. -/
structure Executor where
  jobs : List ExecutorJob
  results : List ExecutorResult
  lruCache : LruCache Uuid (List UInt8)

namespace Executor

def new : Executor := ⟨[], [], LruCache.new 5 (by decide)⟩

section
variable (loader : Loader) (files : Files)

def getLibrary (x : Executor) (uuid : Uuid) : Executor × Except String (List UInt8) :=
  match x.lruCache.get uuid with
  | (lruCache, some library) => ({ x with lruCache := lruCache }, .ok library)
  | (_, none) =>
    match files.lookup uuid with
    | some library =>
      if loader.opens library then
        ({ x with lruCache := (x.lruCache.push uuid library).1 }, .ok library)
      else (x, .error "Unable to open library")
    | none => (x, .error "Unable to open library")

def getFunc (x : Executor) (uuid : Uuid) : Executor × Except String (List UInt8) :=
  match x.getLibrary loader files uuid with
  | (x, .ok library) =>
    (x, if loader.exports library then .ok library
      else .error "Unable to find executor function")
  | (x, .error error) => (x, .error error)

/-- A round of `start`, whose call ends as it is said. -/
def execute (x : Executor) (call : Call) (executionTime : Duration) : Except Fault Executor :=
  match x.jobs with
  | [] => .error .notReady
  | job :: jobs =>
    let (x, func) := x.getFunc loader files job.jobId
    let result :=
      match func, call with
      | .error error, _ => .error error
      | .ok _, .panicked => .error "Failed to execute function"
      | .ok _, .returned result => result
    .ok { x with
      jobs := jobs
      results := x.results ++ [{ jobId := job.jobId, taskId := job.taskId
                                 executionTime := executionTime, result := result }] }

end

end Executor

/-- What holds of each of the executors. -/
def Each {X : Type} (P : X → Prop) (executors : AList fun _ : ExecutorId => X) : Prop :=
  ∀ id x, executors.lookup id = some x → P x

namespace Each
variable {X : Type} {P Q : X → Prop} {executors : AList fun _ : ExecutorId => X}

theorem empty : Each P ∅ := by
  intro id x hlookup
  cases hlookup

theorem insert (h : Each P executors) {x : X} (hx : P x) (id : ExecutorId) :
    Each P (executors.insert id x) := by
  intro id' x' hlookup
  by_cases he : id' = id
  · subst he
    rw [AList.lookup_insert, Option.some.injEq] at hlookup
    exact hlookup ▸ hx
  · rw [AList.lookup_insert_ne he] at hlookup
    exact h id' x' hlookup

theorem erase (h : Each P executors) (id : ExecutorId) : Each P (executors.erase id) := by
  intro id' x' hlookup
  by_cases he : id' = id
  · subst he
    rw [AList.lookup_erase] at hlookup
    cases hlookup
  · rw [AList.lookup_erase_ne he] at hlookup
    exact h id' x' hlookup

theorem imp (h : Each P executors) (hpq : ∀ x, P x → Q x) : Each Q executors :=
  fun id x hlookup => hpq x (h id x hlookup)

/-- Executors that are started one after another. -/
theorem start {new : X} (hnew : P new) (h : Each P executors) (ids : List ExecutorId) :
    Each P (ids.foldl (fun executors id => executors.insert id new) executors) := by
  induction ids generalizing executors with
  | nil => exact h
  | cons id ids ih => exact ih (h.insert hnew id)

end Each

/-- The processes that run. -/
abbrev Executors := AList fun _ : ExecutorId => Executor

/-- What a turn of the worker does to the processes. `start_job` expects that there is one to take
the job. -/
def Executors.after (executors : Executors) : List Sent → Except Fault Executors
  | [] => .ok executors
  | .startExecutor id :: out => after (executors.insert id .new) out
  | .stopExecutor id :: out => after (executors.erase id) out
  | .startJob id job :: out =>
    match executors.lookup id with
    | some x => after (executors.insert id { x with jobs := x.jobs ++ [job] }) out
    | none => .error .panicked
  | _ :: out => after executors out

/-- A worker in its directory, with the processes of its executors. -/
structure DllCrew where
  site : DllSite
  executors : Executors

/-- The turns of the worker and of the executors. A process that exits leaves nothing to read, and
the worker may be told that it has terminated. -/
inductive CrewEvent where
  | request (request : WorkerRequest) (processIds : List ExecutorId)
  | reset (drained : List Key) (processIds : List ExecutorId)
  | result (executorId : ExecutorId)
  | terminated (executorId : ExecutorId) (error : String) (processIds : List ExecutorId)
    (keys : List Key)
  | executes (executorId : ExecutorId) (call : Call) (executionTime : Duration)
  | exits (executorId : ExecutorId)
deriving DecidableEq, Repr

namespace DllCrew

/-- `DllWorker::new`, in a directory where files may be left. -/
def new (processIds : List ExecutorId) (left : Files) : DllCrew :=
  ⟨⟨.new processIds, left⟩, processIds.foldl (fun executors id => executors.insert id .new) ∅⟩

def serve (s : DllCrew) (executors : Executors) (e : DllEvent) :
    Except Fault (DllCrew × List Sent) := do
  let (site, out) ← s.site.step e
  let executors ← executors.after out
  return (⟨site, executors⟩, out)

def step (loader : Loader) (s : DllCrew) : CrewEvent → Except Fault (DllCrew × List Sent)
  | .request request processIds => s.serve s.executors (.request request processIds)
  | .reset drained processIds => s.serve s.executors (.reset drained processIds)
  | .result id =>
    match s.executors.lookup id with
    | none => .error .notReady
    | some x =>
      match x.results with
      | [] => .error .notReady
      | result :: results =>
        s.serve (s.executors.insert id { x with results := results })
          (.message id (.result result) [] s.site.worker.assignments.keys)
  | .terminated id error processIds keys =>
    if id ∈ s.executors then .error .notReady
    else s.serve s.executors (.message id (.terminated error) processIds keys)
  | .executes id call executionTime =>
    match s.executors.lookup id with
    | none => .error .notReady
    | some x => do
      let x ← x.execute loader s.site.files call executionTime
      return ({ s with executors := s.executors.insert id x }, [])
  | .exits id =>
    if id ∈ s.executors then .ok ({ s with executors := s.executors.erase id }, [])
    else .error .notReady

/-- A call that is made returns what it can. -/
def Meets (loader : Loader) (s : DllCrew) : CrewEvent → Prop
  | .executes id (.returned result) _ => ∀ x ∈ s.executors.lookup id, ∀ job ∈ x.jobs.head?,
    ∀ library ∈ (x.getFunc loader s.site.files job.jobId).2.toOption,
      loader.Returns library job.jobData job.taskData result
  | _ => True

instance (loader : Loader) [∀ library args data result,
    Decidable (loader.Returns library args data result)] (s : DllCrew) :
    ∀ e, Decidable (s.Meets loader e)
  | .executes id (.returned result) _ => inferInstanceAs (Decidable (∀ x ∈ s.executors.lookup id,
    ∀ job ∈ x.jobs.head?, ∀ library ∈ (x.getFunc loader s.site.files job.jobId).2.toOption,
      loader.Returns library job.jobData job.taskData result))
  | .executes _ .panicked _ | .request .. | .reset .. | .result _ | .terminated .. | .exits _ =>
    .isTrue trivial

end DllCrew

def CrewEvent.request? : CrewEvent → Option WorkerRequest
  | .request given _ => some given
  | _ => none

/-- The requests that the worker has been given. -/
def requested (es : List CrewEvent) : List WorkerRequest := es.filterMap CrewEvent.request?

end GridServer.NodeWorker
