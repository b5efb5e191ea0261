import GridServer.NodeWorker.Executors

namespace GridServer.NodeWorker
open Library

/-! The executors of a `WasmWorker`, each a thread, and the modules that they share. -/

/-- What the engine of WebAssembly makes of the bytes of a module, and what its function can return
on the arguments of a job and the data of a task. -/
structure Engine where
  Component : Type
  new : List UInt8 → Except String Component
  serialize : Component → Except String (List UInt8)
  deserialize : List UInt8 → Except String Component
  Returns : Component → List UInt8 → List UInt8 → Except String (List UInt8) → Prop

/-- What is deserialized is the component that was serialized. -/
def Engine.Lawful (engine : Engine) : Prop :=
  ∀ component bytes, engine.serialize component = .ok bytes →
    engine.deserialize bytes = .ok component

/-- An executor with the jobs that it has not taken, the results that were not read from it, whether
it is to be interrupted, and whether its thread still runs. -/
structure WasmExecutor where
  jobs : List ExecutorJob
  results : List ExecutorResult
  interrupted : Bool
  running : Bool
deriving DecidableEq, Repr

def WasmExecutor.new : WasmExecutor := ⟨[], [], false, true⟩

/-- The component of a job, whose module is compiled when nobody has done so yet. A thread unwraps
the module, and ends where there is none. -/
def WasmWorker.component (engine : Engine) (s : WasmWorker) (job : Uuid) :
    Option (WasmWorker × Except String engine.Component) :=
  match s.jobCache.peek job with
  | none => none
  | some (.compiled bytes) => some (s, engine.deserialize bytes)
  | some (.source bytes) =>
    match engine.new bytes with
    | .error error => some (s, .error error)
    | .ok component =>
      match engine.serialize component with
      | .error error => some (s, .error error)
      | .ok precompiled => some (s.compile job precompiled, .ok component)

abbrev WasmExecutors := AList fun _ : ExecutorId => WasmExecutor

/-- What a turn of the worker does to the threads. `start_job` expects that there is one to take the
job. -/
def WasmExecutors.after (executors : WasmExecutors) : List Sent → Except Fault WasmExecutors
  | [] => .ok executors
  | .abort id :: out =>
    match executors.lookup id with
    | some x => after (executors.insert id { x with interrupted := true }) out
    | none => after executors out
  | .startJob id job :: out =>
    match executors.lookup id with
    | some x =>
      if x.running then after (executors.insert id { x with jobs := x.jobs ++ [job] }) out
      else .error .panicked
    | none => .error .panicked
  | _ :: out => after executors out

/-- A worker with the threads of its executors. -/
structure WasmCrew where
  worker : WasmWorker
  executors : WasmExecutors

namespace WasmCrew

/-- The turns of the worker and of the executors. An interruption finds its thread at work on a job,
which is given up, or waiting for one. -/
inductive Event where
  | request (request : WorkerRequest)
  | reset (drained : List Key)
  | result (executorId : ExecutorId)
  | executes (executorId : ExecutorId) (result : Except String (List UInt8))
    (executionTime : Duration)
  | interrupted (executorId : ExecutorId) (working : Bool)
deriving DecidableEq, Repr

/-- `WasmWorker::new`. -/
def new (executorsNum : Nat) : WasmCrew :=
  ⟨.new executorsNum,
    (List.range executorsNum).foldl (fun executors id => executors.insert id .new) ∅⟩

def serve (s : WasmCrew) (executors : WasmExecutors) (e : WasmEvent) :
    Except Fault (WasmCrew × List Sent) := do
  let (worker, out) ← s.worker.step e
  let executors ← executors.after out
  return (⟨worker, executors⟩, out)

def step (engine : Engine) (s : WasmCrew) : Event → Except Fault (WasmCrew × List Sent)
  | .request request => s.serve s.executors (.request request)
  | .reset drained => s.serve s.executors (.reset drained)
  | .result id =>
    match s.executors.lookup id with
    | none => .error .notReady
    | some x =>
      match x.results with
      | [] => .error .notReady
      | result :: results =>
        s.serve (s.executors.insert id { x with results := results }) (.message id result)
  | .executes id result executionTime =>
    match s.executors.lookup id with
    | none => .error .notReady
    | some x =>
      match x.jobs with
      | [] => .error .notReady
      | job :: jobs =>
        match s.worker.component engine job.jobId with
        | none => .ok ({ s with executors := s.executors.insert id { x with
            jobs := [], running := false } }, [])
        | some (worker, component) =>
          let result :=
            match component with
            | .error error => .error error
            | .ok _ => result
          .ok (⟨worker, s.executors.insert id { x with
            jobs := jobs
            results := x.results ++ [{ jobId := job.jobId, taskId := job.taskId
                                       executionTime := executionTime, result := result }] }⟩, [])
  | .interrupted id working =>
    match s.executors.lookup id with
    | none => .error .notReady
    | some x =>
      if x.interrupted then .ok ({ s with executors := s.executors.insert id { x with
        jobs := if working then x.jobs.tail else x.jobs
        interrupted := false } }, [])
      else .error .notReady

/-- A call that is made returns what it can. -/
def Meets (engine : Engine) (s : WasmCrew) : Event → Prop
  | .executes id result _ => ∀ x ∈ s.executors.lookup id, ∀ job ∈ x.jobs.head?,
    ∀ r ∈ s.worker.component engine job.jobId, ∀ component ∈ r.2.toOption,
      engine.Returns component job.jobData job.taskData result
  | _ => True

instance (engine : Engine) [∀ component args data result,
    Decidable (engine.Returns component args data result)] (s : WasmCrew) :
    ∀ e, Decidable (s.Meets engine e)
  | .executes id result _ => inferInstanceAs (Decidable (∀ x ∈ s.executors.lookup id,
    ∀ job ∈ x.jobs.head?, ∀ r ∈ s.worker.component engine job.jobId,
      ∀ component ∈ r.2.toOption, engine.Returns component job.jobData job.taskData result))
  | .request _ | .reset _ | .result _ | .interrupted _ _ => .isTrue trivial

def Event.request? : Event → Option WorkerRequest
  | .request given => some given
  | _ => none

/-- The requests that the worker has been given. -/
def requested (es : List Event) : List WorkerRequest := es.filterMap Event.request?

end WasmCrew

/-- The module in the cache is one that was brought for the job, or the component of one. -/
def Kept (engine : Engine) (requests : List WorkerRequest) (job : Uuid) : WasmModule → Prop
  | .source bytes => ∃ args, Brought requests job args bytes
  | .compiled bytes => ∃ args program component, Brought requests job args program ∧
      engine.new program = .ok component ∧ engine.serialize component = .ok bytes

def ModulesKept (engine : Engine) (requests : List WorkerRequest) (s : WasmWorker) : Prop :=
  ∀ job module, s.jobCache.peek job = some module → Kept engine requests job module

end GridServer.NodeWorker
