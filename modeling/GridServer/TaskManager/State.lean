import GridServer.Jobs.Manager
import GridServer.TaskManager.Splitter
import GridServer.TaskManager.Reducer

namespace GridServer.TaskManager
open Jobs Library

structure JobData where
  graph : List (List UInt32)
  taxies : List Nat
  passengers : List (Nat × Nat)
deriving DecidableEq, Repr

def JobData.validate (data : JobData) : Bool :=
  data.graph.all (fun vertex => vertex.length = data.graph.length) &&
    data.taxies.all (fun position => position < data.graph.length) &&
    data.passengers.all fun (position, destination) =>
      position < data.graph.length && destination < data.graph.length

/-- What a worker found out for the two sets of passengers of a task. -/
structure TaskResult where
  taxi : Nat
  result : (Nat × Distance) × (Nat × Distance)
deriving DecidableEq, Repr

/-- `result[i].1`. -/
def TaskResult.distance (result : TaskResult) : Fin 2 → Distance
  | 0 => result.result.1.2
  | 1 => result.result.2.2

/-- The words of a set of passengers. -/
def split (a : Nat) : Words := [BitVec.ofNat 64 a, BitVec.ofNat 64 (a >>> 64)]

abbrev TaskSet := BitSet

inductive JobPhase where
  | splitting (splitter : TaskSplitter)
  | waitingTasksCompletions
  | reducing (reducer : TaskReducer) (minimal : Distance)

/-- What `JobState::Started` holds. -/
structure Started where
  stats : Option JobStats
  parts : List (MultilevelVecMap Distance)
  tasks : TaskSet
  phase : JobPhase

abbrev Job := Jobs.Job JobData Started Distance

abbrev State := Jobs.State JobData Started Distance

abbrev Turn := Jobs.Turn JobData Started Distance

abbrev Event := Jobs.Event JobData

abbrev Sent := Jobs.Sent JobData Distance

def JobPhase.json : JobPhase → JsonJobPhase
  | splitting _ => .splitting
  | waitingTasksCompletions => .waitingTasksCompletion
  | reducing _ _ => .reducing

/-- What the task manager takes from outside: how the `bincode` crate encodes and decodes, and the
compiled programs that every job brings along. -/
structure Externals where
  encodeJobData : JobData → Option (List UInt8)
  encodeTaskData : TaskData → Option (List UInt8)
  decodeTaskResult : List UInt8 → Except String TaskResult
  libjobSo : List UInt8
  jobDll : List UInt8
  jobWasm : List UInt8

/-- `JOB_DATA`. -/
def Externals.jobData (externals : Externals) : List (Platform × List UInt8) :=
  [(⟨.x86_64, .unix, .linux⟩, externals.libjobSo),
    (⟨.x86_64, .windows, .windows⟩, externals.jobDll),
    (⟨.wasm32, .unknown, .unknown⟩, externals.jobWasm)]

/-- The arguments of a job with its programs. -/
def Externals.workerJobData (externals : Externals) (args : List UInt8) : WorkerJobData :=
  { args := args
    data := externals.jobData
    distinct := by simp [Externals.jobData] }

/-- A codec by which every result reports 5 for the only passenger of the only taxi. -/
def plain : Externals :=
  { encodeJobData := fun _ => some []
    encodeTaskData := fun _ => some []
    decodeTaskResult := fun _ => .ok ⟨0, (1, 5), (0, 0)⟩
    libjobSo := []
    jobDll := []
    jobWasm := [] }

def single : JobData := ⟨[[0]], [0], [(0, 0)]⟩

end GridServer.TaskManager
