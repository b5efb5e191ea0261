import Mathlib.Tactic.Common
import Mathlib.Data.List.Nodup

namespace GridServer

abbrev WorkerId := Nat
abbrev TaskId := Nat
abbrev Uuid := Nat

/-- Time spans are counted in nanoseconds. -/
abbrev Duration := Nat

structure SocketAddr where
  ip : List UInt8
  port : UInt16
deriving DecidableEq, Repr

inductive Arch where
  | wasm32 | x86 | x86_64 | arm | aarch64 | loongarch64 | m68k | csky | mips | mips64
  | powerpc | powerpc64 | riscv64 | s390x | sparc64 | unknown
deriving DecidableEq, Repr

inductive Family where
  | unix | windows | unknown
deriving DecidableEq, Repr

inductive Os where
  | linux | macos | ios | freebsd | dragonfly | netbsd | openbsd | solaris | android | windows
  | unknown
deriving DecidableEq, Repr

structure Platform where
  arch : Arch
  family : Family
  os : Os
deriving DecidableEq, Repr

structure WorkerInfo where
  workerId : WorkerId
  subworkers : Nat
  address : SocketAddr
  platform : Platform
deriving DecidableEq, Repr

structure WorkerTask where
  id : TaskId
  data : List UInt8
deriving DecidableEq, Repr

structure WorkerResult where
  id : TaskId
  executionTime : Duration
  data : List UInt8
deriving DecidableEq, Repr

inductive WorkerError where
  | taskExecutionError (taskId : TaskId) (error : String)
  | libraryMissing (tasks : List TaskId) (replacements : List (TaskId × TaskId))
  | noFreeExecutors (tasks : List TaskId)
deriving DecidableEq, Repr

inductive WorkerResponse where
  | error (error : WorkerError)
  | result (result : WorkerResult)
deriving DecidableEq, Repr

structure WorkerRequest where
  job : Uuid
  jobData : Option (List UInt8 × List UInt8)
  replacements : List (TaskId × WorkerTask)
  tasks : List WorkerTask
deriving DecidableEq, Repr

/-- The tasks a request gives its worker. -/
def WorkerRequest.named (request : WorkerRequest) : List TaskId :=
  request.tasks.map WorkerTask.id ++ request.replacements.map fun r => r.2.id

/-- What a job needs on the nodes: its arguments, and its program for each platform. The list
`data` stands for a hash map in its iteration order. -/
structure WorkerJobData where
  args : List UInt8
  data : List (Platform × List UInt8)
  distinct : (data.map Prod.fst).Nodup
deriving DecidableEq, Repr

def WorkerJobData.platforms (job : WorkerJobData) : List Platform := job.data.map Prod.fst

structure JobStats where
  totalTasks : Nat
  completedTasks : Nat
  failedTasks : Nat
  avgTaskCompletionTime : Duration
deriving DecidableEq, Repr

inductive SchedulerRequest where
  | helloMessage
  | newJob (id : Uuid) (totalTasks : Nat) (job : WorkerJobData)
  | task (batch : List WorkerTask)
deriving DecidableEq, Repr

inductive SchedulerResponse where
  | taskResults (batch : List WorkerResult)
  | schedulerBusy
  | schedulerFree
  | taskExecutionError (error : String) (stats : JobStats)
  | jobComplete (batch : List WorkerResult) (stats : JobStats)
deriving DecidableEq, Repr

inductive NodeManagerRequest where
  | helloMessage
  | workersDemand (requiredWorkers : Option Nat) (supportedPlatforms : List Platform)
  | releaseDemand
deriving DecidableEq, Repr

inductive NodeManagerResponse where
  | createdSession
  | restoredSession
  | disconnect (workerId : WorkerId)
  | connect (workers : List WorkerInfo)
deriving DecidableEq, Repr

end GridServer
