import GridServer.Shared.LinkedVecMap
import GridServer.Shared.Messages
import GridServer.Shared.VecMap

namespace GridServer.NodeManager
open Library

/-- A slot of a slab. -/
abbrev Id := Nat

/-- A connection, known by its number, which also stands for the sink that writes to it and for the
token that cancels it. -/
abbrev Connection := Nat

/-- A timer of the delay queue. -/
abbrev Key := Nat

inductive NodeRequest where
  | assignClient (address : SocketAddr)
  | unassignClient
deriving DecidableEq, Repr

inductive ServiceType where
  | node | scheduler
deriving DecidableEq, Repr

structure Node where
  uuid : Uuid
  name : Option String
  subworkers : Nat
  platform : Platform
  address : SocketAddr
  expirationKey : Key
  assigned : Option Id
  cancellationToken : Connection
  sink : Connection
  disconnectBuffer : Option (List NodeRequest)
deriving DecidableEq, Repr

structure Scheduler where
  uuid : Uuid
  name : Option String
  assignedWorkers : LinkedVecSet
  address : SocketAddr
  cancellationToken : Connection
  sink : Connection
  disconnectBuffer : Option (List NodeManagerResponse)
deriving DecidableEq, Repr

structure WorkersDemand where
  providedWorkers : Nat
  requiredWorkers : Option Nat
  supportedPlatforms : List Platform
deriving DecidableEq, Repr

/-- Values filed under keys that it hands out itself: any that are vacant. -/
abbrev Slab := VecMap

/-- Timers with what they are for, whichever of them fires first. -/
abbrev DelayQueue (T : Type) := List (Key × T)

namespace DelayQueue
variable {T : Type}

def get (q : DelayQueue T) (key : Key) : Option T := (q.find? fun e => e.1 = key).map Prod.snd

/-- A timer that has fired or was removed cannot be reset. -/
def reset (q : DelayQueue T) (key : Key) : Except Fault (DelayQueue T) :=
  if (get q key).isSome then .ok q else .error .indexOutOfBounds

def remove (q : DelayQueue T) (key : Key) : Except Fault (DelayQueue T) :=
  if (get q key).isSome then .ok (q.filter fun e => e.1 ≠ key) else .error .indexOutOfBounds

@[simp] theorem get_nil (key : Key) : get ([] : DelayQueue T) key = none := rfl

theorem get_append {q : DelayQueue T} {key : Key} (h : q.get key = none) (value : T) :
    get (q ++ [(key, value)]) = Function.update q.get key (some value) := by
  funext k
  simp only [get, Option.map_eq_none_iff] at h
  simp only [get, List.find?_append]
  by_cases hk : k = key
  · subst hk
    simp [h]
  · simp [Function.update_of_ne hk, get, Ne.symm hk]

theorem get_filter (q : DelayQueue T) (key : Key) :
    get (q.filter fun e => e.1 ≠ key) = Function.update q.get key none := by
  funext k
  simp only [get, List.find?_filter]
  by_cases hk : k = key
  · subst hk
    simp
  · rw [Function.update_of_ne hk]
    congr 2
    funext e
    by_cases he : e.1 = k
    · simp [he, hk]
    · simp [he]

end DelayQueue

structure State where
  schedulers : Slab Scheduler
  workersDemandsQueue : LinkedVecMap WorkersDemand
  unassignedWorkers : LinkedVecSet
  workers : Slab Node
  expirations : DelayQueue (Id × ServiceType)
  disconnected : Uuid → Option (Id × Key)
  needProcessQueue : Bool

/-- What a step of the node manager puts out: writes to the sinks of its connections, the ids that
connections wait for, and cancelled connections. -/
inductive Sent where
  | node (sink : Connection) (request : NodeRequest)
  | scheduler (sink : Connection) (response : NodeManagerResponse)
  | returned (connection : Connection) (id : Id)
  | cancelled (connection : Connection)
deriving DecidableEq, Repr

inductive NodeEvent where
  | connect (uuid : Uuid) (name : Option String) (platform : Platform) (subworkers : Nat)
      (address : SocketAddr) (connection : Connection)
  | disconnect (id : Id)
  | heartbeat (id : Id)
deriving DecidableEq, Repr

inductive SchedulerEvent where
  | connect (uuid : Uuid) (name : Option String) (address : SocketAddr) (connection : Connection)
  | disconnect (id : Id)
  | message (id : Id) (request : NodeManagerRequest)
deriving DecidableEq, Repr

/-- What the slab and the delay queue hand out to an event that asks for a slot or a timer. -/
structure Fresh where
  id : Id
  key : Key
deriving DecidableEq, Repr

/-- A turn of the node manager's main loop. -/
inductive Event where
  | node (event : NodeEvent) (fresh : Fresh)
  | expired (key : Key)
  | scheduler (event : SchedulerEvent) (fresh : Fresh)
  | processQueue
deriving DecidableEq, Repr

/-- `NodeManager::new`: nobody is connected. -/
def State.new : State :=
  { schedulers := VecMap.new
    workersDemandsQueue := LinkedVecMap.new
    unassignedWorkers := LinkedVecMap.new
    workers := VecMap.new
    expirations := []
    disconnected := fun _ => none
    needProcessQueue := false }

end GridServer.NodeManager
