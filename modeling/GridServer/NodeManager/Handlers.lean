import GridServer.NodeManager.State

namespace GridServer.NodeManager
open Library

/-- Written to the connection, or kept while the node is disconnected. -/
def Node.send (node : Node) (request : NodeRequest) : Node × List Sent :=
  match node.disconnectBuffer with
  | some buffer => ({ node with disconnectBuffer := some (buffer ++ [request]) }, [])
  | none => (node, [.node node.sink request])

def Scheduler.send (scheduler : Scheduler) (response : NodeManagerResponse) :
    Scheduler × List Sent :=
  match scheduler.disconnectBuffer with
  | some buffer => ({ scheduler with disconnectBuffer := some (buffer ++ [response]) }, [])
  | none => (scheduler, [.scheduler scheduler.sink response])

/-- `slab[key]`. -/
def index {V : Type} (slab : Slab V) (key : Id) : Except Fault V :=
  match slab.get key with
  | some value => .ok value
  | none => .error .indexOutOfBounds

/-- The demand takes workers of the platform, and does not have all that it requires. -/
def WorkersDemand.takes (demand : WorkersDemand) (platform : Platform) : Bool :=
  demand.requiredWorkers ≠ some demand.providedWorkers ∧ platform ∈ demand.supportedPlatforms

namespace State

def releaseWorker (s : State) (workerId : Id) : State × List Sent :=
  match s.workers.get workerId with
  | none => (s, [])
  | some worker =>
    let (worker, out) := { worker with assigned := none }.send .unassignClient
    ({ s with
        unassignedWorkers := s.unassignedWorkers.insert workerId
        workers := s.workers.write workerId worker }, out)

def releaseWorkers (s : State) (workersId : List Id) : State × List Sent :=
  workersId.foldl (fun r workerId =>
    let (s, out) := r.1.releaseWorker workerId
    (s, r.2 ++ out)) (s, [])

def forget (disconnected : Uuid → Option (Id × Key)) (uuid : Uuid) : Uuid → Option (Id × Key) :=
  Function.update disconnected uuid none

section Nodes
variable (checks : Bool)

/-- The timer of a node has fired. -/
def processNodeDisconnection (s : State) (workerId : Id) : Except Fault (State × List Sent) :=
  match s.workers.get workerId with
  | none => .ok (s, [])
  | some worker =>
    let s := { s with
      workers := s.workers.remove workerId
      disconnected := forget s.disconnected worker.uuid }
    match worker.assigned with
    | none =>
      .ok ({ s with unassignedWorkers := s.unassignedWorkers.remove workerId },
        [.cancelled worker.cancellationToken])
    | some schedulerId =>
      match s.schedulers.get schedulerId with
      | none => .ok (s, [.cancelled worker.cancellationToken])
      | some scheduler =>
        if workerId ∈ scheduler.assignedWorkers then do
          let demands ← match s.workersDemandsQueue.get schedulerId with
            | some demand => do
              let provided ← subBits 32 checks demand.providedWorkers 1
              pure (s.workersDemandsQueue.write schedulerId
                { demand with providedWorkers := provided })
            | none => pure s.workersDemandsQueue
          let (scheduler, out) := { scheduler with
            assignedWorkers := scheduler.assignedWorkers.remove workerId }.send
              (.disconnect workerId)
          return ({ s with
            schedulers := s.schedulers.write schedulerId scheduler
            workersDemandsQueue := demands
            needProcessQueue := true }, out ++ [.cancelled worker.cancellationToken])
        else .ok (s, [.cancelled worker.cancellationToken])

def restoreNodeSession (s : State) (nodeId : Id) (key : Key) (connection : Connection) :
    Except Fault (State × List Sent) := do
  let node ← index s.workers nodeId
  let expirations ← s.expirations.reset key
  -- with the buffer taken, every `send` of the loop writes to the new sink
  let buffer := node.disconnectBuffer.getD []
  return ({ s with
      expirations := expirations
      workers := s.workers.write nodeId { node with
        disconnectBuffer := none, cancellationToken := connection, sink := connection } },
    buffer.map (.node connection) ++ [.returned connection nodeId])

def processNode (s : State) (event : NodeEvent) (fresh : Fresh) : Except Fault (State × List Sent) :=
  match event with
  | .connect uuid name platform subworkers address connection =>
    match s.disconnected uuid with
    | some (id, key) =>
      { s with disconnected := forget s.disconnected uuid }.restoreNodeSession id key connection
    | none =>
      if (s.workers.get fresh.id).isSome ∨ (s.expirations.get fresh.key).isSome then
        .error .notReady
      else .ok ({ s with
          expirations := s.expirations ++ [(fresh.key, fresh.id, .node)]
          workers := s.workers.insert fresh.id
            { assigned := none
              uuid := uuid
              name := name
              platform := platform
              subworkers := subworkers
              address := address
              expirationKey := fresh.key
              cancellationToken := connection
              sink := connection
              disconnectBuffer := none }
          unassignedWorkers := s.unassignedWorkers.insert fresh.id
          needProcessQueue := true }, [.returned connection fresh.id])
  | .disconnect id =>
    match s.workers.get id with
    | none => .ok (s, [])
    | some node => .ok ({ s with
        disconnected := Function.update s.disconnected node.uuid (some (id, node.expirationKey))
        workers := s.workers.write id { node with disconnectBuffer := some [] } }, [])
  | .heartbeat id =>
    match s.workers.get id with
    | none => .ok (s, [])
    | some node => do
      let expirations ← s.expirations.reset node.expirationKey
      return ({ s with expirations := expirations }, [])

end Nodes

section Schedulers

/-- What the source has for the end of a scheduler's session. No event reaches it. -/
def processSchedulerDisconnection (s : State) (schedulerId : Id) : State × List Sent :=
  match s.schedulers.get schedulerId with
  | none => (s, [])
  | some scheduler =>
    let s := { s with schedulers := s.schedulers.remove schedulerId }
    let (s, out) :=
      if (s.workersDemandsQueue.get schedulerId).isSome then
        { s with workersDemandsQueue := s.workersDemandsQueue.remove schedulerId }.releaseWorkers
          scheduler.assignedWorkers.keys
      else (s, [])
    ({ s with
        disconnected := forget s.disconnected scheduler.uuid
        needProcessQueue := true }, out ++ [.cancelled scheduler.cancellationToken])

def restoreSchedulerSession (s : State) (schedulerId : Id) (key : Key) (connection : Connection) :
    Except Fault (State × List Sent) := do
  let scheduler ← index s.schedulers schedulerId
  let expirations ← s.expirations.remove key
  let buffer := scheduler.disconnectBuffer.getD []
  return ({ s with
      expirations := expirations
      schedulers := s.schedulers.write schedulerId { scheduler with
        disconnectBuffer := none, cancellationToken := connection, sink := connection } },
    .scheduler connection .restoredSession :: buffer.map (.scheduler connection) ++
      [.returned connection schedulerId])

/-- A scheduler that changes or drops its demand loses the workers it was given for it. -/
def dropDemand (s : State) (id : Id) (scheduler : Scheduler)
    (demands : LinkedVecMap WorkersDemand) : State × List Sent :=
  let had := (s.workersDemandsQueue.get id).isSome
  let s := { s with workersDemandsQueue := demands, needProcessQueue := true }
  if had then
    { s with
      schedulers := s.schedulers.write id
        { scheduler with assignedWorkers := LinkedVecMap.new } }.releaseWorkers
          scheduler.assignedWorkers.keys
  else (s, [])

def processScheduler (s : State) (event : SchedulerEvent) (fresh : Fresh) :
    Except Fault (State × List Sent) :=
  match event with
  | .connect uuid name address connection =>
    match s.disconnected uuid with
    | some (id, key) =>
      { s with disconnected := forget s.disconnected uuid }.restoreSchedulerSession id key connection
    | none =>
      if (s.schedulers.get fresh.id).isSome then .error .notReady
      else .ok ({ s with
          schedulers := s.schedulers.insert fresh.id
            { assignedWorkers := LinkedVecMap.new
              uuid := uuid
              name := name
              address := address
              cancellationToken := connection
              sink := connection
              disconnectBuffer := none } },
        [.scheduler connection .createdSession, .returned connection fresh.id])
  | .message _ .helloMessage => .ok (s, [])
  | .message id (.workersDemand requiredWorkers supportedPlatforms) =>
    match s.schedulers.get id with
    | none => .ok (s, [])
    | some scheduler => .ok (s.dropDemand id scheduler (s.workersDemandsQueue.insert id
        { providedWorkers := 0
          requiredWorkers := requiredWorkers
          supportedPlatforms := supportedPlatforms }))
  | .message id .releaseDemand =>
    match s.schedulers.get id with
    | none => .ok (s, [])
    | some scheduler => .ok (s.dropDemand id scheduler (s.workersDemandsQueue.remove id))
  | .disconnect id =>
    match s.schedulers.get id with
    | none => .ok (s, [])
    | some scheduler =>
      if (s.expirations.get fresh.key).isSome then .error .notReady
      else .ok ({ s with
        expirations := s.expirations ++ [(fresh.key, id, .scheduler)]
        disconnected := Function.update s.disconnected scheduler.uuid (some (id, fresh.key))
        schedulers := s.schedulers.write id { scheduler with disconnectBuffer := some [] } }, [])

end Schedulers

/-- The timer that fires is taken off the queue. For a scheduler's, the slot is looked up among the
nodes. -/
def processExpiration (checks : Bool) (s : State) (key : Key) : Except Fault (State × List Sent) :=
  match s.expirations.get key with
  | none => .error .notReady
  | some (id, serviceType) =>
    let s := { s with expirations := s.expirations.filter fun e => e.1 ≠ key }
    match serviceType with
    | .node => s.processNodeDisconnection checks id
    | .scheduler =>
      match s.workers.get id with
      | some worker => .ok (s, [.cancelled worker.cancellationToken])
      | none => .ok (s, [])

section Queue
variable (checks : Bool)

/-- What the first loop of `process_queue` works on. The list of matches stands for a hash map: the
schedulers in it have nothing to do with each other. -/
structure Matching where
  unassignedWorkers : LinkedVecSet
  demands : LinkedVecMap WorkersDemand
  matched : List (Id × List Id)

/-- `entry(scheduler_id).or_insert(Vec::new()).push(worker_id)`. -/
def pushMatch (schedulerId workerId : Id) : List (Id × List Id) → List (Id × List Id)
  | [] => [(schedulerId, [workerId])]
  | (id, workersId) :: matched =>
    if id = schedulerId then (id, workersId ++ [workerId]) :: matched
    else (id, workersId) :: pushMatch schedulerId workerId matched

/-- The worker at the front goes to the first demand that takes it. The loop ends at the first
worker that no demand takes. -/
def matchWorkers (workers : Slab Node) : Nat → Matching → Except Fault Matching
  | 0, m => .ok m
  | n + 1, m =>
    match m.unassignedWorkers.front with
    | none => .ok m
    | some (workerId, _) =>
      match workers.get workerId with
      | none => .ok m
      | some worker =>
        match m.demands.entries.find? fun entry => entry.2.takes worker.platform with
        | none => .ok m
        | some (schedulerId, demand) => do
          let provided ← addBits 32 checks demand.providedWorkers 1
          matchWorkers workers n
            { unassignedWorkers := m.unassignedWorkers.popFront
              demands := m.demands.write schedulerId { demand with providedWorkers := provided }
              matched := pushMatch schedulerId workerId m.matched }

/-- What the second loop holds for one scheduler. -/
structure Assigning where
  workers : Slab Node
  scheduler : Scheduler
  infos : List WorkerInfo
  out : List Sent

def assignWorker (schedulerId : Id) (a : Assigning) (workerId : Id) : Except Fault Assigning := do
  let worker ← index a.workers workerId
  let (assigned, out) := { worker with assigned := some schedulerId }.send
    (.assignClient a.scheduler.address)
  return {
    workers := a.workers.write workerId assigned
    scheduler := { a.scheduler with
      assignedWorkers := a.scheduler.assignedWorkers.insert workerId }
    infos := a.infos ++ [{
      workerId := workerId
      address := worker.address
      platform := worker.platform
      subworkers := worker.subworkers }]
    out := a.out ++ out }

def assignWorkers (r : State × List Sent) (entry : Id × List Id) : Except Fault (State × List Sent) := do
  let scheduler ← index r.1.schedulers entry.1
  let a ← entry.2.foldlM (assignWorker entry.1) ⟨r.1.workers, scheduler, [], []⟩
  let (scheduler, out) := a.scheduler.send (.connect a.infos)
  return ({ r.1 with
    workers := a.workers
    schedulers := r.1.schedulers.write entry.1 scheduler }, r.2 ++ a.out ++ out)

def processQueue (s : State) : Except Fault (State × List Sent) := do
  let m ← matchWorkers checks s.workers s.unassignedWorkers.len
    ⟨s.unassignedWorkers, s.workersDemandsQueue, []⟩
  m.matched.foldlM assignWorkers ({ s with
    unassignedWorkers := m.unassignedWorkers, workersDemandsQueue := m.demands }, [])

end Queue

/-- One turn of the main loop. The last branch is ready once it has been notified. -/
def step (checks : Bool) (s : State) : Event → Except Fault (State × List Sent)
  | .node event fresh => s.processNode event fresh
  | .expired key => s.processExpiration checks key
  | .scheduler event fresh => s.processScheduler event fresh
  | .processQueue =>
    if s.needProcessQueue then { s with needProcessQueue := false }.processQueue checks
    else .error .notReady

end State
end GridServer.NodeManager
