import GridServer.Library.Run
import GridServer.NodeManager.State
import GridServer.NodeWorker.Recorded

namespace GridServer.NodeWorker
open Library

/-! The main loop of a node, between its node manager, its client and its worker. -/

/-- How far the task behind a channel is with its connection. From `closed` on nothing that is sent
through the channel can be taken. -/
inductive Link where
  | waiting
  | opened
  | ending
  | closed
deriving DecidableEq, Repr

/-- A channel to a peer with the events that the node has not read. -/
structure Channel (E : Type) where
  inbox : List E
  link : Link
deriving DecidableEq, Repr

def Channel.new {E : Type} : Channel E := ⟨[], .waiting⟩

/-- The task adds an event, and comes from one of the states to another. -/
def Channel.push {E : Type} (channel : Channel E) (event : E) (before after : Link) :
    Except Fault (Channel E) :=
  if channel.link = before then .ok ⟨channel.inbox ++ [event], after⟩ else .error .notReady

/-- The task ends without a word. It does not while the connection is open. -/
def Channel.close {E : Type} (channel : Channel E) : Except Fault (Channel E) :=
  match channel.link with
  | .waiting | .ending => .ok { channel with link := .closed }
  | .opened | .closed => .error .notReady

inductive WorkerEvent where
  | connected
  | disconnected
  | message (request : WorkerRequest)
deriving DecidableEq, Repr

inductive NodeManagerEvent where
  | connected
  | disconnected
  | message (request : NodeManager.NodeRequest)
  | connectionNotEstablished
deriving DecidableEq, Repr

structure Client where
  connected : Bool
  buffer : List WorkerResponse
  addr : SocketAddr
  channel : Channel WorkerEvent
deriving DecidableEq, Repr

/-- Which of its methods a worker is in, or whether its executors do something on their own. -/
inductive Branch where
  | process (request : WorkerRequest)
  | recv
  | reset
  | apart

/-- What a node needs of its worker. -/
structure Worker (W E : Type) where
  step : W → E → Except Fault (W × List Sent)
  branch : E → Branch

def wasm : Worker WasmWorker WasmEvent where
  step := WasmWorker.step
  branch
    | .request request => .process request
    | .message _ _ => .recv
    | .reset _ => .reset
    | .compiled _ _ => .apart

def dll : Worker DllWorker DllEvent where
  step := DllWorker.step
  branch
    | .request request _ => .process request
    | .message .. => .recv
    | .reset .. => .reset

def Sent.answer? : Sent → Option WorkerResponse
  | .respond response => some response
  | _ => none

/-- The responses that the worker returns. -/
def answers (out : List Sent) : List WorkerResponse := out.filterMap Sent.answer?

structure Node (W : Type) where
  nodeManager : Channel NodeManagerEvent
  worker : W
  client : Option Client

namespace Node

/-- What the node puts out: a heartbeat, a response to its client, and what its worker does. -/
inductive Sent where
  | heartbeat
  | response (response : WorkerResponse)
  | worker (sent : NodeWorker.Sent)
deriving DecidableEq, Repr

/-- What comes to the channels, and the branches of the main loop. A branch that uses the worker says
what happens there. -/
inductive Event (E : Type) where
  | managerConnected
  | managerMessage (request : NodeManager.NodeRequest)
  | managerDisconnected
  | managerNotConnected
  | managerClosed
  | clientConnected
  | clientMessage (request : WorkerRequest)
  | clientDisconnected
  | clientClosed
  | executors (e : E)
  | nodeManager (reset : Option E)
  | heartbeat
  | request (process : Option E)
  | recv (e : E)
deriving DecidableEq, Repr

end Node

/-- `Client::new`. -/
def Client.new (addr : SocketAddr) : Client :=
  { connected := false, buffer := [], addr := addr, channel := .new }

/-- `Client::send`, which fails when the task has dropped its end of the channel. -/
def Client.send (client : Client) (item : WorkerResponse) : Option (Client × List Node.Sent) :=
  if client.connected then
    if client.channel.link = .closed then none else some (client, [.response item])
  else some ({ client with buffer := client.buffer ++ [item] }, [])

/-- Send the items one after another, and go on when it fails. -/
def Client.sendAll (client : Client) : List WorkerResponse → Client × List Node.Sent
  | [] => (client, [])
  | item :: items =>
    match client.send item with
    | some (client, out) =>
      let (client, out') := client.sendAll items
      (client, out ++ out')
    | none => client.sendAll items

namespace Node
variable {W E : Type}

def new (worker : W) : Node W := ⟨.new, worker, none⟩

/-- The client's task does something to its channel. -/
def reach (node : Node W) (f : Channel WorkerEvent → Except Fault (Channel WorkerEvent)) :
    Except Fault (Node W × List Sent) :=
  match node.client with
  | none => .error .notReady
  | some client => do
    return ({ node with client := some { client with channel := ← f client.channel } }, [])

section
variable (worker : Worker W E)

/-- A turn of the worker in the branch. -/
def drive (node : Node W) (branch : Branch → Bool) (e : E) :
    Except Fault (Node W × List NodeWorker.Sent) := do
  if branch (worker.branch e) then
    let (w, out) ← worker.step node.worker e
    return ({ node with worker := w }, out)
  else .error .notReady

def processNodeManager (node : Node W) (reset : Option E) :
    NodeManagerEvent → Except Fault (Node W × List Sent)
  | .connected => .ok (node, [])
  | .disconnected => .ok ({ node with nodeManager := .new }, [])
  | .message request =>
    match reset with
    | none => .error .notReady
    | some e => do
      let (node, out) ← node.drive worker (fun branch => branch matches .reset) e
      match request with
      | .assignClient addr =>
        return ({ node with client := some (.new addr) }, out.map Sent.worker)
      | .unassignClient => return ({ node with client := none }, out.map Sent.worker)
  | .connectionNotEstablished => .error .stopped

def processRequest (node : Node W) (client : Client) (process : Option E) :
    WorkerEvent → Except Fault (Node W × List Sent)
  | .connected =>
    let (client, out) := { client with connected := true, buffer := [] }.sendAll client.buffer
    .ok ({ node with client := some client }, out)
  | .disconnected => .ok ({ node with client := some { client with connected := false } }, [])
  | .message request =>
    match process with
    | none => .error .notReady
    | some e => do
      let (node, out) ← node.drive worker
        (fun branch => match branch with
          | .process asked => asked = request
          | _ => false) e
      match answers out with
      | [] => return ({ node with client := some client }, out.map Sent.worker)
      | response :: _ =>
        match client.send response with
        | some (client, sent) =>
          return ({ node with client := some client }, out.map Sent.worker ++ sent)
        | none => .error .stopped

def step (node : Node W) : Event E → Except Fault (Node W × List Sent)
  | .managerConnected => do
    return ({ node with nodeManager := ← node.nodeManager.push .connected .waiting .opened }, [])
  | .managerMessage request => do
    return ({ node with nodeManager := ← node.nodeManager.push (.message request) .opened .opened }, [])
  | .managerDisconnected => do
    return ({ node with nodeManager := ← node.nodeManager.push .disconnected .opened .ending }, [])
  | .managerNotConnected => do
    return ({ node with
      nodeManager := ← node.nodeManager.push .connectionNotEstablished .waiting .ending }, [])
  | .managerClosed => do return ({ node with nodeManager := ← node.nodeManager.close }, [])
  | .clientConnected => node.reach fun channel => channel.push .connected .waiting .opened
  | .clientMessage request => node.reach fun channel => channel.push (.message request) .opened .opened
  | .clientDisconnected => node.reach fun channel => channel.push .disconnected .opened .ending
  | .clientClosed => node.reach Channel.close
  | .executors e => do
    let (node, out) ← node.drive worker (fun branch => branch matches .apart) e
    return (node, out.map Sent.worker)
  | .nodeManager reset =>
    match node.nodeManager.inbox with
    | [] => .error .notReady
    | event :: inbox =>
      { node with nodeManager := { node.nodeManager with inbox := inbox } }.processNodeManager worker
        reset event
  | .heartbeat =>
    if node.nodeManager.link = .closed then .error .stopped else .ok (node, [.heartbeat])
  | .request process =>
    match node.client with
    | none => .error .notReady
    | some client =>
      match client.channel.inbox with
      | [] => .error .notReady
      | event :: inbox =>
        node.processRequest worker { client with channel := { client.channel with inbox := inbox } }
          process event
  | .recv e =>
    match node.client with
    | none => .error .notReady
    | some client => do
      let (node, out) ← node.drive worker (fun branch => branch matches .recv) e
      let (client, sent) := client.sendAll (answers out)
      return ({ node with client := some client }, out.map Sent.worker ++ sent)

end

end Node

/-- What has come and gone since the client was assigned: the requests that the node has read, the
responses of the worker, and those of them that have been handed to the client's task. -/
structure Session where
  requests : List WorkerRequest
  responses : List WorkerResponse
  handed : List WorkerResponse

namespace Session

def empty : Session := ⟨[], [], []⟩

end Session

namespace Node
variable {W E : Type}

def Sent.response? : Sent → Option WorkerResponse
  | .response item => some item
  | _ => none

def Sent.worker? : Sent → Option NodeWorker.Sent
  | .worker done => some done
  | _ => none

/-- The request that the node reads. -/
def read (node : Node W) : Event E → Option WorkerRequest
  | .request _ =>
    match node.client.bind fun client => client.channel.inbox.head? with
    | some (.message request) => some request
    | _ => none
  | _ => none

/-- The node manager gives the node another client, or none. -/
def reassigned (node : Node W) : Event E → Bool
  | .nodeManager _ =>
    match node.nodeManager.inbox.head? with
    | some (.message _) => true
    | _ => false
  | _ => false

end Node

/-- The history variable. -/
def Session.note {W E : Type} (session : Session) (node : Node W) (e : Node.Event E)
    (out : List Node.Sent) : Session :=
  if node.reassigned e then .empty
  else
    { requests := session.requests ++ (node.read e).toList
      responses := session.responses ++ answers (out.filterMap Node.Sent.worker?)
      handed := session.handed ++ out.filterMap Node.Sent.response? }

/-- The events that end the stream of a channel. -/
def Link.last : Link → List WorkerEvent
  | .waiting | .opened => []
  | .ending | .closed => [.disconnected]

/-- How far the node is with its client. Only a response that was sent while the channel was closed
is lost. -/
inductive Stage (client : Client) (session : Session) : Prop where
  | waiting : client.connected = false → client.channel.inbox = [] →
      client.channel.link = .waiting ∨ client.channel.link = .closed →
      session.handed = [] → session.responses = client.buffer → Stage client session
  | announced (requests : List WorkerRequest) : client.connected = false →
      client.channel.inbox = .connected :: (requests.map .message ++ client.channel.link.last) →
      client.channel.link ≠ .waiting → session.handed = [] → session.responses = client.buffer →
      Stage client session
  | serving (requests : List WorkerRequest) (lost : List WorkerResponse) : client.connected = true →
      client.channel.inbox = requests.map .message ++ client.channel.link.last →
      client.channel.link ≠ .waiting → client.buffer = [] →
      session.responses = session.handed ++ lost → (lost ≠ [] → client.channel.link = .closed) →
      Stage client session
  | ended (lost : List WorkerResponse) : client.connected = false → client.channel.inbox = [] →
      client.channel.link = .ending ∨ client.channel.link = .closed →
      session.responses = session.handed ++ lost ++ client.buffer →
      (lost ≠ [] → client.channel.link = .closed) → Stage client session

section
variable {client client' : Client} {session : Session} {items : List WorkerResponse}
  {out : List Node.Sent}

theorem Client.sendAll_connected (hconnected : client.connected = true)
    (hlink : client.channel.link ≠ .closed) (items : List WorkerResponse) :
    client.sendAll items = (client, items.map Node.Sent.response) := by
  induction items with
  | nil => rfl
  | cons item items ih => simp [sendAll, send, hconnected, hlink, ih]

theorem Client.sendAll_closed (hconnected : client.connected = true)
    (hlink : client.channel.link = .closed) (items : List WorkerResponse) :
    client.sendAll items = (client, []) := by
  induction items with
  | nil => rfl
  | cons item items ih => simp [sendAll, send, hconnected, hlink, ih]

theorem Client.sendAll_apart (hconnected : client.connected = false) (items : List WorkerResponse) :
    client.sendAll items = ({ client with buffer := client.buffer ++ items }, []) := by
  induction items generalizing client with
  | nil => simp [sendAll]
  | cons item items ih =>
    have hsend : client.send item =
        some ({ client with buffer := client.buffer ++ [item] }, []) := by
      rw [send, hconnected]
      rfl
    have hrest : { client with buffer := client.buffer ++ [item] }.sendAll items =
        ({ client with buffer := client.buffer ++ [item] ++ items }, []) := ih hconnected
    rw [sendAll, hsend]
    simp only [hrest]
    simp

theorem filterMap_response (items : List WorkerResponse) :
    (items.map Node.Sent.response).filterMap Node.Sent.response? = items := by
  rw [List.filterMap_map]
  exact List.filterMap_some

/-- The responses that a turn sends come after those before. -/
theorem Stage.sendAll (stage : Stage client session) (h : client.sendAll items = (client', out)) :
    Stage client' { session with
      responses := session.responses ++ items
      handed := session.handed ++ out.filterMap Node.Sent.response? } := by
  cases stage with
  | waiting hconnected hinbox hlink hhanded hresponses =>
    rw [Client.sendAll_apart hconnected] at h
    cases h
    exact .waiting hconnected hinbox hlink (by simpa using hhanded) (by simp [hresponses])
  | announced requests hconnected hinbox hlink hhanded hresponses =>
    rw [Client.sendAll_apart hconnected] at h
    cases h
    exact .announced requests hconnected hinbox hlink (by simpa using hhanded) (by simp [hresponses])
  | serving requests lost hconnected hinbox hlink hbuffer hresponses hlost =>
    by_cases hclosed : client.channel.link = .closed
    · rw [Client.sendAll_closed hconnected hclosed] at h
      cases h
      exact .serving requests (lost ++ items) hconnected hinbox hlink hbuffer (by simp [hresponses])
        fun _ => hclosed
    · rw [Client.sendAll_connected hconnected hclosed] at h
      cases h
      obtain rfl : lost = [] := by
        by_contra hne
        exact hclosed (hlost hne)
      refine .serving requests [] hconnected hinbox hlink hbuffer ?_ fun hne => absurd rfl hne
      rw [filterMap_response, hresponses]
      simp
  | ended lost hconnected hinbox hlink hresponses hlost =>
    rw [Client.sendAll_apart hconnected] at h
    cases h
    exact .ended lost hconnected hinbox hlink (by simp [hresponses]) hlost

/-- When the node reads that its client is connected, it sends what it has kept. -/
theorem Stage.connect (requests : List WorkerRequest) {channel : Channel WorkerEvent}
    (hinbox : channel.inbox = requests.map .message ++ channel.link.last) (hlink : channel.link ≠ .waiting)
    (hhanded : session.handed = []) (hresponses : session.responses = client.buffer)
    (h : { client with connected := true, buffer := [], channel := channel }.sendAll client.buffer =
      (client', out)) :
    Stage client' { session with
      handed := session.handed ++ out.filterMap Node.Sent.response? } := by
  have start : Stage { client with connected := true, buffer := [], channel := channel }
      { session with responses := [], handed := [] } :=
    .serving requests [] rfl hinbox hlink rfl rfl fun hne => absurd rfl hne
  have sent := start.sendAll h
  rw [hhanded]
  rw [← hresponses] at sent
  exact sent

end

/-- The tasks that a response is about. -/
def tasksOf : WorkerResponse → List TaskId
  | .result result => [result.id]
  | .error error => listed (some error)

/-- A worker that holds tasks, and answers each once for every time that it was named. -/
structure Worker.Accounts {W E : Type} (worker : Worker W E) (held : W → List TaskId) : Prop where
  single : ∀ s e t out request, worker.branch e = .process request → worker.step s e = .ok (t, out) →
    (answers out).length ≤ 1
  process : ∀ s e t out request, worker.branch e = .process request → worker.step s e = .ok (t, out) →
    ((answers out).flatMap tasksOf ++ held t).Subperm (held s ++ request.named)
  recv : ∀ s e t out, worker.branch e = .recv → worker.step s e = .ok (t, out) →
    ((answers out).flatMap tasksOf ++ held t).Subperm (held s)
  reset : ∀ s e t out, worker.branch e = .reset → worker.step s e = .ok (t, out) →
    answers out = [] ∧ held t = []
  apart : ∀ s e t out, worker.branch e = .apart → worker.step s e = .ok (t, out) →
    answers out = [] ∧ held t = held s

/-- The node is where it should be with its client, and no task was answered more often than it was
named. -/
structure Node.Serves {W : Type} (held : W → List TaskId) (session : Session) (node : Node W) :
    Prop where
  stage : ∀ client ∈ node.client, Stage client session
  once : (session.responses.flatMap tasksOf ++ held node.worker).Subperm
    (session.requests.flatMap WorkerRequest.named)

section
variable {W E : Type} {worker : Worker W E} {held : W → List TaskId} {session : Session}
  {node node' : Node W} {e : Node.Event E} {out : List Node.Sent} {client : Client}
  {channel : Channel WorkerEvent}

theorem Stage.congr {session' : Session} (stage : Stage client session)
    (hresponses : session'.responses = session.responses) (hhanded : session'.handed = session.handed) :
    Stage client session' := by
  cases stage with
  | waiting hconnected hinbox hlink hhanded' hresponses' =>
    exact .waiting hconnected hinbox hlink (hhanded ▸ hhanded') (hresponses ▸ hresponses')
  | announced requests hconnected hinbox hlink hhanded' hresponses' =>
    exact .announced requests hconnected hinbox hlink (hhanded ▸ hhanded') (hresponses ▸ hresponses')
  | serving requests lost hconnected hinbox hlink hbuffer hresponses' hlost =>
    exact .serving requests lost hconnected hinbox hlink hbuffer
      (hresponses ▸ hhanded ▸ hresponses') hlost
  | ended lost hconnected hinbox hlink hresponses' hlost =>
    exact .ended lost hconnected hinbox hlink (hresponses ▸ hhanded ▸ hresponses') hlost

theorem Stage.push_connected (stage : Stage client session)
    (h : client.channel.push .connected .waiting .opened = .ok channel) :
    Stage { client with channel := channel } session := by
  unfold Channel.push at h
  split at h
  · rename_i hlink
    cases h
    cases stage with
    | waiting hconnected hinbox _ hhanded hresponses =>
      exact .announced [] hconnected (by simp [hinbox, Link.last]) (by simp) hhanded hresponses
    | announced _ _ _ hnot => exact absurd hlink hnot
    | serving _ _ _ _ hnot => exact absurd hlink hnot
    | ended _ _ _ hgone =>
      simp [hlink] at hgone
  · cases h

/-- What comes on an open channel comes after what has come before. -/
theorem Stage.push {event : WorkerEvent} {after : Link} (stage : Stage client session)
    (hafter : (∃ request, event = .message request ∧ after = .opened) ∨
      event = .disconnected ∧ after = .ending)
    (h : client.channel.push event .opened after = .ok channel) :
    Stage { client with channel := channel } session := by
  unfold Channel.push at h
  split at h
  · rename_i hlink
    cases h
    have extends' : ∀ requests : List WorkerRequest, ∃ requests' : List WorkerRequest,
        requests.map .message ++ client.channel.link.last ++ [event] =
          requests'.map .message ++ after.last := by
      intro requests
      rw [hlink]
      rcases hafter with ⟨request, rfl, rfl⟩ | ⟨rfl, rfl⟩
      · exact ⟨requests ++ [request], by simp [Link.last]⟩
      · exact ⟨requests, by simp [Link.last]⟩
    have hnot : after ≠ .waiting := by
      rcases hafter with ⟨_, _, rfl⟩ | ⟨_, rfl⟩ <;> simp
    have hnone : ∀ lost : List WorkerResponse, (lost ≠ [] → client.channel.link = .closed) →
        lost = [] := by
      intro lost hlost
      by_contra hne
      rw [hlink] at hlost
      cases hlost hne
    cases stage with
    | waiting _ _ hgone =>
      simp [hlink] at hgone
    | announced requests hconnected hinbox _ hhanded hresponses =>
      obtain ⟨requests', hrequests⟩ := extends' requests
      refine .announced requests' hconnected ?_ hnot hhanded hresponses
      rw [← hrequests]
      simp [hinbox]
    | serving requests lost hconnected hinbox _ hbuffer hresponses hlost =>
      obtain ⟨requests', hrequests⟩ := extends' requests
      obtain rfl := hnone lost hlost
      refine .serving requests' [] hconnected ?_ hnot hbuffer hresponses fun hne => absurd rfl hne
      rw [← hrequests]
      simp [hinbox]
    | ended _ _ _ hgone =>
      simp [hlink] at hgone
  · cases h

theorem Stage.close (stage : Stage client session) (h : client.channel.close = .ok channel) :
    Stage { client with channel := channel } session := by
  unfold Channel.close at h
  split at h
  · rename_i hlink
    cases h
    cases stage with
    | waiting hconnected hinbox _ hhanded hresponses =>
      exact .waiting hconnected hinbox (.inr rfl) hhanded hresponses
    | announced _ _ _ hnot => exact absurd hlink hnot
    | serving _ _ _ _ hnot => exact absurd hlink hnot
    | ended _ _ _ hgone =>
      simp [hlink] at hgone
  · rename_i hlink
    cases h
    cases stage with
    | waiting _ _ hgone =>
      simp [hlink] at hgone
    | announced requests hconnected hinbox _ hhanded hresponses =>
      rw [hlink] at hinbox
      exact .announced requests hconnected hinbox (by simp) hhanded hresponses
    | serving requests lost hconnected hinbox _ hbuffer hresponses _ =>
      rw [hlink] at hinbox
      exact .serving requests lost hconnected hinbox (by simp) hbuffer hresponses fun _ => rfl
    | ended lost hconnected hinbox _ hresponses _ =>
      exact .ended lost hconnected hinbox (.inr rfl) hresponses fun _ => rfl
  · cases h
  · cases h

/-- The next event of a channel whose connection has been read. -/
theorem next_event {event : WorkerEvent} {inbox : List WorkerEvent} {link : Link}
    {requests : List WorkerRequest} (h : event :: inbox = requests.map .message ++ link.last) :
    (∃ request, ∃ rest : List WorkerRequest, event = .message request ∧
      inbox = rest.map .message ++ link.last) ∨
      event = .disconnected ∧ inbox = [] ∧ (link = .ending ∨ link = .closed) := by
  cases requests with
  | cons request rest =>
    obtain ⟨rfl, rfl⟩ := List.cons.inj h
    exact .inl ⟨request, rest, rfl, rfl⟩
  | nil =>
    cases link with
    | waiting | opened => cases h
    | ending =>
      cases h
      exact .inr ⟨rfl, rfl, .inl rfl⟩
    | closed =>
      cases h
      exact .inr ⟨rfl, rfl, .inr rfl⟩

/-- What it means for the stage that the next event is read. -/
theorem Stage.read {event : WorkerEvent} {inbox : List WorkerEvent} (stage : Stage client session)
    (h : client.channel.inbox = event :: inbox) :
    match (motive := WorkerEvent → Prop) event with
    | .connected => ∀ client' out, { client with
          connected := true
          buffer := []
          channel := { client.channel with inbox := inbox } }.sendAll client.buffer = (client', out) →
        Stage client' { session with handed := session.handed ++ out.filterMap Node.Sent.response? }
    | .disconnected => Stage { client with
        connected := false
        channel := { client.channel with inbox := inbox } } session
    | .message _ => Stage { client with channel := { client.channel with inbox := inbox } } session := by
  cases stage with
  | waiting _ hinbox =>
    rw [hinbox] at h
    cases h
  | announced requests _ hinbox hlink hhanded hresponses =>
    rw [hinbox] at h
    cases h
    intro client' out hsend
    refine Stage.connect requests ?_ ?_ hhanded hresponses hsend
    · rfl
    · exact hlink
  | serving requests lost hconnected hinbox hlink hbuffer hresponses hlost =>
    rw [hinbox] at h
    rcases next_event h.symm with ⟨request, rest, rfl, rfl⟩ | ⟨rfl, rfl, hgone⟩
    · exact .serving rest lost hconnected rfl hlink hbuffer hresponses hlost
    · exact .ended lost rfl rfl hgone (by simp [hbuffer, hresponses]) hlost
  | ended _ _ hinbox =>
    rw [hinbox] at h
    cases h

/-- A turn that neither reads a request nor says anything leaves the session as it was. -/
theorem Session.note_nothing (hassigned : node.reassigned e = false) (hread : node.read e = none) :
    session.note node e [] = session := by
  simp [note, hassigned, hread, answers]

theorem drive_ok {branch : Branch → Bool} {event : E} {sent : List NodeWorker.Sent} :
    node.drive worker branch event = .ok (node', sent) ↔ branch (worker.branch event) = true ∧
      ∃ w, worker.step node.worker event = .ok (w, sent) ∧ node' = { node with worker := w } := by
  unfold Node.drive
  split
  · rename_i hbranch
    simp only [bind_ok, except_pure, Except.ok.injEq, Prod.mk.injEq]
    constructor
    · rintro ⟨⟨w, sent'⟩, hstep, rfl, rfl⟩
      exact ⟨hbranch, w, hstep, rfl⟩
    · rintro ⟨_, w, hstep, rfl⟩
      exact ⟨(w, sent), hstep, rfl, rfl⟩
  · rename_i hbranch
    constructor
    · rintro ⟨⟩
    · rintro ⟨htrue, _⟩
      exact absurd htrue hbranch

theorem filterMap_worker (sent : List NodeWorker.Sent) :
    (sent.map Node.Sent.worker).filterMap Node.Sent.worker? = sent := by
  rw [List.filterMap_map]
  exact List.filterMap_some

theorem filterMap_worker_response (sent : List NodeWorker.Sent) :
    (sent.map Node.Sent.worker).filterMap Node.Sent.response? = [] := by
  rw [List.filterMap_eq_nil_iff]
  intro item hitem
  obtain ⟨_, _, rfl⟩ := List.mem_map.mp hitem
  rfl

/-- What a client is sent is no turn of the worker. -/
theorem sendAll_worker {items : List WorkerResponse} {client' : Client}
    (h : client.sendAll items = (client', out)) : out.filterMap Node.Sent.worker? = [] := by
  by_cases hconnected : client.connected = true
  · by_cases hclosed : client.channel.link = .closed
    · rw [Client.sendAll_closed hconnected hclosed] at h
      cases h
      rfl
    · rw [Client.sendAll_connected hconnected hclosed] at h
      cases h
      rw [List.filterMap_eq_nil_iff]
      intro item hitem
      obtain ⟨_, _, rfl⟩ := List.mem_map.mp hitem
      rfl
  · rw [Client.sendAll_apart (by simpa using hconnected)] at h
    cases h
    rfl

namespace Node.Serves

theorem reach {f : Channel WorkerEvent → Except Fault (Channel WorkerEvent)}
    (serves : Serves held session node)
    (keeps : ∀ client channel, Stage client session → f client.channel = .ok channel →
      Stage { client with channel := channel } session)
    (h : node.reach f = .ok (node', out)) : out = [] ∧ Serves held session node' := by
  unfold Node.reach at h
  split at h
  · cases h
  · rename_i client hclient
    simp only [bind_ok, except_pure, Except.ok.injEq, Prod.mk.injEq] at h
    obtain ⟨channel, hchannel, rfl, rfl⟩ := h
    refine ⟨rfl, ?_, serves.once⟩
    intro client' hclient'
    cases hclient'
    exact keeps client channel (serves.stage client hclient) hchannel

theorem nodeManager {reset : Option E} (accounts : worker.Accounts held)
    (serves : Serves held session node) (h : node.step worker (.nodeManager reset) = .ok (node', out)) :
    Serves held (session.note node (.nodeManager reset) out) node' := by
  simp only [Node.step] at h
  split at h
  · cases h
  · rename_i event inbox hinbox
    cases event with
    | connectionNotEstablished => cases h
    | connected =>
      cases h
      rw [Session.note_nothing (by simp [reassigned, hinbox]) rfl]
      exact ⟨serves.stage, serves.once⟩
    | disconnected =>
      cases h
      rw [Session.note_nothing (by simp [reassigned, hinbox]) rfl]
      exact ⟨serves.stage, serves.once⟩
    | message request =>
      have hassigned : node.reassigned (.nodeManager reset) = true := by simp [reassigned, hinbox]
      cases reset with
      | none => cases h
      | some event =>
        obtain ⟨⟨node₁, sent⟩, hdrive, h⟩ := bind_ok.mp h
        obtain ⟨hbranch, w, hstep, rfl⟩ := drive_ok.mp hdrive
        have hreset : worker.branch event = .reset := by
          revert hbranch
          cases worker.branch event <;> simp
        obtain ⟨_, hheld⟩ := accounts.reset _ _ _ _ hreset hstep
        have hnote : ∀ out, session.note node (.nodeManager (some event)) out = .empty := by
          intro out
          rw [Session.note, hassigned]
          rfl
        cases request with
        | assignClient addr =>
          cases h
          rw [hnote]
          refine ⟨?_, by simp [Session.empty, hheld]⟩
          intro client hclient
          cases hclient
          exact .waiting rfl rfl (.inl rfl) rfl rfl
        | unassignClient =>
          cases h
          rw [hnote]
          refine ⟨?_, by simp [Session.empty, hheld]⟩
          rintro client ⟨⟩

theorem recv {event : E} (accounts : worker.Accounts held)
    (serves : Serves held session node) (h : node.step worker (.recv event) = .ok (node', out)) :
    Serves held (session.note node (.recv event) out) node' := by
  simp only [Node.step] at h
  split at h
  · cases h
  · rename_i client hclient
    obtain ⟨⟨node₁, sent⟩, hdrive, h⟩ := bind_ok.mp h
    obtain ⟨hbranch, w, hstep, rfl⟩ := drive_ok.mp hdrive
    have hrecv : worker.branch event = .recv := by
      revert hbranch
      cases worker.branch event <;> simp
    cases hsend : client.sendAll (answers sent) with
    | mk client' out' =>
      simp only [hsend, except_pure, Except.ok.injEq, Prod.mk.injEq] at h
      obtain ⟨rfl, rfl⟩ := h
      have hnote : session.note node (.recv event) (sent.map .worker ++ out') =
          { session with
            responses := session.responses ++ answers sent
            handed := session.handed ++ out'.filterMap Sent.response? } := by
        simp only [Session.note, reassigned, read, Bool.false_eq_true, ↓reduceIte,
          List.filterMap_append, filterMap_worker, filterMap_worker_response, sendAll_worker hsend,
          Option.toList_none, List.append_nil, List.nil_append]
      rw [hnote]
      refine ⟨?_, ?_⟩
      · intro client₁ hclient₁
        cases hclient₁
        exact (serves.stage client hclient).sendAll hsend
      · rw [List.flatMap_append, List.append_assoc]
        exact ((List.subperm_append_left _).mpr (accounts.recv _ _ _ _ hrecv hstep)).trans serves.once

/-- The node reads the next event of its client. -/
theorem request {process : Option E} (accounts : worker.Accounts held)
    (serves : Serves held session node) (h : node.step worker (.request process) = .ok (node', out)) :
    Serves held (session.note node (.request process) out) node' := by
  simp only [Node.step] at h
  split at h
  · cases h
  rename_i client hclient
  split at h
  · cases h
  rename_i event inbox hinbox
  have stage := serves.stage client hclient
  cases event with
  | connected =>
    have hread : node.read (.request process) = none := by simp [read, hclient, hinbox]
    simp only [Node.processRequest] at h
    cases hsend : Client.sendAll { client with
        connected := true
        buffer := []
        channel := { client.channel with inbox := inbox } } client.buffer with
    | mk client' out' =>
      rw [hsend] at h
      cases h
      have hnote : session.note node (.request process) out' =
          { session with handed := session.handed ++ out'.filterMap Sent.response? } := by
        simp [Session.note, reassigned, hread, sendAll_worker hsend, answers]
      rw [hnote]
      refine ⟨?_, serves.once⟩
      intro client₁ hclient₁
      cases hclient₁
      exact stage.read hinbox client' out' hsend
  | disconnected =>
    have hread : node.read (.request process) = none := by simp [read, hclient, hinbox]
    cases h
    rw [Session.note_nothing rfl hread]
    refine ⟨?_, serves.once⟩
    intro client' hclient'
    cases hclient'
    exact stage.read hinbox
  | message request =>
    have hread : node.read (.request process) = some request := by simp [read, hclient, hinbox]
    cases process with
    | none => cases h
    | some event =>
      obtain ⟨⟨node₁, sent⟩, hdrive, h⟩ := bind_ok.mp h
      obtain ⟨hbranch, w, hstep, rfl⟩ := drive_ok.mp hdrive
      have hprocess : worker.branch event = .process request := by
        revert hbranch
        cases worker.branch event <;> simp
      obtain ⟨client', out', hsend, rfl, rfl⟩ : ∃ client' out',
          Client.sendAll { client with channel := { client.channel with inbox := inbox } }
            (answers sent) = (client', out') ∧
          node' = { node with worker := w, client := some client' } ∧
          out = sent.map .worker ++ out' := by
        have hsingle := accounts.single _ _ _ _ _ hprocess hstep
        dsimp only at h
        split at h
        · rename_i hnone
          cases h
          exact ⟨_, [], by rw [hnone]; rfl, rfl, by simp⟩
        · rename_i response rest hanswers
          obtain rfl : rest = [] := by
            rw [hanswers] at hsingle
            simpa using hsingle
          split at h
          · rename_i client' sent' hsend
            cases h
            exact ⟨client', sent', by simp [hanswers, Client.sendAll, hsend], rfl, rfl⟩
          · cases h
      have hnote : session.note node (.request (some event)) (sent.map .worker ++ out') =
          { requests := session.requests ++ [request]
            responses := session.responses ++ answers sent
            handed := session.handed ++ out'.filterMap Sent.response? } := by
        simp only [Session.note, reassigned, hread, Bool.false_eq_true, ↓reduceIte,
          List.filterMap_append, filterMap_worker, filterMap_worker_response, sendAll_worker hsend,
          Option.toList_some, List.append_nil, List.nil_append]
      rw [hnote]
      refine ⟨?_, ?_⟩
      · intro client₁ hclient₁
        cases hclient₁
        exact (Stage.sendAll (stage.read hinbox) hsend).congr rfl rfl
      · have honce := accounts.process _ _ _ _ _ hprocess hstep
        rw [List.flatMap_append, List.flatMap_append, List.append_assoc, List.flatMap_singleton]
        refine ((List.subperm_append_left _).mpr honce).trans ?_
        rw [← List.append_assoc]
        exact (List.subperm_append_right _).mpr serves.once


theorem heartbeat (serves : Serves held session node)
    (h : node.step worker .heartbeat = .ok (node', out)) :
    Serves held (session.note node (.heartbeat : Event E) out) node' := by
  simp only [Node.step] at h
  split at h
  · cases h
  · cases h
    have hnote : session.note node (.heartbeat : Event E) [.heartbeat] = session := by
      have hworker : [Sent.heartbeat].filterMap Sent.worker? = [] := rfl
      have hresponse : [Sent.heartbeat].filterMap Sent.response? = [] := rfl
      simp [Session.note, reassigned, read, answers, hworker, hresponse]
    rw [hnote]
    exact serves

theorem executors {event : E} (accounts : worker.Accounts held) (serves : Serves held session node)
    (h : node.step worker (.executors event) = .ok (node', out)) :
    Serves held (session.note node (.executors event) out) node' := by
  simp only [Node.step] at h
  obtain ⟨⟨node₁, sent⟩, hdrive, h⟩ := bind_ok.mp h
  obtain ⟨hbranch, w, hstep, rfl⟩ := drive_ok.mp hdrive
  have hapart : worker.branch event = .apart := by
    revert hbranch
    cases worker.branch event <;> simp
  obtain ⟨hanswers, hheld⟩ := accounts.apart _ _ _ _ hapart hstep
  cases h
  have hnote : session.note node (.executors event) (sent.map .worker) = session := by
    simp only [Session.note, reassigned, read, Bool.false_eq_true, ↓reduceIte, filterMap_worker,
      filterMap_worker_response, hanswers, Option.toList_none, List.append_nil]
  rw [hnote]
  exact ⟨serves.stage, by rw [hheld]; exact serves.once⟩

/-- The channel to the node manager is no matter of the client. -/
theorem manager {event : Node.Event E} {channel : Except Fault (Channel NodeManagerEvent)}
    (serves : Serves held session node) (hassigned : node.reassigned event = false)
    (hread : node.read event = none)
    (h : (do return ({ node with nodeManager := ← channel }, [])) = Except.ok (node', out)) :
    Serves held (session.note node event out) node' := by
  simp only [bind_ok, except_pure, Except.ok.injEq, Prod.mk.injEq] at h
  obtain ⟨_, _, rfl, rfl⟩ := h
  rw [Session.note_nothing hassigned hread]
  exact ⟨serves.stage, serves.once⟩

theorem step (accounts : worker.Accounts held) (serves : Serves held session node)
    (h : node.step worker e = .ok (node', out)) : Serves held (session.note node e out) node' := by
  have reaches : ∀ f : Channel WorkerEvent → Except Fault (Channel WorkerEvent),
      (∀ client channel, Stage client session → f client.channel = .ok channel →
        Stage { client with channel := channel } session) →
      node.reassigned e = false → node.read e = none → node.reach f = .ok (node', out) →
        Serves held (session.note node e out) node' := by
    intro f keeps hassigned hread hreach
    obtain ⟨rfl, hserves⟩ := serves.reach keeps hreach
    rw [Session.note_nothing hassigned hread]
    exact hserves
  cases e with
  | managerConnected | managerMessage | managerDisconnected | managerNotConnected | managerClosed =>
    exact serves.manager rfl rfl h
  | clientConnected =>
    exact reaches (fun channel => channel.push .connected .waiting .opened)
      (fun _ _ stage hpush => stage.push_connected hpush) rfl rfl h
  | clientMessage request =>
    exact reaches (fun channel => channel.push (.message request) .opened .opened)
      (fun _ _ stage hpush => stage.push (.inl ⟨request, rfl, rfl⟩) hpush) rfl rfl h
  | clientDisconnected =>
    exact reaches (fun channel => channel.push .disconnected .opened .ending)
      (fun _ _ stage hpush => stage.push (.inr ⟨rfl, rfl⟩) hpush) rfl rfl h
  | clientClosed =>
    exact reaches Channel.close (fun _ _ stage hclose => stage.close hclose) rfl rfl h
  | executors event => exact serves.executors accounts h
  | nodeManager reset => exact serves.nodeManager accounts h
  | heartbeat => exact serves.heartbeat h
  | request process => exact serves.request accounts h
  | recv event => exact serves.recv accounts h

end Node.Serves

/-- The responses of the worker have been handed to the client's task, lost on its closed channel, or
kept for it, in this order. -/
def Client.HandsOver (client : Client) (session : Session) : Prop :=
  ∃ lost, session.responses = session.handed ++ lost ++ client.buffer ∧
    (lost ≠ [] → client.channel.link = .closed) ∧ (client.connected = true → client.buffer = []) ∧
      (client.channel.link = .waiting → session.handed = [])

theorem Stage.handsOver (stage : Stage client session) : client.HandsOver session := by
  cases stage with
  | waiting hconnected _ _ hhanded hresponses =>
    exact ⟨[], by simp [hhanded, hresponses], fun hne => absurd rfl hne, by simp [hconnected],
      fun _ => hhanded⟩
  | announced _ hconnected _ _ hhanded hresponses =>
    exact ⟨[], by simp [hhanded, hresponses], fun hne => absurd rfl hne, by simp [hconnected],
      fun _ => hhanded⟩
  | serving _ lost _ _ hlink hbuffer hresponses hlost =>
    exact ⟨lost, by simp [hbuffer, hresponses], hlost, fun _ => hbuffer, fun h => absurd h hlink⟩
  | ended lost hconnected _ hlink hresponses hlost =>
    refine ⟨lost, hresponses, hlost, by simp [hconnected], ?_⟩
    intro h
    simp [h] at hlink

theorem serves_of_run {meets : Node W → Node.Event E → Prop} {w : W} {es : List (Node.Event E)}
    (accounts : worker.Accounts held) (fresh : held w = [])
    (run : Run (Node.step worker) meets (.new w) es out node) :
    node.Serves held (history (Node.step worker) Session.note .empty (.new w) es) := by
  apply run.invariant_history Session.note
    (I := fun session _ _ node => node.Serves held session)
  · refine ⟨?_, ?_⟩
    · rintro client ⟨⟩
    · simp [Session.empty, Node.new, fresh]
  · intro session _ _ node e node' out' serves _ taken
    exact serves.step accounts taken

end

end GridServer.NodeWorker
