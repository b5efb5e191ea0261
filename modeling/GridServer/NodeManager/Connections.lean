import GridServer.NodeManager.Expirations

namespace GridServer.NodeManager
open Library

/-- The id that the event is about. A node that connects does not know its id yet. -/
def NodeEvent.id? : NodeEvent → Option Id
  | .connect .. => none
  | .disconnect id => some id
  | .heartbeat id => some id

def Sent.answer? : Sent → Option (Connection × Id)
  | .returned connection id => some (connection, id)
  | _ => none

/-- The manager and the connections of the nodes. Of each connection there is one task, which sends
`Connect`, waits for its id, forwards what the node sends and ends with one `Disconnect`. -/
structure System where
  manager : State
  /-- What waits in the manager's stream of node events, each with the connection it is from. -/
  nodeEvents : List (Connection × NodeEvent)
  /-- The connections that know their id and have not ended. -/
  links : List (Connection × Id)
  /-- All connections there have been. -/
  seen : List Connection
  /-- The connections that lose what is written to them. -/
  broken : List Connection

namespace System

/-- The steps of the tasks, of the network and of the manager, in any order. -/
inductive Event where
  | connects (connection : Connection) (uuid : Uuid) (name : Option String) (platform : Platform)
      (subworkers : Nat) (address : SocketAddr)
  | sends (connection : Connection) (id : Id)
  | ends (connection : Connection) (id : Id)
  | breaks (connection : Connection)
  | delivers (fresh : Fresh)
  | expired (key : Key)
  | scheduler (event : SchedulerEvent) (fresh : Fresh)
  | processQueue
deriving DecidableEq, Repr

/-- Nobody is connected. -/
def new : System :=
  { manager := .new
    nodeEvents := []
    links := []
    seen := []
    broken := [] }

/-- A turn of the manager that takes none of the node events. -/
def turn (checks : Bool) (s : System) (event : NodeManager.Event) :
    Except Fault (System × List Sent) := do
  let (manager, out) ← s.manager.step checks event
  return ({ s with manager := manager }, out)

def step (checks : Bool) (s : System) : Event → Except Fault (System × List Sent)
  | .connects connection uuid name platform subworkers address =>
    if connection ∈ s.seen then .error .notReady
    else .ok ({ s with
      seen := connection :: s.seen
      nodeEvents := s.nodeEvents ++
        [(connection, .connect uuid name platform subworkers address connection)] }, [])
  | .sends connection id =>
    if (connection, id) ∈ s.links then
      .ok ({ s with nodeEvents := s.nodeEvents ++ [(connection, .heartbeat id)] }, [])
    else .error .notReady
  | .ends connection id =>
    if (connection, id) ∈ s.links then .ok ({ s with
      nodeEvents := s.nodeEvents ++ [(connection, .disconnect id)]
      links := s.links.filter fun link => link.1 ≠ connection }, [])
    else .error .notReady
  | .breaks connection => .ok ({ s with broken := connection :: s.broken }, [])
  | .delivers fresh =>
    match s.nodeEvents with
    | [] => .error .notReady
    | (_, event) :: events => do
      let (manager, out) ← s.manager.step checks (.node event fresh)
      return ({ s with
        manager := manager
        nodeEvents := events
        links := s.links ++ out.filterMap Sent.answer? }, out)
  | .expired key => s.turn checks (.expired key)
  | .scheduler event fresh => s.turn checks (.scheduler event fresh)
  | .processQueue => s.turn checks .processQueue

end System

/-- The slot that the event gives to a new session. -/
def Sessions.enters? (r : Sessions) : Event → Option Id
  | .node (.connect uuid _ _ _ _ _) fresh =>
    if (r.disconnected uuid).isSome then none else some fresh.id
  | _ => none

/-- A slot has the session it had before, or is given to a new one. -/
theorem Sessions.node_of_apply {r : Sessions} {e : Event} {id : Id} {session : Uuid × Key}
    (h : (r.apply e).nodes id = some session) :
    r.nodes id = some session ∨ r.enters? e = some id := by
  cases e with
  | node event fresh =>
    cases event with
    | connect uuid name platform subworkers address connection =>
      simp only [Sessions.apply] at h
      split at h
      · exact .inl h
      · rename_i hnew
        by_cases hid : id = fresh.id
        · simp [Sessions.enters?, hnew, hid]
        · dsimp only at h
          rw [Function.update_of_ne hid] at h
          exact .inl h
    | disconnect id' =>
      simp only [Sessions.apply] at h
      split at h
      · exact .inl h
      · exact .inl h
    | heartbeat id' => exact .inl h
  | expired key =>
    simp only [Sessions.apply] at h
    split at h
    · rename_i w _
      split at h
      · exact .inl h
      · dsimp only at h
        by_cases hid : id = w
        · subst hid
          simp at h
        · rw [Function.update_of_ne hid] at h
          exact .inl h
    · exact .inl h
    · exact .inl h
  | scheduler event fresh =>
    cases event with
    | connect uuid name address connection =>
      simp only [Sessions.apply] at h
      split at h
      · exact .inl h
      · exact .inl h
    | disconnect id' =>
      simp only [Sessions.apply] at h
      split at h
      · exact .inl h
      · exact .inl h
    | message id' request => exact .inl h
  | processQueue => exact .inl h

/-- A scheduler keeps its slot and its address. -/
theorem Sessions.scheduler_of_apply {r : Sessions} {e : Event} (admits : r.Admits e) {i : Id}
    {session : Uuid × SocketAddr} (h : r.schedulers i = some session) :
    (r.apply e).schedulers i = some session := by
  cases e with
  | node event fresh =>
    cases event with
    | connect uuid name platform subworkers address connection =>
      simp only [Sessions.apply]
      split
      · exact h
      · exact h
    | disconnect id =>
      simp only [Sessions.apply]
      split
      · exact h
      · exact h
    | heartbeat id => exact h
  | expired key =>
    simp only [Sessions.apply]
    split
    · split
      · exact h
      · exact h
    · exact h
    · exact h
  | scheduler event fresh =>
    cases event with
    | connect uuid name address connection =>
      simp only [Sessions.apply]
      cases hd : r.disconnected uuid with
      | some entry => exact h
      | none =>
        simp only [Sessions.Admits, hd] at admits
        have hne : i ≠ fresh.id := by
          intro heq
          rw [heq, admits] at h
          cases h
        exact (Function.update_of_ne hne ..).trans h
    | disconnect id =>
      simp only [Sessions.apply]
      split
      · exact h
      · exact h
    | message id request => exact h
  | processQueue => exact h

namespace State
variable {checks : Bool} {s t : State} {out : List Sent} {id : Id}

theorem live_iff : (s.workers.get id).isSome ↔ (s.sessions.nodes id).isSome := by
  simp [sessions, tally]

theorem live_of_step {e : Event} (h : s.step checks e = .ok (t, out))
    (live : (t.workers.get id).isSome) :
    (s.workers.get id).isSome ∨ s.sessions.enters? e = some id := by
  rw [live_iff, (step_sessions h).2] at live
  rw [live_iff]
  obtain ⟨session, hsession⟩ := Option.isSome_iff_exists.mp live
  cases Sessions.node_of_apply hsession with
  | inl hold => exact .inl (Option.isSome_iff_exists.mpr ⟨session, hold⟩)
  | inr hnew => exact .inr hnew

/-- The slot of the session that a node establishes or restores. -/
def slotOf (s : State) (uuid : Uuid) (fresh : Fresh) : Id :=
  ((s.disconnected uuid).map Prod.fst).getD fresh.id

/-- The answers to an event: every `Connect` is told its slot. -/
def answers (s : State) (fresh : Fresh) : NodeEvent → List (Connection × Id)
  | .connect uuid _ _ _ _ connection => [(connection, s.slotOf uuid fresh)]
  | .disconnect _ => []
  | .heartbeat _ => []

theorem processNode_answers {event : NodeEvent} {fresh : Fresh}
    (h : s.processNode event fresh = .ok (t, out)) :
    out.filterMap Sent.answer? = s.answers fresh event := by
  cases event with
  | connect uuid name platform subworkers address connection =>
    simp only [processNode] at h
    cases hd : s.disconnected uuid with
    | some entry =>
      obtain ⟨id, key⟩ := entry
      simp only [hd, restoreNodeSession, bind_ok, except_pure, Except.ok.injEq, Prod.mk.injEq] at h
      obtain ⟨node, _, _, _, _, rfl⟩ := h
      have hbuffer : ∀ buffer : List NodeRequest,
          (buffer.map (Sent.node connection)).filterMap Sent.answer? = [] := by
        intro buffer
        simp [List.filterMap_map, Function.comp_def, Sent.answer?]
      rw [List.filterMap_append, hbuffer, answers, slotOf, hd]
      rfl
    | none =>
      simp only [hd] at h
      split at h
      · cases h
      · simp only [Except.ok.injEq, Prod.mk.injEq] at h
        rw [← h.2, answers, slotOf, hd]
        rfl
  | disconnect id =>
    simp only [processNode] at h
    split at h
    · simp only [Except.ok.injEq, Prod.mk.injEq] at h
      rw [← h.2]
      rfl
    · simp only [Except.ok.injEq, Prod.mk.injEq] at h
      rw [← h.2]
      rfl
  | heartbeat id =>
    simp only [processNode] at h
    split at h
    · simp only [Except.ok.injEq, Prod.mk.injEq] at h
      rw [← h.2]
      rfl
    · simp only [bind_ok, except_pure, Except.ok.injEq, Prod.mk.injEq] at h
      obtain ⟨_, _, _, rfl⟩ := h
      rfl

/-- From `s` to `t` nothing has changed but the session in the slot. -/
structure OnlySession (s : State) (id : Id) (t : State) : Prop where
  vacant : s.workers.get id = none → t.workers.get id = none
  others : ∀ j, j ≠ id → t.workers.get j = s.workers.get j
  entries : ∀ uuid, t.disconnected uuid = s.disconnected uuid ∨
    ∃ node, s.workers.get id = some node ∧ node.uuid = uuid ∧ s.disconnected uuid = none ∧
      t.disconnected uuid = some (id, node.expirationKey)
  expirations : t.expirations = s.expirations
  schedulers : t.schedulers = s.schedulers
  demands : t.workersDemandsQueue = s.workersDemandsQueue
  unassigned : t.unassignedWorkers = s.unassignedWorkers

theorem OnlySession.refl (s : State) (id : Id) : s.OnlySession id s :=
  ⟨fun h => h, fun _ _ => rfl, fun _ => .inl rfl, rfl, rfl, rfl, rfl⟩

theorem processNode_onlySession {event : NodeEvent} {fresh : Fresh} (hid : event.id? = some id)
    (h : s.processNode event fresh = .ok (t, out))
    (apart : event = .disconnect id → ∀ node ∈ s.workers.get id,
      ∀ entry ∈ s.disconnected node.uuid, entry = (id, node.expirationKey)) :
    s.OnlySession id t := by
  cases event with
  | connect uuid name platform subworkers address connection => cases hid
  | disconnect id' =>
    obtain rfl : id' = id := Option.some.inj hid
    simp only [processNode] at h
    split at h
    · simp only [Except.ok.injEq, Prod.mk.injEq] at h
      exact h.1 ▸ .refl s id'
    · rename_i node hn
      simp only [Except.ok.injEq, Prod.mk.injEq] at h
      obtain ⟨rfl, _⟩ := h
      refine ⟨?_, ?_, ?_, rfl, rfl, rfl, rfl⟩
      · intro hnone
        rw [hn] at hnone
        cases hnone
      · intro j hj
        rw [VecMap.get_write (by rw [hn]; rfl), Function.update_of_ne hj]
      · intro uuid
        dsimp only
        by_cases hu : uuid = node.uuid
        · subst hu
          rw [Function.update_self]
          cases hd : s.disconnected node.uuid with
          | none => exact .inr ⟨node, hn, rfl, rfl, rfl⟩
          | some entry => exact .inl (congrArg some (apart rfl node hn entry hd).symm)
        · exact .inl (Function.update_of_ne hu ..)
  | heartbeat id' =>
    simp only [processNode] at h
    split at h
    · simp only [Except.ok.injEq, Prod.mk.injEq] at h
      exact h.1 ▸ .refl s id
    · simp only [bind_ok, except_pure, Except.ok.injEq, Prod.mk.injEq, DelayQueue.reset_ok] at h
      obtain ⟨_, ⟨_, rfl⟩, rfl, _⟩ := h
      exact .refl s id

end State

/-- The connection that tells the manager of itself with this event. -/
def NodeEvent.connection? : NodeEvent → Option Connection
  | .connect _ _ _ _ _ connection => some connection
  | .disconnect _ => none
  | .heartbeat _ => none

namespace System
variable {checks : Bool} {s t : System} {e : Event} {es : List Event} {out out' : List Sent}

/-- The connections that have not been told their id. -/
def waiting (s : System) : List Connection := s.nodeEvents.filterMap fun e => e.2.connection?

/-- What the tasks of the connections keep to: one `Connect` each, and everything else after it. -/
structure Orderly (s : System) : Prop where
  known : ∀ c event, (c, event) ∈ s.nodeEvents → c ∈ s.seen
  linked : ∀ c id, (c, id) ∈ s.links → c ∈ s.seen
  connects : ∀ c event c', (c, event) ∈ s.nodeEvents → event.connection? = some c' → c' = c
  once : s.waiting.Nodup
  unlinked : ∀ c ∈ s.waiting, ∀ id, (c, id) ∉ s.links
  silent : ∀ c ∈ s.waiting, ∀ event, (c, event) ∈ s.nodeEvents → event.id? = none

theorem orderly_new : System.new.Orderly := by
  constructor
  all_goals simp [System.new, waiting]

theorem Orderly.push (o : s.Orderly) {c : Connection} {id : Id} {event : NodeEvent}
    (hid : event.id? = some id) (hlink : (c, id) ∈ s.links) {links : List (Connection × Id)}
    (hsub : links ⊆ s.links) :
    Orderly { s with nodeEvents := s.nodeEvents ++ [(c, event)], links := links } := by
  have hnone : event.connection? = none := by
    cases event with
    | connect => cases hid
    | disconnect => rfl
    | heartbeat => rfl
  have hwaiting : waiting { s with nodeEvents := s.nodeEvents ++ [(c, event)], links := links } =
      s.waiting := by simp [waiting, hnone]
  refine ⟨?_, ?_, ?_, ?_, ?_, ?_⟩
  · intro c' event' h
    cases List.mem_append.mp h with
    | inl h => exact o.known c' event' h
    | inr h =>
      rw [List.mem_singleton, Prod.mk.injEq] at h
      exact h.1 ▸ o.linked c id hlink
  · exact fun c' id' h => o.linked c' id' (hsub h)
  · intro c' event' c'' h hc
    cases List.mem_append.mp h with
    | inl h => exact o.connects c' event' c'' h hc
    | inr h =>
      rw [List.mem_singleton, Prod.mk.injEq] at h
      rw [h.2, hnone] at hc
      cases hc
  · rw [hwaiting]
    exact o.once
  · rw [hwaiting]
    exact fun c' hc' id' h => o.unlinked c' hc' id' (hsub h)
  · rw [hwaiting]
    intro c' hc' event' h
    cases List.mem_append.mp h with
    | inl h => exact o.silent c' hc' event' h
    | inr h =>
      rw [List.mem_singleton, Prod.mk.injEq] at h
      exact absurd hlink (h.1 ▸ o.unlinked c' hc' id)

theorem Orderly.connect (o : s.Orderly) {c : Connection} (hc : c ∉ s.seen) {event : NodeEvent}
    (hevent : event.connection? = some c) :
    Orderly { s with seen := c :: s.seen, nodeEvents := s.nodeEvents ++ [(c, event)] } := by
  have hnone : event.id? = none := by
    cases event with
    | connect => rfl
    | disconnect => cases hevent
    | heartbeat => cases hevent
  have hwaiting : waiting { s with
      seen := c :: s.seen, nodeEvents := s.nodeEvents ++ [(c, event)] } = s.waiting ++ [c] := by
    simp [waiting, hevent]
  have hold : ∀ c' ∈ s.waiting, c' ∈ s.seen := by
    intro c' h
    obtain ⟨⟨c'', event'⟩, hmem, hc'⟩ := List.mem_filterMap.mp h
    rw [o.connects c'' event' c' hmem hc']
    exact o.known c'' event' hmem
  refine ⟨?_, ?_, ?_, ?_, ?_, ?_⟩
  · intro c' event' h
    cases List.mem_append.mp h with
    | inl h => exact List.mem_cons_of_mem _ (o.known c' event' h)
    | inr h =>
      rw [List.mem_singleton, Prod.mk.injEq] at h
      rw [h.1]
      exact List.mem_cons_self
  · exact fun c' id h => List.mem_cons_of_mem _ (o.linked c' id h)
  · intro c' event' c'' h hc'
    cases List.mem_append.mp h with
    | inl h => exact o.connects c' event' c'' h hc'
    | inr h =>
      rw [List.mem_singleton, Prod.mk.injEq] at h
      rw [h.2, hevent, Option.some.injEq] at hc'
      exact hc'.symm.trans h.1.symm
  · rw [hwaiting, List.nodup_append]
    refine ⟨o.once, by simp, ?_⟩
    intro a ha b hb hab
    rw [List.mem_singleton] at hb
    exact hc (hb ▸ hab ▸ hold a ha)
  · rw [hwaiting]
    intro c' hc' id h
    cases List.mem_append.mp hc' with
    | inl hc' => exact o.unlinked c' hc' id h
    | inr hc' =>
      rw [List.mem_singleton] at hc'
      exact hc (hc' ▸ o.linked c' id h)
  · rw [hwaiting]
    intro c' hc' event' h
    cases List.mem_append.mp h with
    | inr h =>
      rw [List.mem_singleton, Prod.mk.injEq] at h
      rw [h.2]
      exact hnone
    | inl h =>
      cases List.mem_append.mp hc' with
      | inl hc' => exact o.silent c' hc' event' h
      | inr hc' =>
        rw [List.mem_singleton] at hc'
        exact absurd (o.known c' event' h) (hc' ▸ hc)

theorem Orderly.deliver (o : s.Orderly) {c : Connection} {event : NodeEvent}
    {events : List (Connection × NodeEvent)} (hq : s.nodeEvents = (c, event) :: events)
    {answers : List (Connection × Id)} (ha : ∀ a ∈ answers, event.connection? = some a.1)
    (manager : State) :
    Orderly { s with
      manager := manager, nodeEvents := events, links := s.links ++ answers } := by
  have hmem : ∀ c' event', (c', event') ∈ events → (c', event') ∈ s.nodeEvents := by
    intro c' event' h
    rw [hq]
    exact List.mem_cons_of_mem _ h
  have hwaiting : s.waiting =
      event.connection?.toList ++ events.filterMap (fun e => e.2.connection?) := by
    rw [waiting, hq, List.filterMap_cons]
    cases event.connection? with
    | none => rfl
    | some c' => rfl
  have honce := o.once
  rw [hwaiting, List.nodup_append] at honce
  have hsub : ∀ c' ∈ events.filterMap (fun e => e.2.connection?), c' ∈ s.waiting := by
    intro c' h
    rw [hwaiting]
    exact List.mem_append_right _ h
  have hanswer : ∀ a ∈ answers, a.1 = c := fun a h =>
    o.connects c event a.1 (by rw [hq]; exact List.mem_cons_self) (ha a h)
  refine ⟨?_, ?_, ?_, honce.2.1, ?_, ?_⟩
  · exact fun c' event' h => o.known c' event' (hmem c' event' h)
  · intro c' id h
    cases List.mem_append.mp h with
    | inl h => exact o.linked c' id h
    | inr h =>
      rw [show c' = c from hanswer _ h]
      exact o.known c event (by rw [hq]; exact List.mem_cons_self)
  · exact fun c' event' c'' h hc => o.connects c' event' c'' (hmem c' event' h) hc
  · intro c' hc' id h
    cases List.mem_append.mp h with
    | inl h => exact o.unlinked c' (hsub c' hc') id h
    | inr h =>
      have hevent := ha _ h
      exact honce.2.2 c' (by rw [hevent]; simp) c' hc' rfl
  · exact fun c' hc' event' h => o.silent c' (hsub c' hc') event' (hmem c' event' h)

/-- A turn of the manager changes neither the events that wait nor the links. -/
theorem turn_ok {event : NodeManager.Event} (h : s.turn checks event = .ok (t, out)) :
    s.manager.step checks event = .ok (t.manager, out) ∧ t = { s with manager := t.manager } := by
  simp only [turn, bind_ok, except_pure, Except.ok.injEq, Prod.mk.injEq] at h
  obtain ⟨r, hr, rfl, rfl⟩ := h
  exact ⟨hr, rfl⟩

theorem delivers_ok {fresh : Fresh} (h : s.step checks (.delivers fresh) = .ok (t, out)) :
    ∃ c event events, s.nodeEvents = (c, event) :: events ∧
      s.manager.processNode event fresh = .ok (t.manager, out) ∧
      t = { s with
        manager := t.manager
        nodeEvents := events
        links := s.links ++ s.manager.answers fresh event } := by
  simp only [step] at h
  split at h
  · cases h
  · rename_i c event events hq
    simp only [bind_ok, except_pure, Except.ok.injEq, Prod.mk.injEq] at h
    obtain ⟨r, hr, rfl, rfl⟩ := h
    refine ⟨c, event, events, hq, hr, ?_⟩
    rw [State.processNode_answers hr]

theorem answers_connection {manager : State} {event : NodeEvent} {fresh : Fresh} :
    ∀ a ∈ manager.answers fresh event, event.connection? = some a.1 := by
  intro a ha
  cases event with
  | connect uuid name platform subworkers address connection =>
    rw [State.answers, List.mem_singleton] at ha
    rw [ha]
    rfl
  | disconnect id => cases ha
  | heartbeat id => cases ha

theorem step_orderly (o : s.Orderly) (h : s.step checks e = .ok (t, out)) : t.Orderly := by
  have hturn : ∀ event, s.turn checks event = .ok (t, out) → t.Orderly := by
    intro event h
    rw [(turn_ok h).2]
    exact ⟨o.known, o.linked, o.connects, o.once, o.unlinked, o.silent⟩
  cases e with
  | connects c uuid name platform subworkers address =>
    simp only [step] at h
    split at h
    · cases h
    · rename_i hc
      simp only [Except.ok.injEq, Prod.mk.injEq] at h
      exact h.1 ▸ o.connect hc rfl
  | sends c id =>
    simp only [step] at h
    split at h
    · rename_i hlink
      simp only [Except.ok.injEq, Prod.mk.injEq] at h
      exact h.1 ▸ o.push (rfl : (NodeEvent.heartbeat id).id? = some id) hlink (List.Subset.refl _)
    · cases h
  | ends c id =>
    simp only [step] at h
    split at h
    · rename_i hlink
      simp only [Except.ok.injEq, Prod.mk.injEq] at h
      exact h.1 ▸ o.push (rfl : (NodeEvent.disconnect id).id? = some id) hlink
        (List.filter_subset_self _)
    · cases h
  | breaks c =>
    simp only [step, Except.ok.injEq, Prod.mk.injEq] at h
    rw [← h.1]
    exact ⟨o.known, o.linked, o.connects, o.once, o.unlinked, o.silent⟩
  | delivers fresh =>
    obtain ⟨c, event, events, hq, _, ht⟩ := delivers_ok h
    rw [ht]
    exact o.deliver hq answers_connection _
  | expired key => exact hturn _ h
  | scheduler event fresh => exact hturn _ h
  | processQueue => exact hturn _ h

/-- Which connection established the session in a slot, and which session, named by the connection
that established it, a connection has established or restored. -/
structure Owners where
  occupant : Id → Connection
  owner : Connection → Connection

namespace Owners

def none : Owners := ⟨fun _ => 0, fun _ => 0⟩

def enter (g : Owners) (manager : State) (fresh : Fresh) : NodeEvent → Owners
  | .connect uuid _ _ _ _ connection =>
    match manager.disconnected uuid with
    | some (id, _) =>
      { g with owner := Function.update g.owner connection (g.occupant id) }
    | .none =>
      { occupant := Function.update g.occupant fresh.id connection
        owner := Function.update g.owner connection connection }
  | .disconnect _ => g
  | .heartbeat _ => g

def note (g : Owners) (s : System) (e : Event) (_ : List Sent) : Owners :=
  match e, s.nodeEvents with
  | .delivers fresh, (_, event) :: _ => g.enter s.manager fresh event
  | _, _ => g

end Owners

/-- A node that establishes a session is not given the slot of an earlier one whose connection has
not ended, or has not been heard to have ended; and no other session is waiting under the uuid of a
node that is heard to have lost its connection. -/
def Apart (s : System) : Event → Prop
  | .delivers fresh =>
    match s.nodeEvents with
    | (_, .connect uuid _ _ _ _ _) :: events => s.manager.disconnected uuid = .none →
        (∀ link ∈ s.links, link.2 ≠ fresh.id) ∧ ∀ e ∈ events, e.2.id? ≠ some fresh.id
    | (_, .disconnect id) :: _ => ∀ node ∈ s.manager.workers.get id,
        ∀ entry ∈ s.manager.disconnected node.uuid, entry = (id, node.expirationKey)
    | _ => True
  | _ => True

/-- Whatever a connection has sent or may send is about its own session. -/
structure Own (g : Owners) (s : System) : Prop where
  links : ∀ c id, (c, id) ∈ s.links → (s.manager.workers.get id).isSome →
    g.occupant id = g.owner c
  events : ∀ c event id, (c, event) ∈ s.nodeEvents → event.id? = some id →
    (s.manager.workers.get id).isSome → g.occupant id = g.owner c

/-- A turn of the manager makes no slot live. -/
theorem Own.turn {g : Owners} (own : Own g s) {event : NodeManager.Event}
    (henters : s.manager.sessions.enters? event = .none)
    (h : s.turn checks event = .ok (t, out)) : Own g t := by
  obtain ⟨hstep, ht⟩ := turn_ok h
  have hlive : ∀ id, (t.manager.workers.get id).isSome → (s.manager.workers.get id).isSome := by
    intro id live
    cases State.live_of_step hstep live with
    | inl h => exact h
    | inr h =>
      rw [henters] at h
      cases h
  rw [ht]
  refine ⟨?_, ?_⟩
  · exact fun c id hlink live => own.links c id hlink (hlive id live)
  · exact fun c event id he hid live => own.events c event id he hid (hlive id live)

theorem Own.push {g : Owners} (own : Own g s) {c : Connection} {id : Id} {event : NodeEvent}
    (hid : event.id? = some id) (hlink : (c, id) ∈ s.links) {links : List (Connection × Id)}
    (hsub : links ⊆ s.links) :
    Own g { s with nodeEvents := s.nodeEvents ++ [(c, event)], links := links } := by
  refine ⟨fun c' id' h => own.links c' id' (hsub h), ?_⟩
  intro c' event' id' h hid' live
  cases List.mem_append.mp h with
  | inl h => exact own.events c' event' id' h hid' live
  | inr h =>
    rw [List.mem_singleton, Prod.mk.injEq] at h
    obtain ⟨rfl, rfl⟩ := h
    rw [hid, Option.some.injEq] at hid'
    exact hid' ▸ own.links c' id hlink (hid' ▸ live)

/-- Once the manager has taken an event, every connection still holds its own session. -/
theorem Own.deliver {g : Owners} (own : Own g s) (o : s.Orderly) {fresh : Fresh} {c : Connection}
    {event : NodeEvent} {events : List (Connection × NodeEvent)}
    (hq : s.nodeEvents = (c, event) :: events) (apart : s.Apart (.delivers fresh))
    (h : s.manager.processNode event fresh = .ok (t.manager, out)) :
    Own (g.enter s.manager fresh event) { s with
      manager := t.manager
      nodeEvents := events
      links := s.links ++ s.manager.answers fresh event } := by
  have hmem : ∀ c' event', (c', event') ∈ events → (c', event') ∈ s.nodeEvents := by
    intro c' event' h
    rw [hq]
    exact List.mem_cons_of_mem _ h
  have hlive : ∀ id, s.manager.sessions.enters? (.node event fresh) ≠ some id →
      (t.manager.workers.get id).isSome → (s.manager.workers.get id).isSome := by
    intro id hne live
    have hstep : s.manager.step true (.node event fresh) = .ok (t.manager, out) := h
    exact (State.live_of_step hstep live).resolve_right hne
  cases event with
  | disconnect id =>
    refine ⟨?_, ?_⟩
    · intro c' id' hlink live
      rw [State.answers, List.append_nil] at hlink
      exact own.links c' id' hlink (hlive id' (by simp [Sessions.enters?]) live)
    · exact fun c' event' id' he hid live =>
        own.events c' event' id' (hmem c' event' he) hid (hlive id' (by simp [Sessions.enters?]) live)
  | heartbeat id =>
    refine ⟨?_, ?_⟩
    · intro c' id' hlink live
      rw [State.answers, List.append_nil] at hlink
      exact own.links c' id' hlink (hlive id' (by simp [Sessions.enters?]) live)
    · exact fun c' event' id' he hid live =>
        own.events c' event' id' (hmem c' event' he) hid (hlive id' (by simp [Sessions.enters?]) live)
  | connect uuid name platform subworkers address connection =>
    have hself : connection = c := o.connects c _ connection (by rw [hq]; exact List.mem_cons_self) rfl
    have hwaiting : connection ∈ s.waiting := by
      rw [waiting, hq]
      exact List.mem_cons_self
    -- nothing else is from this connection yet
    have hlinked : ∀ c' id', (c', id') ∈ s.links → c' ≠ connection := by
      intro c' id' hlink heq
      exact o.unlinked connection hwaiting id' (heq ▸ hlink)
    have hspoken : ∀ c' event' id', (c', event') ∈ events → event'.id? = some id' →
        c' ≠ connection := by
      intro c' event' id' he hid heq
      have hnone := o.silent connection hwaiting event' (heq ▸ hmem c' event' he)
      rw [hnone] at hid
      cases hid
    cases hd : s.manager.disconnected uuid with
    | some entry =>
      obtain ⟨id, key⟩ := entry
      have hlive := fun id' => hlive id' (by simp [Sessions.enters?, State.sessions, hd])
      refine ⟨?_, ?_⟩
      · intro c' id' hlink live
        simp only [Owners.enter, hd]
        cases List.mem_append.mp hlink with
        | inl hlink =>
          rw [Function.update_of_ne (hlinked c' id' hlink)]
          exact own.links c' id' hlink (hlive id' live)
        | inr hlink =>
          rw [State.answers, State.slotOf, hd, List.mem_singleton, Prod.mk.injEq] at hlink
          rw [hlink.1, hlink.2, Function.update_self]
          rfl
      · intro c' event' id' he hid live
        simp only [Owners.enter, hd]
        rw [Function.update_of_ne (hspoken c' event' id' he hid)]
        exact own.events c' event' id' (hmem c' event' he) hid (hlive id' live)
    | none =>
      simp only [Apart, hq] at apart
      obtain ⟨hlinks, hevents⟩ := apart hd
      have hlive : ∀ id', id' ≠ fresh.id → (t.manager.workers.get id').isSome →
          (s.manager.workers.get id').isSome := by
        intro id' hne
        apply hlive id'
        simp [Sessions.enters?, State.sessions, hd, Ne.symm hne]
      refine ⟨?_, ?_⟩
      · intro c' id' hlink live
        simp only [Owners.enter, hd]
        cases List.mem_append.mp hlink with
        | inl hlink =>
          have hne := hlinks (c', id') hlink
          rw [Function.update_of_ne (hlinked c' id' hlink), Function.update_of_ne hne]
          exact own.links c' id' hlink (hlive id' hne live)
        | inr hlink =>
          rw [State.answers, State.slotOf, hd, List.mem_singleton, Prod.mk.injEq] at hlink
          rw [hlink.1, hlink.2]
          simp
      · intro c' event' id' he hid live
        simp only [Owners.enter, hd]
        have hne : id' ≠ fresh.id := by
          intro heq
          exact hevents (c', event') he (heq ▸ hid)
        rw [Function.update_of_ne (hspoken c' event' id' he hid), Function.update_of_ne hne]
        exact own.events c' event' id' (hmem c' event' he) hid (hlive id' hne live)

theorem Own.step {g : Owners} (own : Own g s) (o : s.Orderly) (apart : s.Apart e)
    (h : s.step checks e = .ok (t, out)) : Own (g.note s e out) t := by
  cases e with
  | connects c uuid name platform subworkers address =>
    simp only [System.step] at h
    split at h
    · cases h
    · simp only [Except.ok.injEq, Prod.mk.injEq] at h
      rw [← h.1]
      refine ⟨own.links, ?_⟩
      intro c' event id he hid live
      cases List.mem_append.mp he with
      | inl he => exact own.events c' event id he hid live
      | inr he =>
        rw [List.mem_singleton, Prod.mk.injEq] at he
        rw [he.2] at hid
        cases hid
  | sends c id =>
    simp only [System.step] at h
    split at h
    · rename_i hlink
      simp only [Except.ok.injEq, Prod.mk.injEq] at h
      exact h.1 ▸ own.push (rfl : (NodeEvent.heartbeat id).id? = some id) hlink (List.Subset.refl _)
    · cases h
  | ends c id =>
    simp only [System.step] at h
    split at h
    · rename_i hlink
      simp only [Except.ok.injEq, Prod.mk.injEq] at h
      exact h.1 ▸ own.push (rfl : (NodeEvent.disconnect id).id? = some id) hlink
        (List.filter_subset_self _)
    · cases h
  | breaks c =>
    simp only [System.step, Except.ok.injEq, Prod.mk.injEq] at h
    rw [← h.1]
    exact ⟨own.links, own.events⟩
  | delivers fresh =>
    obtain ⟨c, event, events, hq, hstep, ht⟩ := delivers_ok h
    have hdeliver := own.deliver o hq apart hstep
    rw [ht]
    simp only [Owners.note, hq]
    exact hdeliver
  | expired key => exact own.turn rfl h
  | scheduler event fresh => exact own.turn rfl h
  | processQueue => exact own.turn rfl h

theorem own_of_run (run : Run (System.step checks) Apart .new es out s) :
    s.Orderly ∧ Own (history (System.step checks) Owners.note .none .new es) s := by
  apply run.invariant_history Owners.note (I := fun g _ _ s => s.Orderly ∧ Own g s)
  · exact ⟨orderly_new, by constructor <;> simp [System.new]⟩
  · intro g es out s e t out' hI apart taken
    exact ⟨step_orderly hI.1 taken, hI.2.step hI.1 apart taken⟩

/-- An event that a connection has sent under an id changes nothing but the session in that slot,
and that is the session which the connection has established or restored. -/
theorem run_changes_own {c : Connection} {event : NodeEvent}
    {events : List (Connection × NodeEvent)} {id : Id} {fresh : Fresh}
    (run : Run (System.step checks) Apart .new es out s)
    (hq : s.nodeEvents = (c, event) :: events) (hid : event.id? = some id)
    (apart : s.Apart (.delivers fresh)) (taken : s.step checks (.delivers fresh) = .ok (t, out')) :
    let g := history (System.step checks) Owners.note .none .new es
    ((s.manager.workers.get id).isSome → g.occupant id = g.owner c) ∧
      s.manager.OnlySession id t.manager := by
  obtain ⟨_, own⟩ := own_of_run run
  refine ⟨own.events c event id (by rw [hq]; exact List.mem_cons_self) hid, ?_⟩
  obtain ⟨c', event', events', hq', hstep, _⟩ := delivers_ok taken
  rw [hq, List.cons.injEq, Prod.mk.injEq] at hq'
  obtain ⟨⟨_, rfl⟩, _⟩ := hq'
  apply State.processNode_onlySession hid hstep
  rintro rfl
  simpa only [Apart, hq] using apart

instance (s : System) : ∀ e, Decidable (s.Apart e)
  | .delivers fresh =>
    match hq : s.nodeEvents with
    | [] => .isTrue (by simp [Apart, hq])
    | (_, .connect uuid _ _ _ _ _) :: events => decidable_of_iff
        (s.manager.disconnected uuid = .none →
          (∀ link ∈ s.links, link.2 ≠ fresh.id) ∧ ∀ e ∈ events, e.2.id? ≠ some fresh.id)
        (by simp only [Apart, hq])
    | (_, .disconnect id) :: _ => decidable_of_iff (∀ node ∈ s.manager.workers.get id,
        ∀ entry ∈ s.manager.disconnected node.uuid, entry = (id, node.expirationKey))
        (by simp only [Apart, hq])
    | (_, .heartbeat _) :: _ => .isTrue (by simp [Apart, hq])
  | .connects .. => .isTrue trivial
  | .sends .. => .isTrue trivial
  | .ends .. => .isTrue trivial
  | .breaks .. => .isTrue trivial
  | .expired .. => .isTrue trivial
  | .scheduler .. => .isTrue trivial
  | .processQueue => .isTrue trivial

/-- A node connects and loses its connection. -/
def leaves : List Event :=
  [.connects 0 1 none State.linux 1 ⟨[], 0⟩, .delivers ⟨0, 0⟩, .sends 0 0, .delivers ⟨0, 0⟩, .ends 0 0]

theorem run_changes_own_leaves : ∃ s t : System, ∃ out,
    s.step true (.delivers ⟨0, 0⟩) = .ok (t, out) ∧ s.manager.OnlySession 0 t.manager ∧
      (t.manager.disconnected 1).isSome := by
  obtain ⟨s, out, run, h⟩ := exists_run (System.step true) Apart .new leaves
    (fun r => r.1.nodeEvents = [(0, .disconnect 0)] ∧ r.1.Apart (.delivers ⟨0, 0⟩) ∧
      (r.1.step true (.delivers ⟨0, 0⟩)).toOption.any fun r => (r.1.manager.disconnected 1).isSome)
    (by decide)
  rw [decide_eq_true_eq] at h
  cases taken : s.step true (.delivers ⟨0, 0⟩) with
  | error fault => simp [taken, Except.toOption] at h
  | ok r =>
    refine ⟨s, r.1, r.2, taken, (run_changes_own run h.1 rfl h.2.1 taken).2, ?_⟩
    simpa [taken, Except.toOption] using h.2.2

/-- A node expires, another is given its slot, and only then the first one's connection ends. -/
def late : List Event :=
  [.connects 0 1 none State.linux 1 ⟨[], 0⟩, .delivers ⟨0, 0⟩, .expired 0,
    .connects 1 2 none State.linux 1 ⟨[], 0⟩, .delivers ⟨0, 1⟩, .ends 0 0]

/-- The late `Disconnect` marks the other node as disconnected. -/
theorem changes_another : ¬ ∀ es out s c event events id fresh t out',
    Run (System.step true) (fun _ _ => True) .new es out s →
      s.nodeEvents = (c, event) :: events → event.id? = some id →
        s.step true (.delivers fresh) = .ok (t, out') →
          let g := history (System.step true) Owners.note .none .new es
          ((s.manager.workers.get id).isSome → g.occupant id = g.owner c) ∧
            s.manager.OnlySession id t.manager := by
  intro h
  obtain ⟨s, out, run, hs⟩ := exists_run (System.step true) (fun _ _ => True) .new late
    (fun r => r.1.nodeEvents = [(0, .disconnect 0)] ∧ (r.1.manager.workers.get 0).isSome ∧
      (r.1.step true (.delivers ⟨0, 0⟩)).toOption.isSome) (by decide)
  rw [decide_eq_true_eq] at hs
  cases taken : s.step true (.delivers ⟨0, 0⟩) with
  | error fault => simp [taken, Except.toOption] at hs
  | ok r =>
    have hsame := (h late out s 0 _ _ 0 ⟨0, 0⟩ r.1 r.2 run hs.1 rfl taken).1 hs.2.1
    have hother : (history (System.step true) Owners.note .none .new late).occupant 0 ≠
        (history (System.step true) Owners.note .none .new late).owner 0 := by decide
    exact hother hsame

end System
end GridServer.NodeManager
