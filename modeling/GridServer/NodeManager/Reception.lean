import GridServer.NodeManager.Connections
import GridServer.NodeManager.Desks

namespace GridServer.NodeManager
open Library

/-- The id that the event is about. A scheduler that connects does not know its id yet. -/
def SchedulerEvent.id? : SchedulerEvent → Option Id
  | .connect .. => none
  | .disconnect id => some id
  | .message id _ => some id

/-- The connection that tells the manager of itself with this event. -/
def SchedulerEvent.connection? : SchedulerEvent → Option Connection
  | .connect _ _ _ connection => some connection
  | .disconnect _ => none
  | .message _ _ => none

/-- The manager and the connections of the schedulers. Of each connection there is one task, which
sends `Connect`, waits for its id, forwards what the scheduler says and ends with one `Disconnect`,
or with none when it is cancelled. -/
structure Reception where
  manager : State
  /-- What waits in the manager's stream of scheduler events, each with its connection. -/
  schedulerEvents : List (Connection × SchedulerEvent)
  /-- The connections that know their id and have not ended. -/
  links : List (Connection × Id)
  /-- All connections there have been. -/
  seen : List Connection

namespace Reception

/-- The steps of the tasks and of the manager, in any order. -/
inductive Event where
  | connects (connection : Connection) (uuid : Uuid) (name : Option String) (address : SocketAddr)
  | speaks (connection : Connection) (id : Id) (request : NodeManagerRequest)
  | ends (connection : Connection) (id : Id)
  | quits (connection : Connection) (id : Id)
  | delivers (fresh : Fresh)
  | node (event : NodeEvent) (fresh : Fresh)
  | expired (key : Key)
  | processQueue
deriving DecidableEq, Repr

/-- Nobody is connected. -/
def new : Reception :=
  { manager := .new
    schedulerEvents := []
    links := []
    seen := [] }

/-- A turn of the manager that takes none of the scheduler events. -/
def turn (checks : Bool) (s : Reception) (event : NodeManager.Event) :
    Except Fault (Reception × List Sent) := do
  let (manager, out) ← s.manager.step checks event
  return ({ s with manager := manager }, out)

def step (checks : Bool) (s : Reception) : Event → Except Fault (Reception × List Sent)
  | .connects connection uuid name address =>
    if connection ∈ s.seen then .error .notReady
    else .ok ({ s with
      seen := connection :: s.seen
      schedulerEvents := s.schedulerEvents ++
        [(connection, .connect uuid name address connection)] }, [])
  | .speaks connection id request =>
    if s.links.contains (connection, id) then
      .ok ({ s with schedulerEvents := s.schedulerEvents ++ [(connection, .message id request)] }, [])
    else .error .notReady
  | .ends connection id =>
    if s.links.contains (connection, id) then .ok ({ s with
      schedulerEvents := s.schedulerEvents ++ [(connection, .disconnect id)]
      links := s.links.filter fun link => link.1 ≠ connection }, [])
    else .error .notReady
  | .quits connection id =>
    if s.links.contains (connection, id) then
      .ok ({ s with links := s.links.filter fun link => link.1 ≠ connection }, [])
    else .error .notReady
  | .delivers fresh =>
    match s.schedulerEvents with
    | [] => .error .notReady
    | (_, event) :: events => do
      let (manager, out) ← s.manager.step checks (.scheduler event fresh)
      return ({ s with
        manager := manager
        schedulerEvents := events
        links := s.links ++ out.filterMap Sent.answer? }, out)
  | .node event fresh => s.turn checks (.node event fresh)
  | .expired key => s.turn checks (.expired key)
  | .processQueue => s.turn checks .processQueue

/-- No node has the uuid of a scheduler, and a build without overflow checks counts its workers. -/
def Fair (kind : Uuid → ServiceType) (checks : Bool) (s : Reception) (e : Event) : Prop :=
  s.manager.Fits checks ∧
    match e with
    | .connects _ uuid _ _ => kind uuid = .scheduler
    | .node (.connect uuid _ _ _ _ _) _ => kind uuid = .node
    | _ => True

/-- What has been written to the schedulers, by slot, since the manager last took a demand or its
release from them. -/
abbrev Heard := Id → List NodeManagerResponse

namespace Heard

/-- What is written to the connections that the schedulers have. -/
def hear (g : Heard) (manager : State) (out : List Sent) : Heard := fun i =>
  g i ++ ((manager.desk i).map fun desk => writtenTo desk.sink out).getD []

def enter (g : Heard) (manager : State) (fresh : Fresh) (out : List Sent) : SchedulerEvent → Heard
  | .connect uuid _ _ connection =>
    match manager.disconnected uuid with
    | some (id, _) => Function.update g id (g id ++ writtenTo connection out)
    | none => Function.update g fresh.id (writtenTo connection out)
  | .message id request => if request = .helloMessage then g else Function.update g id []
  | .disconnect _ => g

def note (g : Heard) (s : Reception) (e : Event) (out : List Sent) : Heard :=
  match e with
  | .delivers fresh =>
    match s.schedulerEvents with
    | [] => g
    | (_, event) :: _ => g.enter s.manager fresh out event
  | .node _ _ => g.hear s.manager out
  | .expired _ => g.hear s.manager out
  | .processQueue => g.hear s.manager out
  | .connects .. => g
  | .speaks .. => g
  | .ends .. => g
  | .quits .. => g

end Heard

/-- The session in the slot goes over the connection, and is not interrupted. -/
def Serves (s : State) (c : Connection) (i : Id) : Prop :=
  ∃ desk, s.desk i = some desk ∧ desk.sink = c ∧ desk.buffer = none

/-- The connections that have not been told their id. -/
def waiting (s : Reception) : List Connection :=
  s.schedulerEvents.filterMap fun e => e.2.connection?

/-- What the tasks of the connections keep to: whoever knows an id serves its session, and after a
`Disconnect` there is nothing more about a session before it is restored. -/
structure Routed (s : Reception) : Prop where
  linked : ∀ c i, (c, i) ∈ s.links → Serves s.manager c i
  pending : ∀ c event i, (c, event) ∈ s.schedulerEvents → event.id? = some i → Serves s.manager c i
  last : s.schedulerEvents.Pairwise fun a b => ∀ i, a.2 = .disconnect i → b.2.id? ≠ some i
  ended : ∀ c i, (c, SchedulerEvent.disconnect i) ∈ s.schedulerEvents → ∀ c', (c', i) ∉ s.links
  apart : s.manager.Apart
  known : ∀ i desk, s.manager.desk i = some desk → desk.sink ∈ s.seen ∧ desk.sink ∉ s.waiting
  once : s.waiting.Nodup
  announced : ∀ c ∈ s.waiting, c ∈ s.seen

/-- Who is known under which uuid: a scheduler that may come back is interrupted. -/
structure Known (kind : Uuid → ServiceType) (s : Reception) : Prop where
  nodes : ∀ w uuid key, s.manager.sessions.nodes w = some (uuid, key) → kind uuid = .node
  connects : ∀ c uuid name address connection,
    (c, SchedulerEvent.connect uuid name address connection) ∈ s.schedulerEvents →
      kind uuid = .scheduler
  entries : ∀ uuid i key, kind uuid = .scheduler → s.manager.disconnected uuid = some (i, key) →
    (∃ address, s.manager.sessions.schedulers i = some (uuid, address)) ∧
      ∃ desk, s.manager.desk i = some desk ∧ desk.buffer.isSome

/-- What a scheduler has been told, and will be told when it comes back, is who its workers are. -/
def Informed (g : Heard) (s : State) : Prop :=
  ∀ i desk, s.desk i = some desk → (g i ++ desk.buffer.getD []).foldl hear [] = desk.crew

section Invariant
variable {kind : Uuid → ServiceType} {checks : Bool} {s t : Reception} {e : Event} {out : List Sent}
  {c : Connection} {i : Id} {g : Heard}

theorem turn_ok {event : NodeManager.Event} (h : s.turn checks event = .ok (t, out)) :
    ∃ manager, s.manager.step checks event = .ok (manager, out) ∧
      t = { s with manager := manager } := by
  obtain ⟨⟨manager, out'⟩, hstep, h⟩ := bind_ok.mp h
  cases h
  exact ⟨manager, hstep, rfl⟩

/-- The session of a slot that has one connection has no other. -/
theorem Serves.unique {manager : State} {c' : Connection} (serves : Serves manager c i)
    (serves' : Serves manager c' i) : c = c' := by
  obtain ⟨desk, hdesk, rfl, _⟩ := serves
  obtain ⟨desk', hdesk', rfl, _⟩ := serves'
  rw [hdesk, Option.some.injEq] at hdesk'
  rw [hdesk']

/-- A task says something of its session, or ends it. -/
theorem Routed.push (r : s.Routed) {event : SchedulerEvent} (hlink : (c, i) ∈ s.links)
    (hid : event.id? = some i) {links : List (Connection × Id)} (hsub : links ⊆ s.links)
    (hends : event = .disconnect i → ∀ c', (c', i) ∉ links) :
    Routed { s with schedulerEvents := s.schedulerEvents ++ [(c, event)], links := links } := by
  have hnone : event.connection? = none := by
    cases event with
    | connect => cases hid
    | disconnect => rfl
    | message => rfl
  have hwaiting : waiting { s with
      schedulerEvents := s.schedulerEvents ++ [(c, event)], links := links } = s.waiting := by
    simp [waiting, hnone]
  refine ⟨fun c' i' h => r.linked c' i' (hsub h), ?_, ?_, ?_, r.apart, ?_, ?_, ?_⟩
  · intro c' event' i' h hid'
    rcases List.mem_append.mp h with h | h
    · exact r.pending c' event' i' h hid'
    · obtain ⟨rfl, rfl⟩ := Prod.mk.inj (List.mem_singleton.mp h)
      rw [hid, Option.some.injEq] at hid'
      exact hid' ▸ r.linked c' i hlink
  · rw [List.pairwise_append]
    refine ⟨r.last, List.pairwise_singleton _ _, ?_⟩
    rintro ⟨c', event'⟩ hmem b hb i' rfl
    rw [List.mem_singleton.mp hb, hid]
    rintro ⟨⟩
    exact r.ended c' i hmem c hlink
  · intro c' i' h c'' hc''
    rcases List.mem_append.mp h with h | h
    · exact r.ended c' i' h c'' (hsub hc'')
    · obtain ⟨rfl, rfl⟩ := Prod.mk.inj (List.mem_singleton.mp h)
      obtain rfl : i' = i := Option.some.inj hid
      exact hends rfl c'' hc''
  · rw [hwaiting]
    exact r.known
  · rw [hwaiting]
    exact r.once
  · rw [hwaiting]
    exact r.announced

theorem Routed.sublink (r : s.Routed) {links : List (Connection × Id)} (hsub : links ⊆ s.links) :
    Routed { s with links := links } :=
  ⟨fun c i h => r.linked c i (hsub h), r.pending, r.last,
    fun c i h c' h' => r.ended c i h c' (hsub h'), r.apart, r.known, r.once, r.announced⟩

theorem Routed.connects (r : s.Routed) (hc : c ∉ s.seen) (uuid : Uuid) (name : Option String)
    (address : SocketAddr) :
    Routed { s with
      seen := c :: s.seen
      schedulerEvents := s.schedulerEvents ++ [(c, .connect uuid name address c)] } := by
  have hwaiting : waiting { s with
      seen := c :: s.seen
      schedulerEvents := s.schedulerEvents ++ [(c, .connect uuid name address c)] } =
        s.waiting ++ [c] := by
    simp [waiting, SchedulerEvent.connection?]
  refine ⟨r.linked, ?_, ?_, ?_, r.apart, ?_, ?_, ?_⟩
  · intro c' event' i' h hid
    rcases List.mem_append.mp h with h | h
    · exact r.pending c' event' i' h hid
    · obtain ⟨rfl, rfl⟩ := Prod.mk.inj (List.mem_singleton.mp h)
      cases hid
  · rw [List.pairwise_append]
    refine ⟨r.last, List.pairwise_singleton _ _, ?_⟩
    intro a _ b hb i' _
    rw [List.mem_singleton.mp hb]
    rintro ⟨⟩
  · intro c' i' h
    rcases List.mem_append.mp h with h | h
    · exact r.ended c' i' h
    · cases (Prod.mk.inj (List.mem_singleton.mp h)).2
  · intro i' desk hdesk
    obtain ⟨hseen, hnot⟩ := r.known i' desk hdesk
    rw [hwaiting, List.mem_append, List.mem_singleton, not_or]
    refine ⟨List.mem_cons_of_mem _ hseen, hnot, ?_⟩
    rintro rfl
    exact hc hseen
  · rw [hwaiting, List.nodup_append]
    refine ⟨r.once, List.nodup_singleton c, ?_⟩
    rintro a ha b hb rfl
    rw [List.mem_singleton] at hb
    exact hc (hb ▸ r.announced a ha)
  · rw [hwaiting]
    intro c' hc'
    rcases List.mem_append.mp hc' with hc' | hc'
    · exact List.mem_cons_of_mem _ (r.announced c' hc')
    · rw [List.mem_singleton.mp hc']
      exact List.mem_cons_self

/-- After a task has ended nobody speaks for its session. -/
theorem Routed.unlinked (r : s.Routed) (hlink : (c, i) ∈ s.links) (c' : Connection) :
    (c', i) ∉ s.links.filter fun link => link.1 ≠ c := by
  intro h
  obtain ⟨hmem, hne⟩ := List.mem_filter.mp h
  have hsame := (r.linked c' i hmem).unique (r.linked c i hlink)
  simp [hsame] at hne

/-- What is left to show when the first event is taken. -/
theorem Routed.deliver (r : s.Routed) {event : SchedulerEvent}
    {events : List (Connection × SchedulerEvent)} (hq : s.schedulerEvents = (c, event) :: events)
    {manager : State} {links : List (Connection × Id)}
    (linked : ∀ c' i, (c', i) ∈ links → Serves manager c' i)
    (pending : ∀ c' event' i, (c', event') ∈ events → event'.id? = some i →
      Serves s.manager c' i → Serves manager c' i)
    (ended : ∀ c' i, (c', SchedulerEvent.disconnect i) ∈ events → ∀ c'', (c'', i) ∉ links)
    (apart : manager.Apart)
    (known : ∀ i desk, manager.desk i = some desk →
      desk.sink ∈ s.seen ∧ desk.sink ∉ events.filterMap fun e => e.2.connection?) :
    Routed { s with manager := manager, schedulerEvents := events, links := links } := by
  have hmem : ∀ e ∈ events, e ∈ s.schedulerEvents := by
    intro e he
    rw [hq]
    exact List.mem_cons_of_mem _ he
  have hsub : (events.filterMap fun e => e.2.connection?).Sublist s.waiting := by
    rw [waiting, hq]
    exact (List.sublist_cons_self ..).filterMap _
  have hlast := r.last
  rw [hq, List.pairwise_cons] at hlast
  refine ⟨linked, ?_, hlast.2, ended, apart, known, r.once.sublist hsub, ?_⟩
  · intro c' event' i h hid
    exact pending c' event' i h hid (r.pending c' event' i (hmem _ h) hid)
  · exact fun c' hc' => r.announced c' (hsub.subset hc')

/-- The session that is established or restored goes on over the connection that asked for it. -/
theorem Routed.enter (r : s.Routed) {event : SchedulerEvent}
    {events : List (Connection × SchedulerEvent)} (hq : s.schedulerEvents = (c, event) :: events)
    {connection : Connection} (hevent : event.connection? = some connection)
    (idle : ∀ c', ¬Serves s.manager c' i) {manager : State} {crew : List WorkerInfo}
    (hdesk : ∀ k, manager.desk k =
      Function.update s.manager.desk i (some ⟨connection, none, crew⟩) k) :
    Routed { s with
      manager := manager, schedulerEvents := events, links := s.links ++ [(connection, i)] } := by
  have hself : manager.desk i = some ⟨connection, none, crew⟩ := by
    rw [hdesk, Function.update_self]
  have hother : ∀ k, k ≠ i → manager.desk k = s.manager.desk k := by
    intro k hk
    rw [hdesk, Function.update_of_ne hk]
  have hserves : ∀ c' k, Serves s.manager c' k → Serves manager c' k := by
    intro c' k serves
    have hk : k ≠ i := by
      rintro rfl
      exact idle c' serves
    rw [Serves, hother k hk]
    exact serves
  have hwaiting : s.waiting = connection :: events.filterMap fun e => e.2.connection? := by
    rw [waiting, hq, List.filterMap_cons, hevent]
  have honce := r.once
  rw [hwaiting, List.nodup_cons] at honce
  have hconnection : connection ∈ s.waiting := by
    rw [hwaiting]
    exact List.mem_cons_self
  have hmem : ∀ e ∈ events, e ∈ s.schedulerEvents := by
    intro e he
    rw [hq]
    exact List.mem_cons_of_mem _ he
  refine r.deliver hq ?_ (fun c' _ k _ _ => hserves c' k) ?_ ?_ ?_
  · intro c' k h
    rcases List.mem_append.mp h with h | h
    · exact hserves c' k (r.linked c' k h)
    · obtain ⟨rfl, rfl⟩ := Prod.mk.inj (List.mem_singleton.mp h)
      exact ⟨_, hself, rfl, rfl⟩
  · intro c' k h c'' hlink
    rcases List.mem_append.mp hlink with hlink | hlink
    · exact r.ended c' k (hmem _ h) c'' hlink
    · obtain ⟨_, rfl⟩ := Prod.mk.inj (List.mem_singleton.mp hlink)
      exact idle c' (r.pending c' _ k (hmem _ h) rfl)
  · have hfresh : ∀ k desk, k ≠ i → manager.desk k = some desk → desk.sink ≠ connection := by
      intro k desk hk hd hsink
      rw [hother k hk] at hd
      exact (r.known k desk hd).2 (hsink ▸ hconnection)
    intro k k' desk desk' hd hd' hsink
    by_cases hk : k = i
    · by_cases hk' : k' = i
      · rw [hk, hk']
      · rw [hk, hself, Option.some.injEq] at hd
        exact absurd (hsink ▸ congrArg Desk.sink hd.symm) (hfresh k' desk' hk' hd')
    · by_cases hk' : k' = i
      · rw [hk', hself, Option.some.injEq] at hd'
        exact absurd (hsink.trans (congrArg Desk.sink hd'.symm)) (hfresh k desk hk hd)
      · rw [hother k hk] at hd
        rw [hother k' hk'] at hd'
        exact r.apart k k' desk desk' hd hd' hsink
  · intro k desk hd
    by_cases hk : k = i
    · rw [hk, hself, Option.some.injEq] at hd
      rw [← hd]
      exact ⟨r.announced connection hconnection, honce.1⟩
    · rw [hother k hk] at hd
      obtain ⟨hseen, hnot⟩ := r.known k desk hd
      rw [hwaiting] at hnot
      exact ⟨hseen, fun h => hnot (List.mem_cons_of_mem _ h)⟩

/-- The sessions go over the connections that they went over; none is interrupted or restored. -/
def Steady (s t : State) : Prop :=
  ∀ i, (t.desk i).map (fun desk => (desk.sink, desk.buffer.isNone)) =
    (s.desk i).map fun desk => (desk.sink, desk.buffer.isNone)

theorem Steady.desk {manager manager' : State} (steady : Steady manager manager') {desk' : Desk}
    (h : manager'.desk i = some desk') :
    ∃ desk, manager.desk i = some desk ∧ desk.sink = desk'.sink ∧
      desk.buffer.isNone = desk'.buffer.isNone := by
  have hsame := steady i
  rw [h, Option.map_some, eq_comm, Option.map_eq_some_iff] at hsame
  obtain ⟨desk, hdesk, hsame⟩ := hsame
  exact ⟨desk, hdesk, congrArg Prod.fst hsame, congrArg Prod.snd hsame⟩

theorem Steady.serves {manager manager' : State} (steady : Steady manager manager')
    (serves : Serves manager c i) : Serves manager' c i := by
  obtain ⟨desk, hdesk, rfl, hbuffer⟩ := serves
  have hsame := steady i
  rw [hdesk, Option.map_some, Option.map_eq_some_iff] at hsame
  obtain ⟨desk', hdesk', hsame⟩ := hsame
  refine ⟨desk', hdesk', congrArg Prod.fst hsame, ?_⟩
  have hnone := congrArg Prod.snd hsame
  rw [hbuffer] at hnone
  exact Option.isNone_iff_eq_none.mp hnone

theorem Steady.interrupted {manager manager' : State} (steady : Steady manager manager')
    {desk : Desk} (h : manager.desk i = some desk) (hbuffer : desk.buffer.isSome) :
    ∃ desk, manager'.desk i = some desk ∧ desk.buffer.isSome := by
  have hsame := steady i
  rw [h, Option.map_some, Option.map_eq_some_iff] at hsame
  obtain ⟨desk', hdesk', hsame⟩ := hsame
  refine ⟨desk', hdesk', ?_⟩
  have hnone : desk'.buffer.isNone = desk.buffer.isNone := congrArg Prod.snd hsame
  rw [← Option.not_isNone] at hbuffer ⊢
  rw [hnone]
  exact hbuffer

theorem Steady.apart {manager manager' : State} (steady : Steady manager manager')
    (apart : manager.Apart) : manager'.Apart := by
  intro i j desk desk' hi hj hsink
  obtain ⟨before, hi, hsink', _⟩ := steady.desk hi
  obtain ⟨before', hj, hsink'', _⟩ := steady.desk hj
  exact apart i j before before' hi hj (hsink'.trans (hsink.trans hsink''.symm))

theorem steady_of_tells {manager manager' : State} (tells : manager.Tells manager' out) :
    Steady manager manager' := by
  intro i
  obtain ⟨said, told⟩ := tells i
  rw [told.desk, Option.map_map]
  congr 1
  funext desk
  simp [Desk.tell]

theorem Routed.steady (r : s.Routed) {manager : State} (steady : Steady s.manager manager) :
    Routed { s with manager := manager } := by
  refine ⟨fun c i h => steady.serves (r.linked c i h),
    fun c event i h hid => steady.serves (r.pending c event i h hid), r.last, r.ended,
    steady.apart r.apart, ?_, r.once, r.announced⟩
  intro i desk hdesk
  obtain ⟨before, hbefore, hsink, _⟩ := steady.desk hdesk
  exact hsink ▸ r.known i before hbefore

/-- The events that are about no session change none. -/
theorem Routed.message (r : s.Routed) {event : SchedulerEvent}
    {events : List (Connection × SchedulerEvent)} (hq : s.schedulerEvents = (c, event) :: events)
    {manager : State} (steady : Steady s.manager manager) :
    Routed { s with manager := manager, schedulerEvents := events } := by
  have hmem : ∀ e ∈ events, e ∈ s.schedulerEvents := by
    intro e he
    rw [hq]
    exact List.mem_cons_of_mem _ he
  refine r.deliver hq (fun c' i h => steady.serves (r.linked c' i h))
    (fun _ _ _ _ _ serves => steady.serves serves) (fun c' i h => r.ended c' i (hmem _ h))
    (steady.apart r.apart) ?_
  intro i desk hdesk
  obtain ⟨before, hbefore, hsink, _⟩ := steady.desk hdesk
  obtain ⟨hseen, hnot⟩ := r.known i before hbefore
  rw [← hsink]
  refine ⟨hseen, fun h => hnot ?_⟩
  rw [waiting, hq]
  exact ((List.sublist_cons_self ..).filterMap _).subset h

theorem Routed.disconnect (r : s.Routed) {events : List (Connection × SchedulerEvent)}
    (hq : s.schedulerEvents = (c, .disconnect i) :: events) {manager : State}
    (hdesk : ∀ k, manager.desk k = Function.update s.manager.desk i
      ((s.manager.desk i).map fun desk => { desk with buffer := some [] }) k) :
    Routed { s with manager := manager, schedulerEvents := events } := by
  have hhead : (c, SchedulerEvent.disconnect i) ∈ s.schedulerEvents := by
    rw [hq]
    exact List.mem_cons_self
  have hlast := r.last
  rw [hq, List.pairwise_cons] at hlast
  have hserves : ∀ c' k, k ≠ i → Serves s.manager c' k → Serves manager c' k := by
    intro c' k hk serves
    rw [Serves, hdesk, Function.update_of_ne hk]
    exact serves
  have hbefore : ∀ k desk, manager.desk k = some desk →
      ∃ before, s.manager.desk k = some before ∧ before.sink = desk.sink := by
    intro k desk hd
    rw [hdesk] at hd
    by_cases hk : k = i
    · subst hk
      rw [Function.update_self, Option.map_eq_some_iff] at hd
      obtain ⟨before, hbefore, rfl⟩ := hd
      exact ⟨before, hbefore, rfl⟩
    · rw [Function.update_of_ne hk] at hd
      exact ⟨desk, hd, rfl⟩
  refine r.deliver hq ?_ ?_ ?_ ?_ ?_
  · intro c' k h
    refine hserves c' k ?_ (r.linked c' k h)
    rintro rfl
    exact r.ended c k hhead c' h
  · intro c' event' k h hid serves
    refine hserves c' k ?_ serves
    rintro rfl
    exact hlast.1 _ h k rfl hid
  · intro c' k h
    exact r.ended c' k (hq ▸ List.mem_cons_of_mem _ h)
  · intro k k' desk desk' hd hd' hsink
    obtain ⟨before, hk, hsame⟩ := hbefore k desk hd
    obtain ⟨before', hk', hsame'⟩ := hbefore k' desk' hd'
    exact r.apart k k' before before' hk hk' (hsame.trans (hsink.trans hsame'.symm))
  · intro k desk hd
    obtain ⟨before, hk, hsame⟩ := hbefore k desk hd
    obtain ⟨hseen, hnot⟩ := r.known k before hk
    rw [← hsame]
    refine ⟨hseen, fun h => hnot ?_⟩
    rw [waiting, hq]
    exact ((List.sublist_cons_self ..).filterMap _).subset h

end Invariant

end Reception

namespace Sessions
variable {r : Sessions} {kind : Uuid → ServiceType} {e : Event}

/-- Whoever connects as a node is one. -/
def Honest (kind : Uuid → ServiceType) : Event → Prop
  | .node (.connect uuid _ _ _ _ _) _ => kind uuid = .node
  | _ => True

theorem nodes_of_apply (nodes : ∀ w uuid key, r.nodes w = some (uuid, key) → kind uuid = .node)
    (honest : Honest kind e) :
    ∀ w uuid key, (r.apply e).nodes w = some (uuid, key) → kind uuid = .node := by
  intro w uuid key h
  rcases node_of_apply h with h | hnew
  · exact nodes w uuid key h
  · cases e with
    | node event fresh =>
      cases event with
      | connect uuid' name platform subworkers address connection =>
        simp only [apply] at h
        split at h
        · exact nodes w uuid key h
        · dsimp only at h
          by_cases hw : w = fresh.id
          · subst hw
            rw [Function.update_self] at h
            cases h
            exact honest
          · rw [Function.update_of_ne hw] at h
            exact nodes w uuid key h
      | disconnect id => cases hnew
      | heartbeat id => cases hnew
    | expired key => cases hnew
    | scheduler event fresh => cases hnew
    | processQueue => cases hnew

/-- What is kept of a scheduler that may come back is no node's business. -/
theorem disconnected_of_apply
    (nodes : ∀ w uuid key, r.nodes w = some (uuid, key) → kind uuid = .node)
    (honest : Honest kind e) (he : ∀ event fresh, e ≠ .scheduler event fresh) {uuid : Uuid}
    (hkind : kind uuid = .scheduler) : (r.apply e).disconnected uuid = r.disconnected uuid := by
  have hne : ∀ uuid', kind uuid' = .node → uuid ≠ uuid' := by
    rintro uuid' hnode rfl
    rw [hkind] at hnode
    cases hnode
  cases e with
  | node event fresh =>
    cases event with
    | connect uuid' name platform subworkers address connection =>
      simp only [apply]
      split
      · exact Function.update_of_ne (hne _ honest) ..
      · rfl
    | disconnect id =>
      simp only [apply]
      split
      · rfl
      · rename_i uuid' key hn
        exact Function.update_of_ne (hne _ (nodes _ _ _ hn)) ..
    | heartbeat id => rfl
  | expired key =>
    simp only [apply]
    split
    · split
      · rfl
      · rename_i uuid' key' hn
        exact Function.update_of_ne (hne _ (nodes _ _ _ hn)) ..
    · rfl
    · rfl
  | scheduler event fresh => exact absurd rfl (he event fresh)
  | processQueue => rfl

end Sessions

namespace State
variable {s t : State} {out : List Sent}

/-- The answers to an event of a scheduler: every `Connect` is told its slot. -/
def replies (s : State) (fresh : Fresh) : SchedulerEvent → List (Connection × Id)
  | .connect uuid _ _ connection => [(connection, s.slotOf uuid fresh)]
  | .disconnect _ => []
  | .message _ _ => []

theorem releaseWorkers_answers (s : State) (ws : List Id) :
    (s.releaseWorkers ws).2.filterMap Sent.answer? = [] := by
  induction ws generalizing s with
  | nil => rfl
  | cons w ws ih =>
    rw [releaseWorkers_cons, List.filterMap_append, ih, List.append_nil]
    unfold releaseWorker
    split
    · rfl
    · dsimp only
      unfold Node.send
      split
      · rfl
      · rfl

theorem processScheduler_answers {event : SchedulerEvent} {fresh : Fresh}
    (h : s.processScheduler event fresh = .ok (t, out)) :
    out.filterMap Sent.answer? = s.replies fresh event := by
  cases event with
  | connect uuid name address connection =>
    simp only [processScheduler] at h
    cases hd : s.disconnected uuid with
    | some entry =>
      obtain ⟨id, key⟩ := entry
      simp only [hd, restoreSchedulerSession, bind_ok, except_pure, Except.ok.injEq,
        Prod.mk.injEq] at h
      obtain ⟨_, _, _, _, _, rfl⟩ := h
      simp [replies, slotOf, hd, List.filterMap_cons, List.filterMap_map, Function.comp_def,
        Sent.answer?]
    | none =>
      simp only [hd] at h
      split at h
      · cases h
      · cases h
        simp [replies, slotOf, hd, List.filterMap_cons, Sent.answer?]
  | disconnect id =>
    simp only [processScheduler] at h
    split at h
    · cases h
      rfl
    · split at h
      · cases h
      · cases h
        rfl
  | message id request =>
    rcases s.processScheduler_message id request fresh with
      ⟨hkept, _⟩ | ⟨scheduler, demands, _, hs, _, _, _, hdrop⟩
    · rw [hkept] at h
      cases h
      rfl
    · rw [hdrop, Except.ok.injEq] at h
      have hout := congrArg (fun r => r.2.filterMap Sent.answer?) h
      refine hout.symm.trans ?_
      simp only [dropDemand]
      split
      · exact releaseWorkers_answers _ _
      · rfl

end State

namespace Reception
variable {kind : Uuid → ServiceType} {checks : Bool} {s t : Reception} {e : Event} {out : List Sent}
  {c : Connection} {i : Id} {g : Heard}

theorem Known.turn (known : Known kind s) {event : NodeManager.Event} {manager : State}
    (honest : Sessions.Honest kind event) (he : ∀ event' fresh, event ≠ .scheduler event' fresh)
    (h : s.manager.step checks event = .ok (manager, out)) (steady : Steady s.manager manager) :
    Known kind { s with manager := manager } := by
  obtain ⟨admits, hsessions⟩ := State.step_sessions h
  refine ⟨?_, known.connects, ?_⟩
  · intro w uuid key hw
    refine Sessions.nodes_of_apply (r := s.manager.sessions) (e := event) known.nodes honest w uuid
      key ?_
    rw [← hsessions]
    exact hw
  · intro uuid i key hkind hentry
    have hdisconnected := Sessions.disconnected_of_apply (r := s.manager.sessions) known.nodes honest
      he hkind
    rw [← hsessions] at hdisconnected
    obtain ⟨⟨address, hsession⟩, desk, hdesk, hbuffer⟩ :=
      known.entries uuid i key hkind (hdisconnected.symm.trans hentry)
    refine ⟨⟨address, ?_⟩, steady.interrupted hdesk hbuffer⟩
    rw [hsessions]
    exact Sessions.scheduler_of_apply admits hsession

theorem Known.push (known : Known kind s) {event : SchedulerEvent} (h : event.connection? = none)
    {links : List (Connection × Id)} :
    Known kind { s with schedulerEvents := s.schedulerEvents ++ [(c, event)], links := links } := by
  refine ⟨known.nodes, ?_, known.entries⟩
  intro c' uuid name address connection hmem
  rcases List.mem_append.mp hmem with hmem | hmem
  · exact known.connects c' uuid name address connection hmem
  · cases List.mem_singleton.mp hmem
    cases h

section Entries
variable {manager : State} {fresh : Fresh} {u uuid : Uuid} {k : Key}

/-- The slot is kept for the scheduler, and buffers what it is told. -/
def Kept (manager : State) (u : Uuid) (i : Id) : Prop :=
  (∃ address, manager.sessions.schedulers i = some (u, address)) ∧
    ∃ desk, manager.desk i = some desk ∧ desk.buffer.isSome

theorem session_stays {event : SchedulerEvent} {address : SocketAddr}
    (h : s.manager.processScheduler event fresh = .ok (manager, out))
    (hsession : s.manager.sessions.schedulers i = some (u, address)) :
    manager.sessions.schedulers i = some (u, address) := by
  obtain ⟨admits, hsessions⟩ := State.processScheduler_sessions h
  rw [hsessions]
  exact Sessions.scheduler_of_apply admits hsession

/-- Whoever was waiting before is still waiting. -/
theorem Kept.stays {event : SchedulerEvent} (kept : Kept s.manager u i)
    (h : s.manager.processScheduler event fresh = .ok (manager, out))
    (hdesk : ∀ desk, s.manager.desk i = some desk → desk.buffer.isSome →
      ∃ desk, manager.desk i = some desk ∧ desk.buffer.isSome) : Kept manager u i := by
  obtain ⟨⟨address, hsession⟩, desk, hd, hbuffer⟩ := kept
  exact ⟨⟨address, session_stays h hsession⟩, hdesk desk hd hbuffer⟩

theorem Known.connect_kept (known : Known kind s) {name : Option String} {address : SocketAddr}
    {connection : Connection}
    (h : s.manager.processScheduler (.connect uuid name address connection) fresh =
      .ok (manager, out)) (hscheduler : kind uuid = .scheduler) (hkind : kind u = .scheduler)
    (hentry : manager.disconnected u = some (i, k)) : Kept manager u i := by
  obtain ⟨_, hsessions⟩ := State.processScheduler_sessions h
  have hentry : manager.sessions.disconnected u = some (i, k) := hentry
  rw [hsessions] at hentry
  cases hd : s.manager.disconnected uuid with
  | some entry =>
    obtain ⟨j, key⟩ := entry
    have hd' : s.manager.sessions.disconnected uuid = some (j, key) := hd
    simp only [Sessions.apply, hd'] at hentry
    have hu : u ≠ uuid := by
      rintro rfl
      simp [Sessions.stop, Sessions.forget] at hentry
    have hold : s.manager.disconnected u = some (i, k) :=
      (Function.update_of_ne hu ..).symm.trans hentry
    have kept : Kept s.manager u i := known.entries u i k hkind hold
    obtain ⟨_, _, hdesk, _⟩ := State.restore_desk hd h
    obtain ⟨⟨_, hj⟩, _⟩ := known.entries uuid j key hscheduler hd
    -- the slot that is taken up again is another's
    have hi : i ≠ j := by
      obtain ⟨⟨_, hsession⟩, _⟩ := kept
      rintro rfl
      rw [hj] at hsession
      cases hsession
      exact hu rfl
    refine kept.stays h fun desk hdesk' hbuffer => ⟨desk, ?_, hbuffer⟩
    rw [hdesk, Function.update_of_ne hi]
    exact hdesk'
  | none =>
    have hd' : s.manager.sessions.disconnected uuid = none := hd
    simp only [Sessions.apply, hd'] at hentry
    have kept : Kept s.manager u i := known.entries u i k hkind hentry
    obtain ⟨hvacant, hdesk, _⟩ := State.connect_desk hd h
    refine kept.stays h fun desk hdesk' hbuffer => ⟨desk, ?_, hbuffer⟩
    have hi : i ≠ fresh.id := by
      rintro rfl
      rw [hvacant] at hdesk'
      cases hdesk'
    rw [hdesk, Function.update_of_ne hi]
    exact hdesk'

theorem Known.disconnect_kept (known : Known kind s) {id : Id}
    (h : s.manager.processScheduler (.disconnect id) fresh = .ok (manager, out))
    (hkind : kind u = .scheduler) (hentry : manager.disconnected u = some (i, k)) :
    Kept manager u i := by
  obtain ⟨_, hsessions⟩ := State.processScheduler_sessions h
  have hentry : manager.sessions.disconnected u = some (i, k) := hentry
  rw [hsessions] at hentry
  obtain ⟨hdesk, _⟩ := State.disconnect_desk h
  have hstays : ∀ desk, s.manager.desk i = some desk → desk.buffer.isSome →
      ∃ desk, manager.desk i = some desk ∧ desk.buffer.isSome := by
    intro desk hd hbuffer
    by_cases hi : i = id
    · subst hi
      exact ⟨{ desk with buffer := some [] }, by rw [hdesk, Function.update_self, hd]; rfl, rfl⟩
    · exact ⟨desk, by rw [hdesk, Function.update_of_ne hi, hd], hbuffer⟩
  cases hid : s.manager.sessions.schedulers id with
  | none =>
    simp only [Sessions.apply, hid] at hentry
    have kept : Kept s.manager u i := known.entries u i k hkind hentry
    exact kept.stays h hstays
  | some session =>
    obtain ⟨uuid, address⟩ := session
    simp only [Sessions.apply, hid] at hentry
    by_cases hu : u = uuid
    · subst hu
      rw [Function.update_self] at hentry
      cases hentry
      refine ⟨⟨address, session_stays h hid⟩, ?_⟩
      obtain ⟨scheduler, hs, _⟩ := Option.map_eq_some_iff.mp hid
      rw [hdesk, Function.update_self, State.desk, hs]
      exact ⟨_, rfl, rfl⟩
    · rw [Function.update_of_ne hu] at hentry
      have kept : Kept s.manager u i := known.entries u i k hkind hentry
      exact kept.stays h hstays

theorem Known.message_kept (known : Known kind s) {id : Id} {request : NodeManagerRequest}
    (consistent : s.manager.roster.Consistent [] [])
    (h : s.manager.processScheduler (.message id request) fresh = .ok (manager, out))
    (hkind : kind u = .scheduler) (hentry : manager.disconnected u = some (i, k)) :
    Kept manager u i := by
  obtain ⟨_, hsessions⟩ := State.processScheduler_sessions h
  have hentry : manager.sessions.disconnected u = some (i, k) := hentry
  rw [hsessions] at hentry
  have kept : Kept s.manager u i := known.entries u i k hkind hentry
  obtain ⟨hdesk, _⟩ := State.message_desk consistent h
  refine kept.stays h fun desk hd hbuffer => ?_
  by_cases hi : i = id
  · subst hi
    rw [hdesk, Function.update_self, hd]
    refine ⟨_, rfl, ?_⟩
    dsimp only
    split
    · exact hbuffer
    · exact hbuffer
  · exact ⟨desk, by rw [hdesk, Function.update_of_ne hi, hd], hbuffer⟩

theorem Known.deliver (known : Known kind s) {event : SchedulerEvent}
    {events : List (Connection × SchedulerEvent)} (hq : s.schedulerEvents = (c, event) :: events)
    (consistent : s.manager.roster.Consistent [] [])
    (h : s.manager.processScheduler event fresh = .ok (manager, out))
    (links : List (Connection × Id)) :
    Known kind { s with manager := manager, schedulerEvents := events, links := links } := by
  refine ⟨?_, ?_, ?_⟩
  · intro w uuid key hw
    obtain ⟨_, hsessions⟩ := State.processScheduler_sessions h
    refine Sessions.nodes_of_apply (r := s.manager.sessions) (e := .scheduler event fresh)
      known.nodes trivial w uuid key ?_
    rw [← hsessions]
    exact hw
  · intro c' uuid name address connection hmem
    refine known.connects c' uuid name address connection ?_
    rw [hq]
    exact List.mem_cons_of_mem _ hmem
  · intro u i k hkind hentry
    cases event with
    | connect uuid name address connection =>
      have hscheduler : kind uuid = .scheduler := by
        refine known.connects c uuid name address connection ?_
        rw [hq]
        exact List.mem_cons_self
      exact known.connect_kept h hscheduler hkind hentry
    | disconnect id => exact known.disconnect_kept h hkind hentry
    | message id request => exact known.message_kept consistent h hkind hentry

end Entries

theorem hear_append (said said' : List NodeManagerResponse) (crew : List WorkerInfo) :
    (said ++ said').foldl hear crew = said'.foldl hear (said.foldl hear crew) := List.foldl_append

theorem writtenTo_of_responses {sink : Connection} {responses : List NodeManagerResponse}
    (h : out.filterMap Sent.response? = responses.map fun response => (sink, response)) :
    writtenTo sink out = responses := by
  rw [writtenTo, h]
  simp [List.filter_map, Function.comp_def]

theorem Informed.tells {manager manager' : State} (informed : Informed g manager)
    (tells : manager.Tells manager' out) : Informed (g.hear manager out) manager' := by
  intro i desk' hdesk'
  obtain ⟨said, told⟩ := tells i
  rw [told.desk, Option.map_eq_some_iff] at hdesk'
  obtain ⟨desk, hdesk, rfl⟩ := hdesk'
  have hbefore := informed i desk hdesk
  have hheard : g.hear manager out i = g i ++ desk.letters said := by
    rw [Heard.hear, hdesk, Option.map_some, Option.getD_some, told.written desk hdesk]
  rw [hheard, Desk.tell, Desk.letters]
  cases hbuffer : desk.buffer with
  | none =>
    rw [hbuffer, Option.getD_none, List.append_nil] at hbefore
    simp only [Option.isNone_none, if_true, Option.map_none, Option.getD_none, List.append_nil]
    rw [hear_append, hbefore]
  | some buffer =>
    rw [hbuffer, Option.getD_some] at hbefore
    simp only [Option.isNone_some, Bool.false_eq_true, if_false, List.append_nil, Option.map_some,
      Option.getD_some]
    rw [← List.append_assoc, hear_append, hbefore]

/-- One desk changes, to what its scheduler has then heard. -/
theorem Informed.update {manager manager' : State} (informed : Informed g manager) {j : Id}
    {changed : Option Desk} {said : List NodeManagerResponse}
    (hdesk : ∀ i, manager'.desk i = Function.update manager.desk j changed i)
    (hj : ∀ desk, changed = some desk →
      (said ++ desk.buffer.getD []).foldl hear [] = desk.crew) :
    Informed (Function.update g j said) manager' := by
  intro i desk hd
  rw [hdesk] at hd
  by_cases hi : i = j
  · subst hi
    rw [Function.update_self] at hd ⊢
    exact hj desk hd
  · rw [Function.update_of_ne hi] at hd ⊢
    exact informed i desk hd

/-- An event of a session that is not interrupted, or the start of one. -/
theorem Informed.enter {manager manager' : State} (informed : Informed g manager)
    (consistent : manager.roster.Consistent [] []) {event : SchedulerEvent} {fresh : Fresh}
    (serves : ∀ i, event.id? = some i → Serves manager c i)
    (h : manager.processScheduler event fresh = .ok (manager', out)) :
    Informed (g.enter manager fresh out event) manager' := by
  cases event with
  | connect uuid name address connection =>
    cases hd : manager.disconnected uuid with
    | none =>
      obtain ⟨_, hdesk, hout⟩ := State.connect_desk hd h
      simp only [Heard.enter, hd]
      have hletters : writtenTo connection out = [.createdSession] := writtenTo_of_responses hout
      refine informed.update hdesk ?_
      rintro desk ⟨⟩
      rw [hletters]
      rfl
    | some entry =>
      obtain ⟨j, key⟩ := entry
      obtain ⟨desk, hj, hdesk, hout⟩ := State.restore_desk hd h
      simp only [Heard.enter, hd]
      refine informed.update hdesk ?_
      rintro desk' ⟨⟩
      rw [writtenTo_of_responses hout, Option.getD_none, List.append_nil, hear_append,
        List.foldl_cons, ← informed j desk hj, hear_append]
      rfl
  | disconnect id =>
    obtain ⟨desk, hid, _, hbuffer⟩ := serves id rfl
    obtain ⟨hdesk, _⟩ := State.disconnect_desk h
    have hbefore := informed id desk hid
    rw [hbuffer] at hbefore
    have hafter : Informed (Function.update g id (g id)) manager' := by
      refine informed.update hdesk ?_
      rw [hid]
      rintro desk' ⟨⟩
      exact hbefore
    rw [Function.update_eq_self] at hafter
    exact hafter
  | message id request =>
    obtain ⟨desk, hid, _, hbuffer⟩ := serves id rfl
    obtain ⟨hdesk, _⟩ := State.message_desk consistent h
    simp only [Heard.enter]
    rw [hid, Option.map_some] at hdesk
    split
    · rename_i hhello
      rw [if_pos hhello, ← hid, Function.update_eq_self] at hdesk
      intro i desk' hd
      rw [hdesk] at hd
      exact informed i desk' hd
    · rename_i hhello
      rw [if_neg hhello] at hdesk
      refine informed.update hdesk ?_
      rintro desk' ⟨⟩
      rw [hbuffer]
      rfl

/-- What holds at every moment of a run, with what the schedulers have heard. -/
structure Sound (kind : Uuid → ServiceType) (g : Heard) (s : Reception) : Prop where
  consistent : s.manager.roster.Consistent [] []
  routed : s.Routed
  known : Known kind s
  informed : Informed g s.manager

theorem sound_new : Sound kind (fun _ => []) .new := by
  have hdesk : ∀ i, State.new.desk i = none := fun _ => rfl
  refine ⟨Roster.consistent_empty, ?_, ?_, ?_⟩
  · constructor
    all_goals simp [new, waiting, hdesk, State.Apart]
  · constructor
    all_goals simp [new, State.new, State.sessions, tally]
  · intro i desk h
    cases h

theorem Sound.turn (sound : Sound kind g s) {event : NodeManager.Event}
    (fits : s.manager.Fits checks) (honest : Sessions.Honest kind event)
    (he : ∀ event' fresh, event ≠ .scheduler event' fresh) (h : s.turn checks event = .ok (t, out)) :
    Sound kind (g.hear s.manager out) t := by
  obtain ⟨manager, hstep, rfl⟩ := turn_ok h
  have tells := State.step_tells sound.consistent sound.routed.apart fits he hstep
  have steady := steady_of_tells tells
  exact ⟨State.step_consistent sound.consistent fits hstep, sound.routed.steady steady,
    sound.known.turn honest he hstep steady, sound.informed.tells tells⟩

/-- The first of the scheduler events is taken. -/
theorem Routed.take (r : s.Routed) (known : Known kind s)
    (consistent : s.manager.roster.Consistent [] []) {event : SchedulerEvent} {fresh : Fresh}
    {events : List (Connection × SchedulerEvent)} (hq : s.schedulerEvents = (c, event) :: events)
    {manager : State} (h : s.manager.processScheduler event fresh = .ok (manager, out)) :
    Routed { s with
      manager := manager
      schedulerEvents := events
      links := s.links ++ out.filterMap Sent.answer? } := by
  have hhead : (c, event) ∈ s.schedulerEvents := by
    rw [hq]
    exact List.mem_cons_self
  rw [State.processScheduler_answers h]
  cases event with
  | connect uuid name address connection =>
    cases hd : s.manager.disconnected uuid with
    | none =>
      obtain ⟨hvacant, hdesk, _⟩ := State.connect_desk hd h
      rw [State.replies, State.slotOf, hd]
      refine r.enter (i := fresh.id) hq rfl ?_ hdesk
      rintro c' ⟨desk, hdesk', _⟩
      rw [hvacant] at hdesk'
      cases hdesk'
    | some entry =>
      obtain ⟨j, key⟩ := entry
      obtain ⟨_, hj, hdesk, _⟩ := State.restore_desk hd h
      rw [State.replies, State.slotOf, hd]
      refine r.enter (i := j) hq rfl ?_ hdesk
      rintro c' ⟨desk, hdesk', _, hnone⟩
      obtain ⟨_, desk', hdesk'', hbuffer⟩ :=
        known.entries uuid j key (known.connects c uuid name address connection hhead) hd
      rw [hdesk', Option.some.injEq] at hdesk''
      rw [← hdesk'', hnone] at hbuffer
      cases hbuffer
  | disconnect id =>
    rw [State.replies, List.append_nil]
    exact r.disconnect hq (State.disconnect_desk h).1
  | message id request =>
    rw [State.replies, List.append_nil]
    obtain ⟨hdesk, _⟩ := State.message_desk consistent h
    refine r.message hq fun i => ?_
    by_cases hi : i = id
    · subst hi
      rw [hdesk, Function.update_self, Option.map_map]
      congr 1
      funext desk
      dsimp only [Function.comp_apply]
      split
      · rfl
      · rfl
    · rw [hdesk, Function.update_of_ne hi]

theorem Sound.step (sound : Sound kind g s) (fair : Fair kind checks s e)
    (h : s.step checks e = .ok (t, out)) : Sound kind (g.note s e out) t := by
  obtain ⟨fits, honest⟩ := fair
  cases e with
  | connects connection uuid name address =>
    simp only [Reception.step] at h
    split at h
    · cases h
    · rename_i hnew
      cases h
      refine ⟨sound.consistent, sound.routed.connects hnew uuid name address, ?_, sound.informed⟩
      refine ⟨sound.known.nodes, ?_, sound.known.entries⟩
      intro c' uuid' name' address' connection' hmem
      rcases List.mem_append.mp hmem with hmem | hmem
      · exact sound.known.connects c' uuid' name' address' connection' hmem
      · cases List.mem_singleton.mp hmem
        exact honest
  | speaks connection id request =>
    simp only [Reception.step] at h
    split at h
    · rename_i hlinks
      have hlink := List.contains_iff_mem.mp hlinks
      cases h
      refine ⟨sound.consistent, ?_, sound.known.push rfl, sound.informed⟩
      exact sound.routed.push hlink rfl (List.Subset.refl _) (by rintro ⟨⟩)
    · cases h
  | ends connection id =>
    simp only [Reception.step] at h
    split at h
    · rename_i hlinks
      have hlink := List.contains_iff_mem.mp hlinks
      cases h
      refine ⟨sound.consistent, ?_, sound.known.push rfl, sound.informed⟩
      exact sound.routed.push hlink rfl (List.filter_subset_self _) fun _ =>
        sound.routed.unlinked hlink
    · cases h
  | quits connection id =>
    simp only [Reception.step] at h
    split at h
    · cases h
      refine ⟨sound.consistent, sound.routed.sublink (List.filter_subset_self _), ?_, sound.informed⟩
      exact ⟨sound.known.nodes, sound.known.connects, sound.known.entries⟩
    · cases h
  | delivers fresh =>
    simp only [Reception.step] at h
    split at h
    · cases h
    · rename_i c event events hq
      obtain ⟨⟨manager, out'⟩, hstep, h⟩ := bind_ok.mp h
      cases h
      have hstep' : s.manager.processScheduler event fresh = .ok (manager, out') := hstep
      have serves : ∀ i, event.id? = some i → Serves s.manager c i := by
        intro i hid
        refine sound.routed.pending c event i ?_ hid
        rw [hq]
        exact List.mem_cons_self
      refine ⟨State.step_consistent sound.consistent fits hstep,
        sound.routed.take sound.known sound.consistent hq hstep',
        sound.known.deliver hq sound.consistent hstep' _, ?_⟩
      simp only [Heard.note, hq]
      exact sound.informed.enter sound.consistent serves hstep'
  | node event fresh =>
    refine sound.turn fits ?_ (by simp) h
    cases event with
    | connect uuid name platform subworkers address connection => exact honest
    | disconnect id => trivial
    | heartbeat id => trivial
  | expired key =>
    have hturn : s.turn checks (.expired key) = .ok (t, out) := h
    refine sound.turn fits ?_ (by simp) hturn
    trivial
  | processQueue =>
    have hturn : s.turn checks .processQueue = .ok (t, out) := h
    refine sound.turn fits ?_ (by simp) hturn
    trivial

variable {es : List Event} {out' : List Sent}

theorem sound_of_run (run : Run (Reception.step checks) (Fair kind checks) .new es out s) :
    Sound kind (history (Reception.step checks) Heard.note (fun _ => []) .new es) s := by
  apply run.invariant_history Heard.note (I := fun g _ _ s => Sound kind g s)
  · exact sound_new
  · exact fun g es out s e t out' sound fair taken => sound.step fair taken

/-- What the manager has written to a scheduler since it last took a demand or a release from it,
over all its connections, and what it keeps for it while it is away, tell it exactly the workers
that it has. -/
theorem run_told (run : Run (Reception.step checks) (Fair kind checks) .new es out s)
    {scheduler : Scheduler} (hs : s.manager.schedulers.get i = some scheduler) :
    (history (Reception.step checks) Heard.note (fun _ => []) .new es i ++
      scheduler.disconnectBuffer.getD []).foldl hear [] =
        s.manager.crew scheduler.assignedWorkers.keys := by
  refine (sound_of_run run).informed i
    ⟨scheduler.sink, scheduler.disconnectBuffer, s.manager.crew scheduler.assignedWorkers.keys⟩ ?_
  rw [State.desk, hs]
  rfl

/-- An event of a scheduler's session reaches the manager while that session goes over the
connection that sent it, and is no other scheduler's business. -/
theorem run_serves {event : SchedulerEvent} {events : List (Connection × SchedulerEvent)}
    {fresh : Fresh} (run : Run (Reception.step checks) (Fair kind checks) .new es out s)
    (hq : s.schedulerEvents = (c, event) :: events) (hid : event.id? = some i)
    (taken : s.step checks (.delivers fresh) = .ok (t, out')) :
    Serves s.manager c i ∧ ∀ k, k ≠ i → t.manager.desk k = s.manager.desk k := by
  have sound := sound_of_run run
  refine ⟨sound.routed.pending c event i (by rw [hq]; exact List.mem_cons_self) hid, ?_⟩
  intro k hk
  simp only [Reception.step, hq] at taken
  obtain ⟨⟨manager, out''⟩, hstep, taken⟩ := bind_ok.mp taken
  cases taken
  have hstep' : s.manager.processScheduler event fresh = .ok (manager, out'') := hstep
  cases event with
  | connect uuid name address connection => cases hid
  | disconnect id =>
    cases hid
    dsimp only
    rw [(State.disconnect_desk hstep').1, Function.update_of_ne hk]
  | message id request =>
    cases hid
    dsimp only
    rw [(State.message_desk sound.consistent hstep').1, Function.update_of_ne hk]

instance (kind : Uuid → ServiceType) (checks : Bool) (s : Reception) :
    ∀ e, Decidable (Fair kind checks s e)
  | .connects _ uuid _ _ =>
    inferInstanceAs (Decidable (s.manager.Fits checks ∧ kind uuid = .scheduler))
  | .node (.connect uuid _ _ _ _ _) _ =>
    inferInstanceAs (Decidable (s.manager.Fits checks ∧ kind uuid = .node))
  | .node (.disconnect _) _ => inferInstanceAs (Decidable (s.manager.Fits checks ∧ True))
  | .node (.heartbeat _) _ => inferInstanceAs (Decidable (s.manager.Fits checks ∧ True))
  | .speaks .. => inferInstanceAs (Decidable (s.manager.Fits checks ∧ True))
  | .ends .. => inferInstanceAs (Decidable (s.manager.Fits checks ∧ True))
  | .quits .. => inferInstanceAs (Decidable (s.manager.Fits checks ∧ True))
  | .delivers _ => inferInstanceAs (Decidable (s.manager.Fits checks ∧ True))
  | .expired _ => inferInstanceAs (Decidable (s.manager.Fits checks ∧ True))
  | .processQueue => inferInstanceAs (Decidable (s.manager.Fits checks ∧ True))

/-- A scheduler gets both nodes, goes away, and one of them expires. -/
def away : List Event :=
  [.connects 0 2 none ⟨[], 0⟩, .delivers ⟨0, 0⟩,
    .node (.connect 1 none State.linux 1 ⟨[], 1⟩ 7) ⟨0, 0⟩,
    .node (.connect 3 none State.linux 4 ⟨[], 3⟩ 8) ⟨1, 1⟩,
    .speaks 0 0 (.workersDemand none [State.linux]), .delivers ⟨0, 0⟩, .processQueue,
    .ends 0 0, .delivers ⟨0, 2⟩, .expired 0, .connects 1 2 none ⟨[], 0⟩]

def services (uuid : Uuid) : ServiceType := if uuid = 2 then .scheduler else .node

theorem run_told_away : ∃ (s : Reception) (scheduler : Scheduler),
    s.manager.schedulers.get 0 = some scheduler ∧
    (history (Reception.step true) Heard.note (fun _ => []) .new away 0 ++
      scheduler.disconnectBuffer.getD []).foldl hear [] = [⟨1, 4, ⟨[], 3⟩, State.linux⟩] := by
  obtain ⟨s, out, run, h⟩ := exists_run (Reception.step true) (Fair services true) .new away
    (fun r => (r.1.manager.schedulers.get 0).map (fun scheduler =>
      r.1.manager.crew scheduler.assignedWorkers.keys) = some [⟨1, 4, ⟨[], 3⟩, State.linux⟩])
    (by decide +kernel)
  rw [decide_eq_true_eq, Option.map_eq_some_iff] at h
  obtain ⟨scheduler, hs, hcrew⟩ := h
  exact ⟨s, scheduler, hs, (run_told run hs).trans hcrew⟩

/-- The scheduler that has gone away is heard of while it still has its connection. -/
theorem run_serves_ends : ∃ (s t : Reception) (out : List Sent),
    s.step true (.delivers ⟨0, 2⟩) = .ok (t, out) ∧
    Serves s.manager 0 0 ∧ ∀ k, k ≠ 0 → t.manager.desk k = s.manager.desk k := by
  obtain ⟨s, out, run, h⟩ := exists_run (Reception.step true) (Fair services true) .new
    (away.take 8) (fun r => r.1.schedulerEvents = [(0, .disconnect 0)] ∧
      (r.1.step true (.delivers ⟨0, 2⟩)).toOption.isSome) (by decide +kernel)
  rw [decide_eq_true_eq] at h
  cases taken : s.step true (.delivers ⟨0, 2⟩) with
  | error fault => simp [taken, Except.toOption] at h
  | ok r => exact ⟨s, r.1, r.2, taken, run_serves run h.1 rfl taken⟩

end Reception
end GridServer.NodeManager
