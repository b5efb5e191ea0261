import GridServer.Library.Mailbox
import GridServer.NodeManager.Orders

namespace GridServer.NodeManager
open Library

namespace State
variable {checks : Bool} {s t : State} {out : List Sent}

/-- The end of a node's session takes its line away and writes nothing to a node. -/
theorem processNodeDisconnection_lines {w : Id}
    (h : s.processNodeDisconnection checks w = .ok (t, out)) :
    (∀ k line, t.lines k = some line → s.lines k = some line) ∧
      out.filterMap Sent.letter? = [] := by
  have hremove : ∀ k line, tally (s.workers.remove w) Node.line k = some line →
      s.lines k = some line := by
    intro k line hk
    rw [tally_remove] at hk
    by_cases hkw : k = w
    · subst hkw
      rw [Function.update_self] at hk
      cases hk
    · rw [Function.update_of_ne hkw] at hk
      exact hk
  cases processNodeDisconnection_ends h with
  | unknown _ state sent =>
    rw [state, sent]
    exact ⟨fun _ _ hk => hk, rfl⟩
  | quiet _ _ _ _ state sent =>
    rw [state, sent]
    exact ⟨hremove, rfl⟩
  | told _ _ _ _ _ _ _ state sent =>
    rw [state, sent]
    refine ⟨hremove, ?_⟩
    rw [List.filterMap_append, Scheduler.send_letters]
    rfl

theorem processExpiration_lines {key : Key} (h : s.processExpiration checks key = .ok (t, out)) :
    (∀ k line, t.lines k = some line → s.lines k = some line) ∧
      out.filterMap Sent.letter? = [] := by
  unfold processExpiration at h
  split at h
  · cases h
  · dsimp only at h
    split at h
    · have hlines := processNodeDisconnection_lines h
      exact hlines
    · split at h
      · simp only [Except.ok.injEq, Prod.mk.injEq] at h
        obtain ⟨rfl, rfl⟩ := h
        exact ⟨fun _ _ hk => hk, rfl⟩
      · simp only [Except.ok.injEq, Prod.mk.injEq] at h
        obtain ⟨rfl, rfl⟩ := h
        exact ⟨fun _ _ hk => hk, rfl⟩

section Nodes
variable {fresh : Fresh} {uuid : Uuid} {name : Option String} {platform : Platform}
  {subworkers : Nat} {address : SocketAddr} {connection : Connection} {id : Id} {key : Key}

theorem connect_lines (hd : s.disconnected uuid = none)
    (h : s.processNode (.connect uuid name platform subworkers address connection) fresh =
      .ok (t, out)) :
    t.lines = Function.update s.lines fresh.id (some ⟨connection, none, none⟩) ∧
      out.filterMap Sent.letter? = [] := by
  simp only [processNode, hd] at h
  split at h
  · cases h
  · simp only [Except.ok.injEq, Prod.mk.injEq] at h
    obtain ⟨rfl, rfl⟩ := h
    exact ⟨tally_insert .., rfl⟩

theorem restore_lines (hd : s.disconnected uuid = some (id, key))
    (h : s.processNode (.connect uuid name platform subworkers address connection) fresh =
      .ok (t, out)) :
    ∃ node, s.workers.get id = some node ∧
      t.lines = Function.update s.lines id (some ⟨connection, none, node.assigned⟩) ∧
      out.filterMap Sent.letter? =
        (node.disconnectBuffer.getD []).map fun request => (connection, request) := by
  simp only [processNode, hd, restoreNodeSession, bind_ok, except_pure, Except.ok.injEq,
    Prod.mk.injEq, index_ok] at h
  obtain ⟨node, hn, _, _, rfl, rfl⟩ := h
  refine ⟨node, hn, tally_write hn _, ?_⟩
  have hbuffer : ∀ buffer : List NodeRequest,
      (buffer.map (Sent.node connection)).filterMap Sent.letter? =
        buffer.map fun request => (connection, request) := by
    intro buffer
    simp [List.filterMap_map, Function.comp_def, Sent.letter?]
  rw [List.filterMap_append, hbuffer]
  exact List.append_nil _

theorem disconnect_lines (h : s.processNode (.disconnect id) fresh = .ok (t, out)) :
    t.lines = Function.update s.lines id
        ((s.lines id).map fun line => { line with buffer := some [] }) ∧
      out.filterMap Sent.letter? = [] := by
  simp only [processNode] at h
  split at h
  · rename_i hnone
    simp only [Except.ok.injEq, Prod.mk.injEq] at h
    obtain ⟨rfl, rfl⟩ := h
    have hline : s.lines id = none := by simp [lines, tally, hnone]
    refine ⟨?_, rfl⟩
    rw [hline, Option.map_none, ← hline, Function.update_eq_self]
  · rename_i node hn
    simp only [Except.ok.injEq, Prod.mk.injEq] at h
    obtain ⟨rfl, rfl⟩ := h
    have hline : s.lines id = some node.line := by simp [lines, tally, hn]
    rw [hline]
    exact ⟨tally_write hn _, rfl⟩

theorem heartbeat_lines (h : s.processNode (.heartbeat id) fresh = .ok (t, out)) :
    t.lines = s.lines ∧ out.filterMap Sent.letter? = [] := by
  simp only [processNode] at h
  split at h
  · simp only [Except.ok.injEq, Prod.mk.injEq] at h
    obtain ⟨rfl, rfl⟩ := h
    exact ⟨rfl, rfl⟩
  · simp only [bind_ok, except_pure, Except.ok.injEq, Prod.mk.injEq] at h
    obtain ⟨_, _, rfl, rfl⟩ := h
    exact ⟨rfl, rfl⟩

end Nodes

end State

namespace System
variable {checks : Bool} {s t : System} {e : Event} {es : List Event} {out : List Sent}

/-- The mail of the nodes: what the manager has told the node in a slot in the course of its
session, over which connections that session has gone, who is at their other end, and what has
arrived there. -/
structure Mail where
  orders : Id → List Order
  connections : Id → List Connection
  peer : Connection → Option Uuid
  received : Connection → List NodeRequest

namespace Mail

def none : Mail := ⟨fun _ => [], fun _ => [], fun _ => .none, fun _ => []⟩

/-- A connection that is broken loses what is written to it. -/
def hear (g : Mail) (broken : List Connection) (out : List Sent) : Mail :=
  { g with received := fun c => g.received c ++
      if c ∈ broken then [] else Lines.writtenTo (out.filterMap Sent.letter?) c }

def tell (g : Mail) (orders : List (Id × Order)) : Mail :=
  { g with orders := fun w => g.orders w ++ Lines.ordersOf orders w }

def enter (g : Mail) (manager : State) (fresh : Fresh) : NodeEvent → Mail
  | .connect uuid _ _ _ _ connection =>
    match manager.disconnected uuid with
    | some (id, _) => { g with
        connections := Function.update g.connections id (g.connections id ++ [connection]) }
    | .none => { g with
        orders := Function.update g.orders fresh.id []
        connections := Function.update g.connections fresh.id [connection] }
  | .disconnect _ => g
  | .heartbeat _ => g

def note (checks : Bool) (g : Mail) (s : System) (e : Event) (out : List Sent) : Mail :=
  match e with
  | .connects connection uuid _ _ _ _ =>
    { g with peer := Function.update g.peer connection (some uuid) }
  | .delivers fresh =>
    match s.nodeEvents with
    | [] => g
    | (_, event) :: _ => (g.enter s.manager fresh event).hear s.broken out
  | .scheduler event fresh =>
    (g.tell (s.manager.orders checks (.scheduler event fresh))).hear s.broken out
  | .processQueue => (g.tell (s.manager.orders checks .processQueue)).hear s.broken out
  | .expired _ => g.hear s.broken out
  | .sends _ _ => g
  | .ends _ _ => g
  | .breaks _ => g

end Mail

/-- The nodes that are told something either have their connection, or are known to have lost it. -/
def Reaches (s : System) (orders : List (Id × Order)) : Prop :=
  ∀ o ∈ orders, ∀ node ∈ s.manager.workers.get o.1,
    node.disconnectBuffer = .none → node.sink ∉ s.broken

/-- Nothing is written to a broken connection, no buffer that holds something is thrown away, and a
node comes back into its own slot. -/
def Heard (checks : Bool) (s : System) : Event → Prop
  | .delivers _ =>
    match s.nodeEvents with
    | (_, .connect uuid _ _ _ _ connection) :: _ => ∀ entry ∈ s.manager.disconnected uuid,
        ∀ node ∈ s.manager.workers.get entry.1, node.uuid = uuid ∧
          (connection ∈ s.broken → node.disconnectBuffer.getD [] = [])
    | (_, .disconnect id) :: _ => ∀ node ∈ s.manager.workers.get id,
        node.disconnectBuffer.getD [] = []
    | _ => True
  | .scheduler event fresh => s.Reaches (s.manager.orders checks (.scheduler event fresh))
  | .processQueue => s.Reaches (s.manager.orders checks .processQueue)
  | _ => True

/-- A node's session as a mailbox. -/
def mailbox (g : Mail) (s : System) (w : Id) (line : Line) : Mailbox NodeRequest :=
  { sent := (g.orders w).map Order.request
    received := (g.connections w).flatMap g.received
    buffer := line.buffer
    broken := decide (line.sink ∈ s.broken) }

/-- Every connection serves one slot, under the uuid of its node, and nothing has come over one that
has not been told its slot. -/
structure Routed (g : Mail) (s : System) : Prop where
  once : ∀ w, (g.connections w).Nodup
  apart : ∀ w w' c, c ∈ g.connections w → c ∈ g.connections w' → w = w'
  known : ∀ w, ∀ c ∈ g.connections w, c ∈ s.seen ∧ c ∉ s.waiting
  unheard : ∀ c, c ∉ s.seen ∨ c ∈ s.waiting → g.received c = []
  announced : ∀ c uuid name platform subworkers address connection,
    (c, NodeEvent.connect uuid name platform subworkers address connection) ∈ s.nodeEvents →
      g.peer c = some uuid
  peers : ∀ w node, s.manager.workers.get w = some node → ∀ c ∈ g.connections w,
    g.peer c = some node.uuid

/-- What a line has to do with the mail: it goes to the last connection of the session, the session's
mail is kept, and the last order is the node's assignment. -/
structure Faithful (g : Mail) (s : System) (w : Id) (line : Line) : Prop where
  sink : (g.connections w).getLast? = some line.sink
  kept : (mailbox g s w line).Kept
  assigned : line.assigned = (g.orders w).foldl (fun _ order => order.assigned) .none
  addresses : ∀ i address, Order.assign i address ∈ g.orders w →
    ∃ uuid, s.manager.sessions.schedulers i = some (uuid, address)

section Invariant
variable {g g' : Mail} {w : Id} {line : Line} {c : Connection}

theorem Faithful.sink_mem (f : Faithful g s w line) : line.sink ∈ g.connections w :=
  List.mem_of_getLast? f.sink

/-- Mail that does not concern a session leaves it as it is. -/
theorem Faithful.keep (f : Faithful g s w line) (connections : g'.connections w = g.connections w)
    (orders : g'.orders w = g.orders w)
    (received : ∀ c ∈ g.connections w, g'.received c = g.received c)
    (schedulers : ∀ i session, s.manager.sessions.schedulers i = some session →
      t.manager.sessions.schedulers i = some session) : Faithful g' t w line := by
  refine ⟨?_, ?_, ?_, ?_⟩
  · rw [connections]
    exact f.sink
  · have hkept := f.kept
    simp only [mailbox, Mailbox.Kept] at hkept ⊢
    rw [connections, orders, List.flatMap_congr received]
    exact hkept
  · rw [orders]
    exact f.assigned
  · intro i address hmem
    rw [orders] at hmem
    obtain ⟨uuid, hslot⟩ := f.addresses i address hmem
    exact ⟨uuid, schedulers i _ hslot⟩

/-- All sessions that the manager has are faithful. -/
def AllFaithful (g : Mail) (s : System) : Prop :=
  ∀ w line, s.manager.lines w = some line → Faithful g s w line

theorem distinct_lines (r : Routed g s) (f : AllFaithful g s) : s.manager.lines.Distinct := by
  intro w w' line line' hw hw' hsink
  have hmem := (f w line hw).sink_mem
  rw [hsink] at hmem
  exact r.apart w w' _ hmem (f w' line' hw').sink_mem

/-- A connection is told nothing over which no session goes at the moment. -/
theorem quiet_of_ne (r : Routed g s) (f : AllFaithful g s) (hw : s.manager.lines w = some line)
    (hc : c ∈ g.connections w) (hne : c ≠ line.sink) :
    ∀ w' line', s.manager.lines w' = some line' → line'.sink ≠ c := by
  intro w' line' hw' hsink
  have hmem := (f w' line' hw').sink_mem
  rw [hsink] at hmem
  obtain rfl := r.apart w' w c hmem hc
  rw [hw, Option.some.injEq] at hw'
  exact hne (hw' ▸ hsink.symm)

theorem quiet_of_unknown (r : Routed g s) (f : AllFaithful g s)
    (hc : c ∉ s.seen ∨ c ∈ s.waiting) :
    ∀ w line, s.manager.lines w = some line → line.sink ≠ c := by
  intro w line hw hsink
  obtain ⟨hseen, hwaiting⟩ := r.known w c (hsink ▸ (f w line hw).sink_mem)
  cases hc with
  | inl hc => exact hc hseen
  | inr hc => exact hwaiting hc

/-- What a session receives in a step is what is written to its last connection. -/
theorem flatMap_hear {conns : List Connection} (once : conns.Nodup)
    (last : conns.getLast? = some c) (broken : List Connection)
    (quiet : ∀ c' ∈ conns, c' ≠ c → Lines.writtenTo (out.filterMap Sent.letter?) c' = []) :
    conns.flatMap (g.hear broken out).received = conns.flatMap g.received ++
      if c ∈ broken then [] else Lines.writtenTo (out.filterMap Sent.letter?) c := by
  obtain ⟨before, rfl⟩ := List.getLast?_eq_some_iff.mp last
  have hbefore : before.flatMap (g.hear broken out).received = before.flatMap g.received := by
    apply List.flatMap_congr
    intro c' hc'
    have hne : c' ≠ c := by
      rintro rfl
      exact (List.nodup_append.mp once).2.2 c' hc' c' (List.mem_singleton.mpr rfl) rfl
    simp only [Mail.hear]
    rw [quiet c' (List.mem_append_left _ hc') hne, ite_self, List.append_nil]
  rw [List.flatMap_append, List.flatMap_append, hbefore, List.append_assoc]
  simp [Mail.hear]

theorem schedulers_of_step {event : NodeManager.Event}
    (h : s.manager.step checks event = .ok (t.manager, out)) :
    ∀ i session, s.manager.sessions.schedulers i = some session →
      t.manager.sessions.schedulers i = some session := by
  intro i session hi
  obtain ⟨admits, happly⟩ := State.step_sessions h
  rw [happly]
  exact Sessions.scheduler_of_apply admits hi

/-- A node that a turn of the manager finds in a slot was there before. -/
theorem node_of_step {event : NodeManager.Event}
    (h : s.manager.step checks event = .ok (t.manager, out))
    (henters : s.manager.sessions.enters? event ≠ some w) {node : Node}
    (hw : t.manager.workers.get w = some node) :
    ∃ old, s.manager.workers.get w = some old ∧ old.uuid = node.uuid := by
  have hsession : t.manager.sessions.nodes w = some node.session := by
    simp [State.sessions, tally, hw]
  rw [(State.step_sessions h).2] at hsession
  have hold := (Sessions.node_of_apply hsession).resolve_right henters
  obtain ⟨old, hold, heq⟩ := Option.map_eq_some_iff.mp hold
  exact ⟨old, hold, congrArg Prod.fst heq⟩

/-- A step over which no connection is told its slot. -/
theorem Routed.keep (r : Routed g s) (connections : g'.connections = g.connections)
    (peer : g'.peer = g.peer)
    (received : ∀ c, c ∉ s.seen ∨ c ∈ s.waiting → g'.received c = g.received c)
    (seen : t.seen = s.seen)
    (events : ∀ e ∈ t.nodeEvents, e.2.connection? ≠ none → e ∈ s.nodeEvents)
    (nodes : ∀ w node, t.manager.workers.get w = some node →
      ∃ old, s.manager.workers.get w = some old ∧ old.uuid = node.uuid) : Routed g' t := by
  have hwaiting : ∀ c ∈ t.waiting, c ∈ s.waiting := by
    intro c hc
    obtain ⟨e, he, heq⟩ := List.mem_filterMap.mp hc
    exact List.mem_filterMap.mpr ⟨e, events e he (by rw [heq]; simp), heq⟩
  constructor
  · rw [connections]
    exact r.once
  · rw [connections]
    exact r.apart
  · rw [connections, seen]
    intro w c hc
    obtain ⟨hseen, hnot⟩ := r.known w c hc
    exact ⟨hseen, fun h => hnot (hwaiting c h)⟩
  · rw [seen]
    intro c hc
    have hold : c ∉ s.seen ∨ c ∈ s.waiting := hc.imp_right (hwaiting c)
    rw [received c hold]
    exact r.unheard c hold
  · rw [peer]
    exact fun c uuid name platform subworkers address connection h =>
      r.announced c uuid name platform subworkers address connection
        (events _ h (by simp [NodeEvent.connection?]))
  · rw [connections, peer]
    intro w node hw c hc
    obtain ⟨old, hold, huuid⟩ := nodes w node hw
    rw [← huuid]
    exact r.peers w old hold c hc

/-- A connection is told its slot, in which it follows the connections `before`. -/
theorem Routed.connect (r : Routed g s) (o : s.Orderly) {uuid : Uuid} {name : Option String}
    {platform : Platform} {subworkers : Nat} {address : SocketAddr}
    {events : List (Connection × NodeEvent)}
    (hq : s.nodeEvents = (c, .connect uuid name platform subworkers address c) :: events)
    {id : Id} {before : List Connection} (sub : before.Sublist (g.connections id))
    (connections : g'.connections = Function.update g.connections id (before ++ [c]))
    (peer : g'.peer = g.peer)
    (received : ∀ c', c' ≠ c → c' ∉ s.seen ∨ c' ∈ s.waiting → g'.received c' = g.received c')
    (seen : t.seen = s.seen) (popped : t.nodeEvents = events)
    (nodes : ∀ w node, w ≠ id → t.manager.workers.get w = some node →
      ∃ old, s.manager.workers.get w = some old ∧ old.uuid = node.uuid)
    (self : ∀ node, t.manager.workers.get id = some node → node.uuid = uuid ∧
      ∀ c' ∈ before, g.peer c' = some uuid) : Routed g' t := by
  have hwait : s.waiting = c :: t.waiting := by
    rw [waiting, hq, List.filterMap_cons, waiting, popped]
    rfl
  have honce := o.once
  rw [hwait, List.nodup_cons] at honce
  have hc : c ∈ s.waiting := by
    rw [hwait]
    exact List.mem_cons_self
  have hnew : ∀ w, c ∉ g.connections w := fun w h => (r.known w c h).2 hc
  have hconns : ∀ w, ∀ c' ∈ g'.connections w, c' ∈ g.connections w ∨ w = id ∧ c' = c := by
    intro w c' h
    rw [connections] at h
    by_cases hw : w = id
    · subst hw
      rw [Function.update_self] at h
      cases List.mem_append.mp h with
      | inl h => exact .inl (sub.subset h)
      | inr h => exact .inr ⟨rfl, List.mem_singleton.mp h⟩
    · rw [Function.update_of_ne hw] at h
      exact .inl h
  constructor
  · intro w
    rw [connections]
    by_cases hw : w = id
    · subst hw
      rw [Function.update_self, List.nodup_append]
      refine ⟨sub.nodup (r.once w), by simp, ?_⟩
      intro a ha b hb hab
      rw [List.mem_singleton] at hb
      exact hnew w (hb ▸ hab ▸ sub.subset ha)
    · rw [Function.update_of_ne hw]
      exact r.once w
  · intro w w' c' h h'
    cases hconns w c' h with
    | inl h =>
      cases hconns w' c' h' with
      | inl h' => exact r.apart w w' c' h h'
      | inr h' => exact absurd (h'.2 ▸ h) (hnew w)
    | inr h =>
      cases hconns w' c' h' with
      | inl h' => exact absurd (h.2 ▸ h') (hnew w')
      | inr h' => exact h.1.trans h'.1.symm
  · intro w c' h
    rw [seen]
    cases hconns w c' h with
    | inl h =>
      obtain ⟨hseen, hnot⟩ := r.known w c' h
      refine ⟨hseen, fun hwaiting => hnot ?_⟩
      rw [hwait]
      exact List.mem_cons_of_mem _ hwaiting
    | inr h =>
      rw [h.2]
      exact ⟨o.known c _ (by rw [hq]; exact List.mem_cons_self), honce.1⟩
  · intro c' hc'
    rw [seen] at hc'
    have hne : c' ≠ c := by
      rintro rfl
      cases hc' with
      | inl h => exact h (o.known c' _ (by rw [hq]; exact List.mem_cons_self))
      | inr h => exact honce.1 h
    have hold : c' ∉ s.seen ∨ c' ∈ s.waiting := hc'.imp_right fun h => by
      rw [hwait]
      exact List.mem_cons_of_mem _ h
    rw [received c' hne hold]
    exact r.unheard c' hold
  · intro c' uuid' name' platform' subworkers' address' connection' h
    rw [popped] at h
    rw [peer]
    exact r.announced c' uuid' name' platform' subworkers' address' connection'
      (by rw [hq]; exact List.mem_cons_of_mem _ h)
  · intro w node hw c' h
    rw [peer]
    by_cases hwid : w = id
    · subst hwid
      obtain ⟨huuid, hbefore⟩ := self node hw
      rw [connections, Function.update_self] at h
      cases List.mem_append.mp h with
      | inl h => rw [hbefore c' h, huuid]
      | inr h =>
        rw [List.mem_singleton.mp h, huuid]
        exact r.announced c uuid name platform subworkers address c
          (by rw [hq]; exact List.mem_cons_self)
    · obtain ⟨old, hold, huuid⟩ := nodes w node hwid hw
      rw [connections, Function.update_of_ne hwid] at h
      rw [← huuid]
      exact r.peers w old hold c' h

/-- The mail of every session once the manager has given orders. -/
theorem AllFaithful.tell (r : Routed g s) (f : AllFaithful g s) {event : NodeManager.Event}
    (hstep : s.manager.step checks event = .ok (t.manager, out)) {orders : List (Id × Order)}
    (follows : s.manager.Follows orders t.manager out) (reaches : s.Reaches orders)
    (addresses : ∀ w i address, (w, Order.assign i address) ∈ orders →
      ∃ uuid, s.manager.sessions.schedulers i = some (uuid, address)) :
    AllFaithful ((g.tell orders).hear s.broken out) t := by
  have hd := distinct_lines r f
  intro w line hline
  rw [follows.1, Lines.obeyAll_get] at hline
  obtain ⟨old, hold, rfl⟩ := Option.map_eq_some_iff.mp hline
  have fold := f w old hold
  obtain ⟨node, hnode, hnodeLine⟩ := Option.map_eq_some_iff.mp hold
  have hwritten := Lines.writtenTo_obeyAll hd hold orders
  have hquiet : ∀ c ∈ g.connections w, c ≠ old.sink →
      Lines.writtenTo (out.filterMap Sent.letter?) c = [] := by
    intro c hc hne
    rw [follows.2]
    exact Lines.writtenTo_obeyAll_of_ne (quiet_of_ne r f hold hc hne) orders
  have hreceived := flatMap_hear (g := g.tell orders) (r.once w) fold.sink s.broken hquiet
  rw [follows.2, hwritten] at hreceived
  refine ⟨fold.sink, ?_, ?_, ?_⟩
  · have hpost := fold.kept.post ((Lines.ordersOf orders w).map Order.request) (by
      intro hbuffer hsink
      have hnone : Lines.ordersOf orders w = [] := by
        rw [List.eq_nil_iff_forall_not_mem]
        intro order hmem
        obtain ⟨o, ho, heq⟩ := List.mem_filterMap.mp hmem
        split at heq
        · rename_i hslot
          have hreach := reaches o ho node (by rw [hslot]; exact hnode)
          rw [← hnodeLine] at hbuffer hsink
          exact hreach hbuffer (of_decide_eq_true hsink)
        · cases heq
      rw [hnone]
      rfl)
    simp only [mailbox, Mailbox.post, Mailbox.Kept] at hpost ⊢
    rw [show ((g.tell orders).hear s.broken out).connections w = g.connections w from rfl,
      hreceived, show ((g.tell orders).hear s.broken out).orders w =
        g.orders w ++ Lines.ordersOf orders w from rfl, List.map_append, ← hpost]
    obtain ⟨sink, buffer, assigned⟩ := old
    cases buffer with
    | none =>
      by_cases hsink : sink ∈ s.broken
      · simp [Line.obey, hsink, Mail.tell]
      · simp [Line.obey, hsink, Mail.tell]
    | some buffer => simp [Line.obey, Mail.tell]
  · rw [show ((g.tell orders).hear s.broken out).orders w =
      g.orders w ++ Lines.ordersOf orders w from rfl, List.foldl_append, ← fold.assigned]
    rfl
  · intro i address hmem
    cases List.mem_append.mp hmem with
    | inl hmem =>
      obtain ⟨uuid, hslot⟩ := fold.addresses i address hmem
      exact ⟨uuid, schedulers_of_step hstep i _ hslot⟩
    | inr hmem =>
      obtain ⟨o, ho, heq⟩ := List.mem_filterMap.mp hmem
      split at heq
      · rw [Option.some.injEq] at heq
        obtain ⟨uuid, hslot⟩ := addresses o.1 i address (heq ▸ ho)
        exact ⟨uuid, schedulers_of_step hstep i _ hslot⟩
      · cases heq

theorem hear_silent {broken : List Connection} (h : out.filterMap Sent.letter? = []) (g : Mail) :
    g.hear broken out = g := by
  simp [Mail.hear, h, Lines.writtenTo]

/-- What the invariant says of the manager, the connections and the mail. -/
structure Postal (g : Mail) (s : System) : Prop where
  orderly : s.Orderly
  routed : Routed g s
  faithful : AllFaithful g s

theorem Postal.disconnect (p : Postal g s) {id : Id} {fresh : Fresh}
    {events : List (Connection × NodeEvent)} (hq : s.nodeEvents = (c, .disconnect id) :: events)
    (heard : s.Heard checks (.delivers fresh))
    (hstep : s.manager.processNode (.disconnect id) fresh = .ok (t.manager, out))
    (popped : t.nodeEvents = events) (seen : t.seen = s.seen) :
    Routed (g.hear s.broken out) t ∧ AllFaithful (g.hear s.broken out) t := by
  have hturn : s.manager.step checks (.node (.disconnect id) fresh) = .ok (t.manager, out) := hstep
  obtain ⟨hlines, hletters⟩ := State.disconnect_lines hstep
  rw [hear_silent hletters]
  constructor
  · apply p.routed.keep rfl rfl (fun _ _ => rfl) seen
    · intro e he _
      rw [hq]
      exact List.mem_cons_of_mem _ (popped ▸ he)
    · exact fun w node hw => node_of_step hturn (by simp [Sessions.enters?]) hw
  · intro w line hline
    rw [hlines] at hline
    have hkeep : ∀ old, s.manager.lines w = some old → Faithful g t w old := fun old hold =>
      (p.faithful w old hold).keep rfl rfl (fun _ _ => rfl) (schedulers_of_step hturn)
    by_cases hw : w = id
    · subst hw
      rw [Function.update_self] at hline
      obtain ⟨old, hold, rfl⟩ := Option.map_eq_some_iff.mp hline
      obtain ⟨node, hnode, hnodeLine⟩ := Option.map_eq_some_iff.mp hold
      have f := hkeep old hold
      have hempty : old.buffer.getD [] = [] := by
        simp only [Heard, hq] at heard
        rw [← hnodeLine]
        exact heard node hnode
      exact ⟨f.sink, f.kept.suspend hempty, f.assigned, f.addresses⟩
    · rw [Function.update_of_ne hw] at hline
      exact hkeep line hline

/-- A node that connects anew has been told nothing. -/
theorem Postal.establish (p : Postal g s) {uuid : Uuid} {name : Option String}
    {platform : Platform} {subworkers : Nat} {address : SocketAddr} {fresh : Fresh}
    {events : List (Connection × NodeEvent)}
    (hq : s.nodeEvents = (c, .connect uuid name platform subworkers address c) :: events)
    (hd : s.manager.disconnected uuid = none)
    (hstep : s.manager.processNode (.connect uuid name platform subworkers address c) fresh =
      .ok (t.manager, out)) (popped : t.nodeEvents = events) (seen : t.seen = s.seen) :
    let g' := g.enter s.manager fresh (.connect uuid name platform subworkers address c)
    Routed (g'.hear s.broken out) t ∧ AllFaithful (g'.hear s.broken out) t := by
  have hturn : s.manager.step true (.node (.connect uuid name platform subworkers address c)
    fresh) = .ok (t.manager, out) := hstep
  obtain ⟨hlines, hletters⟩ := State.connect_lines hd hstep
  have hc : c ∈ s.waiting := by
    rw [waiting, hq]
    exact List.mem_cons_self
  simp only [Mail.enter, hd]
  rw [hear_silent hletters]
  constructor
  · refine p.routed.connect p.orderly hq (List.nil_sublist (g.connections fresh.id)) rfl ?_ ?_ seen
      popped ?_ ?_
    · rfl
    · exact fun _ _ _ => rfl
    · intro w node hw hnode
      apply node_of_step hturn ?_ hnode
      simp [Sessions.enters?, State.sessions, hd, Ne.symm hw]
    · intro node hnode
      refine ⟨?_, by simp⟩
      have hsession : t.manager.sessions.nodes fresh.id = some node.session := by
        simp [State.sessions, tally, hnode]
      rw [(State.step_sessions hturn).2] at hsession
      have hself : (uuid, fresh.key) = node.session := by
        simpa [Sessions.apply, State.sessions, hd] using hsession
      exact (congrArg Prod.fst hself).symm
  · intro w line hline
    rw [hlines] at hline
    by_cases hw : w = fresh.id
    · subst hw
      rw [Function.update_self, Option.some.injEq] at hline
      subst hline
      refine ⟨?_, ?_, ?_, ?_⟩
      · simp
      · simp [mailbox, Mailbox.Kept, p.routed.unheard c (.inr hc)]
      · simp
      · simp
    · rw [Function.update_of_ne hw] at hline
      apply (p.faithful w line hline).keep
      · simp [Function.update_of_ne hw]
      · simp [Function.update_of_ne hw]
      · exact fun _ _ => rfl
      · exact schedulers_of_step hturn

/-- A node that comes back is told what was kept for it. -/
theorem Postal.restore (p : Postal g s) {uuid : Uuid} {name : Option String}
    {platform : Platform} {subworkers : Nat} {address : SocketAddr} {fresh : Fresh} {id : Id}
    {key : Key} {events : List (Connection × NodeEvent)}
    (hq : s.nodeEvents = (c, .connect uuid name platform subworkers address c) :: events)
    (hd : s.manager.disconnected uuid = some (id, key))
    (heard : s.Heard checks (.delivers fresh))
    (hstep : s.manager.processNode (.connect uuid name platform subworkers address c) fresh =
      .ok (t.manager, out)) (popped : t.nodeEvents = events) (seen : t.seen = s.seen) :
    let g' := g.enter s.manager fresh (.connect uuid name platform subworkers address c)
    Routed (g'.hear s.broken out) t ∧ AllFaithful (g'.hear s.broken out) t := by
  have hturn : s.manager.step checks (.node (.connect uuid name platform subworkers address c)
    fresh) = .ok (t.manager, out) := hstep
  obtain ⟨node, hnode, hlines, hletters⟩ := State.restore_lines hd hstep
  simp only [Heard, hq] at heard
  obtain ⟨huuid, hbroken⟩ := heard (id, key) hd node hnode
  have hold : s.manager.lines id = some node.line := by simp [State.lines, tally, hnode]
  have hc : c ∈ s.waiting := by
    rw [waiting, hq]
    exact List.mem_cons_self
  have hquiet : ∀ c', c' ≠ c → Lines.writtenTo (out.filterMap Sent.letter?) c' = [] := by
    intro c' hne
    simp [hletters, Lines.writtenTo, List.filterMap_map, Ne.symm hne]
  have hwritten : Lines.writtenTo (out.filterMap Sent.letter?) c =
      node.disconnectBuffer.getD [] := by
    simp [hletters, Lines.writtenTo, List.filterMap_map]
  have hsame : ∀ (g' : Mail) c', c' ≠ c →
      (g'.hear s.broken out).received c' = g'.received c' := by
    intro g' c' hne
    simp [Mail.hear, hquiet c' hne]
  have hnew : ∀ w, c ∉ g.connections w := fun w h => (p.routed.known w c h).2 hc
  have hnodes : ∀ w node', t.manager.workers.get w = some node' →
      ∃ old, s.manager.workers.get w = some old ∧ old.uuid = node'.uuid := by
    intro w node' hnode'
    apply node_of_step hturn ?_ hnode'
    simp [Sessions.enters?, State.sessions, hd]
  simp only [Mail.enter, hd]
  constructor
  · refine p.routed.connect p.orderly hq (List.Sublist.refl (g.connections id)) ?_ ?_ ?_ seen popped
      ?_ ?_
    · rfl
    · rfl
    · exact fun c' hne _ => hsame _ c' hne
    · exact fun w node' _ hnode' => hnodes w node' hnode'
    · intro node' hnode'
      obtain ⟨old, hold', huuid'⟩ := hnodes id node' hnode'
      rw [hnode, Option.some.injEq] at hold'
      rw [← huuid', ← hold', huuid]
      exact ⟨rfl, fun c' hc' => huuid ▸ p.routed.peers id node hnode c' hc'⟩
  · intro w line hline
    rw [hlines] at hline
    by_cases hw : w = id
    · subst hw
      rw [Function.update_self, Option.some.injEq] at hline
      subst hline
      have f := p.faithful w node.line hold
      refine ⟨?_, ?_, f.assigned, ?_⟩
      · simp [Mail.hear]
      · have hrestore := f.kept.restore (decide (c ∈ s.broken))
          fun h => hbroken (of_decide_eq_true h)
        have honce : (g.connections w ++ [c]).Nodup := by
          rw [List.nodup_append]
          refine ⟨p.routed.once w, by simp, ?_⟩
          intro a ha b hb hab
          rw [List.mem_singleton] at hb
          exact hnew w (hb ▸ hab ▸ ha)
        have hreceived := flatMap_hear (g := g) honce List.getLast?_concat s.broken
          (fun c' _ hne => hquiet c' hne)
        simp only [mailbox, Mailbox.restore, Mailbox.Kept] at hrestore ⊢
        simp only [Mail.hear, Function.update_self] at hreceived ⊢
        rw [hreceived, List.flatMap_append, List.flatMap_singleton, hwritten,
          p.routed.unheard c (.inr hc)]
        simpa [Node.line] using hrestore
      · intro i address' hmem
        obtain ⟨uuid', hslot⟩ := f.addresses i address' hmem
        exact ⟨uuid', schedulers_of_step hturn i _ hslot⟩
    · rw [Function.update_of_ne hw] at hline
      apply (p.faithful w line hline).keep
      · simp [Mail.hear, Function.update_of_ne hw]
      · rfl
      · intro c' hc'
        apply hsame
        rintro rfl
        exact hnew w hc'
      · exact schedulers_of_step hturn

theorem Postal.heartbeat (p : Postal g s) {id : Id} {fresh : Fresh}
    {events : List (Connection × NodeEvent)} (hq : s.nodeEvents = (c, .heartbeat id) :: events)
    (hstep : s.manager.processNode (.heartbeat id) fresh = .ok (t.manager, out))
    (popped : t.nodeEvents = events) (seen : t.seen = s.seen) :
    Routed (g.hear s.broken out) t ∧ AllFaithful (g.hear s.broken out) t := by
  have hturn : s.manager.step true (.node (.heartbeat id) fresh) = .ok (t.manager, out) := hstep
  obtain ⟨hlines, hletters⟩ := State.heartbeat_lines hstep
  rw [hear_silent hletters]
  constructor
  · apply p.routed.keep rfl rfl (fun _ _ => rfl) seen
    · intro e he _
      rw [hq]
      exact List.mem_cons_of_mem _ (popped ▸ he)
    · exact fun w node hw => node_of_step hturn (by simp [Sessions.enters?]) hw
  · intro w line hline
    rw [hlines] at hline
    exact (p.faithful w line hline).keep rfl rfl (fun _ _ => rfl) (schedulers_of_step hturn)

/-- Every order to serve a scheduler names its address. -/
theorem orders_addresses {manager : State} {event : NodeManager.Event} {i : Id}
    {address : SocketAddr} (h : (w, Order.assign i address) ∈ manager.orders checks event) :
    ∃ uuid, manager.sessions.schedulers i = some (uuid, address) := by
  have hreleases : ∀ id, (w, Order.assign i address) ∉ manager.releases id := by
    intro id h
    unfold State.releases at h
    split at h
    · cases h
    · split at h
      · obtain ⟨_, _, heq⟩ := List.mem_map.mp h
        cases heq
      · cases h
  cases event with
  | node event fresh => cases h
  | expired key => cases h
  | scheduler event fresh =>
    cases event with
    | connect uuid name address connection => cases h
    | disconnect id => cases h
    | message id request =>
      rw [State.orders_message] at h
      split at h
      · cases h
      · exact absurd h (hreleases id)
  | processQueue =>
    simp only [State.orders] at h
    split at h
    · obtain ⟨entry, _, hmem⟩ := List.mem_flatMap.mp h
      unfold State.assignments at hmem
      split at hmem
      · cases hmem
      · rename_i scheduler hs
        obtain ⟨_, _, heq⟩ := List.mem_map.mp hmem
        simp only [Prod.mk.injEq, Order.assign.injEq] at heq
        obtain ⟨_, rfl, rfl⟩ := heq
        exact ⟨scheduler.uuid, by simp [State.sessions, tally, hs, Scheduler.session]⟩
    · cases h

/-- A turn in which the manager gives orders. -/
theorem Postal.turn (p : Postal g s) {event : NodeManager.Event}
    (henters : s.manager.sessions.enters? event = none)
    (follows : s.manager.Follows (s.manager.orders checks event) t.manager out)
    (reaches : s.Reaches (s.manager.orders checks event))
    (hstep : s.turn checks event = .ok (t, out)) :
    Routed ((g.tell (s.manager.orders checks event)).hear s.broken out) t ∧
      AllFaithful ((g.tell (s.manager.orders checks event)).hear s.broken out) t := by
  obtain ⟨hturn, ht⟩ := turn_ok hstep
  constructor
  · refine p.routed.keep ?_ ?_ ?_ ?_ ?_ ?_
    · rfl
    · rfl
    · intro c hc
      have hquiet := Lines.writtenTo_obeyAll_of_ne (quiet_of_unknown p.routed p.faithful hc)
        (s.manager.orders checks event)
      simp only [Mail.hear, follows.2, hquiet, ite_self, List.append_nil]
      rfl
    · rw [ht]
    · intro e he _
      rw [ht] at he
      exact he
    · exact fun w node hw => node_of_step hturn (by simp [henters]) hw
  · exact AllFaithful.tell p.routed p.faithful hturn follows reaches
      fun w i address h => orders_addresses h

/-- A step of a connection that tells the manager nothing new of itself. -/
theorem Postal.still (p : Postal g s) (manager : t.manager = s.manager) (seen : t.seen = s.seen)
    (events : ∀ e ∈ t.nodeEvents, e.2.connection? ≠ none → e ∈ s.nodeEvents) :
    Routed g t ∧ AllFaithful g t := by
  constructor
  · apply p.routed.keep rfl rfl (fun _ _ => rfl) seen events
    exact fun w node hw => ⟨node, manager ▸ hw, rfl⟩
  · intro w line hline
    apply (p.faithful w line (manager ▸ hline)).keep rfl rfl (fun _ _ => rfl)
    exact fun i session hi => manager ▸ hi

theorem Postal.connects (p : Postal g s) (hc : c ∉ s.seen) {uuid : Uuid} {name : Option String}
    {platform : Platform} {subworkers : Nat} {address : SocketAddr} :
    let t := { s with
      seen := c :: s.seen
      nodeEvents := s.nodeEvents ++
        [(c, NodeEvent.connect uuid name platform subworkers address c)] }
    let g' := { g with peer := Function.update g.peer c (some uuid) }
    Routed g' t ∧ AllFaithful g' t := by
  dsimp only
  have hwaiting : waiting { s with
      seen := c :: s.seen
      nodeEvents := s.nodeEvents ++
        [(c, NodeEvent.connect uuid name platform subworkers address c)] } = s.waiting ++ [c] := by
    simp [waiting, NodeEvent.connection?]
  have hpeer : ∀ c' ∈ s.seen, Function.update g.peer c (some uuid) c' = g.peer c' := by
    intro c' hseen
    apply Function.update_of_ne
    rintro rfl
    exact hc hseen
  constructor
  · refine ⟨p.routed.once, p.routed.apart, ?_, ?_, ?_, ?_⟩
    · intro w c' h
      obtain ⟨hseen, hnot⟩ := p.routed.known w c' h
      refine ⟨List.mem_cons_of_mem _ hseen, ?_⟩
      rw [hwaiting, List.mem_append, not_or, List.mem_singleton]
      refine ⟨hnot, ?_⟩
      rintro rfl
      exact hc hseen
    · intro c' h
      apply p.routed.unheard c'
      rw [hwaiting] at h
      cases h with
      | inl h => exact .inl fun hseen => h (List.mem_cons_of_mem _ hseen)
      | inr h =>
        cases List.mem_append.mp h with
        | inl h => exact .inr h
        | inr h => exact .inl (List.mem_singleton.mp h ▸ hc)
    · intro c' uuid' name' platform' subworkers' address' connection' h
      cases List.mem_append.mp h with
      | inl h =>
        exact (hpeer c' (p.orderly.known c' _ h)).trans (p.routed.announced c' uuid' name' platform'
          subworkers' address' connection' h)
      | inr h =>
        rw [List.mem_singleton, Prod.mk.injEq, NodeEvent.connect.injEq] at h
        obtain ⟨rfl, rfl, _⟩ := h
        exact Function.update_self ..
    · intro w node hw c' h
      exact (hpeer c' (p.routed.known w c' h).1).trans (p.routed.peers w node hw c' h)
  · intro w line hline
    exact (p.faithful w line hline).keep rfl rfl (fun _ _ => rfl) (fun _ _ hi => hi)

theorem Postal.expired (p : Postal g s) {key : Key}
    (h : s.turn checks (.expired key) = .ok (t, out)) :
    Routed (g.hear s.broken out) t ∧ AllFaithful (g.hear s.broken out) t := by
  obtain ⟨hturn, ht⟩ := turn_ok h
  obtain ⟨hlines, hletters⟩ := State.processExpiration_lines hturn
  rw [hear_silent hletters]
  constructor
  · apply p.routed.keep rfl rfl (fun _ _ => rfl)
    · rw [ht]
    · intro e he _
      rw [ht] at he
      exact he
    · exact fun w node hw => node_of_step hturn (by simp [Sessions.enters?]) hw
  · intro w line hline
    exact (p.faithful w line (hlines w line hline)).keep rfl rfl (fun _ _ => rfl)
      (schedulers_of_step hturn)

theorem Postal.step (p : Postal g s) (heard : s.Heard checks e)
    (h : s.step checks e = .ok (t, out)) : Postal (g.note checks s e out) t := by
  have o := step_orderly p.orderly h
  have hpush : ∀ c (event : NodeEvent), event.connection? = none →
      ∀ e ∈ s.nodeEvents ++ [(c, event)], e.2.connection? ≠ none → e ∈ s.nodeEvents := by
    intro c event hnone e he hne
    cases List.mem_append.mp he with
    | inl he => exact he
    | inr he =>
      rw [List.mem_singleton] at he
      rw [he] at hne
      exact absurd hnone hne
  cases e with
  | connects c uuid name platform subworkers address =>
    simp only [System.step] at h
    split at h
    · cases h
    · rename_i hc
      simp only [Except.ok.injEq, Prod.mk.injEq] at h
      obtain ⟨rfl, _⟩ := h
      obtain ⟨hr, hf⟩ := p.connects hc
      exact ⟨o, hr, hf⟩
  | sends c id =>
    simp only [System.step] at h
    split at h
    · simp only [Except.ok.injEq, Prod.mk.injEq] at h
      obtain ⟨rfl, _⟩ := h
      obtain ⟨hr, hf⟩ := p.still
        (t := { s with nodeEvents := s.nodeEvents ++ [(c, .heartbeat id)] })
        rfl rfl (hpush c (.heartbeat id) rfl)
      exact ⟨o, hr, hf⟩
    · cases h
  | ends c id =>
    simp only [System.step] at h
    split at h
    · simp only [Except.ok.injEq, Prod.mk.injEq] at h
      obtain ⟨rfl, _⟩ := h
      obtain ⟨hr, hf⟩ := p.still
        (t := { s with
          nodeEvents := s.nodeEvents ++ [(c, .disconnect id)]
          links := s.links.filter fun link => link.1 ≠ c })
        rfl rfl (hpush c (.disconnect id) rfl)
      exact ⟨o, hr, hf⟩
    · cases h
  | breaks c =>
    simp only [System.step, Except.ok.injEq, Prod.mk.injEq] at h
    obtain ⟨rfl, _⟩ := h
    obtain ⟨hr, hf⟩ := p.still (t := { s with broken := c :: s.broken })
      rfl rfl (fun e he _ => he)
    exact ⟨o, hr, hf⟩
  | delivers fresh =>
    obtain ⟨c, event, events, hq, hstep, ht⟩ := delivers_ok h
    have popped : t.nodeEvents = events := by rw [ht]
    have seen : t.seen = s.seen := by rw [ht]
    simp only [Mail.note, hq]
    cases event with
    | disconnect id =>
      obtain ⟨hr, hf⟩ := p.disconnect hq heard hstep popped seen
      exact ⟨o, hr, hf⟩
    | heartbeat id =>
      obtain ⟨hr, hf⟩ := p.heartbeat hq hstep popped seen
      exact ⟨o, hr, hf⟩
    | connect uuid name platform subworkers address connection =>
      obtain rfl : connection = c :=
        p.orderly.connects c _ connection (by rw [hq]; exact List.mem_cons_self) rfl
      cases hd : s.manager.disconnected uuid with
      | none =>
        obtain ⟨hr, hf⟩ := p.establish hq hd hstep popped seen
        exact ⟨o, hr, hf⟩
      | some entry =>
        obtain ⟨hr, hf⟩ := p.restore hq hd heard hstep popped seen
        exact ⟨o, hr, hf⟩
  | expired key =>
    obtain ⟨hr, hf⟩ := p.expired h
    exact ⟨o, hr, hf⟩
  | scheduler event fresh =>
    obtain ⟨hr, hf⟩ := p.turn rfl (State.processScheduler_follows (turn_ok h).1) heard h
    exact ⟨o, hr, hf⟩
  | processQueue =>
    have hqueue : s.manager.Follows (s.manager.orders checks .processQueue) t.manager out := by
      have hturn := (turn_ok h).1
      simp only [State.step] at hturn
      split at hturn
      · have hfollows := State.processQueue_follows hturn
        exact hfollows
      · cases hturn
    obtain ⟨hr, hf⟩ := p.turn rfl hqueue heard h
    exact ⟨o, hr, hf⟩

theorem postal_of_run (run : Run (System.step checks) (System.Heard checks) .new es out s) :
    Postal (history (System.step checks) (Mail.note checks) .none .new es) s := by
  apply run.invariant_history (Mail.note checks) (I := fun g _ _ s => Postal g s)
  · refine ⟨orderly_new, ?_, ?_⟩
    · constructor
      all_goals simp [Mail.none, System.new, State.new]
    · intro w line hline
      simp [System.new, State.new, State.lines, tally] at hline
  · intro g es out s e t out' p heard taken
    exact p.step heard taken

/-- The last order of a session is what the manager has the node assigned to. -/
theorem Faithful.agrees (f : Faithful g s w line) :
    match (g.orders w).getLast? with
    | some (.assign i address) => line.assigned = some i ∧
        ∃ uuid, s.manager.sessions.schedulers i = some (uuid, address)
    | _ => line.assigned = none := by
  have hassigned := f.assigned
  split
  · rename_i i address hlast
    obtain ⟨orders, horders⟩ := List.getLast?_eq_some_iff.mp hlast
    rw [horders, List.foldl_append] at hassigned
    refine ⟨hassigned, f.addresses i address ?_⟩
    exact List.mem_of_getLast? hlast
  · rename_i hnot
    cases hlast : (g.orders w).getLast? with
    | none =>
      rw [List.getLast?_eq_none_iff] at hlast
      rw [hassigned, hlast]
      rfl
    | some order =>
      obtain ⟨orders, horders⟩ := List.getLast?_eq_some_iff.mp hlast
      rw [horders, List.foldl_append] at hassigned
      cases order with
      | assign i address => exact absurd hlast (hnot i address)
      | unassign => exact hassigned

/-- What the node has been told last is what the manager has it assigned to. -/
def Knows (s : State) (node : Node) (received : List NodeRequest) : Prop :=
  match received.getLast? with
  | some (.assignClient address) => ∃ i scheduler, node.assigned = some i ∧
      s.schedulers.get i = some scheduler ∧ scheduler.address = address
  | _ => node.assigned = none

/-- What the node of a session has received over the connections of the session, and what is kept
for it, is what the manager has told it, in that order. A node for which nothing is kept knows its
assignment. -/
structure Delivered (g : Mail) (s : State) (w : Id) (node : Node) : Prop where
  current : (g.connections w).getLast? = some node.sink
  peers : ∀ c ∈ g.connections w, g.peer c = some node.uuid
  received : (g.connections w).flatMap g.received ++ node.disconnectBuffer.getD [] =
    (g.orders w).map Order.request
  assigned : node.disconnectBuffer = none → Knows s node ((g.connections w).flatMap g.received)

theorem Postal.delivered (p : Postal g s) {node : Node}
    (hw : s.manager.workers.get w = some node) : Delivered g s.manager w node := by
  have hline : s.manager.lines w = some node.line := by simp [State.lines, tally, hw]
  have f := p.faithful w node.line hline
  have hkept : (g.connections w).flatMap g.received ++ node.disconnectBuffer.getD [] =
      (g.orders w).map Order.request := f.kept
  refine ⟨f.sink, p.routed.peers w node hw, hkept, ?_⟩
  intro hbuffer
  rw [hbuffer, Option.getD_none, List.append_nil] at hkept
  have hagrees := f.agrees
  unfold Knows
  rw [hkept, List.getLast?_map]
  cases hlast : (g.orders w).getLast? with
  | none =>
    rw [hlast] at hagrees
    exact hagrees
  | some order =>
    rw [hlast] at hagrees
    cases order with
    | unassign => exact hagrees
    | assign i address =>
      obtain ⟨hassigned, uuid, hslot⟩ := hagrees
      obtain ⟨scheduler, hs, hsession⟩ := Option.map_eq_some_iff.mp hslot
      exact ⟨i, scheduler, hassigned, hs, congrArg Prod.snd hsession⟩

/-- As long as nothing is written to a connection that is broken and not yet known to be, what every
node receives is what the manager has told it. -/
theorem run_mail {node : Node} (run : Run (System.step checks) (System.Heard checks) .new es out s)
    (hw : s.manager.workers.get w = some node) :
    Delivered (history (System.step checks) (Mail.note checks) .none .new es) s.manager w node :=
  (postal_of_run run).delivered hw

instance (s : System) (orders : List (Id × Order)) : Decidable (s.Reaches orders) :=
  inferInstanceAs (Decidable (∀ o ∈ orders, ∀ node ∈ s.manager.workers.get o.1,
    node.disconnectBuffer = .none → node.sink ∉ s.broken))

instance (checks : Bool) (s : System) : ∀ e, Decidable (s.Heard checks e)
  | .delivers _ =>
    match hq : s.nodeEvents with
    | [] => .isTrue (by simp [Heard, hq])
    | (_, .connect uuid _ _ _ _ connection) :: _ => decidable_of_iff
        (∀ entry ∈ s.manager.disconnected uuid, ∀ node ∈ s.manager.workers.get entry.1,
          node.uuid = uuid ∧ (connection ∈ s.broken → node.disconnectBuffer.getD [] = []))
        (by simp only [Heard, hq])
    | (_, .disconnect id) :: _ => decidable_of_iff
        (∀ node ∈ s.manager.workers.get id, node.disconnectBuffer.getD [] = [])
        (by simp only [Heard, hq])
    | (_, .heartbeat _) :: _ => .isTrue (by simp [Heard, hq])
  | .scheduler event fresh =>
    decidable_of_iff (s.Reaches (s.manager.orders checks (.scheduler event fresh))) .rfl
  | .processQueue => decidable_of_iff (s.Reaches (s.manager.orders checks .processQueue)) .rfl
  | .connects .. => .isTrue trivial
  | .sends .. => .isTrue trivial
  | .ends .. => .isTrue trivial
  | .breaks .. => .isTrue trivial
  | .expired .. => .isTrue trivial

/-- A node loses its connection, is assigned while it is away, and comes back. -/
def away : List Event :=
  [.connects 0 1 none State.linux 1 ⟨[], 0⟩, .delivers ⟨0, 0⟩,
    .scheduler (.connect 3 none ⟨[], 0⟩ 2) ⟨0, 1⟩,
    .scheduler (.message 0 (.workersDemand none [State.linux])) ⟨0, 1⟩,
    .breaks 0, .ends 0 0, .delivers ⟨0, 1⟩, .processQueue,
    .connects 1 1 none State.linux 1 ⟨[], 0⟩, .delivers ⟨0, 2⟩]

theorem run_mail_away : ∃ s : System, ∃ node : Node,
    s.manager.workers.get 0 = some node ∧ node.assigned = some 0 ∧ node.sink = 1 ∧
      Delivered (history (System.step true) (Mail.note true) .none .new away) s.manager 0 node := by
  obtain ⟨s, out, run, h⟩ := exists_run (System.step true) (System.Heard true) .new away
    (fun r => (r.1.manager.workers.get 0).any fun node => node.assigned = some 0 ∧ node.sink = 1)
    (by decide)
  obtain ⟨node, hw, h⟩ := (Option.any_eq_true ..).mp h
  rw [decide_eq_true_eq] at h
  exact ⟨s, node, hw, h.1, h.2, run_mail run hw⟩

/-- A node loses its connection, and is assigned before the manager takes the `Disconnect`. -/
def unheard : List Event :=
  [.connects 0 1 none State.linux 1 ⟨[], 0⟩, .delivers ⟨0, 0⟩,
    .scheduler (.connect 3 none ⟨[], 0⟩ 2) ⟨0, 1⟩,
    .scheduler (.message 0 (.workersDemand none [State.linux])) ⟨0, 1⟩,
    .breaks 0, .ends 0 0, .processQueue, .delivers ⟨0, 1⟩,
    .connects 1 1 none State.linux 1 ⟨[], 0⟩, .delivers ⟨0, 2⟩]

/-- The node that comes back never hears of its assignment. -/
theorem mail_lost : ¬ ∀ es out s w node,
    Run (System.step true) (fun _ _ => True) .new es out s →
      s.manager.workers.get w = some node →
        Delivered (history (System.step true) (Mail.note true) .none .new es) s.manager w node := by
  intro h
  obtain ⟨s, out, run, hs⟩ := exists_run (System.step true) (fun _ _ => True) .new unheard
    (fun r => (r.1.manager.workers.get 0).any fun node => node.disconnectBuffer = none)
    (by decide)
  obtain ⟨node, hw, hbuffer⟩ := (Option.any_eq_true ..).mp hs
  rw [decide_eq_true_eq] at hbuffer
  have hreceived := (h unheard out s 0 node run hw).received
  rw [hbuffer] at hreceived
  have hlost : (history (System.step true) (Mail.note true) .none .new unheard).connections 0 =
      [0, 1] ∧
      (history (System.step true) (Mail.note true) .none .new unheard).received 0 = [] ∧
      (history (System.step true) (Mail.note true) .none .new unheard).received 1 = [] ∧
      (history (System.step true) (Mail.note true) .none .new unheard).orders 0 =
        [.assign 0 ⟨[], 0⟩] := by decide
  obtain ⟨hc, h₀, h₁, ho⟩ := hlost
  rw [hc, ho] at hreceived
  simp [h₀, h₁] at hreceived

end Invariant

end System
end GridServer.NodeManager
