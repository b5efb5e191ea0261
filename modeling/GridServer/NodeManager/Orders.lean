import GridServer.NodeManager.Connections

namespace GridServer.NodeManager
open Library

/-- What the manager decides about a node, and tells it. -/
inductive Order where
  | assign (schedulerId : Id) (address : SocketAddr)
  | unassign
deriving DecidableEq, Repr

namespace Order

def request : Order → NodeRequest
  | assign _ address => .assignClient address
  | unassign => .unassignClient

def assigned : Order → Option Id
  | assign schedulerId _ => some schedulerId
  | unassign => none

end Order

/-- The manager's end of a node's session. -/
structure Line where
  sink : Connection
  buffer : Option (List NodeRequest)
  assigned : Option Id
deriving DecidableEq, Repr

def Node.line (node : Node) : Line := ⟨node.sink, node.disconnectBuffer, node.assigned⟩

/-- A request written to a connection. -/
def Sent.letter? : Sent → Option (Connection × NodeRequest)
  | .node sink request => some (sink, request)
  | _ => none

namespace Line

def obey (line : Line) (orders : List Order) : Line :=
  { line with
    buffer := line.buffer.map fun buffer => buffer ++ orders.map Order.request
    assigned := orders.foldl (fun _ order => order.assigned) line.assigned }

/-- What is written to the connection for the orders. -/
def letters (line : Line) (orders : List Order) : List (Connection × NodeRequest) :=
  if line.buffer.isNone then orders.map fun order => (line.sink, order.request) else []

@[simp] theorem obey_nil (line : Line) : line.obey [] = line := by
  obtain ⟨sink, buffer, assigned⟩ := line
  cases buffer with
  | none => rfl
  | some buffer => simp [obey]

theorem obey_cons (line : Line) (order : Order) (orders : List Order) :
    line.obey (order :: orders) = (line.obey [order]).obey orders := by
  simp [obey, Function.comp_def]

end Line

theorem Node.send_line (node : Node) (order : Order) :
    ({ node with assigned := order.assigned }.send order.request).1.line =
        node.line.obey [order] ∧
      ({ node with assigned := order.assigned }.send order.request).2.filterMap Sent.letter? =
        node.line.letters [order] := by
  cases hb : node.disconnectBuffer with
  | none => simp [Node.send, Node.line, Line.obey, Line.letters, hb, Sent.letter?]
  | some buffer => simp [Node.send, Node.line, Line.obey, Line.letters, hb]

/-- All lines by slot. -/
abbrev Lines := Id → Option Line

namespace Lines

def obey (lines : Lines) (w : Id) (order : Order) : Lines :=
  Function.update lines w ((lines w).map fun line => line.obey [order])

def letters (lines : Lines) (w : Id) (order : Order) : List (Connection × NodeRequest) :=
  ((lines w).map fun line => line.letters [order]).getD []

/-- The orders are given one after another. -/
def obeyAll : Lines → List (Id × Order) → Lines × List (Connection × NodeRequest)
  | lines, [] => (lines, [])
  | lines, (w, order) :: orders =>
    let rest := obeyAll (lines.obey w order) orders
    (rest.1, lines.letters w order ++ rest.2)

/-- The orders that are for one slot. -/
def ordersOf (orders : List (Id × Order)) (w : Id) : List Order :=
  orders.filterMap fun o => if o.1 = w then some o.2 else none

theorem ordersOf_cons_self (w : Id) (order : Order) (orders : List (Id × Order)) :
    ordersOf ((w, order) :: orders) w = order :: ordersOf orders w := by simp [ordersOf]

theorem ordersOf_cons_of_ne {w k : Id} (h : k ≠ w) (order : Order) (orders : List (Id × Order)) :
    ordersOf ((w, order) :: orders) k = ordersOf orders k := by simp [ordersOf, Ne.symm h]

/-- Every line obeys the orders that are for it. -/
theorem obeyAll_get (lines : Lines) (orders : List (Id × Order)) (w : Id) :
    (obeyAll lines orders).1 w = (lines w).map fun line => line.obey (ordersOf orders w) := by
  induction orders generalizing lines with
  | nil =>
    cases hl : lines w with
    | none => simp [obeyAll, hl]
    | some line => simp [obeyAll, ordersOf, hl]
  | cons o orders ih =>
    obtain ⟨k, order⟩ := o
    rw [obeyAll, ih]
    by_cases hw : w = k
    · subst hw
      rw [ordersOf_cons_self, obey, Function.update_self, Option.map_map]
      congr 1
      funext line
      exact (line.obey_cons order _).symm
    · rw [ordersOf_cons_of_ne hw, obey, Function.update_of_ne hw]

/-- No two slots write to the same connection. -/
def Distinct (lines : Lines) : Prop :=
  ∀ w w' line line', lines w = some line → lines w' = some line' → line.sink = line'.sink → w = w'

theorem Distinct.obey {lines : Lines} (d : lines.Distinct) (w : Id) (order : Order) :
    (lines.obey w order).Distinct := by
  have hsink : ∀ k line, lines.obey w order k = some line →
      ∃ old, lines k = some old ∧ old.sink = line.sink := by
    intro k line hk
    by_cases hkw : k = w
    · subst hkw
      rw [Lines.obey, Function.update_self] at hk
      obtain ⟨old, hold, rfl⟩ := Option.map_eq_some_iff.mp hk
      exact ⟨old, hold, rfl⟩
    · rw [Lines.obey, Function.update_of_ne hkw] at hk
      exact ⟨line, hk, rfl⟩
  intro k k' line line' hk hk' hs
  obtain ⟨old, hold, he⟩ := hsink k line hk
  obtain ⟨old', hold', he'⟩ := hsink k' line' hk'
  exact d k k' old old' hold hold' (he.trans (hs.trans he'.symm))

/-- The requests that are written to one connection. -/
def writtenTo (letters : List (Connection × NodeRequest)) (c : Connection) : List NodeRequest :=
  letters.filterMap fun letter => if letter.1 = c then some letter.2 else none

theorem writtenTo_append (letters letters' : List (Connection × NodeRequest)) (c : Connection) :
    writtenTo (letters ++ letters') c = writtenTo letters c ++ writtenTo letters' c :=
  List.filterMap_append ..

theorem writtenTo_letters (line : Line) (orders : List Order) (c : Connection) :
    writtenTo (line.letters orders) c =
      if line.sink = c ∧ line.buffer = none then orders.map Order.request else [] := by
  by_cases hc : line.sink = c
  · cases hb : line.buffer with
    | none => simp [writtenTo, Line.letters, hb, hc, List.filterMap_map]
    | some buffer => simp [writtenTo, Line.letters, hb]
  · cases hb : line.buffer with
    | none => simp [writtenTo, Line.letters, hb, hc, List.filterMap_map]
    | some buffer => simp [writtenTo, Line.letters, hb]

/-- The connection of a slot gets what the slot is ordered, unless it is kept. -/
theorem writtenTo_obeyAll {lines : Lines} (d : lines.Distinct) {w : Id} {line : Line}
    (hw : lines w = some line) (orders : List (Id × Order)) :
    writtenTo (obeyAll lines orders).2 line.sink =
      if line.buffer = none then (ordersOf orders w).map Order.request else [] := by
  induction orders generalizing lines line with
  | nil => simp [obeyAll, writtenTo, ordersOf]
  | cons o orders ih =>
    obtain ⟨k, order⟩ := o
    rw [obeyAll, writtenTo_append]
    by_cases hk : k = w
    · subst hk
      have hnext : lines.obey k order k = some (line.obey [order]) := by
        rw [obey, Function.update_self, hw, Option.map_some]
      have hrest := ih (d.obey k order) hnext
      rw [show (line.obey [order]).sink = line.sink from rfl] at hrest
      rw [hrest, letters, hw, Option.map_some, Option.getD_some, writtenTo_letters,
        ordersOf_cons_self]
      cases hb : line.buffer with
      | none => simp [Line.obey, hb]
      | some buffer => simp [Line.obey, hb]
    · have hnext : lines.obey k order w = some line := by
        rw [obey, Function.update_of_ne (Ne.symm hk), hw]
      rw [ih (d.obey k order) hnext, ordersOf_cons_of_ne (Ne.symm hk)]
      have hnone : writtenTo (lines.letters k order) line.sink = [] := by
        cases hl : lines k with
        | none => simp [letters, hl, writtenTo]
        | some other =>
          rw [letters, hl, Option.map_some, Option.getD_some, writtenTo_letters, if_neg]
          intro hsink
          exact hk (d k w other line hl hw hsink.1)
      rw [hnone, List.nil_append]

/-- A connection that no slot writes to gets nothing. -/
theorem writtenTo_obeyAll_of_ne {lines : Lines} {c : Connection}
    (h : ∀ w line, lines w = some line → line.sink ≠ c) (orders : List (Id × Order)) :
    writtenTo (obeyAll lines orders).2 c = [] := by
  induction orders generalizing lines with
  | nil => rfl
  | cons o orders ih =>
    obtain ⟨k, order⟩ := o
    rw [obeyAll, writtenTo_append]
    have hrest : writtenTo (obeyAll (lines.obey k order) orders).2 c = [] := by
      apply ih
      intro w line hw
      by_cases hwk : w = k
      · subst hwk
        rw [obey, Function.update_self] at hw
        obtain ⟨old, hold, rfl⟩ := Option.map_eq_some_iff.mp hw
        exact h w old hold
      · rw [obey, Function.update_of_ne hwk] at hw
        exact h w line hw
    rw [hrest, List.append_nil]
    cases hl : lines k with
    | none => simp [letters, hl, writtenTo]
    | some line =>
      rw [letters, hl, Option.map_some, Option.getD_some, writtenTo_letters, if_neg]
      exact fun hsink => h k line hl hsink.1

theorem obeyAll_append (lines : Lines) (orders orders' : List (Id × Order)) :
    obeyAll lines (orders ++ orders') =
      ((obeyAll (obeyAll lines orders).1 orders').1,
        (obeyAll lines orders).2 ++ (obeyAll (obeyAll lines orders).1 orders').2) := by
  induction orders generalizing lines with
  | nil => rfl
  | cons o orders ih =>
    obtain ⟨k, order⟩ := o
    simp only [List.cons_append, obeyAll, ih, List.append_assoc]

end Lines

namespace State
variable {checks : Bool} {s t : State} {out : List Sent}

def lines (s : State) : Lines := tally s.workers Node.line

theorem releaseWorker_lines (s : State) (w : Id) :
    (s.releaseWorker w).1.lines = s.lines.obey w .unassign ∧
      (s.releaseWorker w).2.filterMap Sent.letter? = s.lines.letters w .unassign := by
  cases hw : s.workers.get w with
  | none =>
    have hline : s.lines w = none := by simp [lines, tally, hw]
    have hsame : s.lines.obey w .unassign = s.lines := by
      rw [Lines.obey, hline, Option.map_none, ← hline, Function.update_eq_self]
    rw [hsame]
    simp [releaseWorker, hw, Lines.letters, hline]
  | some worker =>
    have hline : s.lines w = some worker.line := by simp [lines, tally, hw]
    obtain ⟨hnode, hletters⟩ := worker.send_line .unassign
    simp only [releaseWorker, hw, lines, tally_write hw]
    simp only [Order.assigned, Order.request] at hnode hletters
    rw [hnode, hletters, Lines.letters, Lines.obey]
    simp only [lines] at hline
    rw [hline]
    exact ⟨rfl, rfl⟩

theorem releaseWorkers_lines (s : State) (ws : List Id) :
    (s.releaseWorkers ws).1.lines =
        (Lines.obeyAll s.lines (ws.map fun w => (w, .unassign))).1 ∧
      (s.releaseWorkers ws).2.filterMap Sent.letter? =
        (Lines.obeyAll s.lines (ws.map fun w => (w, .unassign))).2 := by
  induction ws generalizing s with
  | nil => exact ⟨rfl, rfl⟩
  | cons w ws ih =>
    obtain ⟨hlines, hletters⟩ := s.releaseWorker_lines w
    obtain ⟨hrest, hrest'⟩ := ih (s.releaseWorker w).1
    rw [releaseWorkers_cons, List.map_cons, Lines.obeyAll, ← hlines, ← hletters]
    refine ⟨hrest, ?_⟩
    rw [List.filterMap_append, hrest']

/-- What a scheduler's workers are told when it changes its demand. -/
def releases (s : State) (id : Id) : List (Id × Order) :=
  match s.schedulers.get id with
  | none => []
  | some scheduler =>
    if (s.workersDemandsQueue.get id).isSome then
      scheduler.assignedWorkers.keys.map fun w => (w, .unassign)
    else []

/-- What the workers that are given to a scheduler are told. -/
def assignments (s : State) (entry : Id × List Id) : List (Id × Order) :=
  match s.schedulers.get entry.1 with
  | none => []
  | some scheduler => entry.2.map fun w => (w, .assign entry.1 scheduler.address)

/-- What an event makes the manager tell the nodes. -/
def orders (checks : Bool) (s : State) : Event → List (Id × Order)
  | .scheduler (.message id (.workersDemand _ _)) _ => s.releases id
  | .scheduler (.message id .releaseDemand) _ => s.releases id
  | .processQueue =>
    match matchWorkers checks s.workers s.unassignedWorkers.len
      ⟨s.unassignedWorkers, s.workersDemandsQueue, []⟩ with
    | .ok m => m.matched.flatMap s.assignments
    | .error _ => []
  | _ => []

theorem orders_message (checks : Bool) (s : State) (id : Id) (request : NodeManagerRequest)
    (fresh : Fresh) : s.orders checks (.scheduler (.message id request) fresh) =
      if request = .helloMessage then [] else s.releases id := by
  cases request with
  | helloMessage => rfl
  | workersDemand requiredWorkers supportedPlatforms => rfl
  | releaseDemand => rfl

/-- The nodes have been given the orders, and nothing else has been written to them. -/
def Follows (s : State) (orders : List (Id × Order)) (t : State) (out : List Sent) : Prop :=
  t.lines = (Lines.obeyAll s.lines orders).1 ∧
    out.filterMap Sent.letter? = (Lines.obeyAll s.lines orders).2

theorem Follows.none (h : t.lines = s.lines) (hout : out.filterMap Sent.letter? = []) :
    s.Follows [] t out := ⟨h, hout⟩

theorem Scheduler.send_letters (scheduler : Scheduler) (response : NodeManagerResponse) :
    (scheduler.send response).2.filterMap Sent.letter? = [] := by
  unfold Scheduler.send
  split
  · rfl
  · rfl

theorem dropDemand_follows {id : Id} {scheduler : Scheduler}
    (hs : s.schedulers.get id = some scheduler) (demands : LinkedVecMap WorkersDemand) :
    s.Follows (s.releases id) (s.dropDemand id scheduler demands).1
      (s.dropDemand id scheduler demands).2 := by
  simp only [dropDemand, releases, hs]
  split
  · exact releaseWorkers_lines { s with
      workersDemandsQueue := demands
      needProcessQueue := true
      schedulers := s.schedulers.write id
        { scheduler with assignedWorkers := LinkedVecMap.new } } scheduler.assignedWorkers.keys
  · exact .none rfl rfl

theorem processScheduler_follows {event : SchedulerEvent} {fresh : Fresh}
    (h : s.processScheduler event fresh = .ok (t, out)) :
    s.Follows (s.orders checks (.scheduler event fresh)) t out := by
  cases event with
  | connect uuid name address connection =>
    simp only [processScheduler] at h
    split at h
    · simp only [restoreSchedulerSession, bind_ok, except_pure, Except.ok.injEq,
        Prod.mk.injEq] at h
      obtain ⟨scheduler, _, _, _, rfl, rfl⟩ := h
      have hbuffer : ∀ buffer : List NodeManagerResponse,
          (buffer.map (Sent.scheduler connection)).filterMap Sent.letter? = [] := by
        intro buffer
        simp [List.filterMap_map, Function.comp_def, Sent.letter?]
      apply Follows.none rfl
      rw [List.cons_append, List.filterMap_cons, List.filterMap_append, hbuffer]
      rfl
    · split at h
      · cases h
      · simp only [Except.ok.injEq, Prod.mk.injEq] at h
        obtain ⟨rfl, rfl⟩ := h
        exact .none rfl rfl
  | disconnect id =>
    simp only [processScheduler] at h
    split at h
    · simp only [Except.ok.injEq, Prod.mk.injEq] at h
      obtain ⟨rfl, rfl⟩ := h
      exact .none rfl rfl
    · split at h
      · cases h
      · simp only [Except.ok.injEq, Prod.mk.injEq] at h
        obtain ⟨rfl, rfl⟩ := h
        exact .none rfl rfl
  | message id request =>
    rcases s.processScheduler_message id request fresh with
      ⟨hkept, hpassed⟩ | ⟨scheduler, demands, _, hs, hrequest, _, _, hdrop⟩
    · rw [hkept] at h
      cases h
      rw [orders_message]
      split
      · exact .none rfl rfl
      · rw [releases, hpassed.resolve_left ‹_›]
        exact .none rfl rfl
    · have hfollows := dropDemand_follows hs demands
      rw [hdrop, Except.ok.injEq] at h
      rw [h] at hfollows
      rw [orders_message, if_neg hrequest]
      exact hfollows

theorem assignWorker_follows {i : Id} {ws : List Id} {a a' : Assigning}
    (h : ws.foldlM (assignWorker i) a = .ok a') :
    let orders := ws.map fun w => (w, Order.assign i a.scheduler.address)
    tally a'.workers Node.line = (Lines.obeyAll (tally a.workers Node.line) orders).1 ∧
      a'.out.filterMap Sent.letter? =
        a.out.filterMap Sent.letter? ++ (Lines.obeyAll (tally a.workers Node.line) orders).2 := by
  induction ws generalizing a with
  | nil =>
    simp only [List.foldlM_nil, except_pure, Except.ok.injEq] at h
    subst h
    simp [Lines.obeyAll]
  | cons w ws ih =>
    rw [List.foldlM_cons, bind_ok] at h
    obtain ⟨a₁, hfirst, hrest⟩ := h
    obtain ⟨worker, hindex, _⟩ := bind_ok.mp hfirst
    have hworker := index_ok.mp hindex
    rw [assignWorker_eq hworker, Except.ok.injEq] at hfirst
    obtain ⟨hnode, hletters⟩ := worker.send_line (.assign i a.scheduler.address)
    simp only [Order.assigned, Order.request] at hnode hletters
    have hline : tally a.workers Node.line w = some worker.line := by simp [tally, hworker]
    have hlines : tally a₁.workers Node.line =
        Lines.obey (tally a.workers Node.line) w (.assign i a.scheduler.address) := by
      rw [← hfirst]
      simp only [tally_write hworker, hnode, Lines.obey, hline, Option.map_some]
    obtain ⟨h₁, h₂⟩ := ih hrest
    have haddress : a₁.scheduler.address = a.scheduler.address := by rw [← hfirst]
    rw [hlines, haddress] at h₁ h₂
    dsimp only
    rw [List.map_cons, Lines.obeyAll]
    refine ⟨h₁, ?_⟩
    rw [h₂, ← hfirst]
    simp only [List.filterMap_append, hletters, Lines.letters, hline, Option.map_some,
      Option.getD_some, List.append_assoc]

theorem assignWorkers_follows {entry : Id × List Id} {r r' : State × List Sent}
    (h : assignWorkers r entry = .ok r') :
    r'.1.lines = (Lines.obeyAll r.1.lines (r.1.assignments entry)).1 ∧
      r'.2.filterMap Sent.letter? = r.2.filterMap Sent.letter? ++
        (Lines.obeyAll r.1.lines (r.1.assignments entry)).2 := by
  obtain ⟨scheduler, hindex, hrest⟩ := bind_ok.mp h
  obtain ⟨a, hloop, _⟩ := bind_ok.mp hrest
  have hs := index_ok.mp hindex
  rw [assignWorkers_eq hs hloop, Except.ok.injEq] at h
  obtain ⟨hlines, hletters⟩ := assignWorker_follows hloop
  rw [← h]
  simp only [assignments, hs]
  refine ⟨hlines, ?_⟩
  rw [List.filterMap_append, List.filterMap_append, hletters, Scheduler.send_letters,
    List.append_nil]
  rfl

theorem assignments_congr (h : t.sessions = s.sessions) (entry : Id × List Id) :
    t.assignments entry = s.assignments entry := by
  have hslot : tally t.schedulers Scheduler.session entry.1 =
      tally s.schedulers Scheduler.session entry.1 :=
    congrFun (congrArg Sessions.schedulers h) entry.1
  unfold assignments
  unfold tally at hslot
  cases ht : t.schedulers.get entry.1 with
  | none =>
    rw [ht, Option.map_none, eq_comm, Option.map_eq_none_iff] at hslot
    rw [hslot]
  | some scheduler =>
    rw [ht, Option.map_some, eq_comm, Option.map_eq_some_iff] at hslot
    obtain ⟨scheduler', hs, hsession⟩ := hslot
    have haddress : scheduler'.address = scheduler.address := congrArg Prod.snd hsession
    rw [hs]
    simp only [haddress]

theorem processQueue_follows (h : s.processQueue checks = .ok (t, out)) :
    s.Follows (s.orders checks .processQueue) t out := by
  simp only [processQueue, bind_ok] at h
  obtain ⟨m, hm, hloop⟩ := h
  simp only [orders, hm]
  have hall : ∀ (matched : List (Id × List Id)) (r r' : State × List Sent),
      r.1.sessions = s.sessions → matched.foldlM assignWorkers r = .ok r' →
        r'.1.lines = (Lines.obeyAll r.1.lines (matched.flatMap s.assignments)).1 ∧
          r'.2.filterMap Sent.letter? = r.2.filterMap Sent.letter? ++
            (Lines.obeyAll r.1.lines (matched.flatMap s.assignments)).2 := by
    intro matched
    induction matched with
    | nil =>
      intro r r' _ h
      simp only [List.foldlM_nil, except_pure, Except.ok.injEq] at h
      simp [h, Lines.obeyAll]
    | cons entry matched ih =>
      intro r r' hsessions h
      rw [List.foldlM_cons, bind_ok] at h
      obtain ⟨r₁, hfirst, hrest⟩ := h
      obtain ⟨hlines, hletters⟩ := assignWorkers_follows hfirst
      obtain ⟨h₁, h₂⟩ := ih r₁ r' ((assignWorkers_sessions hfirst).trans hsessions) hrest
      rw [assignments_congr hsessions] at hlines hletters
      rw [List.flatMap_cons, Lines.obeyAll_append, ← hlines]
      refine ⟨h₁, ?_⟩
      rw [h₂, hletters, List.append_assoc]
  exact hall m.matched _ _ rfl hloop

end State
end GridServer.NodeManager
