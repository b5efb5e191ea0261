import GridServer.NodeManager.Sessions

namespace GridServer.NodeManager
open Library

/-! What a scheduler is told of its workers. -/

/-- What `Connect` says of a node. -/
def Node.info (workerId : Id) (node : Node) : WorkerInfo :=
  { workerId := workerId
    subworkers := node.subworkers
    address := node.address
    platform := node.platform }

/-- The workers that a scheduler has after a response, if it had these before it. -/
def hear (crew : List WorkerInfo) : NodeManagerResponse → List WorkerInfo
  | .connect workers => crew ++ workers
  | .disconnect workerId => crew.filter fun info => info.workerId ≠ workerId
  | .restoredSession => crew
  | .createdSession => []

/-- The manager's end of a scheduler's session. -/
structure Desk where
  sink : Connection
  buffer : Option (List NodeManagerResponse)
  crew : List WorkerInfo
deriving DecidableEq, Repr

namespace Desk

/-- The desk after these responses. -/
def tell (desk : Desk) (said : List NodeManagerResponse) : Desk :=
  { desk with
    buffer := desk.buffer.map fun buffer => buffer ++ said
    crew := said.foldl hear desk.crew }

/-- What of the responses is written to the connection. -/
def letters (desk : Desk) (said : List NodeManagerResponse) : List NodeManagerResponse :=
  if desk.buffer.isNone then said else []

theorem tell_nil (desk : Desk) : desk.tell [] = desk := by
  obtain ⟨sink, buffer, crew⟩ := desk
  cases buffer with
  | none => rfl
  | some buffer => simp [tell]

theorem tell_append (desk : Desk) (said said' : List NodeManagerResponse) :
    desk.tell (said ++ said') = (desk.tell said).tell said' := by
  simp [tell, Function.comp_def]

theorem letters_append (desk : Desk) (said said' : List NodeManagerResponse) :
    desk.letters (said ++ said') = desk.letters said ++ (desk.tell said).letters said' := by
  simp only [letters, tell, Option.isNone_map]
  split
  · rfl
  · rfl

end Desk

/-- A response written to a connection. -/
def Sent.response? : Sent → Option (Connection × NodeManagerResponse)
  | .scheduler sink response => some (sink, response)
  | _ => none

/-- What is written to the connection of a scheduler. -/
def writtenTo (sink : Connection) (out : List Sent) : List NodeManagerResponse :=
  ((out.filterMap Sent.response?).filter fun letter => letter.1 = sink).map Prod.snd

/-- Nothing is written to any scheduler. -/
def Silent (out : List Sent) : Prop := out.filterMap Sent.response? = []

section Written
variable {sink connection : Connection} {out out' : List Sent}

theorem writtenTo_append (sink : Connection) (out out' : List Sent) :
    writtenTo sink (out ++ out') = writtenTo sink out ++ writtenTo sink out' := by
  simp [writtenTo]

theorem Silent.writtenTo (silent : Silent out) (sink : Connection) : writtenTo sink out = [] := by
  rw [NodeManager.writtenTo, silent]
  rfl

theorem Silent.append (silent : Silent out) (silent' : Silent out') : Silent (out ++ out') := by
  rw [Silent, List.filterMap_append, silent, silent', List.append_nil]

theorem Node.send_silent (node : Node) (request : NodeRequest) : Silent (node.send request).2 := by
  unfold Node.send
  split
  · rfl
  · rfl

theorem writtenTo_map (sink : Connection) (responses : List NodeManagerResponse) :
    writtenTo sink (responses.map (.scheduler sink)) = responses := by
  induction responses with
  | nil => rfl
  | cons response responses ih =>
    rw [List.map_cons, ← List.singleton_append, writtenTo_append, ih]
    simp [writtenTo, Sent.response?]

theorem writtenTo_map_of_ne (h : connection ≠ sink) (responses : List NodeManagerResponse) :
    writtenTo sink (responses.map (.scheduler connection)) = [] := by
  induction responses with
  | nil => rfl
  | cons response responses ih =>
    rw [List.map_cons, ← List.singleton_append, writtenTo_append, ih]
    simp [writtenTo, Sent.response?, h]

/-- A response is written to the scheduler's own connection, or kept. -/
theorem Scheduler.send_written (scheduler : Scheduler) (response : NodeManagerResponse) :
    writtenTo scheduler.sink (scheduler.send response).2 =
        (if scheduler.disconnectBuffer.isNone then [response] else []) ∧
      ∀ sink, scheduler.sink ≠ sink → writtenTo sink (scheduler.send response).2 = [] := by
  unfold Scheduler.send
  cases scheduler.disconnectBuffer with
  | none => exact ⟨writtenTo_map _ [response], fun sink h => writtenTo_map_of_ne h [response]⟩
  | some buffer => exact ⟨rfl, fun _ _ => rfl⟩

end Written

namespace State
variable {checks : Bool} {s t u : State} {out out' : List Sent} {i j w : Id}

/-- The workers in the slots, as a scheduler is told of them. -/
def crew (s : State) (workersId : List Id) : List WorkerInfo :=
  workersId.filterMap fun w => (s.workers.get w).map (Node.info w)

def desk (s : State) (i : Id) : Option Desk :=
  (s.schedulers.get i).map fun scheduler =>
    ⟨scheduler.sink, scheduler.disconnectBuffer, s.crew scheduler.assignedWorkers.keys⟩

/-- Different schedulers are written to over different connections. -/
def Apart (s : State) : Prop :=
  ∀ i j desk desk', s.desk i = some desk → s.desk j = some desk' → desk.sink = desk'.sink → i = j

/-- From `s` to `t` the scheduler in the slot is told this, and nothing else is written to it. -/
structure Told (i : Id) (said : List NodeManagerResponse) (s t : State) (out : List Sent) :
    Prop where
  desk : t.desk i = (s.desk i).map fun desk => desk.tell said
  written : ∀ desk, s.desk i = some desk → writtenTo desk.sink out = desk.letters said

theorem Told.silent (hdesk : t.desk i = s.desk i) (silent : Silent out) : Told i [] s t out := by
  refine ⟨?_, ?_⟩
  · simp [hdesk, Desk.tell_nil]
  · intro desk _
    rw [silent.writtenTo, Desk.letters]
    split
    · rfl
    · rfl

theorem Told.trans {said said' : List NodeManagerResponse} (first : Told i said s t out)
    (second : Told i said' t u out') : Told i (said ++ said') s u (out ++ out') := by
  refine ⟨?_, ?_⟩
  · rw [second.desk, first.desk, Option.map_map]
    congr 1
    funext desk
    exact (desk.tell_append said said').symm
  · intro desk hdesk
    have htold : t.desk i = some (desk.tell said) := by
      rw [first.desk, hdesk]
      rfl
    rw [writtenTo_append, first.written desk hdesk, Desk.letters_append]
    exact congrArg _ (second.written _ htold)

theorem crew_congr {ws : List Id} (infos : ∀ w ∈ ws,
    (t.workers.get w).map (Node.info w) = (s.workers.get w).map (Node.info w)) :
    t.crew ws = s.crew ws := List.filterMap_congr infos

theorem desk_congr (schedulers : t.schedulers.get i = s.schedulers.get i)
    (crew : ∀ scheduler, s.schedulers.get i = some scheduler →
      t.crew scheduler.assignedWorkers.keys = s.crew scheduler.assignedWorkers.keys) :
    t.desk i = s.desk i := by
  unfold desk
  rw [schedulers]
  cases hs : s.schedulers.get i with
  | none => rfl
  | some scheduler => rw [Option.map_some, Option.map_some, crew scheduler hs]

@[simp] theorem Node.send_info (node : Node) (request : NodeRequest) (w : Id) :
    (node.send request).1.info w = node.info w := by
  unfold Node.send
  split
  · rfl
  · rfl

/-- A node that is written back is described as before. -/
theorem infos_write {workers : Slab Node} {node node' : Node} (hw : workers.get w = some node)
    (hinfo : node'.info w = node.info w) (k : Id) :
    ((workers.write w node').get k).map (Node.info k) = (workers.get k).map (Node.info k) := by
  rw [VecMap.get_write (by rw [hw]; rfl)]
  by_cases hk : k = w
  · subst hk
    rw [Function.update_self, hw, Option.map_some, Option.map_some, hinfo]
  · rw [Function.update_of_ne hk]

/-- What is written back of a node is no scheduler's business. -/
theorem desk_write {node node' : Node} (hw : s.workers.get w = some node)
    (schedulers : t.schedulers.get i = s.schedulers.get i)
    (workers : t.workers = s.workers.write w node') (hinfo : node'.info w = node.info w) :
    t.desk i = s.desk i :=
  desk_congr schedulers fun _ _ => crew_congr fun k _ => workers ▸ infos_write hw hinfo k

theorem releaseWorker_desk (s : State) (w : Id) :
    (s.releaseWorker w).1.desk i = s.desk i ∧ Silent (s.releaseWorker w).2 := by
  cases hw : s.workers.get w with
  | none =>
    simp only [releaseWorker, hw, true_and]
    rfl
  | some worker =>
    simp only [releaseWorker, hw]
    refine ⟨desk_write hw rfl rfl ?_, Node.send_silent _ _⟩
    rw [Node.send_info]
    rfl

theorem releaseWorkers_desk (s : State) (ws : List Id) :
    (s.releaseWorkers ws).1.desk i = s.desk i ∧ Silent (s.releaseWorkers ws).2 := by
  induction ws generalizing s with
  | nil => exact ⟨rfl, rfl⟩
  | cons w ws ih =>
    obtain ⟨hdesk, hsilent⟩ := s.releaseWorker_desk w
    obtain ⟨hdesk', hsilent'⟩ := ih (s.releaseWorker w).1
    rw [releaseWorkers_cons]
    exact ⟨hdesk'.trans hdesk, hsilent.append hsilent'⟩

/-- A change of a demand tells no scheduler anything, and is no other scheduler's business. -/
theorem dropDemand_other {scheduler : Scheduler} (hs : s.schedulers.get j = some scheduler)
    (hj : i ≠ j) (demands : LinkedVecMap WorkersDemand) :
    (s.dropDemand j scheduler demands).1.desk i = s.desk i := by
  simp only [dropDemand]
  split
  · refine (releaseWorkers_desk _ _).1.trans (desk_congr ?_ fun _ _ => rfl)
    dsimp only
    rw [VecMap.get_write (by rw [hs]; rfl), Function.update_of_ne hj]
  · rfl

theorem dropDemand_silent (s : State) (j : Id) (scheduler : Scheduler)
    (demands : LinkedVecMap WorkersDemand) : Silent (s.dropDemand j scheduler demands).2 := by
  simp only [dropDemand]
  split
  · exact (releaseWorkers_desk (i := j) _ _).2
  · rfl

/-- The workers that a scheduler had for its demand are no longer its own. -/
theorem dropDemand_desk (c : s.roster.Consistent [] []) {scheduler : Scheduler}
    (hs : s.schedulers.get i = some scheduler) (demands : LinkedVecMap WorkersDemand) :
    (s.dropDemand i scheduler demands).1.desk i =
      (s.desk i).map fun desk => { desk with crew := [] } := by
  simp only [dropDemand]
  split
  · refine (releaseWorkers_desk _ _).1.trans ?_
    have hsome : (s.schedulers.get i).isSome := by
      rw [hs]
      rfl
    simp only [desk, VecMap.get_write hsome,
      Function.update_self, hs, Option.map_some]
    rfl
  · rename_i hnone
    have hassigned : s.roster.assigned i = some scheduler.assignedWorkers := by
      simp [roster, tally, hs]
    have hempty : scheduler.assignedWorkers.keys = [] := by
      rw [List.eq_nil_iff_forall_not_mem]
      intro w hw
      exact hnone (c.demanded i _ w hassigned (LinkedVecSet.mem_keys.mp hw))
    simp only [desk, hs, Option.map_some, hempty]
    rfl

section Schedulers
variable {event : SchedulerEvent} {fresh : Fresh} {uuid : Uuid} {name : Option String}
  {address : SocketAddr} {connection : Connection} {key : Key}

theorem connect_desk (hd : s.disconnected uuid = none)
    (h : s.processScheduler (.connect uuid name address connection) fresh = .ok (t, out)) :
    s.desk fresh.id = none ∧
      (∀ i, t.desk i = Function.update s.desk fresh.id (some ⟨connection, none, []⟩) i) ∧
      out.filterMap Sent.response? = [(connection, .createdSession)] := by
  simp only [processScheduler, hd] at h
  split at h
  · cases h
  · rename_i hvacant
    cases h
    refine ⟨?_, ?_, rfl⟩
    · rw [Bool.not_eq_true, Option.isSome_eq_false_iff, Option.isNone_iff_eq_none] at hvacant
      rw [desk, hvacant]
      rfl
    · intro i
      by_cases hi : i = fresh.id
      · subst hi
        simp [desk, crew]
      · rw [Function.update_of_ne hi]
        refine desk_congr ?_ fun _ _ => rfl
        dsimp only
        rw [VecMap.get_insert, Function.update_of_ne hi]

theorem restore_desk (hd : s.disconnected uuid = some (j, key))
    (h : s.processScheduler (.connect uuid name address connection) fresh = .ok (t, out)) :
    ∃ desk, s.desk j = some desk ∧
      (∀ i, t.desk i = Function.update s.desk j (some ⟨connection, none, desk.crew⟩) i) ∧
      out.filterMap Sent.response? =
        (.restoredSession :: desk.buffer.getD []).map fun response => (connection, response) := by
  simp only [processScheduler, hd, restoreSchedulerSession, bind_ok, except_pure, Except.ok.injEq,
    Prod.mk.injEq, index_ok] at h
  obtain ⟨scheduler, hs, _, _, rfl, rfl⟩ := h
  refine ⟨⟨scheduler.sink, scheduler.disconnectBuffer, s.crew scheduler.assignedWorkers.keys⟩, ?_,
    ?_, ?_⟩
  · rw [desk, hs]
    rfl
  · intro i
    by_cases hi : i = j
    · subst hi
      have hsome : (s.schedulers.get i).isSome := by
        rw [hs]
        rfl
      simp only [desk, VecMap.get_write hsome,
        Function.update_self, Option.map_some]
      rfl
    · rw [Function.update_of_ne hi]
      refine desk_congr ?_ fun _ _ => rfl
      dsimp only
      rw [VecMap.get_write (by rw [hs]; rfl), Function.update_of_ne hi]
  · simp [Sent.response?, List.filterMap_append, List.filterMap_map, Function.comp_def]

theorem disconnect_desk (h : s.processScheduler (.disconnect j) fresh = .ok (t, out)) :
    (∀ i, t.desk i = Function.update s.desk j
      ((s.desk j).map fun desk => { desk with buffer := some [] }) i) ∧ Silent out := by
  simp only [processScheduler] at h
  split at h
  · rename_i hnone
    cases h
    refine ⟨?_, rfl⟩
    intro i
    have hdesk : s.desk j = none := by
      rw [desk, hnone]
      rfl
    rw [hdesk, Option.map_none, ← hdesk, Function.update_eq_self]
  · rename_i scheduler hs
    split at h
    · cases h
    · cases h
      refine ⟨?_, rfl⟩
      intro i
      by_cases hi : i = j
      · subst hi
        have hsome : (s.schedulers.get i).isSome := by
          rw [hs]
          rfl
        simp only [desk, VecMap.get_write hsome,
          Function.update_self, hs, Option.map_some]
        rfl
      · rw [Function.update_of_ne hi]
        refine desk_congr ?_ fun _ _ => rfl
        dsimp only
        rw [VecMap.get_write (by rw [hs]; rfl), Function.update_of_ne hi]

theorem message_desk (c : s.roster.Consistent [] []) {request : NodeManagerRequest}
    (h : s.processScheduler (.message j request) fresh = .ok (t, out)) :
    (∀ i, t.desk i = Function.update s.desk j ((s.desk j).map fun desk =>
      if request = .helloMessage then desk else { desk with crew := [] }) i) ∧ Silent out := by
  rcases s.processScheduler_message j request fresh with
    ⟨hkept, hpassed⟩ | ⟨scheduler, demands, _, hs, hrequest, _, _, hdrop⟩
  · rw [hkept] at h
    cases h
    refine ⟨?_, rfl⟩
    intro i
    have hsame : ((s.desk j).map fun desk =>
        if request = .helloMessage then desk else { desk with crew := [] }) = s.desk j := by
      rcases hpassed with rfl | hnone
      · simp
      · rw [desk, hnone]
        rfl
    rw [hsame, Function.update_eq_self]
  · rw [hdrop] at h
    have hsilent := s.dropDemand_silent j scheduler demands
    have hdesk := dropDemand_desk c hs demands
    have hother := fun i hi => dropDemand_other (i := i) hs hi demands
    rw [Except.ok.injEq] at h
    rw [h] at hsilent hdesk hother
    refine ⟨?_, hsilent⟩
    intro i
    by_cases hi : i = j
    · subst hi
      simp only [hdesk, if_neg hrequest, Function.update_self]
    · rw [Function.update_of_ne hi]
      exact hother i hi

end Schedulers

/-- Every scheduler is told something, maybe nothing, and keeps its connection. -/
def Tells (s t : State) (out : List Sent) : Prop := ∀ i, ∃ said, Told i said s t out

theorem Tells.silent (hdesk : ∀ i, t.desk i = s.desk i) (silent : Silent out) : Tells s t out :=
  fun i => ⟨[], .silent (hdesk i) silent⟩

theorem Tells.trans (first : Tells s t out) (second : Tells t u out') :
    Tells s u (out ++ out') := by
  intro i
  obtain ⟨said, told⟩ := first i
  obtain ⟨said', told'⟩ := second i
  exact ⟨said ++ said', told.trans told'⟩

theorem Tells.apart (tells : Tells s t out) (apart : s.Apart) : t.Apart := by
  intro i j desk desk' hi hj hsink
  obtain ⟨said, told⟩ := tells i
  obtain ⟨said', told'⟩ := tells j
  rw [told.desk, Option.map_eq_some_iff] at hi
  rw [told'.desk, Option.map_eq_some_iff] at hj
  obtain ⟨before, hi, rfl⟩ := hi
  obtain ⟨before', hj, rfl⟩ := hj
  exact apart i j before before' hi hj hsink

/-- A worker that a scheduler has is a node that serves it. -/
theorem duty_of_assigned (c : s.roster.Consistent [] []) {scheduler : Scheduler}
    (hs : s.schedulers.get i = some scheduler) (hw : w ∈ scheduler.assignedWorkers.keys) :
    ∃ node, s.workers.get w = some node ∧ node.assigned = some i := by
  have hassigned : s.roster.assigned i = some scheduler.assignedWorkers := by
    simp [roster, tally, hs]
  obtain ⟨⟨p, hduty⟩, _⟩ := (c.assigned i _ hassigned w).mp (LinkedVecSet.mem_keys.mp hw)
  obtain ⟨node, hnode, hp⟩ := Option.map_eq_some_iff.mp hduty
  exact ⟨node, hnode, congrArg Prod.snd hp⟩

theorem processNode_tells (c : s.roster.Consistent [] []) {event : NodeEvent} {fresh : Fresh}
    (h : s.processNode event fresh = .ok (t, out)) : Tells s t out := by
  cases event with
  | connect uuid name platform subworkers address connection =>
    simp only [processNode] at h
    split at h
    · simp only [restoreNodeSession, bind_ok, except_pure, Except.ok.injEq, Prod.mk.injEq,
        index_ok] at h
      obtain ⟨node, hn, _, _, rfl, rfl⟩ := h
      refine .silent (fun i => desk_write hn rfl rfl rfl) ?_
      simp [Silent, Sent.response?, List.filterMap_append, List.filterMap_map, Function.comp_def]
    · split at h
      · cases h
      · rename_i hvacant
        rw [not_or, Bool.not_eq_true, Option.isSome_eq_false_iff, Option.isNone_iff_eq_none]
          at hvacant
        cases h
        refine .silent (fun i => desk_congr rfl fun scheduler hs => crew_congr fun k hk => ?_) rfl
        obtain ⟨node, hnode, _⟩ := duty_of_assigned c hs hk
        have hne : k ≠ fresh.id := by
          rintro rfl
          rw [hvacant.1] at hnode
          cases hnode
        dsimp only
        rw [VecMap.get_insert, Function.update_of_ne hne]
  | disconnect id =>
    simp only [processNode] at h
    split at h
    · cases h
      exact .silent (fun _ => rfl) rfl
    · rename_i node hn
      cases h
      exact .silent (fun i => desk_write hn rfl rfl rfl) rfl
  | heartbeat id =>
    simp only [processNode] at h
    split at h
    · cases h
      exact .silent (fun _ => rfl) rfl
    · simp only [bind_ok, except_pure, Except.ok.injEq, Prod.mk.injEq] at h
      obtain ⟨_, _, rfl, rfl⟩ := h
      exact .silent (fun _ => rfl) rfl

/-- Without a node, the schedulers that it does not serve have what they had. -/
theorem crew_of_others {ws : List Id} (workers : t.workers = s.workers.remove w) (hw : w ∉ ws) :
    t.crew ws = s.crew ws := by
  refine List.filterMap_congr fun k hk => ?_
  have hne : k ≠ w := by
    rintro rfl
    exact hw hk
  rw [workers, VecMap.get_remove, Function.update_of_ne hne]

theorem desk_of_removed (schedulers : t.schedulers.get i = s.schedulers.get i)
    (workers : t.workers = s.workers.remove w)
    (hw : ∀ scheduler, s.schedulers.get i = some scheduler → w ∉ scheduler.assignedWorkers.keys) :
    t.desk i = s.desk i :=
  desk_congr schedulers fun scheduler hs => crew_of_others workers (hw scheduler hs)

/-- The scheduler that the node served does not know of it any more. -/
theorem crew_of_removed (workers : t.workers = s.workers.remove w) (ws : LinkedVecSet) :
    t.crew (ws.remove w).keys = (s.crew ws.keys).filter fun info => info.workerId ≠ w := by
  have hkeys : (ws.remove w).keys = ws.keys.filter fun k => k ≠ w := by
    rw [LinkedVecMap.keys, LinkedVecMap.keys, LinkedVecMap.remove, List.filter_map]
    rfl
  rw [hkeys, crew, crew]
  induction ws.keys with
  | nil => rfl
  | cons k keys ih =>
    by_cases hk : k = w
    · subst hk
      cases hn : s.workers.get k with
      | none => simpa [hn] using ih
      | some node => simpa [hn, Node.info] using ih
    · have hget : t.workers.get k = s.workers.get k := by
        rw [workers, VecMap.get_remove, Function.update_of_ne hk]
      cases hn : s.workers.get k with
      | none => simpa [hn, hk, hget] using ih
      | some node => simpa [hn, hk, hget, Node.info] using ih

variable (out out') in
/-- One scheduler is sent a response about a change of its workers. -/
theorem send_tells (ws : LinkedVecSet) (response : NodeManagerResponse) (apart : s.Apart)
    {scheduler : Scheduler} (hs : s.schedulers.get j = some scheduler)
    (schedulers : t.schedulers =
      s.schedulers.write j ({ scheduler with assignedWorkers := ws }.send response).1)
    (hcrew : t.crew ws.keys = hear (s.crew scheduler.assignedWorkers.keys) response)
    (hother : ∀ i scheduler', i ≠ j → s.schedulers.get i = some scheduler' →
      t.crew scheduler'.assignedWorkers.keys = s.crew scheduler'.assignedWorkers.keys)
    (before : Silent out) (after : Silent out') :
    Tells s t (out ++ ({ scheduler with assignedWorkers := ws }.send response).2 ++ out') := by
  have hwritten : ∀ sink, writtenTo sink
      (out ++ ({ scheduler with assignedWorkers := ws }.send response).2 ++ out') =
        writtenTo sink ({ scheduler with assignedWorkers := ws }.send response).2 := by
    intro sink
    rw [writtenTo_append, writtenTo_append, before.writtenTo, after.writtenTo, List.append_nil]
    rfl
  have hdesk : s.desk j =
      some ⟨scheduler.sink, scheduler.disconnectBuffer, s.crew scheduler.assignedWorkers.keys⟩ := by
    rw [desk, hs]
    rfl
  obtain ⟨hself, hothers⟩ :=
    Scheduler.send_written { scheduler with assignedWorkers := ws } response
  have hget : t.schedulers.get = Function.update s.schedulers.get j
      (some ({ scheduler with assignedWorkers := ws }.send response).1) := by
    rw [schedulers, VecMap.get_write (by rw [hs]; rfl)]
  intro i
  by_cases hi : i = j
  · subst hi
    refine ⟨[response], ?_, ?_⟩
    · rw [hdesk, desk, hget, Function.update_self, Option.map_some, Option.map_some, Desk.tell]
      dsimp only [List.foldl_cons, List.foldl_nil]
      rw [← hcrew]
      unfold Scheduler.send
      cases scheduler.disconnectBuffer with
      | none => rfl
      | some buffer => rfl
    · intro desk hd
      rw [hdesk, Option.some.injEq] at hd
      subst hd
      rw [hwritten]
      exact hself
  · refine ⟨[], ?_, ?_⟩
    · have hsame : t.schedulers.get i = s.schedulers.get i := by rw [hget, Function.update_of_ne hi]
      rw [desk, desk, hsame, Option.map_map]
      cases hs' : s.schedulers.get i with
      | none => rfl
      | some scheduler' =>
        rw [Option.map_some, Option.map_some, Function.comp_apply, Desk.tell_nil,
          hother i scheduler' hi hs']
    · intro desk hd
      rw [hwritten, Desk.letters, ite_self]
      refine hothers desk.sink fun hsink => hi ?_
      exact (apart j i _ desk hdesk hd hsink).symm

theorem processNodeDisconnection_tells (c : s.roster.Consistent [] []) (apart : s.Apart)
    (h : s.processNodeDisconnection checks w = .ok (t, out)) : Tells s t out := by
  have hserves : ∀ node, s.workers.get w = some node → ∀ i scheduler,
      s.schedulers.get i = some scheduler → w ∈ scheduler.assignedWorkers.keys →
        node.assigned = some i := by
    intro node hn i scheduler hs hw
    obtain ⟨node', hn', ha⟩ := duty_of_assigned c hs hw
    rw [hn, Option.some.injEq] at hn'
    exact hn' ▸ ha
  cases processNodeDisconnection_ends h with
  | unknown _ state sent =>
    subst state sent
    exact .silent (fun _ => rfl) rfl
  | quiet node unassigned hn unserved state sent =>
    subst state sent
    refine .silent (fun i => desk_of_removed rfl rfl fun scheduler hs hw => ?_) rfl
    exact unserved i scheduler (hserves node hn i scheduler hs hw) hs (LinkedVecSet.mem_keys.mp hw)
  | told node j scheduler demands hn hassigned hs state sent =>
    subst state sent
    refine send_tells [] _ _ _ apart hs rfl (crew_of_removed rfl _) ?_ rfl rfl
    intro i scheduler' hi hs'
    refine crew_of_others rfl fun hw => ?_
    rw [hserves node hn i scheduler' hs' hw, Option.some.injEq] at hassigned
    exact hi hassigned

theorem processExpiration_tells (c : s.roster.Consistent [] []) (apart : s.Apart) {key : Key}
    (h : s.processExpiration checks key = .ok (t, out)) : Tells s t out := by
  unfold processExpiration at h
  split at h
  · cases h
  · dsimp only at h
    split at h
    · have htells := processNodeDisconnection_tells (s := { s with
        expirations := s.expirations.filter fun e => e.1 ≠ key }) c apart h
      intro i
      obtain ⟨said, told⟩ := htells i
      exact ⟨said, told.desk, told.written⟩
    · split at h
      · cases h
        exact .silent (fun _ => rfl) rfl
      · cases h
        exact .silent (fun _ => rfl) rfl

section Queue
variable {ws : List Id} {a a' : Assigning} {matched : List (Id × List Id)}
  {r r' : State × List Sent}

/-- What the second loop has for one scheduler after it went through these workers. -/
structure Assigned (j : Id) (ws : List Id) (a a' : Assigning) : Prop where
  infos : ∀ k, (a'.workers.get k).map (Node.info k) = (a.workers.get k).map (Node.info k)
  told : a'.infos = a.infos ++ ws.filterMap fun w => (a.workers.get w).map (Node.info w)
  scheduler : ∃ keys : LinkedVecSet, a'.scheduler = { a.scheduler with assignedWorkers := keys } ∧
    keys.keys = a.scheduler.assignedWorkers.keys ++ ws
  silent : Silent a.out → Silent a'.out

theorem keys_insert_new {keys : LinkedVecSet} (h : w ∉ keys.keys) :
    (keys.insert w).keys = keys.keys ++ [w] := by
  have hkeys : (keys.insert w).keys = (keys.remove w).entries.map Prod.fst ++ [w] := by
    simp [LinkedVecSet.insert, LinkedVecMap.insert, LinkedVecMap.keys]
  rw [hkeys, LinkedVecMap.entries_remove_of_not_mem h]
  rfl

theorem assignWorker_loop (once : ws.Nodup) (new : ∀ w ∈ ws, w ∉ a.scheduler.assignedWorkers.keys)
    (h : ws.foldlM (assignWorker j) a = .ok a') : Assigned j ws a a' := by
  induction ws generalizing a with
  | nil =>
    cases h
    exact ⟨fun _ => rfl, by simp, ⟨_, rfl, by simp⟩, id⟩
  | cons w ws ih =>
    rw [List.foldlM_cons, bind_ok] at h
    obtain ⟨a₁, hfirst, hrest⟩ := h
    obtain ⟨worker, hindex, _⟩ := bind_ok.mp hfirst
    have hworker := index_ok.mp hindex
    rw [assignWorker_eq hworker, Except.ok.injEq] at hfirst
    subst hfirst
    obtain ⟨hw, hws⟩ := List.nodup_cons.mp once
    have hkeys := keys_insert_new (new w List.mem_cons_self)
    have hnew : ∀ k ∈ ws, k ∉ (a.scheduler.assignedWorkers.insert w).keys := by
      intro k hk
      rw [hkeys, List.mem_append, List.mem_singleton, not_or]
      refine ⟨new k (List.mem_cons_of_mem _ hk), ?_⟩
      rintro rfl
      exact hw hk
    have hinfos : ∀ k, ((a.workers.write w ({ worker with assigned := some j }.send
        (.assignClient a.scheduler.address)).1).get k).map (Node.info k) =
          (a.workers.get k).map (Node.info k) :=
      infos_write hworker (Node.send_info _ _ _)
    have rest := ih hws hnew hrest
    obtain ⟨keys, hscheduler, hall⟩ := rest.scheduler
    refine ⟨fun k => (rest.infos k).trans (hinfos k), ?_, ⟨keys, hscheduler, ?_⟩, ?_⟩
    · rw [rest.told, List.filterMap_cons, hworker, List.append_assoc]
      have hrest : ws.filterMap (fun w' => ((a.workers.write w ({ worker with
          assigned := some j }.send (.assignClient a.scheduler.address)).1).get w').map
            (Node.info w')) = ws.filterMap fun w' => (a.workers.get w').map (Node.info w') :=
        List.filterMap_congr fun k _ => hinfos k
      rw [hrest]
      rfl
    · rw [hall, hkeys, List.append_assoc]
      rfl
    · exact fun silent => rest.silent (silent.append (Node.send_silent _ _))

theorem assignWorkers_tells (c : r.1.roster.Consistent (pairs ((j, ws) :: matched)) [])
    (apart : r.1.Apart) (h : assignWorkers r (j, ws) = .ok r') :
    ∃ out, r'.2 = r.2 ++ out ∧ Tells r.1 r'.1 out := by
  obtain ⟨scheduler, hindex, hrest⟩ := bind_ok.mp h
  obtain ⟨a, hloop, _⟩ := bind_ok.mp hrest
  have hs := index_ok.mp hindex
  rw [assignWorkers_eq hs hloop, Except.ok.injEq] at h
  have hassigned : r.1.roster.assigned j = some scheduler.assignedWorkers := by
    simp [roster, tally, hs]
  have hpairs : pairs ((j, ws) :: matched) = ws.map (Prod.mk j) ++ pairs matched := rfl
  have once : ws.Nodup := by
    have honce := c.once
    rw [hpairs, List.map_append, List.map_map] at honce
    simpa [Function.comp_def] using (List.nodup_append.mp honce).1
  have hnew : ∀ w ∈ ws, w ∉ scheduler.assignedWorkers.keys := by
    intro w hw hmem
    have hpromised : (j, w) ∈ pairs ((j, ws) :: matched) := by
      rw [hpairs]
      exact List.mem_append_left _ (List.mem_map_of_mem hw)
    obtain ⟨p, _, hduty, _⟩ := c.promised j w hpromised
    obtain ⟨⟨p', hduty'⟩, _⟩ := (c.assigned j _ hassigned w).mp (LinkedVecSet.mem_keys.mp hmem)
    rw [hduty] at hduty'
    cases hduty'
  have assigned := assignWorker_loop once hnew hloop
  obtain ⟨keys, hscheduler, hkeys⟩ := assigned.scheduler
  have hcrews : ∀ ws' : List Id,
      ws'.filterMap (fun w => (a.workers.get w).map (Node.info w)) = r.1.crew ws' :=
    fun ws' => List.filterMap_congr fun k _ => assigned.infos k
  have hsent := send_tells (t := r'.1) a.out [] keys (.connect a.infos) apart hs ?_ ?_ ?_
    (assigned.silent rfl) rfl
  · refine ⟨_, ?_, hsent⟩
    rw [← h, hscheduler, List.append_nil, List.append_assoc]
  · rw [← h, hscheduler]
  · have hcrew : r'.1.crew keys.keys = r.1.crew (scheduler.assignedWorkers.keys ++ ws) := by
      rw [← hcrews, hkeys, ← h]
      rfl
    rw [hcrew, crew, List.filterMap_append, assigned.told]
    rfl
  · intro i scheduler' _ _
    rw [← hcrews, ← h]
    rfl

theorem processQueue_tells (c : s.roster.Consistent [] []) (apart : s.Apart) (fits : s.Fits checks)
    (h : s.processQueue checks = .ok (t, out)) : Tells s t out := by
  simp only [processQueue, bind_ok] at h
  obtain ⟨m, hm, hloop⟩ := h
  obtain hfull | ⟨m', hm', hc, some⟩ := matchWorkers_consistent fits s.unassignedWorkers.len
    (m := ⟨s.unassignedWorkers, s.workersDemandsQueue, []⟩) c (by simp)
  · rw [hfull] at hm
    cases hm
  rw [hm', Except.ok.injEq] at hm
  subst hm
  have hall : ∀ (matched : List (Id × List Id)) (r r' : State × List Sent),
      r.1.roster.Consistent (pairs matched) [] → (∀ entry ∈ matched, entry.2 ≠ []) → r.1.Apart →
        matched.foldlM assignWorkers r = .ok r' → ∃ out, r'.2 = r.2 ++ out ∧ Tells r.1 r'.1 out := by
    intro matched
    induction matched with
    | nil =>
      intro r r' _ _ _ h
      cases h
      exact ⟨[], (List.append_nil _).symm, .silent (fun _ => rfl) rfl⟩
    | cons entry matched ih =>
      intro r r' c some apart h
      rw [List.foldlM_cons, bind_ok] at h
      obtain ⟨r₁, hfirst, hrest⟩ := h
      obtain ⟨hsome, hsome'⟩ := List.forall_mem_cons.mp some
      obtain ⟨r₂, hsame, hc⟩ := assignWorkers_consistent hsome c
      rw [hfirst, Except.ok.injEq] at hsame
      subst hsame
      obtain ⟨out, hout, tells⟩ := assignWorkers_tells c apart hfirst
      obtain ⟨out', hout', tells'⟩ := ih r₁ r' hc hsome' (tells.apart apart) hrest
      exact ⟨out ++ out', by rw [hout', hout, List.append_assoc], tells.trans tells'⟩
  obtain ⟨out', hout, tells⟩ := hall m'.matched ({ s with
    unassignedWorkers := m'.unassignedWorkers, workersDemandsQueue := m'.demands }, []) _ hc some
      apart hloop
  obtain rfl : out = out' := hout
  intro i
  obtain ⟨said, told⟩ := tells i
  exact ⟨said, told.desk, told.written⟩

end Queue

/-- Every turn but those for a scheduler's events tells the schedulers something, maybe nothing. -/
theorem step_tells (c : s.roster.Consistent [] []) (apart : s.Apart) (fits : s.Fits checks)
    {e : Event}
    (he : ∀ event fresh, e ≠ .scheduler event fresh) (h : s.step checks e = .ok (t, out)) :
    Tells s t out := by
  cases e with
  | node event fresh => exact processNode_tells c h
  | expired key => exact processExpiration_tells c apart h
  | scheduler event fresh => exact absurd rfl (he event fresh)
  | processQueue =>
    simp only [step] at h
    split at h
    · have tells := processQueue_tells (s := { s with needProcessQueue := false }) c apart fits h
      intro i
      obtain ⟨said, told⟩ := tells i
      exact ⟨said, told.desk, told.written⟩
    · cases h

end State
end GridServer.NodeManager
