import GridServer.Scheduler.Supplies

namespace GridServer
open Library

/-- The worker that a task is started for, to connect to it. -/
def Sent.dialled? : Sent → Option WorkerInfo
  | .connectNode info => some info
  | _ => none

/-- The workers that the node manager names with the event. -/
def Event.named : Event → List WorkerInfo
  | .nodeManager (.message (.connect workers)) => workers
  | _ => []

/-- The sending half that comes with the event. -/
def WorkerEvent.link? : WorkerEvent → Option Node
  | .connected _ node => some node
  | _ => none

namespace Scheduler
variable {checks : Bool} {s s' : Scheduler} {e : Event} {out : List Sent}

theorem result_dialled (sound : s.Sound) {w : WorkerId} {result : WorkerResult}
    (h : s.processResult checks w result = .ok (s', out)) : out.filterMap Sent.dialled? = [] := by
  cases hj : s.scheduledJob with
  | none =>
    simp only [processResult, hj, Except.ok.injEq, Prod.mk.injEq] at h
    rw [← h.2]
    rfl
  | some job =>
    cases ht : s.tasksQueue.get result.id with
    | none =>
      simp only [processResult, hj, PriorityQueue.remove_of_get_none ht, ok_bind, lateResult] at h
      split at h
      · cases h
        rfl
      · obtain ⟨_, _, h⟩ := bind_ok.mp h
        obtain ⟨_, _, h⟩ := bind_ok.mp h
        cases h
        rfl
    | some task =>
      obtain ⟨_, _, _, _, batch, _, _, _, _, _, ⟨_, _, rfl⟩ | ⟨_, _, rfl⟩⟩ :=
        processResult_queued sound hj ht h
      · cases batch with
        | none => rfl
        | some batch => rfl
      · cases batch with
        | none => rfl
        | some batch => rfl

/-- A task is started for each worker that the node manager names, and for no other. -/
theorem step_dialled (sound : s.Sound) (h : s.step checks e = .ok (s', out)) :
    out.filterMap Sent.dialled? = e.named := by
  cases step_branch h with
  | hello | noTaskManager | nodeManagerConnected | scheduledJob | listedWorkers | listedTasks
  | taskManagerConnected | restoredSession | nodeManagerLeft | taskManagerLeft | nodeLeft
  | disconnected => rfl
  | nodes workers => simp [Event.named, Sent.dialled?, List.filterMap_map, Function.comp_def]
  | newJob =>
    simp only [processNewJob]
    split
    · rfl
    · rfl
  | tasks _ _ _ taken =>
    rw [(processTaskBatch_ok taken).1]
    rfl
  | createdSession _ _ taken =>
    rcases processCreatedSession_ok taken with ⟨_, rfl, _⟩ |
      ⟨_, _, _, _, ⟨_, _, _, rfl⟩ | ⟨_, _, _, _, rfl⟩⟩
    · rfl
    · rfl
    · rfl
  | schedule _ _ _ taken =>
    cases hj : s.scheduledJob with
    | none =>
      obtain ⟨rfl, rfl⟩ := processScheduling_idle hj taken
      rfl
    | some job =>
      rcases processScheduling_dispatches sound hj taken with idles | ⟨w, _, _, request, _, hout, _⟩
      · rw [idles.sent]
        rfl
      · rw [hout, sendNode]
        split
        · rfl
        · rfl
  | connected _ _ _ _ taken =>
    rw [(processConnected_ok taken).1]
    rfl
  | result _ _ _ _ taken => exact result_dialled sound taken
  | libraryMissing _ _ _ _ _ taken =>
    rw [(processLibraryMissing_ok taken).1]
    rfl
  | taskExecutionError _ _ _ _ _ taken =>
    rcases processTaskExecutionError_ok taken with ⟨_, rfl, _⟩ |
      ⟨_, _, _, _, _, _, _, _, ⟨_, _, rfl⟩ | ⟨_, _, rfl⟩⟩
    · rfl
    · rfl
    · rfl
  | noFreeExecutors _ _ _ _ taken =>
    rw [(processNoFreeExecutors_ok taken).1]
    rfl

end Scheduler

/-- The scheduler and its connections with the nodes. For each worker that the node manager names
there is a task, which dials, sends `Connected`, forwards what the node sends and ends with one
`Disconnected`, or with none when the scheduler has dropped the node. -/
structure Switchboard where
  scheduler : Scheduler
  /-- The workers that tasks are dialling. -/
  dialling : List WorkerInfo
  /-- What waits in the scheduler's stream of worker events, each with the connection it is from. -/
  workerEvents : List (Nat × WorkerEvent)
  /-- The connections whose tasks forward, each with its worker. -/
  lines : List (Nat × WorkerInfo)
  /-- All connections there have been. -/
  seen : List Nat

namespace Switchboard

/-- The steps of the tasks and of the scheduler, in any order. -/
inductive Event where
  | establishes (connection : Nat) (info : WorkerInfo)
  | fails (info : WorkerInfo)
  | answers (connection : Nat) (info : WorkerInfo) (response : WorkerResponse)
  | ends (connection : Nat) (info : WorkerInfo)
  | cancels (connection : Nat) (info : WorkerInfo)
  /-- The scheduler takes the next worker event. -/
  | takes
  /-- It takes any other event. -/
  | turns (event : GridServer.Event)
deriving DecidableEq, Repr

def new (config : Config) : Switchboard :=
  { scheduler := .new config
    dialling := []
    workerEvents := []
    lines := []
    seen := [] }

/-- The links that wait in the stream. -/
def waiting (events : List (Nat × WorkerEvent)) : List Node := events.filterMap fun e => e.2.link?

/-- The links that have not been dropped: they wait in the stream, or are a worker's. -/
def links (s : Switchboard) : List Node :=
  waiting s.workerEvents ++ s.scheduler.connectionManager.nodes.v.filterMap id

variable (checks : Bool)

/-- What the scheduler asks for is dialled. -/
def settle (s : Switchboard) (turn : Scheduler × List Sent) : Switchboard × List Sent :=
  ({ s with
      scheduler := turn.1
      dialling := s.dialling ++ turn.2.filterMap Sent.dialled? }, turn.2)

def step (s : Switchboard) : Event → Except Fault (Switchboard × List Sent)
  | .establishes connection info =>
    if s.dialling.contains info && !s.seen.contains connection then
      .ok ({ s with
        dialling := s.dialling.erase info
        workerEvents := s.workerEvents ++ [(connection, .connected info ⟨connection⟩)]
        lines := s.lines ++ [(connection, info)]
        seen := connection :: s.seen }, [])
    else .error .notReady
  | .fails info => .ok ({ s with dialling := s.dialling.erase info }, [])
  | .answers connection info response =>
    if s.lines.contains (connection, info) then
      .ok ({ s with
        workerEvents := s.workerEvents ++ [(connection, .message info.workerId response)] }, [])
    else .error .notReady
  | .ends connection info =>
    if s.lines.contains (connection, info) then
      .ok ({ s with
        workerEvents := s.workerEvents ++ [(connection, .disconnected info.workerId)]
        lines := s.lines.filter fun line => line.1 ≠ connection }, [])
    else .error .notReady
  | .cancels connection info =>
    if s.lines.contains (connection, info) && !s.links.contains ⟨connection⟩ then
      .ok ({ s with lines := s.lines.filter fun line => line.1 ≠ connection }, [])
    else .error .notReady
  | .takes =>
    match s.workerEvents with
    | [] => .error .notReady
    | (_, event) :: later => do
      let turn ← s.scheduler.step checks (.worker event)
      return ({ s with workerEvents := later } : Switchboard).settle turn
  | .turns (.worker _) => .error .notReady
  | .turns event => do
    let turn ← s.scheduler.step checks event
    return s.settle turn

/-- The workers that the node manager names with the event. -/
def Event.named : Event → List WorkerInfo
  | .turns event => event.named
  | _ => []

/-- The connection is open for the worker, or the scheduler is about to hear that it has ended. -/
def Tended (events : List (Nat × WorkerEvent)) (lines : List (Nat × WorkerInfo)) (connection : Nat)
    (info : WorkerInfo) : Prop :=
  (connection, info) ∈ lines ∨ (connection, .disconnected info.workerId) ∈ events

/-- Every link that waits in the stream is tended by what comes after it. -/
def Announced (lines : List (Nat × WorkerInfo)) : List (Nat × WorkerEvent) → Prop
  | [] => True
  | (connection, event) :: later =>
    (∀ info node, event = .connected info node →
      node = ⟨connection⟩ ∧ Tended later lines connection info) ∧ Announced lines later

/-- The worker is one that the node manager has named, and its connection is tended. -/
structure Manned (told : List WorkerInfo) (s : Switchboard) (w : WorkerId) (link : Node) :
    Prop where
  tended : ∃ info v, info ∈ told ∧ info.workerId = w ∧ s.scheduler.workersQueue.get w = some v ∧
    v.address = info.address ∧ v.platform = info.platform ∧
    Tended s.workerEvents s.lines link.connection info
  seen : link.connection ∈ s.seen
  apart : link ∉ waiting s.workerEvents

/-- What holds of the connections in every run. -/
structure Wired (told : List WorkerInfo) (s : Switchboard) : Prop where
  sound : s.scheduler.Sound
  linked : ∀ w, (s.scheduler.workersQueue.get w).isSome =
    (s.scheduler.connectionManager.nodes.get w).isSome
  dialling : ∀ info ∈ s.dialling, info ∈ told
  lines : ∀ c info, (c, info) ∈ s.lines → info ∈ told ∧ c ∈ s.seen
  single : ∀ c info info', (c, info) ∈ s.lines → (c, info') ∈ s.lines → info = info'
  brought : ∀ c info node, (c, WorkerEvent.connected info node) ∈ s.workerEvents → info ∈ told
  announced : Announced s.lines s.workerEvents
  once : (waiting s.workerEvents).Nodup
  known : ∀ link ∈ waiting s.workerEvents, link.connection ∈ s.seen
  manned : ∀ w link, s.scheduler.connectionManager.nodes.get w = some link → Manned told s w link
  distinct : ∀ w w' link, s.scheduler.connectionManager.nodes.get w = some link →
    s.scheduler.connectionManager.nodes.get w' = some link → w = w'

variable {checks} {s t : Switchboard} {e : Event} {es : List Event} {out : List Sent}
  {told told' : List WorkerInfo}

section Lists
variable {events : List (Nat × WorkerEvent)} {lines lines' : List (Nat × WorkerInfo)} {c : Nat}
  {info : WorkerInfo}

theorem waiting_append (events events' : List (Nat × WorkerEvent)) :
    waiting (events ++ events') = waiting events ++ waiting events' := List.filterMap_append

theorem Tended.mono {events' : List (Nat × WorkerEvent)} (tended : Tended events lines c info)
    (hevents : events ⊆ events') (hlines : (c, info) ∈ lines → Tended events' lines' c info) :
    Tended events' lines' c info := by
  rcases tended with hline | hevent
  · exact hlines hline
  · exact .inr (hevents hevent)

/-- The stream is added to, and every line that goes leaves its end there. -/
theorem Announced.append {more : List (Nat × WorkerEvent)} (announced : Announced lines events)
    (hmore : Announced lines' more)
    (hlines : ∀ c info, (c, info) ∈ lines → ⟨c⟩ ∈ waiting events → Tended more lines' c info) :
    Announced lines' (events ++ more) := by
  induction events with
  | nil => exact hmore
  | cons e events ih =>
    obtain ⟨c, event⟩ := e
    obtain ⟨hfirst, hrest⟩ := announced
    refine ⟨?_, ih hrest ?_⟩
    · rintro info node rfl
      obtain ⟨rfl, tended⟩ := hfirst info node rfl
      refine ⟨rfl, tended.mono (List.subset_append_left ..) fun hline => ?_⟩
      have hadded := hlines c info hline (by simp [waiting, WorkerEvent.link?])
      exact hadded.mono (List.subset_append_right ..) .inl
    · intro c' info hline hmem
      refine hlines c' info hline ?_
      exact ((List.sublist_cons_self ..).filterMap _).subset hmem

end Lists
section Turns
variable {event : GridServer.Event} {later : List (Nat × WorkerEvent)} {scheduler : Scheduler}

theorem update_none_eq_some {get : Nat → Option Node} {w k : Nat} {link : Node} :
    Function.update get k none w = some link ↔ w ≠ k ∧ get w = some link := by
  by_cases hw : w = k
  · subst hw
    simp
  · rw [Function.update_of_ne hw]
    exact (and_iff_right hw).symm

/-- What is tended stays so when the scheduler takes an event that does not end it. -/
theorem Manned.taken {w : WorkerId} {link : Node} (manned : Manned told s w link)
    (hsub : later.Sublist s.workerEvents)
    (hends : ∀ c w, (c, WorkerEvent.disconnected w) ∈ s.workerEvents →
      event ≠ .worker (.disconnected w) → (c, WorkerEvent.disconnected w) ∈ later)
    (hstays : event ≠ .worker (.disconnected w))
    (hworker : ∀ v, s.scheduler.workersQueue.get w = some v →
      ∃ v', scheduler.workersQueue.get w = some v' ∧ v'.address = v.address ∧
        v'.platform = v.platform) (dialling : List WorkerInfo) :
    Manned told { s with scheduler := scheduler, workerEvents := later, dialling := dialling }
      w link := by
  obtain ⟨info, v, htold, rfl, hv, haddress, hplatform, tended⟩ := manned.tended
  obtain ⟨v', hv', haddress', hplatform'⟩ := hworker v hv
  refine ⟨⟨info, v', htold, rfl, hv', haddress'.trans haddress, hplatform'.trans hplatform, ?_⟩,
    manned.seen, fun hmem => manned.apart ((hsub.filterMap _).subset hmem)⟩
  rcases tended with hline | hend
  · exact .inl hline
  · exact .inr (hends _ _ hend hstays)

/-- The workers that are left had their links before, but the one that joins. -/
theorem Wired.manned_turn (wired : Wired told s)
    (manning : Scheduler.Manning s.scheduler scheduler event out)
    (hsub : later.Sublist s.workerEvents)
    (hends : ∀ c w, (c, WorkerEvent.disconnected w) ∈ s.workerEvents →
      event ≠ .worker (.disconnected w) → (c, WorkerEvent.disconnected w) ∈ later)
    (hjoins : ∀ info node, event = .worker (.connected info node) →
      info ∈ told ∧ node ∈ waiting s.workerEvents ∧ node ∉ waiting later ∧
        Tended later s.lines node.connection info) (dialling : List WorkerInfo) {w : WorkerId}
    {link : Node} (hlink : scheduler.connectionManager.nodes.get w = some link) :
    Manned told { s with scheduler := scheduler, workerEvents := later, dialling := dialling }
      w link := by
  cases manning with
  | kept keeps hr hnodes =>
    rw [hnodes] at hlink
    refine (wired.manned w link hlink).taken hsub hends ?_ ?_ _
    · rintro rfl
      exact keeps
    · intro v hv
      have hsome : (scheduler.workersQueue.get w).isSome := by
        rw [hr.stay, hv]
        rfl
      obtain ⟨v', hv'⟩ := Option.isSome_iff_exists.mp hsome
      obtain ⟨v₀, hv₀, stays⟩ := hr.workers w v' hv'
      rw [hv, Option.some.injEq] at hv₀
      subst hv₀
      exact ⟨v', hv', stays.address, stays.platform⟩
  | cleared _ hnodes =>
    rw [hnodes] at hlink
    cases hlink
  | left k _ hnamed hqueue hnodes =>
    rw [hnodes] at hlink
    obtain ⟨hw, hlink⟩ := update_none_eq_some.mp hlink
    refine (wired.manned w link hlink).taken hsub hends (fun he => hw (hnamed w he)) ?_ _
    intro v hv
    rw [hqueue, Function.update_of_ne hw]
    exact ⟨v, hv, rfl, rfl⟩
  | joined info node he hqueue hnodes =>
    obtain ⟨htold, hwaits, hnot, tended⟩ := hjoins info node he
    by_cases hw : w = info.workerId
    · subst hw
      rw [hnodes, Function.update_self, Option.some.injEq] at hlink
      subst hlink
      have hv := congrFun hqueue info.workerId
      rw [Function.update_self] at hv
      exact ⟨⟨info, _, htold, rfl, hv, rfl, rfl, tended⟩, wired.known _ hwaits, hnot⟩
    · rw [hnodes, Function.update_of_ne hw] at hlink
      refine (wired.manned w link hlink).taken hsub hends ?_ ?_ _
      · rw [he]
        rintro ⟨⟩
      · intro v hv
        rw [hqueue, Function.update_of_ne hw]
        exact ⟨v, hv, rfl, rfl⟩
  | asked job k v kept request he _ dispatched _ =>
    rw [dispatched.rest] at hlink
    refine (wired.manned w link hlink).taken hsub hends ?_ ?_ _
    · rw [he]
      rintro ⟨⟩
    · intro v' hv'
      rw [dispatched.workers]
      by_cases hw : w = k
      · subst hw
        rw [dispatched.worker, Option.some.injEq] at hv'
        rw [Function.update_self]
        exact ⟨_, rfl, hv' ▸ rfl, hv' ▸ rfl⟩
      · rw [Function.update_of_ne hw]
        exact ⟨v', hv', rfl, rfl⟩

/-- No link is two workers': the one that joins has waited in the stream, so it was no worker's. -/
theorem Wired.distinct_turn (wired : Wired told s)
    (manning : Scheduler.Manning s.scheduler scheduler event out)
    (hjoins : ∀ info node, event = .worker (.connected info node) →
      node ∈ waiting s.workerEvents) {w w' : WorkerId} {link : Node}
    (hlink : scheduler.connectionManager.nodes.get w = some link)
    (hlink' : scheduler.connectionManager.nodes.get w' = some link) : w = w' := by
  cases manning with
  | kept _ _ hnodes =>
    rw [hnodes] at hlink hlink'
    exact wired.distinct w w' link hlink hlink'
  | cleared _ hnodes =>
    rw [hnodes] at hlink
    cases hlink
  | left k _ _ _ hnodes =>
    rw [hnodes] at hlink hlink'
    exact wired.distinct w w' link (update_none_eq_some.mp hlink).2
      (update_none_eq_some.mp hlink').2
  | joined info node he _ hnodes =>
    have hfresh : ∀ k, s.scheduler.connectionManager.nodes.get k ≠ some node := fun k hk =>
      (wired.manned k node hk).apart (hjoins info node he)
    rw [hnodes] at hlink hlink'
    by_cases hw : w = info.workerId
    · subst hw
      rw [Function.update_self, Option.some.injEq] at hlink
      subst hlink
      by_contra hne
      rw [Function.update_of_ne (Ne.symm hne)] at hlink'
      exact hfresh w' hlink'
    · rw [Function.update_of_ne hw] at hlink
      by_cases hw' : w' = info.workerId
      · subst hw'
        rw [Function.update_self, Option.some.injEq] at hlink'
        subst hlink'
        exact absurd hlink (hfresh w)
      · rw [Function.update_of_ne hw'] at hlink'
        exact wired.distinct w w' link hlink hlink'
  | asked job k v kept request _ _ dispatched _ =>
    rw [dispatched.rest] at hlink hlink'
    exact wired.distinct w w' link hlink hlink'

/-- A turn of the scheduler: what it takes from the stream is no end of a connection but the one
that it is about, and whoever joins is tended by the rest of the stream. -/
theorem Wired.turn (wired : Wired told s) (h : s.scheduler.step checks event = .ok (scheduler, out))
    (hsub : later.Sublist s.workerEvents)
    (hends : ∀ c w, (c, WorkerEvent.disconnected w) ∈ s.workerEvents →
      event ≠ .worker (.disconnected w) → (c, WorkerEvent.disconnected w) ∈ later)
    (hannounced : Announced s.lines later)
    (hjoins : ∀ info node, event = .worker (.connected info node) →
      info ∈ told ∧ node ∈ waiting s.workerEvents ∧ node ∉ waiting later ∧
        Tended later s.lines node.connection info) (hnamed : event.named ⊆ told) :
    Wired told (settle { s with workerEvents := later } (scheduler, out)).1 := by
  have manning := Scheduler.step_manning wired.sound h
  have hwaiting : ∀ link ∈ waiting later, link ∈ waiting s.workerEvents :=
    fun link hlink => (hsub.filterMap _).subset hlink
  refine ⟨(Scheduler.step_outcome wired.sound h).1, manning.linked wired.linked, ?_, wired.lines,
    wired.single, ?_, hannounced, wired.once.sublist (hsub.filterMap _),
    fun link hlink => wired.known link (hwaiting link hlink), ?_, ?_⟩
  · intro info hinfo
    rcases List.mem_append.mp hinfo with hinfo | hinfo
    · exact wired.dialling info hinfo
    · rw [Scheduler.step_dialled wired.sound h] at hinfo
      exact hnamed hinfo
  · exact fun c info node hmem => wired.brought c info node (hsub.subset hmem)
  · exact fun w link hlink => wired.manned_turn manning hsub hends hjoins _ hlink
  · exact fun w w' link hlink hlink' =>
      wired.distinct_turn manning (fun info node he => (hjoins info node he).2.1) hlink hlink'

end Turns
section Tasks
variable {lines' : List (Nat × WorkerInfo)} {c : Nat} {info : WorkerInfo}

theorem Wired.mono (wired : Wired told s) (h : told ⊆ told') : Wired told' s := by
  refine ⟨wired.sound, wired.linked, fun info hinfo => h (wired.dialling info hinfo), ?_,
    wired.single, fun c info node hmem => h (wired.brought c info node hmem), wired.announced,
    wired.once, wired.known, ?_, wired.distinct⟩
  · intro c info hline
    obtain ⟨htold, hseen⟩ := wired.lines c info hline
    exact ⟨h htold, hseen⟩
  · intro w link hlink
    obtain ⟨⟨info, v, htold, hrest⟩, hseen, hapart⟩ := wired.manned w link hlink
    exact ⟨⟨info, v, h htold, hrest⟩, hseen, hapart⟩

theorem mem_links {w : WorkerId} {link : Node}
    (h : s.scheduler.connectionManager.nodes.get w = some link) : link ∈ s.links := by
  refine List.mem_append_right _ (List.mem_filterMap.mpr ⟨some link, ?_, rfl⟩)
  exact List.mem_of_getElem? (Option.join_eq_some_iff.mp h)

/-- A task sends what is no `Connected`, and may end, when it leaves word of it or is let go. -/
theorem Wired.push (wired : Wired told s) {more : List (Nat × WorkerEvent)}
    (hlines : lines' ⊆ s.lines) (hmore : Announced lines' more) (hwaits : waiting more = [])
    (hgone : ∀ c info, (c, info) ∈ s.lines → ⟨c⟩ ∈ s.links → Tended more lines' c info) :
    Wired told { s with workerEvents := s.workerEvents ++ more, lines := lines' } := by
  have hwaiting : waiting (s.workerEvents ++ more) = waiting s.workerEvents := by
    rw [waiting_append, hwaits, List.append_nil]
  refine ⟨wired.sound, wired.linked, wired.dialling, fun c info h => wired.lines c info (hlines h),
    fun c info info' h h' => wired.single c info info' (hlines h) (hlines h'), ?_,
    wired.announced.append hmore fun c info hline hwait =>
      hgone c info hline (List.mem_append_left _ hwait), ?_, ?_, ?_, wired.distinct⟩
  · intro c info node hmem
    rcases List.mem_append.mp hmem with hmem | hmem
    · exact wired.brought c info node hmem
    · have hwait : node ∈ waiting more := List.mem_filterMap.mpr ⟨_, hmem, rfl⟩
      rw [hwaits] at hwait
      cases hwait
  · rw [hwaiting]
    exact wired.once
  · rw [hwaiting]
    exact wired.known
  · intro w link hlink
    obtain ⟨⟨info, v, htold, hid, hv, haddress, hplatform, tended⟩, hseen, hapart⟩ :=
      wired.manned w link hlink
    refine ⟨⟨info, v, htold, hid, hv, haddress, hplatform, ?_⟩, hseen, hwaiting ▸ hapart⟩
    refine tended.mono (List.subset_append_left ..) fun hline => ?_
    exact (hgone _ info hline (mem_links hlink)).mono (List.subset_append_right ..) .inl

theorem Wired.establish (wired : Wired told s) (hd : info ∈ s.dialling) (hc : c ∉ s.seen) :
    Wired told { s with
      dialling := s.dialling.erase info
      workerEvents := s.workerEvents ++ [(c, .connected info ⟨c⟩)]
      lines := s.lines ++ [(c, info)]
      seen := c :: s.seen } := by
  have hwaiting : waiting (s.workerEvents ++ [(c, .connected info ⟨c⟩)]) =
      waiting s.workerEvents ++ [⟨c⟩] := by
    rw [waiting_append]
    rfl
  have hself : (c, info) ∈ s.lines ++ [(c, info)] :=
    List.mem_append_right _ List.mem_cons_self
  refine ⟨wired.sound, wired.linked, ?_, ?_, ?_, ?_, ?_, ?_, ?_, ?_, wired.distinct⟩
  · exact fun info' h => wired.dialling info' (List.mem_of_mem_erase h)
  · intro c' info' hline
    rcases List.mem_append.mp hline with hline | hline
    · obtain ⟨htold, hseen⟩ := wired.lines c' info' hline
      exact ⟨htold, List.mem_cons_of_mem _ hseen⟩
    · obtain ⟨rfl, rfl⟩ := Prod.mk.inj (List.mem_singleton.mp hline)
      exact ⟨wired.dialling info' hd, List.mem_cons_self⟩
  · -- the connection is new
    have hnew : ∀ info', (c, info') ∉ s.lines := fun info' h => hc (wired.lines c info' h).2
    intro c' info₁ info₂ hmem₁ hmem₂
    rcases List.mem_append.mp hmem₁ with h₁ | h₁
    · rcases List.mem_append.mp hmem₂ with h₂ | h₂
      · exact wired.single c' info₁ info₂ h₁ h₂
      · obtain ⟨rfl, _⟩ := Prod.mk.inj (List.mem_singleton.mp h₂)
        exact absurd h₁ (hnew info₁)
    · obtain ⟨rfl, rfl⟩ := Prod.mk.inj (List.mem_singleton.mp h₁)
      rcases List.mem_append.mp hmem₂ with h₂ | h₂
      · exact absurd h₂ (hnew info₂)
      · exact (Prod.mk.inj (List.mem_singleton.mp h₂)).2.symm
  · intro c' info' node hmem
    rcases List.mem_append.mp hmem with hmem | hmem
    · exact wired.brought c' info' node hmem
    · cases List.mem_singleton.mp hmem
      exact wired.dialling info hd
  · refine wired.announced.append ⟨?_, trivial⟩ fun c' info' hline _ =>
      .inl (List.mem_append_left _ hline)
    rintro info' node ⟨⟩
    exact ⟨rfl, .inl hself⟩
  · rw [hwaiting, List.nodup_append]
    refine ⟨wired.once, List.nodup_singleton _, ?_⟩
    rintro link hlink _ hmem rfl
    rw [List.mem_singleton] at hmem
    have hseen := wired.known link hlink
    rw [hmem] at hseen
    exact hc hseen
  · rw [hwaiting]
    intro link hlink
    rcases List.mem_append.mp hlink with hlink | hlink
    · exact List.mem_cons_of_mem _ (wired.known link hlink)
    · rw [List.mem_singleton.mp hlink]
      exact List.mem_cons_self
  · intro w link hlink
    obtain ⟨⟨info', v, htold, hid, hv, haddress, hplatform, tended⟩, hseen, hapart⟩ :=
      wired.manned w link hlink
    refine ⟨⟨info', v, htold, hid, hv, haddress, hplatform, ?_⟩,
      List.mem_cons_of_mem _ hseen, ?_⟩
    · exact tended.mono (List.subset_append_left ..) fun hline =>
        .inl (List.mem_append_left _ hline)
    · rw [hwaiting, List.mem_append, List.mem_singleton, not_or]
      refine ⟨hapart, ?_⟩
      rintro rfl
      exact hc hseen

/-- Without its line every other connection is as it was. -/
theorem line_stays {c' : Nat} {info' : WorkerInfo} (hline : (c', info') ∈ s.lines) (hne : c' ≠ c) :
    (c', info') ∈ s.lines.filter fun line => line.1 ≠ c :=
  List.mem_filter.mpr ⟨hline, by simpa using hne⟩

/-- A task may end when its end is in the stream, or when nobody has the link. -/
theorem Wired.close (wired : Wired told s) {more : List (Nat × WorkerEvent)}
    (hmore : Announced (s.lines.filter fun line => line.1 ≠ c) more) (hwaits : waiting more = [])
    (hended : ∀ info, (c, info) ∈ s.lines → ⟨c⟩ ∈ s.links →
      (c, .disconnected info.workerId) ∈ more) :
    Wired told { s with
      workerEvents := s.workerEvents ++ more
      lines := s.lines.filter fun line => line.1 ≠ c } := by
  refine wired.push (List.filter_subset_self _) hmore hwaits fun c' info hline hlink => ?_
  by_cases hc : c' = c
  · subst hc
    exact .inr (hended info hline hlink)
  · exact .inl (line_stays hline hc)

/-- The scheduler takes what has waited longest. -/
theorem Wired.take (wired : Wired told s) {event : WorkerEvent} {later : List (Nat × WorkerEvent)}
    {scheduler : Scheduler} (hq : s.workerEvents = (c, event) :: later)
    (h : s.scheduler.step checks (.worker event) = .ok (scheduler, out)) :
    Wired told (settle { s with workerEvents := later } (scheduler, out)).1 := by
  obtain ⟨hfirst, hlater⟩ := hq ▸ wired.announced
  have honce := wired.once
  rw [hq] at honce
  refine wired.turn h (hq ▸ List.sublist_cons_self ..) ?_ hlater ?_ (List.nil_subset _)
  · intro c' w hmem hne
    rw [hq, List.mem_cons] at hmem
    rcases hmem with hmem | hmem
    · cases hmem
      exact absurd rfl hne
    · exact hmem
  · rintro info node ⟨⟩
    obtain ⟨rfl, tended⟩ := hfirst info node rfl
    have hnot : (⟨c⟩ : Node) ∉ waiting later := (List.nodup_cons.mp honce).1
    refine ⟨wired.brought c info ⟨c⟩ (hq ▸ List.mem_cons_self), ?_, hnot, tended⟩
    rw [hq]
    exact List.mem_cons_self

theorem Wired.step (wired : Wired told s) (h : s.step checks e = .ok (t, out)) :
    Wired (told ++ e.named) t := by
  have hsame : told ⊆ told ++ e.named := List.subset_append_left ..
  cases e with
  | establishes c info =>
    simp only [Switchboard.step] at h
    split at h
    · rename_i hready
      rw [Bool.and_eq_true, Bool.not_eq_true'] at hready
      obtain ⟨hd, hc⟩ := hready
      cases h
      refine (wired.establish (List.contains_iff_mem.mp hd) ?_).mono hsame
      intro hseen
      rw [List.contains_iff_mem.mpr hseen] at hc
      cases hc
    · cases h
  | fails info =>
    cases h
    refine Wired.mono ?_ hsame
    exact ⟨wired.sound, wired.linked,
      fun info' h => wired.dialling info' (List.mem_of_mem_erase h), wired.lines, wired.single,
      wired.brought, wired.announced, wired.once, wired.known,
      fun w link hlink => ⟨(wired.manned w link hlink).tended, (wired.manned w link hlink).seen,
        (wired.manned w link hlink).apart⟩, wired.distinct⟩
  | answers c info response =>
    simp only [Switchboard.step] at h
    split at h
    · cases h
      refine Wired.mono ?_ hsame
      refine wired.push (List.Subset.refl _) ⟨?_, trivial⟩ rfl fun c' info' hline _ => .inl hline
      rintro info' node ⟨⟩
    · cases h
  | ends c info =>
    simp only [Switchboard.step] at h
    split at h
    · rename_i hline
      have hopen := List.contains_iff_mem.mp hline
      cases h
      refine Wired.mono ?_ hsame
      refine wired.close ⟨?_, trivial⟩ rfl ?_
      · rintro info' node ⟨⟩
      · intro info' hline' _
        rw [wired.single c info' info hline' hopen]
        exact List.mem_cons_self
    · cases h
  | cancels c info =>
    simp only [Switchboard.step] at h
    split at h
    · rename_i hready
      rw [Bool.and_eq_true, Bool.not_eq_true'] at hready
      cases h
      refine Wired.mono ?_ hsame
      have hnothing : Announced (s.lines.filter fun line => line.1 ≠ c) [] := trivial
      have hclosed := wired.close hnothing rfl fun info' _ hlink => by
        rw [List.contains_iff_mem.mpr hlink] at hready
        cases hready.2
      rw [List.append_nil] at hclosed
      exact hclosed
    · cases h
  | takes =>
    simp only [Switchboard.step] at h
    split at h
    · cases h
    · rename_i c event later hq
      obtain ⟨⟨scheduler, out'⟩, hturn, h⟩ := bind_ok.mp h
      cases h
      exact (wired.take hq hturn).mono hsame
  | turns event =>
    have hturn : ∃ scheduler, s.scheduler.step checks event = .ok (scheduler, out) ∧
        t = (settle s (scheduler, out)).1 ∧ ∀ e, event ≠ .worker e := by
      cases event with
      | worker event => cases h
      | taskManager | nodeManager | command | schedule =>
        obtain ⟨⟨scheduler, out'⟩, hturn, h⟩ := bind_ok.mp h
        cases h
        exact ⟨scheduler, hturn, rfl, by rintro _ ⟨⟩⟩
    obtain ⟨scheduler, hturn, rfl, hother⟩ := hturn
    refine (wired.mono hsame).turn hturn (List.Sublist.refl _) (fun c w hmem _ => hmem)
      wired.announced ?_ (List.subset_append_right ..)
    intro info node he
    exact absurd he (hother _)

end Tasks

theorem wired_new (config : Config) : Wired [] (.new config) := by
  refine ⟨Scheduler.sound_new config, ?_, ?_, ?_, ?_, ?_, trivial, List.nodup_nil, ?_, ?_, ?_⟩
  · intro w
    have hworkers : (Scheduler.new config).workersQueue.get w = none := PriorityQueue.get_new w
    have hnodes : (Scheduler.new config).connectionManager.nodes.get w = none := VecMap.get_new w
    rw [new, hworkers, hnodes]
    rfl
  all_goals simp [new, waiting, Scheduler.new]

/-- The worker's connection ends before the scheduler has heard that it is connected. -/
def hasty : List Event :=
  let info : WorkerInfo := ⟨3, 2, ⟨[127, 0, 0, 1], 7001⟩, Scheduler.smallPlatform⟩
  [.turns (.nodeManager (.message (.connect [info]))), .establishes 0 info, .ends 0 info, .takes]

end Switchboard
end GridServer
