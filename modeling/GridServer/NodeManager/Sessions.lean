import GridServer.NodeManager.Queue

namespace GridServer.NodeManager
open Library

/-- The sessions that the node manager keeps: the nodes and schedulers in their slots, the timers,
and who may come back. -/
structure Sessions where
  nodes : Id → Option (Uuid × Key)
  schedulers : Id → Option (Uuid × SocketAddr)
  timers : Key → Option (Id × ServiceType)
  disconnected : Uuid → Option (Id × Key)

namespace Sessions

def forget (r : Sessions) (uuid : Uuid) : Sessions :=
  { r with disconnected := Function.update r.disconnected uuid none }

def stop (r : Sessions) (key : Key) : Sessions :=
  { r with timers := Function.update r.timers key none }

/-- What an event does to the sessions. -/
def apply (r : Sessions) : Event → Sessions
  | .node (.connect uuid _ _ _ _ _) fresh =>
    if (r.disconnected uuid).isSome then r.forget uuid
    else { r with
      nodes := Function.update r.nodes fresh.id (some (uuid, fresh.key))
      timers := Function.update r.timers fresh.key (some (fresh.id, .node)) }
  | .node (.disconnect id) _ =>
    match r.nodes id with
    | none => r
    | some (uuid, key) =>
      { r with disconnected := Function.update r.disconnected uuid (some (id, key)) }
  | .node (.heartbeat _) _ => r
  | .expired key =>
    match r.timers key with
    | some (id, .node) =>
      match r.nodes id with
      | none => r.stop key
      | some (uuid, _) =>
        { (r.stop key).forget uuid with nodes := Function.update r.nodes id none }
    | some (_, .scheduler) => r.stop key
    | none => r
  | .scheduler (.connect uuid _ address _) fresh =>
    match r.disconnected uuid with
    | some (_, key) => (r.forget uuid).stop key
    | none => { r with schedulers := Function.update r.schedulers fresh.id (some (uuid, address)) }
  | .scheduler (.disconnect id) fresh =>
    match r.schedulers id with
    | none => r
    | some (uuid, _) =>
      { r with
        timers := Function.update r.timers fresh.key (some (id, .scheduler))
        disconnected := Function.update r.disconnected uuid (some (id, fresh.key)) }
  | .scheduler (.message _ _) _ => r
  | .processQueue => r

/-- What the sessions have to offer for the event to go through. -/
def Admits (r : Sessions) : Event → Prop
  | .node (.connect uuid _ _ _ _ _) fresh =>
    match r.disconnected uuid with
    | some (id, key) => (r.nodes id).isSome ∧ (r.timers key).isSome
    | none => r.nodes fresh.id = none ∧ r.timers fresh.key = none
  | .node (.heartbeat id) _ => ∀ uuid key, r.nodes id = some (uuid, key) → (r.timers key).isSome
  | .expired key => (r.timers key).isSome
  | .scheduler (.connect uuid _ _ _) fresh =>
    match r.disconnected uuid with
    | some (id, key) => (r.schedulers id).isSome ∧ (r.timers key).isSome
    | none => r.schedulers fresh.id = none
  | .scheduler (.disconnect id) fresh => (r.schedulers id).isSome → r.timers fresh.key = none
  | _ => True

/-- Every timer of a scheduler belongs to a slot that is taken. -/
def Timed (r : Sessions) : Prop :=
  ∀ key i, r.timers key = some (i, .scheduler) → (r.schedulers i).isSome

theorem Timed.stop {r : Sessions} (h : r.Timed) (key : Key) : (r.stop key).Timed := by
  intro k i hk
  simp only [Sessions.stop] at hk
  by_cases hkk : k = key
  · subst hkk
    rw [Function.update_self] at hk
    cases hk
  · rw [Function.update_of_ne hkk] at hk
    exact h k i hk

/-- No event gives up the slot of a scheduler. -/
theorem Timed.apply {r : Sessions} (h : r.Timed) (e : Event) : (r.apply e).Timed := by
  cases e with
  | node event fresh =>
    cases event with
    | connect uuid name platform subworkers address connection =>
      simp only [Sessions.apply]
      split
      · exact h
      · intro key i hkey
        dsimp only at hkey
        by_cases hf : key = fresh.key
        · subst hf
          rw [Function.update_self] at hkey
          cases hkey
        · rw [Function.update_of_ne hf] at hkey
          exact h key i hkey
    | disconnect id =>
      simp only [Sessions.apply]
      split
      · exact h
      · exact h
    | heartbeat id => exact h
  | expired key =>
    simp only [Sessions.apply]
    split
    · split
      · exact h.stop key
      · exact h.stop key
    · exact h.stop key
    · exact h
  | scheduler event fresh =>
    cases event with
    | connect uuid name address connection =>
      simp only [Sessions.apply]
      split
      · exact h.stop _
      · intro key i hkey
        dsimp only
        by_cases hf : i = fresh.id
        · simp [hf]
        · rw [Function.update_of_ne hf]
          exact h key i hkey
    | disconnect id =>
      simp only [Sessions.apply]
      cases hid : r.schedulers id with
      | none => exact h
      | some session =>
        intro key i hkey
        dsimp only at hkey
        by_cases hf : key = fresh.key
        · subst hf
          rw [Function.update_self, Option.some.injEq, Prod.mk.injEq] at hkey
          rw [← hkey.1, hid]
          rfl
        · rw [Function.update_of_ne hf] at hkey
          exact h key i hkey
    | message id request => exact h
  | processQueue => exact h

end Sessions

/-- What a node's session keeps as long as it lasts. -/
def Node.session (node : Node) : Uuid × Key := (node.uuid, node.expirationKey)

@[simp] theorem Node.send_session (node : Node) (request : NodeRequest) :
    (node.send request).1.session = node.session := by
  unfold Node.send
  split
  · rfl
  · rfl

/-- What a scheduler's session keeps: it is not told of a new address. -/
def Scheduler.session (scheduler : Scheduler) : Uuid × SocketAddr :=
  (scheduler.uuid, scheduler.address)

@[simp] theorem Scheduler.send_session (scheduler : Scheduler) (response : NodeManagerResponse) :
    (scheduler.send response).1.session = scheduler.session := by
  unfold Scheduler.send
  split
  · rfl
  · rfl

namespace DelayQueue
variable {T : Type} {q q' : DelayQueue T} {key : Key}

theorem reset_ok : q.reset key = .ok q' ↔ (q.get key).isSome ∧ q' = q := by
  unfold reset
  split
  case isTrue h => simp [h, eq_comm]
  case isFalse h => simp [h]

theorem remove_ok : q.remove key = .ok q' ↔
    (q.get key).isSome ∧ q' = q.filter fun e => e.1 ≠ key := by
  unfold remove
  split
  case isTrue h => simp [h, eq_comm]
  case isFalse h => simp [h]

end DelayQueue

namespace State
variable {checks : Bool} {s t : State} {out : List Sent}

def sessions (s : State) : Sessions :=
  { nodes := tally s.workers Node.session
    schedulers := tally s.schedulers Scheduler.session
    timers := s.expirations.get
    disconnected := s.disconnected }

theorem releaseWorker_sessions (s : State) (w : Id) :
    (s.releaseWorker w).1.sessions = s.sessions := by
  unfold releaseWorker
  split
  · rfl
  · rename_i worker hw
    simp only [sessions, Sessions.mk.injEq, and_true]
    apply tally_write_same hw
    rw [Node.send_session]
    rfl

theorem releaseWorkers_sessions (s : State) (ws : List Id) :
    (s.releaseWorkers ws).1.sessions = s.sessions := by
  induction ws generalizing s with
  | nil => rfl
  | cons w ws ih =>
    rw [releaseWorkers_cons, ih]
    exact releaseWorker_sessions s w

theorem dropDemand_sessions {id : Id} {scheduler : Scheduler}
    (hs : s.schedulers.get id = some scheduler) (demands : LinkedVecMap WorkersDemand) :
    (s.dropDemand id scheduler demands).1.sessions = s.sessions := by
  simp only [dropDemand]
  split
  · rw [releaseWorkers_sessions]
    simp only [sessions, Sessions.mk.injEq, true_and, and_true]
    exact tally_write_same hs rfl
  · rfl

theorem processScheduler_sessions {event : SchedulerEvent} {fresh : Fresh}
    (h : s.processScheduler event fresh = .ok (t, out)) :
    s.sessions.Admits (.scheduler event fresh) ∧
      t.sessions = s.sessions.apply (.scheduler event fresh) := by
  cases event with
  | connect uuid name address connection =>
    simp only [processScheduler] at h
    cases hd : s.disconnected uuid with
    | some entry =>
      obtain ⟨id, key⟩ := entry
      simp only [hd, restoreSchedulerSession, bind_ok, except_pure, Except.ok.injEq, Prod.mk.injEq,
        index_ok, DelayQueue.remove_ok] at h
      obtain ⟨scheduler, hs, _, ⟨hkey, rfl⟩, rfl, _⟩ := h
      simp only [Sessions.Admits, Sessions.apply, sessions, hd]
      refine ⟨⟨by simp [tally, hs], hkey⟩, ?_⟩
      rw [tally_write_same hs, DelayQueue.get_filter]
      · rfl
      · rfl
    | none =>
      simp only [hd] at h
      split at h
      · cases h
      · rename_i hvacant
        simp only [Except.ok.injEq, Prod.mk.injEq] at h
        obtain ⟨rfl, _⟩ := h
        simp only [Sessions.Admits, Sessions.apply, sessions, hd, tally_insert]
        refine ⟨?_, rfl⟩
        simp [tally, Option.not_isSome_iff_eq_none.mp hvacant]
  | disconnect id =>
    simp only [processScheduler] at h
    split at h
    · rename_i hnone
      simp only [Except.ok.injEq, Prod.mk.injEq] at h
      simp [Sessions.Admits, Sessions.apply, sessions, tally, hnone, ← h.1]
    · rename_i scheduler hs
      split at h
      · cases h
      · rename_i hvacant
        have hfree := Option.not_isSome_iff_eq_none.mp hvacant
        simp only [Except.ok.injEq, Prod.mk.injEq] at h
        obtain ⟨rfl, _⟩ := h
        have hid : tally s.schedulers Scheduler.session id =
            some (scheduler.uuid, scheduler.address) := by simp [tally, hs, Scheduler.session]
        simp only [Sessions.Admits, Sessions.apply, sessions, hid]
        refine ⟨fun _ => hfree, ?_⟩
        rw [tally_write_same hs, DelayQueue.get_append hfree]
        rfl
  | message id request =>
    refine ⟨trivial, ?_⟩
    rcases s.processScheduler_message id request fresh with
      ⟨hkept, _⟩ | ⟨scheduler, demands, _, hs, _, _, _, hdrop⟩
    · rw [hkept] at h
      cases h
      rfl
    · rw [hdrop, Except.ok.injEq] at h
      have ht := congrArg (fun r => r.1.sessions) h
      exact ht.symm.trans (dropDemand_sessions hs demands)

theorem processNode_sessions {event : NodeEvent} {fresh : Fresh}
    (h : s.processNode event fresh = .ok (t, out)) :
    s.sessions.Admits (.node event fresh) ∧ t.sessions = s.sessions.apply (.node event fresh) := by
  cases event with
  | connect uuid name platform subworkers address connection =>
    simp only [processNode] at h
    cases hd : s.disconnected uuid with
    | some entry =>
      obtain ⟨id, key⟩ := entry
      simp only [hd, restoreNodeSession, bind_ok, except_pure, Except.ok.injEq, Prod.mk.injEq,
        index_ok, DelayQueue.reset_ok] at h
      obtain ⟨node, hn, _, ⟨hkey, rfl⟩, rfl, _⟩ := h
      simp only [Sessions.Admits, Sessions.apply, sessions, hd]
      refine ⟨⟨by simp [tally, hn], hkey⟩, ?_⟩
      rw [tally_write_same hn]
      · rfl
      · rfl
    | none =>
      simp only [hd] at h
      split at h
      · cases h
      · rename_i hvacant
        rw [not_or] at hvacant
        have htimer := Option.not_isSome_iff_eq_none.mp hvacant.2
        simp only [Except.ok.injEq, Prod.mk.injEq] at h
        obtain ⟨rfl, _⟩ := h
        simp only [Sessions.Admits, Sessions.apply, sessions, hd, tally_insert,
          DelayQueue.get_append htimer]
        refine ⟨⟨?_, htimer⟩, rfl⟩
        simp [tally, Option.not_isSome_iff_eq_none.mp hvacant.1]
  | disconnect id =>
    refine ⟨trivial, ?_⟩
    simp only [processNode] at h
    split at h
    · rename_i hnone
      simp only [Except.ok.injEq, Prod.mk.injEq] at h
      simp [Sessions.apply, sessions, tally, hnone, ← h.1]
    · rename_i node hn
      simp only [Except.ok.injEq, Prod.mk.injEq] at h
      obtain ⟨rfl, _⟩ := h
      have hid : tally s.workers Node.session id = some (node.uuid, node.expirationKey) := by
        simp [tally, hn, Node.session]
      simp only [Sessions.apply, sessions, hid]
      rw [tally_write_same hn]
      rfl
  | heartbeat id =>
    simp only [processNode] at h
    split at h
    · rename_i hnone
      simp only [Except.ok.injEq, Prod.mk.injEq] at h
      refine ⟨?_, congrArg sessions h.1.symm⟩
      simp [Sessions.Admits, sessions, tally, hnone]
    · rename_i node hn
      simp only [bind_ok, except_pure, Except.ok.injEq, Prod.mk.injEq, DelayQueue.reset_ok] at h
      obtain ⟨_, ⟨hkey, rfl⟩, rfl, _⟩ := h
      refine ⟨?_, rfl⟩
      intro uuid key hid
      simp only [sessions, tally, hn, Option.map_some, Option.some.injEq, Node.session,
        Prod.mk.injEq] at hid
      exact hid.2 ▸ hkey

theorem processNodeDisconnection_sessions {w : Id}
    (h : s.processNodeDisconnection checks w = .ok (t, out)) : t.sessions =
      match s.sessions.nodes w with
      | none => s.sessions
      | some (uuid, _) =>
        { s.sessions.forget uuid with nodes := Function.update s.sessions.nodes w none } := by
  have hnode : ∀ node, s.workers.get w = some node →
      s.sessions.nodes w = some (node.uuid, node.expirationKey) := by
    intro node hw
    simp [sessions, tally, hw, Node.session]
  have hnodes : tally (s.workers.remove w) Node.session =
      Function.update s.sessions.nodes w none := tally_remove ..
  cases processNodeDisconnection_ends h with
  | unknown hw state =>
    have hnone : s.sessions.nodes w = none := by simp [sessions, tally, hw]
    rw [hnone, state]
  | quiet node unassigned hw _ state =>
    rw [hnode node hw, state, sessions, hnodes]
    rfl
  | told node i scheduler demands hw _ hs state =>
    rw [hnode node hw, state, sessions, hnodes]
    dsimp only
    rw [tally_write_same hs]
    · rfl
    · rw [Scheduler.send_session]
      rfl

theorem processExpiration_sessions {key : Key}
    (h : s.processExpiration checks key = .ok (t, out)) :
    s.sessions.Admits (.expired key) ∧ t.sessions = s.sessions.apply (.expired key) := by
  unfold processExpiration at h
  cases hkey : s.expirations.get key with
  | none =>
    rw [hkey] at h
    cases h
  | some entry =>
    obtain ⟨id, serviceType⟩ := entry
    have htimer : s.sessions.timers key = some (id, serviceType) := hkey
    have hstop : ({ s with expirations := s.expirations.filter fun e => e.1 ≠ key } :
        State).sessions = s.sessions.stop key := by
      simp only [sessions, Sessions.stop, DelayQueue.get_filter]
    refine ⟨by simp [Sessions.Admits, htimer], ?_⟩
    simp only [hkey] at h
    cases serviceType with
    | node =>
      have hend := processNodeDisconnection_sessions h
      rw [hstop] at hend
      rw [hend]
      simp only [Sessions.apply, htimer]
      rfl
    | scheduler =>
      simp only [Sessions.apply, htimer]
      rw [← hstop]
      dsimp only at h
      split at h
      · simp only [Except.ok.injEq, Prod.mk.injEq] at h
        rw [← h.1]
      · simp only [Except.ok.injEq, Prod.mk.injEq] at h
        rw [← h.1]

theorem assignWorker_sessions {i w : Id} {a a' : Assigning} (h : assignWorker i a w = .ok a') :
    tally a'.workers Node.session = tally a.workers Node.session ∧
      a'.scheduler.session = a.scheduler.session := by
  obtain ⟨worker, hindex, _⟩ := bind_ok.mp h
  have hworker := index_ok.mp hindex
  rw [assignWorker_eq hworker, Except.ok.injEq] at h
  subst h
  refine ⟨?_, rfl⟩
  apply tally_write_same hworker
  rw [Node.send_session]
  rfl

theorem assignWorkers_sessions {entry : Id × List Id} {r r' : State × List Sent}
    (h : assignWorkers r entry = .ok r') : r'.1.sessions = r.1.sessions := by
  obtain ⟨scheduler, hindex, hrest⟩ := bind_ok.mp h
  obtain ⟨a, hloop, _⟩ := bind_ok.mp hrest
  have hs := index_ok.mp hindex
  rw [assignWorkers_eq hs hloop, Except.ok.injEq] at h
  subst h
  obtain ⟨hnodes, hsession⟩ := foldlM_invariant (I := fun _ a =>
    tally a.workers Node.session = tally r.1.workers Node.session ∧
      a.scheduler.session = scheduler.session)
    (fun w _ a a' ha h => by
      obtain ⟨h₁, h₂⟩ := assignWorker_sessions h
      exact ⟨h₁.trans ha.1, h₂.trans ha.2⟩) ⟨rfl, rfl⟩ hloop
  simp only [sessions, hnodes, Sessions.mk.injEq, true_and, and_true]
  apply tally_write_same hs
  rw [Scheduler.send_session, hsession]

theorem processQueue_sessions (h : s.processQueue checks = .ok (t, out)) :
    t.sessions = s.sessions := by
  simp only [processQueue, bind_ok] at h
  obtain ⟨m, _, hloop⟩ := h
  exact foldlM_invariant (I := fun _ r => r.1.sessions = s.sessions)
    (fun entry _ r r' hr h => (assignWorkers_sessions h).trans hr) rfl hloop

/-- Every turn does to the sessions what its event says. -/
theorem step_sessions {e : Event} (h : s.step checks e = .ok (t, out)) :
    s.sessions.Admits e ∧ t.sessions = s.sessions.apply e := by
  cases e with
  | node event fresh => exact processNode_sessions h
  | expired key => exact processExpiration_sessions h
  | scheduler event fresh => exact processScheduler_sessions h
  | processQueue =>
    refine ⟨trivial, ?_⟩
    simp only [step] at h
    split at h
    · have hkept := processQueue_sessions h
      exact hkept
    · cases h

end State
end GridServer.NodeManager
