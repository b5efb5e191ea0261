import GridServer.NodeManager.Sessions

namespace GridServer.NodeManager
open Library

namespace Sessions
variable {r : Sessions}

/-- Every live node has its timer, every timer its node or scheduler, and who may come back has a
live slot and a pending timer. -/
structure Sound (r : Sessions) : Prop where
  nodes : ∀ w uuid key, r.nodes w = some (uuid, key) → r.timers key = some (w, .node)
  timers : ∀ key w, r.timers key = some (w, .node) → ∃ uuid, r.nodes w = some (uuid, key)
  schedulers : ∀ key i, r.timers key = some (i, .scheduler) → (r.schedulers i).isSome
  entries : ∀ uuid id key, r.disconnected uuid = some (id, key) →
    r.nodes id = some (uuid, key) ∨
      (∃ address, r.schedulers id = some (uuid, address)) ∧ r.timers key = some (id, .scheduler)

/-- No timer of a scheduler that may come back fires, and nobody comes back as the other kind of
service. -/
def Timely (r : Sessions) : Event → Prop
  | .node (.connect uuid _ _ _ _ _) _ =>
    ∀ entry ∈ r.disconnected uuid, r.timers entry.2 ≠ some (entry.1, .scheduler)
  | .scheduler (.connect uuid _ _ _) _ =>
    ∀ entry ∈ r.disconnected uuid, r.timers entry.2 ≠ some (entry.1, .node)
  | .expired key =>
    ∀ entry ∈ r.timers key, entry.2 = .scheduler →
      ∀ session ∈ r.schedulers entry.1, r.disconnected session.1 ≠ some (entry.1, key)
  | _ => True

instance (r : Sessions) : ∀ e, Decidable (r.Timely e)
  | .node (.connect uuid _ _ _ _ _) _ => inferInstanceAs (Decidable (∀ entry ∈ r.disconnected uuid,
      r.timers entry.2 ≠ some (entry.1, ServiceType.scheduler)))
  | .node (.disconnect _) _ => .isTrue trivial
  | .node (.heartbeat _) _ => .isTrue trivial
  | .scheduler (.connect uuid _ _ _) _ => inferInstanceAs (Decidable (∀ entry ∈ r.disconnected uuid,
      r.timers entry.2 ≠ some (entry.1, ServiceType.node)))
  | .scheduler (.disconnect _) _ => .isTrue trivial
  | .scheduler (.message _ _) _ => .isTrue trivial
  | .expired key => inferInstanceAs (Decidable (∀ entry ∈ r.timers key,
      entry.2 = ServiceType.scheduler →
        ∀ session ∈ r.schedulers entry.1, r.disconnected session.1 ≠ some (entry.1, key)))
  | .processQueue => .isTrue trivial

theorem Sound.enrolNode (h : r.Sound) {w : Id} {key : Key} (hw : r.nodes w = none)
    (hkey : r.timers key = none) (uuid : Uuid) : Sound { r with
      nodes := Function.update r.nodes w (some (uuid, key))
      timers := Function.update r.timers key (some (w, .node)) } := by
  have hother : ∀ k entry, r.timers k = some entry →
      Function.update r.timers key (some (w, ServiceType.node)) k = some entry := by
    intro k entry hk
    rw [Function.update_of_ne]
    · exact hk
    · intro heq
      rw [heq, hkey] at hk
      cases hk
  refine ⟨?_, ?_, ?_, ?_⟩
  · intro w' uuid' key' hn
    dsimp only at hn
    by_cases hww : w' = w
    · subst hww
      rw [Function.update_self, Option.some.injEq, Prod.mk.injEq] at hn
      rw [← hn.2]
      exact Function.update_self ..
    · rw [Function.update_of_ne hww] at hn
      exact hother _ _ (h.nodes w' uuid' key' hn)
  · intro key' w' ht
    dsimp only at ht
    by_cases hkk : key' = key
    · subst hkk
      rw [Function.update_self, Option.some.injEq, Prod.mk.injEq] at ht
      rw [← ht.1]
      exact ⟨uuid, Function.update_self ..⟩
    · rw [Function.update_of_ne hkk] at ht
      obtain ⟨uuid', hn⟩ := h.timers key' w' ht
      have hww : w' ≠ w := by
        intro heq
        rw [heq, hw] at hn
        cases hn
      exact ⟨uuid', (Function.update_of_ne hww ..).trans hn⟩
  · intro key' i ht
    dsimp only at ht
    by_cases hkk : key' = key
    · subst hkk
      rw [Function.update_self] at ht
      cases ht
    · rw [Function.update_of_ne hkk] at ht
      exact h.schedulers key' i ht
  · intro uuid' id key' he
    cases h.entries uuid' id key' he with
    | inl hn =>
      have hww : id ≠ w := by
        intro heq
        rw [heq, hw] at hn
        cases hn
      exact .inl ((Function.update_of_ne hww ..).trans hn)
    | inr hs => exact .inr ⟨hs.1, hother _ _ hs.2⟩

theorem Sound.forget (h : r.Sound) (uuid : Uuid) : (r.forget uuid).Sound := by
  refine ⟨h.nodes, h.timers, h.schedulers, ?_⟩
  intro uuid' id key he
  simp only [Sessions.forget] at he
  by_cases hu : uuid' = uuid
  · subst hu
    rw [Function.update_self] at he
    cases he
  · rw [Function.update_of_ne hu] at he
    exact h.entries uuid' id key he

theorem Sound.suspendNode (h : r.Sound) {w : Id} {uuid : Uuid} {key : Key}
    (hw : r.nodes w = some (uuid, key)) :
    Sound { r with disconnected := Function.update r.disconnected uuid (some (w, key)) } := by
  refine ⟨h.nodes, h.timers, h.schedulers, ?_⟩
  intro uuid' id key' he
  dsimp only at he
  by_cases hu : uuid' = uuid
  · subst hu
    rw [Function.update_self, Option.some.injEq, Prod.mk.injEq] at he
    obtain ⟨rfl, rfl⟩ := he
    exact .inl hw
  · rw [Function.update_of_ne hu] at he
    exact h.entries uuid' id key' he

theorem Sound.expireNode (h : r.Sound) {w : Id} {key : Key} (hkey : r.timers key = some (w, .node))
    {uuid : Uuid} {key' : Key} (hw : r.nodes w = some (uuid, key')) :
    Sound { (r.stop key).forget uuid with nodes := Function.update r.nodes w none } := by
  obtain rfl : key' = key := by
    obtain ⟨_, hn⟩ := h.timers key w hkey
    rw [hw, Option.some.injEq, Prod.mk.injEq] at hn
    exact hn.2
  have hstop : ∀ k entry, r.timers k = some entry → entry ≠ (w, .node) →
      Function.update r.timers key' none k = some entry := by
    intro k entry hk hne
    rw [Function.update_of_ne]
    · exact hk
    · intro heq
      rw [heq, hkey, Option.some.injEq] at hk
      exact hne hk.symm
  refine ⟨?_, ?_, ?_, ?_⟩
  · intro w' uuid' k hn
    dsimp only at hn
    by_cases hww : w' = w
    · subst hww
      rw [Function.update_self] at hn
      cases hn
    · rw [Function.update_of_ne hww] at hn
      exact hstop _ _ (h.nodes w' uuid' k hn) (by simp [hww])
  · intro k w' ht
    simp only [Sessions.forget, stop] at ht
    by_cases hkk : k = key'
    · subst hkk
      rw [Function.update_self] at ht
      cases ht
    · rw [Function.update_of_ne hkk] at ht
      obtain ⟨uuid', hn⟩ := h.timers k w' ht
      have hww : w' ≠ w := by
        intro heq
        rw [heq, hw, Option.some.injEq, Prod.mk.injEq] at hn
        exact hkk hn.2.symm
      exact ⟨uuid', (Function.update_of_ne hww ..).trans hn⟩
  · intro k i ht
    simp only [Sessions.forget, stop] at ht
    by_cases hkk : k = key'
    · subst hkk
      rw [Function.update_self] at ht
      cases ht
    · rw [Function.update_of_ne hkk] at ht
      exact h.schedulers k i ht
  · intro uuid' id k he
    simp only [Sessions.forget, stop] at he
    by_cases hu : uuid' = uuid
    · subst hu
      rw [Function.update_self] at he
      cases he
    · rw [Function.update_of_ne hu] at he
      cases h.entries uuid' id k he with
      | inl hn =>
        have hww : id ≠ w := by
          intro heq
          rw [heq, hw, Option.some.injEq, Prod.mk.injEq] at hn
          exact hu hn.1.symm
        exact .inl ((Function.update_of_ne hww ..).trans hn)
      | inr hs => exact .inr ⟨hs.1, hstop _ _ hs.2 (by simp)⟩

/-- A scheduler's timer goes once its entry is gone. -/
theorem Sound.stopScheduler (h : r.Sound) {i : Id} {key : Key}
    (hkey : r.timers key = some (i, .scheduler))
    (hgone : ∀ uuid address, r.schedulers i = some (uuid, address) →
      r.disconnected uuid ≠ some (i, key)) :
    (r.stop key).Sound := by
  have hstop : ∀ k entry, r.timers k = some entry → entry ≠ (i, .scheduler) →
      Function.update r.timers key none k = some entry := by
    intro k entry hk hne
    rw [Function.update_of_ne]
    · exact hk
    · intro heq
      rw [heq, hkey, Option.some.injEq] at hk
      exact hne hk.symm
  refine ⟨?_, ?_, ?_, ?_⟩
  · intro w uuid k hn
    exact hstop _ _ (h.nodes w uuid k hn) (by simp)
  · intro k w ht
    simp only [stop] at ht
    by_cases hkk : k = key
    · subst hkk
      rw [Function.update_self] at ht
      cases ht
    · rw [Function.update_of_ne hkk] at ht
      exact h.timers k w ht
  · intro k j ht
    simp only [stop] at ht
    by_cases hkk : k = key
    · subst hkk
      rw [Function.update_self] at ht
      cases ht
    · rw [Function.update_of_ne hkk] at ht
      exact h.schedulers k j ht
  · intro uuid id k he
    cases h.entries uuid id k he with
    | inl hn => exact .inl hn
    | inr hs =>
      have hkk : k ≠ key := by
        intro heq
        subst heq
        rw [hkey, Option.some.injEq, Prod.mk.injEq] at hs
        obtain ⟨⟨address, huuid⟩, rfl, _⟩ := hs
        exact hgone uuid address huuid he
      exact .inr ⟨hs.1, (Function.update_of_ne hkk ..).trans hs.2⟩

theorem Sound.enrolScheduler (h : r.Sound) {i : Id} (hi : r.schedulers i = none)
    (session : Uuid × SocketAddr) :
    Sound { r with schedulers := Function.update r.schedulers i (some session) } := by
  refine ⟨h.nodes, h.timers, ?_, ?_⟩
  · intro key j ht
    dsimp only
    by_cases hji : j = i
    · subst hji
      simp
    · rw [Function.update_of_ne hji]
      exact h.schedulers key j ht
  · intro uuid' id key he
    cases h.entries uuid' id key he with
    | inl hn => exact .inl hn
    | inr hs =>
      have hne : id ≠ i := by
        intro heq
        obtain ⟨⟨address, hslot⟩, _⟩ := hs
        rw [heq, hi] at hslot
        cases hslot
      obtain ⟨⟨address, hslot⟩, hkey⟩ := hs
      exact .inr ⟨⟨address, (Function.update_of_ne hne ..).trans hslot⟩, hkey⟩

theorem Sound.suspendScheduler (h : r.Sound) {i : Id} {uuid : Uuid} {address : SocketAddr}
    (hi : r.schedulers i = some (uuid, address)) {key : Key} (hkey : r.timers key = none) :
    Sound { r with
      timers := Function.update r.timers key (some (i, .scheduler))
      disconnected := Function.update r.disconnected uuid (some (i, key)) } := by
  have hother : ∀ k entry, r.timers k = some entry →
      Function.update r.timers key (some (i, ServiceType.scheduler)) k = some entry := by
    intro k entry hk
    rw [Function.update_of_ne]
    · exact hk
    · intro heq
      rw [heq, hkey] at hk
      cases hk
  refine ⟨?_, ?_, ?_, ?_⟩
  · intro w uuid' k hn
    exact hother _ _ (h.nodes w uuid' k hn)
  · intro k w ht
    dsimp only at ht
    by_cases hkk : k = key
    · subst hkk
      rw [Function.update_self] at ht
      cases ht
    · rw [Function.update_of_ne hkk] at ht
      exact h.timers k w ht
  · intro k j ht
    dsimp only at ht
    by_cases hkk : k = key
    · subst hkk
      rw [Function.update_self, Option.some.injEq, Prod.mk.injEq] at ht
      rw [← ht.1, hi]
      rfl
    · rw [Function.update_of_ne hkk] at ht
      exact h.schedulers k j ht
  · intro uuid' id k he
    dsimp only at he
    by_cases hu : uuid' = uuid
    · subst hu
      rw [Function.update_self, Option.some.injEq, Prod.mk.injEq] at he
      obtain ⟨rfl, rfl⟩ := he
      exact .inr ⟨⟨address, hi⟩, Function.update_self ..⟩
    · rw [Function.update_of_ne hu] at he
      cases h.entries uuid' id k he with
      | inl hn => exact .inl hn
      | inr hs => exact .inr ⟨hs.1, hother _ _ hs.2⟩

/-- A timely event keeps the sessions sound. -/
theorem Sound.apply (h : r.Sound) {e : Event} (admits : r.Admits e) (timely : r.Timely e) :
    (r.apply e).Sound := by
  cases e with
  | node event fresh =>
    cases event with
    | connect uuid name platform subworkers address connection =>
      simp only [Sessions.apply]
      cases hd : r.disconnected uuid with
      | some entry => exact h.forget uuid
      | none =>
        simp only [Admits, hd] at admits
        exact h.enrolNode admits.1 admits.2 uuid
    | disconnect id =>
      simp only [Sessions.apply]
      cases hn : r.nodes id with
      | none => exact h
      | some session => exact h.suspendNode hn
    | heartbeat id => exact h
  | expired key =>
    simp only [Sessions.apply]
    cases hkey : r.timers key with
    | none => exact h
    | some entry =>
      obtain ⟨id, serviceType⟩ := entry
      cases serviceType with
      | node =>
        obtain ⟨uuid, hn⟩ := h.timers key id hkey
        simp only [hn]
        exact h.expireNode hkey hn
      | scheduler =>
        apply h.stopScheduler hkey
        intro uuid address hs
        exact timely (id, .scheduler) hkey rfl (uuid, address) hs
  | scheduler event fresh =>
    cases event with
    | connect uuid name address connection =>
      simp only [Sessions.apply]
      cases hd : r.disconnected uuid with
      | none =>
        simp only [Admits, hd] at admits
        exact h.enrolScheduler admits (uuid, address)
      | some entry =>
        obtain ⟨id, key⟩ := entry
        cases h.entries uuid id key hd with
        | inl hn => exact absurd (h.nodes id uuid key hn) (timely (id, key) hd)
        | inr hs =>
          apply (h.forget uuid).stopScheduler hs.2
          intro uuid' address' hslot
          obtain ⟨⟨address, hid⟩, _⟩ := hs
          have heq : uuid' = uuid := congrArg Prod.fst (Option.some.inj (hslot.symm.trans hid))
          simp [Sessions.forget, heq]
    | disconnect id =>
      simp only [Sessions.apply]
      cases hs : r.schedulers id with
      | none => exact h
      | some session => exact h.suspendScheduler hs (admits (by rw [hs]; rfl))
    | message id request => exact h
  | processQueue => exact h

theorem sound_new : State.new.sessions.Sound := by
  constructor
  all_goals simp [State.new, State.sessions, tally]

end Sessions

namespace State
variable {checks : Bool} {s t u : State} {es : List Event} {out out' : List Sent}

theorem sound_of_run
    (run : Run (State.step checks) (fun s e => s.sessions.Timely e) .new es out t) :
    t.sessions.Sound := by
  apply run.preserves (I := fun t => t.sessions.Sound)
  · exact Sessions.sound_new
  · intro t e u out sound timely taken
    obtain ⟨admits, happly⟩ := step_sessions taken
    rw [happly]
    exact sound.apply admits timely

theorem spares_index {V : Type} {slab : Slab V} {key : Id} (h : (slab.get key).isSome) :
    Spares .indexOutOfBounds (index slab key) := by
  obtain ⟨value, hvalue⟩ := Option.isSome_iff_exists.mp h
  rw [index_ok.mpr hvalue]
  exact spares_ok _ _

theorem spares_reset {T : Type} {q : DelayQueue T} {key : Key} (h : (q.get key).isSome) :
    Spares .indexOutOfBounds (q.reset key) := by
  rw [DelayQueue.reset_ok.mpr ⟨h, rfl⟩]
  exact spares_ok _ _

theorem spares_remove {T : Type} {q : DelayQueue T} {key : Key} (h : (q.get key).isSome) :
    Spares .indexOutOfBounds (q.remove key) := by
  rw [DelayQueue.remove_ok.mpr ⟨h, rfl⟩]
  exact spares_ok _ _

theorem processNodeDisconnection_spares_index (s : State) (w : Id) :
    Spares .indexOutOfBounds (s.processNodeDisconnection checks w) := by
  unfold processNodeDisconnection
  split
  · exact spares_ok _ _
  · dsimp only
    split
    · exact spares_ok _ _
    · split
      · exact spares_ok _ _
      · split
        · split
          · apply Spares.bind
            · unfold subBits
              split
              · simp
              · exact spares_ok _ _
            · exact fun _ _ => spares_ok _ _
          · exact spares_ok _ _
        · exact spares_ok _ _

/-- With sound sessions, whoever comes back finds the slot and the timer, and so does a
heartbeat. -/
theorem step_spares_index (sound : s.sessions.Sound) {e : Event} (timely : s.sessions.Timely e)
    (he : e ≠ .processQueue) : Spares .indexOutOfBounds (s.step checks e) := by
  have hnode : ∀ w uuid key, s.sessions.nodes w = some (uuid, key) →
      (s.workers.get w).isSome ∧ (s.expirations.get key).isSome := by
    intro w uuid key hn
    obtain ⟨node, hw, _⟩ := Option.map_eq_some_iff.mp hn
    have htimer : s.expirations.get key = some (w, .node) := sound.nodes w uuid key hn
    exact ⟨by rw [hw]; rfl, by rw [htimer]; rfl⟩
  cases e with
  | node event fresh =>
    cases event with
    | connect uuid name platform subworkers address connection =>
      simp only [step, processNode]
      cases hd : s.disconnected uuid with
      | none =>
        dsimp only
        split
        · simp
        · exact spares_ok _ _
      | some entry =>
        obtain ⟨id, key⟩ := entry
        have hlive : (s.workers.get id).isSome ∧ (s.expirations.get key).isSome := by
          cases sound.entries uuid id key hd with
          | inl hn => exact hnode id uuid key hn
          | inr hs => exact absurd hs.2 (timely (id, key) hd)
        exact (spares_index hlive.1).bind fun _ _ => (spares_reset hlive.2).bind fun _ _ =>
          spares_ok _ _
    | disconnect id =>
      simp only [step, processNode]
      split
      · exact spares_ok _ _
      · exact spares_ok _ _
    | heartbeat id =>
      simp only [step, processNode]
      split
      · exact spares_ok _ _
      · rename_i node hw
        have hn : s.sessions.nodes id = some (node.uuid, node.expirationKey) := by
          simp [sessions, tally, hw, Node.session]
        exact (spares_reset (hnode id _ _ hn).2).bind fun _ _ => spares_ok _ _
  | expired key =>
    simp only [step, processExpiration]
    split
    · simp
    · split
      · exact processNodeDisconnection_spares_index _ _
      · split
        · exact spares_ok _ _
        · exact spares_ok _ _
  | scheduler event fresh =>
    cases event with
    | connect uuid name address connection =>
      simp only [step, processScheduler]
      cases hd : s.disconnected uuid with
      | none =>
        dsimp only
        split
        · simp
        · exact spares_ok _ _
      | some entry =>
        obtain ⟨id, key⟩ := entry
        have hlive : (s.schedulers.get id).isSome ∧ (s.expirations.get key).isSome := by
          cases sound.entries uuid id key hd with
          | inl hn => exact absurd (sound.nodes id uuid key hn) (timely (id, key) hd)
          | inr hs =>
            obtain ⟨⟨address, hslot⟩, hkey⟩ := hs
            obtain ⟨scheduler, hi, _⟩ := Option.map_eq_some_iff.mp hslot
            have htimer : s.expirations.get key = some (id, .scheduler) := hkey
            exact ⟨by rw [hi]; rfl, by rw [htimer]; rfl⟩
        exact (spares_index hlive.1).bind fun _ _ => (spares_remove hlive.2).bind fun _ _ =>
          spares_ok _ _
    | disconnect id =>
      simp only [step, processScheduler]
      split
      · exact spares_ok _ _
      · split
        · simp
        · exact spares_ok _ _
    | message id request =>
      rw [step]
      rcases s.processScheduler_message id request fresh with
        ⟨hkept, _⟩ | ⟨_, _, _, _, _, _, _, hdrop⟩
      · rw [hkept]
        exact spares_ok _ _
      · rw [hdrop]
        exact spares_ok _ _
  | processQueue => exact absurd rfl he

/-- Whoever may come back has a live slot of its kind with its uuid, and a pending timer. -/
def Restorable (s : State) : Prop :=
  ∀ uuid id key, s.disconnected uuid = some (id, key) →
    (∃ node, s.workers.get id = some node ∧ node.uuid = uuid ∧
      s.expirations.get key = some (id, .node)) ∨
    (∃ scheduler, s.schedulers.get id = some scheduler ∧ scheduler.uuid = uuid ∧
      s.expirations.get key = some (id, .scheduler))

theorem restorable_of_sound (sound : s.sessions.Sound) : s.Restorable := by
  intro uuid id key hd
  cases sound.entries uuid id key hd with
  | inl hn =>
    obtain ⟨node, hw, hsession⟩ := Option.map_eq_some_iff.mp hn
    exact .inl ⟨node, hw, congrArg Prod.fst hsession, sound.nodes id uuid key hn⟩
  | inr hs =>
    obtain ⟨⟨address, hslot⟩, hkey⟩ := hs
    obtain ⟨scheduler, hi, hsession⟩ := Option.map_eq_some_iff.mp hslot
    exact .inr ⟨scheduler, hi, congrArg Prod.fst hsession, hkey⟩

/-- As long as no timer of a scheduler that may come back fires and no uuid belongs to both a node
and a scheduler, everybody who may come back can, and no event but a scheduling turn indexes what
is not there. -/
theorem run_restorable
    (run : Run (State.step checks) (fun s e => s.sessions.Timely e) .new es out t) :
    t.Restorable ∧ ∀ e, t.sessions.Timely e → e ≠ .processQueue →
      Spares .indexOutOfBounds (t.step checks e) := by
  have sound := sound_of_run run
  exact ⟨restorable_of_sound sound, fun e timely he => step_spares_index sound timely he⟩

/-- A scheduler and a node lose their connections, and the scheduler comes back in time. -/
def returns : List Event :=
  [.scheduler (.connect 1 none ⟨[], 0⟩ 0) ⟨0, 0⟩,
    .node (.connect 2 none linux 1 ⟨[], 0⟩ 1) ⟨0, 0⟩,
    .scheduler (.disconnect 0) ⟨0, 1⟩,
    .node (.disconnect 0) ⟨0, 0⟩,
    .scheduler (.connect 1 none ⟨[], 0⟩ 2) ⟨0, 0⟩]

theorem run_restorable_returns : ∃ t : State, t.Restorable ∧ t.disconnected 2 = some (0, 0) := by
  obtain ⟨t, out, run, h⟩ := exists_run (State.step true) (fun s e => s.sessions.Timely e) .new
    returns (fun r => r.1.disconnected 2 = some (0, 0)) (by decide)
  exact ⟨t, (run_restorable run).1, by simpa using h⟩

/-- A scheduler's timer fires. -/
def overdue : List Event :=
  [.scheduler (.connect 1 none ⟨[], 0⟩ 0) ⟨0, 0⟩,
    .scheduler (.disconnect 0) ⟨0, 0⟩,
    .expired 0]

/-- The entry outlives its timer, and the scheduler that comes back takes the manager down. -/
theorem restorable_fails : ¬ ∀ es out t, Run (State.step true) (fun _ _ => True) .new es out t →
    t.Restorable ∧ ∀ e, e ≠ .processQueue → Spares .indexOutOfBounds (t.step true e) := by
  intro h
  obtain ⟨t, out, run, hpanics⟩ := exists_run (State.step true) (fun _ _ => True) .new overdue
    (fun r => ¬ Spares .indexOutOfBounds
      (r.1.step true (.scheduler (.connect 1 none ⟨[], 0⟩ 1) ⟨0, 0⟩))) (by decide)
  rw [decide_eq_true_eq] at hpanics
  exact hpanics ((h overdue out t run).2 _ (by simp))

section Schedulers
variable {i : Id} {key : Key}

/-- What the end of a scheduler's session comes to: the slot, the demand and the entry are gone, its
workers are released and told so, and nothing else has changed for a node or another scheduler. -/
structure SessionEnded (s : State) (i : Id) (t : State) (out : List Sent) : Prop where
  slot : t.schedulers.get i = none
  demand : t.workersDemandsQueue.get i = none
  forgotten : ∀ scheduler, s.schedulers.get i = some scheduler →
    t.disconnected scheduler.uuid = none
  released : ∀ w worker, s.workers.get w = some worker → worker.assigned = some i →
    t.workers.get w = some ({ worker with assigned := none }.send .unassignClient).1 ∧
      w ∈ t.unassignedWorkers ∧
      ∀ m ∈ ({ worker with assigned := none }.send .unassignClient).2, m ∈ out
  kept : ∀ w, (∀ worker, s.workers.get w = some worker → worker.assigned ≠ some i) →
    t.workers.get w = s.workers.get w ∧ (w ∈ t.unassignedWorkers ↔ w ∈ s.unassignedWorkers)
  others : ∀ j, j ≠ i → t.schedulers.get j = s.schedulers.get j ∧
    t.workersDemandsQueue.get j = s.workersDemandsQueue.get j

/-- The scheduler of every pending timer has its slot. -/
theorem timed_of_run (run : Run (State.step checks) (fun _ _ => True) .new es out t)
    (h : t.expirations.get key = some (i, .scheduler)) : (t.schedulers.get i).isSome := by
  have htimed : t.sessions.Timed := by
    apply run.preserves (I := fun t => t.sessions.Timed)
    · simp [Sessions.Timed, State.new, sessions]
    · intro t e u out' timed _ taken
      rw [(step_sessions taken).2]
      exact timed.apply e
  have hslot := htimed key i h
  exact Option.isSome_map.symm.trans hslot

/-- All that a scheduler's timer does is to cancel the connection of the node whose slot has the
same number. -/
theorem processExpiration_scheduler (h : s.expirations.get key = some (i, .scheduler)) :
    s.processExpiration checks key = .ok
      ({ s with expirations := s.expirations.filter fun e => e.1 ≠ key },
        ((s.workers.get i).map fun worker => Sent.cancelled worker.cancellationToken).toList) := by
  simp only [processExpiration, h]
  cases s.workers.get i with
  | none => rfl
  | some worker => rfl

/-- The timer of a disconnected scheduler never ends its session. -/
theorem run_session_stays (run : Run (State.step checks) (fun _ _ => True) .new es out t)
    (h : t.expirations.get key = some (i, .scheduler))
    (taken : t.step checks (.expired key) = .ok (u, out')) : ¬ SessionEnded t i u out' := by
  intro ended
  have hslot := timed_of_run run h
  simp only [step] at taken
  rw [processExpiration_scheduler h, Except.ok.injEq, Prod.mk.injEq] at taken
  have hgone := ended.slot
  rw [← taken.1] at hgone
  rw [hgone] at hslot
  cases hslot

theorem run_session_stays_overdue : ∃ t u : State, ∃ out,
    t.step true (.expired 0) = .ok (u, out) ∧ ¬ SessionEnded t 0 u out := by
  obtain ⟨t, out, run, h⟩ := exists_run (State.step true) (fun _ _ => True) .new overdue.dropLast
    (fun r => r.1.expirations.get 0 = some (0, .scheduler)) (by decide)
  rw [decide_eq_true_eq] at h
  have taken : t.step true (.expired 0) = .ok _ := processExpiration_scheduler h
  exact ⟨t, _, _, taken, run_session_stays run h taken⟩

/-- A disconnected scheduler keeps its slot, its demand and its worker past its timeout. -/
theorem session_stays : ¬ ∀ es out t u key i out',
    Run (State.step true) (fun _ _ => True) .new es out t →
      t.expirations.get key = some (i, .scheduler) →
        t.step true (.expired key) = .ok (u, out') → SessionEnded t i u out' := by
  intro h
  obtain ⟨t, out, run, hpending⟩ := exists_run (State.step true) (fun _ _ => True) .new
    (serving ++ [.scheduler (.disconnect 0) ⟨0, 1⟩])
    (fun r => r.1.expirations.get 1 = some (0, .scheduler) ∧
      (r.1.step true (.expired 1)).toOption.any fun r => (r.1.schedulers.get 0).isSome)
    (by decide)
  rw [decide_eq_true_eq] at hpending
  cases taken : t.step true (.expired 1) with
  | error fault => simp [taken, Except.toOption] at hpending
  | ok r =>
    have hgone := (h _ out t r.1 1 0 r.2 run hpending.1 taken).slot
    simp [taken, Except.toOption, hgone] at hpending

theorem releaseWorkers_frame (s : State) (ws : List Id) :
    (s.releaseWorkers ws).1.schedulers = s.schedulers ∧
      (s.releaseWorkers ws).1.workersDemandsQueue = s.workersDemandsQueue := by
  induction ws generalizing s with
  | nil => exact ⟨rfl, rfl⟩
  | cons w ws ih =>
    rw [releaseWorkers_cons]
    obtain ⟨hschedulers, hdemands⟩ := ih (s.releaseWorker w).1
    dsimp only
    rw [hschedulers, hdemands]
    unfold releaseWorker
    split
    · exact ⟨rfl, rfl⟩
    · exact ⟨rfl, rfl⟩

/-- Exactly these workers are released, each with a message. -/
theorem releaseWorkers_get {ws : List Id} (once : ws.Nodup)
    (live : ∀ w ∈ ws, (s.workers.get w).isSome) :
    (∀ w ∈ ws, ∀ worker, s.workers.get w = some worker →
      (s.releaseWorkers ws).1.workers.get w =
          some ({ worker with assigned := none }.send .unassignClient).1 ∧
        w ∈ (s.releaseWorkers ws).1.unassignedWorkers ∧
        ∀ m ∈ ({ worker with assigned := none }.send .unassignClient).2,
          m ∈ (s.releaseWorkers ws).2) ∧
    ∀ w, w ∉ ws → (s.releaseWorkers ws).1.workers.get w = s.workers.get w ∧
      (w ∈ (s.releaseWorkers ws).1.unassignedWorkers ↔ w ∈ s.unassignedWorkers) := by
  induction ws generalizing s with
  | nil => simp [releaseWorkers]
  | cons w ws ih =>
    rw [List.nodup_cons] at once
    obtain ⟨worker, hw⟩ := Option.isSome_iff_exists.mp (live w List.mem_cons_self)
    obtain ⟨hget, hunassigned, hout⟩ := releaseWorker_get hw
    have hother : ∀ k, k ≠ w → (s.releaseWorker w).1.workers.get k = s.workers.get k :=
      fun k hk => by rw [hget, Function.update_of_ne hk]
    obtain ⟨hin, hnot⟩ := ih (s := (s.releaseWorker w).1) once.2 (by
      intro k hk
      rw [hother k (fun heq => once.1 (heq ▸ hk))]
      exact live k (List.mem_cons_of_mem _ hk))
    rw [releaseWorkers_cons]
    constructor
    · intro k hk worker' hk'
      by_cases hkw : k = w
      · subst hkw
        rw [hw, Option.some.injEq] at hk'
        subst hk'
        obtain ⟨hsame, hmem⟩ := hnot k once.1
        refine ⟨?_, ?_, ?_⟩
        · rw [hsame, hget, Function.update_self]
        · rw [hmem, hunassigned]
          exact LinkedVecSet.mem_insert.mpr (.inl rfl)
        · intro m hm
          exact List.mem_append_left _ (hout ▸ hm)
      · have hk := (List.mem_cons.mp hk).resolve_left hkw
        obtain ⟨h₁, h₂, h₃⟩ := hin k hk worker' ((hother k hkw).trans hk')
        exact ⟨h₁, h₂, fun m hm => List.mem_append_right _ (h₃ m hm)⟩
    · intro k hk
      rw [List.mem_cons, not_or] at hk
      obtain ⟨hsame, hmem⟩ := hnot k hk.2
      refine ⟨hsame.trans (hother k hk.1), hmem.trans ?_⟩
      rw [hunassigned, LinkedVecSet.mem_insert]
      simp [hk.1]

/-- `process_scheduler_disconnection`, which nothing calls, would end the session. -/
theorem processSchedulerDisconnection_ends (c : s.roster.Consistent [] []) {scheduler : Scheduler}
    (hs : s.schedulers.get i = some scheduler) :
    SessionEnded s i (s.processSchedulerDisconnection i).1
      (s.processSchedulerDisconnection i).2 := by
  have hassigned : ∀ w, w ∈ scheduler.assignedWorkers ↔
      ∃ worker, s.workers.get w = some worker ∧ worker.assigned = some i :=
    (accounted_of_consistent c).assigned i scheduler hs
  have hfree : ∀ w, (∀ worker, s.workers.get w = some worker → worker.assigned ≠ some i) →
      w ∉ scheduler.assignedWorkers := by
    intro w hw hmem
    obtain ⟨worker, hworker, ha⟩ := (hassigned w).mp hmem
    exact hw worker hworker ha
  have hforgotten : ∀ scheduler', s.schedulers.get i = some scheduler' →
      forget s.disconnected scheduler.uuid scheduler'.uuid = none := by
    intro scheduler' hs'
    rw [hs, Option.some.injEq] at hs'
    rw [← hs']
    exact Function.update_self ..
  have hslots : ∀ j, j ≠ i → (s.schedulers.remove i).get j = s.schedulers.get j := fun j hj => by
    rw [VecMap.get_remove, Function.update_of_ne hj]
  simp only [processSchedulerDisconnection, hs]
  cases hd : s.workersDemandsQueue.get i with
  | none =>
    have hempty : ∀ w, w ∉ scheduler.assignedWorkers := by
      intro w hw
      have hdemand := (accounted_of_consistent c).demanded i scheduler w hs hw
      rw [hd] at hdemand
      cases hdemand
    refine ⟨?_, hd, hforgotten, ?_, ?_, ?_⟩
    · simp [VecMap.get_remove]
    · exact fun w worker hw ha => absurd ((hassigned w).mpr ⟨worker, hw, ha⟩) (hempty w)
    · exact fun w _ => ⟨rfl, Iff.rfl⟩
    · exact fun j hj => ⟨hslots j hj, rfl⟩
  | some demand =>
    obtain ⟨hin, hnot⟩ := releaseWorkers_get (s := { s with
      schedulers := s.schedulers.remove i
      workersDemandsQueue := s.workersDemandsQueue.remove i }) scheduler.assignedWorkers.distinct
      (fun w hw => by
        obtain ⟨worker, hworker, _⟩ := (hassigned w).mp (LinkedVecSet.mem_keys.mp hw)
        exact Option.isSome_iff_exists.mpr ⟨worker, hworker⟩)
    obtain ⟨hschedulers, hdemands⟩ := releaseWorkers_frame { s with
      schedulers := s.schedulers.remove i
      workersDemandsQueue := s.workersDemandsQueue.remove i } scheduler.assignedWorkers.keys
    simp only [Option.isSome_some, ↓reduceIte]
    refine ⟨?_, ?_, ?_, ?_, ?_, ?_⟩
    · dsimp only
      rw [hschedulers]
      simp [VecMap.get_remove]
    · dsimp only
      rw [hdemands]
      simp
    · intro scheduler' hs'
      rw [hs, Option.some.injEq] at hs'
      rw [← hs']
      exact Function.update_self ..
    · intro w worker hw ha
      have hmem : w ∈ scheduler.assignedWorkers := (hassigned w).mpr ⟨worker, hw, ha⟩
      obtain ⟨h₁, h₂, h₃⟩ := hin w (LinkedVecSet.mem_keys.mpr hmem) worker hw
      exact ⟨h₁, h₂, fun m hm => List.mem_append_left _ (h₃ m hm)⟩
    · intro w hw
      exact hnot w (fun hmem => hfree w hw (LinkedVecSet.mem_keys.mp hmem))
    · intro j hj
      dsimp only
      rw [hschedulers, hdemands, hslots j hj]
      simp [Function.update_of_ne hj]

end Schedulers

end State
end GridServer.NodeManager
