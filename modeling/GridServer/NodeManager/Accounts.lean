import GridServer.NodeManager.Assignment

namespace GridServer.NodeManager.State
open Library

variable {checks : Bool} {s t : State} {es : List Event} {out : List Sent}

/-- What the node manager keeps of its workers agrees wherever it keeps it. -/
structure Accounted (s : State) : Prop where
  unassigned : ∀ w, w ∈ s.unassignedWorkers ↔
    ∃ worker, s.workers.get w = some worker ∧ worker.assigned = none
  assigned : ∀ i scheduler, s.schedulers.get i = some scheduler →
    ∀ w, w ∈ scheduler.assignedWorkers ↔
      ∃ worker, s.workers.get w = some worker ∧ worker.assigned = some i
  demanded : ∀ i scheduler w, s.schedulers.get i = some scheduler →
    w ∈ scheduler.assignedWorkers → (s.workersDemandsQueue.get i).isSome
  provided : ∀ i demand, s.workersDemandsQueue.get i = some demand →
    ∃ scheduler, s.schedulers.get i = some scheduler ∧
      demand.providedWorkers = scheduler.assignedWorkers.len
  required : ∀ i demand n, s.workersDemandsQueue.get i = some demand →
    demand.requiredWorkers = some n → demand.providedWorkers ≤ n
  supported : ∀ i demand w worker, s.workersDemandsQueue.get i = some demand →
    s.workers.get w = some worker → worker.assigned = some i →
      worker.platform ∈ demand.supportedPlatforms

theorem roster_duty {w : Id} {assigned : Option Id} : (∃ p, s.roster.duty w = some (p, assigned)) ↔
    ∃ worker, s.workers.get w = some worker ∧ worker.assigned = assigned := by
  constructor
  · intro ⟨p, hp⟩
    obtain ⟨worker, hw, hduty⟩ := Option.map_eq_some_iff.mp hp
    exact ⟨worker, hw, congrArg Prod.snd hduty⟩
  · intro ⟨worker, hw, ha⟩
    exact ⟨worker.platform, by simp [roster, tally, hw, Node.duty, ha]⟩

theorem roster_assigned {i : Id} {ws : LinkedVecSet} : s.roster.assigned i = some ws ↔
    ∃ scheduler, s.schedulers.get i = some scheduler ∧ scheduler.assignedWorkers = ws :=
  Option.map_eq_some_iff

theorem accounted_of_consistent (c : s.roster.Consistent [] []) : s.Accounted := by
  have hassigned : ∀ i scheduler, s.schedulers.get i = some scheduler →
      s.roster.assigned i = some scheduler.assignedWorkers := fun i scheduler hs =>
    roster_assigned.mpr ⟨scheduler, hs, rfl⟩
  have hmem : ∀ i scheduler, s.schedulers.get i = some scheduler →
      ∀ w, w ∈ scheduler.assignedWorkers ↔
        ∃ worker, s.workers.get w = some worker ∧ worker.assigned = some i := by
    intro i scheduler hs w
    rw [c.assigned i _ (hassigned i scheduler hs), ← roster_duty]
    simp
  refine ⟨?_, hmem, ?_, ?_, c.required, ?_⟩
  · intro w
    rw [← roster_duty, show s.unassignedWorkers = s.roster.unassigned from rfl, c.unassigned]
    simp
  · intro i scheduler w hs hw
    exact c.demanded i _ w (hassigned i scheduler hs) hw
  · intro i demand hd
    obtain ⟨ws, hws, hprovided⟩ := c.provided i demand hd
    obtain ⟨scheduler, hs, rfl⟩ := roster_assigned.mp hws
    exact ⟨scheduler, hs, by simpa using hprovided⟩
  · intro i demand w worker hd hw ha
    have hduty : s.roster.duty w = some (worker.platform, some i) := by
      simp [roster, tally, hw, Node.duty, ha]
    obtain ⟨ws, hws, _⟩ := c.provided i demand hd
    obtain ⟨scheduler, hs, rfl⟩ := roster_assigned.mp hws
    exact c.supported i demand _ w _ hd hws ((hmem i scheduler hs w).mpr ⟨worker, hw, ha⟩) hduty

/-- No worker serves two schedulers. -/
theorem Accounted.exclusive (a : s.Accounted) {i j w : Id} {scheduler scheduler' : Scheduler}
    (hi : s.schedulers.get i = some scheduler) (hj : s.schedulers.get j = some scheduler')
    (hw : w ∈ scheduler.assignedWorkers) (hw' : w ∈ scheduler'.assignedWorkers) : i = j := by
  obtain ⟨worker, hworker, ha⟩ := (a.assigned i scheduler hi w).mp hw
  obtain ⟨worker', hworker', ha'⟩ := (a.assigned j scheduler' hj w).mp hw'
  rw [hworker, Option.some.injEq] at hworker'
  rw [← hworker', ha, Option.some.injEq] at ha'
  exact ha'

theorem step_consistent (c : s.roster.Consistent [] []) (fits : s.Fits checks) {e : Event}
    (h : s.step checks e = .ok (t, out)) : t.roster.Consistent [] [] := by
  cases e with
  | node event fresh => exact processNode_consistent c h
  | expired key => exact processExpiration_consistent c h
  | scheduler event fresh => exact processScheduler_consistent c h
  | processQueue =>
    simp only [step] at h
    split at h
    · cases processQueue_consistent (s := { s with needProcessQueue := false }) c fits with
      | inl hfull =>
        rw [hfull] at h
        cases h
      | inr hr =>
        obtain ⟨r, hr, hc⟩ := hr
        rw [hr, Except.ok.injEq] at h
        rw [h] at hc
        exact hc
    · cases h

theorem consistent_of_run
    (run : Run (State.step checks) (fun s _ => s.Fits checks) .new es out t) :
    t.roster.Consistent [] [] := by
  apply run.preserves (I := fun t => t.roster.Consistent [] [])
  · have hnew : State.new.roster = .empty := by
      simp only [roster, State.new, Roster.empty, Roster.mk.injEq]
      exact ⟨funext fun k => by simp [tally], funext fun k => by simp [tally], rfl, trivial⟩
    rw [hnew]
    exact Roster.consistent_empty
  · intro t e u out c fits taken
    exact step_consistent c fits taken

/-- `process_queue` comes to an end, unless it counts too many workers. -/
theorem processQueue_spares (c : s.roster.Consistent [] []) (fits : s.Fits checks) {fault : Fault}
    (counts : fault ≠ .addOverflow 32) (ready : fault ≠ .notReady) :
    Spares fault (s.step checks .processQueue) := by
  simp only [step]
  split
  · cases processQueue_consistent (s := { s with needProcessQueue := false }) c fits with
    | inl hfull =>
      rw [hfull]
      exact spares_error.mpr (Ne.symm counts)
    | inr hr =>
      obtain ⟨r, hr, _⟩ := hr
      rw [hr]
      exact spares_ok _ _
  · exact spares_error.mpr (Ne.symm ready)

/-- The counter of a demand is only lowered for a worker that it counts. -/
theorem step_spares_underflow (c : s.roster.Consistent [] []) (fits : s.Fits checks) (e : Event) :
    Spares (.subOverflow 32) (s.step checks e) := by
  have hindex : ∀ {V : Type} (slab : Slab V) key, Spares (.subOverflow 32) (index slab key) := by
    intro V slab key
    unfold index
    split
    · exact spares_ok _ _
    · simp
  have hreset : ∀ (q : DelayQueue (Id × ServiceType)) key,
      Spares (.subOverflow 32) (q.reset key) := by
    intro q key
    unfold DelayQueue.reset
    split
    · exact spares_ok _ _
    · simp
  have hremove : ∀ (q : DelayQueue (Id × ServiceType)) key,
      Spares (.subOverflow 32) (q.remove key) := by
    intro q key
    unfold DelayQueue.remove
    split
    · exact spares_ok _ _
    · simp
  cases e with
  | node event fresh =>
    cases event with
    | connect uuid name platform subworkers address connection =>
      simp only [step, processNode]
      split
      · exact (hindex _ _).bind fun _ _ => (hreset _ _).bind fun _ _ => spares_ok _ _
      · split
        · simp
        · exact spares_ok _ _
    | disconnect id =>
      simp only [step, processNode]
      split
      · exact spares_ok _ _
      · exact spares_ok _ _
    | heartbeat id =>
      simp only [step, processNode]
      split
      · exact spares_ok _ _
      · exact (hreset _ _).bind fun _ _ => spares_ok _ _
  | expired key =>
    simp only [step, processExpiration]
    split
    · simp
    · split
      · obtain ⟨s₁, out₁, h₁, _⟩ := processNodeDisconnection_consistent checks
          (s := { s with expirations := s.expirations.filter fun e => e.1 ≠ key }) c _
        rw [h₁]
        exact spares_ok _ _
      · split
        · exact spares_ok _ _
        · exact spares_ok _ _
  | scheduler event fresh =>
    cases event with
    | connect uuid name address connection =>
      simp only [step, processScheduler]
      split
      · exact (hindex _ _).bind fun _ _ => (hremove _ _).bind fun _ _ => spares_ok _ _
      · split
        · simp
        · exact spares_ok _ _
    | disconnect id =>
      simp only [step, processScheduler]
      split
      · exact spares_ok _ _
      · split
        · simp
        · exact spares_ok _ _
    | message id request =>
      rw [step]
      rcases s.processScheduler_message id request fresh with
        ⟨hkept, _⟩ | ⟨_, _, _, _, _, _, _, hdrop⟩
      · rw [hkept]
        exact spares_ok _ _
      · rw [hdrop]
        exact spares_ok _ _
  | processQueue =>
    exact processQueue_spares c fits (by simp) (by simp)

/-- `process_queue` indexes only what is there. -/
theorem processQueue_spares_index (c : s.roster.Consistent [] []) (fits : s.Fits checks) :
    Spares .indexOutOfBounds (s.step checks .processQueue) :=
  processQueue_spares c fits (by simp) (by simp)

/-- After every complete handler the workers, the assigned sets, the demands and the unassigned
workers agree; no worker serves two schedulers, `provided_workers` does not underflow and
`process_queue` indexes only what is there. A build without overflow checks has to stay below
`2 ^ 32` workers, which is what the counter holds. -/
theorem run_accounted
    (run : Run (State.step checks) (fun s _ => s.Fits checks) .new es out t) :
    t.Accounted ∧
      (∀ i j w scheduler scheduler', t.schedulers.get i = some scheduler →
        t.schedulers.get j = some scheduler' → w ∈ scheduler.assignedWorkers →
          w ∈ scheduler'.assignedWorkers → i = j) ∧
      (t.Fits checks → (∀ e, Spares (.subOverflow 32) (t.step checks e)) ∧
        Spares .indexOutOfBounds (t.step checks .processQueue)) := by
  have c := consistent_of_run run
  have a := accounted_of_consistent c
  refine ⟨a, ?_, ?_⟩
  · intro i j w scheduler scheduler' hi hj hw hw'
    exact a.exclusive hi hj hw hw'
  · intro fits
    exact ⟨step_spares_underflow c fits, processQueue_spares_index c fits⟩

instance (checks : Bool) (s : State) : Decidable (s.Fits checks) :=
  inferInstanceAs (Decidable (checks = false → Slab.len s.workers < 2 ^ 32))

def linux : Platform := ⟨.x86_64, .unix, .linux⟩

/-- A node serves a scheduler. -/
def serving : List Event :=
  [.scheduler (.connect 1 none ⟨[], 0⟩ 0) ⟨0, 0⟩,
    .node (.connect 2 none linux 1 ⟨[], 0⟩ 1) ⟨0, 0⟩,
    .scheduler (.message 0 (.workersDemand (some 1) [linux])) ⟨0, 0⟩,
    .processQueue]

theorem run_accounted_serving : ∃ t : State, t.Accounted ∧
    (t.workers.get 0).any (fun worker => worker.assigned = some 0) = true := by
  obtain ⟨t, out, run, h⟩ := exists_run (State.step false) (fun s _ => s.Fits false) .new serving
    (fun r => (r.1.workers.get 0).any fun worker => worker.assigned = some 0) (by decide)
  exact ⟨t, (run_accounted run).1, h⟩

section Crowd
variable {n : Nat} {ws : List Id}

/-- The demand of a scheduler that takes all workers there are, and has been given `n`. -/
def unlimited (n : Nat) : WorkersDemand := ⟨n % 2 ^ 32, none, [linux]⟩

theorem wrappingAdd_mod (n : Nat) : wrappingAdd 32 (n % 2 ^ 32) 1 = (n + 1) % 2 ^ 32 := by
  by_cases hn : n % 2 ^ 32 + 1 < 2 ^ 32
  · rw [wrappingAdd, if_pos hn]
    omega
  · rw [wrappingAdd, if_neg hn]
    omega

theorem unlimited_succ (n : Nat) : addBits 32 false (unlimited n).providedWorkers 1 =
    .ok (unlimited (n + 1)).providedWorkers := by
  rw [addBits, if_neg (by simp)]
  exact congrArg Except.ok (wrappingAdd_mod n)

/-- The matches of one scheduler. -/
def matchesOf (i : Id) (ws : List Id) : List (Id × List Id) := if ws = [] then [] else [(i, ws)]

theorem pushMatch_matchesOf (i w : Id) (ws : List Id) :
    pushMatch i w (matchesOf i ws) = matchesOf i (ws ++ [w]) := by
  unfold matchesOf
  split
  case isTrue h => simp [h, pushMatch]
  case isFalse h => simp [pushMatch]

/-- All workers go to the one demand without a limit, and its counter wraps. -/
theorem matchWorkers_unlimited {workers : Slab Node} {m : Matching} (before : List Id)
    (waiting : m.unassignedWorkers.keys = ws)
    (live : ∀ w ∈ ws, ∃ worker, workers.get w = some worker ∧ worker.platform = linux)
    (demands : m.demands.entries = [(0, unlimited n)]) (matched : m.matched = matchesOf 0 before) :
    ∃ m', matchWorkers false workers ws.length m = .ok m' ∧
      m'.demands.entries = [(0, unlimited (n + ws.length))] ∧
      m'.matched = matchesOf 0 (before ++ ws) := by
  induction ws generalizing m n before with
  | nil => exact ⟨m, rfl, demands, by rw [matched, List.append_nil]⟩
  | cons w ws ih =>
    obtain ⟨worker, hw, hp⟩ := live w List.mem_cons_self
    obtain ⟨e, hfront⟩ : ∃ e, m.unassignedWorkers.front = some e := by
      cases hf : m.unassignedWorkers.front with
      | none =>
        rw [LinkedVecMap.keys, LinkedVecMap.front_eq_none.mp hf] at waiting
        cases waiting
      | some e => exact ⟨e, rfl⟩
    have hentries := LinkedVecMap.entries_of_front hfront
    rw [LinkedVecMap.keys, hentries, List.map_cons, List.cons.injEq] at waiting
    have htakes : m.demands.entries.find? (fun entry => entry.2.takes worker.platform) =
        some (0, unlimited n) := by
      simp [demands, WorkersDemand.takes, unlimited, hp]
    obtain ⟨m', hrest, hdemands, hmatched⟩ := ih
      (n := n + 1) (m := ⟨m.unassignedWorkers.popFront, m.demands.write 0 (unlimited (n + 1)),
        pushMatch 0 w m.matched⟩) (before ++ [w]) waiting.2
      (fun k hk => live k (List.mem_cons_of_mem _ hk))
      (by simp [LinkedVecMap.write, demands]) (by rw [matched, pushMatch_matchesOf])
    refine ⟨m', ?_, ?_, ?_⟩
    · obtain ⟨k, u⟩ := e
      obtain rfl : k = w := waiting.1
      simp only [List.length_cons, matchWorkers, hfront, hw, htakes, unlimited_succ, ok_bind]
      exact hrest
    · rw [hdemands, List.length_cons, Nat.add_assoc, Nat.add_comm 1]
    · rw [hmatched, List.append_assoc]
      rfl

/-- Live workers are assigned one after another. -/
theorem assignWorkers_live {r : State × List Sent} {scheduler : Scheduler} (ws : List Id)
    (hs : r.1.schedulers.get 0 = some scheduler)
    (live : ∀ w ∈ ws, (r.1.workers.get w).isSome) :
    ∃ r', assignWorkers r (0, ws) = .ok r' ∧
      r'.1.workersDemandsQueue = r.1.workersDemandsQueue ∧
      ∃ scheduler', r'.1.schedulers.get 0 = some scheduler' ∧
        ∀ w ∈ ws, w ∈ scheduler'.assignedWorkers := by
  obtain ⟨a, hloop, _, hmem⟩ := foldlM_total (f := assignWorker 0)
    (I := fun rest a => (∀ w ∈ ws, (a.workers.get w).isSome) ∧ (∀ w ∈ rest, w ∈ ws) ∧
      ∀ w ∈ ws, w ∈ rest ∨ w ∈ a.scheduler.assignedWorkers)
    (s := ⟨r.1.workers, scheduler, [], []⟩)
    (fun w rest a hI => by
      obtain ⟨hlive, hrest, hmem⟩ := hI
      have hw := hlive w (hrest w List.mem_cons_self)
      obtain ⟨worker, hworker⟩ := Option.isSome_iff_exists.mp hw
      refine ⟨_, assignWorker_eq hworker, ?_, ?_, ?_⟩
      · intro k hk
        rw [VecMap.get_write hw]
        by_cases hkw : k = w
        · simp [hkw]
        · rw [Function.update_of_ne hkw]
          exact hlive k hk
      · exact fun k hk => hrest k (List.mem_cons_of_mem _ hk)
      · intro k hk
        cases hmem k hk with
        | inl hin =>
          cases List.mem_cons.mp hin with
          | inl heq => exact .inr (LinkedVecSet.mem_insert.mpr (.inl heq))
          | inr hin => exact .inl hin
        | inr hin => exact .inr (LinkedVecSet.mem_insert.mpr (.inr hin)))
    ⟨live, fun _ hw => hw, fun _ hw => .inl hw⟩
  refine ⟨_, assignWorkers_eq hs hloop, rfl, (a.scheduler.send (.connect a.infos)).1, ?_, ?_⟩
  · rw [VecMap.get_write (by rw [hs]; rfl), Function.update_self]
  · intro w hw
    rw [Scheduler.send_assignedWorkers]
    exact (hmem.2 w hw).resolve_left (List.not_mem_nil)

/-- What the node manager has after the demand and `n` nodes have come. -/
structure Crowd (n : Nat) (s : State) : Prop where
  scheduler : (s.schedulers.get 0).isSome
  demands : s.workersDemandsQueue.entries = [(0, unlimited 0)]
  live : ∀ w, w < n → ∃ worker, s.workers.get w = some worker ∧ worker.platform = linux
  vacant : ∀ w, n ≤ w → s.workers.get w = none ∧ s.expirations.get w = none
  waiting : s.unassignedWorkers.keys = List.range n
  disconnected : s.disconnected = fun _ => none

theorem Crowd.processQueue (c : Crowd n s) (notified : s.needProcessQueue = true) :
    ∃ t out, s.step false .processQueue = .ok (t, out) ∧
      t.workersDemandsQueue.get 0 = some (unlimited n) ∧
      ∀ w, w < n → ∃ scheduler, t.schedulers.get 0 = some scheduler ∧
        w ∈ scheduler.assignedWorkers := by
  obtain ⟨scheduler, hs⟩ := Option.isSome_iff_exists.mp c.scheduler
  have hlen : s.unassignedWorkers.len = (List.range n).length := by
    rw [← c.waiting, LinkedVecMap.keys, List.length_map, LinkedVecMap.len]
  obtain ⟨m, hm, hdemands, hmatched⟩ := matchWorkers_unlimited
    (m := ⟨s.unassignedWorkers, s.workersDemandsQueue, []⟩) [] c.waiting
    (fun w hw => c.live w (List.mem_range.mp hw)) c.demands rfl
  have hget : m.demands.get 0 = some (unlimited n) := by
    simp [LinkedVecMap.get, hdemands]
  simp only [step, notified, ↓reduceIte, State.processQueue, hlen, hm, ok_bind, hmatched,
    List.nil_append, matchesOf]
  split
  case isTrue hempty =>
    refine ⟨_, _, rfl, hget, ?_⟩
    intro w hw
    have hmem := List.mem_range.mpr hw
    rw [hempty] at hmem
    cases hmem
  case isFalse =>
    obtain ⟨r, hr, hqueue, scheduler', hs', hassigned⟩ := assignWorkers_live
      (r := ({ s with
        needProcessQueue := false
        unassignedWorkers := m.unassignedWorkers
        workersDemandsQueue := m.demands }, [])) (List.range n) hs (fun w hw => by
          obtain ⟨worker, hworker, _⟩ := c.live w (List.mem_range.mp hw)
          exact Option.isSome_iff_exists.mpr ⟨worker, hworker⟩)
    refine ⟨r.1, r.2, ?_, hqueue ▸ hget, ?_⟩
    · simp only [List.foldlM_cons, List.foldlM_nil, hr]
      rfl
    · exact fun w hw => ⟨scheduler', hs', hassigned w (List.mem_range.mpr hw)⟩

/-- Another node connects. -/
theorem Crowd.joins (c : Crowd n s) : ∃ t out,
    s.step false (.node (.connect n none linux 1 ⟨[], 0⟩ n) ⟨n, n⟩) = .ok (t, out) ∧
      Crowd (n + 1) t ∧ t.needProcessQueue = true := by
  obtain ⟨hfree, htimer⟩ := c.vacant n (Nat.le_refl n)
  have hnew : s.unassignedWorkers.get n = none := by
    rw [LinkedVecMap.get_eq_none, c.waiting]
    simp
  refine ⟨_, _, by simp only [step, processNode, c.disconnected, hfree, htimer]; rfl, ?_, rfl⟩
  refine ⟨c.scheduler, c.demands, ?_, ?_, ?_, rfl⟩
  · intro w hw
    rw [VecMap.get_insert]
    by_cases hwn : w = n
    · subst hwn
      exact ⟨_, Function.update_self .., rfl⟩
    · rw [Function.update_of_ne hwn]
      exact c.live w (by omega)
  · intro w hw
    have hwn : w ≠ n := by omega
    rw [VecMap.get_insert, DelayQueue.get_append htimer, Function.update_of_ne hwn,
      Function.update_of_ne hwn]
    exact c.vacant w (by omega)
  · have hall : s.unassignedWorkers.entries.filter (fun e => e.1 ≠ n) =
        s.unassignedWorkers.entries := by
      rw [List.filter_eq_self]
      intro e he
      simp only [ne_eq, decide_not, Bool.not_eq_eq_eq_not, Bool.not_true, decide_eq_false_iff_not]
      intro heq
      exact LinkedVecMap.get_eq_none.mp hnew (List.mem_map.mpr ⟨e, he, heq⟩)
    rw [List.range_succ, ← c.waiting]
    simp only [LinkedVecSet.insert, LinkedVecMap.insert, LinkedVecMap.remove, LinkedVecMap.keys,
      hall, List.map_append, List.map_cons, List.map_nil]

theorem crowd_run (n : Nat) : ∃ es out t,
    Run (State.step false) (fun _ _ => True) .new es out t ∧ Crowd n t ∧
      t.needProcessQueue = true := by
  induction n with
  | zero =>
    have hconnect : Run (State.step false) (fun _ _ => True) .new
        [.scheduler (.connect 0 none ⟨[], 0⟩ 0) ⟨0, 0⟩,
          .scheduler (.message 0 (.workersDemand none [linux])) ⟨0, 0⟩] _ _ :=
      .snoc (.single trivial rfl) trivial rfl
    refine ⟨_, _, _, hconnect, ⟨rfl, rfl, by simp, ?_, rfl, rfl⟩, rfl⟩
    intro w _
    exact ⟨VecMap.get_new w, rfl⟩
  | succ n ih =>
    obtain ⟨es, out, t, run, c, _⟩ := ih
    obtain ⟨u, out', taken, c', notified⟩ := c.joins
    exact ⟨_, _, u, run.snoc trivial taken, c', notified⟩

/-- In a build without overflow checks the counter wraps at `2 ^ 32` workers. -/
theorem provided_wraps : ¬ ∀ es out t,
    Run (State.step false) (fun _ _ => True) .new es out t → t.Accounted := by
  intro h
  obtain ⟨es, out, t, run, c, notified⟩ := crowd_run (2 ^ 32)
  obtain ⟨u, out', taken, hdemand, hassigned⟩ := c.processQueue notified
  have a := h _ _ u (run.snoc trivial taken)
  obtain ⟨scheduler, hs, hmem⟩ := hassigned 0 (by omega)
  obtain ⟨scheduler', hs', hprovided⟩ := a.provided 0 _ hdemand
  rw [hs, Option.some.injEq] at hs'
  rw [← hs'] at hprovided
  have hlen := LinkedVecMap.len_remove (m := scheduler.assignedWorkers) hmem
  simp only [unlimited, Nat.mod_self] at hprovided
  omega

end Crowd

end GridServer.NodeManager.State
