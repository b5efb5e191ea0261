import GridServer.Library.Run
import GridServer.NodeManager.Roster
import Mathlib.Data.List.Perm.Subperm

namespace GridServer.NodeManager
open Library

/-- What the roster says of a node. -/
def Node.duty (node : Node) : Platform × Option Id := (node.platform, node.assigned)

@[simp] theorem Node.send_duty (node : Node) (request : NodeRequest) :
    (node.send request).1.duty = node.duty := by
  unfold Node.send
  split
  · rfl
  · rfl

@[simp] theorem Scheduler.send_assignedWorkers (scheduler : Scheduler)
    (response : NodeManagerResponse) :
    (scheduler.send response).1.assignedWorkers = scheduler.assignedWorkers := by
  unfold Scheduler.send
  split
  · rfl
  · rfl

namespace Slab
variable {V : Type}

/-- The values of a slab with their slots. -/
def iter (slab : Slab V) : List (Id × V) :=
  (List.range slab.v.length).filterMap fun key => (slab.get key).map fun value => (key, value)

def len (slab : Slab V) : Nat := (iter slab).length

/-- Different slots that are taken are no more than the slab has. -/
theorem length_le_len {slab : Slab V} {keys : List Id} (once : keys.Nodup)
    (taken : ∀ key ∈ keys, (slab.get key).isSome) : keys.length ≤ len slab := by
  have hsub : keys.Subperm ((iter slab).map Prod.fst) := by
    apply once.subperm
    intro key hkey
    have hsome := taken key hkey
    obtain ⟨value, hvalue⟩ := Option.isSome_iff_exists.mp hsome
    refine List.mem_map.mpr ⟨(key, value), List.mem_filterMap.mpr ⟨key, ?_, ?_⟩, rfl⟩
    · exact List.mem_range.mpr (VecMap.lt_of_get hsome)
    · rw [hvalue, Option.map_some]
  have hlen := hsub.length_le
  rwa [List.length_map] at hlen

end Slab

/-- Everything that is filed of a slab's values by `f`. -/
def tally {V W : Type} (slab : Slab V) (f : V → W) (key : Id) : Option W := (slab.get key).map f

section Tally
variable {V W : Type} {slab : Slab V} {f : V → W} {key : Id}

theorem tally_insert (slab : Slab V) (f : V → W) (key : Id) (value : V) :
    tally (slab.insert key value) f = Function.update (tally slab f) key (some (f value)) := by
  funext k
  by_cases hk : k = key
  · simp [tally, hk]
  · simp [tally, Function.update_of_ne hk]

theorem tally_remove (slab : Slab V) (f : V → W) (key : Id) :
    tally (slab.remove key) f = Function.update (tally slab f) key none := by
  funext k
  by_cases hk : k = key
  · simp [tally, VecMap.get_remove, hk]
  · simp [tally, VecMap.get_remove, Function.update_of_ne hk]

theorem tally_write {old : V} (h : slab.get key = some old) (value : V) :
    tally (slab.write key value) f = Function.update (tally slab f) key (some (f value)) := by
  funext k
  have hwrite := VecMap.get_write (m := slab) (by rw [h]; rfl) value
  by_cases hk : k = key
  · simp [tally, hwrite, hk]
  · simp [tally, hwrite, Function.update_of_ne hk]

theorem tally_write_same {old : V} (h : slab.get key = some old) {value : V}
    (hf : f value = f old) : tally (slab.write key value) f = tally slab f := by
  rw [tally_write h, hf]
  apply Function.update_eq_self_iff.mpr
  simp [tally, h]

theorem index_ok {value : V} : index slab key = .ok value ↔ slab.get key = some value := by
  unfold index
  split <;> simp_all

end Tally

namespace State

/-- What the state says of who serves whom. -/
def roster (s : State) : Roster :=
  { duty := tally s.workers Node.duty
    assigned := tally s.schedulers Scheduler.assignedWorkers
    demand := s.workersDemandsQueue.get
    unassigned := s.unassignedWorkers }

variable {checks : Bool} {s s' : State} {out : List Sent}

theorem releaseWorker_roster {w : Id} (hw : (s.workers.get w).isSome) :
    (s.releaseWorker w).1.roster = s.roster.release w := by
  obtain ⟨worker, hworker⟩ := Option.isSome_iff_exists.mp hw
  simp only [releaseWorker, hworker, roster, Roster.release, tally_write hworker, Node.send_duty]
  simp [tally, hworker, Node.duty]

/-- The workers are released one after another. -/
theorem releaseWorkers_cons (s : State) (w : Id) (ws : List Id) :
    s.releaseWorkers (w :: ws) =
      (((s.releaseWorker w).1.releaseWorkers ws).1,
        (s.releaseWorker w).2 ++ ((s.releaseWorker w).1.releaseWorkers ws).2) := by
  have hloop : ∀ (ws : List Id) (s : State) (out : List Sent),
      ws.foldl (fun r workerId =>
        ((r.1.releaseWorker workerId).1, r.2 ++ (r.1.releaseWorker workerId).2)) (s, out) =
          ((s.releaseWorkers ws).1, out ++ (s.releaseWorkers ws).2) := by
    intro ws
    induction ws with
    | nil => simp [releaseWorkers]
    | cons w ws ih =>
      intro s out
      have hrest := ih (s.releaseWorker w).1
      simp only [releaseWorkers, List.foldl_cons, List.nil_append] at hrest ⊢
      rw [hrest (out ++ (s.releaseWorker w).2), hrest (s.releaseWorker w).2, List.append_assoc]
  exact hloop ws _ _

theorem releaseWorker_get {w : Id} {worker : Node} (hw : s.workers.get w = some worker) :
    (s.releaseWorker w).1.workers.get =
        Function.update s.workers.get w ({ worker with assigned := none }.send .unassignClient).1 ∧
      (s.releaseWorker w).1.unassignedWorkers = s.unassignedWorkers.insert w ∧
      (s.releaseWorker w).2 = ({ worker with assigned := none }.send .unassignClient).2 := by
  simp only [releaseWorker, hw, and_self, and_true]
  exact VecMap.get_write (by rw [hw]; rfl) _

theorem releaseWorkers_consistent {ws : List Id} (c : s.roster.Consistent [] ws) (once : ws.Nodup)
    (live : ∀ w ∈ ws, (s.workers.get w).isSome) :
    (s.releaseWorkers ws).1.roster.Consistent [] [] := by
  induction ws generalizing s with
  | nil => exact c
  | cons w ws ih =>
    rw [List.nodup_cons] at once
    have hw := live w List.mem_cons_self
    obtain ⟨worker, hworker⟩ := Option.isSome_iff_exists.mp hw
    rw [releaseWorkers_cons]
    apply ih
    · rw [releaseWorker_roster hw]
      apply c.release
      exact Option.isSome_map.trans hw
    · exact once.2
    · intro k hk
      rw [(releaseWorker_get hworker).1]
      by_cases hkw : k = w
      · simp [hkw]
      · rw [Function.update_of_ne hkw]
        exact live k (List.mem_cons_of_mem _ hk)

theorem dropDemand_consistent (c : s.roster.Consistent [] []) {id : Id} {scheduler : Scheduler}
    (hs : s.schedulers.get id = some scheduler) {demands : LinkedVecMap WorkersDemand}
    {demand : Option WorkersDemand}
    (hget : demands.get = Function.update s.workersDemandsQueue.get id demand)
    (hd : ∀ d, demand = some d → d.providedWorkers = 0) :
    (s.dropDemand id scheduler demands).1.roster.Consistent [] [] := by
  have hi : s.roster.assigned id = some scheduler.assignedWorkers := by simp [roster, tally, hs]
  have hred := c.redemand hi hd
  simp only [dropDemand]
  split
  · apply releaseWorkers_consistent
    · have hroster : s.roster.redemand id demand = roster { s with
          workersDemandsQueue := demands
          needProcessQueue := true
          schedulers := s.schedulers.write id
            { scheduler with assignedWorkers := LinkedVecMap.new } } := by
        simp only [roster, Roster.redemand, hget, tally_write hs]
      rw [← hroster]
      exact hred
    · exact scheduler.assignedWorkers.distinct
    · intro w hw
      obtain ⟨⟨p, hp⟩, _⟩ := (c.assigned id _ hi w).mp (LinkedVecSet.mem_keys.mp hw)
      obtain ⟨node, hnode, _⟩ := Option.map_eq_some_iff.mp hp
      simp [hnode]
  · rename_i hnone
    have hempty := c.undemanded hi (Option.not_isSome_iff_eq_none.mp hnone)
    rw [hempty] at hred hi
    have hroster : s.roster.redemand id demand = roster { s with
        workersDemandsQueue := demands, needProcessQueue := true } := by
      simp only [Roster.redemand, ← hi, Function.update_eq_self]
      simp only [roster, hget]
    rw [← hroster]
    exact hred

/-- A message is passed over, or its sender's demand gives way to another or to none. -/
theorem processScheduler_message (s : State) (id : Id) (request : NodeManagerRequest)
    (fresh : Fresh) :
    (s.processScheduler (.message id request) fresh = .ok (s, []) ∧
      (request = .helloMessage ∨ s.schedulers.get id = none)) ∨
    ∃ scheduler demands demand, s.schedulers.get id = some scheduler ∧
      request ≠ .helloMessage ∧
      demands.get = Function.update s.workersDemandsQueue.get id demand ∧
      (∀ d, demand = some d → d.providedWorkers = 0) ∧
      s.processScheduler (.message id request) fresh =
        .ok (s.dropDemand id scheduler demands) := by
  cases request with
  | helloMessage => exact .inl ⟨rfl, .inl rfl⟩
  | workersDemand requiredWorkers supportedPlatforms =>
    cases hs : s.schedulers.get id with
    | none => exact .inl ⟨by simp only [processScheduler, hs], .inr rfl⟩
    | some scheduler =>
      obtain ⟨demand, hdemand⟩ : ∃ demand : WorkersDemand, demand =
          { providedWorkers := 0
            requiredWorkers := requiredWorkers
            supportedPlatforms := supportedPlatforms } := ⟨_, rfl⟩
      refine .inr ⟨scheduler, s.workersDemandsQueue.insert id demand, some demand, rfl, by simp,
        LinkedVecMap.get_insert .., ?_, by simp only [processScheduler, hs, hdemand]⟩
      simp [hdemand]
  | releaseDemand =>
    cases hs : s.schedulers.get id with
    | none => exact .inl ⟨by simp only [processScheduler, hs], .inr rfl⟩
    | some scheduler =>
      exact .inr ⟨scheduler, s.workersDemandsQueue.remove id, none, rfl, by simp,
        LinkedVecMap.get_remove .., by simp, by simp only [processScheduler, hs]⟩

theorem processScheduler_consistent (c : s.roster.Consistent [] []) {event : SchedulerEvent}
    {fresh : Fresh} (h : s.processScheduler event fresh = .ok (s', out)) :
    s'.roster.Consistent [] [] := by
  cases event with
  | connect uuid name address connection =>
    simp only [processScheduler] at h
    split at h
    · simp only [restoreSchedulerSession, bind_ok, except_pure, Except.ok.injEq, Prod.mk.injEq,
        index_ok] at h
      obtain ⟨scheduler, hs, _, _, rfl, _⟩ := h
      simp only [roster]
      rw [tally_write_same hs]
      · exact c
      · rfl
    · split at h
      · cases h
      · rename_i hvacant
        simp only [Except.ok.injEq, Prod.mk.injEq] at h
        obtain ⟨rfl, _⟩ := h
        simp only [roster, tally_insert]
        apply c.enter
        simp only [roster, tally, Option.map_eq_none_iff]
        exact Option.not_isSome_iff_eq_none.mp hvacant
  | disconnect id =>
    simp only [processScheduler] at h
    split at h
    · simp only [Except.ok.injEq, Prod.mk.injEq] at h
      exact h.1 ▸ c
    · rename_i scheduler hs
      split at h
      · cases h
      · simp only [Except.ok.injEq, Prod.mk.injEq] at h
        obtain ⟨rfl, _⟩ := h
        simp only [roster]
        rw [tally_write_same hs]
        · exact c
        · rfl
  | message id request =>
    rcases s.processScheduler_message id request fresh with
      ⟨hkept, _⟩ | ⟨scheduler, demands, demand, hs, _, hget, hd, hdrop⟩
    · rw [hkept] at h
      cases h
      exact c
    · rw [hdrop, Except.ok.injEq] at h
      have hs' : s' = _ := (congrArg Prod.fst h).symm
      rw [hs']
      exact dropDemand_consistent c hs hget hd

theorem processNode_consistent (c : s.roster.Consistent [] []) {event : NodeEvent} {fresh : Fresh}
    (h : s.processNode event fresh = .ok (s', out)) : s'.roster.Consistent [] [] := by
  cases event with
  | connect uuid name platform subworkers address connection =>
    simp only [processNode] at h
    split at h
    · simp only [restoreNodeSession, bind_ok, except_pure, Except.ok.injEq, Prod.mk.injEq,
        index_ok] at h
      obtain ⟨node, hn, _, _, rfl, _⟩ := h
      simp only [roster]
      rw [tally_write_same hn]
      · exact c
      · rfl
    · split at h
      · cases h
      · rename_i hvacant
        simp only [Except.ok.injEq, Prod.mk.injEq] at h
        obtain ⟨rfl, _⟩ := h
        simp only [roster, tally_insert]
        apply c.join
        simp only [roster, tally, Option.map_eq_none_iff]
        exact Option.not_isSome_iff_eq_none.mp fun hsome => hvacant (.inl hsome)
  | disconnect id =>
    simp only [processNode] at h
    split at h
    · simp only [Except.ok.injEq, Prod.mk.injEq] at h
      exact h.1 ▸ c
    · rename_i node hn
      simp only [Except.ok.injEq, Prod.mk.injEq] at h
      obtain ⟨rfl, _⟩ := h
      simp only [roster]
      rw [tally_write_same hn]
      · exact c
      · rfl
  | heartbeat id =>
    simp only [processNode] at h
    split at h
    · simp only [Except.ok.injEq, Prod.mk.injEq] at h
      exact h.1 ▸ c
    · simp only [bind_ok, except_pure, Except.ok.injEq, Prod.mk.injEq] at h
      obtain ⟨_, _, rfl, _⟩ := h
      exact c

/-- What the end of a node's session does: the scheduler that it served, if any, hears of it. -/
inductive NodeEnds (s t : State) (w : Id) (out : List Sent) : Prop where
  | unknown (worker : s.workers.get w = none) (state : t = s) (sent : out = [])
  | quiet (node : Node) (unassigned : LinkedVecSet) (worker : s.workers.get w = some node)
    (unserved : ∀ i scheduler, node.assigned = some i → s.schedulers.get i = some scheduler →
      w ∉ scheduler.assignedWorkers)
    (state : t = { s with
      workers := s.workers.remove w
      disconnected := forget s.disconnected node.uuid
      unassignedWorkers := unassigned }) (sent : out = [.cancelled node.cancellationToken])
  | told (node : Node) (i : Id) (scheduler : Scheduler) (demands : LinkedVecMap WorkersDemand)
    (worker : s.workers.get w = some node) (assigned : node.assigned = some i)
    (session : s.schedulers.get i = some scheduler)
    (state : t = { s with
      workers := s.workers.remove w
      disconnected := forget s.disconnected node.uuid
      schedulers := s.schedulers.write i ({ scheduler with
        assignedWorkers := scheduler.assignedWorkers.remove w }.send (.disconnect w)).1
      workersDemandsQueue := demands
      needProcessQueue := true })
    (sent : out = ({ scheduler with
      assignedWorkers := scheduler.assignedWorkers.remove w }.send (.disconnect w)).2 ++
        [.cancelled node.cancellationToken])

theorem processNodeDisconnection_ends {w : Id}
    (h : s.processNodeDisconnection checks w = .ok (s', out)) : NodeEnds s s' w out := by
  unfold processNodeDisconnection at h
  split at h
  · rename_i hnone
    cases h
    exact .unknown hnone rfl rfl
  · rename_i node hn
    dsimp only at h
    split at h
    · rename_i hfree
      cases h
      refine .quiet node _ hn ?_ rfl rfl
      intro i scheduler hi
      rw [hfree] at hi
      cases hi
    · rename_i i hi
      split at h
      · rename_i hnone
        cases h
        refine .quiet node _ hn ?_ rfl rfl
        intro j scheduler hj hs
        rw [hi, Option.some.injEq] at hj
        rw [← hj, hnone] at hs
        cases hs
      · rename_i scheduler hs
        split at h
        · split at h
          · simp only [bind_ok, except_pure, Except.ok.injEq, Prod.mk.injEq] at h
            obtain ⟨_, _, _, _, rfl, rfl⟩ := h
            exact .told node i scheduler _ hn hi hs rfl rfl
          · simp only [ok_bind, except_pure, Except.ok.injEq, Prod.mk.injEq] at h
            obtain ⟨rfl, rfl⟩ := h
            exact .told node i scheduler _ hn hi hs rfl rfl
        · rename_i hnot
          cases h
          refine .quiet node _ hn ?_ rfl rfl
          intro j scheduler' hj hs'
          rw [hi, Option.some.injEq] at hj
          rw [← hj, hs, Option.some.injEq] at hs'
          exact hs' ▸ hnot

/-- The end of a node's session never takes a demand below zero. -/
theorem processNodeDisconnection_consistent (checks : Bool) (c : s.roster.Consistent [] []) (w : Id) :
    ∃ s' out, s.processNodeDisconnection checks w = .ok (s', out) ∧
      s'.roster.Consistent [] [] := by
  unfold processNodeDisconnection
  split
  · exact ⟨s, [], rfl, c⟩
  rename_i worker hw
  have hduty : s.roster.duty w = some worker.duty := by simp [roster, tally, hw]
  dsimp only
  split
  · rename_i hfree
    refine ⟨_, _, rfl, ?_⟩
    simp only [roster, tally_remove]
    apply c.quit
    rw [hduty, Node.duty, hfree]
  · rename_i i hi
    rw [Node.duty, hi] at hduty
    obtain ⟨ws, hws⟩ := Option.isSome_iff_exists.mp (c.served w _ i hduty)
    obtain ⟨scheduler, hs, rfl⟩ := Option.map_eq_some_iff.mp hws
    have hmem : w ∈ scheduler.assignedWorkers :=
      (c.assigned i _ hws w).mpr ⟨⟨_, hduty⟩, by simp⟩
    obtain ⟨demand, hd⟩ := Option.isSome_iff_exists.mp (c.demanded i _ w hws hmem)
    obtain ⟨ws', hws', hprovided⟩ := c.provided i demand hd
    have hpos : 1 ≤ demand.providedWorkers := by
      rw [hws, Option.some.injEq] at hws'
      subst hws'
      have := LinkedVecMap.len_remove (m := scheduler.assignedWorkers) hmem
      omega
    have hget : s.workersDemandsQueue.get i = some demand := hd
    simp only [hs, hmem, ↓reduceIte, hget, subBits_of_le hpos, ok_bind, except_pure,
      Except.ok.injEq, Prod.mk.injEq]
    refine ⟨_, _, ⟨rfl, rfl⟩, ?_⟩
    have hlose := c.lose hduty hws hd
    simp only [roster, tally_remove, tally_write hs, Scheduler.send_assignedWorkers,
      LinkedVecMap.get_write (m := s.workersDemandsQueue) (k := i) (by rw [hget]; rfl)]
    exact hlose

theorem processExpiration_consistent (c : s.roster.Consistent [] []) {key : Key}
    (h : s.processExpiration checks key = .ok (s', out)) : s'.roster.Consistent [] [] := by
  unfold processExpiration at h
  split at h
  · cases h
  · dsimp only at h
    split at h
    · obtain ⟨s₁, out₁, h₁, hc⟩ := processNodeDisconnection_consistent checks
        (s := { s with expirations := s.expirations.filter fun e => e.1 ≠ key }) c _
      rw [h₁, Except.ok.injEq, Prod.mk.injEq] at h
      exact h.1 ▸ hc
    · split at h
      · simp only [Except.ok.injEq, Prod.mk.injEq] at h
        exact h.1 ▸ c
      · simp only [Except.ok.injEq, Prod.mk.injEq] at h
        exact h.1 ▸ c

section Queue
variable {matched : List (Id × List Id)} {i w : Id}

/-- The matches one by one. -/
def pairs (matched : List (Id × List Id)) : List (Id × Id) :=
  matched.flatMap fun entry => entry.2.map (Prod.mk entry.1)

theorem pushMatch_perm (i w : Id) (matched : List (Id × List Id)) :
    (pairs matched ++ [(i, w)]).Perm (pairs (pushMatch i w matched)) := by
  induction matched with
  | nil => exact .refl _
  | cons entry matched ih =>
    obtain ⟨id, ws⟩ := entry
    unfold pushMatch
    split
    · rename_i hid
      subst hid
      simp only [pairs, List.flatMap_cons, List.map_append, List.map_cons, List.map_nil,
        List.append_assoc]
      exact List.perm_append_comm.append_left _
    · simp only [pairs, List.flatMap_cons, List.append_assoc]
      exact ih.append_left _

theorem pushMatch_ne_nil (h : ∀ entry ∈ matched, entry.2 ≠ []) :
    ∀ entry ∈ pushMatch i w matched, entry.2 ≠ [] := by
  induction matched with
  | nil => simp [pushMatch]
  | cons entry matched ih =>
    obtain ⟨id, ws⟩ := entry
    rw [List.forall_mem_cons] at h
    unfold pushMatch
    split
    · rw [List.forall_mem_cons]
      exact ⟨by simp, h.2⟩
    · rw [List.forall_mem_cons]
      exact ⟨h.1, ih h.2⟩

/-- A build without overflow checks counts fewer than `2 ^ 32` workers. -/
def Fits (checks : Bool) (s : State) : Prop := checks = false → Slab.len s.workers < 2 ^ 32

/-- A scheduler's workers, those promised to it and one that is waiting are different nodes. -/
theorem provided_lt {r : Roster} {pending : List (Id × Id)} (c : r.Consistent pending [])
    (hduty : r.duty = s.roster.duty) (hw : w ∈ r.unassigned) {demand : WorkersDemand}
    (hd : r.demand i = some demand) : demand.providedWorkers + 1 ≤ Slab.len s.workers := by
  obtain ⟨ws, hws, hprovided⟩ := c.provided i demand hd
  obtain ⟨⟨p, hp⟩, hnew⟩ := (c.unassigned w).mp hw
  have hassigned : ∀ k ∈ ws.keys, ∃ p, r.duty k = some (p, some i) := fun k hk =>
    ((c.assigned i ws hws k).mp (LinkedVecSet.mem_keys.mp hk)).1
  have hpromised : ∀ k ∈ (pending.filter fun e => e.1 = i).map Prod.snd,
      ∃ p, r.duty k = some (p, none) := by
    intro k hk
    obtain ⟨e, he, rfl⟩ := List.mem_map.mp hk
    obtain ⟨p, _, hduty, _⟩ := c.promised e.1 e.2 (List.mem_filter.mp he).1
    exact ⟨p, hduty⟩
  have hlen : demand.providedWorkers + 1 =
      (w :: (ws.keys ++ (pending.filter fun e => e.1 = i).map Prod.snd)).length := by
    have hcount : (pending.map Prod.fst).count i = (pending.filter fun e => e.1 = i).length := by
      rw [List.count, List.countP_map, List.countP_eq_length_filter]
      rfl
    rw [hprovided, hcount]
    simp [LinkedVecMap.keys, LinkedVecMap.len]
  rw [hlen]
  apply Slab.length_le_len
  · rw [List.nodup_cons, List.mem_append, not_or, List.nodup_append]
    refine ⟨⟨?_, ?_⟩, ws.distinct, ?_, ?_⟩
    · intro hk
      obtain ⟨p', hp'⟩ := hassigned w hk
      rw [hp] at hp'
      cases hp'
    · intro hk
      obtain ⟨e, he, heq⟩ := List.mem_map.mp hk
      exact hnew (List.mem_map.mpr ⟨e, (List.mem_filter.mp he).1, heq⟩)
    · exact c.once.sublist (List.filter_sublist.map Prod.snd)
    · intro a ha b hb hab
      obtain ⟨p₁, h₁⟩ := hassigned a ha
      obtain ⟨p₂, h₂⟩ := hpromised b hb
      rw [hab, h₂] at h₁
      cases h₁
  · intro k hk
    have hsome : (r.duty k).isSome := by
      rw [List.mem_cons, List.mem_append] at hk
      rcases hk with rfl | hk | hk
      · rw [hp]
        rfl
      · obtain ⟨p, hp⟩ := hassigned k hk
        rw [hp]
        rfl
      · obtain ⟨p, hp⟩ := hpromised k hk
        rw [hp]
        rfl
    rw [hduty] at hsome
    exact Option.isSome_map.symm.trans hsome

/-- The roster in the middle of the first loop. -/
def Matching.roster (s : State) (m : Matching) : Roster :=
  { s.roster with demand := m.demands.get, unassigned := m.unassignedWorkers }

/-- The first loop only promises workers. It fails on no account but a full counter. -/
theorem matchWorkers_consistent (fits : s.Fits checks) (n : Nat) {m : Matching}
    (c : (m.roster s).Consistent (pairs m.matched) []) (some : ∀ entry ∈ m.matched, entry.2 ≠ []) :
    matchWorkers checks s.workers n m = .error (.addOverflow 32) ∨
      ∃ m', matchWorkers checks s.workers n m = .ok m' ∧
        (m'.roster s).Consistent (pairs m'.matched) [] ∧ ∀ entry ∈ m'.matched, entry.2 ≠ [] := by
  induction n generalizing m with
  | zero => exact .inr ⟨m, rfl, c, some⟩
  | succ n ih =>
    unfold matchWorkers
    split
    · exact .inr ⟨m, rfl, c, some⟩
    rename_i w _ hfront
    split
    · exact .inr ⟨m, rfl, c, some⟩
    rename_i worker hworker
    split
    · exact .inr ⟨m, rfl, c, some⟩
    rename_i i demand hfound
    have hd : m.demands.get i = .some demand :=
      LinkedVecMap.get_eq_some.mpr (List.mem_of_find?_eq_some hfound)
    have htakes : demand.takes worker.platform := by simpa using List.find?_some hfound
    have hmem : w ∈ m.unassignedWorkers := LinkedVecSet.mem_keys.mp (List.mem_map.mpr ⟨_,
      LinkedVecMap.entries_of_front hfront ▸ List.mem_cons_self, rfl⟩)
    have hw : (m.roster s).duty w = .some (worker.platform, none) := by
      obtain ⟨⟨p, hp⟩, _⟩ := (c.unassigned w).mp hmem
      have hduty : (m.roster s).duty w = .some worker.duty := by
        simp [Matching.roster, State.roster, tally, hworker]
      rw [hduty, Option.some.injEq, Node.duty, Prod.mk.injEq] at hp
      rw [hduty, Node.duty, hp.2]
    cases addBits_eq 32 demand.providedWorkers 1 checks with
    | inl hfull =>
      rw [hfull]
      exact .inl rfl
    | inr hadd =>
      obtain ⟨provided, hadd⟩ := hadd
      have hprovided := addBits_exact hadd fun hc =>
        Nat.lt_of_le_of_lt (provided_lt c rfl hmem hd) (fits hc)
      rw [hadd, ok_bind, hprovided]
      apply ih
      · have hpromise := (c.promise hfront hw hd htakes).perm (pushMatch_perm i w m.matched)
        simp only [Matching.roster, LinkedVecMap.get_write (m := m.demands) (k := i)
          (by rw [hd]; rfl)]
        exact hpromise
      · exact pushMatch_ne_nil some

/-- The roster while one scheduler is given its workers. -/
def Assigning.roster (s : State) (i : Id) (a : Assigning) : Roster :=
  { s.roster with
    duty := tally a.workers Node.duty
    assigned := Function.update s.roster.assigned i (some a.scheduler.assignedWorkers) }

theorem assignWorker_eq {a : Assigning} {worker : Node} (hw : a.workers.get w = some worker) :
    assignWorker i a w = .ok
      { workers := a.workers.write w ({ worker with assigned := some i }.send
          (.assignClient a.scheduler.address)).1
        scheduler := { a.scheduler with
          assignedWorkers := a.scheduler.assignedWorkers.insert w }
        infos := a.infos ++ [⟨w, worker.subworkers, worker.address, worker.platform⟩]
        out := a.out ++ ({ worker with assigned := some i }.send
          (.assignClient a.scheduler.address)).2 } := by
  rw [assignWorker, index_ok.mpr hw]
  rfl

theorem assignWorker_consistent {pending : List (Id × Id)} {a : Assigning}
    (c : (a.roster s i).Consistent ((i, w) :: pending) []) :
    ∃ a', assignWorker i a w = .ok a' ∧ (a'.roster s i).Consistent pending [] := by
  obtain ⟨p, _, hduty, _⟩ := c.promised i w List.mem_cons_self
  obtain ⟨worker, hworker, hp⟩ := Option.map_eq_some_iff.mp hduty
  have hassign := c.assign hduty (Function.update_self ..)
  rw [Node.duty, Prod.mk.injEq] at hp
  refine ⟨_, assignWorker_eq hworker, ?_⟩
  simp only [Assigning.roster, tally_write hworker, Node.send_duty]
  simp only [Assigning.roster, Function.update_idem, ← hp.1] at hassign
  exact hassign

theorem assignWorkers_eq {r : State × List Sent} {ws : List Id} {scheduler : Scheduler}
    {a : Assigning} (hs : r.1.schedulers.get i = some scheduler)
    (hloop : ws.foldlM (assignWorker i) ⟨r.1.workers, scheduler, [], []⟩ = .ok a) :
    assignWorkers r (i, ws) = .ok ({ r.1 with
      workers := a.workers
      schedulers := r.1.schedulers.write i (a.scheduler.send (.connect a.infos)).1 },
        r.2 ++ a.out ++ (a.scheduler.send (.connect a.infos)).2) := by
  rw [assignWorkers, index_ok.mpr hs, ok_bind, hloop]
  rfl

theorem assignWorkers_consistent {entry : Id × List Id} {r : State × List Sent}
    (some : entry.2 ≠ []) (c : r.1.roster.Consistent (pairs (entry :: matched)) []) :
    ∃ r', assignWorkers r entry = .ok r' ∧ r'.1.roster.Consistent (pairs matched) [] := by
  obtain ⟨i, ws⟩ := entry
  have hpairs : pairs ((i, ws) :: matched) = ws.map (Prod.mk i) ++ pairs matched := rfl
  rw [hpairs] at c
  obtain ⟨scheduler, hs⟩ : ∃ scheduler, r.1.schedulers.get i = .some scheduler := by
    cases ws with
    | nil => exact absurd rfl some
    | cons w ws =>
      obtain ⟨_, d, _, hd, _⟩ := c.promised i w List.mem_cons_self
      obtain ⟨_, hws, _⟩ := c.provided i d hd
      obtain ⟨scheduler, hs, _⟩ := Option.map_eq_some_iff.mp hws
      exact ⟨scheduler, hs⟩
  have hstart : Assigning.roster r.1 i ⟨r.1.workers, scheduler, [], []⟩ = r.1.roster := by
    have hassigned : r.1.roster.assigned i = .some scheduler.assignedWorkers := by
      simp [roster, tally, hs]
    simp only [Assigning.roster, ← hassigned, Function.update_eq_self]
    rfl
  obtain ⟨a, hloop, ha⟩ := foldlM_total (f := assignWorker i)
    (I := fun ws a => (Assigning.roster r.1 i a).Consistent (ws.map (Prod.mk i) ++ pairs matched) [])
    (fun _ _ _ hc => assignWorker_consistent hc) (hstart ▸ c)
  refine ⟨_, assignWorkers_eq hs hloop, ?_⟩
  simp only [roster, tally_write hs, Scheduler.send_assignedWorkers]
  exact ha

/-- `process_queue` keeps the roster, and fails on no account but a full counter. -/
theorem processQueue_consistent (c : s.roster.Consistent [] []) (fits : s.Fits checks) :
    s.processQueue checks = .error (.addOverflow 32) ∨
      ∃ r, s.processQueue checks = .ok r ∧ r.1.roster.Consistent [] [] := by
  unfold processQueue
  cases matchWorkers_consistent fits s.unassignedWorkers.len
    (m := ⟨s.unassignedWorkers, s.workersDemandsQueue, []⟩) c (by simp) with
  | inl hfull =>
    rw [hfull]
    exact .inl rfl
  | inr hmatched =>
    obtain ⟨m, hm, hc, some⟩ := hmatched
    rw [hm, ok_bind]
    obtain ⟨r, hr, hd⟩ := foldlM_total (f := assignWorkers)
      (I := fun matched r => (∀ entry ∈ matched, entry.2 ≠ []) ∧
        r.1.roster.Consistent (pairs matched) [])
      (s := ({ s with
        unassignedWorkers := m.unassignedWorkers, workersDemandsQueue := m.demands }, []))
      (fun entry matched r hI => by
        have hsome := List.forall_mem_cons.mp hI.1
        obtain ⟨r', hr', hc'⟩ := assignWorkers_consistent hsome.1 hI.2
        exact ⟨r', hr', hsome.2, hc'⟩) ⟨some, hc⟩
    exact .inr ⟨r, hr, hd.2⟩

end Queue

end State
end GridServer.NodeManager
