import GridServer.NodeManager.Accounts

namespace GridServer.NodeManager
open Library State

variable {checks : Bool} {workers : Slab Node} {ws : List Id}

/-- The demand is not satisfied, and takes workers of the platform. -/
def WorkersDemand.Wants (demand : WorkersDemand) (platform : Platform) : Prop :=
  (∀ n, demand.requiredWorkers = some n → demand.providedWorkers < n) ∧
    platform ∈ demand.supportedPlatforms

instance (demand : WorkersDemand) (platform : Platform) : Decidable (demand.Wants platform) :=
  match h : demand.requiredWorkers with
  | none => decidable_of_iff (platform ∈ demand.supportedPlatforms) (by simp [WorkersDemand.Wants, h])
  | some n => decidable_of_iff (demand.providedWorkers < n ∧ platform ∈ demand.supportedPlatforms)
      (by simp [WorkersDemand.Wants, h])

theorem WorkersDemand.takes_of_wants {demand : WorkersDemand} {platform : Platform}
    (h : demand.Wants platform) : demand.takes platform = true := by
  rw [takes, decide_eq_true_eq]
  refine ⟨?_, h.2⟩
  intro hfull
  exact Nat.lt_irrefl _ (h.1 _ hfull)

/-- What a demand is after it was given a worker. -/
def WorkersDemand.provide (demand : WorkersDemand) : WorkersDemand :=
  { demand with providedWorkers := wrappingAdd 32 demand.providedWorkers 1 }

/-- No demand wants any of these workers. -/
def Unwanted (workers : Slab Node) (demands : LinkedVecMap WorkersDemand) (ws : List Id) : Prop :=
  ∀ w ∈ ws, ∀ worker, workers.get w = some worker →
    ∀ i demand, demands.get i = some demand → ¬ demand.Wants worker.platform

instance (workers : Slab Node) (demands : LinkedVecMap WorkersDemand) (ws : List Id) :
    Decidable (Unwanted workers demands ws) :=
  decidable_of_iff (∀ w ∈ ws, ∀ worker ∈ workers.get w, ∀ entry ∈ demands.entries,
    ¬ entry.2.Wants worker.platform) (by
      simp only [Unwanted, Option.mem_def, LinkedVecMap.get_eq_some, Prod.forall])

/-- Each worker in turn has a demand that takes it, the first of which is given the worker; or it
has none, and no demand wants one of those after it. -/
def Unblocked (workers : Slab Node) : List Id → LinkedVecMap WorkersDemand → Prop
  | [], _ => True
  | w :: ws, demands =>
    match workers.get w with
    | none => Unwanted workers demands ws
    | some worker =>
      match demands.entries.find? fun entry => entry.2.takes worker.platform with
      | none => Unwanted workers demands ws
      | some (i, demand) => Unblocked workers ws (demands.write i demand.provide)

/-- A worker that no demand takes is not wanted. -/
theorem unwanted_cons {demands : LinkedVecMap WorkersDemand} {w : Id}
    (h : ∀ worker, workers.get w = some worker →
      demands.entries.find? (fun entry => entry.2.takes worker.platform) = none) :
    Unwanted workers demands (w :: ws) ↔ Unwanted workers demands ws := by
  constructor
  · exact fun hall k hk => hall k (List.mem_cons_of_mem _ hk)
  · intro hrest k hk
    cases List.mem_cons.mp hk with
    | inr hk => exact hrest k hk
    | inl heq =>
      subst heq
      intro worker hworker i demand hd hwants
      have hnone := List.find?_eq_none.mp (h worker hworker) (i, demand)
        (LinkedVecMap.get_eq_some.mp hd)
      exact hnone (WorkersDemand.takes_of_wants hwants)

instance Unblocked.decidable (workers : Slab Node) : ∀ (ws : List Id)
    (demands : LinkedVecMap WorkersDemand), Decidable (Unblocked workers ws demands)
  | [], _ => .isTrue trivial
  | w :: ws, demands =>
    match hw : workers.get w with
    | none => decidable_of_iff (Unwanted workers demands ws) (by simp only [Unblocked, hw])
    | some worker =>
      match hf : demands.entries.find? fun entry => entry.2.takes worker.platform with
      | none => decidable_of_iff (Unwanted workers demands ws) (by simp only [Unblocked, hw, hf])
      | some (i, demand) =>
        have := Unblocked.decidable workers ws (demands.write i demand.provide)
        decidable_of_iff (Unblocked workers ws (demands.write i demand.provide))
          (by simp only [Unblocked, hw, hf])

/-- The first loop ends with a worker that is wanted exactly when the front one stood in its
way. -/
theorem matchWorkers_unwanted {m m' : Matching} (waiting : m.unassignedWorkers.keys = ws)
    (h : matchWorkers checks workers ws.length m = .ok m') :
    Unwanted workers m'.demands m'.unassignedWorkers.keys ↔ Unblocked workers ws m.demands := by
  induction ws generalizing m with
  | nil =>
    simp only [List.length_nil, matchWorkers, Except.ok.injEq] at h
    subst h
    rw [waiting]
    simp [Unwanted, Unblocked]
  | cons w ws ih =>
    have hfront : m.unassignedWorkers.front = some (w, ()) := by
      unfold LinkedVecMap.front
      unfold LinkedVecMap.keys at waiting
      cases hm : m.unassignedWorkers.entries with
      | nil =>
        rw [hm] at waiting
        cases waiting
      | cons e es =>
        rw [hm, List.map_cons, List.cons.injEq] at waiting
        rw [List.head?_cons, ← waiting.1]
    have hrest : m.unassignedWorkers.popFront.keys = ws := by
      rw [LinkedVecMap.keys, LinkedVecMap.entries_of_front hfront, List.map_cons,
        List.cons.injEq] at waiting
      exact waiting.2
    simp only [List.length_cons, matchWorkers, hfront] at h
    simp only [Unblocked]
    cases hw : workers.get w with
    | none =>
      simp only [hw, Except.ok.injEq] at h
      subst h
      rw [waiting, unwanted_cons]
      intro worker hworker
      rw [hw] at hworker
      cases hworker
    | some worker =>
      simp only [hw] at h
      dsimp only
      cases hf : m.demands.entries.find? fun entry => entry.2.takes worker.platform with
      | none =>
        simp only [hf, Except.ok.injEq] at h
        subst h
        rw [waiting, unwanted_cons]
        intro worker' hworker
        rw [hw, Option.some.injEq] at hworker
        exact hworker ▸ hf
      | some entry =>
        obtain ⟨i, demand⟩ := entry
        simp only [hf, bind_ok] at h
        obtain ⟨provided, hadd, h⟩ := h
        rw [addBits_ok hadd] at h
        exact ih hrest h

@[simp] theorem Node.send_platform (node : Node) (request : NodeRequest) :
    (node.send request).1.platform = node.platform :=
  congrArg Prod.fst (node.send_duty request)

/-- Assigning a worker does not change what it is. -/
theorem assignWorker_platform {i w : Id} {a a' : Assigning} (h : assignWorker i a w = .ok a') :
    tally a'.workers Node.platform = tally a.workers Node.platform := by
  obtain ⟨worker, hindex, _⟩ := bind_ok.mp h
  have hworker := index_ok.mp hindex
  rw [assignWorker_eq hworker, Except.ok.injEq] at h
  subst h
  apply tally_write_same hworker
  rw [Node.send_platform]

/-- The second loop leaves the demands and the workers that wait as they are. -/
theorem assignWorkers_keeps {entry : Id × List Id} {r r' : State × List Sent}
    (h : assignWorkers r entry = .ok r') :
    r'.1.unassignedWorkers = r.1.unassignedWorkers ∧
      r'.1.workersDemandsQueue = r.1.workersDemandsQueue ∧
      tally r'.1.workers Node.platform = tally r.1.workers Node.platform := by
  obtain ⟨scheduler, hindex, hrest⟩ := bind_ok.mp h
  obtain ⟨a, hloop, _⟩ := bind_ok.mp hrest
  rw [assignWorkers_eq (index_ok.mp hindex) hloop, Except.ok.injEq] at h
  subst h
  refine ⟨rfl, rfl, ?_⟩
  exact foldlM_invariant (I := fun _ a => tally a.workers Node.platform =
    tally r.1.workers Node.platform)
    (fun w _ a a' ha h => (assignWorker_platform h).trans ha) rfl hloop

namespace State
variable {s t u : State} {es : List Event} {out out' : List Sent}

/-- No worker waits that a demand wants. -/
def NoneIdle (s : State) : Prop :=
  ∀ w ∈ s.unassignedWorkers, ∀ worker, s.workers.get w = some worker →
    ∀ i demand, s.workersDemandsQueue.get i = some demand → ¬ demand.Wants worker.platform

theorem noneIdle_iff :
    s.NoneIdle ↔ Unwanted s.workers s.workersDemandsQueue s.unassignedWorkers.keys := by
  simp only [NoneIdle, Unwanted, LinkedVecSet.mem_keys]

instance (s : State) : Decidable s.NoneIdle := decidable_of_iff _ noneIdle_iff.symm

theorem unwanted_of_platforms {workers' : Slab Node} {demands : LinkedVecMap WorkersDemand}
    (h : tally workers' Node.platform = tally workers Node.platform)
    (hw : Unwanted workers demands ws) : Unwanted workers' demands ws := by
  intro w hmem worker hworker i demand hd
  have hplatform : tally workers Node.platform w = some worker.platform := by
    rw [← h]
    simp [tally, hworker]
  obtain ⟨worker', hworker', heq⟩ := Option.map_eq_some_iff.mp hplatform
  rw [← heq]
  exact hw w hmem worker' hworker' i demand hd

/-- After `process_queue` no worker is left idle if and only if the workers were not blocked: in the
order in which they wait, none that no demand takes stands before one that is wanted. -/
theorem processQueue_noneIdle (h : s.step checks .processQueue = .ok (t, out)) :
    t.NoneIdle ↔ Unblocked s.workers s.unassignedWorkers.keys s.workersDemandsQueue := by
  simp only [step] at h
  split at h
  · simp only [processQueue, bind_ok] at h
    obtain ⟨m, hm, hloop⟩ := h
    have hlen : s.unassignedWorkers.len = s.unassignedWorkers.keys.length := by
      rw [LinkedVecMap.keys, List.length_map, LinkedVecMap.len]
    rw [hlen] at hm
    refine Iff.trans ?_ (matchWorkers_unwanted
      (m := ⟨s.unassignedWorkers, s.workersDemandsQueue, []⟩) rfl hm)
    obtain ⟨hwaiting, hdemands, hplatforms⟩ := foldlM_invariant (f := assignWorkers)
      (I := fun _ r => r.1.unassignedWorkers = m.unassignedWorkers ∧
        r.1.workersDemandsQueue = m.demands ∧
        tally r.1.workers Node.platform = tally s.workers Node.platform)
      (fun entry _ r r' hr h => by
        obtain ⟨h₁, h₂, h₃⟩ := assignWorkers_keeps h
        exact ⟨h₁.trans hr.1, h₂.trans hr.2.1, h₃.trans hr.2.2⟩) ⟨rfl, rfl, rfl⟩ hloop
    rw [noneIdle_iff, hwaiting, hdemands]
    constructor
    · exact unwanted_of_platforms hplatforms.symm
    · exact unwanted_of_platforms hplatforms
  · cases h

/-- Workers of one platform never block each other. -/
theorem unblocked_of_platform {platform : Platform} {demands : LinkedVecMap WorkersDemand}
    (h : ∀ w ∈ ws, ∃ worker, workers.get w = some worker ∧ worker.platform = platform) :
    Unblocked workers ws demands := by
  induction ws generalizing demands with
  | nil => trivial
  | cons w ws ih =>
    obtain ⟨worker, hw, hp⟩ := h w List.mem_cons_self
    have hrest : ∀ k ∈ ws, ∃ worker, workers.get k = some worker ∧ worker.platform = platform :=
      fun k hk => h k (List.mem_cons_of_mem _ hk)
    simp only [Unblocked, hw]
    cases hf : demands.entries.find? fun entry => entry.2.takes worker.platform with
    | some entry => exact ih hrest
    | none =>
      intro k hk worker' hworker' i demand hd hwants
      obtain ⟨worker'', hworker'', hp''⟩ := hrest k hk
      rw [hworker', Option.some.injEq] at hworker''
      rw [hworker'', hp'', ← hp] at hwants
      exact List.find?_eq_none.mp hf (i, demand) (LinkedVecMap.get_eq_some.mp hd)
        (WorkersDemand.takes_of_wants hwants)

theorem processQueue_noneIdle_serving : ∃ s t : State, ∃ out,
    s.step true .processQueue = .ok (t, out) ∧ t.NoneIdle ∧ 0 ∉ t.unassignedWorkers := by
  obtain ⟨s, _, _, h⟩ := exists_run (State.step true) (fun _ _ => True) .new serving.dropLast
    (fun r => Unblocked r.1.workers r.1.unassignedWorkers.keys r.1.workersDemandsQueue ∧
      (r.1.step true .processQueue).toOption.any fun r => 0 ∉ r.1.unassignedWorkers) (by decide)
  rw [decide_eq_true_eq] at h
  cases hs : s.step true .processQueue with
  | error fault => simp [hs, Except.toOption] at h
  | ok r =>
    obtain ⟨t, out⟩ := r
    refine ⟨s, t, out, hs, (processQueue_noneIdle hs).mpr h.1, ?_⟩
    simpa [hs, Except.toOption] using h.2

/-- A node that nobody wants connects before one that is wanted. -/
def blocked : List Event :=
  [.node (.connect 1 none ⟨.x86_64, .windows, .windows⟩ 1 ⟨[], 0⟩ 0) ⟨0, 0⟩,
    .node (.connect 2 none linux 1 ⟨[], 0⟩ 1) ⟨1, 1⟩,
    .scheduler (.connect 3 none ⟨[], 0⟩ 2) ⟨0, 2⟩,
    .scheduler (.message 0 (.workersDemand none [linux])) ⟨0, 2⟩]

theorem processQueue_leaves_idle : ¬ ∀ es out t u out',
    Run (State.step true) (fun _ _ => True) .new es out t →
      t.step true .processQueue = .ok (u, out') → u.NoneIdle := by
  intro h
  obtain ⟨t, out, run, hidle⟩ := exists_run (State.step true) (fun _ _ => True) .new blocked
    (fun r => (r.1.step true .processQueue).toOption.any fun r => ¬ r.1.NoneIdle) (by decide)
  cases ht : t.step true .processQueue with
  | error fault => simp [ht, Except.toOption] at hidle
  | ok r =>
    have hnone := h blocked out t r.1 r.2 run ht
    simp [ht, Except.toOption, hnone] at hidle

end State
end GridServer.NodeManager
