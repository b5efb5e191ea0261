import GridServer.NodeWorker.Restarts

namespace GridServer.NodeWorker
open Library

/-! What becomes of the tasks that a request names. -/

/-- The tasks that an error gives back. -/
def listed : Option WorkerError → List TaskId
  | none => []
  | some (.taskExecutionError taskId _) => [taskId]
  | some (.libraryMissing tasks replacements) => tasks ++ replacements.map Prod.snd
  | some (.noFreeExecutors tasks) => tasks

/-- Every task of the request is assigned or given back. -/
def Accounted {M : Type} (s : State M) (request : WorkerRequest) (error : Option WorkerError) :
    Prop :=
  ∀ id ∈ request.named,
    (∃ executorId, s.assignments.lookup (request.job, id) = some executorId) ∨ id ∈ listed error

/-- A task that no replacement names stays as it was. -/
theorem mem_heldAfter_of_not_named {held : Finset TaskId}
    {replacements : List (TaskId × WorkerTask)} {id : TaskId} (hold : id ∉ replacements.map Prod.fst)
    (hnew : id ∉ replacements.map fun r => r.2.id) :
    id ∈ heldAfter held replacements ↔ id ∈ held := by
  induction replacements generalizing held with
  | nil => exact Iff.rfl
  | cons replacement replacements ih =>
    obtain ⟨replaceTaskId, task⟩ := replacement
    simp only [List.map_cons, List.mem_cons, not_or] at hold hnew
    unfold heldAfter
    split
    · rw [ih hold.2 hnew.2, Finset.mem_insert, Finset.mem_erase]
      simp [hold.1, hnew.1]
    · exact ih hold.2 hnew.2

/-- Where the new tasks are new, all of them come to be assigned if and only if every replaced task
is still assigned, and replaced once. -/
theorem all_heldAfter_iff {held : Finset TaskId} {replacements : List (TaskId × WorkerTask)}
    (distinct : (replacements.map fun r => r.2.id).Nodup)
    (new : ∀ r ∈ replacements, r.2.id ∉ held ∧ r.2.id ∉ replacements.map Prod.fst) :
    (∀ r ∈ replacements, r.2.id ∈ heldAfter held replacements) ↔
      (replacements.map Prod.fst).Nodup ∧ ∀ r ∈ replacements, r.1 ∈ held := by
  induction replacements generalizing held with
  | nil => simp
  | cons replacement replacements ih =>
    obtain ⟨replaceTaskId, task⟩ := replacement
    simp only [List.map_cons, List.nodup_cons] at distinct
    rw [List.forall_mem_cons] at new
    simp only [List.map_cons, List.mem_cons, not_or] at new
    obtain ⟨⟨hnotheld, _, hnotold⟩, hrest⟩ := new
    unfold heldAfter
    simp only [List.forall_mem_cons, List.map_cons, List.nodup_cons]
    split
    · rename_i hheld
      have hlater : ∀ r ∈ replacements, r.2.id ∉ insert task.id (held.erase replaceTaskId) ∧
          r.2.id ∉ replacements.map Prod.fst := by
        intro r hr
        obtain ⟨hr1, _, hr3⟩ := hrest r hr
        have hne : r.2.id ≠ task.id := fun he => distinct.1 (List.mem_map.mpr ⟨r, hr, he⟩)
        rw [Finset.mem_insert, Finset.mem_erase]
        exact ⟨fun h => h.elim hne fun h => hr1 h.2, hr3⟩
      have hfirst : task.id ∈ heldAfter (insert task.id (held.erase replaceTaskId)) replacements :=
        (mem_heldAfter_of_not_named hnotold distinct.1).mpr (Finset.mem_insert_self _ _)
      rw [ih distinct.2 hlater]
      constructor
      · intro h
        obtain ⟨_, hnodup, hall⟩ := h
        have hstill : ∀ r ∈ replacements, r.1 ≠ replaceTaskId ∧ r.1 ∈ held := by
          intro r hr
          have hne : r.1 ≠ task.id := fun he => hnotold (List.mem_map.mpr ⟨r, hr, he⟩)
          have hmem := hall r hr
          rw [Finset.mem_insert, Finset.mem_erase] at hmem
          exact hmem.resolve_left hne
        refine ⟨⟨?_, hnodup⟩, hheld, fun r hr => (hstill r hr).2⟩
        intro hmem
        obtain ⟨r, hr, he⟩ := List.mem_map.mp hmem
        exact (hstill r hr).1 he
      · intro h
        obtain ⟨⟨hnot, hnodup⟩, _, hall⟩ := h
        refine ⟨hfirst, hnodup, fun r hr => ?_⟩
        have hne : r.1 ≠ replaceTaskId := fun he => hnot (List.mem_map.mpr ⟨r, hr, he⟩)
        exact Finset.mem_insert_of_mem (Finset.mem_erase.mpr ⟨hne, hall r hr⟩)
    · rename_i hheld
      have hfirst : task.id ∉ heldAfter held replacements := fun h =>
        hnotheld ((mem_heldAfter_of_not_named hnotold distinct.1).mp h)
      constructor
      · intro h
        exact absurd h.1 hfirst
      · intro h
        exact absurd h.2.1 hheld

namespace State
variable {M : Type} {s : State M}

/-- Every new task of a replacement is assigned after the replacements, or one of the request's
tasks. -/
def Deliverable (s : State M) (request : WorkerRequest) : Prop :=
  s.Missing request ∨ ∀ replacement ∈ request.replacements,
    replacement.2.id ∈ heldAfter (s.held request.job) request.replacements ∨
      replacement.2.id ∈ request.tasks.map WorkerTask.id

/-- For new tasks that are new to the worker, the request and each other, this says that every
replaced task is still assigned, and replaced once. -/
theorem deliverable_iff {request : WorkerRequest}
    (distinct : (request.replacements.map fun r => r.2.id).Nodup)
    (new : ∀ r ∈ request.replacements, r.2.id ∉ s.held request.job ∧
      r.2.id ∉ request.replacements.map Prod.fst ∧ r.2.id ∉ request.tasks.map WorkerTask.id) :
    s.Deliverable request ↔ s.Missing request ∨ ((request.replacements.map Prod.fst).Nodup ∧
      ∀ r ∈ request.replacements, r.1 ∈ s.held request.job) := by
  refine or_congr_right ?_
  rw [← all_heldAfter_iff distinct fun r hr => ⟨(new r hr).1, (new r hr).2.1⟩]
  exact forall_congr' fun r => forall_congr' fun hr => or_iff_left (new r hr).2.2

/-- Every executor on the free list is there. -/
def FreeLive (s : State M) : Prop := ∀ id, id ∈ s.freeExecutors → id ∈ s.executors

theorem Live.free (h : s.Live) : s.FreeLive := fun id hid => h id (List.mem_append_left _ hid)

theorem accounted_iff {request : WorkerRequest} {error : Option WorkerError} :
    Accounted s request error ↔
      ∀ id ∈ request.named, id ∈ s.held request.job ∨ id ∈ listed error := by
  refine forall_congr' fun id => forall_congr' fun _ => or_congr_left ?_
  rw [mem_held, ← AList.lookup_isSome, Option.isSome_iff_exists]

/-- A request that is turned down gives back all its tasks. -/
theorem accounted_libraryMissing (request : WorkerRequest) :
    Accounted s request (some (libraryMissing request)) := by
  intro id hid
  refine .inr ?_
  simpa [WorkerRequest.named, listed, libraryMissing] using hid

/-- The last stage assigns the tasks that find an executor, and gives back the others. -/
theorem tasksAssignment_accounts (hlive : s.FreeLive) (job : Uuid) (tasks : List WorkerTask) :
    (∀ id ∈ tasks.map WorkerTask.id, id ∈ (s.tasksAssignment job tasks).1.held job ∨
      id ∈ listed (s.tasksAssignment job tasks).2.2) ∧
    (∀ id, id ∈ (s.tasksAssignment job tasks).1.held job →
      id ∈ s.held job ∨ id ∈ tasks.map WorkerTask.id) ∧
    (∀ id ∈ s.held job, id ∈ (s.tasksAssignment job tasks).1.held job) ∧
    ∀ id ∈ listed (s.tasksAssignment job tasks).2.2, id ∈ tasks.map WorkerTask.id := by
  induction tasks generalizing s with
  | nil => simp [tasksAssignment, listed]
  | cons task tasks ih =>
    rcases List.eq_nil_or_concat' s.freeExecutors with hnil | ⟨front, id, hfree⟩
    · rw [tasksAssignment_stop hnil]
      have hback : ∀ id, id ∈ listed (some (.noFreeExecutors
          ((task :: tasks).reverse.map WorkerTask.id))) ↔
            id ∈ (task :: tasks).map WorkerTask.id := by
        intro id
        rw [listed, List.map_reverse, List.mem_reverse]
      exact ⟨fun id hid => .inr ((hback id).mpr hid), fun id hid => .inl hid, fun id hid => hid,
        fun id hid => (hback id).mp hid⟩
    · obtain ⟨t, ht⟩ : ∃ t, t = ({ s with freeExecutors := front } : State M) := ⟨_, rfl⟩
      have hid : id ∈ t.executors := ht ▸ hlive id (by simp [hfree])
      have hheld : (t.assign id job task []).1.held job = insert task.id (s.held job) := by
        rw [held_assign hid .., ht]
        rfl
      have hlive' : (t.assign id job task []).1.FreeLive := by
        intro x hx
        rw [(assign_lookup hid ..).1, ht] at hx
        rw [(assign_lookup hid ..).2.1, ht]
        exact hlive x (by rw [hfree]; exact List.mem_append_left _ hx)
      obtain ⟨hall, hfrom, hkeep, hback⟩ := ih hlive'
      rw [tasksAssignment_next hfree job task tasks ht]
      simp only [List.map_cons, List.mem_cons]
      refine ⟨?_, ?_, ?_, ?_⟩
      · intro x hx
        rcases hx with rfl | hx
        · exact .inl (hkeep _ (by rw [hheld]; exact Finset.mem_insert_self _ _))
        · exact hall x hx
      · intro x hx
        rcases hfrom x hx with hold | htask
        · rw [hheld, Finset.mem_insert] at hold
          rcases hold with he | hold
          · exact .inr (.inl he)
          · exact .inl hold
        · exact .inr (.inr htask)
      · intro x hx
        exact hkeep x (by rw [hheld]; exact Finset.mem_insert_of_mem hx)
      · intro x hx
        exact .inr (hback x hx)

/-- After the replacements, a request accounts for its tasks if and only if their new tasks are
assigned or come again. -/
theorem accounted_tasks (hlive : s.FreeLive) {request : WorkerRequest} {held : Finset TaskId}
    (hheld : s.held request.job = heldAfter held request.replacements) :
    Accounted (s.tasksAssignment request.job request.tasks.reverse).1 request
        (s.tasksAssignment request.job request.tasks.reverse).2.2 ↔
      ∀ replacement ∈ request.replacements,
        replacement.2.id ∈ heldAfter held request.replacements ∨
          replacement.2.id ∈ request.tasks.map WorkerTask.id := by
  obtain ⟨hall, hfrom, hkeep, hback⟩ :=
    tasksAssignment_accounts hlive request.job request.tasks.reverse
  have hreverse : ∀ id, id ∈ request.tasks.reverse.map WorkerTask.id ↔
      id ∈ request.tasks.map WorkerTask.id := by simp
  rw [accounted_iff]
  constructor
  · intro accounted replacement hmem
    have hnamed : replacement.2.id ∈ request.named :=
      List.mem_append_right _ (List.mem_map.mpr ⟨replacement, hmem, rfl⟩)
    rw [← hheld, ← hreverse]
    rcases accounted _ hnamed with hassigned | hlisted
    · exact hfrom _ hassigned
    · exact .inr (hback _ hlisted)
  · intro deliverable id hid
    rcases List.mem_append.mp hid with htask | hnew
    · exact hall id ((hreverse id).mpr htask)
    · obtain ⟨replacement, hmem, rfl⟩ := List.mem_map.mp hnew
      rcases deliverable replacement hmem with hassigned | htask
      · exact .inl (hkeep _ (hheld ▸ hassigned))
      · exact hall _ ((hreverse _).mpr htask)

end State

namespace WasmWorker
variable {s t : WasmWorker}

theorem step_live {e : WasmEvent} {out : List Sent} (hs : s.Live)
    (taken : step s e = .ok (t, out)) : t.Live := by
  cases e with
  | request request =>
    simp only [step, Except.ok.injEq, Prod.mk.injEq] at taken
    rw [← taken.1]
    rcases processModule_cases s request with ⟨_, herror⟩ | ⟨_, jobCache, jobArgs, hok⟩
    · rw [processRequest, herror]
      exact hs
    · rw [processRequest, hok]
      obtain ⟨u, hu⟩ : ∃ u : WasmWorker, u = { s with jobCache := jobCache, jobArgs := jobArgs } :=
        ⟨_, rfl⟩
      have hlive : u.Live := hu ▸ hs
      have hmoved := (processTaskReplacement_moved hlive request.job request.replacements).1
      rw [← hu]
      exact (State.tasksAssignment_moved (hmoved.live hlive) request.job
        request.tasks.reverse).live (hmoved.live hlive)
  | message executorId result =>
    simp only [step] at taken
    split at taken
    · obtain ⟨hexecutors, hperm⟩ := State.finish_pool (s := s) result
      have hfinish : (s.finish result).1 = t := congrArg Prod.fst (Except.ok.inj taken)
      rw [hfinish] at hexecutors hperm
      intro id hid
      rw [hexecutors]
      exact hs id (hperm.mem_iff.mp hid)
    · cases taken
  | reset drained =>
    simp only [step] at taken
    split at taken
    · rename_i hdrained
      simp only [reset, Except.ok.injEq, Prod.mk.injEq] at taken
      rw [← taken.1]
      intro id hid
      simp only [State.pool, State.busyExecutors, AList.empty_entries, List.map_nil,
        List.append_nil] at hid
      exact hs id (((State.drained_perm hdrained).append_left _).mem_iff.mp hid)
    · cases taken
  | compiled job bytes =>
    simp only [step, compile, Except.ok.injEq, Prod.mk.injEq] at taken
    rw [← taken.1]
    exact hs

theorem processRequest_accounted (hs : s.Live) (request : WorkerRequest) :
    Accounted (processRequest s request).1 request (processRequest s request).2.2 ↔
      s.Deliverable request := by
  rcases processModule_cases s request with ⟨missing, herror⟩ | ⟨present, jobCache, jobArgs, hok⟩
  · rw [processRequest, herror]
    exact iff_of_true (State.accounted_libraryMissing request) (.inl missing)
  · obtain ⟨u, hu⟩ : ∃ u : WasmWorker, u = { s with jobCache := jobCache, jobArgs := jobArgs } :=
      ⟨_, rfl⟩
    have hlive : u.Live := hu ▸ hs
    have hheld : u.held request.job = s.held request.job := hu ▸ rfl
    obtain ⟨hmoved, hheld', _⟩ :=
      processTaskReplacement_moved hlive request.job request.replacements
    rw [hheld] at hheld'
    rw [processRequest, hok, ← hu]
    exact (State.accounted_tasks (hmoved.live hlive).free hheld').trans (or_iff_right present).symm

end WasmWorker

namespace DllWorker
variable {s t : DllWorker}

/-- Whatever is restarted, the executor that is started is there. -/
theorem restartExecutor_there {id id' : ExecutorId} {out : List Sent}
    {processIds rest : List ExecutorId} (hlive : s.FreeLive)
    (hrestart : restartExecutor s id processIds = .ok (t, id', out, rest)) :
    t.FreeLive ∧ t.assignments = s.assignments ∧ id' ∈ t.executors := by
  by_cases hid : id ∈ s.executors
  · obtain ⟨_, _, rfl⟩ := restartExecutor_ok hid hrestart
    refine ⟨fun x hx => ?_, rfl, Finset.mem_insert_self _ _⟩
    rw [List.mem_filter] at hx
    exact Finset.mem_insert_of_mem (Finset.mem_erase.mpr ⟨by simpa using hx.2, hlive x hx.1⟩)
  · simp only [restartExecutor, stopExecutor, if_neg hid, bind_ok, except_pure, Except.ok.injEq,
      Prod.mk.injEq] at hrestart
    obtain ⟨⟨u, started, _, later⟩, hstart, rfl, rfl, _, rfl⟩ := hrestart
    obtain ⟨_, _, rfl⟩ := startExecutor_ok hstart
    exact ⟨fun x hx => Finset.mem_insert_of_mem (hlive x hx), rfl, Finset.mem_insert_self _ _⟩

theorem processTaskReplacement_held {job : Uuid} {replacements : List (TaskId × WorkerTask)}
    {processIds : List ExecutorId} {out : List Sent} (hlive : s.FreeLive)
    (hok : processTaskReplacement s job replacements processIds = .ok (t, out)) :
    t.FreeLive ∧ t.held job = heldAfter (s.held job) replacements := by
  induction replacements generalizing s processIds out with
  | nil =>
    simp only [processTaskReplacement, Except.ok.injEq, Prod.mk.injEq] at hok
    exact hok.1 ▸ ⟨hlive, rfl⟩
  | cons replacement replacements ih =>
    obtain ⟨replaceTaskId, task⟩ := replacement
    unfold heldAfter
    unfold processTaskReplacement at hok
    cases hlookup : s.assignments.lookup (job, replaceTaskId) with
    | none =>
      have hnot : replaceTaskId ∉ s.held job := State.not_held_of_lookup hlookup
      rw [hlookup] at hok
      rw [if_neg hnot]
      exact ih hlive hok
    | some id =>
      have hheld : replaceTaskId ∈ s.held job := State.held_of_lookup hlookup
      simp only [hlookup, bind_ok, except_pure, Except.ok.injEq, Prod.mk.injEq, Prod.exists] at hok
      obtain ⟨u, id', restarted, rest, hrestart, v, out', hlater, rfl, _⟩ := hok
      have hlive' : (State.unassign s (job, replaceTaskId)).FreeLive := hlive
      obtain ⟨hliveu, hassigned, hid'⟩ := restartExecutor_there hlive' hrestart
      obtain ⟨hfreea, hexecutorsa, _⟩ := State.assign_lookup hid' job task []
      have hheldu : u.held job = (s.held job).erase replaceTaskId := by
        rw [← State.held_unassign, State.held, hassigned]
        rfl
      have hlivea : (u.assign id' job task []).1.FreeLive := by
        intro x hx
        rw [hexecutorsa]
        exact hliveu x (hfreea ▸ hx)
      rw [if_pos hheld, ← hheldu, ← State.held_assign hid' job task []]
      exact ih hlivea hlater

theorem processRequest_accounted (hlive : s.FreeLive) {request : WorkerRequest}
    {processIds : List ExecutorId} {out : List Sent} {error : Option WorkerError}
    (hok : processRequest s request processIds = .ok (t, out, error)) :
    Accounted t request error ↔ s.Deliverable request := by
  rcases processLibrary_cases s request with ⟨missing, herror⟩ |
    ⟨present, jobCache, jobArgs, cached, hlibrary⟩
  · simp only [processRequest, herror, Except.ok.injEq, Prod.mk.injEq] at hok
    obtain ⟨rfl, _, rfl⟩ := hok
    exact iff_of_true (State.accounted_libraryMissing request) (.inl missing)
  · simp only [processRequest, hlibrary, bind_ok, except_pure, Except.ok.injEq, Prod.mk.injEq,
      Prod.exists] at hok
    obtain ⟨u, out', hreplaced, rfl, _, rfl⟩ := hok
    obtain ⟨v, hv⟩ : ∃ v : DllWorker, v = { s with jobCache := jobCache, jobArgs := jobArgs } :=
      ⟨_, rfl⟩
    rw [← hv] at hreplaced
    have hlive' : v.FreeLive := hv ▸ hlive
    have hheld : v.held request.job = s.held request.job := hv ▸ rfl
    obtain ⟨hliveu, hheldu⟩ := processTaskReplacement_held hlive' hreplaced
    rw [hheld] at hheldu
    exact (State.accounted_tasks hliveu hheldu).trans (or_iff_right present).symm

end DllWorker

/-- A request accounts for all its tasks, in every state that the worker can be in, if and only if
each new task of a replacement is assigned after the replacements or comes among the request's
tasks. For a `DllWorker` every executor on the free list has to be there. -/
theorem request_accounted (executorsNum : Nat) (processIds : List ExecutorId) :
    (∀ es out s, Run WasmWorker.step (fun _ _ => True) (WasmWorker.new executorsNum) es out s →
      ∀ request, Accounted (WasmWorker.processRequest s request).1 request
        (WasmWorker.processRequest s request).2.2 ↔ s.Deliverable request) ∧
    ∀ es out s, Run DllWorker.step (fun _ _ => True) (DllWorker.new processIds) es out s →
      s.FreeLive → ∀ request started s' out' error,
        DllWorker.processRequest s request started = .ok (s', out', error) →
          (Accounted s' request error ↔ s.Deliverable request) := by
  constructor
  · intro es out s run request
    have hs : s.Live := run.preserves (State.live_start _)
      fun t e u out' ht _ taken => WasmWorker.step_live ht taken
    exact WasmWorker.processRequest_accounted hs request
  · intro es out s run hlive request started s' out' error hok
    exact DllWorker.processRequest_accounted hlive hok

/-- A replacement crosses the result of the task that it replaces: its new task is dropped. -/
theorem crossed_replacement_dropped :
    ¬∀ executorsNum es out s, Run WasmWorker.step (fun _ _ => True) (WasmWorker.new executorsNum)
      es out s → ∀ request, Accounted (WasmWorker.processRequest s request).1 request
        (WasmWorker.processRequest s request).2.2 := by
  intro hall
  obtain ⟨s, out, run, hdropped⟩ := exists_run WasmWorker.step (fun _ _ => True) (WasmWorker.new 1)
    [.request { job := 0, jobData := some ([], []), replacements := [], tasks := [⟨5, []⟩] },
      .message 0 { jobId := 0, taskId := 5, executionTime := 0, result := .ok [] }]
    (fun r => decide ((WasmWorker.processRequest r.1 ⟨0, none, [(5, ⟨6, []⟩)], []⟩).2.2 = none ∧
      (WasmWorker.processRequest r.1 ⟨0, none, [(5, ⟨6, []⟩)], []⟩).1.assignments.lookup
        (0, 6) = none)) (by decide)
  rw [decide_eq_true_eq] at hdropped
  rcases hall 1 _ out s run ⟨0, none, [(5, ⟨6, []⟩)], []⟩ 6 (by decide) with ⟨id, hid⟩ | hlisted
  · rw [hdropped.2] at hid
    cases hid
  · rw [hdropped.1] at hlisted
    cases hlisted

end GridServer.NodeWorker
