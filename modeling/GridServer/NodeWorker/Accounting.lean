import GridServer.NodeWorker.Node

namespace GridServer.NodeWorker
open Library

/-! Both workers answer each task once for every time that it is named. -/

/-- The ids of the tasks that are assigned, of whatever jobs. -/
def State.heldTasks {M : Type} (s : State M) : List TaskId := s.assignments.keys.map Prod.snd

section
variable {M : Type} {s : State M} {job : Uuid} {key : Key} {id : ExecutorId} {out : List Sent}

theorem answers_append (out out' : List Sent) : answers (out ++ out') = answers out ++ answers out' :=
  List.filterMap_append ..

theorem keys_erase_perm {a : AList fun _ : Key => ExecutorId} (h : a.lookup key = some id) :
    (key :: (a.erase key).keys).Perm a.keys := by
  have hkey : key ∈ a.keys := by
    rw [← AList.mem_keys, ← AList.lookup_isSome, h]
    rfl
  rw [AList.keys_erase]
  exact (@List.perm_cons_erase Key instBEqOfDecidableEq _ _ _ hkey).symm

theorem heldTasks_erase {a : AList fun _ : Key => ExecutorId} (h : a.lookup key = some id) :
    (key.2 :: (a.erase key).keys.map Prod.snd).Perm (a.keys.map Prod.snd) :=
  (keys_erase_perm h).map Prod.snd

theorem heldTasks_insert (a : AList fun _ : Key => ExecutorId) (key : Key) (id : ExecutorId) :
    ((a.insert key id).keys.map Prod.snd).Subperm (key.2 :: a.keys.map Prod.snd) := by
  rw [AList.keys_insert, List.map_cons, List.subperm_cons]
  exact ((@List.erase_sublist Key instBEqOfDecidableEq key a.keys).map Prod.snd).subperm

/-- A task that is assigned is one more at most. -/
theorem State.assign_heldTasks (s : State M) (id : ExecutorId) (job : Uuid) (task : WorkerTask)
    (before : List Sent) :
    (s.assign id job task before).1.heldTasks.Subperm (task.id :: s.heldTasks) := by
  unfold State.assign
  split
  · exact heldTasks_insert s.assignments (job, task.id) id
  · exact (List.sublist_cons_self ..).subperm

theorem State.assign_answers (s : State M) (id : ExecutorId) (job : Uuid) (task : WorkerTask)
    {before : List Sent} (h : answers before = []) : answers (s.assign id job task before).2 = [] := by
  unfold State.assign
  split
  · dsimp only
    rw [answers_append, h, List.nil_append, answers, List.filterMap_eq_nil_iff]
    intro sent hsent
    obtain ⟨_, _, rfl⟩ := List.mem_map.mp hsent
    rfl
  · rfl

/-- The tasks are assigned or given back. -/
theorem State.tasksAssignment_heldTasks (s : State M) (job : Uuid) (tasks : List WorkerTask) :
    answers (s.tasksAssignment job tasks).2.1 = [] ∧
      (listed (s.tasksAssignment job tasks).2.2 ++ (s.tasksAssignment job tasks).1.heldTasks).Subperm
        (s.heldTasks ++ tasks.map WorkerTask.id) := by
  induction tasks generalizing s with
  | nil => exact ⟨rfl, by simpa [tasksAssignment, listed] using List.Subperm.refl _⟩
  | cons task tasks ih =>
    rcases List.eq_nil_or_concat s.freeExecutors with hnone | ⟨front, executorId, hfree⟩
    · rw [tasksAssignment_stop hnone]
      refine ⟨rfl, ?_⟩
      refine List.Perm.subperm (List.perm_append_comm.trans ?_)
      exact List.Perm.append_left _ ((List.reverse_perm _).map _)
    · rw [tasksAssignment_next (by simpa using hfree) job task tasks rfl]
      obtain ⟨hanswers, hheld⟩ :=
        ih (State.assign { s with freeExecutors := front } executorId job task []).1
      refine ⟨?_, ?_⟩
      · rw [answers_append, State.assign_answers _ _ _ _ rfl, hanswers]
        rfl
      · refine hheld.trans ?_
        have hassign := State.assign_heldTasks { s with freeExecutors := front } executorId job task []
        have hstep := (List.subperm_append_right (tasks.map WorkerTask.id)).mpr hassign
        refine hstep.trans (List.Perm.subperm ?_)
        rw [List.map_cons]
        exact List.perm_middle.symm

/-- A result that answers a task takes it from those that are held. -/
theorem State.finish_heldTasks (s : State M) (result : ExecutorResult) :
    ((answers (s.finish result).2).flatMap tasksOf ++ (s.finish result).1.heldTasks).Subperm
      s.heldTasks := by
  unfold State.finish
  split
  · rename_i executorId hlookup
    have hresponse : tasksOf result.response = [result.key.2] := by
      unfold ExecutorResult.response
      split <;> rfl
    have hanswers : answers [.respond result.response] = [result.response] := rfl
    dsimp only
    rw [hanswers, List.flatMap_singleton, hresponse]
    exact (heldTasks_erase hlookup).subperm
  · exact List.Subperm.refl _

theorem answers_answered (error : Option WorkerError) :
    answers (answered error) = error.toList.map .error := by
  cases error <;> rfl

theorem flatMap_answered (error : Option WorkerError) :
    (answers (answered error)).flatMap tasksOf = listed error := by
  rw [answers_answered]
  cases error <;> simp [listed, tasksOf]

/-- Where a task takes the place of another, the other is given up. -/
theorem assign_replaced {t : State M} {task : WorkerTask} {replaceTaskId : TaskId} {old : ExecutorId}
    (h : s.assignments.lookup (job, replaceTaskId) = some old)
    (ht : t.assignments = (s.unassign (job, replaceTaskId)).assignments) (before : List Sent) :
    (t.assign id job task before).1.heldTasks.Subperm (task.id :: s.heldTasks) := by
  refine (State.assign_heldTasks t id job task before).trans ?_
  rw [List.subperm_cons]
  have hless : t.heldTasks.Subperm (replaceTaskId :: t.heldTasks) :=
    (List.sublist_cons_self ..).subperm
  refine hless.trans (List.Perm.subperm ?_)
  rw [State.heldTasks, ht]
  exact heldTasks_erase h

end

namespace WasmWorker
variable {s t : WasmWorker} {out : List Sent}

theorem processTaskReplacement_heldTasks (s : WasmWorker) (job : Uuid)
    (replacements : List (TaskId × WorkerTask)) :
    answers (processTaskReplacement s job replacements).2 = [] ∧
      (processTaskReplacement s job replacements).1.heldTasks.Subperm
        (s.heldTasks ++ replacements.map fun r => r.2.id) := by
  induction replacements generalizing s with
  | nil => exact ⟨rfl, by simpa [processTaskReplacement] using List.Subperm.refl _⟩
  | cons replacement replacements ih =>
    obtain ⟨replaceTaskId, task⟩ := replacement
    cases hlookup : s.assignments.lookup (job, replaceTaskId) with
    | none =>
      rw [processTaskReplacement_skip hlookup]
      obtain ⟨hanswers, hheld⟩ := ih s
      refine ⟨hanswers, hheld.trans ?_⟩
      rw [List.map_cons, List.subperm_append_left]
      exact (List.sublist_cons_self ..).subperm
    | some executorId =>
      rw [processTaskReplacement, hlookup]
      obtain ⟨hanswers, hheld⟩ :=
        ih (assignTask (s.unassign (job, replaceTaskId)) executorId job task true).1
      refine ⟨?_, hheld.trans ?_⟩
      · dsimp only
        rw [answers_append, hanswers, List.append_nil]
        exact State.assign_answers _ _ _ _ rfl
      · rw [List.map_cons]
        refine List.Subperm.trans ?_ (List.Perm.subperm List.perm_middle.symm)
        exact (List.subperm_append_right _).mpr (assign_replaced hlookup rfl [.abort executorId])

theorem processRequest_heldTasks (s : WasmWorker) (request : WorkerRequest) :
    answers (processRequest s request).2.1 = [] ∧
      (listed (processRequest s request).2.2 ++ (processRequest s request).1.heldTasks).Subperm
        (s.heldTasks ++ request.named) := by
  rcases processModule_cases s request with ⟨_, hmissing⟩ | ⟨_, jobCache, jobArgs, hcached⟩
  · rw [processRequest, hmissing]
    refine ⟨rfl, ?_⟩
    simp only [listed, libraryMissing, WorkerRequest.named, List.map_map]
    exact List.Perm.subperm List.perm_append_comm
  · rw [processRequest, hcached]
    let u : WasmWorker := { s with jobCache := jobCache, jobArgs := jobArgs }
    obtain ⟨hanswers, hheld⟩ := processTaskReplacement_heldTasks u request.job request.replacements
    obtain ⟨hanswers', hheld'⟩ := State.tasksAssignment_heldTasks
      (processTaskReplacement u request.job request.replacements).1 request.job request.tasks.reverse
    refine ⟨?_, hheld'.trans ?_⟩
    · dsimp only
      rw [answers_append, hanswers]
      exact hanswers'
    · refine ((List.subperm_append_right _).mpr hheld).trans (List.Perm.subperm ?_)
      rw [List.append_assoc, WorkerRequest.named]
      refine List.Perm.append_left _ ?_
      refine List.perm_append_comm.trans (List.Perm.append_right _ ?_)
      exact (List.reverse_perm _).map _

end WasmWorker

namespace DllWorker
variable {s t : DllWorker} {out : List Sent} {id id' : ExecutorId} {processIds rest : List ExecutorId}

theorem restartExecutor_silent (h : restartExecutor s id processIds = .ok (t, id', out, rest)) :
    answers out = [] ∧ t.assignments = s.assignments := by
  simp only [restartExecutor, bind_ok, except_pure, Except.ok.injEq, Prod.mk.injEq] at h
  obtain ⟨⟨u, executorId, started, later⟩, hstart, rfl, _, rfl, _⟩ := h
  have hstopped : (stopExecutor s id).1.assignments = s.assignments ∧
      answers (stopExecutor s id).2 = [] := by
    unfold stopExecutor
    split
    · exact ⟨rfl, rfl⟩
    · exact ⟨rfl, rfl⟩
  have hsent : answers started = [] ∧ u.assignments = (stopExecutor s id).1.assignments := by
    unfold startExecutor at hstart
    split at hstart
    · cases hstart
    · split at hstart
      · cases hstart
      · cases hstart
        exact ⟨rfl, rfl⟩
  rw [answers_append, hstopped.2]
  exact ⟨hsent.1, hsent.2.trans hstopped.1⟩

theorem processTaskReplacement_heldTasks {job : Uuid} {replacements : List (TaskId × WorkerTask)}
    (h : processTaskReplacement s job replacements processIds = .ok (t, out)) :
    answers out = [] ∧
      t.heldTasks.Subperm (s.heldTasks ++ replacements.map fun r => r.2.id) := by
  induction replacements generalizing s out processIds with
  | nil =>
    cases h
    exact ⟨rfl, by simpa using List.Subperm.refl _⟩
  | cons replacement replacements ih =>
    obtain ⟨replaceTaskId, task⟩ := replacement
    rw [processTaskReplacement] at h
    split at h
    · rename_i executorId hlookup
      simp only [bind_ok, except_pure, Except.ok.injEq, Prod.mk.injEq] at h
      obtain ⟨⟨u, started, restarted, later⟩, hrestart, ⟨v, out'⟩, hlater, rfl, rfl⟩ := h
      obtain ⟨hsilent, hassignments⟩ := restartExecutor_silent hrestart
      obtain ⟨hanswers, hheld⟩ := ih hlater
      refine ⟨?_, hheld.trans ?_⟩
      · have hassign : answers (assignTask u started job task).2 = [] :=
          State.assign_answers _ _ _ _ rfl
        rw [answers_append, answers_append, hsilent, hassign, hanswers]
        rfl
      · rw [List.map_cons]
        refine List.Subperm.trans ?_ (List.Perm.subperm List.perm_middle.symm)
        exact (List.subperm_append_right _).mpr (assign_replaced hlookup hassignments [])
    · obtain ⟨hanswers, hheld⟩ := ih h
      refine ⟨hanswers, hheld.trans ?_⟩
      rw [List.map_cons, List.subperm_append_left]
      exact (List.sublist_cons_self ..).subperm

theorem processLibrary_silent {request : WorkerRequest}
    (h : processLibrary s request = .ok (t, out)) :
    answers out = [] ∧ t.heldTasks = s.heldTasks := by
  unfold processLibrary at h
  split at h
  · cases h
    exact ⟨rfl, rfl⟩
  · split at h
    · cases h
    · cases h
      refine ⟨?_, rfl⟩
      rw [answers, List.filterMap_eq_nil_iff]
      intro sent hsent
      rcases List.mem_cons.mp hsent with rfl | hsent
      · rfl
      · obtain ⟨_, _, rfl⟩ := List.mem_map.mp hsent
        rfl

theorem processRequest_heldTasks {request : WorkerRequest} {error : Option WorkerError}
    (h : processRequest s request processIds = .ok (t, out, error)) :
    answers out = [] ∧
      (listed error ++ t.heldTasks).Subperm (s.heldTasks ++ request.named) := by
  unfold processRequest at h
  split at h
  · rename_i error' hmissing
    cases h
    refine ⟨rfl, ?_⟩
    rcases processLibrary_cases s request with ⟨_, hlibrary⟩ | ⟨_, _, _, _, hlibrary⟩
    · cases hlibrary.symm.trans hmissing
      simp only [listed, libraryMissing, WorkerRequest.named, List.map_map]
      exact List.Perm.subperm List.perm_append_comm
    · cases hlibrary.symm.trans hmissing
  · rename_i u cached hlibrary
    obtain ⟨hsilent, hsame⟩ := processLibrary_silent hlibrary
    simp only [bind_ok, except_pure, Except.ok.injEq, Prod.mk.injEq] at h
    obtain ⟨⟨v, replaced⟩, hreplaced, rfl, rfl, rfl⟩ := h
    obtain ⟨hanswers, hheld⟩ := processTaskReplacement_heldTasks hreplaced
    obtain ⟨hanswers', hheld'⟩ :=
      State.tasksAssignment_heldTasks v request.job request.tasks.reverse
    refine ⟨?_, hheld'.trans ?_⟩
    · rw [answers_append, answers_append, hsilent, hanswers]
      exact hanswers'
    · rw [hsame] at hheld
      refine ((List.subperm_append_right _).mpr hheld).trans (List.Perm.subperm ?_)
      rw [List.append_assoc, WorkerRequest.named]
      refine List.Perm.append_left _ ?_
      refine List.perm_append_comm.trans (List.Perm.append_right _ ?_)
      exact (List.reverse_perm _).map _

theorem processMessage_heldTasks {event : DllExecutorEvent} {keys : List Key}
    (h : processMessage s id event processIds keys = .ok (t, out)) :
    ((answers out).flatMap tasksOf ++ t.heldTasks).Subperm s.heldTasks := by
  cases event with
  | result result =>
    have hfinish : s.finish result = (t, out) := Except.ok.inj h
    have hheld := State.finish_heldTasks s result
    rw [hfinish] at hheld
    exact hheld
  | terminated error =>
    simp only [processMessage, bind_ok] at h
    obtain ⟨⟨u, started, restarted, later⟩, hrestart, h⟩ := h
    obtain ⟨hsilent, hassignments⟩ := restartExecutor_silent hrestart
    dsimp only at h
    split at h
    · rename_i key hfind
      have hlookup : u.assignments.lookup key = some started := by simpa using List.find?_some hfind
      cases h
      rw [answers_append, hsilent, List.nil_append]
      have hanswers : answers [.respond (.error (.taskExecutionError key.2 error))] =
          [.error (.taskExecutionError key.2 error)] := rfl
      rw [hanswers, List.flatMap_singleton]
      refine List.Perm.subperm ?_
      rw [State.heldTasks, State.heldTasks, ← hassignments]
      exact heldTasks_erase hlookup
    · cases h
      rw [hsilent, State.heldTasks, State.heldTasks, ← hassignments]
      exact List.Subperm.refl _

theorem restartAll_silent {ids : List ExecutorId} (h : restartAll s ids processIds = .ok (t, out)) :
    answers out = [] ∧ t.assignments = s.assignments := by
  induction ids generalizing s out processIds with
  | nil =>
    cases h
    exact ⟨rfl, rfl⟩
  | cons id ids ih =>
    simp only [restartAll, bind_ok, except_pure, Except.ok.injEq, Prod.mk.injEq] at h
    obtain ⟨⟨u, started, restarted, later⟩, hrestart, ⟨v, out'⟩, hlater, rfl, rfl⟩ := h
    obtain ⟨hsilent, hassignments⟩ := restartExecutor_silent hrestart
    obtain ⟨hanswers, hlast⟩ := ih hlater
    rw [answers_append, hsilent, hanswers, hlast]
    exact ⟨rfl, hassignments⟩

end DllWorker

/-- What a request comes to, with the error that the node sends on. -/
theorem answered_request {M : Type} {s t : State M} {request : WorkerRequest} {out : List Sent}
    {error : Option WorkerError} (hanswers : answers out = [])
    (hheld : (listed error ++ t.heldTasks).Subperm (s.heldTasks ++ request.named)) :
    (answers (out ++ answered error)).length ≤ 1 ∧
      ((answers (out ++ answered error)).flatMap tasksOf ++ t.heldTasks).Subperm
        (s.heldTasks ++ request.named) := by
  rw [answers_append, hanswers, List.nil_append]
  refine ⟨?_, ?_⟩
  · rw [answers_answered]
    cases error <;> simp
  · rw [flatMap_answered]
    exact hheld

theorem wasm_request {s t : WasmWorker} {e : WasmEvent} {out : List Sent} {request : WorkerRequest}
    (hbranch : wasm.branch e = .process request) (h : wasm.step s e = .ok (t, out)) :
    (answers out).length ≤ 1 ∧ ((answers out).flatMap tasksOf ++ t.heldTasks).Subperm
      (s.heldTasks ++ request.named) := by
  cases e with
  | message | reset | compiled => cases hbranch
  | request request' =>
    cases hbranch
    cases h
    obtain ⟨hanswers, hheld⟩ := WasmWorker.processRequest_heldTasks s request
    exact answered_request hanswers hheld

theorem wasm_accounts : wasm.Accounts State.heldTasks where
  single _ _ _ _ _ hbranch h := (wasm_request hbranch h).1
  process _ _ _ _ _ hbranch h := (wasm_request hbranch h).2
  recv := by
    intro s e t out hbranch h
    cases e with
    | request | reset | compiled => cases hbranch
    | message id result =>
      simp only [wasm, WasmWorker.step] at h
      split at h
      · have hfinish : s.finish result = (t, out) := Except.ok.inj h
        have hheld := State.finish_heldTasks s result
        rw [hfinish] at hheld
        exact hheld
      · cases h
  reset := by
    intro s e t out hbranch h
    cases e with
    | request | message | compiled => cases hbranch
    | reset drained =>
      simp only [wasm, WasmWorker.step] at h
      split at h
      · cases h
        refine ⟨?_, rfl⟩
        rw [answers, List.filterMap_eq_nil_iff]
        intro sent hsent
        obtain ⟨_, _, rfl⟩ := List.mem_map.mp hsent
        rfl
      · cases h
  apart := by
    intro s e t out hbranch h
    cases e with
    | request | message | reset => cases hbranch
    | compiled job bytes =>
      cases h
      exact ⟨rfl, rfl⟩

theorem dll_request {s t : DllWorker} {e : DllEvent} {out : List Sent} {request : WorkerRequest}
    (hbranch : dll.branch e = .process request) (h : dll.step s e = .ok (t, out)) :
    (answers out).length ≤ 1 ∧ ((answers out).flatMap tasksOf ++ t.heldTasks).Subperm
      (s.heldTasks ++ request.named) := by
  cases e with
  | message | reset => cases hbranch
  | request request' processIds =>
    cases hbranch
    simp only [dll, DllWorker.step, bind_ok, except_pure, Except.ok.injEq, Prod.mk.injEq] at h
    obtain ⟨⟨u, out', error⟩, hprocess, rfl, rfl⟩ := h
    obtain ⟨hanswers, hheld⟩ := DllWorker.processRequest_heldTasks hprocess
    exact answered_request hanswers hheld

theorem dll_accounts : dll.Accounts State.heldTasks where
  single _ _ _ _ _ hbranch h := (dll_request hbranch h).1
  process _ _ _ _ _ hbranch h := (dll_request hbranch h).2
  recv := by
    intro s e t out hbranch h
    cases e with
    | request | reset => cases hbranch
    | message id event processIds keys =>
      simp only [dll, DllWorker.step] at h
      split at h
      · exact DllWorker.processMessage_heldTasks h
      · cases h
  reset := by
    intro s e t out hbranch h
    cases e with
    | request | message => cases hbranch
    | reset drained processIds =>
      simp only [dll, DllWorker.step] at h
      split at h
      · obtain ⟨hanswers, hassignments⟩ := DllWorker.restartAll_silent h
        refine ⟨hanswers, ?_⟩
        rw [State.heldTasks, hassignments]
        rfl
      · cases h
  apart := by
    intro s e t out hbranch h
    cases e with
    | request | message | reset => cases hbranch

/-- What the client of a node is owed: the worker's responses reach it in their order, and no task is
answered, given back or still held more often than the client named it. -/
def Node.Answers {M : Type} (session : Session) (node : Node (State M)) : Prop :=
  (∀ client ∈ node.client, client.HandsOver session) ∧
    (session.responses.flatMap tasksOf ++ node.worker.heldTasks).Subperm
      (session.requests.flatMap WorkerRequest.named)

/-- In every run of a node, with either worker and whatever its node manager, its client and its
executors do, the client gets what it is owed since it was assigned. -/
theorem run_answers :
    (∀ executorsNum es out node,
      Run (Node.step wasm) (fun _ _ => True) (.new (WasmWorker.new executorsNum)) es out node →
        node.Answers (history (Node.step wasm) Session.note .empty
          (.new (WasmWorker.new executorsNum)) es)) ∧
    ∀ processIds es out node,
      Run (Node.step dll) (fun _ _ => True) (.new (DllWorker.new processIds)) es out node →
        node.Answers (history (Node.step dll) Session.note .empty
          (.new (DllWorker.new processIds)) es) := by
  refine ⟨?_, ?_⟩
  · intro executorsNum es out node run
    have serves := serves_of_run wasm_accounts rfl run
    exact ⟨fun client hclient => (serves.stage client hclient).handsOver, serves.once⟩
  · intro processIds es out node run
    have serves := serves_of_run dll_accounts rfl run
    exact ⟨fun client hclient => (serves.stage client hclient).handsOver, serves.once⟩

/-! A client names two tasks, and is gone when the second is done. -/

def twoTasks : WorkerRequest := ⟨7, some ([], []), [], [⟨0, []⟩, ⟨1, []⟩]⟩

def twoTasksEvents : List (Node.Event WasmEvent) :=
  [.managerConnected, .nodeManager none, .managerMessage (.assignClient ⟨[127, 0, 0, 1], 7001⟩),
    .nodeManager (some (.reset [])), .clientConnected, .request none, .clientMessage twoTasks,
    .request (some (.request twoTasks)), .recv (.message 0 ⟨7, 0, 5, .ok [1]⟩),
    .clientDisconnected, .request none, .clientClosed, .recv (.message 1 ⟨7, 1, 5, .ok [2]⟩)]

theorem run_answers_two : ∃ node out,
    Run (Node.step wasm) (fun _ _ => True) (.new (WasmWorker.new 2)) twoTasksEvents out node ∧
      out.filterMap Node.Sent.response? = [.result ⟨0, 5, [1]⟩] ∧
      node.client.map Client.buffer = some [.result ⟨1, 5, [2]⟩] ∧
      node.Answers (history (Node.step wasm) Session.note .empty (.new (WasmWorker.new 2))
        twoTasksEvents) := by
  obtain ⟨node, out, run, h⟩ := exists_run (Node.step wasm) (fun _ _ => True)
    (.new (WasmWorker.new 2)) twoTasksEvents
    (fun r => r.2.filterMap Node.Sent.response? = [.result ⟨0, 5, [1]⟩] ∧
      r.1.client.map Client.buffer = some [.result ⟨1, 5, [2]⟩]) (by decide +kernel)
  obtain ⟨hhanded, hkept⟩ := of_decide_eq_true h
  exact ⟨node, out, run, hhanded, hkept, run_answers.1 2 twoTasksEvents out node run⟩

end GridServer.NodeWorker
