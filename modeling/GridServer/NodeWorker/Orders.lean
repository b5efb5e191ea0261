import GridServer.NodeWorker.Libraries

namespace GridServer
open Library

/-- The tasks that a request brings. -/
def WorkerRequest.brings (request : WorkerRequest) : List WorkerTask :=
  request.tasks ++ request.replacements.map Prod.snd

namespace NodeWorker

/-! Where the orders of executors come from. -/

/-- One of the requests brought the job with these arguments and this program. -/
def Brought (requests : List WorkerRequest) (job : Uuid) (args program : List UInt8) : Prop :=
  ∃ request ∈ requests, request.job = job ∧ request.jobData = some (args, program)

/-- An order for a task that was brought for the job, with arguments that were. -/
structure Ordered (requests : List WorkerRequest) (order : ExecutorJob) : Prop where
  args : ∃ program, Brought requests order.jobId order.jobData program
  task : ∃ request ∈ requests, request.job = order.jobId ∧
    ⟨order.taskId, order.taskData⟩ ∈ request.brings

/-- The arguments that are cached came with a request for their job. -/
def Fed {M : Type} (requests : List WorkerRequest) (s : State M) : Prop :=
  ∀ job args, s.jobArgs.peek job = some args → ∃ program, Brought requests job args program

/-- A part of a turn that starts the job on nothing but these tasks, with the arguments it finds in
the cache, and caches nothing. -/
structure Gives {M : Type} (job : Uuid) (tasks : List WorkerTask) (s t : State M) (out : List Sent) :
    Prop where
  cache : t.jobCache = s.jobCache
  args : t.jobArgs.peek = s.jobArgs.peek
  starts : ∀ id order, Sent.startJob id order ∈ out → order.jobId = job ∧
    s.jobArgs.peek job = some order.jobData ∧ ⟨order.taskId, order.taskData⟩ ∈ tasks
  answers : ∀ result, Sent.respond (.result result) ∉ out

section Brought
variable {requests more : List WorkerRequest} {job : Uuid} {args program : List UInt8}
  {order : ExecutorJob}

theorem Brought.later (h : Brought requests job args program) :
    Brought (requests ++ more) job args program := by
  obtain ⟨request, hmem, hrest⟩ := h
  exact ⟨request, List.mem_append_left _ hmem, hrest⟩

theorem Ordered.later (h : Ordered requests order) : Ordered (requests ++ more) order := by
  obtain ⟨⟨program, hbrought⟩, request, hmem, hrest⟩ := h
  exact ⟨⟨program, hbrought.later⟩, request, List.mem_append_left _ hmem, hrest⟩

theorem Fed.later {M : Type} {s : State M} (h : Fed requests s) : Fed (requests ++ more) s := by
  intro job args hpeek
  obtain ⟨program, hbrought⟩ := h job args hpeek
  exact ⟨program, hbrought.later⟩

theorem Fed.congr {M : Type} {s t : State M} (h : Fed requests s)
    (hargs : t.jobArgs.peek = s.jobArgs.peek) : Fed requests t := by
  intro job args hpeek
  exact h job args (hargs ▸ hpeek)

end Brought

namespace Gives
variable {M : Type} {job : Uuid} {tasks tasks' : List WorkerTask} {s t u : State M}
  {out out' : List Sent}

theorem refl (s : State M) (job : Uuid) (tasks : List WorkerTask) : Gives job tasks s s [] :=
  ⟨rfl, rfl, fun _ _ hstart => absurd hstart List.not_mem_nil, fun _ => List.not_mem_nil⟩

theorem trans (h : Gives job tasks s t out) (h' : Gives job tasks' t u out') :
    Gives job (tasks ++ tasks') s u (out ++ out') := by
  refine ⟨h'.cache.trans h.cache, h'.args.trans h.args, ?_, ?_⟩
  · intro id order hstart
    rcases List.mem_append.mp hstart with hfirst | hsecond
    · obtain ⟨hjob, hargs, htask⟩ := h.starts id order hfirst
      exact ⟨hjob, hargs, List.mem_append_left _ htask⟩
    · obtain ⟨hjob, hargs, htask⟩ := h'.starts id order hsecond
      exact ⟨hjob, h.args ▸ hargs, List.mem_append_right _ htask⟩
  · intro result hanswer
    rcases List.mem_append.mp hanswer with hfirst | hsecond
    · exact h.answers result hfirst
    · exact h'.answers result hsecond

/-- What neither starts a job nor answers with a result, and leaves the arguments alone. -/
theorem still (hcaches : t.jobCache = s.jobCache ∧ t.jobArgs.peek = s.jobArgs.peek)
    (h : ∀ sent ∈ out, (∀ id order, sent ≠ .startJob id order) ∧
      ∀ result, sent ≠ .respond (.result result)) : Gives job tasks s t out :=
  ⟨hcaches.1, hcaches.2, fun id order hstart => absurd rfl ((h _ hstart).1 id order),
    fun result hanswer => absurd rfl ((h _ hanswer).2 result)⟩

theorem mono (h : Gives job tasks s t out) (hsub : ∀ task ∈ tasks, task ∈ tasks') :
    Gives job tasks' s t out := by
  refine ⟨h.cache, h.args, ?_, h.answers⟩
  intro id order hstart
  obtain ⟨hjob, hargs, htask⟩ := h.starts id order hstart
  exact ⟨hjob, hargs, hsub _ htask⟩

theorem assign (s : State M) (id : ExecutorId) (job : Uuid) (task : WorkerTask) {before : List Sent}
    (hbefore : ∀ sent ∈ before, sent = .abort id) :
    Gives job [task] s (s.assign id job task before).1 (s.assign id job task before).2 := by
  unfold State.assign
  split
  · refine ⟨rfl, funext fun key => LruCache.peek_get s.jobArgs job key, ?_, ?_⟩
    · intro id' order hstart
      rcases List.mem_append.mp hstart with habort | hstart
      · cases hbefore _ habort
      · obtain ⟨args, hargs, heq⟩ := List.mem_map.mp hstart
        rw [Option.mem_toList, LruCache.get_value] at hargs
        cases heq
        exact ⟨rfl, hargs, List.mem_singleton_self _⟩
    · intro result hanswer
      rcases List.mem_append.mp hanswer with habort | hanswer
      · cases hbefore _ habort
      · obtain ⟨_, _, heq⟩ := List.mem_map.mp hanswer
        cases heq
  · exact refl s _ _

theorem tasksAssignment (s : State M) (job : Uuid) (tasks : List WorkerTask) :
    Gives job tasks s (s.tasksAssignment job tasks).1 (s.tasksAssignment job tasks).2.1 := by
  induction tasks generalizing s with
  | nil => exact refl s _ _
  | cons task tasks ih =>
    rcases List.eq_nil_or_concat' s.freeExecutors with hnone | ⟨front, executorId, hfree⟩
    · rw [State.tasksAssignment_stop hnone]
      exact refl s _ _
    · rw [State.tasksAssignment_next hfree job task tasks rfl]
      let t : State M := { s with freeExecutors := front }
      have hpopped : Gives job [] s t [] := .still ⟨rfl, rfl⟩ (by simp)
      exact (hpopped.trans (assign t executorId job task (by simp))).trans (ih _)

/-- A request is answered with no result. -/
theorem answered (s : State M) (job : Uuid) (error : Option WorkerError) :
    Gives job tasks s s (answered error) := by
  refine .still ⟨rfl, rfl⟩ ?_
  intro sent hsent
  obtain ⟨_, _, rfl⟩ := List.mem_map.mp hsent
  simp

end Gives

/-- After such a part of a turn that serves the last request, everything is as it was brought. -/
theorem Gives.ordered {M : Type} {requests : List WorkerRequest} {request : WorkerRequest}
    {s t : State M} {out : List Sent} (h : Gives request.job request.brings s t out)
    (fed : Fed (requests ++ [request]) s) :
    Fed (requests ++ [request]) t ∧
      ∀ id order, Sent.startJob id order ∈ out → Ordered (requests ++ [request]) order := by
  refine ⟨fed.congr h.args, ?_⟩
  intro id order hstart
  obtain ⟨hjob, hargs, htask⟩ := h.starts id order hstart
  exact ⟨fed _ _ (hjob ▸ hargs), request, by simp, hjob.symm, htask⟩

/-- Caching the arguments of a request. -/
theorem Fed.push {M : Type} {requests : List WorkerRequest} {request : WorkerRequest}
    {s t : State M} {args program : List UInt8} (fed : Fed requests s)
    (hdata : request.jobData = some (args, program))
    (ht : t.jobArgs = (s.jobArgs.push request.job args).1) : Fed (requests ++ [request]) t := by
  intro job args' hpeek
  rw [ht] at hpeek
  rcases LruCache.peek_push hpeek with ⟨rfl, rfl⟩ | hold
  · exact ⟨program, request, by simp, rfl, hdata⟩
  · obtain ⟨program', hbrought⟩ := fed job args' hold
    exact ⟨program', hbrought.later⟩

namespace WasmWorker
variable {requests : List WorkerRequest} {s t : WasmWorker}

theorem processTaskReplacement_gives (s : WasmWorker) (job : Uuid)
    (replacements : List (TaskId × WorkerTask)) :
    Gives job (replacements.map Prod.snd) s (processTaskReplacement s job replacements).1
      (processTaskReplacement s job replacements).2 := by
  induction replacements generalizing s with
  | nil => exact .refl s _ _
  | cons replacement replacements ih =>
    obtain ⟨replaceTaskId, task⟩ := replacement
    cases hlookup : s.assignments.lookup (job, replaceTaskId) with
    | none =>
      rw [processTaskReplacement_skip hlookup]
      exact (ih s).mono fun other hother => List.mem_cons_of_mem _ hother
    | some executorId =>
      have hunassigned : Gives job [] s (State.unassign s (job, replaceTaskId)) [] :=
        .still ⟨rfl, rfl⟩ (by simp)
      have hassigned : Gives job [task] (State.unassign s (job, replaceTaskId))
          (assignTask (State.unassign s (job, replaceTaskId)) executorId job task true).1
          (assignTask (State.unassign s (job, replaceTaskId)) executorId job task true).2 :=
        Gives.assign _ executorId job task (by simp)
      rw [processTaskReplacement, hlookup]
      exact (hunassigned.trans hassigned).trans (ih _)

/-- With the module of its job there, a request gives its tasks. -/
theorem processRequest_gives {request : WorkerRequest} (h : processModule s request = .ok t) :
    Gives request.job request.brings t (processRequest s request).1
      (processRequest s request).2.1 := by
  rw [processRequest, h]
  refine ((processTaskReplacement_gives t request.job request.replacements).trans
    (Gives.tasksAssignment _ request.job request.tasks.reverse)).mono ?_
  intro task htask
  simpa [WorkerRequest.brings, or_comm] using htask

theorem processModule_fed {request : WorkerRequest} (fed : Fed requests s)
    (h : processModule s request = .ok t) : Fed (requests ++ [request]) t := by
  unfold processModule at h
  split at h
  · cases h
    exact fed.later
  · split at h
    · cases h
    · rename_i args data hdata
      cases h
      exact fed.push hdata rfl

end WasmWorker

namespace DllWorker
variable {requests : List WorkerRequest} {s t : DllWorker} {out : List Sent}
  {processIds rest : List ExecutorId} {id id' : ExecutorId}

theorem restartExecutor_gives (job : Uuid) (tasks : List WorkerTask)
    (h : restartExecutor s id processIds = .ok (t, id', out, rest)) : Gives job tasks s t out := by
  simp only [restartExecutor, bind_ok, except_pure, Except.ok.injEq, Prod.mk.injEq] at h
  obtain ⟨⟨u, started, sent, later⟩, hstart, rfl, rfl, rfl, rfl⟩ := h
  obtain ⟨rfl, _, rfl⟩ := startExecutor_ok hstart
  have hsent : sent = [.startExecutor started] := by
    simp only [startExecutor] at hstart
    split at hstart
    · cases hstart
    · cases hstart
      rfl
  refine .still ?_ ?_
  · dsimp only
    unfold stopExecutor
    split
    · exact ⟨rfl, rfl⟩
    · exact ⟨rfl, rfl⟩
  · intro x hx
    rw [hsent] at hx
    rcases List.mem_append.mp hx with hstop | hstart
    · unfold stopExecutor at hstop
      split at hstop
      · rw [List.mem_singleton.mp hstop]
        simp
      · cases hstop
    · rw [List.mem_singleton.mp hstart]
      simp

theorem processTaskReplacement_gives {job : Uuid} {replacements : List (TaskId × WorkerTask)}
    (h : processTaskReplacement s job replacements processIds = .ok (t, out)) :
    Gives job (replacements.map Prod.snd) s t out := by
  induction replacements generalizing s out processIds with
  | nil =>
    cases h
    exact .refl _ _ _
  | cons replacement replacements ih =>
    obtain ⟨replaceTaskId, task⟩ := replacement
    rw [processTaskReplacement] at h
    split at h
    · rename_i executorId hlookup
      simp only [bind_ok, except_pure, Except.ok.injEq, Prod.mk.injEq] at h
      obtain ⟨⟨u, started, restarted, later⟩, hrestart, ⟨v, out'⟩, hlater, rfl, rfl⟩ := h
      have hunassigned : Gives job [] s (s.unassign (job, replaceTaskId)) [] := .still ⟨rfl, rfl⟩ (by simp)
      have hrestarted := hunassigned.trans (restartExecutor_gives job [] hrestart)
      exact (hrestarted.trans (Gives.assign u started job task (by simp))).trans (ih hlater)
    · exact (ih h).mono fun other hother => List.mem_cons_of_mem _ hother

theorem restartAll_gives {ids : List ExecutorId} (job : Uuid)
    (h : restartAll s ids processIds = .ok (t, out)) : Gives job [] s t out := by
  induction ids generalizing s out processIds with
  | nil =>
    cases h
    exact .refl _ _ _
  | cons id ids ih =>
    simp only [restartAll, bind_ok, except_pure, Except.ok.injEq, Prod.mk.injEq] at h
    obtain ⟨⟨u, started, restarted, later⟩, hrestart, ⟨v, out'⟩, hlater, rfl, rfl⟩ := h
    have hfreed : Gives job [] u { u with freeExecutors := u.freeExecutors ++ [started] } [] :=
      .still ⟨rfl, rfl⟩ (by simp)
    have hrestarted : Gives job [] s { u with freeExecutors := u.freeExecutors ++ [started] }
        restarted := by simpa using (restartExecutor_gives job [] hrestart).trans hfreed
    exact hrestarted.trans (ih hlater)

/-- What a request brings is cached and filed. -/
theorem processLibrary_ordered {request : WorkerRequest} (fed : Fed requests s)
    (h : processLibrary s request = .ok (t, out)) :
    Fed (requests ++ [request]) t ∧
      (∀ job program, Sent.addLibrary job program ∈ out →
        ∃ args, Brought (requests ++ [request]) job args program) ∧
      ∀ result, Sent.respond (.result result) ∉ out := by
  unfold processLibrary at h
  split at h
  · cases h
    exact ⟨fed.later, by simp, by simp⟩
  · split at h
    · cases h
    · rename_i args data hdata
      cases h
      refine ⟨fed.push hdata rfl, ?_, by simp⟩
      intro job program hadd
      rcases List.mem_cons.mp hadd with heq | hremove
      · cases heq
        exact ⟨args, request, by simp, rfl, hdata⟩
      · obtain ⟨_, _, heq⟩ := List.mem_map.mp hremove
        cases heq

/-- Every order of an executor and every file of a program is as some request brought it. Only a
result of an executor is answered with a result. -/
structure Supplied (requests : List WorkerRequest) (t : DllWorker) (out : List Sent) : Prop where
  fed : Fed requests t
  orders : ∀ id order, Sent.startJob id order ∈ out → Ordered requests order
  files : ∀ job program, Sent.addLibrary job program ∈ out → ∃ args, Brought requests job args program

theorem processRequest_supplied {request : WorkerRequest} {error : Option WorkerError}
    (fed : Fed requests s) (h : processRequest s request processIds = .ok (t, out, error)) :
    Supplied (requests ++ [request]) t out ∧ ∀ result, Sent.respond (.result result) ∉ out := by
  unfold processRequest at h
  split at h
  · cases h
    exact ⟨⟨fed.later, by simp, by simp⟩, by simp⟩
  · rename_i u cached hlibrary
    obtain ⟨hfed, hfiles, hanswers⟩ := processLibrary_ordered fed hlibrary
    simp only [bind_ok, except_pure, Except.ok.injEq, Prod.mk.injEq] at h
    obtain ⟨⟨v, replaced⟩, hreplaced, rfl, rfl, rfl⟩ := h
    have hbrings : request.replacements.map Prod.snd ++ request.tasks.reverse ⊆ request.brings := by
      intro task htask
      simpa [WorkerRequest.brings, or_comm] using htask
    have hgives := ((processTaskReplacement_gives hreplaced).trans
      (Gives.tasksAssignment v request.job request.tasks.reverse)).mono hbrings
    have hworked := (processTaskReplacement_apart hreplaced).trans
      (Apart.tasksAssignment v request.job request.tasks.reverse)
    obtain ⟨hfed', horders⟩ := hgives.ordered hfed
    refine ⟨⟨hfed', ?_, ?_⟩, ?_⟩
    · intro id order hstart
      rw [List.append_assoc cached] at hstart
      rcases List.mem_append.mp hstart with hcached | hlater
      · exact absurd hcached (processLibrary_starts_none hlibrary order)
      · exact horders id order hlater
    · intro job program hadd
      rw [List.append_assoc cached] at hadd
      rcases List.mem_append.mp hadd with hcached | hlater
      · exact hfiles job program hcached
      · exact (hworked.within _ hlater).elim
    · intro result hanswer
      rw [List.append_assoc cached] at hanswer
      rcases List.mem_append.mp hanswer with hcached | hlater
      · exact hanswers result hcached
      · exact hgives.answers result hlater

/-- A turn that gives no orders leaves everything as it was brought. -/
theorem supplied_of_gives {job : Uuid} (fed : Fed requests s) (hgives : Gives job [] s t out)
    (hapart : Apart none s t out) : Supplied requests t out := by
  refine ⟨fed.congr hgives.args, ?_, ?_⟩
  · intro id order hstart
    exact absurd (hgives.starts id order hstart).2.2 List.not_mem_nil
  · intro job program hadd
    exact (hapart.within _ hadd).elim

theorem terminated_gives {error : String} {keys : List Key} (job : Uuid)
    (h : processMessage s id (.terminated error) processIds keys = .ok (t, out)) :
    Gives job [] s t out := by
  simp only [processMessage, bind_ok] at h
  obtain ⟨⟨u, started, restarted, later⟩, hrestart, h⟩ := h
  have hrestarted := restartExecutor_gives job [] hrestart
  dsimp only at h
  split at h
  · cases h
    exact hrestarted.trans (.still ⟨rfl, rfl⟩ (by simp))
  · cases h
    exact ⟨hrestarted.cache, hrestarted.args, hrestarted.starts, hrestarted.answers⟩

theorem step_supplied {e : DllEvent} (fed : Fed requests s) (taken : s.step e = .ok (t, out)) :
    Supplied (requests ++ e.request?.toList) t out ∧
      ∀ result, Sent.respond (.result result) ∈ out → ∃ id r processIds keys,
        e = .message id (.result r) processIds keys ∧ r.response = .result result := by
  cases e with
  | request request processIds =>
    simp only [step, bind_ok, except_pure, Except.ok.injEq, Prod.mk.injEq] at taken
    obtain ⟨⟨u, sent, error⟩, hprocess, rfl, rfl⟩ := taken
    obtain ⟨hsupplied, hanswers⟩ := processRequest_supplied fed hprocess
    have hnone : ∀ x ∈ answered error, ∃ error, x = .respond (.error error) := by
      intro x hx
      obtain ⟨error, _, rfl⟩ := List.mem_map.mp hx
      exact ⟨error, rfl⟩
    refine ⟨⟨hsupplied.fed, ?_, ?_⟩, ?_⟩
    · intro id order hstart
      rcases List.mem_append.mp hstart with hstart | hanswer
      · exact hsupplied.orders id order hstart
      · obtain ⟨_, heq⟩ := hnone _ hanswer
        cases heq
    · intro job program hadd
      rcases List.mem_append.mp hadd with hadd | hanswer
      · exact hsupplied.files job program hadd
      · obtain ⟨_, heq⟩ := hnone _ hanswer
        cases heq
    · intro result hanswer
      rcases List.mem_append.mp hanswer with hsent | hanswer
      · exact absurd hsent (hanswers result)
      · obtain ⟨_, heq⟩ := hnone _ hanswer
        cases heq
  | message executorId event processIds keys =>
    have hrequests : requests ++ (DllEvent.message executorId event processIds keys).request?.toList =
        requests := List.append_nil requests
    rw [hrequests]
    simp only [step] at taken
    split at taken
    · have hapart := processMessage_apart none taken
      cases event with
      | terminated error =>
        have hgives := terminated_gives 0 taken
        exact ⟨supplied_of_gives fed hgives hapart,
          fun result hanswer => absurd hanswer (hgives.answers result)⟩
      | result r =>
        have hfinish : s.finish r = (t, out) := Except.ok.inj taken
        unfold State.finish at hfinish
        split at hfinish
        · cases hfinish
          refine ⟨⟨fed, by simp, by simp⟩, ?_⟩
          intro result hanswer
          rw [List.mem_singleton, Sent.respond.injEq] at hanswer
          exact ⟨executorId, r, processIds, keys, rfl, hanswer.symm⟩
        · cases hfinish
          exact ⟨⟨fed, by simp, by simp⟩, by simp⟩
    · cases taken
  | reset drained processIds =>
    have hrequests : requests ++ (DllEvent.reset drained processIds).request?.toList = requests :=
      List.append_nil requests
    rw [hrequests]
    simp only [step] at taken
    split at taken
    · have hgives := restartAll_gives 0 taken
      have hapart := restartAll_apart none taken
      have hdrained : Gives 0 [] s { s with assignments := ∅ } [] := .still ⟨rfl, rfl⟩ (by simp)
      have hreset := hdrained.trans hgives
      exact ⟨supplied_of_gives fed hreset ⟨hapart.cache, hapart.within⟩,
        fun result hanswer => absurd hanswer (hreset.answers result)⟩
    · cases taken

end DllWorker

end NodeWorker
end GridServer
