import GridServer.NodeWorker.Recorded

namespace GridServer.NodeWorker
open Library

/-! A job's module and its arguments are cached apart. -/

def executorJob (job : Uuid) (args : List UInt8) (task : WorkerTask) : ExecutorJob :=
  { jobId := job, jobData := args, taskId := task.id, taskData := task.data }

/-- The job that a message starts, with the executor that it is sent to. -/
def started : Sent → Option (ExecutorId × ExecutorJob)
  | .startJob executorId job => some (executorId, job)
  | _ => none

/-- The calls of `assign_task` that the replacements make, with the assignments they find. -/
def replacing (job : Uuid) (assignments : AList fun _ : Key => ExecutorId) :
    List (TaskId × WorkerTask) → List (ExecutorId × WorkerTask)
  | [] => []
  | (replaceTaskId, task) :: replacements =>
    match assignments.lookup (job, replaceTaskId) with
    | some executorId =>
      (executorId, task) :: replacing job
        ((assignments.erase (job, replaceTaskId)).insert (job, task.id) executorId) replacements
    | none => replacing job assignments replacements

/-- The calls of `assign_task` that a request makes once its job's module is there. -/
def State.calls {M : Type} (s : State M) (request : WorkerRequest) :
    List (ExecutorId × WorkerTask) :=
  replacing request.job s.assignments request.replacements ++
    s.freeExecutors.reverse.zip request.tasks.reverse

/-- What calls of `assign_task` do: what they record, they send if the job's arguments are there;
the caches keep their entries. -/
structure Recorded {M : Type} (s t : State M) (job : Uuid) (calls : List (ExecutorId × WorkerTask))
    (out : List Sent) : Prop where
  sent : ∀ args, s.jobArgs.peek job = some args →
    out.filterMap started = calls.map fun call => (call.1, executorJob job args call.2)
  assigned : ∀ key id, t.assignments.lookup key = some id →
    s.assignments.lookup key = some id ∨ ∃ task, (id, task) ∈ calls ∧ key = (job, task.id)
  jobCache : t.jobCache = s.jobCache
  cap : t.jobArgs.cap = s.jobArgs.cap
  jobArgs : ∀ x, t.jobArgs.peek x = s.jobArgs.peek x

namespace Recorded
variable {M : Type} {s t u : State M} {job : Uuid} {calls calls' : List (ExecutorId × WorkerTask)}
  {out out' : List Sent}

theorem refl (s : State M) (job : Uuid) : Recorded s s job [] [] :=
  ⟨fun _ _ => rfl, fun _ _ h => .inl h, rfl, rfl, fun _ => rfl⟩

theorem trans (h : Recorded s t job calls out) (h' : Recorded t u job calls' out') :
    Recorded s u job (calls ++ calls') (out ++ out') := by
  refine ⟨?_, ?_, h'.jobCache.trans h.jobCache, h'.cap.trans h.cap, ?_⟩
  · intro args hargs
    rw [List.filterMap_append, List.map_append, h.sent args hargs,
      h'.sent args ((h.jobArgs job).trans hargs)]
  · intro key id hlookup
    rcases h'.assigned key id hlookup with hold | ⟨task, hmem, hkey⟩
    · rcases h.assigned key id hold with hold | ⟨task, hmem, hkey⟩
      · exact .inl hold
      · exact .inr ⟨task, List.mem_append_left _ hmem, hkey⟩
    · exact .inr ⟨task, List.mem_append_right _ hmem, hkey⟩
  · intro x
    rw [h'.jobArgs, h.jobArgs]

/-- One call, of an executor that came off the free list or lost the task it had. -/
theorem assign {id : ExecutorId} (hid : id ∈ t.executors) (task : WorkerTask)
    (hlookup : ∀ key id', t.assignments.lookup key = some id' →
      s.assignments.lookup key = some id')
    (hjobCache : t.jobCache = s.jobCache) (hjobArgs : t.jobArgs = s.jobArgs) :
    Recorded s (t.assign id job task []).1 job [(id, task)] (t.assign id job task []).2 := by
  have hassigned := (State.assign_lookup hid job task []).2.2
  refine ⟨?_, ?_, ?_, ?_, ?_⟩
  · intro args hargs
    have hget : (t.jobArgs.get job).2 = some args := by
      rw [LruCache.get_value, hjobArgs, hargs]
    rw [State.assign, if_pos hid]
    simp [hget, started, executorJob]
  · intro key id' hkey
    rw [hassigned] at hkey
    by_cases he : key = (job, task.id)
    · rw [he, AList.lookup_insert, Option.some.injEq] at hkey
      exact .inr ⟨task, by rw [hkey]; exact List.mem_singleton_self _, he⟩
    · rw [AList.lookup_insert_ne he] at hkey
      exact .inl (hlookup key id' hkey)
  · rw [State.assign, if_pos hid]
    exact hjobCache
  · rw [State.assign, if_pos hid, ← hjobArgs]
    exact (LruCache.keys_get _ _).1
  · intro x
    rw [State.assign, if_pos hid, ← hjobArgs]
    exact LruCache.peek_get _ _ _

end Recorded

/-- The last stage of a request. -/
theorem State.tasksAssignment_recorded {M : Type} {s : State M} (hlive : s.FreeLive) (job : Uuid)
    (tasks : List WorkerTask) :
    Recorded s (s.tasksAssignment job tasks).1 job (s.freeExecutors.reverse.zip tasks)
      (s.tasksAssignment job tasks).2.1 := by
  induction tasks generalizing s with
  | nil =>
    rw [List.zip_nil_right]
    exact .refl s job
  | cons task tasks ih =>
    rcases List.eq_nil_or_concat' s.freeExecutors with hnil | ⟨front, id, hfree⟩
    · rw [tasksAssignment_stop hnil, hnil]
      exact .refl s job
    · obtain ⟨t, ht⟩ : ∃ t, t = ({ s with freeExecutors := front } : State M) := ⟨_, rfl⟩
      have hid : id ∈ t.executors := ht ▸ hlive id (by simp [hfree])
      obtain ⟨hfront, hexecutors, _⟩ := assign_lookup hid job task []
      have hlive' : (t.assign id job task []).1.FreeLive := by
        intro x hx
        rw [hfront, ht] at hx
        rw [hexecutors, ht]
        exact hlive x (by rw [hfree]; exact List.mem_append_left _ hx)
      have hfirst : Recorded s (t.assign id job task []).1 job [(id, task)]
          (t.assign id job task []).2 := by
        refine .assign hid task ?_ (by rw [ht]) (by rw [ht])
        rw [ht]
        exact fun _ _ h => h
      have hlater := hfirst.trans (ih hlive')
      rw [hfront, ht] at hlater
      rw [tasksAssignment_next hfree job task tasks ht, hfree, List.reverse_concat,
        List.zip_cons_cons, ht]
      exact hlater

namespace WasmWorker
variable {s t : WasmWorker}

theorem processTaskReplacement_recorded (hlive : s.Live) (job : Uuid)
    (replacements : List (TaskId × WorkerTask)) :
    Recorded s (processTaskReplacement s job replacements).1 job
      (replacing job s.assignments replacements)
      (processTaskReplacement s job replacements).2 := by
  induction replacements generalizing s with
  | nil => exact .refl s job
  | cons replacement replacements ih =>
    obtain ⟨replaceTaskId, task⟩ := replacement
    unfold replacing
    cases hlookup : s.assignments.lookup (job, replaceTaskId) with
    | none =>
      rw [processTaskReplacement_skip hlookup]
      exact ih hlive
    | some id =>
      obtain ⟨u, hu⟩ : ∃ u, u = State.unassign s (job, replaceTaskId) := ⟨_, rfl⟩
      have hid : id ∈ u.executors :=
        hu ▸ hlive id (List.mem_append_right _ (State.mem_busy.mpr ⟨_, hlookup⟩))
      have hmoved := State.moved_assign (hu ▸ State.pool_unassign hlookup) (by rw [hu]; rfl) hid
        job task []
      have hassigned : (u.assign id job task []).1.assignments =
          (s.assignments.erase (job, replaceTaskId)).insert (job, task.id) id := by
        rw [(State.assign_lookup hid ..).2.2, hu]
        rfl
      have hstill : ∀ key id', u.assignments.lookup key = some id' →
          s.assignments.lookup key = some id' := by
        intro key id' hkey
        rw [hu, State.unassign] at hkey
        by_cases he : key = (job, replaceTaskId)
        · rw [he, AList.lookup_erase] at hkey
          cases hkey
        · rw [AList.lookup_erase_ne he] at hkey
          exact hkey
      have hfirst : Recorded s (u.assign id job task []).1 job [(id, task)]
          (.abort id :: (u.assign id job task []).2) := by
        have hassign : Recorded s (u.assign id job task []).1 job [(id, task)]
            (u.assign id job task []).2 :=
          .assign hid task hstill (by rw [hu]; rfl) (by rw [hu]; rfl)
        exact { hassign with sent := hassign.sent }
      have hlater := hfirst.trans (ih (hmoved.live hlive))
      rw [hassigned] at hlater
      rw [processTaskReplacement_next hlookup hu hid]
      exact hlater

/-- What a request asks of the caches: if it files a job and they are full, they have to give up
the same job for it. -/
def EvictsAlike (s : WasmWorker) : WasmEvent → Prop
  | .request request =>
    request.job ∉ s.jobCache → request.jobData.isSome →
      s.jobCache.cap ≤ s.jobCache.entries.keys.length → s.jobCache.oldest = s.jobArgs.oldest
  | _ => True

instance (s : WasmWorker) (e : WasmEvent) : Decidable (s.EvictsAlike e) :=
  match e with
  | .request request => decidable_of_iff (request.job ∉ s.jobCache → request.jobData.isSome →
      s.jobCache.cap ≤ s.jobCache.entries.keys.length → s.jobCache.oldest = s.jobArgs.oldest) .rfl
  | .message _ _ => .isTrue trivial
  | .reset _ => .isTrue trivial
  | .compiled _ _ => .isTrue trivial

/-- Filing a job keeps the caches in agreement if and only if they give up the same one for it. -/
theorem processModule_agree {request : WorkerRequest}
    (h : LruCache.Agree s.jobCache s.jobArgs) (hok : processModule s request = .ok t) :
    t.jobCache.cap = t.jobArgs.cap ∧ request.job ∈ t.jobCache ∧
      ((∀ job, job ∈ t.jobCache ↔ job ∈ t.jobArgs) ↔ s.EvictsAlike (.request request)) := by
  unfold processModule at hok
  split at hok
  · rename_i hmem
    rw [LruCache.contains_iff] at hmem
    obtain rfl := Except.ok.inj hok
    exact ⟨h.1, hmem, iff_of_true h.2 fun hnot => absurd hmem hnot⟩
  · rename_i hnot
    rw [LruCache.contains_iff] at hnot
    split at hok
    · cases hok
    · rename_i args data hsome
      obtain rfl := Except.ok.inj hok
      have hnot' : request.job ∉ s.jobArgs := fun hmem => hnot ((h.2 _).mpr hmem)
      have hcap : (s.jobCache.push request.job (.source data)).1.cap =
          (s.jobArgs.push request.job args).1.cap := by
        rw [(LruCache.push_of_not_mem hnot _).1, (LruCache.push_of_not_mem hnot' _).1, h.1]
      have hpush := h.push_iff hnot (WasmModule.source data) args
      refine ⟨hcap, (LruCache.mem_push hnot _ _).mpr (.inl rfl), ?_⟩
      constructor
      · intro hagree _ _
        exact hpush.mp ⟨hcap, hagree⟩
      · intro alike
        exact (hpush.mpr (alike hnot (by rw [hsome]; rfl))).2

theorem started_answered (error : Option WorkerError) :
    (answered error).filterMap started = [] := by
  cases error <;> rfl

/-- What a request does once its job's module is there. -/
theorem processRequest_recorded (hlive : s.Live) {request : WorkerRequest}
    (present : ¬s.Missing request) :
    ∃ u, processModule s request = .ok u ∧
      Recorded u (processRequest s request).1 request.job (s.calls request)
        (processRequest s request).2.1 ∧ u.assignments = s.assignments := by
  rcases processModule_cases s request with ⟨missing, _⟩ | ⟨_, jobCache, jobArgs, hok⟩
  · exact absurd missing present
  · obtain ⟨u, hu⟩ : ∃ u : WasmWorker, u = { s with jobCache := jobCache, jobArgs := jobArgs } :=
      ⟨_, rfl⟩
    rw [← hu] at hok
    have hliveu : u.Live := hu ▸ hlive
    have hassigned : u.assignments = s.assignments := hu ▸ rfl
    have hfreeu : u.freeExecutors = s.freeExecutors := hu ▸ rfl
    obtain ⟨hmoved, _, hfree⟩ :=
      processTaskReplacement_moved hliveu request.job request.replacements
    have hfirst := processTaskReplacement_recorded hliveu request.job request.replacements
    have hlater := State.tasksAssignment_recorded (hmoved.live hliveu).free request.job
      request.tasks.reverse
    have hboth := hfirst.trans hlater
    rw [hfree, hfreeu, hassigned] at hboth
    refine ⟨u, hok, ?_, hassigned⟩
    rw [processRequest, hok]
    exact hboth

/-- What holds as long as the caches evict alike. -/
structure Cached (s : WasmWorker) (out : List Sent) : Prop where
  live : s.Live
  agree : LruCache.Agree s.jobCache s.jobArgs
  sent : ∀ key id, s.assignments.lookup key = some id →
    ∃ job, Sent.startJob id job ∈ out ∧ (job.jobId, job.taskId) = key

theorem cached_new (executorsNum : Nat) : Cached (new executorsNum) [] := by
  refine ⟨State.live_start _, ⟨rfl, fun _ => Iff.rfl⟩, ?_⟩
  intro key id hlookup
  simp [new, State.start] at hlookup

/-- A request that finds its job's module, or files it. -/
theorem processRequest_cached {out : List Sent} {request : WorkerRequest} (h : Cached s out)
    (present : ¬s.Missing request) :
    (processRequest s request).1.jobCache.cap = (processRequest s request).1.jobArgs.cap ∧
      ((∀ job, job ∈ (processRequest s request).1.jobCache ↔
        job ∈ (processRequest s request).1.jobArgs) ↔ s.EvictsAlike (.request request)) ∧
      (s.EvictsAlike (.request request) →
        ∃ args, (processRequest s request).1.jobArgs.peek request.job = some args ∧
          (processRequest s request).2.1.filterMap started =
            (s.calls request).map fun call => (call.1, executorJob request.job args call.2)) := by
  obtain ⟨u, hok, hrecorded, _⟩ := processRequest_recorded h.live present
  obtain ⟨hcap, hmem, hagree⟩ := processModule_agree h.agree hok
  have hargs : ∀ job, job ∈ (processRequest s request).1.jobArgs ↔ job ∈ u.jobArgs := by
    intro job
    rw [← LruCache.contains_iff, ← LruCache.contains_iff, LruCache.contains, LruCache.contains,
      hrecorded.jobArgs]
  have hiff : (∀ job, job ∈ (processRequest s request).1.jobCache ↔
      job ∈ (processRequest s request).1.jobArgs) ↔ ∀ job, job ∈ u.jobCache ↔ job ∈ u.jobArgs := by
    refine forall_congr' fun job => ?_
    rw [hargs, hrecorded.jobCache]
  refine ⟨?_, hiff.trans hagree, ?_⟩
  · rw [hrecorded.jobCache, hrecorded.cap, hcap]
  · intro alike
    have hthere := (hagree.mpr alike request.job).mp hmem
    obtain ⟨args, hpeek⟩ := Option.isSome_iff_exists.mp (LruCache.contains_iff.mpr hthere)
    exact ⟨args, (hrecorded.jobArgs _).trans hpeek, hrecorded.sent args hpeek⟩

theorem processRequest_sent {out : List Sent} {request : WorkerRequest} (h : Cached s out)
    (present : ¬s.Missing request) (alike : s.EvictsAlike (.request request)) :
    ∀ key id, (processRequest s request).1.assignments.lookup key = some id →
      ∃ job, Sent.startJob id job ∈ out ++ (processRequest s request).2.1 ∧
        (job.jobId, job.taskId) = key := by
  obtain ⟨u, _, hrecorded, hassigned⟩ := processRequest_recorded h.live present
  obtain ⟨args, _, hsent⟩ := (processRequest_cached h present).2.2 alike
  intro key id hlookup
  rcases hrecorded.assigned key id hlookup with hold | ⟨task, hmem, hkey⟩
  · rw [hassigned] at hold
    obtain ⟨job, hjob, hkey⟩ := h.sent key id hold
    exact ⟨job, List.mem_append_left _ hjob, hkey⟩
  · have hmap : (id, executorJob request.job args task) ∈
        (processRequest s request).2.1.filterMap started := by
      rw [hsent]
      exact List.mem_map.mpr ⟨(id, task), hmem, rfl⟩
    obtain ⟨sent, hin, hstarted⟩ := List.mem_filterMap.mp hmap
    cases sent with
    | startJob executorId job =>
      simp only [started, Option.some.injEq, Prod.mk.injEq] at hstarted
      obtain ⟨rfl, rfl⟩ := hstarted
      exact ⟨_, List.mem_append_right _ hin, hkey.symm⟩
    | _ => cases hstarted

/-- A step that caches nothing and assigns nothing. -/
theorem Cached.still {out out' : List Sent} (h : Cached s out) (hlive : t.Live)
    (hagree : LruCache.Agree t.jobCache t.jobArgs)
    (hassigned : ∀ key id, t.assignments.lookup key = some id →
      s.assignments.lookup key = some id) : Cached t (out ++ out') := by
  refine ⟨hlive, hagree, ?_⟩
  intro key id hlookup
  obtain ⟨job, hjob, hkey⟩ := h.sent key id (hassigned key id hlookup)
  exact ⟨job, List.mem_append_left _ hjob, hkey⟩

theorem finish_still (s : WasmWorker) (result : ExecutorResult) :
    (s.finish result).1.jobCache = s.jobCache ∧ (s.finish result).1.jobArgs = s.jobArgs ∧
      ∀ key id, (s.finish result).1.assignments.lookup key = some id →
        s.assignments.lookup key = some id := by
  unfold State.finish
  split
  · refine ⟨rfl, rfl, fun key id hkey => ?_⟩
    by_cases he : key = result.key
    · rw [he, State.unassign, AList.lookup_erase] at hkey
      cases hkey
    · rw [State.unassign, AList.lookup_erase_ne he] at hkey
      exact hkey
  · exact ⟨rfl, rfl, fun _ _ hkey => hkey⟩

/-- The caches come out of a step in agreement if and only if it evicts alike. -/
theorem step_cached {e : WasmEvent} {out out' : List Sent} (h : Cached s out)
    (taken : step s e = .ok (t, out')) :
    ((∀ job, job ∈ t.jobCache ↔ job ∈ t.jobArgs) ↔ s.EvictsAlike e) ∧
      (s.EvictsAlike e → Cached t (out ++ out')) := by
  have hlive := step_live h.live taken
  cases e with
  | request request =>
    simp only [step, Except.ok.injEq, Prod.mk.injEq] at taken
    obtain ⟨rfl, rfl⟩ := taken
    by_cases missing : s.Missing request
    · have herror : processRequest s request = (s, [], some (libraryMissing request)) := by
        rcases processModule_cases s request with ⟨_, herror⟩ | ⟨present, _⟩
        · rw [processRequest, herror]
        · exact absurd missing present
      rw [herror]
      refine ⟨iff_of_true h.agree.2 ?_, fun _ => h.still h.live h.agree fun _ _ hkey => hkey⟩
      intro _ hsome
      rw [missing.2] at hsome
      cases hsome
    · obtain ⟨hcap, hiff, _⟩ := processRequest_cached h missing
      refine ⟨hiff, fun alike => ⟨hlive, ⟨hcap, hiff.mpr alike⟩, ?_⟩⟩
      intro key id hlookup
      obtain ⟨job, hjob, hkey⟩ := processRequest_sent h missing alike key id hlookup
      exact ⟨job, by rw [← List.append_assoc]; exact List.mem_append_left _ hjob, hkey⟩
  | message executorId result =>
    simp only [step] at taken
    split at taken
    · obtain ⟨hcache, hargs, hassigned⟩ := finish_still s result
      have hfinish : (s.finish result).1 = t := congrArg Prod.fst (Except.ok.inj taken)
      rw [hfinish] at hcache hargs hassigned
      have hagree : LruCache.Agree t.jobCache t.jobArgs := hcache ▸ hargs ▸ h.agree
      exact ⟨iff_of_true hagree.2 trivial, fun _ => h.still hlive hagree hassigned⟩
    · cases taken
  | reset drained =>
    simp only [step] at taken
    split at taken
    · simp only [reset, Except.ok.injEq, Prod.mk.injEq] at taken
      obtain ⟨rfl, rfl⟩ := taken
      refine ⟨iff_of_true h.agree.2 trivial, fun _ => h.still hlive h.agree ?_⟩
      intro key id hkey
      rw [AList.lookup_empty] at hkey
      cases hkey
    · cases taken
  | compiled job bytes =>
    simp only [step, compile, Except.ok.injEq, Prod.mk.injEq] at taken
    obtain ⟨rfl, rfl⟩ := taken
    have hagree := h.agree.write_left job (WasmModule.compiled bytes)
    exact ⟨iff_of_true hagree.2 trivial, fun _ => h.still hlive hagree fun _ _ hkey => hkey⟩

end WasmWorker

end GridServer.NodeWorker
