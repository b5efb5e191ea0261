import GridServer.Library.Run
import GridServer.NodeWorker.Handlers

namespace GridServer.NodeWorker
open Library

/-! Executors move between the free list and the assignments. -/

namespace State
variable {M : Type}

/-- Every executor is either free or has one task assigned to it. -/
structure Partitioned (s : State M) : Prop where
  free_nodup : s.freeExecutors.Nodup
  busy_nodup : s.busyExecutors.Nodup
  disjoint : ∀ id, id ∈ s.freeExecutors → id ∉ s.busyExecutors
  mem_iff : ∀ id, id ∈ s.executors ↔ id ∈ s.freeExecutors ∨ id ∈ s.busyExecutors

/-- The free list and the assigned executors, with repetitions. -/
def pool (s : State M) : List ExecutorId := s.freeExecutors ++ s.busyExecutors

theorem partitioned_iff {s : State M} :
    s.Partitioned ↔ s.pool.Nodup ∧ ∀ id, id ∈ s.executors ↔ id ∈ s.pool := by
  simp only [pool, List.nodup_append, List.mem_append]
  constructor
  · intro h
    refine ⟨⟨h.free_nodup, h.busy_nodup, ?_⟩, h.mem_iff⟩
    intro a ha b hb he
    exact h.disjoint a ha (he ▸ hb)
  · intro ⟨⟨free, busy, disjoint⟩, hmem⟩
    exact ⟨free, busy, fun id hf hb => disjoint id hf id hb rfl, hmem⟩

/-- What is cached has no part in it. -/
theorem Partitioned.cached {s : State M} (h : s.Partitioned) (jobCache : LruCache Uuid M)
    (jobArgs : LruCache Uuid (List UInt8)) :
    Partitioned { s with jobCache := jobCache, jobArgs := jobArgs } :=
  ⟨h.free_nodup, h.busy_nodup, h.disjoint, h.mem_iff⟩

theorem Partitioned.length_eq {s : State M} (h : s.Partitioned) :
    s.pool.length = s.executors.card := by
  obtain ⟨hnodup, hmem⟩ := partitioned_iff.mp h
  rw [← List.toFinset_card_of_nodup hnodup]
  congr 1
  ext id
  rw [List.mem_toFinset, hmem]

theorem partitioned_start {ids : List ExecutorId} (h : ids.Nodup) :
    (start ids : State M).Partitioned := by
  rw [partitioned_iff]
  simp [start, pool, busyExecutors, h]

/-- Taking an entry out of the assignments takes its executor out. -/
theorem values_erase {a : AList fun _ : Key => ExecutorId} {key : Key} {id : ExecutorId}
    (h : a.lookup key = some id) :
    (a.entries.map fun entry => entry.2).Perm
      (id :: (a.erase key).entries.map fun entry => entry.2) := by
  have hmem : key ∈ a.entries.keys := AList.lookup_isSome.mp (by rw [h]; rfl)
  obtain ⟨b, front, rest, _, hentries, herase⟩ := List.exists_of_kerase hmem
  have hb : b ∈ a.lookup key := by
    rw [AList.mem_lookup_iff, hentries]
    exact List.mem_append_right _ List.mem_cons_self
  rw [h, Option.mem_def, Option.some.injEq] at hb
  subst hb
  have hrest : (a.erase key).entries = front ++ rest := herase
  rw [hentries, hrest, List.map_append, List.map_append, List.map_cons]
  exact List.perm_middle

theorem mem_busy {s : State M} {id : ExecutorId} :
    id ∈ s.busyExecutors ↔ ∃ key, s.assignments.lookup key = some id := by
  simp only [busyExecutors, List.mem_map]
  constructor
  · intro ⟨entry, hmem, he⟩
    exact ⟨entry.1, AList.mem_lookup_iff.mpr (he ▸ hmem)⟩
  · intro ⟨key, hkey⟩
    exact ⟨⟨key, id⟩, AList.mem_lookup_iff.mp hkey, rfl⟩

/-- With no executor assigned twice, an executor has one task. -/
theorem Partitioned.lookup_inj {s : State M} (h : s.Partitioned) {key key' : Key} {id : ExecutorId}
    (hkey : s.assignments.lookup key = some id) (hkey' : s.assignments.lookup key' = some id) :
    key = key' := by
  by_contra hne
  have hperm := values_erase hkey
  have hnodup : (id :: (s.assignments.erase key).entries.map fun entry => entry.2).Nodup :=
    hperm.nodup_iff.mp h.busy_nodup
  refine (List.nodup_cons.mp hnodup).1 (List.mem_map.mpr ⟨⟨key', id⟩, ?_, rfl⟩)
  rw [← AList.mem_lookup_iff, AList.lookup_erase_ne (Ne.symm hne)]
  exact hkey'

theorem Partitioned.of_perm {s t : State M} (hs : s.Partitioned)
    (hexecutors : t.executors = s.executors) (hperm : t.pool.Perm s.pool) : t.Partitioned := by
  obtain ⟨hnodup, hmem⟩ := State.partitioned_iff.mp hs
  rw [State.partitioned_iff, hexecutors, hperm.nodup_iff]
  refine ⟨hnodup, fun id => ?_⟩
  rw [hmem, hperm.mem_iff]

/-- A handler has moved executors: none came in, and if `new` holds none went. -/
structure Moved (s t : State M) (new : Prop) : Prop where
  executors : t.executors = s.executors
  subset : t.pool ⊆ s.pool
  perm : new → t.pool.Perm s.pool
  lost : ¬new → t.pool.length < s.pool.length

theorem Moved.length_le {s t : State M} {new : Prop} (h : Moved s t new) :
    t.pool.length ≤ s.pool.length := by
  by_cases hnew : new
  · exact (h.perm hnew).length_eq.le
  · exact (h.lost hnew).le

theorem Moved.refl (s : State M) : Moved s s True :=
  ⟨rfl, fun _ h => h, fun _ => .rfl, fun h => absurd trivial h⟩

theorem Moved.trans {s t u : State M} {new new' : Prop} (h : Moved s t new) (h' : Moved t u new') :
    Moved s u (new ∧ new') := by
  refine ⟨h'.executors.trans h.executors, fun _ hid => h.subset (h'.subset hid), ?_, ?_⟩
  · intro ⟨hnew, hnew'⟩
    exact (h'.perm hnew').trans (h.perm hnew)
  · intro hnot
    by_cases hnew : new
    · have hlt := h'.lost fun hnew' => hnot ⟨hnew, hnew'⟩
      rw [(h.perm hnew).length_eq] at hlt
      exact hlt
    · exact Nat.lt_of_le_of_lt h'.length_le (h.lost hnew)

theorem Moved.congr {s t : State M} {new new' : Prop} (h : Moved s t new) (iff : new ↔ new') :
    Moved s t new' :=
  propext iff ▸ h

/-- A partition stays one as long as no executor went. -/
theorem Moved.partitioned_iff {s t : State M} {new : Prop} (h : Moved s t new)
    (hs : s.Partitioned) : t.Partitioned ↔ new := by
  constructor
  · intro ht
    by_contra hnot
    have hlt := h.lost hnot
    rw [ht.length_eq, hs.length_eq, h.executors] at hlt
    exact absurd hlt (Nat.lt_irrefl _)
  · intro hnew
    exact hs.of_perm h.executors (h.perm hnew)

/-- Every id of the pool is that of an executor. -/
def Live (s : State M) : Prop := ∀ id, id ∈ s.pool → id ∈ s.executors

theorem Partitioned.live {s : State M} (h : s.Partitioned) : s.Live :=
  fun id hid => ((State.partitioned_iff.mp h).2 id).mpr hid

theorem Moved.live {s t : State M} {new : Prop} (h : Moved s t new) (hs : s.Live) : t.Live :=
  fun id hid => h.executors ▸ hs id (h.subset hid)

theorem live_start (ids : List ExecutorId) : (start ids : State M).Live := by
  intro id hid
  simpa [start, pool, busyExecutors] using hid

section Assign
variable {s : State M} {id : ExecutorId}

theorem assign_lookup (h : id ∈ s.executors) (job : Uuid) (task : WorkerTask)
    (before : List Sent) :
    (s.assign id job task before).1.freeExecutors = s.freeExecutors ∧
      (s.assign id job task before).1.executors = s.executors ∧
        (s.assign id job task before).1.assignments = s.assignments.insert (job, task.id) id := by
  rw [assign, if_pos h]
  exact ⟨rfl, rfl, rfl⟩

/-- Assigning a task takes an executor in, and drops the one that its key was filed with. -/
theorem assign_pool (h : id ∈ s.executors) (job : Uuid) (task : WorkerTask) (before : List Sent) :
    (s.assign id job task before).1.pool ⊆ id :: s.pool ∧
      ((job, task.id) ∉ s.assignments → (s.assign id job task before).1.pool.Perm (id :: s.pool)) ∧
        ((job, task.id) ∈ s.assignments →
          (s.assign id job task before).1.pool.length < (id :: s.pool).length) := by
  obtain ⟨hfree, _, hassigned⟩ := assign_lookup h job task before
  have hpool : (s.assign id job task before).1.pool = s.freeExecutors ++
      id :: (s.assignments.erase (job, task.id)).entries.map fun entry => entry.2 := by
    rw [pool, busyExecutors, hfree, hassigned]
    rfl
  have hsub : ((s.assignments.erase (job, task.id)).entries.map fun entry => entry.2).Sublist
      s.busyExecutors := (List.kerase_sublist _ _).map _
  have hmiddle : (s.assign id job task before).1.pool.Perm (id :: (s.freeExecutors ++
      (s.assignments.erase (job, task.id)).entries.map fun entry => entry.2)) := by
    rw [hpool]
    exact List.perm_middle
  refine ⟨?_, ?_, ?_⟩
  · intro x hx
    rcases List.mem_cons.mp (hmiddle.mem_iff.mp hx) with rfl | hold
    · exact List.mem_cons_self
    · exact List.mem_cons_of_mem _ ((hsub.append_left s.freeExecutors).subset hold)
  · intro hnew
    have herase : (s.assignments.erase (job, task.id)).entries = s.assignments.entries :=
      List.kerase_of_notMem_keys hnew
    rw [herase] at hmiddle
    exact hmiddle
  · intro hold
    obtain ⟨old, hlookup⟩ := Option.isSome_iff_exists.mp (AList.lookup_isSome.mpr hold)
    have hlen := (values_erase hlookup).length_eq
    rw [hmiddle.length_eq, List.length_cons, List.length_cons, List.length_append, pool,
      List.length_append]
    rw [List.length_cons] at hlen
    unfold busyExecutors
    omega

theorem held_assign (h : id ∈ s.executors) (job : Uuid) (task : WorkerTask) (before : List Sent) :
    (s.assign id job task before).1.held job = insert task.id (s.held job) := by
  ext t
  rw [mem_held, (assign_lookup h ..).2.2, AList.mem_insert, Finset.mem_insert, mem_held,
    Prod.mk.injEq]
  simp

/-- Giving a task to an executor that came from the free list, or from the task it replaces. -/
theorem moved_assign {t : State M} (h : t.pool.Perm (id :: s.pool)) (same : s.executors = t.executors)
    (hid : id ∈ s.executors) (job : Uuid) (task : WorkerTask) (before : List Sent) :
    Moved t (s.assign id job task before).1 ((job, task.id) ∉ s.assignments) := by
  obtain ⟨hsub, hperm, hlost⟩ := assign_pool hid job task before
  refine ⟨(assign_lookup hid ..).2.1.trans same, ?_, ?_, ?_⟩
  · intro x hx
    exact h.mem_iff.mpr (hsub hx)
  · intro hnew
    exact (hperm hnew).trans h.symm
  · intro hold
    rw [h.length_eq]
    exact hlost (not_not.mp hold)

end Assign

/-- An executor that is popped from the free list. -/
theorem pool_pop {s : State M} {front : List ExecutorId} {id : ExecutorId}
    (h : s.freeExecutors = front ++ [id]) :
    s.pool.Perm (id :: pool { s with freeExecutors := front }) := by
  rw [pool, h, List.append_assoc]
  exact List.perm_middle

/-- An executor whose task is taken out of the assignments. -/
theorem pool_unassign {s : State M} {key : Key} {id : ExecutorId}
    (h : s.assignments.lookup key = some id) :
    s.pool.Perm (id :: (s.unassign key).pool) :=
  ((values_erase h).append_left _).trans List.perm_middle

theorem held_unassign {s : State M} {job : Uuid} {taskId : TaskId} :
    (s.unassign (job, taskId)).held job = (s.held job).erase taskId := by
  ext t
  rw [mem_held, unassign, AList.mem_erase, Finset.mem_erase, mem_held, Ne, Prod.mk.injEq]
  simp

end State

/-- The ids of the tasks that find a free executor. -/
def given (free : Nat) (tasks : List WorkerTask) : List TaskId :=
  (tasks.reverse.map WorkerTask.id).take free

/-- The tasks of the job that are assigned after the replacements: one is carried out if its
replaced task is assigned at its turn. -/
def heldAfter (held : Finset TaskId) : List (TaskId × WorkerTask) → Finset TaskId
  | [] => held
  | (replaceTaskId, task) :: replacements =>
    if replaceTaskId ∈ held then
      heldAfter (insert task.id (held.erase replaceTaskId)) replacements
    else heldAfter held replacements

/-- No replacement that is carried out names a task that is still assigned at its turn. -/
def ReplacesNew (held : Finset TaskId) : List (TaskId × WorkerTask) → Prop
  | [] => True
  | (replaceTaskId, task) :: replacements =>
    if replaceTaskId ∈ held then
      task.id ∉ held.erase replaceTaskId ∧
        ReplacesNew (insert task.id (held.erase replaceTaskId)) replacements
    else ReplacesNew held replacements

instance (held : Finset TaskId) (replacements : List (TaskId × WorkerTask)) :
    Decidable (ReplacesNew held replacements) := by
  induction replacements generalizing held with
  | nil => exact .isTrue trivial
  | cons replacement replacements ih =>
    unfold ReplacesNew
    infer_instance

/-- No task that finds an executor is still assigned, or named twice. -/
def AssignsNew (held : Finset TaskId) (ids : List TaskId) : Prop :=
  ids.Nodup ∧ ∀ id ∈ ids, id ∉ held

instance (held : Finset TaskId) (ids : List TaskId) : Decidable (AssignsNew held ids) :=
  decidable_of_iff (ids.Nodup ∧ ∀ id ∈ ids, id ∉ held) .rfl

theorem assignsNew_nil (held : Finset TaskId) : AssignsNew held [] := ⟨List.nodup_nil, by simp⟩

theorem assignsNew_cons {held : Finset TaskId} {id : TaskId} {ids : List TaskId} :
    AssignsNew held (id :: ids) ↔ id ∉ held ∧ AssignsNew (insert id held) ids := by
  simp only [AssignsNew, List.nodup_cons, List.forall_mem_cons, Finset.mem_insert, not_or]
  constructor
  · intro ⟨⟨hnot, hnodup⟩, hid, hall⟩
    exact ⟨hid, hnodup, fun k hk => ⟨fun he => hnot (he ▸ hk), hall k hk⟩⟩
  · intro ⟨hid, hnodup, hall⟩
    exact ⟨⟨fun hmem => (hall id hmem).1 rfl, hnodup⟩, hid, fun k hk => (hall k hk).2⟩

namespace State
variable {M : Type}

/-- What the last stage of a request does to the executors and to the assignments. -/
theorem tasksAssignment_moved {s : State M} (hlive : s.Live) (job : Uuid) (tasks : List WorkerTask) :
    Moved s (s.tasksAssignment job tasks).1 (AssignsNew (s.held job)
      ((tasks.map WorkerTask.id).take s.freeExecutors.length)) := by
  induction tasks generalizing s with
  | nil =>
    rw [List.map_nil, List.take_nil]
    exact (Moved.refl s).congr (iff_of_true trivial (assignsNew_nil _))
  | cons task tasks ih =>
    rcases List.eq_nil_or_concat' s.freeExecutors with hnil | ⟨front, id, hfree⟩
    · rw [tasksAssignment_stop hnil, hnil]
      exact (Moved.refl s).congr (iff_of_true trivial (assignsNew_nil _))
    · obtain ⟨t, ht⟩ : ∃ t, t = ({ s with freeExecutors := front } : State M) := ⟨_, rfl⟩
      have hid : id ∈ t.executors := ht ▸ hlive id (by simp [pool, hfree])
      have hmoved := moved_assign (ht ▸ pool_pop hfree) (by rw [ht]) hid
        job task []
      have hstep := hmoved.trans (ih (hmoved.live hlive))
      have hfront : (t.assign id job task []).1.freeExecutors = front := by
        rw [(assign_lookup hid ..).1, ht]
      have hheld : t.held job = s.held job := ht ▸ rfl
      rw [tasksAssignment_next hfree job task tasks ht]
      refine hstep.congr ?_
      rw [hfront, held_assign hid .., hheld, hfree, List.map_cons, List.length_append,
        List.length_singleton, List.take_succ_cons, assignsNew_cons, ← hheld, mem_held]

theorem finish_pool {s : State M} (result : ExecutorResult) :
    (s.finish result).1.executors = s.executors ∧ (s.finish result).1.pool.Perm s.pool := by
  unfold finish
  split
  · rename_i id h
    refine ⟨rfl, .trans ?_ (pool_unassign h).symm⟩
    simp only [pool, List.append_assoc, List.singleton_append]
    exact List.perm_middle
  · exact ⟨rfl, .rfl⟩

/-- Going through the assignments in any order meets every assigned executor. -/
theorem drained_perm {s : State M} {drained : List Key} (h : drained.Perm s.assignments.keys) :
    (drained.filterMap s.assignments.lookup).Perm s.busyExecutors := by
  refine (h.filterMap _).trans ?_
  have hentries : s.assignments.keys.filterMap s.assignments.lookup = s.busyExecutors := by
    rw [AList.keys, List.keys, List.filterMap_map, busyExecutors, ← List.filterMap_eq_map]
    refine List.filterMap_congr fun entry hentry => ?_
    exact AList.mem_lookup_iff.mpr hentry
  rw [hentries]

/-- The request is turned down, since the job's module is not there. -/
def Missing (s : State M) (request : WorkerRequest) : Prop :=
  request.job ∉ s.jobCache ∧ request.jobData = none

/-- A request gives no executor a task that another one still has. -/
def RepeatsNone (s : State M) (request : WorkerRequest) : Prop :=
  s.Missing request ∨
    (ReplacesNew (s.held request.job) request.replacements ∧
      AssignsNew (heldAfter (s.held request.job) request.replacements)
        (given s.freeExecutors.length request.tasks))

instance (s : State M) (request : WorkerRequest) : Decidable (s.Missing request) :=
  decidable_of_iff (request.job ∉ s.jobCache ∧ request.jobData = none) .rfl

instance (s : State M) (request : WorkerRequest) : Decidable (s.RepeatsNone request) :=
  decidable_of_iff (s.Missing request ∨ (ReplacesNew (s.held request.job) request.replacements ∧
    AssignsNew (heldAfter (s.held request.job) request.replacements)
      (given s.freeExecutors.length request.tasks))) .rfl

end State

namespace WasmWorker
variable {s s' : WasmWorker}

theorem processModule_cases (s : WasmWorker) (request : WorkerRequest) :
    (s.Missing request ∧ processModule s request = .error (libraryMissing request)) ∨
      (¬s.Missing request ∧ ∃ jobCache jobArgs, processModule s request =
        .ok { s with jobCache := jobCache, jobArgs := jobArgs }) := by
  unfold processModule
  split
  · rename_i h
    exact .inr ⟨fun missing => missing.1 (LruCache.contains_iff.mp h), _, _, rfl⟩
  · rename_i h
    rw [LruCache.contains_iff] at h
    split
    · rename_i hnone
      exact .inl ⟨⟨h, hnone⟩, rfl⟩
    · rename_i args data hsome
      refine .inr ⟨?_, _, _, rfl⟩
      intro missing
      rw [missing.2] at hsome
      cases hsome

theorem processTaskReplacement_moved (hlive : s.Live) (job : Uuid)
    (replacements : List (TaskId × WorkerTask)) :
    State.Moved s (processTaskReplacement s job replacements).1
        (ReplacesNew (s.held job) replacements) ∧
      (processTaskReplacement s job replacements).1.held job =
        heldAfter (s.held job) replacements ∧
      (processTaskReplacement s job replacements).1.freeExecutors = s.freeExecutors := by
  induction replacements generalizing s with
  | nil => exact ⟨(State.Moved.refl s).congr Iff.rfl, rfl, rfl⟩
  | cons replacement replacements ih =>
    obtain ⟨replaceTaskId, task⟩ := replacement
    unfold ReplacesNew heldAfter
    cases hlookup : s.assignments.lookup (job, replaceTaskId) with
    | none =>
      have hnot : replaceTaskId ∉ s.held job := State.not_held_of_lookup hlookup
      rw [processTaskReplacement_skip hlookup, if_neg hnot, if_neg hnot]
      exact ih hlive
    | some id =>
      have hheld : replaceTaskId ∈ s.held job := State.held_of_lookup hlookup
      obtain ⟨t, ht⟩ : ∃ t, t = State.unassign s (job, replaceTaskId) := ⟨_, rfl⟩
      have hid : id ∈ t.executors :=
        ht ▸ hlive id (List.mem_append_right _ (State.mem_busy.mpr ⟨_, hlookup⟩))
      have hmoved := State.moved_assign (ht ▸ State.pool_unassign hlookup) (by rw [ht]; rfl) hid
        job task []
      obtain ⟨hmoved', hheld', hfree'⟩ := ih (hmoved.live hlive)
      have hafter : (t.assign id job task []).1.held job =
          insert task.id ((s.held job).erase replaceTaskId) := by
        rw [State.held_assign hid .., ht, State.held_unassign]
      have hfree : (t.assign id job task []).1.freeExecutors = s.freeExecutors := by
        rw [(State.assign_lookup hid ..).1, ht]
        rfl
      rw [hafter] at hmoved' hheld'
      rw [processTaskReplacement_next hlookup ht hid, if_pos hheld, if_pos hheld,
        ← State.held_unassign, ← ht, State.mem_held, ht, State.held_unassign, ← ht]
      exact ⟨hmoved.trans hmoved', hheld', hfree'.trans hfree⟩

/-- A request keeps the executors partitioned if and only if it repeats no task still assigned. -/
theorem processRequest_partitioned (hs : s.Partitioned) (request : WorkerRequest) :
    (processRequest s request).1.Partitioned ↔ s.RepeatsNone request := by
  rcases processModule_cases s request with ⟨missing, herror⟩ | ⟨present, jobCache, jobArgs, hok⟩
  · rw [processRequest, herror]
    exact iff_of_true hs (.inl missing)
  · obtain ⟨hmoved, hheld, hfree⟩ := processTaskReplacement_moved
      (s := { s with jobCache := jobCache, jobArgs := jobArgs }) hs.live request.job
      request.replacements
    have hmoved' := State.tasksAssignment_moved (hmoved.live hs.live) request.job
      request.tasks.reverse
    rw [hheld, hfree] at hmoved'
    rw [processRequest, hok]
    exact ((hmoved.trans hmoved').partitioned_iff (hs.cached jobCache jobArgs)).trans
      (or_iff_right present).symm

/-- What a step asks of its event for the partition. -/
def Meets (s : WasmWorker) : WasmEvent → Prop
  | .request request => s.RepeatsNone request
  | _ => True

theorem step_partitioned {e : WasmEvent} {out : List Sent} (hs : s.Partitioned)
    (taken : step s e = .ok (s', out)) : s'.Partitioned ↔ Meets s e := by
  cases e with
  | request request =>
    simp only [step, Except.ok.injEq, Prod.mk.injEq] at taken
    rw [← taken.1]
    exact processRequest_partitioned hs request
  | message executorId result =>
    simp only [step] at taken
    split at taken
    · obtain ⟨hexecutors, hperm⟩ := State.finish_pool (s := s) result
      have hfinish : (s.finish result).1 = s' := congrArg Prod.fst (Except.ok.inj taken)
      rw [← hfinish]
      exact iff_of_true (hs.of_perm hexecutors hperm) trivial
    · cases taken
  | reset drained =>
    simp only [step] at taken
    split at taken
    · rename_i hdrained
      simp only [reset, Except.ok.injEq, Prod.mk.injEq] at taken
      rw [← taken.1]
      refine iff_of_true (hs.of_perm rfl ?_) trivial
      simp only [State.pool, State.busyExecutors, AList.empty_entries, List.map_nil,
        List.append_nil]
      exact (State.drained_perm hdrained).append_left _
    · cases taken
  | compiled job bytes =>
    simp only [step, compile, Except.ok.injEq, Prod.mk.injEq] at taken
    rw [← taken.1]
    exact iff_of_true (hs.cached _ _) trivial

end WasmWorker

end GridServer.NodeWorker
