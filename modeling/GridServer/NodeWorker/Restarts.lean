import GridServer.NodeWorker.Partition

namespace GridServer.NodeWorker
open Library

/-! A restarted executor goes on under another id. -/

namespace State
variable {M : Type}

/-- The executors are partitioned but for `ids`, which a handler has in its hands. -/
structure InHand (s : State M) (ids : List ExecutorId) : Prop where
  nodup : (ids ++ s.pool).Nodup
  mem_iff : ∀ id, id ∈ s.executors ↔ id ∈ ids ++ s.pool

theorem partitioned_iff_inHand {s : State M} : s.Partitioned ↔ s.InHand [] :=
  partitioned_iff.trans ⟨fun h => ⟨h.1, h.2⟩, fun h => ⟨h.nodup, h.mem_iff⟩⟩

theorem InHand.of_perm {s t : State M} {ids ids' : List ExecutorId} (h : s.InHand ids)
    (same : t.executors = s.executors) (hperm : (ids' ++ t.pool).Perm (ids ++ s.pool)) :
    t.InHand ids' := by
  refine ⟨hperm.nodup_iff.mpr h.nodup, fun id => ?_⟩
  rw [same, h.mem_iff, hperm.mem_iff]

/-- Giving a new task to the executor in hand. -/
theorem InHand.assign {s : State M} {id : ExecutorId} {job : Uuid} {task : WorkerTask}
    (h : s.InHand [id]) (hnew : (job, task.id) ∉ s.assignments) :
    (s.assign id job task []).1.Partitioned := by
  have hid : id ∈ s.executors := (h.mem_iff id).mpr List.mem_cons_self
  rw [partitioned_iff_inHand]
  exact h.of_perm (assign_lookup hid ..).2.1 ((assign_pool hid ..).2.1 hnew)

end State

namespace DllWorker
variable {s t : DllWorker} {ids : List ExecutorId}

/-- The executor that is started gets an id not in use. -/
theorem startExecutor_ok {id : ExecutorId} {out : List Sent} {processIds rest : List ExecutorId}
    (hstart : startExecutor s processIds = .ok (t, id, out, rest)) :
    processIds = id :: rest ∧ id ∉ s.executors ∧
      t = { s with executors := insert id s.executors } := by
  cases processIds with
  | nil => cases hstart
  | cons processId processIds =>
    simp only [startExecutor] at hstart
    split at hstart
    · cases hstart
    · rename_i hnot
      simp only [Except.ok.injEq, Prod.mk.injEq] at hstart
      obtain ⟨rfl, rfl, _, rfl⟩ := hstart
      exact ⟨rfl, hnot, rfl⟩

/-- An executor that is there is stopped, and the one that is started gets an id not in use. -/
theorem restartExecutor_ok {id id' : ExecutorId} {out : List Sent}
    {processIds rest : List ExecutorId} (hid : id ∈ s.executors)
    (hrestart : restartExecutor s id processIds = .ok (t, id', out, rest)) :
    processIds = id' :: rest ∧ id' ∉ s.executors.erase id ∧
      t = { s with freeExecutors := s.freeExecutors.filter fun x => x ≠ id
                   executors := insert id' (s.executors.erase id) } := by
  simp only [restartExecutor, stopExecutor, if_pos hid, bind_ok, except_pure, Except.ok.injEq,
    Prod.mk.injEq] at hrestart
  obtain ⟨⟨u, started, _, later⟩, hstart, rfl, rfl, _, rfl⟩ := hrestart
  exact startExecutor_ok hstart

/-- Restarting an executor that is in hand puts another in its place. -/
theorem restartExecutor_inHand {id id' : ExecutorId} {out : List Sent}
    {processIds rest : List ExecutorId} (h : s.InHand (id :: ids))
    (hrestart : restartExecutor s id processIds = .ok (t, id', out, rest)) :
    t.InHand (id' :: ids) ∧ t.freeExecutors = s.freeExecutors ∧ t.assignments = s.assignments ∧
      t.executors.card = s.executors.card := by
  have hid : id ∈ s.executors := (h.mem_iff id).mpr List.mem_cons_self
  have hnodup := List.nodup_cons.mp h.nodup
  have hfree : s.freeExecutors.filter (fun x => x ≠ id) = s.freeExecutors := by
    refine List.filter_eq_self.mpr fun x hx => ?_
    have hne : x ≠ id := by
      intro he
      exact hnodup.1 (List.mem_append_right _ (List.mem_append_left _ (he ▸ hx)))
    simpa using hne
  obtain ⟨_, hnot, ht⟩ := restartExecutor_ok hid hrestart
  rw [hfree] at ht
  have hmem : ∀ x, x ∈ s.executors.erase id ↔ x ∈ ids ++ s.pool := by
    intro x
    rw [Finset.mem_erase, h.mem_iff, List.cons_append, List.mem_cons]
    constructor
    · intro ⟨hne, hx⟩
      exact hx.resolve_left hne
    · intro hx
      exact ⟨fun he => hnodup.1 (he ▸ hx), .inr hx⟩
  have hpool : t.pool = s.pool := by rw [ht]; rfl
  have hexecutors : t.executors = insert id' (s.executors.erase id) := by rw [ht]
  refine ⟨⟨?_, fun x => ?_⟩, by rw [ht], by rw [ht], ?_⟩
  · rw [hpool, List.cons_append, List.nodup_cons, ← hmem]
    exact ⟨hnot, hnodup.2⟩
  · rw [hpool, hexecutors, Finset.mem_insert, hmem, List.cons_append, List.mem_cons]
  · rw [hexecutors, Finset.card_insert_of_notMem hnot, Finset.card_erase_add_one hid]

theorem processTaskReplacement_partitioned {job : Uuid}
    {replacements : List (TaskId × WorkerTask)} {processIds : List ExecutorId} {out : List Sent}
    (hs : s.Partitioned) (hnew : ReplacesNew (s.held job) replacements)
    (hok : processTaskReplacement s job replacements processIds = .ok (t, out)) :
    t.Partitioned ∧ t.held job = heldAfter (s.held job) replacements ∧
      t.freeExecutors = s.freeExecutors ∧ t.executors.card = s.executors.card := by
  induction replacements generalizing s processIds out with
  | nil =>
    simp only [processTaskReplacement, Except.ok.injEq, Prod.mk.injEq] at hok
    obtain ⟨rfl, _⟩ := hok
    exact ⟨hs, rfl, rfl, rfl⟩
  | cons replacement replacements ih =>
    obtain ⟨replaceTaskId, task⟩ := replacement
    unfold ReplacesNew at hnew
    unfold heldAfter
    unfold processTaskReplacement at hok
    cases hlookup : s.assignments.lookup (job, replaceTaskId) with
    | none =>
      have hnot : replaceTaskId ∉ s.held job := State.not_held_of_lookup hlookup
      rw [if_neg hnot] at hnew ⊢
      rw [hlookup] at hok
      exact ih hs hnew hok
    | some id =>
      have hheld : replaceTaskId ∈ s.held job := State.held_of_lookup hlookup
      rw [if_pos hheld] at hnew ⊢
      simp only [hlookup, bind_ok, except_pure, Except.ok.injEq, Prod.mk.injEq, Prod.exists] at hok
      obtain ⟨u, id', restarted, rest, hrestart, v, out', hlater, rfl, _⟩ := hok
      have hhand : (State.unassign s (job, replaceTaskId)).InHand [id] :=
        (State.partitioned_iff_inHand.mp hs).of_perm rfl (State.pool_unassign hlookup).symm
      obtain ⟨hhand', hfree, hassigned, hcard⟩ := restartExecutor_inHand hhand hrestart
      have hid' : id' ∈ u.executors := (hhand'.mem_iff id').mpr List.mem_cons_self
      have hheld' : u.held job = (s.held job).erase replaceTaskId := by
        rw [← State.held_unassign, State.held, hassigned]
        rfl
      rw [← hheld'] at hnew ⊢
      rw [State.mem_held, ← State.held_assign hid' job task []] at hnew
      rw [← State.held_assign hid' job task []]
      obtain ⟨hv, hheldv, hfreev, hcardv⟩ := ih (hhand'.assign hnew.1) hnew.2 hlater
      obtain ⟨hfreea, hexecutorsa, _⟩ := State.assign_lookup hid' job task []
      exact ⟨hv, hheldv, hfreev.trans (hfreea.trans hfree),
        hcardv.trans ((congrArg Finset.card hexecutorsa).trans hcard)⟩

theorem restartAll_partitioned {processIds : List ExecutorId} {out : List Sent}
    (hs : s.InHand ids) (hok : restartAll s ids processIds = .ok (t, out)) :
    t.Partitioned ∧ t.executors.card = s.executors.card := by
  induction ids generalizing s processIds out with
  | nil =>
    simp only [restartAll, Except.ok.injEq, Prod.mk.injEq] at hok
    obtain ⟨rfl, _⟩ := hok
    exact ⟨State.partitioned_iff_inHand.mpr hs, rfl⟩
  | cons id ids ih =>
    simp only [restartAll, bind_ok, except_pure, Except.ok.injEq, Prod.mk.injEq, Prod.exists] at hok
    obtain ⟨u, id', restarted, rest, hrestart, v, out', hlater, rfl, _⟩ := hok
    obtain ⟨hhand, _, _, hcard⟩ := restartExecutor_inHand hs hrestart
    have hfreed : State.InHand { u with freeExecutors := u.freeExecutors ++ [id'] } ids := by
      refine hhand.of_perm rfl ?_
      simp only [State.pool, List.append_assoc, List.singleton_append]
      exact (List.perm_middle.append_left ids).trans List.perm_middle
    obtain ⟨hv, hcard'⟩ := ih hfreed hlater
    exact ⟨hv, hcard'.trans hcard⟩

theorem processLibrary_cases (s : DllWorker) (request : WorkerRequest) :
    (s.Missing request ∧ processLibrary s request = .error (libraryMissing request)) ∨
      (¬s.Missing request ∧ ∃ jobCache jobArgs out, processLibrary s request =
        .ok ({ s with jobCache := jobCache, jobArgs := jobArgs }, out)) := by
  have hpeek := LruCache.get_value s.jobCache request.job
  unfold processLibrary
  split
  · rename_i jobCache value hget
    rw [hget] at hpeek
    refine .inr ⟨fun missing => missing.1 ?_, _, _, _, rfl⟩
    exact AList.lookup_isSome.mp (by rw [← LruCache.peek, ← hpeek]; rfl)
  · rename_i jobCache hget
    rw [hget] at hpeek
    have hnot : request.job ∉ s.jobCache := AList.lookup_eq_none.mp hpeek.symm
    split
    · rename_i hnone
      exact .inl ⟨⟨hnot, hnone⟩, rfl⟩
    · rename_i args data hsome
      refine .inr ⟨?_, _, _, _, rfl⟩
      intro missing
      rw [missing.2] at hsome
      cases hsome

theorem processRequest_partitioned {request : WorkerRequest} {processIds : List ExecutorId}
    {out : List Sent} {error : Option WorkerError} (hs : s.Partitioned)
    (hnew : s.RepeatsNone request)
    (hok : processRequest s request processIds = .ok (t, out, error)) :
    t.Partitioned ∧ t.executors.card = s.executors.card := by
  rcases processLibrary_cases s request with ⟨_, herror⟩ |
    ⟨present, jobCache, jobArgs, cached, hlibrary⟩
  · simp only [processRequest, herror, Except.ok.injEq, Prod.mk.injEq] at hok
    obtain ⟨rfl, _⟩ := hok
    exact ⟨hs, rfl⟩
  · simp only [processRequest, hlibrary, bind_ok, except_pure, Except.ok.injEq, Prod.mk.injEq,
      Prod.exists] at hok
    obtain ⟨u, out', hreplaced, rfl, _, _⟩ := hok
    obtain ⟨hreplaces, hassigns⟩ := hnew.resolve_left present
    obtain ⟨hu, hheld, hfree, hcard⟩ :=
      processTaskReplacement_partitioned (hs.cached jobCache jobArgs) hreplaces hreplaced
    have hmoved := State.tasksAssignment_moved hu.live request.job request.tasks.reverse
    rw [hheld, hfree] at hmoved
    refine ⟨(hmoved.partitioned_iff hu).mpr hassigns, ?_⟩
    exact (congrArg Finset.card hmoved.executors).trans hcard

/-- A free executor that terminates is replaced by the one that is started for it. -/
theorem terminated_free {id : ExecutorId} {error : String} {processIds : List ExecutorId}
    {keys : List Key} {out : List Sent} (hs : s.Partitioned) (hid : id ∈ s.freeExecutors)
    (hok : processMessage s id (.terminated error) processIds keys = .ok (t, out)) :
    t.Partitioned ∧ t.executors.card = s.executors.card := by
  obtain ⟨u, hu⟩ : ∃ u : DllWorker, u = { s with freeExecutors := s.freeExecutors.erase id } :=
    ⟨_, rfl⟩
  have hhand : u.InHand [id] := by
    refine (State.partitioned_iff_inHand.mp hs).of_perm (by rw [hu]) ?_
    rw [hu]
    exact ((List.perm_cons_erase hid).append_right s.busyExecutors).symm
  have hsame : restartExecutor s id processIds = restartExecutor u id processIds := by
    have hid' : id ∈ s.executors := (hs.mem_iff id).mpr (.inl hid)
    have hfilter : (s.freeExecutors.erase id).filter (fun x => x ≠ id) =
        s.freeExecutors.filter fun x => x ≠ id := by
      rw [hs.free_nodup.erase_eq_filter, List.filter_filter]
      refine List.filter_congr fun x _ => ?_
      by_cases hx : x = id <;> simp [hx]
    simp only [restartExecutor, stopExecutor, hu, if_pos hid', hfilter]
  simp only [processMessage, bind_ok, Prod.exists] at hok
  obtain ⟨v, id', restarted, rest, hrestart, hok⟩ := hok
  rw [hsame] at hrestart
  obtain ⟨hhand', hfree, hassigned, hcard⟩ := restartExecutor_inHand hhand hrestart
  have hunused : keys.find? (fun key => v.assignments.lookup key = some id') = none := by
    rw [List.find?_eq_none]
    intro key _ hkey
    have hbusy : id' ∈ v.busyExecutors := State.mem_busy.mpr ⟨key, by simpa using hkey⟩
    exact (List.nodup_cons.mp hhand'.nodup).1
      (List.mem_append_right _ (List.mem_append_right _ hbusy))
  simp only [hunused, except_pure, Except.ok.injEq, Prod.mk.injEq] at hok
  obtain ⟨rfl, _⟩ := hok
  refine ⟨?_, hcard.trans (by rw [hu])⟩
  rw [State.partitioned_iff_inHand]
  refine hhand'.of_perm rfl ?_
  simp only [State.pool, List.append_assoc, List.singleton_append, List.nil_append]
  exact List.perm_middle

/-- An executor that terminates while it has a task keeps it, although it is no executor any
more, unless the one that is started has the same id. -/
theorem terminated_busy {id : ExecutorId} {error : String} {processIds : List ExecutorId}
    {keys : List Key} {out : List Sent} (hs : s.Partitioned) (hid : id ∈ s.busyExecutors)
    (hne : processIds.head? ≠ some id)
    (hok : processMessage s id (.terminated error) processIds keys = .ok (t, out)) :
    ¬t.Partitioned := by
  intro ht
  obtain ⟨key, hkey⟩ := State.mem_busy.mp hid
  have hid' : id ∈ s.executors := (hs.mem_iff id).mpr (.inr hid)
  simp only [processMessage, bind_ok, Prod.exists] at hok
  obtain ⟨v, id', restarted, rest, hrestart, hok⟩ := hok
  obtain ⟨hids, _, hv⟩ := restartExecutor_ok hid' hrestart
  have hne' : id ≠ id' := by
    intro he
    rw [hids, he] at hne
    exact hne rfl
  have hstill : t.assignments.lookup key = some id ∧
      t.executors = insert id' (s.executors.erase id) := by
    split at hok
    · rename_i found hfound
      simp only [except_pure, Except.ok.injEq, Prod.mk.injEq] at hok
      have hother : key ≠ found := by
        intro he
        have hlookup := List.find?_some hfound
        rw [← he, hv] at hlookup
        simp [hkey, hne'] at hlookup
      rw [← hok.1, hv]
      exact ⟨(AList.lookup_erase_ne hother).trans hkey, rfl⟩
    · simp only [except_pure, Except.ok.injEq, Prod.mk.injEq] at hok
      rw [← hok.1, hv]
      exact ⟨hkey, rfl⟩
  have hmem := (ht.mem_iff id).mpr (.inr (State.mem_busy.mpr ⟨key, hstill.1⟩))
  rw [hstill.2, Finset.mem_insert, Finset.mem_erase] at hmem
  exact hmem.elim hne' fun h => h.1 rfl

/-- Where it has, its task is taken out and reported. -/
theorem terminated_same {id : ExecutorId} {error : String} {processIds : List ExecutorId}
    {keys : List Key} {out : List Sent} (hs : s.Partitioned) {key : Key}
    (hkey : s.assignments.lookup key = some id) (hkeys : keys.Perm s.assignments.keys)
    (hsame : processIds.head? = some id)
    (hok : processMessage s id (.terminated error) processIds keys = .ok (t, out)) :
    t.Partitioned ∧ t.executors.card = s.executors.card ∧ key ∉ t.assignments ∧
      Sent.respond (.error (.taskExecutionError key.2 error)) ∈ out := by
  have hid : id ∈ s.busyExecutors := State.mem_busy.mpr ⟨key, hkey⟩
  have hid' : id ∈ s.executors := (hs.mem_iff id).mpr (.inr hid)
  have hfree : s.freeExecutors.filter (fun x => x ≠ id) = s.freeExecutors := by
    refine List.filter_eq_self.mpr fun x hx => ?_
    have hne : x ≠ id := fun he => hs.disjoint id (he ▸ hx) hid
    simpa using hne
  simp only [processMessage, bind_ok, Prod.exists] at hok
  obtain ⟨v, id', restarted, rest, hrestart, hok⟩ := hok
  obtain ⟨hids, _, hv⟩ := restartExecutor_ok hid' hrestart
  rw [hids, List.head?_cons, Option.some.injEq] at hsame
  subst hsame
  rw [hfree, Finset.insert_erase hid'] at hv
  have hv' : v = s := hv
  subst hv'
  have hfound : keys.find? (fun k => v.assignments.lookup k = some id') = some key := by
    have hmem : key ∈ keys := hkeys.mem_iff.mpr (AList.lookup_isSome.mp (by rw [hkey]; rfl))
    cases hf : keys.find? (fun k => v.assignments.lookup k = some id') with
    | none =>
      have hnot := List.find?_eq_none.mp hf key hmem
      simp [hkey] at hnot
    | some found =>
      have hlookup : v.assignments.lookup found = some id' := by
        simpa using List.find?_some hf
      rw [hs.lookup_inj hlookup hkey]
  simp only [hfound, except_pure, Except.ok.injEq, Prod.mk.injEq] at hok
  obtain ⟨rfl, rfl⟩ := hok
  refine ⟨hs.of_perm rfl ?_, rfl, ?_, by simp⟩
  · refine .trans ?_ (State.pool_unassign hkey).symm
    simp only [State.pool, State.unassign, List.append_assoc, List.singleton_append]
    exact List.perm_middle
  · change key ∉ v.assignments.erase key
    rw [AList.mem_erase]
    exact fun h => h.1 rfl

/-- A request repeats no task that is still assigned. -/
def Orderly (s : DllWorker) : DllEvent → Prop
  | .request request _ => s.RepeatsNone request
  | _ => True

instance (s : DllWorker) (e : DllEvent) : Decidable (Orderly s e) :=
  match e with
  | .request request _ => decidable_of_iff (s.RepeatsNone request) .rfl
  | .message _ _ _ _ => .isTrue trivial
  | .reset _ _ => .isTrue trivial

/-- No executor terminates while it has a task, unless the one started for it gets its id. -/
def Spared (s : DllWorker) : DllEvent → Prop
  | .message executorId (.terminated _) processIds _ =>
    executorId ∉ s.busyExecutors ∨ processIds.head? = some executorId
  | _ => True

/-- The task of an executor that terminates is taken out of the assignments and reported. -/
def Reported (s : DllWorker) (e : DllEvent) (s' : DllWorker) (out : List Sent) : Prop :=
  match e with
  | .message executorId (.terminated error) _ _ =>
    ∀ key, s.assignments.lookup key = some executorId →
      key ∉ s'.assignments ∧ Sent.respond (.error (.taskExecutionError key.2 error)) ∈ out
  | _ => True

/-- A step keeps the executors partitioned and their number, and reports what it loses. -/
structure Kept (s : DllWorker) (e : DllEvent) (s' : DllWorker) (out : List Sent) : Prop where
  partitioned : s'.Partitioned
  card : s'.executors.card = s.executors.card
  reported : Reported s e s' out

theorem step_kept {e : DllEvent} {out : List Sent} (hs : s.Partitioned) (orderly : Orderly s e)
    (taken : step s e = .ok (t, out)) : Kept s e t out ↔ Spared s e := by
  cases e with
  | request request processIds =>
    simp only [step, bind_ok, except_pure, Except.ok.injEq, Prod.mk.injEq, Prod.exists] at taken
    obtain ⟨u, out', error, hrequest, rfl, _⟩ := taken
    obtain ⟨hu, hcard⟩ := processRequest_partitioned hs orderly hrequest
    exact iff_of_true ⟨hu, hcard, trivial⟩ trivial
  | message id event processIds keys =>
    simp only [step] at taken
    split at taken
    · rename_i there
      cases event with
      | terminated error =>
        constructor
        · intro kept
          rw [Spared, or_iff_not_imp_left, not_not]
          intro hid
          by_contra hne
          exact terminated_busy hs hid hne taken kept.partitioned
        · intro spared
          by_cases hid : id ∈ s.busyExecutors
          · have hsame := spared.resolve_left (not_not.mpr hid)
            obtain ⟨key, hkey⟩ := State.mem_busy.mp hid
            obtain ⟨ht, hcard, _⟩ := terminated_same hs hkey there.2 hsame taken
            refine ⟨ht, hcard, fun key' hkey' => ?_⟩
            exact (terminated_same hs hkey' there.2 hsame taken).2.2
          · have hfree := ((hs.mem_iff id).mp there.1).resolve_right hid
            obtain ⟨ht, hcard⟩ := terminated_free hs hfree taken
            refine ⟨ht, hcard, fun key hkey => ?_⟩
            exact absurd (State.mem_busy.mpr ⟨key, hkey⟩) hid
      | result result =>
        obtain ⟨hexecutors, hperm⟩ := State.finish_pool (s := s) result
        have hfinish : (s.finish result).1 = t := congrArg Prod.fst (Except.ok.inj taken)
        rw [hfinish] at hexecutors hperm
        exact iff_of_true ⟨hs.of_perm hexecutors hperm, by rw [hexecutors], trivial⟩ trivial
    · cases taken
  | reset drained processIds =>
    simp only [step] at taken
    split at taken
    · rename_i hdrained
      have hhand : State.InHand ({ s with assignments := ∅ } : DllWorker)
          (drained.filterMap s.assignments.lookup) := by
        refine (State.partitioned_iff_inHand.mp hs).of_perm rfl ?_
        simp only [State.pool, State.busyExecutors, AList.empty_entries, List.map_nil,
          List.append_nil, List.nil_append]
        exact ((State.drained_perm hdrained).append_right _).trans List.perm_append_comm
      obtain ⟨ht, hcard⟩ := restartAll_partitioned hhand taken
      exact iff_of_true ⟨ht, hcard, trivial⟩ trivial
    · cases taken

end DllWorker

end GridServer.NodeWorker
