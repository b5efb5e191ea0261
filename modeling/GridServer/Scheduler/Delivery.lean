import GridServer.Library.Partition
import GridServer.Scheduler.Ledger
import GridServer.Scheduler.Signals

namespace GridServer
open Library

/-- The tasks a move queues. -/
def Move.queued : Move → List TaskId
  | .queue t => [t]
  | _ => []

/-- A move that takes no task off the queue and completes none. -/
def Move.Keeps : Move → Prop
  | .complete .. | .clear | .start => False
  | _ => True

namespace Board
variable {b : Board}

theorem abandon_tasks (w : WorkerId) (ts : List TaskId) (b : Board) (t : TaskId) :
    ((ts.foldl (abandon w) b).tasks t).isSome = (b.tasks t).isSome ∧
      (ts.foldl (abandon w) b).completed = b.completed := by
  induction ts generalizing b with
  | nil => exact ⟨rfl, rfl⟩
  | cons k ts ih =>
    rw [List.foldl_cons, (ih _).1, (ih _).2, abandon]
    split
    · rename_i ws hk
      refine ⟨?_, rfl⟩
      by_cases ht : t = k
      · subst ht
        simp [setTask, hk]
      · simp [setTask, Function.update_of_ne ht]
    · exact ⟨rfl, rfl⟩

/-- Such a move queues what it says and changes nothing else about what is queued or done. -/
theorem keeps_move {m : Move} (keeps : m.Keeps) (b : Board) :
    (b.move m).completed = b.completed ∧
      ∀ t, ((b.move m).tasks t).isSome ↔ (b.tasks t).isSome ∨ t ∈ m.queued := by
  cases m with
  | complete w t | clear | start => exact keeps.elim
  | give w k =>
    simp only [move, give]
    split
    · rename_i ws _ hk
      refine ⟨rfl, ?_⟩
      intro t
      by_cases ht : t = k
      · subst ht
        simp [setTask, editWorker, hk]
      · simp [setTask, editWorker, Function.update_of_ne ht, Move.queued]
    · exact ⟨rfl, by simp [Move.queued]⟩
  | report w k due =>
    simp only [move, report]
    split
    · rename_i ws _ hk
      refine ⟨rfl, ?_⟩
      intro t
      by_cases ht : t = k
      · subst ht
        simp [setTask, editWorker, hk]
      · simp [setTask, editWorker, Function.update_of_ne ht, Move.queued]
    · exact ⟨rfl, by simp [Move.queued, editWorker]⟩
    · exact ⟨rfl, by simp [Move.queued]⟩
  | leave w =>
    refine ⟨(abandon_tasks w _ _ 0).2, ?_⟩
    intro t
    rw [show b.move (.leave w) = (b.holds w).foldl (abandon w)
      { b with workers := Function.update b.workers w none } from rfl, (abandon_tasks w _ _ t).1]
    simp [Move.queued]
  | queue k =>
    refine ⟨rfl, ?_⟩
    intro t
    by_cases ht : t = k
    · subst ht
      simp [move, setTask, Move.queued]
    · simp [move, setTask, Move.queued, ht]
  | useReplacement w | join w n | shrink w n | forget =>
    exact ⟨rfl, by simp [move, Move.queued, editWorker]⟩

theorem keeps_moves {ms : List Move} (keeps : ∀ m ∈ ms, m.Keeps) (b : Board) :
    (ms.foldl move b).completed = b.completed ∧
      ∀ t, ((ms.foldl move b).tasks t).isSome ↔ (b.tasks t).isSome ∨ t ∈ ms.flatMap Move.queued := by
  induction ms generalizing b with
  | nil => simp
  | cons m ms ih =>
    obtain ⟨hc, ht⟩ := keeps_move (keeps m List.mem_cons_self) b
    obtain ⟨hcs, hts⟩ := ih (fun m hm => keeps m (List.mem_cons_of_mem _ hm)) (b.move m)
    refine ⟨hcs.trans hc, ?_⟩
    intro t
    rw [List.foldl_cons, hts, ht, List.flatMap_cons, List.mem_append, or_assoc]

end Board

/-- The results that a message to the task manager carries. -/
def Sent.batch? : Sent → Option (List WorkerResult)
  | .taskManager (.taskResults batch) => some batch
  | .taskManager (.jobComplete batch _) => some batch
  | _ => none

/-- The results that a `JobComplete` carries. -/
def Sent.lastBatch? : Sent → Option (List WorkerResult)
  | .taskManager (.jobComplete batch _) => some batch
  | _ => none

/-- The batches of results among the messages, in the order they were sent. -/
def batches (out : List Sent) : List (List WorkerResult) := out.filterMap Sent.batch?

def completions (out : List Sent) : List (List WorkerResult) := out.filterMap Sent.lastBatch?

/-- The tasks that a batch from the task manager brings. -/
def Event.taskIds : Event → List TaskId
  | .taskManager (.message (.task batch)) => batch.map WorkerTask.id
  | _ => []

def received (es : List Event) : List TaskId := es.flatMap Event.taskIds

theorem batches_eq_nil {out : List Sent} (h : ∀ m ∈ out, m.batch? = none) :
    batches out = [] ∧ completions out = [] := by
  refine ⟨List.filterMap_eq_nil_iff.mpr h, List.filterMap_eq_nil_iff.mpr ?_⟩
  intro m hm
  have hb := h m hm
  unfold Sent.batch? at hb
  unfold Sent.lastBatch?
  split at hb <;> simp_all

namespace Scheduler

variable {checks : Bool} {s s' : Scheduler} {job : ScheduledJob} {out : List Sent}

/-- The result that an event brings, when it is the first of its task. -/
def accepts (s : Scheduler) : Event → Option WorkerResult
  | .worker (.message _ (.result result)) =>
    if s.scheduledJob.isSome ∧ (s.tasksQueue.get result.id).isSome then some result else none
  | _ => none

/-- The results accepted in the course of the events, in that order. -/
def acceptedResults (checks : Bool) (s : Scheduler) (es : List Event) : List WorkerResult :=
  history (step checks) (fun done s e _ => done ++ (s.accepts e).toList) [] s es

/-- The events of a job: all but the start of another, the departure of the task manager, and a
failure that gives the job up. -/
def JobEvent (s : Scheduler) : Event → Prop
  | .taskManager (.message (.newJob ..)) | .taskManager .disconnect => False
  | .worker (.message w (.error (.taskExecutionError t _))) => ¬s.Aborts w t
  | _ => True

instance (s : Scheduler) : (e : Event) → Decidable (s.JobEvent e)
  | .taskManager (.message (.newJob ..)) | .taskManager .disconnect =>
    inferInstanceAs (Decidable False)
  | .worker (.message w (.error (.taskExecutionError t _))) =>
    inferInstanceAs (Decidable (¬s.Aborts w t))
  | .taskManager (.message .helloMessage) | .taskManager (.message (.task _))
  | .taskManager (.connected _) | .nodeManager _ | .worker (.connected ..)
  | .worker (.disconnected _) | .worker (.message _ (.result _))
  | .worker (.message _ (.error (.libraryMissing ..)))
  | .worker (.message _ (.error (.noFreeExecutors _))) | .command _ | .schedule =>
    inferInstanceAs (Decidable True)

/-- What has been delivered of a job of `totalTasks` tasks. -/
structure Delivers (totalTasks : Nat) (done : List WorkerResult) (es : List Event)
    (out : List Sent) (s : Scheduler) (job : ScheduledJob) : Prop where
  total : job.totalTasks = totalTasks
  tasks : Partition (received es) (done.map WorkerResult.id) fun t => (s.tasksQueue.get t).isSome
  count : done.length = job.completedTasks
  order : (batches out).flatten ++ s.resultsBuffer.contents = done
  completion : (job.completedTasks < totalTasks ∧ completions out = []) ∨
    (job.completedTasks = totalTasks ∧ s.resultsBuffer.contents = [] ∧
      ∃ batch, completions out = [batch] ∧ 1 ≤ batch.length ∧ batch.length ≤ 200 ∧
        batch.getLast? = done.getLast?)

/-- Only results complete tasks, and only batches from the task manager queue them. -/
theorem Traces.keeps {e : Event} {ms : List Move} (traces : Traces checks s job e ms)
    (hne : ∀ w result, e ≠ .worker (.message w (.result result))) :
    (∀ m ∈ ms, m.Keeps) ∧ ms.flatMap Move.queued = e.taskIds := by
  have of_forall : ∀ {ms : List Move} {ids : List TaskId}, ids = [] →
      (∀ m ∈ ms, m.Keeps ∧ m.queued = []) → (∀ m ∈ ms, m.Keeps) ∧ ms.flatMap Move.queued = ids := by
    intro ms ids hids h
    exact ⟨fun m hm => (h m hm).1, hids ▸ List.flatMap_eq_nil_iff.mpr fun m hm => (h m hm).2⟩
  cases traces with
  | idle => exact of_forall rfl (by simp)
  | schedule tasks replacements =>
    apply of_forall rfl
    intro m hm
    cases List.mem_append.mp hm with
    | inl hm =>
      obtain ⟨t, _, rfl⟩ := List.mem_map.mp hm
      exact ⟨trivial, rfl⟩
    | inr hm =>
      obtain ⟨r, _, hm⟩ := List.mem_flatMap.mp hm
      simp only [replacementMoves, List.mem_cons, List.not_mem_nil, or_false] at hm
      rcases hm with rfl | rfl
      · exact ⟨trivial, rfl⟩
      · exact ⟨trivial, rfl⟩
  | event _ hschedule =>
    cases e with
    | schedule => exact absurd rfl hschedule
    | command => exact of_forall rfl (by simp [moves])
    | taskManager event =>
      cases event with
      | message request =>
        cases request with
        | helloMessage | newJob => exact of_forall rfl (by simp [moves])
        | task batch =>
          refine ⟨?_, ?_⟩
          · intro m hm
            obtain ⟨t, _, rfl⟩ := List.mem_map.mp hm
            trivial
          · simp only [moves, Event.taskIds, List.flatMap_map, Move.queued]
            exact List.flatMap_pure_eq_map _ _
      | disconnect | connected => exact of_forall rfl (by simp [moves])
    | nodeManager event =>
      cases event with
      | message response =>
        cases response with
        | createdSession =>
          apply of_forall rfl
          intro m hm
          simp only [moves] at hm
          split at hm
          · cases hm
          · rw [List.mem_singleton.mp hm]
            exact ⟨trivial, rfl⟩
        | restoredSession | connect => exact of_forall rfl (by simp [moves])
        | disconnect w => exact of_forall rfl (by simp [moves, Move.Keeps, Move.queued])
      | disconnected | connected | connectionNotEstablished => exact of_forall rfl (by simp [moves])
    | worker event =>
      cases event with
      | connected | disconnected => exact of_forall rfl (by simp [moves, Move.Keeps, Move.queued])
      | message w response =>
        cases response with
        | result result => exact absurd rfl (hne w result)
        | error error =>
          cases error with
          | libraryMissing tasks replacements =>
            apply of_forall rfl
            intro m hm
            cases List.mem_append.mp hm with
            | inl hm =>
              obtain ⟨t, _, rfl⟩ := List.mem_map.mp hm
              exact ⟨trivial, rfl⟩
            | inr hm =>
              obtain ⟨r, _, rfl⟩ := List.mem_map.mp hm
              exact ⟨trivial, rfl⟩
          | taskExecutionError t error =>
            exact of_forall rfl (by simp [moves, Move.Keeps, Move.queued])
          | noFreeExecutors tasks =>
            apply of_forall rfl
            intro m hm
            simp only [moves, refusal] at hm
            cases List.mem_append.mp hm with
            | inl hm =>
              split at hm
              · rw [List.mem_singleton.mp hm]
                exact ⟨trivial, rfl⟩
              · cases hm
            | inr hm =>
              obtain ⟨t, _, rfl⟩ := List.mem_map.mp hm
              exact ⟨trivial, rfl⟩

/-- An event of the job, other than a result, delivers nothing. -/
theorem step_undelivered {e : Event} (event : s.JobEvent e)
    (hne : ∀ w result, e ≠ .worker (.message w (.result result)))
    (h : s.step checks e = .ok (s', out)) :
    (∀ m ∈ out, m.batch? = none) ∧ s'.resultsBuffer = s.resultsBuffer ∧
      s'.scheduledJob.isSome = s.scheduledJob.isSome := by
  have silent : ∀ {s' out}, Silent s s' out → (∀ m ∈ out, m.batch? = none) ∧
      s'.resultsBuffer = s.resultsBuffer ∧ s'.scheduledJob.isSome = s.scheduledJob.isSome := by
    intro s' out hs
    refine ⟨?_, hs.buffer, hs.job⟩
    intro m hm
    have := hs.signals m hm
    cases m with
    | taskManager => exact absurd trivial this
    | _ => rfl
  rcases e.quiet_or with quiet | ⟨_, _, _, rfl⟩ | rfl | rfl | rfl | rfl | ⟨w, result, rfl⟩ |
    ⟨w, t, error, rfl⟩
  · exact silent (step_silent quiet h)
  · exact event.elim
  · exact event.elim
  · rcases processCreatedSession_ok h with ⟨rfl, rfl, _⟩ | ⟨_, _, _, rfl, hend⟩
    · exact silent (.refl s)
    · rcases hend with ⟨hj, _, rfl, rfl⟩ | ⟨_, hj, _, rfl, rfl⟩
      · exact ⟨by simp, rfl, by rw [hj]⟩
      · exact ⟨by simp [Sent.batch?], rfl, by rw [hj]; rfl⟩
  · simp only [step, processNodeManager, Except.ok.injEq, Prod.mk.injEq] at h
    obtain ⟨rfl, rfl⟩ := h
    exact ⟨by simp, rfl, rfl⟩
  · simp only [step, processNodeManager, Except.ok.injEq, Prod.mk.injEq] at h
    obtain ⟨rfl, rfl⟩ := h
    exact ⟨by simp [Sent.batch?], rfl, rfl⟩
  · exact absurd rfl (hne w result)
  · cases processTaskExecutionError_cases h with
    | inl aborted => exact absurd aborted.1 event
    | inr kept => exact silent kept.2

section Deliveries
variable {totalTasks : Nat} {done : List WorkerResult} {es : List Event} {out' : List Sent}

theorem batches_append (out out' : List Sent) : batches (out ++ out') = batches out ++ batches out' :=
  List.filterMap_append

theorem completions_append (out out' : List Sent) :
    completions (out ++ out') = completions out ++ completions out' :=
  List.filterMap_append

theorem received_snoc (es : List Event) (e : Event) :
    received (es ++ [e]) = received es ++ e.taskIds := by
  simp [received]

/-- A step that delivers nothing. -/
theorem Delivers.other (sound : s.Sound) (hj : s.scheduledJob = some job)
    (d : Delivers totalTasks done es out s job) {e : Event} (event : s.JobEvent e)
    (hne : ∀ w result, e ≠ .worker (.message w (.result result)))
    (distinct : (received (es ++ [e])).Nodup) (h : s.step checks e = .ok (s', out')) :
    ∃ job', s'.scheduledJob = some job' ∧
      Delivers totalTasks done (es ++ [e]) (out ++ out') s' job' := by
  obtain ⟨hout, hbuffer, hsome⟩ := step_undelivered event hne h
  obtain ⟨hbatches, hcompletions⟩ := batches_eq_nil hout
  rw [received_snoc] at distinct
  have hnone : s'.scheduledJob ≠ none := by
    intro hn
    rw [hn, hj] at hsome
    cases hsome
  have hnew : ∀ id totalTasks data, e ≠ .taskManager (.message (.newJob id totalTasks data)) := by
    rintro id totalTasks data rfl
    exact event
  cases (step_moved sound hj hnew h).2 with
  | jobless hn => exact absurd hn hnone
  | abandoned _ _ _ _ _ _ _ hn => exact absurd hn hnone
  | started id totalTasks data he => exact absurd he (hnew id totalTasks data)
  | moved job₀ ms hj₀ traces follows =>
    rw [hj, Option.some.injEq] at hj₀
    subst hj₀
    obtain ⟨job', hj', continues, hboard⟩ := follows.books
    obtain ⟨keeps, hqueued⟩ := traces.keeps hne
    obtain ⟨hcompleted, htasks⟩ := Board.keeps_moves keeps (s.board job)
    rw [← hboard] at hcompleted htasks
    have hcount : job'.completedTasks = job.completedTasks := hcompleted
    refine ⟨job', hj', continues.2.1.trans d.total, ?_, ?_, ?_, ?_⟩
    · rw [received_snoc]
      apply d.tasks.receive
      · intro t ht hold
        exact (List.nodup_append.mp distinct).2.2 t hold t ht rfl
      · intro t
        have := htasks t
        rw [board_tasks, board_tasks, Option.isSome_map, Option.isSome_map, hqueued] at this
        exact this
    · rw [hcount, d.count]
    · rw [batches_append, hbatches, hbuffer, List.append_nil]
      exact d.order
    · rw [completions_append, hcompletions, List.append_nil, hcount, hbuffer]
      exact d.completion

/-- A step that takes a result. -/
theorem Delivers.result (sound : s.Sound) (hj : s.scheduledJob = some job)
    (d : Delivers totalTasks done es out s job) {w : WorkerId} {result : WorkerResult}
    (number : (received es).length ≤ totalTasks)
    (h : s.processResult checks w result = .ok (s', out')) :
    ∃ job', s'.scheduledJob = some job' ∧
      Delivers totalTasks (done ++ (s.accepts (.worker (.message w (.result result)))).toList)
        (es ++ [.worker (.message w (.result result))]) (out ++ out') s' job' := by
  have hreceived : received (es ++ [.worker (.message w (.result result))]) = received es := by
    rw [received_snoc]
    exact List.append_nil _
  cases ht : s.tasksQueue.get result.id with
  | none =>
    obtain ⟨rfl, ⟨workersQueue, need, rfl⟩, _⟩ := processResult_late sound hj ht h
    have haccepts : s.accepts (.worker (.message w (.result result))) = none := by
      simp [accepts, ht]
    rw [haccepts, Option.toList_none, List.append_nil, List.append_nil]
    exact ⟨job, hj, d.total, hreceived ▸ d.tasks, d.count, d.order, d.completion⟩
  | some task =>
    obtain ⟨average, tasksQueue, workersQueue, buffer, batch, hremove, hpush, _, _, _, hend⟩ :=
      processResult_queued sound hj ht h
    have haccepts : s.accepts (.worker (.message w (.result result))) = some result := by
      simp [accepts, ht, hj]
    obtain ⟨hcontents, hlast⟩ := Buffer.push_content (by omega) hpush
    have hget : tasksQueue.get = Function.update s.tasksQueue.get result.id none := by
      rcases PriorityQueue.remove_content sound.tasks.indexed hremove with
        ⟨hnone, _⟩ | ⟨_, _, _, _, hget⟩
      · cases hnone
      · exact hget
    have hqueued : (s.tasksQueue.get result.id).isSome := by rw [ht]; rfl
    have htasks : Partition (received es) (done.map WorkerResult.id ++ [result.id])
        fun t => (tasksQueue.get t).isSome := by
      apply d.tasks.accept hqueued
      intro t
      rw [hget]
      by_cases he : t = result.id
      · simp [he]
      · simp [he]
    have hcount : (done ++ [result]).length = job.completedTasks + 1 := by
      rw [List.length_append, d.count, List.length_singleton]
    have hmore : job.completedTasks < totalTasks := by
      have hle := htasks.length_le
      rw [← List.map_singleton, ← List.map_append, List.length_map, hcount] at hle
      omega
    have hnone : completions out = [] := by
      cases d.completion with
      | inl hc => exact hc.2
      | inr hc => omega
    have hsent : ∀ rest, batches (batch.toList.map (fun batch => .taskManager (.taskResults batch)) ++
        rest) = batch.toList ++ batches rest := by
      intro rest
      cases batch <;> simp [batches, Sent.batch?]
    have hfinal : ∀ rest, completions (batch.toList.map
        (fun batch => .taskManager (.taskResults batch)) ++ rest) = completions rest := by
      intro rest
      cases batch with
      | none => rfl
      | some batch => exact List.filterMap_cons_none rfl
    rw [haccepts, Option.toList_some]
    rcases hend with ⟨hdone, rfl, rfl⟩ | ⟨hgoing, rfl, rfl⟩
    · refine ⟨_, rfl, d.total, ?_, hcount, ?_, .inr ⟨hdone.trans d.total, rfl, buffer.contents, ?_⟩⟩
      · -- with all of them done, none is left for the reset to drop
        rw [hreceived, List.map_append, List.map_singleton]
        apply htasks.congr
        intro t
        have := htasks.not_pending (by
          rw [← List.map_singleton, ← List.map_append, List.length_map, hcount, hdone, d.total]
          exact number) t
        simp [reset, this]
      · rw [batches_append, hsent]
        simp only [batches, List.filterMap_cons, Sent.batch?, List.filterMap_nil, reset,
          Buffer.contents_clear, List.append_nil, List.flatten_append, List.flatten_cons,
          List.flatten_nil]
        rw [hcontents, ← List.append_assoc]
        exact congrArg (· ++ [result]) d.order
      · refine ⟨?_, ?_, ?_, ?_⟩
        · rw [completions_append, hnone, hfinal]
          rfl
        · cases hb : buffer.contents with
          | nil =>
            rw [hb] at hlast
            cases hlast
          | cons => simp
        · rw [Buffer.length_contents]
          exact buffer.filled_le
        · rw [hlast, List.getLast?_concat]
    · refine ⟨_, rfl, d.total, ?_, hcount, ?_, .inl ⟨?_, ?_⟩⟩
      · rw [hreceived, List.map_append, List.map_singleton]
        exact htasks
      · have := hsent []
        rw [List.append_nil] at this
        rw [batches_append, this]
        simp only [batches, List.filterMap_nil, List.append_nil, List.flatten_append, accepted]
        rw [List.append_assoc, hcontents, ← List.append_assoc]
        exact congrArg (· ++ [result]) d.order
      · rw [d.total] at hgoing
        exact show job.completedTasks + 1 < totalTasks by omega
      · have := hfinal []
        rw [List.append_nil] at this
        rw [completions_append, hnone, this]
        rfl

theorem Delivers.step (sound : s.Sound) (hj : s.scheduledJob = some job)
    (d : Delivers totalTasks done es out s job) {e : Event} (event : s.JobEvent e)
    (distinct : (received (es ++ [e])).Nodup) (number : (received (es ++ [e])).length ≤ totalTasks)
    (h : s.step checks e = .ok (s', out')) :
    ∃ job', s'.scheduledJob = some job' ∧
      Delivers totalTasks (done ++ (s.accepts e).toList) (es ++ [e]) (out ++ out') s' job' := by
  by_cases hresult : ∃ w result, e = .worker (.message w (.result result))
  · obtain ⟨w, result, rfl⟩ := hresult
    apply d.result sound hj _ h
    rw [received_snoc, List.length_append] at number
    omega
  · have hne : ∀ w result, e ≠ .worker (.message w (.result result)) :=
      fun w result he => hresult ⟨w, result, he⟩
    have haccepts : s.accepts e = none := by
      unfold accepts
      split
      · exact absurd rfl (hne _ _)
      · rfl
    rw [haccepts, Option.toList_none, List.append_nil]
    exact d.other sound hj event hne distinct h

/-- Nothing is delivered of a job that has just been submitted. -/
theorem delivers_newJob (s : Scheduler) (id : Uuid) (totalTasks : Nat) (data : WorkerJobData)
    (h : 1 ≤ totalTasks) :
    ∃ job, (s.processNewJob id totalTasks data).1.scheduledJob = some job ∧
      Delivers totalTasks [] [] [] (s.processNewJob id totalTasks data).1 job := by
  refine ⟨_, rfl, rfl, .start ?_, rfl, rfl, .inl ⟨h, rfl⟩⟩
  simp [processNewJob, reset]

/-- The rule for deliveries: at every point of a job's run. -/
theorem delivers_of_run {id : Uuid} {data : WorkerJobData} (h : 1 ≤ totalTasks)
    (run : Run (step checks) JobEvent (s.processNewJob id totalTasks data).1 es out s')
    (distinct : (received es).Nodup) (number : (received es).length ≤ totalTasks) :
    ∃ job, s'.scheduledJob = some job ∧ Delivers totalTasks
      (acceptedResults checks (s.processNewJob id totalTasks data).1 es) es out s' job := by
  have hrun := run.invariant_history (g := [])
    (fun (done : List WorkerResult) s e (_ : List Sent) => done ++ (s.accepts e).toList)
    (I := fun done es out t => t.Sound ∧ ((received es).Nodup → (received es).length ≤ totalTasks →
      ∃ job, t.scheduledJob = some job ∧ Delivers totalTasks done es out t job))
    ⟨⟨.clear, .clear, by simp [processNewJob]⟩, fun _ _ => delivers_newJob s id totalTasks data h⟩ ?_
  · exact hrun.2 distinct number
  · intro done es out t e u out' hI event taken
    refine ⟨(step_outcome hI.1 taken).1, ?_⟩
    intro distinct number
    have hsplit := received_snoc es e
    obtain ⟨job, hj, d⟩ := hI.2 (by
      rw [hsplit] at distinct
      exact (List.nodup_append.mp distinct).1) (by
      rw [hsplit, List.length_append] at number
      omega)
    exact d.step hI.1 hj event distinct number taken

/-- A job's results reach the task manager once each, in the order they were accepted. In every
run from the start of a job, with no task submitted twice and no more tasks than announced, the
results sent so far and then those still buffered are the accepted ones, as many as are counted as
completed; with the queued tasks they account for every task received. `JobComplete` is sent once,
when the last task is completed, with 1 to 200 results that end in the last one accepted, and by
then the batches hold every task of the job. -/
theorem run_delivers {id : Uuid} {data : WorkerJobData} (h : 1 ≤ totalTasks)
    (run : Run (Scheduler.step checks) JobEvent (s.processNewJob id totalTasks data).1 es out s')
    (distinct : (received es).Nodup) (number : (received es).length ≤ totalTasks) :
    ∃ job, s'.scheduledJob = some job ∧ job.totalTasks = totalTasks ∧
      job.completedTasks ≤ totalTasks ∧
      let done := acceptedResults checks (s.processNewJob id totalTasks data).1 es
      (done.map WorkerResult.id).Nodup ∧ done.length = job.completedTasks ∧
      (job.completedTasks < totalTasks →
        completions out = [] ∧
        (batches out).flatten ++ s'.resultsBuffer.contents = done ∧
        (∀ t, t ∈ received es ↔
          t ∈ done.map WorkerResult.id ∨ (s'.tasksQueue.get t).isSome) ∧
        ∀ t ∈ done.map WorkerResult.id, s'.tasksQueue.get t = none) ∧
      (job.completedTasks = totalTasks →
        (∃ batch, completions out = [batch] ∧ 1 ≤ batch.length ∧ batch.length ≤ 200 ∧
          batch.getLast? = done.getLast?) ∧
        (batches out).flatten = done ∧
        (done.map WorkerResult.id).Perm (received es) ∧ (received es).length = totalTasks) := by
  obtain ⟨job, hj, d⟩ := delivers_of_run h run distinct number
  have hle : job.completedTasks ≤ totalTasks := by
    cases d.completion with
    | inl hc => omega
    | inr hc => omega
  refine ⟨job, hj, d.total, hle, d.tasks.distinct, d.count, ?_, ?_⟩
  · intro hlt
    refine ⟨?_, d.order, d.tasks.covers, ?_⟩
    · cases d.completion with
      | inl hc => exact hc.2
      | inr hc => omega
    · intro t ht
      exact Option.not_isSome_iff_eq_none.mp (d.tasks.apart t ht)
  · intro hdone
    have hall := d.tasks.perm (by
      rw [List.length_map, d.count, hdone]
      exact number)
    cases d.completion with
    | inl hc => omega
    | inr hc =>
      obtain ⟨_, hempty, hlast⟩ := hc
      have horder := d.order
      rw [hempty, List.append_nil] at horder
      refine ⟨hlast, horder, hall, ?_⟩
      rw [← hall.length_eq, List.length_map, d.count, hdone]

end Deliveries

/-- A job of two tasks whose results come out of order, one of them twice. -/
theorem run_delivers_small : ∃ out s,
    Run (step true) JobEvent ((Scheduler.new smallConfig).processNewJob 7 2
        ⟨[], [(smallPlatform, [1])], by decide⟩).1
      [tasksOf [0], joinOf 1 2, .schedule, tasksOf [1], .schedule, resultOf 1 1, resultOf 1 1,
        resultOf 1 0] out s ∧
      ∃ job, s.scheduledJob = some job ∧ job.completedTasks = 2 ∧
        ((batches out).flatten.map WorkerResult.id).Perm [0, 1] := by
  obtain ⟨s, out, run, h⟩ := exists_run (step true) JobEvent
    ((Scheduler.new smallConfig).processNewJob 7 2 ⟨[], [(smallPlatform, [1])], by decide⟩).1
    [tasksOf [0], joinOf 1 2, .schedule, tasksOf [1], .schedule, resultOf 1 1, resultOf 1 1,
      resultOf 1 0]
    (fun r => r.1.scheduledJob.any (·.completedTasks = 2)) (by decide +kernel)
  obtain ⟨job, hj, _, _, _, _, _, hdone⟩ := run_delivers (by decide) run (by decide) (by decide)
  have hcompleted : job.completedTasks = 2 := by simpa [hj] using h
  obtain ⟨_, hbatches, hall, _⟩ := hdone hcompleted
  exact ⟨out, s, run, job, hj, hcompleted, hbatches ▸ hall⟩

end Scheduler
end GridServer
