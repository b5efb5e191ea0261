import GridServer.Jobs.Manager
import GridServer.Library.Service

namespace GridServer.Jobs
open Library

variable {Data Work Output : Type} {engine : Engine Data Work Output}

namespace State
variable {s t : State Data Work Output} {out : List (Sent Data Output)} {e : Event Data}

/-- A task manager serves its jobs, of which it knows the ids. -/
def service (s : State Data Work Output) : Service Uuid :=
  { waiting := s.jobsQueue.map Job.id
    serving := s.currentJob.map Job.id
    served := s.jobsFinished.map Job.id }

/-- What an event is to the jobs, unless it finishes the current one. -/
def move (s : State Data Work Output) : Event Data → Service.Move Uuid
  | .command (.addJob _ id) => .arrive id
  | .command (.cancelJob uuid) =>
    if s.currentJob.any fun job => job.id = uuid then .stay else .withdraw uuid
  | .processJob => if s.currentJob.isNone then .take else .stay
  | _ => .stay

theorem finish_service (s : State Data Work Output) (result : JobResult Output) :
    (s.finish result).service = s.service.apply .finish := by
  unfold finish
  cases hc : s.currentJob with
  | none => simp [service, Service.apply, hc]
  | some job => simp [service, Service.apply, hc]

theorem follow_ok {flow : Flow Output} {out' : List (Sent Data Output)}
    (h : follow (s, out, flow) = .ok (t, out')) :
    out' = out ∧ (flow = .continue ∧ t = s ∨ ∃ result, flow = .finish result ∧ t = s.finish result) := by
  cases flow with
  | «continue» =>
    simp only [follow, Except.ok.injEq, Prod.mk.injEq] at h
    exact ⟨h.2.symm, .inl ⟨rfl, h.1.symm⟩⟩
  | finish result =>
    simp only [follow, Except.ok.injEq, Prod.mk.injEq] at h
    exact ⟨h.2.symm, .inr ⟨result, rfl, h.1.symm⟩⟩
  | stop => cases h

/-- A handler that touches nothing but the work on the current job. -/
theorem follow_service {u : State Data Work Output} {flow : Flow Output}
    {out' : List (Sent Data Output)} (same : u.service = s.service)
    (h : follow (u, out, flow) = .ok (t, out')) :
    t.service = s.service ∨ t.service = s.service.apply .finish := by
  obtain ⟨_, ⟨_, rfl⟩ | ⟨result, _, rfl⟩⟩ := follow_ok h
  · exact .inl same
  · rw [finish_service, same]
    exact .inr rfl

theorem restart_service (s : State Data Work Output) (scheduler : SchedulerConnection) :
    service { s with
      scheduler := scheduler
      currentJob := s.currentJob.map (Job.restart engine) } = s.service := by
  have hid : ∀ job : Job Data Work Output, (job.restart engine).id = job.id := by
    intro job
    cases job.restart_cases engine with
    | inl h => rw [h]
    | inr h => rw [h]
  simp only [service, Service.mk.injEq, true_and, and_true]
  cases hc : s.currentJob with
  | none => rfl
  | some job => simp [hid]

theorem receive_service {stats : Option JobStats} {results : List WorkerResult}
    {turn : Turn Data Work Output} (h : s.receive engine stats results = .ok turn) :
    turn.1.service = s.service := by
  unfold receive at h
  split at h
  · cases h
    rfl
  · rename_i job hc
    split at h
    · obtain ⟨_, _, h⟩ := bind_ok.mp h
      simp only [except_pure, Except.ok.injEq] at h
      rw [← h]
      simp [service, hc]
    · cases h
      rfl

theorem processScheduler_service {event : SchedulerEvent} {turn : Turn Data Work Output}
    (h : s.processScheduler engine event = .ok turn) : turn.1.service = s.service := by
  cases event with
  | connected =>
    cases h
    rfl
  | connectionNotEstablished =>
    cases h
    rfl
  | disconnected =>
    cases h
    exact restart_service s _
  | message response =>
    cases response with
    | taskResults results => exact receive_service h
    | jobComplete left stats => exact receive_service h
    | schedulerBusy =>
      cases h
      exact restart_service s _
    | schedulerFree =>
      cases h
      rfl
    | taskExecutionError error stats =>
      cases h
      rfl

theorem processJob_service {turn : Turn Data Work Output} (h : s.processJob engine = .ok turn) :
    turn.1.service = s.service.apply (s.move .processJob) ∧
      (s.move .processJob = .stay ∨ turn.2.2 = .continue) := by
  unfold processJob at h
  split at h
  · rename_i job hc
    obtain ⟨hqueue, hfinished, hcurrent⟩ := engine.onlyJob s job turn h
    have hmove : s.move .processJob = .stay := by simp [move, hc]
    rw [hmove]
    refine ⟨?_, .inl rfl⟩
    cases hcurrent with
    | inl hcurrent => simp [service, Service.apply, hqueue, hfinished, hcurrent]
    | inr hcurrent =>
      obtain ⟨state, hcurrent⟩ := hcurrent
      simp [service, Service.apply, hqueue, hfinished, hcurrent, hc]
  · rename_i hc
    have hmove : s.move .processJob = .take := by simp [move, hc]
    rw [hmove]
    split at h
    · rename_i hq
      cases h
      exact ⟨by simp [service, Service.apply, hc, hq], .inr rfl⟩
    · rename_i job jobs hq
      cases h
      exact ⟨by simp [service, Service.apply, hc, hq], .inr rfl⟩

/-- Taking the job out of the queue that is found first takes its id out of the ids. -/
theorem eraseIdx_ids (jobs : List (Job Data Work Output)) (uuid : Uuid) :
    (∀ pos, jobs.findIdx? (fun job => job.id = uuid) = some pos →
      (jobs.eraseIdx pos).map Job.id = (jobs.map Job.id).erase uuid) ∧
    (jobs.findIdx? (fun job => job.id = uuid) = none →
      (jobs.map Job.id).erase uuid = jobs.map Job.id) := by
  induction jobs with
  | nil => simp
  | cons job jobs ih =>
    by_cases hid : job.id = uuid
    · simp [List.findIdx?_cons, hid]
    · simp only [List.findIdx?_cons, hid, decide_false, Bool.false_eq_true, ↓reduceIte,
        Option.map_eq_some_iff, Option.map_eq_none_iff, List.map_cons]
      rw [List.erase_cons_tail (by simpa using hid)]
      constructor
      · intro pos h
        obtain ⟨pos, hpos, rfl⟩ := h
        rw [List.eraseIdx_cons_succ, List.map_cons, ih.1 pos hpos]
      · intro h
        rw [ih.2 h]

theorem cancelJob_service {uuid : Uuid}
    (h : follow (s.processCommand engine (.cancelJob uuid)) = .ok (t, out)) :
    t.service = s.service.apply (s.move (.command (.cancelJob uuid))) ∨
      s.move (.command (.cancelJob uuid)) = .stay ∧ t.service = s.service.apply .finish := by
  unfold processCommand at h
  dsimp only at h
  split at h
  · rename_i job hjob
    rw [Option.filter_eq_some_iff] at hjob
    have hmove : s.move (.command (.cancelJob uuid)) = .stay := by
      have hid : job.id = uuid := by simpa using hjob.2
      simp [move, hjob.1, hid]
    obtain ⟨_, ⟨hflow, _⟩ | ⟨result, _, rfl⟩⟩ := follow_ok h
    · cases hflow
    · exact .inr ⟨hmove, finish_service _ _⟩
  · rename_i hjob
    have hmove : s.move (.command (.cancelJob uuid)) = .withdraw uuid := by
      apply if_neg
      intro hany
      obtain ⟨job, hc, hid⟩ := (Option.any_eq_true ..).mp hany
      rw [Option.filter_eq_none_iff] at hjob
      exact hjob job hc hid
    rw [hmove]
    split at h
    · rename_i pos hpos
      obtain ⟨_, ⟨_, rfl⟩ | ⟨result, hflow, _⟩⟩ := follow_ok h
      · exact .inl (by simp [service, Service.apply, (eraseIdx_ids s.jobsQueue uuid).1 pos hpos])
      · cases hflow
    · rename_i hpos
      obtain ⟨_, ⟨_, rfl⟩ | ⟨result, hflow, _⟩⟩ := follow_ok h
      · exact .inl (by simp [service, Service.apply, (eraseIdx_ids t.jobsQueue uuid).2 hpos])
      · cases hflow

/-- Every turn moves the jobs as its event says, or finishes the current one. -/
theorem step_service (h : s.step engine e = .ok (t, out)) :
    t.service = s.service.apply (s.move e) ∨
      s.move e = .stay ∧ t.service = s.service.apply .finish := by
  cases e with
  | scheduler event =>
    obtain ⟨⟨u, out', flow⟩, hturn, h⟩ := bind_ok.mp h
    have hservice := processScheduler_service hturn
    cases follow_service hservice h with
    | inl h => exact .inl h
    | inr h => exact .inr ⟨rfl, h⟩
  | command command =>
    cases command with
    | addJob data id =>
      simp only [step, processCommand, follow, Except.ok.injEq, Prod.mk.injEq] at h
      obtain ⟨rfl, _⟩ := h
      exact .inl (by simp [service, Service.apply, move])
    | cancelJob uuid => exact cancelJob_service h
    | finishedJobs =>
      simp only [step, processCommand, follow, Except.ok.injEq, Prod.mk.injEq] at h
      obtain ⟨rfl, _⟩ := h
      exact .inl rfl
    | queuedJobs =>
      simp only [step, processCommand, follow, Except.ok.injEq, Prod.mk.injEq] at h
      obtain ⟨rfl, _⟩ := h
      exact .inl rfl
    | currentJob =>
      simp only [step, processCommand, follow, Except.ok.injEq, Prod.mk.injEq] at h
      obtain ⟨rfl, _⟩ := h
      exact .inl rfl
  | processJob =>
    simp only [step] at h
    split at h
    · obtain ⟨⟨u, out', flow⟩, hturn, h⟩ := bind_ok.mp h
      obtain ⟨hservice, hmove⟩ := processJob_service hturn
      obtain ⟨_, ⟨_, rfl⟩ | ⟨result, hflow, rfl⟩⟩ := follow_ok h
      · exact .inl hservice
      · cases hmove with
        | inl hmove =>
          rw [hmove] at hservice
          rw [finish_service]
          exact .inr ⟨hmove, congrArg (fun r => r.apply .finish) hservice⟩
        | inr hmove =>
          rw [hflow] at hmove
          cases hmove
    · cases h

/-- The log of the jobs of a run. -/
def note (log : Service.Log Uuid) (s : State Data Work Output) (e : Event Data)
    (_ : List (Sent Data Output)) : Service.Log Uuid :=
  log.record s.service (s.move e)

end State

/-- The id that an `AddJob` returns. -/
def Event.added? : Event Data → Option Uuid
  | .command (.addJob _ id) => some id
  | _ => none

/-- The jobs that an answer reports. -/
def Sent.reported : Sent Data Output → List Uuid
  | .job j => j.toList.map JsonJob.id
  | .jobs js => js.map JsonJob.id
  | _ => []

namespace State
variable {s t : State Data Work Output} {out : List (Sent Data Output)} {e : Event Data}
  {es : List (Event Data)} {log : Service.Log Uuid}

variable (engine) in
/-- The jobs that a command would report. -/
def listed (s : State Data Work Output) (command : Command Data) : List Uuid :=
  (s.processCommand engine command).2.1.flatMap Sent.reported

variable (engine) in
/-- Every job that was added and not taken out of the queue is in exactly one of the three lists,
and the list of queued jobs has those that wait, in the order of arrival. -/
structure Listed (log : Service.Log Uuid) (s : State Data Work Output) : Prop where
  once : ∀ id ∈ log.arrived, id ∉ log.withdrawn →
    ∃! command, command ∈ [.queuedJobs, .currentJob, .finishedJobs] ∧ id ∈ s.listed engine command
  queued : s.listed engine .queuedJobs = log.waiting

theorem listed_finishedJobs : s.listed engine .finishedJobs = s.service.served := by
  simp [listed, processCommand, Sent.reported, service, Job.json]

theorem listed_queuedJobs : s.listed engine .queuedJobs = s.service.served := by
  simp [listed, processCommand, Sent.reported, service, Job.json]

theorem listed_currentJob : s.listed engine .currentJob = s.service.serving.toList := by
  cases hc : s.currentJob with
  | none => simp [listed, processCommand, Sent.reported, service, hc]
  | some job => simp [listed, processCommand, Sent.reported, service, Job.json, hc]

/-- The lists are right exactly while there is nothing to list but the current job. -/
theorem listed_iff (c : Service.Accounted log s.service) :
    Listed engine log s ↔ s.jobsQueue = [] ∧ s.jobsFinished = [] := by
  constructor
  · intro h
    have hserved : s.service.served = [] := by
      rw [List.eq_nil_iff_forall_not_mem]
      intro id hid
      have hbegun : id ∈ log.begun := by
        rw [← c.begun]
        exact List.mem_append_left _ hid
      obtain ⟨_, _, hunique⟩ := h.once id (c.begun_arrived id hbegun)
        fun hw => c.apart id hw hbegun
      have hqueued := hunique .queuedJobs ⟨by simp, by rw [listed_queuedJobs]; exact hid⟩
      have hfinished := hunique .finishedJobs ⟨by simp, by rw [listed_finishedJobs]; exact hid⟩
      cases hqueued.trans hfinished.symm
    have hwaiting := h.queued
    rw [listed_queuedJobs, hserved, ← c.waiting] at hwaiting
    exact ⟨List.map_eq_nil_iff.mp hwaiting.symm, List.map_eq_nil_iff.mp hserved⟩
  · intro h
    have hserved : s.service.served = [] := by simp [service, h.2]
    have hwaiting : s.service.waiting = [] := by simp [service, h.1]
    constructor
    · intro id harrived hwithdrawn
      have hserving : s.service.serving = some id := by
        have hmem := c.mem harrived hwithdrawn
        rw [hserved, hwaiting] at hmem
        simpa using hmem
      refine ⟨.currentJob, ⟨by simp, by simp [listed_currentJob, hserving]⟩, ?_⟩
      intro command hcommand
      obtain ⟨hcommand, hid⟩ := hcommand
      simp only [List.mem_cons, List.not_mem_nil, or_false] at hcommand
      obtain rfl | rfl | rfl := hcommand
      · rw [listed_queuedJobs, hserved] at hid
        cases hid
      · rfl
      · rw [listed_finishedJobs, hserved] at hid
        cases hid
    · rw [listed_queuedJobs, hserved, ← c.waiting, hwaiting]

theorem step_accounted (c : Service.Accounted log s.service) (distinct : log.arrived.Nodup)
    (fresh : ∀ id ∈ e.added?, id ∉ log.arrived) (h : s.step engine e = .ok (t, out)) :
    Service.Accounted (note log s e out) t.service := by
  cases step_service h with
  | inr h =>
    obtain ⟨hstay, ht⟩ := h
    rw [note, hstay, ht]
    exact c.finish
  | inl h =>
    rw [note, h]
    cases e with
    | scheduler event => exact c
    | processJob =>
      cases hc : s.currentJob.isNone with
      | true =>
        simp only [move, hc, ↓reduceIte]
        exact c.take distinct
      | false =>
        simp only [move, hc, Bool.false_eq_true, ↓reduceIte]
        exact c
    | command command =>
      cases command with
      | addJob data id => exact c.arrive (fresh id rfl)
      | cancelJob uuid =>
        cases hc : s.currentJob.any fun job => job.id = uuid with
        | true =>
          simp only [move, hc, ↓reduceIte]
          exact c
        | false =>
          simp only [move, hc, Bool.false_eq_true, ↓reduceIte]
          exact c.withdraw distinct
      | finishedJobs => exact c
      | queuedJobs => exact c
      | currentJob => exact c

theorem note_arrived (log : Service.Log Uuid) (s : State Data Work Output) (e : Event Data)
    (out : List (Sent Data Output)) :
    (note log s e out).arrived = log.arrived ++ e.added?.toList := by
  cases e with
  | scheduler event => simp [note, move, Service.Log.record, Event.added?]
  | processJob =>
    cases hc : s.currentJob.isNone with
    | true => simp [note, move, hc, Event.added?]
    | false => simp [note, move, hc, Service.Log.record, Event.added?]
  | command command =>
    cases command with
    | addJob data id => simp [note, move, Service.Log.record, Event.added?]
    | cancelJob uuid =>
      cases hc : s.currentJob.any fun job => job.id = uuid with
      | true => simp [note, move, hc, Service.Log.record, Event.added?]
      | false => simp [note, move, hc, Event.added?]
    | finishedJobs => simp [note, move, Service.Log.record, Event.added?]
    | queuedJobs => simp [note, move, Service.Log.record, Event.added?]
    | currentJob => simp [note, move, Service.Log.record, Event.added?]

theorem accounted_of_run (run : Run (step engine) (fun _ _ => True) .new es out s)
    (distinct : (es.filterMap Event.added?).Nodup) :
    Service.Accounted (history (step engine) note .none .new es) s.service := by
  have hrun : (history (step engine) note .none .new es).arrived = es.filterMap Event.added? ∧
      ((es.filterMap Event.added?).Nodup →
        Service.Accounted (history (step engine) note .none .new es) s.service) := by
    apply run.invariant_history note (I := fun log es _ s =>
      log.arrived = es.filterMap Event.added? ∧
        ((es.filterMap Event.added?).Nodup → Service.Accounted log s.service))
    · exact ⟨rfl, fun _ => .none⟩
    · intro log es out s e t out' hI _ taken
      have hadded : (es ++ [e]).filterMap Event.added? =
          es.filterMap Event.added? ++ e.added?.toList := by
        rw [List.filterMap_append]
        cases he : e.added? with
        | none => simp [he]
        | some id => simp [he]
      refine ⟨?_, ?_⟩
      · rw [note_arrived, hI.1, hadded]
      · intro hnodup
        rw [hadded, List.nodup_append] at hnodup
        obtain ⟨hnodup, _, hfresh⟩ := hnodup
        apply step_accounted (hI.2 hnodup) (hI.1 ▸ hnodup) ?_ taken
        intro id hid hmem
        exact hfresh id (hI.1 ▸ hmem) id (Option.mem_toList.mpr hid) rfl
  exact hrun.2 distinct

/-- In every state of every run the lists are right if and only if no job waits and none is
finished, where no two jobs are given the same id. -/
theorem listed_of_run (run : Run (step engine) (fun _ _ => True) .new es out s)
    (distinct : (es.filterMap Event.added?).Nodup) :
    Listed engine (history (step engine) note .none .new es) s ↔
      s.jobsQueue = [] ∧ s.jobsFinished = [] :=
  listed_iff (accounted_of_run run distinct)

end State
end GridServer.Jobs
