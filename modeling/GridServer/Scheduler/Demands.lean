import GridServer.Scheduler.Delivery

namespace GridServer
open Library

/-- The platforms that a request to the node manager asks for workers on. -/
def NodeManagerRequest.platforms? : NodeManagerRequest → Option (List Platform)
  | .workersDemand _ platforms => some platforms
  | _ => none

/-- The demand, or the release of it, that the node manager is sent. -/
def Sent.demand? : Sent → Option NodeManagerRequest
  | .nodeManager (.workersDemand required platforms) => some (.workersDemand required platforms)
  | .nodeManager .releaseDemand => some .releaseDemand
  | _ => none

def lastDemand (out : List Sent) : Option NodeManagerRequest :=
  (out.filterMap Sent.demand?).getLast?

theorem lastDemand_none {out : List Sent} (h : ∀ m ∈ out, m.demand? = none) :
    lastDemand out = none := by
  rw [lastDemand, List.filterMap_eq_nil_iff.mpr h, List.getLast?_nil]

namespace Scheduler
variable {checks : Bool} {s s' : Scheduler} {job : ScheduledJob} {out : List Sent} {e : Event}

/-- The platforms of the job in progress. -/
def wanted (s : Scheduler) : Option (List Platform) :=
  (s.scheduledJob.filter fun job => job.completedTasks < job.totalTasks).map fun job =>
    job.job.platforms

theorem wanted_none (hj : s.scheduledJob = none) : s.wanted = none := by
  rw [wanted, hj]
  rfl

theorem wanted_some (hj : s.scheduledJob = some job) (h : job.completedTasks < job.totalTasks) :
    s.wanted = some job.job.platforms := by
  rw [wanted, hj, Option.filter_some, if_pos (decide_eq_true h), Option.map_some]

theorem wanted_done (hj : s.scheduledJob = some job) (h : ¬job.completedTasks < job.totalTasks) :
    s.wanted = none := by
  rw [wanted, hj, Option.filter_some, if_neg (by simpa using h), Option.map_none]

theorem wanted_congr {job' : ScheduledJob} (hj : s.scheduledJob = some job)
    (hj' : s'.scheduledJob = some job') (continues : job.Continues job')
    (h : job'.completedTasks < job'.totalTasks ↔ job.completedTasks < job.totalTasks) :
    s'.wanted = s.wanted := by
  by_cases progress : job.completedTasks < job.totalTasks
  · rw [wanted_some hj progress, wanted_some hj' (h.mpr progress), WorkerJobData.platforms,
      continues.2.2, WorkerJobData.platforms]
  · rw [wanted_done hj progress, wanted_done hj' (mt h.mp progress)]

/-- The events that change what is wanted, but for those that always tell the node manager. -/
def shifts (s : Scheduler) : Event → Bool
  | .taskManager (.message (.newJob ..)) => true
  | .worker (.message w (.error (.taskExecutionError t _))) =>
    decide (s.Aborts w t) && s.wanted.isSome
  | _ => false

theorem shifts_quiet (quiet : e.Quiet) : s.shifts e = false := by
  unfold shifts
  split
  · exact quiet.elim
  · exact quiet.elim
  · rfl

theorem Silent.lastDemand (silent : Silent s s' out) : lastDemand out = none := by
  apply lastDemand_none
  intro m hm
  have hsignal := silent.signals m hm
  cases m with
  | nodeManager request => exact absurd trivial hsignal
  | _ => rfl

/-- No step that the managers do not hear of changes what is wanted, but for a new job and a
result. -/
theorem Silent.wanted (silent : Silent s s' out) (sound : s.Sound)
    (hnew : ∀ id totalTasks data, e ≠ .taskManager (.message (.newJob id totalTasks data)))
    (hne : ∀ w result, e ≠ .worker (.message w (.result result)))
    (h : s.step checks e = .ok (s', out)) : s'.wanted = s.wanted := by
  have hsome := silent.job
  cases hj : s.scheduledJob with
  | none =>
    rw [hj, Option.isSome_none, Option.isSome_eq_false_iff, Option.isNone_iff_eq_none] at hsome
    rw [wanted_none hj, wanted_none hsome]
  | some job =>
    have hthere : s'.scheduledJob ≠ none := by
      intro hnone
      rw [hnone, hj] at hsome
      cases hsome
    cases (step_outcome sound h).2 with
    | jobless hnone => exact absurd hnone hthere
    | abandoned _ _ _ _ _ _ _ hnone => exact absurd hnone hthere
    | started id totalTasks data he => exact absurd he (hnew id totalTasks data)
    | moved job₀ ms hj₀ traces follows =>
      obtain ⟨job', hj', continues, hboard⟩ := follows.books
      have hcompleted := (Board.keeps_moves (traces.keeps hne).1 (s.board job₀)).1
      rw [← hboard] at hcompleted
      have hcount : job'.completedTasks = job₀.completedTasks := hcompleted
      exact wanted_congr hj₀ hj' continues (by rw [hcount, continues.2.1])

end Scheduler

/-- What the node manager was last told in the session, and whether it is owed a demand: a job
started, or was given up, and it has been told nothing since. -/
structure Demand where
  last : Option NodeManagerRequest
  owed : Bool
deriving DecidableEq, Repr

namespace Demand

def none : Demand := ⟨.none, false⟩

/-- The platforms that the last demand of the session asks for workers on. -/
def asked (d : Demand) : Option (List Platform) := d.last.bind NodeManagerRequest.platforms?

/-- The history variable: a new session has heard nothing yet. -/
def note (d : Demand) (s : Scheduler) (e : Event) (out : List Sent) : Demand :=
  match lastDemand out with
  | some request => ⟨some request, false⟩
  | .none =>
    if e = .nodeManager (.message .createdSession) then .none else ⟨d.last, d.owed || s.shifts e⟩

theorem note_told {d : Demand} {s : Scheduler} {e : Event} {out : List Sent}
    {request : NodeManagerRequest} (h : lastDemand out = some request) :
    d.note s e out = ⟨some request, false⟩ := by
  rw [note, h]

theorem note_untold {d : Demand} {s : Scheduler} {e : Event} {out : List Sent}
    (h : lastDemand out = .none) (hne : e ≠ .nodeManager (.message .createdSession)) :
    d.note s e out = ⟨d.last, d.owed || s.shifts e⟩ := by
  simp only [note, h, if_neg hne]

theorem note_created {d : Demand} {s : Scheduler} {out : List Sent} (h : lastDemand out = .none) :
    d.note s (.nodeManager (.message .createdSession)) out = .none := by
  simp only [note, h, if_true]

end Demand

namespace Scheduler
variable {checks : Bool} {s s' : Scheduler} {job : ScheduledJob} {out : List Sent} {e : Event}
variable {d : Demand}

/-- What the node manager was last told is what is wanted, unless it is owed a demand, which only
happens while it is away. -/
structure Heard (s : Scheduler) (d : Demand) : Prop where
  paid : s.connectionManager.nodeManager = true → d.owed = false
  asked : d.owed = false → d.asked = s.wanted

namespace Heard

/-- The step tells the node manager what is wanted now. -/
theorem told (request : NodeManagerRequest) (h : lastDemand out = some request)
    (hwanted : s'.wanted = request.platforms?) : Heard s' (d.note s e out) := by
  rw [Demand.note_told h]
  exact ⟨fun _ => rfl, fun _ => hwanted.symm⟩

/-- The step tells the node manager nothing, and changes nothing about what is wanted. -/
theorem untold (heard : Heard s d) (h : lastDemand out = none)
    (hne : e ≠ .nodeManager (.message .createdSession)) (hshifts : s.shifts e = false)
    (hsession : s'.connectionManager.nodeManager = true → s.connectionManager.nodeManager = true)
    (hwanted : s'.wanted = s.wanted) : Heard s' (d.note s e out) := by
  rw [Demand.note_untold h hne, hshifts, Bool.or_false]
  exact ⟨fun connected => heard.paid (hsession connected),
    fun paid => (heard.asked paid).trans hwanted.symm⟩

/-- The step changes what is wanted while the node manager is away. -/
theorem owing (h : lastDemand out = none) (hne : e ≠ .nodeManager (.message .createdSession))
    (hshifts : s.shifts e = true) (away : s'.connectionManager.nodeManager = false) :
    Heard s' (d.note s e out) := by
  rw [Demand.note_untold h hne, hshifts, Bool.or_true]
  constructor
  · intro connected
    rw [away] at connected
    cases connected
  · intro paid
    cases paid

theorem silent (heard : Heard s d) (sound : s.Sound) (hshifts : s.shifts e = false)
    (hnew : ∀ id totalTasks data, e ≠ .taskManager (.message (.newJob id totalTasks data)))
    (hne : ∀ w result, e ≠ .worker (.message w (.result result)))
    (hcreated : e ≠ .nodeManager (.message .createdSession)) (silent : Silent s s' out)
    (h : s.step checks e = .ok (s', out)) : Heard s' (d.note s e out) :=
  heard.untold silent.lastDemand hcreated hshifts (fun connected => silent.session ▸ connected)
    (silent.wanted sound hnew hne h)

theorem newJob (id : Uuid) (totalTasks : Nat) (data : WorkerJobData)
    (hpos : s.connectionManager.nodeManager = true → totalTasks ≠ 0) :
    Heard (s.processNewJob id totalTasks data).1
      (d.note s (.taskManager (.message (.newJob id totalTasks data)))
        (s.processNewJob id totalTasks data).2) := by
  cases connected : s.connectionManager.nodeManager with
  | true =>
    refine told (.workersDemand none data.platforms) ?_ ?_
    · simp only [processNewJob, connected, if_true]
      rfl
    · have hj : (s.processNewJob id totalTasks data).1.scheduledJob = some _ := rfl
      exact wanted_some hj (Nat.pos_of_ne_zero (hpos connected))
  | false =>
    refine owing ?_ (by simp) rfl connected
    simp only [processNewJob, connected, Bool.false_eq_true, if_false]
    rfl

/-- What is wanted of a new session is what it is told, if it is told anything. -/
theorem createdSession
    (met : s.scheduledJob.isSome → s.wanted.isSome = !s.connectionManager.nodeManager)
    (h : s.processCreatedSession = .ok (s', out)) :
    Heard s' (d.note s (.nodeManager (.message .createdSession)) out) := by
  rcases processCreatedSession_ok h with ⟨rfl, rfl, connected⟩ | ⟨away, _, _, hs, hend⟩
  · rw [Demand.note_created rfl]
    refine ⟨fun _ => rfl, fun _ => ?_⟩
    cases hj : s.scheduledJob with
    | none => exact (wanted_none hj).symm
    | some job =>
      have hnone := met (by rw [hj]; rfl)
      rw [connected, Bool.not_true, Option.isSome_eq_false_iff, Option.isNone_iff_eq_none] at hnone
      exact hnone.symm
  · rcases hend with ⟨_, _, rfl, rfl⟩ | ⟨job, hj, _, rfl, rfl⟩
    · rw [Demand.note_created rfl]
      exact ⟨fun _ => rfl, fun _ => (wanted_none (by rw [hs])).symm⟩
    · have hsome := met (by rw [hj]; rfl)
      have progress : job.completedTasks < job.totalTasks := by
        by_contra hdone
        rw [wanted_done hj hdone, away] at hsome
        cases hsome
      have hj' : s'.scheduledJob = some { job with scheduledTasks := job.completedTasks } := by
        rw [hs]
      have hwanted := wanted_some hj' progress
      exact told (.workersDemand none job.job.platforms) rfl hwanted

theorem result (heard : Heard s d) (sound : s.Sound) {w : WorkerId} {result : WorkerResult}
    (h : s.processResult checks w result = .ok (s', out)) :
    Heard s' (d.note s (.worker (.message w (.result result))) out) := by
  cases hj : s.scheduledJob with
  | none =>
    simp only [processResult, hj, Except.ok.injEq, Prod.mk.injEq] at h
    obtain ⟨rfl, rfl⟩ := h
    exact heard.untold rfl (by simp) rfl id rfl
  | some job =>
    cases ht : s.tasksQueue.get result.id with
    | none =>
      obtain ⟨rfl, ⟨workersQueue, need, rfl⟩, _⟩ := processResult_late sound hj ht h
      exact heard.untold rfl (by simp) rfl id rfl
    | some task =>
      obtain ⟨average, tasksQueue, workersQueue, buffer, batch, _, _, _, _, _, hend⟩ :=
        processResult_queued sound hj ht h
      rcases hend with ⟨hdone, rfl, rfl⟩ | ⟨hgoing, rfl, rfl⟩
      · refine told .releaseDemand ?_ ?_
        · cases batch with
          | none => rfl
          | some batch => rfl
        · refine wanted_done rfl ?_
          change ¬job.completedTasks + 1 < job.totalTasks
          omega
      · refine heard.untold ?_ (by simp) rfl id ?_
        · cases batch with
          | none => rfl
          | some batch => rfl
        · refine wanted_congr hj rfl ⟨rfl, rfl, rfl⟩ ?_
          change job.completedTasks + 1 < job.totalTasks ↔ _
          omega

theorem taskExecutionError (heard : Heard s d) (sound : s.Sound) {w : WorkerId} {t : TaskId}
    {error : String}
    (met : s.connectionManager.nodeManager = true → s.Aborts w t → s.wanted = none)
    (h : s.processTaskExecutionError checks w t error = .ok (s', out)) :
    Heard s' (d.note s (.worker (.message w (.error (.taskExecutionError t error)))) out) := by
  rcases processTaskExecutionError_cases h with
    ⟨aborts, hnone, _, hsession, stats, rfl⟩ | ⟨goesOn, hsilent⟩
  · cases hw : s.wanted with
    | none =>
      refine heard.untold rfl (by simp) ?_ (fun connected => hsession ▸ connected) ?_
      · simp [shifts, hw]
      · rw [wanted_none hnone, hw]
    | some platforms =>
      refine owing rfl (by simp) (by simp [shifts, aborts, hw]) ?_
      rw [hsession]
      by_contra connected
      rw [met (by simpa using connected) aborts] at hw
      cases hw
  · refine heard.silent sound ?_ (by simp) (by simp) (by simp) hsilent h
    simp [shifts, goesOn]

end Heard

/-- Nothing that the scheduler forgets to say happens: a job started with the node manager there has
tasks, and none in progress is given up; a session is created while there is none, and not for a job
that is done; and a session is restored only if nothing is owed to it. -/
def DemandStep (p : Scheduler × Demand) : Event → Prop
  | .taskManager (.message (.newJob _ totalTasks _)) =>
    p.1.connectionManager.nodeManager = true → totalTasks ≠ 0
  | .worker (.message w (.error (.taskExecutionError t _))) =>
    p.1.connectionManager.nodeManager = true → p.1.Aborts w t → p.1.wanted = none
  | .nodeManager (.message .createdSession) =>
    p.1.scheduledJob.isSome → p.1.wanted.isSome = !p.1.connectionManager.nodeManager
  | .nodeManager (.message .restoredSession) =>
    p.1.connectionManager.nodeManager = false → p.2.owed = false
  | _ => True

instance (p : Scheduler × Demand) : (e : Event) → Decidable (DemandStep p e)
  | .taskManager (.message (.newJob _ totalTasks _)) => inferInstanceAs
      (Decidable (p.1.connectionManager.nodeManager = true → totalTasks ≠ 0))
  | .worker (.message w (.error (.taskExecutionError t _))) => inferInstanceAs
      (Decidable (p.1.connectionManager.nodeManager = true → p.1.Aborts w t → p.1.wanted = none))
  | .nodeManager (.message .createdSession) => inferInstanceAs
      (Decidable (p.1.scheduledJob.isSome → p.1.wanted.isSome = !p.1.connectionManager.nodeManager))
  | .nodeManager (.message .restoredSession) => inferInstanceAs
      (Decidable (p.1.connectionManager.nodeManager = false → p.2.owed = false))
  | .taskManager (.message .helloMessage) | .taskManager (.message (.task _))
  | .taskManager (.connected _) | .taskManager .disconnect | .nodeManager .connected
  | .nodeManager .connectionNotEstablished | .nodeManager .disconnected
  | .nodeManager (.message (.connect _)) | .nodeManager (.message (.disconnect _))
  | .worker (.connected ..) | .worker (.disconnected _) | .worker (.message _ (.result _))
  | .worker (.message _ (.error (.libraryMissing ..)))
  | .worker (.message _ (.error (.noFreeExecutors _))) | .command _ | .schedule =>
    inferInstanceAs (Decidable True)

theorem step_heard (sound : s.Sound) (heard : Heard s d) (met : DemandStep (s, d) e)
    (h : s.step checks e = .ok (s', out)) : Heard s' (d.note s e out) := by
  rcases e.quiet_or with quiet | ⟨id, totalTasks, data, rfl⟩ | rfl | rfl | rfl | rfl |
    ⟨w, result, rfl⟩ | ⟨w, t, error, rfl⟩
  · refine heard.silent sound (shifts_quiet quiet) ?_ ?_ ?_ (step_silent quiet h) h
    · rintro id totalTasks data rfl
      exact quiet
    · rintro w result rfl
      exact quiet
    · rintro rfl
      exact quiet
  · simp only [step, processTaskManager, Except.ok.injEq] at h
    have hnew : Heard _ (d.note s _ _) := .newJob id totalTasks data met
    rwa [h] at hnew
  · cases step_branch h with
    | taskManagerLeft => exact Heard.told .releaseDemand rfl (wanted_none rfl)
    | noTaskManager => exact heard.untold rfl (by simp) rfl id rfl
  · exact Heard.createdSession met h
  · simp only [step, processNodeManager, Except.ok.injEq, Prod.mk.injEq] at h
    obtain ⟨rfl, rfl⟩ := h
    rw [Demand.note_untold rfl (by simp), show s.shifts _ = false from rfl, Bool.or_false]
    refine ⟨fun _ => ?_, heard.asked⟩
    cases connected : s.connectionManager.nodeManager with
    | true => exact heard.paid connected
    | false => exact met connected
  · simp only [step, processNodeManager, Except.ok.injEq, Prod.mk.injEq] at h
    obtain ⟨rfl, rfl⟩ := h
    exact heard.untold rfl (by simp) rfl (by simp) rfl
  · exact heard.result sound h
  · exact heard.taskExecutionError sound met h

/-- In every run in which the scheduler forgets nothing, whenever the node manager is connected the
last demand of its session asks for workers on the platforms of the job in progress, and for none
when no job is. -/
theorem run_demands {config : Config} {es : List Event}
    (run : Run (noted (step checks) Demand.note) DemandStep (Scheduler.new config, .none) es out
      (s, d)) (connected : s.connectionManager.nodeManager = true) : d.asked = s.wanted := by
  have heard : s.Sound ∧ Heard s d := by
    refine run.preserves (I := fun p => p.1.Sound ∧ Heard p.1 p.2)
      ⟨sound_new config, ⟨fun _ => rfl, fun _ => rfl⟩⟩ ?_
    intro p e q out hI met taken
    obtain ⟨htaken, hnote⟩ := noted_ok.mp taken
    rw [hnote]
    exact ⟨(step_outcome hI.1 htaken).1, step_heard hI.1 hI.2 met htaken⟩
  exact heard.2.asked (heard.2.paid connected)

/-- A session is lost and restored while a job is in progress. -/
theorem run_demands_small : ∃ out s d,
    Run (noted (step true) Demand.note) DemandStep (Scheduler.new smallConfig, .none)
      [.nodeManager (.message .createdSession), jobOf 2, tasksOf [0, 1], joinOf 1 1, .schedule,
        .nodeManager .disconnected, resultOf 1 0, .nodeManager (.message .restoredSession)] out
      (s, d) ∧ s.wanted = some [smallPlatform] ∧ d.asked = s.wanted := by
  obtain ⟨⟨s, d⟩, out, run, h⟩ := exists_run (noted (step true) Demand.note) DemandStep
    (Scheduler.new smallConfig, .none)
    [.nodeManager (.message .createdSession), jobOf 2, tasksOf [0, 1], joinOf 1 1, .schedule,
      .nodeManager .disconnected, resultOf 1 0, .nodeManager (.message .restoredSession)]
    (fun r => r.1.1.connectionManager.nodeManager && decide (r.1.1.wanted = some [smallPlatform]))
    (by decide +kernel)
  rw [Bool.and_eq_true, decide_eq_true_eq] at h
  exact ⟨out, s, d, run, h.2, run_demands run h.1⟩

/-- A job is given up, and the node manager keeps its workers. -/
theorem run_demands_fails : ¬∀ checks config es out s,
    Run (step checks) (fun _ _ => True) (Scheduler.new config) es out s →
      s.connectionManager.nodeManager = true →
      (history (step checks) Demand.note .none (Scheduler.new config) es).asked = s.wanted := by
  intro hall
  obtain ⟨⟨s, d⟩, out, run, h⟩ := exists_run (noted (step true) Demand.note) (fun _ _ => True)
    (Scheduler.new smallConfig, .none)
    [.nodeManager (.message .createdSession), jobOf 2, tasksOf [0, 1], joinOf 1 1, .schedule,
      .worker (.message 1 (.error (.taskExecutionError 0 "failed")))]
    (fun r => r.1.1.connectionManager.nodeManager && decide (r.1.2.asked ≠ r.1.1.wanted))
    (by decide +kernel)
  rw [Bool.and_eq_true, decide_eq_true_eq] at h
  obtain ⟨plain, hnote⟩ := run.of_noted
  apply h.2
  have hd : d = history (step true) Demand.note .none (Scheduler.new smallConfig) _ := hnote
  rw [hd]
  exact hall true _ _ out s plain h.1

end Scheduler
end GridServer
