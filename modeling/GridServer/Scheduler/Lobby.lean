import GridServer.Scheduler.Ledger
import GridServer.Scheduler.Signals

namespace GridServer
open Library

/-- A response that goes to the task manager. -/
def Sent.response? : Sent → Option SchedulerResponse
  | .taskManager response => some response
  | _ => none

namespace Scheduler

/-- The task manager is to hear of the event: it is the first result of a task, and either fills the
buffer or is the last, or a failed execution that ends the job. -/
def Answers (s : Scheduler) : Event → Prop
  | .worker (.message _ (.result result)) => (s.tasksQueue.get result.id).isSome ∧
      ∃ job ∈ s.scheduledJob, s.resultsBuffer.filled = 200 ∨
        wrappingAdd 128 job.completedTasks 1 = job.totalTasks
  | .worker (.message w (.error (.taskExecutionError t _))) => s.Aborts w t
  | _ => False

instance (s : Scheduler) : ∀ e, Decidable (s.Answers e)
  | .worker (.message _ (.result result)) => decidable_of_iff
      ((s.tasksQueue.get result.id).isSome ∧ ∃ job ∈ s.scheduledJob, s.resultsBuffer.filled = 200 ∨
        wrappingAdd 128 job.completedTasks 1 = job.totalTasks) .rfl
  | .worker (.message w (.error (.taskExecutionError t _))) => decidable_of_iff (s.Aborts w t) .rfl
  | .worker (.message _ (.error (.libraryMissing ..))) => .isFalse id
  | .worker (.message _ (.error (.noFreeExecutors ..))) => .isFalse id
  | .worker (.connected ..) => .isFalse id
  | .worker (.disconnected ..) => .isFalse id
  | .taskManager .. => .isFalse id
  | .nodeManager .. => .isFalse id
  | .command .. => .isFalse id
  | .schedule => .isFalse id

variable {checks : Bool} {s t : Scheduler} {e : Event} {out : List Sent}

theorem Silent.no_response (h : Silent s t out) : out.filterMap Sent.response? = [] := by
  rw [List.filterMap_eq_nil_iff]
  intro m hm
  have hsignal := h.signals m hm
  cases m with
  | taskManager response => exact absurd trivial hsignal
  | nodeManager request => rfl
  | node node w request => rfl
  | connectNode worker => rfl
  | connectNodeManager address => rfl
  | scheduledJob job => rfl
  | workers workers => rfl
  | tasks tasks => rfl

theorem processResult_no_response {w : WorkerId} {result : WorkerResult}
    (quiet : ¬s.Answers (.worker (.message w (.result result))))
    (h : s.processResult checks w result = .ok (t, out)) :
    out.filterMap Sent.response? = [] := by
  unfold processResult at h
  split at h
  · cases h
    rfl
  · rename_i job hj
    obtain ⟨⟨tasksQueue, removed⟩, hremove, h⟩ := bind_ok.mp h
    cases removed with
    | none =>
      simp only [lateResult] at h
      split at h
      · cases h
        rfl
      · obtain ⟨_, _, h⟩ := bind_ok.mp h
        obtain ⟨_, _, h⟩ := bind_ok.mp h
        cases h
        rfl
    | some removed =>
      have hqueued : (s.tasksQueue.get result.id).isSome := by
        cases hget : s.tasksQueue.get result.id with
        | some task => rfl
        | none =>
          rw [PriorityQueue.remove_of_get_none hget] at hremove
          cases hremove
      have hroom : s.resultsBuffer.filled ≠ 200 ∧
          wrappingAdd 128 job.completedTasks 1 ≠ job.totalTasks := by
        constructor
        · exact fun hfull => quiet ⟨hqueued, job, hj, .inl hfull⟩
        · exact fun hlast => quiet ⟨hqueued, job, hj, .inr hlast⟩
      simp only [acceptResult] at h
      obtain ⟨completed, hcompleted, h⟩ := bind_ok.mp h
      obtain ⟨average, _, h⟩ := bind_ok.mp h
      obtain ⟨⟨buffer, batch⟩, hpush, h⟩ := bind_ok.mp h
      obtain ⟨workersQueue, _, h⟩ := bind_ok.mp h
      have hlast : completed ≠ job.totalTasks := addBits_ok hcompleted ▸ hroom.2
      have hnone : batch = none := by
        rw [Buffer.push, if_neg hroom.1] at hpush
        split at hpush
        · cases hpush
          rfl
        · cases hpush
      simp only [if_neg hlast, hnone, except_pure, Except.ok.injEq, Prod.mk.injEq] at h
      rw [← h.2]
      rfl

/-- No other event makes the scheduler send the task manager anything. -/
theorem step_no_response (quiet : ¬s.Answers e) (h : s.step checks e = .ok (t, out)) :
    out.filterMap Sent.response? = [] := by
  rcases e.quiet_or with hquiet | ⟨id, total, data, rfl⟩ | rfl | rfl | rfl | rfl |
    ⟨w, result, rfl⟩ | ⟨w, task, error, rfl⟩
  · exact (step_silent hquiet h).no_response
  · simp only [step, processTaskManager, processNewJob, Except.ok.injEq, Prod.mk.injEq] at h
    rw [← h.2]
    split
    · rfl
    · rfl
  · cases step_branch h with
    | taskManagerLeft => rfl
    | noTaskManager => rfl
  · rcases processCreatedSession_ok h with ⟨_, rfl, _⟩ | ⟨_, _, _, _, hend⟩
    · rfl
    · rcases hend with ⟨_, _, _, rfl⟩ | ⟨_, _, _, _, rfl⟩
      · rfl
      · rfl
  · cases h
    rfl
  · cases h
    rfl
  · exact processResult_no_response quiet h
  · rcases processTaskExecutionError_cases h with ⟨haborts, _⟩ | ⟨_, hsilent⟩
    · exact absurd haborts quiet
    · exact hsilent.no_response

theorem taskManager_no_response {event : TaskManagerEvent}
    (h : s.step checks (.taskManager event) = .ok (t, out)) :
    out.filterMap Sent.response? = [] :=
  step_no_response id h

end Scheduler

/-- The scheduler and its task managers, of which one holds the lock at a time. With the lock goes
the queue of responses; here each stands beside the connection over which its job was submitted. -/
structure Lobby where
  scheduler : Scheduler
  /-- The connections that there have been. -/
  seen : List Nat
  /-- Those that wait for the lock. -/
  waiting : List Nat
  holder : Option Nat
  requests : List (Nat × TaskManagerEvent)
  responses : List (Option Nat × SchedulerResponse)
  /-- The connection over which the scheduled job was submitted. -/
  submitter : Option Nat

namespace Lobby

/-- A response on its way over a connection. -/
structure Forwarded where
  connection : Nat
  source : Option Nat
  response : SchedulerResponse
deriving DecidableEq, Repr

def new (config : Config) : Lobby :=
  { scheduler := .new config
    seen := []
    waiting := []
    holder := none
    requests := []
    responses := []
    submitter := none }

inductive Event where
  | arrives (connection : Nat)
  | leaves (connection : Nat)
  /-- A connection that waits takes the lock. -/
  | seizes (connection : Nat) (address : SocketAddr)
  /-- A request comes over the connection that holds the lock. -/
  | requests (request : SchedulerRequest)
  | forwards
  /-- The connection that holds the lock ends, perhaps with a response that it has taken already. -/
  | ends (taken : Bool)
  /-- The scheduler takes the next event of the task managers. -/
  | takes
  /-- It takes any other event. -/
  | turns (event : GridServer.Event)
deriving DecidableEq, Repr

/-- The connection over which the job was submitted that is scheduled after the event. -/
def submitterAfter (submitter : Option Nat) (connection : Nat) : TaskManagerEvent → Option Nat
  | .message (.newJob _ _ _) => some connection
  | _ => submitter

variable (checks : Bool)

/-- What the scheduler sends joins the queue. -/
def settle (s : Lobby) (turn : Scheduler × List Sent) : Lobby :=
  { s with
    scheduler := turn.1
    responses := s.responses ++
      (turn.2.filterMap Sent.response?).map fun response => (s.submitter, response) }

def step (s : Lobby) : Event → Except Fault (Lobby × List Forwarded)
  | .arrives c =>
    if c ∈ s.seen then .error .notReady
    else .ok ({ s with seen := c :: s.seen, waiting := s.waiting ++ [c] }, [])
  | .leaves c => .ok ({ s with waiting := s.waiting.erase c }, [])
  | .seizes c address =>
    if s.holder = none ∧ c ∈ s.waiting then
      .ok ({ s with
        waiting := s.waiting.erase c
        holder := some c
        requests := s.requests ++ [(c, .connected address)] }, [])
    else .error .notReady
  | .requests request =>
    match s.holder with
    | none => .error .notReady
    | some c => .ok ({ s with requests := s.requests ++ [(c, .message request)] }, [])
  | .forwards =>
    match s.holder, s.responses with
    | some c, (source, response) :: later =>
      .ok ({ s with responses := later }, [⟨c, source, response⟩])
    | _, _ => .error .notReady
  | .ends taken =>
    match s.holder with
    | none => .error .notReady
    | some c =>
      .ok ({ s with
        holder := none
        requests := s.requests ++ [(c, .disconnect)]
        responses := if taken then s.responses.tail else s.responses }, [])
  | .takes =>
    match s.requests with
    | [] => .error .notReady
    | (c, event) :: later => do
      let turn ← s.scheduler.step checks (.taskManager event)
      return (({ s with
        requests := later
        submitter := submitterAfter s.submitter c event } : Lobby).settle turn, [])
  | .turns (.taskManager _) => .error .notReady
  | .turns event => do
    let turn ← s.scheduler.step checks event
    return (s.settle turn, [])

/-- No response is left when a connection takes the lock, and while one holds it over which the
scheduled job was not submitted, nothing happens that a task manager is to hear of. -/
def Meets (s : Lobby) : Event → Prop
  | .seizes _ _ => s.responses = []
  | .turns event => ∀ c ∈ s.holder, s.submitter = some c ∨ ¬s.scheduler.Answers event
  | _ => True

instance (s : Lobby) : ∀ e, Decidable (s.Meets e)
  | .seizes _ _ => decidable_of_iff (s.responses = []) .rfl
  | .turns event => decidable_of_iff
      (∀ c ∈ s.holder, s.submitter = some c ∨ ¬s.scheduler.Answers event) .rfl
  | .arrives _ => .isTrue trivial
  | .leaves _ => .isTrue trivial
  | .requests _ => .isTrue trivial
  | .forwards => .isTrue trivial
  | .ends _ => .isTrue trivial
  | .takes => .isTrue trivial

variable {checks : Bool} {s t : Lobby} {e : Event} {es : List Event} {out : List Forwarded}

/-- All responses are the holder's. -/
def Own (s : Lobby) : Prop := ∀ c ∈ s.holder, ∀ r ∈ s.responses, r.1 = some c

theorem settle_silent {turn : Scheduler × List Sent}
    (silent : turn.2.filterMap Sent.response? = []) :
    (s.settle turn).responses = s.responses := by
  simp [settle, silent]

theorem turn_ok {event : GridServer.Event} (h : s.step checks (.turns event) = .ok (t, out)) :
    ∃ turn, s.scheduler.step checks event = .ok turn ∧ t = s.settle turn ∧ out = [] := by
  have hother : (do
      let turn ← s.scheduler.step checks event
      return (s.settle turn, [])) = Except.ok (t, out) →
        ∃ turn, s.scheduler.step checks event = .ok turn ∧ t = s.settle turn ∧ out = [] := by
    intro h
    obtain ⟨turn, hturn, h⟩ := bind_ok.mp h
    cases h
    exact ⟨turn, hturn, rfl, rfl⟩
  cases event with
  | taskManager event => cases h
  | nodeManager event => exact hother h
  | worker event => exact hother h
  | command command => exact hother h
  | schedule => exact hother h

theorem Own.step (own : s.Own) (met : s.Meets e) (h : s.step checks e = .ok (t, out)) :
    t.Own ∧ ∀ f ∈ out, f.source = some f.connection := by
  cases e with
  | arrives c =>
    simp only [Lobby.step] at h
    split at h
    · cases h
    · cases h
      exact ⟨own, by simp⟩
  | leaves c =>
    cases h
    exact ⟨own, by simp⟩
  | seizes c address =>
    simp only [Lobby.step] at h
    split at h
    · cases h
      refine ⟨?_, by simp⟩
      intro c' _ r hr
      have hnone : s.responses = [] := met
      simp [hnone] at hr
    · cases h
  | requests request =>
    simp only [Lobby.step] at h
    split at h
    · cases h
    · cases h
      exact ⟨own, by simp⟩
  | forwards =>
    simp only [Lobby.step] at h
    split at h
    · rename_i c source response later hc hr
      cases h
      refine ⟨?_, ?_⟩
      · intro c' hc' r hmem
        exact own c' hc' r (hr ▸ List.mem_cons_of_mem _ hmem)
      · intro f hf
        rw [List.mem_singleton.mp hf]
        exact own c hc (source, response) (hr ▸ List.mem_cons_self)
    · cases h
  | ends taken =>
    simp only [Lobby.step] at h
    split at h
    · cases h
    · cases h
      refine ⟨?_, by simp⟩
      intro c hc
      cases hc
  | takes =>
    simp only [Lobby.step] at h
    split at h
    · cases h
    · obtain ⟨⟨scheduler, sent⟩, hturn, h⟩ := bind_ok.mp h
      cases h
      refine ⟨?_, by simp⟩
      intro c hc r hr
      rw [settle_silent (Scheduler.taskManager_no_response hturn)] at hr
      exact own c hc r hr
  | turns event =>
    obtain ⟨⟨scheduler, sent⟩, hturn, rfl, rfl⟩ := turn_ok h
    refine ⟨?_, by simp⟩
    intro c hc r hr
    rcases met c hc with hsubmitter | hquiet
    · rcases List.mem_append.mp hr with hold | hnew
      · exact own c hc r hold
      · obtain ⟨response, _, rfl⟩ := List.mem_map.mp hnew
        exact hsubmitter
    · rw [settle_silent (Scheduler.step_no_response hquiet hturn)] at hr
      exact own c hc r hr

/-- As long as the lock is taken with no response left over, and nothing happens for another
connection's job while it is held, every response is forwarded over the connection over which its job
was submitted. -/
theorem run_forwards {config : Config}
    (run : Run (step checks) Meets (.new config) es out s) :
    ∀ f ∈ out, f.source = some f.connection := by
  have hown : s.Own ∧ ∀ f ∈ out, f.source = some f.connection := by
    apply run.invariant (I := fun _ out s => s.Own ∧ ∀ f ∈ out, f.source = some f.connection)
    · exact ⟨by simp [Own, new], by simp⟩
    · intro es out s e t out' own met taken
      obtain ⟨hown, hnew⟩ := own.1.step met taken
      refine ⟨hown, ?_⟩
      intro f hf
      rcases List.mem_append.mp hf with hold | hlast
      · exact own.2 f hold
      · exact hnew f hlast
  exact hown.2

/-- A task manager takes the lock and submits a job of one task, which is completed. -/
def serve (connection : Nat) : List Event :=
  [.arrives connection, .seizes connection ⟨[127, 0, 0, 1], 7002⟩,
    .requests (.newJob 7 1 ⟨[], [], List.nodup_nil⟩),
    .requests (.task [⟨0, []⟩]), .takes, .takes, .takes, .turns (Scheduler.joinOf 1 1),
    .turns .schedule, .turns (Scheduler.resultOf 1 0)]

theorem run_forwards_twice : ∃ s out, Run (step true) Meets (.new Scheduler.smallConfig)
    (serve 0 ++ [.forwards, .ends false, .takes] ++ serve 1 ++ [.forwards]) out s ∧
      out.map Forwarded.connection = [0, 1] ∧ ∀ f ∈ out, f.source = some f.connection := by
  obtain ⟨s, out, run, h⟩ := exists_run (step true) Meets (.new Scheduler.smallConfig)
    (serve 0 ++ [.forwards, .ends false, .takes] ++ serve 1 ++ [.forwards])
    (fun r => r.2.map Forwarded.connection = [0, 1]) (by decide +kernel)
  exact ⟨s, out, run, of_decide_eq_true h, run_forwards run⟩

/-- What one task manager has not been sent, the next one gets. -/
theorem forwards_another : ¬ ∀ (checks : Bool) (config : Config) (es : List Event)
    (out : List Forwarded) (s : Lobby), Run (step checks) (fun _ _ => True) (.new config) es out s →
      ∀ f ∈ out, f.source = some f.connection := by
  intro h
  obtain ⟨s, out, run, hforwarded⟩ := exists_run (step true) (fun _ _ => True)
    (.new Scheduler.smallConfig)
    (serve 0 ++ [.ends false, .arrives 1, .seizes 1 ⟨[127, 0, 0, 1], 7003⟩, .forwards])
    (fun r => r.2.any fun f => f.connection = 1 && f.source = some 0) (by decide +kernel)
  obtain ⟨f, hf, hmixed⟩ := List.any_eq_true.mp hforwarded
  simp only [Bool.and_eq_true, decide_eq_true_eq] at hmixed
  have hsource := h true _ _ out s run f hf
  rw [hmixed.1, hmixed.2] at hsource
  cases hsource

end Lobby
end GridServer
