import GridServer.Jobs.Announced
import GridServer.Jobs.Order
import GridServer.Scheduler.Cargo
import GridServer.Scheduler.Lobby

namespace GridServer
open Library

/-- The results that a response brings. -/
def SchedulerResponse.results : SchedulerResponse → List WorkerResult
  | .taskResults batch => batch
  | .jobComplete left _ => left
  | _ => []

def Sent.order? : Sent → Option WorkerRequest
  | .node _ _ request => some request
  | _ => none

/-- A task manager and a scheduler, with what is on its way between them and what workers have been
sent. A response goes with the id of the job that was scheduled when it was sent, which neither side
sees. -/
structure Grid (Data Work Output : Type) where
  manager : Jobs.State Data Work Output
  scheduler : Scheduler
  up : List SchedulerRequest
  down : List (Option Uuid × SchedulerResponse)
  orders : List WorkerRequest

namespace Grid

/-- A turn of one of the two, or of the connection between them. -/
inductive Turn (Data : Type) where
  /-- The task manager takes anything but a message with results, or hears of a broken connection. -/
  | manager (event : Jobs.Event Data)
  /-- The task manager takes the next response. -/
  | response
  /-- The scheduler takes anything but a message from the task manager. -/
  | scheduler (event : Event)
  /-- The scheduler takes the next request. -/
  | request
  /-- The connection breaks, and the last requests are lost with all responses. -/
  | cut (kept : Nat)

variable {Data Work Output : Type}

def new (config : Config) : Grid Data Work Output := ⟨.new, .new config, [], [], []⟩

section
variable (engine : Jobs.Engine Data Work Output) (checks : Bool)

def manage (g : Grid Data Work Output) (event : Jobs.Event Data) :
    Except Fault (Grid Data Work Output × List (Jobs.Sent Data Output)) := do
  let (manager, out) ← g.manager.step engine event
  return ({ g with manager := manager, up := g.up ++ Jobs.requests out }, out)

def schedule (g : Grid Data Work Output) (event : Event) :
    Except Fault (Grid Data Work Output × List (Jobs.Sent Data Output)) := do
  let (scheduler, out) ← g.scheduler.step checks event
  return ({ g with
    scheduler := scheduler
    down := g.down ++ (out.filterMap Sent.response?).map fun response =>
      (g.scheduler.scheduledJob.map ScheduledJob.id, response)
    orders := g.orders ++ out.filterMap Sent.order? }, [])

def step (g : Grid Data Work Output) :
    Turn Data → Except Fault (Grid Data Work Output × List (Jobs.Sent Data Output))
  | .manager event => g.manage engine event
  | .response =>
    match g.down with
    | [] => .error .notReady
    | (_, response) :: down => { g with down := down }.manage engine (.scheduler (.message response))
  | .scheduler event => g.schedule checks event
  | .request =>
    match g.up with
    | [] => .error .notReady
    | request :: up => { g with up := up }.schedule checks (.taskManager (.message request))
  | .cut kept =>
    { g with up := g.up.take kept, down := [] }.manage engine (.scheduler .disconnected)

end

/-- The job that a turn adds. -/
def Turn.added? : Turn Data → Option (Uuid × Data)
  | .manager event => event.addedJob?
  | _ => none

def added (turns : List (Turn Data)) : List (Uuid × Data) := turns.filterMap Turn.added?

end Grid

/-- What the jobs of a task manager come to in the other parts of the grid: with what they are
announced, which tasks they have, and what a worker makes of a task. -/
structure Trade (Data : Type) where
  accepts : Data → Prop
  issues : Data → WorkerJobData → Prop
  part : Data → WorkerTask → Prop
  computes : List UInt8 → WorkerTask → WorkerResult → Prop

namespace Trade
variable {Data Work Output : Type} (trade : Trade Data) {added : List (Uuid × Data)}

/-- A worker has computed the result from the job's arguments and one of its tasks. -/
def Done (data : Data) (result : WorkerResult) : Prop :=
  ∃ job task, trade.issues data job ∧ trade.part data task ∧ trade.computes job.args task result

/-- Only jobs that are accepted are added, and the results that come while a job is under way were
computed for it. -/
def Fed (s : Jobs.State Data Work Output) (e : Jobs.Event Data) : Prop :=
  (∀ job ∈ e.addedJob?, trade.accepts job.2) ∧
    ∀ stats results, e.received = some (stats, results) → ∀ job work, s.currentJob = some job →
      job.state = .started work → ∀ result ∈ results, trade.Done job.data result

end Trade

/-- The job is being split. -/
def Jobs.Job.Splits {Data Work Output : Type} (engine : Jobs.Engine Data Work Output)
    (job : Jobs.Job Data Work Output) : Prop :=
  ∃ work, job.state = .started work ∧ engine.phase work = .splitting

/-- The requests that a turn on a job puts out: none, or the announcement of the job that starts, or a
batch of tasks of the job that is split. -/
inductive Trade.Asks {Data Work Output : Type} (trade : Trade Data)
    (engine : Jobs.Engine Data Work Output) (job : Jobs.Job Data Work Output)
    (u : Jobs.State Data Work Output) : List SchedulerRequest → Prop where
  | nothing : (∀ job' ∈ u.currentJob, job'.Splits engine → job.Splits engine) →
      Asks trade engine job u []
  | announces (totalTasks : Nat) (data : WorkerJobData) : trade.issues job.data data →
      Asks trade engine job u [.newJob job.id totalTasks data]
  | splits (batch : List WorkerTask) : job.Splits engine →
      (∀ task ∈ batch, trade.part job.data task) → Asks trade engine job u [.task batch]

/-- A task manager that, on what workers have computed, keeps `keeps`, fails only when a turn is not
ready or the connection is gone, and asks for what belongs to its jobs. -/
structure Trader {Data Work Output : Type} (trade : Trade Data)
    (engine : Jobs.Engine Data Work Output) where
  keeps : Jobs.State Data Work Output → Prop
  start : keeps .new
  queued : ∀ s, keeps s → ∀ job ∈ s.jobsQueue, job.state = .notStarted
  step : ∀ s t e out, keeps s → trade.Fed s e → s.step engine e = .ok (t, out) → keeps t
  error : ∀ s e fault, keeps s → trade.Fed s e → s.step engine e = .error fault →
    fault = .notReady ∨ fault = .stopped
  asks : ∀ s job u out, keeps s → s.currentJob = some job →
    engine.processCurrent s job = .ok (u, out, .continue) →
      trade.Asks engine job u (Jobs.requests out)
  ends : ∀ s job u out result, keeps s → s.currentJob = some job →
    engine.processCurrent s job = .ok (u, out, .finish result) → Jobs.requests out = []
  receives : ∀ work stats results work' flow, engine.receive work stats results = .ok (work', flow) →
    engine.phase work' = engine.phase work

section
variable {Data Work Output : Type} {trade : Trade Data} {engine : Jobs.Engine Data Work Output}
  {s t : Jobs.State Data Work Output} {e : Jobs.Event Data} {out : List (Jobs.Sent Data Output)}

/-- What a turn of the task manager sends, and which job is split afterwards. -/
inductive Trade.Turns (trade : Trade Data) (engine : Jobs.Engine Data Work Output)
    (s t : Jobs.State Data Work Output) : List SchedulerRequest → Prop where
  | nothing : (∀ job' ∈ t.currentJob, job'.Splits engine →
      ∃ job ∈ s.currentJob, job.Splits engine ∧ job.id = job'.id) → Turns trade engine s t []
  | announces (job : Jobs.Job Data Work Output) (totalTasks : Nat) (data : WorkerJobData) :
      s.currentJob = some job → trade.issues job.data data →
      (∀ job' ∈ t.currentJob, job'.id = job.id) →
      Turns trade engine s t [.newJob job.id totalTasks data]
  | splits (job : Jobs.Job Data Work Output) (batch : List WorkerTask) : s.currentJob = some job →
      job.Splits engine → (∀ task ∈ batch, trade.part job.data task) →
      (∀ job' ∈ t.currentJob, job'.id = job.id) → Turns trade engine s t [.task batch]

theorem Jobs.restart_splits (job : Jobs.Job Data Work Output) :
    ¬(job.restart engine).Splits engine := by
  rintro ⟨work, hstate, hphase⟩
  unfold Jobs.Job.restart at hstate
  split at hstate
  · rename_i work' hwork
    split at hstate
    · cases hstate
    · cases hstate
    · rename_i hreducing
      rw [hwork, Jobs.JobState.started.injEq] at hstate
      rw [hstate, hphase] at hreducing
      cases hreducing
  · rename_i hnot
    exact hnot work hstate

/-- A turn that sends nothing lets no other job be split. -/
theorem Trader.still_splits (trader : Trader trade engine) (keeps : trader.keeps s)
    (he : e ≠ .processJob ∨ s.currentJob = none) (taken : s.step engine e = .ok (t, out)) :
    ∀ job' ∈ t.currentJob, job'.Splits engine →
      ∃ job ∈ s.currentJob, job.Splits engine ∧ job.id = job'.id := by
  have works : s.Works fun id _ work => engine.phase work = .splitting →
      ∃ job ∈ s.currentJob, job.Splits engine ∧ job.id = id := by
    refine ⟨trader.queued s keeps, ?_⟩
    intro job work hc hstate hphase
    exact ⟨job, hc, ⟨work, hstate, hphase⟩, rfl⟩
  have after : t.Works fun id _ work => engine.phase work = .splitting →
      ∃ job ∈ s.currentJob, job.Splits engine ∧ job.id = id := by
    apply Jobs.State.works_of_step works ?still ?receives ?processes taken
    case still => exact fun _ _ _ _ _ h => h
    case receives =>
      intro stats results _ job work work' flow hc hstate hreceive hphase
      rw [trader.receives _ _ _ _ _ hreceive] at hphase
      exact works.current job work hc hstate hphase
    case processes =>
      intro hprocess job u hc
      cases he with
      | inl hne => exact absurd hprocess hne
      | inr hnone =>
        rw [hnone] at hc
        cases hc
  rintro job' hjob' ⟨work, hstate, hphase⟩
  exact after.current job' work hjob' hstate hphase

theorem Trader.step_turns (trader : Trader trade engine) (keeps : trader.keeps s)
    (taken : s.step engine e = .ok (t, out)) : trade.Turns engine s t (Jobs.requests out) := by
  by_cases he : e = .processJob
  swap
  · rw [Jobs.requests_of_step he taken]
    exact .nothing (trader.still_splits keeps (.inl he) taken)
  · subst he
    cases hc : s.currentJob with
    | none =>
      rw [Jobs.requests_idle hc taken]
      exact .nothing (trader.still_splits keeps (.inr hc) taken)
    | some job =>
      simp only [Jobs.State.step] at taken
      split at taken
      swap
      · cases taken
      obtain ⟨⟨u, out', flow⟩, hturn, taken⟩ := bind_ok.mp taken
      simp only [Jobs.State.processJob, hc] at hturn
      obtain ⟨rfl, ⟨rfl, rfl⟩ | ⟨result, rfl, rfl⟩⟩ := Jobs.State.follow_ok taken
      · have hid : ∀ job' ∈ t.currentJob, job'.id = job.id := by
          intro job' hjob'
          rcases (engine.onlyJob s job _ hturn).2.2 with hsame | ⟨state, hsame⟩
          · rw [hsame, hc, Option.mem_some] at hjob'
            rw [hjob']
          · rw [hsame, Option.mem_some] at hjob'
            rw [← hjob']
        have asks := trader.asks s job t out keeps hc hturn
        generalize Jobs.requests out = asked at asks ⊢
        cases asks with
        | nothing hsplits =>
          refine .nothing ?_
          intro job' hjob' hsplit
          exact ⟨job, hc, hsplits job' hjob' hsplit, (hid job' hjob').symm⟩
        | announces totalTasks data hissues => exact .announces job totalTasks data hc hissues hid
        | splits batch hsplits hpart => exact .splits job batch hc hsplits hpart hid
      · rw [trader.ends s job u out result keeps hc hturn]
        refine .nothing ?_
        intro job' hjob'
        have hnone : (u.finish result).currentJob = none := by
          unfold Jobs.State.finish
          split
          · assumption
          · rfl
        rw [hnone] at hjob'
        cases hjob'

end

namespace Grid
variable {Data Work Output : Type}

/-- A worker has computed the result from the arguments and a task that have been sent out for the
job of that id. -/
def Answers (g : Grid Data Work Output) (trade : Trade Data) (id : Uuid) (result : WorkerResult) :
    Prop :=
  ∃ first ∈ g.orders, ∃ order ∈ g.orders, first.job = id ∧ order.job = id ∧
    ∃ args program, first.jobData = some (args, program) ∧
      ∃ task ∈ order.tasks ++ order.replacements.map Prod.snd, trade.computes args task result

/-- What is asked of those outside. The task manager is given jobs that it accepts. A result that is
counted for the scheduled job answers orders for that job, and a response with results comes to the
job under way only when it is about that job, as neither carries the job's id. -/
def Fair (trade : Trade Data) (g : Grid Data Work Output) : Turn Data → Prop
  | .manager event => event.received = none ∧ ∀ job ∈ event.addedJob?, trade.accepts job.2
  | .response => ∀ about ∈ g.down.head?, about.2.results ≠ [] →
      ∀ job work, g.manager.currentJob = some job → job.state = .started work →
        about.1 = some job.id
  | .scheduler event => (∀ request, event ≠ .taskManager (.message request)) ∧
      ∀ result job, g.scheduler.accepts event = some result → g.scheduler.scheduledJob = some job →
        g.Answers trade job.id result
  | .request => True
  | .cut _ => True

/-- The job that the last request before the end is about. -/
def about (before : Option Uuid) (requests : List SchedulerRequest) : Option Uuid :=
  requests.foldl (fun before request => match request with
    | .newJob id _ _ => some id
    | _ => before) before

/-- The requests are about jobs that were added: a job is announced with its own data, and the tasks
are those of the job that was announced last. -/
def Consistent (trade : Trade Data) (added : List (Uuid × Data)) :
    Option Uuid → List SchedulerRequest → Prop
  | _, [] => True
  | _, .newJob id _ job :: requests =>
    (∃ data, (id, data) ∈ added ∧ trade.issues data job) ∧ Consistent trade added (some id) requests
  | before, .task batch :: requests =>
    (∀ task ∈ batch, ∃ id data, before = some id ∧ (id, data) ∈ added ∧ trade.part data task) ∧
      Consistent trade added before requests
  | before, .helloMessage :: requests => Consistent trade added before requests

/-- Wherever something of a job is, it was made of a job that was added under that id. -/
structure Holds {trade : Trade Data} {engine : Jobs.Engine Data Work Output}
    (trader : Trader trade engine) (added : List (Uuid × Data)) (cargo : Cargo)
    (g : Grid Data Work Output) : Prop where
  sound : g.scheduler.Sound
  laden : g.scheduler.Laden cargo
  keeps : trader.keeps g.manager
  jobs : ∀ job ∈ g.manager.jobs, job ∈ added
  up : Consistent trade added (cargo.job.map Prod.fst) g.up
  splits : ∀ job ∈ g.manager.currentJob, job.Splits engine →
    about (cargo.job.map Prod.fst) g.up = some job.id
  job : ∀ id job, cargo.job = some (id, job) → ∃ data, (id, data) ∈ added ∧ trade.issues data job
  tasks : ∀ task ∈ cargo.tasks, ∃ id job data, cargo.job = some (id, job) ∧
    (id, data) ∈ added ∧ trade.part data task
  results : ∀ result ∈ cargo.results, ∃ id job data, cargo.job = some (id, job) ∧
    (id, data) ∈ added ∧ trade.Done data result
  orders : ∀ order ∈ g.orders,
    (∀ args program, order.jobData = some (args, program) → ∃ data job, (order.job, data) ∈ added ∧
      trade.issues data job ∧ job.args = args) ∧
    ∀ task ∈ order.tasks ++ order.replacements.map Prod.snd, ∃ data, (order.job, data) ∈ added ∧
      trade.part data task
  down : ∀ about ∈ g.down, ∀ result ∈ about.2.results, ∃ id data, about.1 = some id ∧
    (id, data) ∈ added ∧ trade.Done data result

section
variable {trade : Trade Data} {engine : Jobs.Engine Data Work Output} {trader : Trader trade engine}
  {checks : Bool} {added added' : List (Uuid × Data)} {cargo : Cargo} {g h : Grid Data Work Output}
  {before : Option Uuid} {asked more : List SchedulerRequest} {out : List (Jobs.Sent Data Output)}
  {turn : Turn Data}

theorem about_append : about before (asked ++ more) = about (about before asked) more :=
  List.foldl_append

theorem consistent_append : Consistent trade added before (asked ++ more) ↔
    Consistent trade added before asked ∧ Consistent trade added (about before asked) more := by
  induction asked generalizing before with
  | nil => simp [Consistent, about]
  | cons request asked ih =>
    cases request with
    | helloMessage => exact ih
    | newJob id totalTasks job =>
      simp only [List.cons_append, Consistent, ih, and_assoc]
      rfl
    | task batch =>
      simp only [List.cons_append, Consistent, ih, and_assoc]
      rfl

theorem Consistent.take (h : Consistent trade added before asked) (kept : Nat) :
    Consistent trade added before (asked.take kept) := by
  rw [← List.take_append_drop kept asked] at h
  exact (consistent_append.mp h).1

theorem Consistent.mono (h : Consistent trade added before asked) (hadded : added ⊆ added') :
    Consistent trade added' before asked := by
  induction asked generalizing before with
  | nil => trivial
  | cons request asked ih =>
    cases request with
    | helloMessage => exact ih h
    | newJob id totalTasks job =>
      obtain ⟨⟨data, hdata, hissues⟩, h⟩ := h
      exact ⟨⟨data, hadded hdata, hissues⟩, ih h⟩
    | task batch =>
      obtain ⟨hbatch, h⟩ := h
      refine ⟨?_, ih h⟩
      intro task htask
      obtain ⟨id, data, hbefore, hdata, hpart⟩ := hbatch task htask
      exact ⟨id, data, hbefore, hadded hdata, hpart⟩

/-- With every id added once, what is done for an id is done for its job. -/
theorem eq_of_added {id : Uuid} {data data' : Data} (distinct : (added.map Prod.fst).Nodup)
    (h : (id, data) ∈ added) (h' : (id, data') ∈ added) : data = data' := by
  have heq := List.inj_on_of_nodup_map distinct h h' rfl
  exact (Prod.mk.inj heq).2

theorem Holds.mono (holds : Holds trader added cargo g) (hadded : added ⊆ added') :
    Holds trader added' cargo g := by
  refine ⟨holds.sound, holds.laden, holds.keeps, fun job hjob => hadded (holds.jobs job hjob),
    holds.up.mono hadded, holds.splits, ?_, ?_, ?_, ?_, ?_⟩
  · intro id job hjob
    obtain ⟨data, hdata, hissues⟩ := holds.job id job hjob
    exact ⟨data, hadded hdata, hissues⟩
  · intro task htask
    obtain ⟨id, job, data, hjob, hdata, hpart⟩ := holds.tasks task htask
    exact ⟨id, job, data, hjob, hadded hdata, hpart⟩
  · intro result hresult
    obtain ⟨id, job, data, hjob, hdata, hdone⟩ := holds.results result hresult
    exact ⟨id, job, data, hjob, hadded hdata, hdone⟩
  · intro order horder
    obtain ⟨hissued, hparts⟩ := holds.orders order horder
    refine ⟨?_, ?_⟩
    · intro args program hsome
      obtain ⟨data, job, hdata, hjob⟩ := hissued args program hsome
      exact ⟨data, job, hadded hdata, hjob⟩
    · intro task htask
      obtain ⟨data, hdata, hpart⟩ := hparts task htask
      exact ⟨data, hadded hdata, hpart⟩
  · intro about habout result hresult
    obtain ⟨id, data, hid, hdata, hdone⟩ := holds.down about habout result hresult
    exact ⟨id, data, hid, hadded hdata, hdone⟩

theorem manage_ok {event : Jobs.Event Data} : g.manage engine event = .ok (h, out) ↔
    ∃ manager, g.manager.step engine event = .ok (manager, out) ∧
      h = { g with manager := manager, up := g.up ++ Jobs.requests out } := by
  simp only [Grid.manage, bind_ok, except_pure, Except.ok.injEq, Prod.mk.injEq]
  constructor
  · rintro ⟨⟨manager, out'⟩, hstep, rfl, rfl⟩
    exact ⟨manager, hstep, rfl⟩
  · rintro ⟨manager, hstep, rfl⟩
    exact ⟨(manager, out), hstep, rfl, rfl⟩

/-- The job under way is one that was added under its id. -/
theorem Holds.current (holds : Holds trader added cargo g) {job : Jobs.Job Data Work Output}
    (hc : g.manager.currentJob = some job) : (job.id, job.data) ∈ added :=
  holds.jobs _ (List.mem_map_of_mem (f := fun job : Jobs.Job Data Work Output => (job.id, job.data))
    (by simp [hc]))

theorem Holds.manage (holds : Holds trader added cargo g) {event : Jobs.Event Data}
    (fed : trade.Fed g.manager event) (taken : g.manage engine event = .ok (h, out)) :
    Holds trader (added ++ event.addedJob?.toList) cargo h := by
  obtain ⟨manager, hstep, rfl⟩ := manage_ok.mp taken
  have holds' : Holds trader (added ++ event.addedJob?.toList) cargo g :=
    holds.mono (List.subset_append_left _ _)
  have turns := trader.step_turns holds.keeps hstep
  have hup : Consistent trade (added ++ event.addedJob?.toList)
      (about (cargo.job.map Prod.fst) g.up) (Jobs.requests out) ∧
      ∀ job ∈ manager.currentJob, job.Splits engine →
        about (about (cargo.job.map Prod.fst) g.up) (Jobs.requests out) = some job.id := by
    generalize Jobs.requests out = asked at turns
    cases turns with
    | nothing hsplits =>
      refine ⟨trivial, ?_⟩
      intro job' hjob' hsplit
      obtain ⟨job, hjob, hsplit', hid⟩ := hsplits job' hjob' hsplit
      exact hid ▸ holds.splits job hjob hsplit'
    | announces job totalTasks data hc hissues hid =>
      refine ⟨⟨⟨job.data, holds'.current hc, hissues⟩, trivial⟩, ?_⟩
      intro job' hjob' _
      rw [hid job' hjob']
      rfl
    | splits job batch hc hsplits hpart hid =>
      have habout := holds.splits job hc hsplits
      refine ⟨⟨?_, trivial⟩, ?_⟩
      · intro task htask
        exact ⟨job.id, job.data, habout, holds'.current hc, hpart task htask⟩
      · intro job' hjob' _
        rw [hid job' hjob']
        exact habout
  refine ⟨holds.sound, holds.laden, trader.step _ _ _ _ holds.keeps fed hstep, ?_,
    consistent_append.mpr ⟨holds'.up, hup.1⟩, ?_, holds'.job, holds'.tasks, holds'.results,
    holds'.orders, holds'.down⟩
  · intro job hjob
    rcases List.mem_append.mp ((Jobs.State.step_advances hstep).jobs.subset hjob) with hold | hnew
    · exact holds'.jobs job hold
    · exact List.mem_append_right _ hnew
  · intro job hjob hsplit
    rw [about_append]
    exact hup.2 job hjob hsplit

/-- After a broken connection no job is split, and whatever prefix of the requests arrives is about
the jobs it says. -/
theorem Holds.cut (holds : Holds trader added cargo g) {kept : Nat}
    (taken : g.step engine checks (.cut kept) = .ok (h, out)) : Holds trader added cargo h := by
  obtain ⟨manager, hstep, rfl⟩ := manage_ok.mp taken
  have fed : trade.Fed g.manager (.scheduler .disconnected) :=
    ⟨by rintro job ⟨⟩, by rintro _ _ ⟨⟩⟩
  have holds' := holds.manage fed (manage_ok.mpr ⟨manager, hstep, rfl⟩)
  have hnone : Jobs.requests out = [] := Jobs.requests_of_step (by rintro ⟨⟩) hstep
  have hstill : ∀ job ∈ manager.currentJob, ¬job.Splits engine := by
    cases hstep
    intro job hjob
    obtain ⟨before, _, rfl⟩ := Option.mem_map.mp hjob
    exact Jobs.restart_splits before
  refine ⟨holds.sound, holds.laden, holds'.keeps, ?_, ?_, ?_, holds.job, holds.tasks, holds.results,
    holds.orders, ?_⟩
  · simpa [Jobs.Event.addedJob?] using holds'.jobs
  · rw [hnone, List.append_nil]
    exact holds.up.take kept
  · intro job hjob hsplit
    exact absurd hsplit (hstill job hjob)
  · intro about habout
    cases habout

/-- A response that comes to the job it is about brings what was computed for it. -/
theorem Holds.fed (holds : Holds trader added cargo g) (distinct : (added.map Prod.fst).Nodup)
    (fair : Fair trade g .response) {tag : Option Uuid} {response : SchedulerResponse}
    {down : List (Option Uuid × SchedulerResponse)} (hdown : g.down = (tag, response) :: down) :
    trade.Fed g.manager (.scheduler (.message response)) := by
  refine ⟨by rintro job ⟨⟩, ?_⟩
  intro stats results hreceived job work hc hstate result hresult
  have hresults : response.results = results := by
    cases response with
    | taskResults batch =>
      cases hreceived
      rfl
    | jobComplete left jobStats =>
      cases hreceived
      rfl
    | schedulerBusy | schedulerFree | taskExecutionError => cases hreceived
  rw [← hresults] at hresult
  have hsame := fair (tag, response) (by simp [hdown]) (List.ne_nil_of_mem hresult) job work hc
    hstate
  obtain ⟨id, data, hid, hdata, hdone⟩ :=
    holds.down (tag, response) (hdown ▸ List.mem_cons_self) result hresult
  rw [hsame, Option.some.injEq] at hid
  subst hid
  exact eq_of_added distinct hdata (holds.current hc) ▸ hdone

theorem Holds.response (holds : Holds trader added cargo g) (distinct : (added.map Prod.fst).Nodup)
    (fair : Fair trade g .response) (taken : g.step engine checks .response = .ok (h, out)) :
    Holds trader added cargo h := by
  simp only [Grid.step] at taken
  split at taken
  · cases taken
  · rename_i tag response down hdown
    have holds₁ : Holds trader added cargo { g with down := down } :=
      ⟨holds.sound, holds.laden, holds.keeps, holds.jobs, holds.up, holds.splits, holds.job,
        holds.tasks, holds.results, holds.orders,
        fun about habout => holds.down about (hdown ▸ List.mem_cons_of_mem _ habout)⟩
    have hmanaged := holds₁.manage (holds.fed distinct fair hdown) taken
    simpa [Jobs.Event.addedJob?] using hmanaged

/-- What answers the orders for a job was made of the job that was added under that id. -/
theorem Holds.answers (holds : Holds trader added cargo g) (distinct : (added.map Prod.fst).Nodup)
    {id : Uuid} {result : WorkerResult} (answers : g.Answers trade id result) :
    ∃ data, (id, data) ∈ added ∧ trade.Done data result := by
  obtain ⟨first, hfirst, order, horder, rfl, hid, args, program, hsome, task, htask, hcomputes⟩ :=
    answers
  obtain ⟨data, job, hdata, hissues, rfl⟩ := (holds.orders first hfirst).1 args program hsome
  obtain ⟨data', hdata', hpart⟩ := (holds.orders order horder).2 task htask
  rw [hid] at hdata'
  obtain rfl := eq_of_added distinct hdata hdata'
  exact ⟨data, hdata, job, task, hissues, hpart, hcomputes⟩

theorem batch_of_response {sent : List Sent} {response : SchedulerResponse} {result : WorkerResult}
    (hresponse : response ∈ sent.filterMap Sent.response?) (hresult : result ∈ response.results) :
    ∃ batch ∈ batches sent, result ∈ batch := by
  obtain ⟨m, hm, hsome⟩ := List.mem_filterMap.mp hresponse
  cases m with
  | taskManager response' =>
    cases hsome
    refine ⟨response.results, List.mem_filterMap.mpr ⟨_, hm, ?_⟩, hresult⟩
    cases response with
    | taskResults batch => rfl
    | jobComplete left stats => rfl
    | schedulerBusy | schedulerFree | taskExecutionError => cases hresult
  | _ => cases hsome

section Schedules
variable {s : Scheduler} {event : Event} {sent : List Sent} {result : WorkerResult}

/-- A result that is counted was computed for the job that is scheduled. -/
theorem Holds.accepts (holds : Holds trader added cargo g) (distinct : (added.map Prod.fst).Nodup)
    (answers : ∀ result job, g.scheduler.accepts event = some result →
      g.scheduler.scheduledJob = some job → g.Answers trade job.id result)
    (haccepts : g.scheduler.accepts event = some result) :
    ∃ id job data, cargo.job = some (id, job) ∧ (id, data) ∈ added ∧ trade.Done data result := by
  have hsome : g.scheduler.scheduledJob.isSome := by
    unfold Scheduler.accepts at haccepts
    split at haccepts
    · split at haccepts
      · rename_i hboth
        exact hboth.1
      · cases haccepts
    · cases haccepts
  obtain ⟨job, hj⟩ := Option.isSome_iff_exists.mp hsome
  obtain ⟨data, hdata, hdone⟩ := holds.answers distinct (answers result job haccepts hj)
  exact ⟨job.id, job.job, data, holds.laden.job job hj, hdata, hdone⟩

theorem Holds.sends_orders (holds : Holds trader added cargo g)
    (taken : g.scheduler.step checks event = .ok (s, sent)) :
    ∀ order ∈ sent.filterMap Sent.order?,
      (∀ args program, order.jobData = some (args, program) → ∃ data job,
        (order.job, data) ∈ added ∧ trade.issues data job ∧ job.args = args) ∧
      ∀ task ∈ order.tasks ++ order.replacements.map Prod.snd, ∃ data, (order.job, data) ∈ added ∧
        trade.part data task := by
  intro order horder
  obtain ⟨m, hm, hsome⟩ := List.mem_filterMap.mp horder
  cases m with
  | node link w request =>
    cases hsome
    obtain ⟨⟨job, v, hjob, _, hdata⟩, htasks⟩ :=
      (Scheduler.step_asks holds.sound taken hm).delivered holds.laden
    refine ⟨?_, ?_⟩
    · intro args program hargs
      obtain ⟨data, hadded, hissues⟩ := holds.job _ _ hjob
      refine ⟨data, job, hadded, hissues, ?_⟩
      rw [hdata] at hargs
      split at hargs
      · cases hargs
      · obtain ⟨_, _, hpair⟩ := Option.map_eq_some_iff.mp hargs
        exact (Prod.mk.inj hpair).1
    · intro task htask
      obtain ⟨id, job', data, hjob', hadded, hpart⟩ := holds.tasks task (htasks task htask)
      rw [hjob, Option.some.injEq, Prod.mk.injEq] at hjob'
      exact ⟨data, hjob'.1 ▸ hadded, hpart⟩
  | _ => cases hsome

theorem Holds.sends_responses (holds : Holds trader added cargo g)
    (distinct : (added.map Prod.fst).Nodup)
    (answers : ∀ result job, g.scheduler.accepts event = some result →
      g.scheduler.scheduledJob = some job → g.Answers trade job.id result)
    (taken : g.scheduler.step checks event = .ok (s, sent)) :
    ∀ response ∈ sent.filterMap Sent.response?, ∀ result ∈ response.results, ∃ id data,
      g.scheduler.scheduledJob.map ScheduledJob.id = some id ∧ (id, data) ∈ added ∧
        trade.Done data result := by
  intro response hresponse result hresult
  obtain ⟨batch, hbatch, hin⟩ := batch_of_response hresponse hresult
  cases hj : g.scheduler.scheduledJob with
  | none =>
    rw [Scheduler.step_batches hj taken] at hbatch
    cases hbatch
  | some job =>
    have hdone : ∃ id job data, cargo.job = some (id, job) ∧ (id, data) ∈ added ∧
        trade.Done data result := by
      rcases Scheduler.step_results holds.sound taken (.inr ⟨batch, hbatch, hin⟩) with hold | hnew
      · exact holds.results result (holds.laden.results result hold)
      · exact holds.accepts distinct answers hnew
    obtain ⟨id, job', data, hjob', hdata, hdone⟩ := hdone
    rw [holds.laden.job job hj, Option.some.injEq, Prod.mk.injEq] at hjob'
    exact ⟨id, data, by rw [Option.map_some, hjob'.1], hdata, hdone⟩

theorem schedule_ok : g.schedule checks event = .ok (h, out) ↔
    ∃ scheduler sent, g.scheduler.step checks event = .ok (scheduler, sent) ∧ out = [] ∧
      h = { g with
        scheduler := scheduler
        down := g.down ++ (sent.filterMap Sent.response?).map fun response =>
          (g.scheduler.scheduledJob.map ScheduledJob.id, response)
        orders := g.orders ++ sent.filterMap Sent.order? } := by
  simp only [Grid.schedule, bind_ok, except_pure, Except.ok.injEq, Prod.mk.injEq]
  constructor
  · rintro ⟨⟨scheduler, sent⟩, hstep, rfl, rfl⟩
    exact ⟨scheduler, sent, hstep, rfl, rfl⟩
  · rintro ⟨scheduler, sent, hstep, rfl, rfl⟩
    exact ⟨(scheduler, sent), hstep, rfl, rfl⟩

/-- A turn of the scheduler after which the requests that are still to come are `rest`. -/
theorem Holds.schedule (holds : Holds trader added cargo g) (distinct : (added.map Prod.fst).Nodup)
    (answers : ∀ result job, g.scheduler.accepts event = some result →
      g.scheduler.scheduledJob = some job → g.Answers trade job.id result)
    {rest : List SchedulerRequest}
    (hup : ∀ sent, Consistent trade added ((cargo.note g.scheduler event sent).job.map Prod.fst) rest ∧
      about ((cargo.note g.scheduler event sent).job.map Prod.fst) rest =
        about (cargo.job.map Prod.fst) g.up)
    (hjob : ∀ sent id job, (cargo.note g.scheduler event sent).job = some (id, job) →
      ∃ data, (id, data) ∈ added ∧ trade.issues data job)
    (hcargo : ∀ sent, (∀ task ∈ (cargo.note g.scheduler event sent).tasks, ∃ id job data,
        (cargo.note g.scheduler event sent).job = some (id, job) ∧ (id, data) ∈ added ∧
          trade.part data task) ∧
      ∀ result ∈ (cargo.note g.scheduler event sent).results, ∃ id job data,
        (cargo.note g.scheduler event sent).job = some (id, job) ∧ (id, data) ∈ added ∧
          trade.Done data result)
    (taken : { g with up := rest }.schedule checks event = .ok (h, out)) :
    ∃ cargo', Holds trader added cargo' h := by
  obtain ⟨scheduler, sent, hstep, _, rfl⟩ := schedule_ok.mp taken
  refine ⟨cargo.note g.scheduler event sent, (Scheduler.step_outcome holds.sound hstep).1,
    Scheduler.step_laden holds.sound holds.laden hstep, holds.keeps, holds.jobs, (hup sent).1, ?_,
    hjob sent, (hcargo sent).1, (hcargo sent).2, ?_, ?_⟩
  · intro job hjob hsplit
    rw [(hup sent).2]
    exact holds.splits job hjob hsplit
  · intro order horder
    rcases List.mem_append.mp horder with hold | hnew
    · exact holds.orders order hold
    · exact holds.sends_orders hstep order hnew
  · intro about habout result hresult
    rcases List.mem_append.mp habout with hold | hnew
    · exact holds.down about hold result hresult
    · obtain ⟨response, hresponse, rfl⟩ := List.mem_map.mp hnew
      exact holds.sends_responses distinct answers hstep response hresponse result hresult

/-- What comes in leaves the job and its tasks as they are, but for the results that are counted. -/
theorem Holds.counts (holds : Holds trader added cargo g) (distinct : (added.map Prod.fst).Nodup)
    (answers : ∀ result job, g.scheduler.accepts event = some result →
      g.scheduler.scheduledJob = some job → g.Answers trade job.id result) :
    ∀ result ∈ cargo.results ++ (g.scheduler.accepts event).toList, ∃ id job data,
      cargo.job = some (id, job) ∧ (id, data) ∈ added ∧ trade.Done data result := by
  intro result hresult
  rcases List.mem_append.mp hresult with hold | hnew
  · exact holds.results result hold
  · exact holds.accepts distinct answers (Option.mem_toList.mp hnew)

theorem Holds.scheduler (holds : Holds trader added cargo g) (distinct : (added.map Prod.fst).Nodup)
    (fair : Fair trade g (.scheduler event))
    (taken : g.step engine checks (.scheduler event) = .ok (h, out)) :
    ∃ cargo', Holds trader added cargo' h := by
  obtain ⟨hmessage, answers⟩ := fair
  have hnote : ∀ sent, cargo.note g.scheduler event sent = { cargo with
      results := cargo.results ++ (g.scheduler.accepts event).toList } := by
    intro sent
    have hbatch : event.batch = [] := by
      unfold Event.batch
      split
      · exact absurd rfl (hmessage _)
      · rfl
    unfold Cargo.note
    split
    · exact absurd rfl (hmessage _)
    · rw [hbatch, List.append_nil]
  refine holds.schedule distinct answers (fun sent => ?_) (fun sent => ?_) (fun sent => ?_) taken
  · rw [hnote]
    exact ⟨holds.up, rfl⟩
  · rw [hnote]
    exact holds.job
  · rw [hnote]
    exact ⟨holds.tasks, holds.counts distinct answers⟩

theorem Holds.request (holds : Holds trader added cargo g) (distinct : (added.map Prod.fst).Nodup)
    (taken : g.step engine checks .request = .ok (h, out)) : ∃ cargo', Holds trader added cargo' h := by
  simp only [Grid.step] at taken
  split at taken
  · cases taken
  · rename_i request rest hrequests
    have hup := holds.up
    rw [hrequests] at hup
    have answers : ∀ result job, g.scheduler.accepts (.taskManager (.message request)) =
        some result → g.scheduler.scheduledJob = some job → g.Answers trade job.id result := by
      rintro result job ⟨⟩
    refine holds.schedule distinct answers ?_ ?_ ?_ taken
    · intro sent
      cases request with
      | helloMessage => exact ⟨hup, by rw [hrequests]; rfl⟩
      | newJob id totalTasks job => exact ⟨hup.2, by rw [hrequests]; rfl⟩
      | task batch => exact ⟨hup.2, by rw [hrequests]; rfl⟩
    · intro sent id job hnote
      cases request with
      | helloMessage | task => exact holds.job id job hnote
      | newJob id' totalTasks job' =>
        cases hnote
        exact hup.1
    · intro sent
      cases request with
      | helloMessage =>
        refine ⟨?_, holds.counts distinct answers⟩
        intro task htask
        exact holds.tasks task (by simpa [Cargo.note, Event.batch] using htask)
      | newJob id totalTasks job =>
        refine ⟨?_, ?_⟩
        · intro task htask
          cases htask
        · intro result hresult
          cases hresult
      | task batch =>
        refine ⟨?_, holds.counts distinct answers⟩
        intro task htask
        rcases List.mem_append.mp htask with hold | hnew
        · exact holds.tasks task hold
        · obtain ⟨id, data, hbefore, hdata, hpart⟩ := hup.1 task hnew
          obtain ⟨⟨id', job⟩, hjob, rfl⟩ := Option.map_eq_some_iff.mp hbefore
          exact ⟨id', job, data, hjob, hdata, hpart⟩

end Schedules

theorem Fair.fed {event : Jobs.Event Data} (fair : Fair trade g (.manager event)) :
    trade.Fed g.manager event := by
  refine ⟨fair.2, ?_⟩
  intro stats results hreceived
  rw [fair.1] at hreceived
  cases hreceived

theorem step_holds (holds : Holds trader added cargo g)
    (distinct : ((added ++ turn.added?.toList).map Prod.fst).Nodup) (fair : Fair trade g turn)
    (taken : g.step engine checks turn = .ok (h, out)) :
    ∃ cargo', Holds trader (added ++ turn.added?.toList) cargo' h := by
  have hadded : turn.added? = none → added ++ turn.added?.toList = added := by
    intro hnone
    rw [hnone, Option.toList_none, List.append_nil]
  cases turn with
  | manager event => exact ⟨cargo, holds.manage fair.fed taken⟩
  | response =>
    rw [hadded rfl] at distinct ⊢
    exact ⟨cargo, holds.response distinct fair taken⟩
  | scheduler event =>
    rw [hadded rfl] at distinct ⊢
    exact holds.scheduler distinct fair taken
  | request =>
    rw [hadded rfl] at distinct ⊢
    exact holds.request distinct taken
  | cut kept =>
    rw [hadded rfl]
    exact ⟨cargo, holds.cut taken⟩

theorem holds_new (trader : Trader trade engine) (config : Config) :
    Holds trader [] .none (.new config) := by
  refine ⟨Scheduler.sound_new config, ⟨by rintro job ⟨⟩, fun _ _ h => by simp [new, Scheduler.new] at h,
    by rintro result ⟨⟩⟩, trader.start, ?_, trivial, ?_, ?_, ?_, ?_, ?_, ?_⟩
  · rintro job ⟨⟩
  · rintro job ⟨⟩
  · rintro id job ⟨⟩
  · rintro task ⟨⟩
  · rintro result ⟨⟩
  · rintro order ⟨⟩
  · rintro about ⟨⟩

theorem holds_of_run {config : Config} {turns : List (Turn Data)} (trader : Trader trade engine)
    (run : Run (step engine checks) (Fair trade) (.new config) turns out g)
    (distinct : ((Grid.added turns).map Prod.fst).Nodup) :
    ∃ cargo, Holds trader (Grid.added turns) cargo g := by
  refine run.invariant (I := fun turns _ g => ((Grid.added turns).map Prod.fst).Nodup →
    ∃ cargo, Holds trader (Grid.added turns) cargo g) ?_ ?_ distinct
  · intro _
    exact ⟨.none, holds_new trader config⟩
  · intro turns _ g turn h out ih fair taken distinct
    have hsnoc : Grid.added (turns ++ [turn]) = Grid.added turns ++ turn.added?.toList := by
      rw [Grid.added, List.filterMap_append]
      cases hturn : turn.added? <;> simp [Grid.added, hturn]
    rw [hsnoc] at distinct ⊢
    have hbefore : ((Grid.added turns).map Prod.fst).Nodup := by
      rw [List.map_append] at distinct
      exact distinct.of_append_left
    obtain ⟨cargo, holds⟩ := ih hbefore
    exact step_holds holds distinct fair taken

/-- The task manager fails only when its turn is not ready or when the connection is gone for good. -/
theorem Holds.error (holds : Holds trader added cargo g) (distinct : (added.map Prod.fst).Nodup)
    (fair : Fair trade g turn) {fault : Fault} (failed : g.step engine checks turn = .error fault) :
    (∃ event, turn = .scheduler event) ∨ turn = .request ∨ fault = .notReady ∨ fault = .stopped := by
  have managed : ∀ {g' : Grid Data Work Output} {event}, g'.manager = g.manager →
      trade.Fed g.manager event → g'.manage engine event = .error fault →
        fault = .notReady ∨ fault = .stopped := by
    intro g' event hsame fed hfailed
    refine trader.error g.manager event fault holds.keeps fed ?_
    unfold Grid.manage at hfailed
    rw [hsame] at hfailed
    cases hstep : g.manager.step engine event with
    | error fault' =>
      rw [hstep] at hfailed
      cases hfailed
      rfl
    | ok result =>
      rw [hstep] at hfailed
      cases hfailed
  cases turn with
  | scheduler event => exact .inl ⟨event, rfl⟩
  | request => exact .inr (.inl rfl)
  | manager event => exact .inr (.inr (managed rfl fair.fed failed))
  | cut kept =>
    have fed : trade.Fed g.manager (.scheduler .disconnected) :=
      ⟨by rintro job ⟨⟩, by rintro _ _ ⟨⟩⟩
    refine .inr (.inr (managed ?_ fed failed))
    rfl
  | response =>
    simp only [Grid.step] at failed
    split at failed
    · cases failed
      exact .inr (.inr (.inl rfl))
    · rename_i tag response down hdown
      refine .inr (.inr (managed ?_ (holds.fed distinct fair hdown) failed))
      rfl

end

end Grid

end GridServer
