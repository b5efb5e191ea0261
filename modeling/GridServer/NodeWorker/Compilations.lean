import GridServer.NodeWorker.Modules

namespace GridServer.NodeWorker
open Library

variable {engine : Engine} {requests more : List WorkerRequest}

/-- The data is what a component, compiled from a module that was brought for the job, returned on
arguments and a task that were. -/
def Compiled (engine : Engine) (requests : List WorkerRequest) (job : Uuid) (taskId : TaskId)
    (data : List UInt8) : Prop :=
  ∃ order, Ordered requests order ∧ order.jobId = job ∧ order.taskId = taskId ∧
    ∃ args program component, Brought requests job args program ∧
      engine.new program = .ok component ∧
        engine.Returns component order.jobData order.taskData (.ok data)

structure WasmExecutor.Honest (engine : Engine) (requests : List WorkerRequest) (x : WasmExecutor) :
    Prop where
  orders : ∀ order ∈ x.jobs, Ordered requests order
  results : ∀ r ∈ x.results, ∀ data, r.result = .ok data →
    Compiled engine requests r.jobId r.taskId data

theorem Compiled.later {job : Uuid} {taskId : TaskId} {data : List UInt8}
    (h : Compiled engine requests job taskId data) :
    Compiled engine (requests ++ more) job taskId data := by
  obtain ⟨order, hordered, hjob, htask, args, program, component, hbrought, hnew, hreturns⟩ := h
  exact ⟨order, hordered.later, hjob, htask, args, program, component, hbrought.later, hnew,
    hreturns⟩

theorem Kept.later {job : Uuid} {module : WasmModule} (h : Kept engine requests job module) :
    Kept engine (requests ++ more) job module := by
  cases module with
  | source bytes =>
    obtain ⟨args, hbrought⟩ := h
    exact ⟨args, hbrought.later⟩
  | compiled bytes =>
    obtain ⟨args, program, component, hbrought, hrest⟩ := h
    exact ⟨args, program, component, hbrought.later, hrest⟩

theorem ModulesKept.later {s t : WasmWorker} (h : ModulesKept engine requests s)
    (hcache : t.jobCache = s.jobCache) : ModulesKept engine (requests ++ more) t := by
  intro job module hpeek
  rw [hcache] at hpeek
  exact (h job module hpeek).later

namespace WasmExecutor
variable {x : WasmExecutor}

theorem honest_new : new.Honest engine requests := ⟨by simp [new], by simp [new]⟩

theorem Honest.later (h : x.Honest engine requests) : x.Honest engine (requests ++ more) :=
  ⟨fun order horder => (h.orders order horder).later,
    fun r hr data hdata => (h.results r hr data hdata).later⟩

theorem Honest.order (h : x.Honest engine requests) {job : ExecutorJob}
    (hordered : Ordered requests job) :
    Honest engine requests { x with jobs := x.jobs ++ [job] } := by
  refine ⟨?_, h.results⟩
  intro order horder
  rcases List.mem_append.mp horder with hold | hnew
  · exact h.orders order hold
  · rw [List.mem_singleton.mp hnew]
    exact hordered

end WasmExecutor

theorem WasmExecutors.after_honest {executors executors' : WasmExecutors} {out : List Sent}
    (h : Each (WasmExecutor.Honest engine requests) executors)
    (horders : ∀ id order, Sent.startJob id order ∈ out → Ordered requests order)
    (hafter : executors.after out = .ok executors') :
    Each (WasmExecutor.Honest engine requests) executors' := by
  induction out generalizing executors with
  | nil =>
    cases hafter
    exact h
  | cons sent out ih =>
    have hrest := fun id order hstart => horders id order (List.mem_cons_of_mem _ hstart)
    cases sent with
    | abort id =>
      simp only [WasmExecutors.after] at hafter
      split at hafter
      · rename_i x hlookup
        have hx := h id x hlookup
        have hinterrupted : WasmExecutor.Honest engine requests { x with interrupted := true } :=
          ⟨hx.orders, hx.results⟩
        exact ih (h.insert hinterrupted id) hrest hafter
      · exact ih h hrest hafter
    | startJob id order =>
      simp only [WasmExecutors.after] at hafter
      split at hafter
      · rename_i x hlookup
        split at hafter
        · have hordered := (h id x hlookup).order (horders id order List.mem_cons_self)
          exact ih (h.insert hordered id) hrest hafter
        · cases hafter
      · cases hafter
    | startExecutor | stopExecutor | addLibrary | removeLibrary | respond => exact ih h hrest hafter

namespace WasmWorker
variable {s t : WasmWorker} {out : List Sent}

theorem processModule_kept {request : WorkerRequest} (kept : ModulesKept engine requests s)
    (h : processModule s request = .ok t) : ModulesKept engine (requests ++ [request]) t := by
  unfold processModule at h
  split at h
  · cases h
    exact kept.later rfl
  · split at h
    · cases h
    · rename_i args data hdata
      cases h
      intro job module hpeek
      rcases LruCache.peek_push hpeek with ⟨rfl, rfl⟩ | hold
      · exact ⟨args, request, by simp, rfl, hdata⟩
      · exact (kept job module hold).later

/-- Executors that use the cached module use what was brought, whoever compiled it. -/
theorem component_kept (lawful : engine.Lawful) {job : Uuid} {component : Except String engine.Component}
    (kept : ModulesKept engine requests s) (h : s.component engine job = some (t, component)) :
    (ModulesKept engine requests t ∧ t.jobArgs = s.jobArgs) ∧ ∀ c, component = .ok c →
      ∃ args program, Brought requests job args program ∧ engine.new program = .ok c := by
  unfold WasmWorker.component at h
  split at h
  · cases h
  · rename_i bytes hpeek
    cases h
    refine ⟨⟨kept, rfl⟩, ?_⟩
    intro c hc
    obtain ⟨args, program, component, hbrought, hnew, hserialize⟩ := kept job _ hpeek
    rw [lawful component bytes hserialize, Except.ok.injEq] at hc
    exact ⟨args, program, hbrought, hc ▸ hnew⟩
  · rename_i bytes hpeek
    obtain ⟨args, hbrought⟩ := kept job _ hpeek
    split at h
    · cases h
      exact ⟨⟨kept, rfl⟩, by simp⟩
    · rename_i c hnew
      split at h
      · cases h
        exact ⟨⟨kept, rfl⟩, by simp⟩
      · rename_i precompiled hserialize
        cases h
        refine ⟨⟨?_, rfl⟩, ?_⟩
        · intro job' module hpeek'
          rcases LruCache.peek_write hpeek' with ⟨rfl, rfl⟩ | hold
          · exact ⟨args, bytes, c, hbrought, hnew, hserialize⟩
          · exact kept job' module hold
        · intro c' hc'
          rw [Except.ok.injEq] at hc'
          exact ⟨args, bytes, hbrought, hc' ▸ hnew⟩

/-- A request, whose tasks are given once its module is there. -/
theorem step_request {request : WorkerRequest} (fed : Fed requests s)
    (kept : ModulesKept engine requests s) (taken : s.step (.request request) = .ok (t, out)) :
    Fed (requests ++ [request]) t ∧ ModulesKept engine (requests ++ [request]) t ∧
      (∀ id order, Sent.startJob id order ∈ out → Ordered (requests ++ [request]) order) ∧
      ∀ result, Sent.respond (.result result) ∉ out := by
  cases taken
  have hserved : Fed (requests ++ [request]) (processRequest s request).1 ∧
      ModulesKept engine (requests ++ [request]) (processRequest s request).1 ∧
      (∀ id order, Sent.startJob id order ∈ (processRequest s request).2.1 →
        Ordered (requests ++ [request]) order) ∧
      ∀ result, Sent.respond (.result result) ∉ (processRequest s request).2.1 := by
    cases hmodule : processModule s request with
    | error error =>
      rw [processRequest, hmodule]
      exact ⟨fed.later, kept.later rfl, by simp, by simp⟩
    | ok u =>
      have hgives := processRequest_gives hmodule
      obtain ⟨hfed, horders⟩ := hgives.ordered (processModule_fed fed hmodule)
      refine ⟨hfed, ?_, horders, hgives.answers⟩
      intro job module hpeek
      rw [hgives.cache] at hpeek
      exact processModule_kept kept hmodule job module hpeek
  obtain ⟨hfed, hkept, horders, hanswers⟩ := hserved
  have hnone : Gives 0 [] s s (answered (processRequest s request).2.2) :=
    Gives.answered s 0 (processRequest s request).2.2
  refine ⟨hfed, hkept, ?_, ?_⟩
  · intro id order hstart
    rcases List.mem_append.mp hstart with hstart | hanswer
    · exact horders id order hstart
    · exact absurd (hnone.starts id order hanswer).2.2 List.not_mem_nil
  · intro result hanswer
    rcases List.mem_append.mp hanswer with hsent | hanswer
    · exact hanswers result hsent
    · exact hnone.answers result hanswer

end WasmWorker

/-- What has been brought is all that the crew works with. -/
structure WasmCrew.Honest (engine : Engine) (requests : List WorkerRequest) (s : WasmCrew) : Prop where
  fed : Fed requests s.worker
  modules : ModulesKept engine requests s.worker
  executors : Each (WasmExecutor.Honest engine requests) s.executors

namespace WasmCrew
variable {s t : WasmCrew} {out : List Sent}

theorem honest_new (executorsNum : Nat) : (new executorsNum).Honest engine [] := by
  have none : ∀ {β : Type} {job : Uuid} {value : β} {pos : 0 < 10},
      (LruCache.new 10 pos : LruCache Uuid β).peek job ≠ some value := by
    intro β job value pos hpeek
    exact LruCache.not_mem_new job (LruCache.contains_iff.mp (congrArg Option.isSome hpeek))
  exact ⟨fun job args hpeek => absurd hpeek none, fun job module hpeek => absurd hpeek none,
    Each.start WasmExecutor.honest_new .empty _⟩

theorem serve_ok {executors : WasmExecutors} {e : WasmEvent}
    (h : s.serve executors e = .ok (t, out)) :
    s.worker.step e = .ok (t.worker, out) ∧ executors.after out = .ok t.executors := by
  simp only [WasmCrew.serve, bind_ok, except_pure, Except.ok.injEq, Prod.mk.injEq] at h
  obtain ⟨⟨worker, sent⟩, hworker, executors', hafter, rfl, rfl⟩ := h
  exact ⟨hworker, hafter⟩

theorem Honest.request {request : WorkerRequest} (h : s.Honest engine requests)
    (taken : s.serve s.executors (.request request) = .ok (t, out)) :
    t.Honest engine (requests ++ [request]) ∧ ∀ result, Sent.respond (.result result) ∉ out := by
  obtain ⟨hworker, hafter⟩ := serve_ok taken
  obtain ⟨hfed, hkept, horders, hanswers⟩ := WasmWorker.step_request h.fed h.modules hworker
  exact ⟨⟨hfed, hkept, WasmExecutors.after_honest (h.executors.imp fun x hx => hx.later) horders
    hafter⟩, hanswers⟩

theorem Honest.reset {drained : List Key} (h : s.Honest engine requests)
    (taken : s.serve s.executors (.reset drained) = .ok (t, out)) :
    t.Honest engine requests ∧ ∀ result, Sent.respond (.result result) ∉ out := by
  obtain ⟨hworker, hafter⟩ := serve_ok taken
  simp only [WasmWorker.step] at hworker
  split at hworker
  · rw [WasmWorker.reset, Except.ok.injEq, Prod.mk.injEq] at hworker
    obtain ⟨hreset, rfl⟩ := hworker
    refine ⟨⟨hreset ▸ h.fed, hreset ▸ h.modules, ?_⟩, by simp⟩
    exact WasmExecutors.after_honest h.executors (by simp) hafter
  · cases hworker

/-- A result that is read is answered at most as it was computed. -/
theorem Honest.result {id : ExecutorId} {x : WasmExecutor} {r : ExecutorResult}
    {results : List ExecutorResult} (h : s.Honest engine requests)
    (hlookup : s.executors.lookup id = some x) (hresults : x.results = r :: results)
    (taken : s.serve (s.executors.insert id { x with results := results }) (.message id r) =
      .ok (t, out)) :
    t.Honest engine requests ∧ ∀ result, Sent.respond (.result result) ∈ out →
      ∃ job, Compiled engine requests job result.id result.data := by
  obtain ⟨hworker, hafter⟩ := serve_ok taken
  have hx := h.executors id x hlookup
  have hread : WasmExecutor.Honest engine requests { x with results := results } :=
    ⟨hx.orders, fun r' hr' => hx.results r' (by rw [hresults]; exact List.mem_cons_of_mem _ hr')⟩
  simp only [WasmWorker.step] at hworker
  split at hworker
  · have hfinish : s.worker.finish r = (t.worker, out) := Except.ok.inj hworker
    unfold State.finish at hfinish
    split at hfinish
    · rw [Prod.mk.injEq] at hfinish
      obtain ⟨hfreed, rfl⟩ := hfinish
      refine ⟨⟨hfreed ▸ h.fed, hfreed ▸ h.modules,
        WasmExecutors.after_honest (h.executors.insert hread id) (by simp) hafter⟩, ?_⟩
      intro result hanswer
      rw [List.mem_singleton, Sent.respond.injEq] at hanswer
      unfold ExecutorResult.response at hanswer
      split at hanswer
      · rename_i data hdata
        cases hanswer
        exact ⟨r.jobId, hx.results r (by rw [hresults]; exact List.mem_cons_self) data hdata⟩
      · cases hanswer
    · rw [Prod.mk.injEq] at hfinish
      obtain ⟨hsame, rfl⟩ := hfinish
      exact ⟨⟨hsame ▸ h.fed, hsame ▸ h.modules,
        WasmExecutors.after_honest (h.executors.insert hread id) (by simp) hafter⟩, by simp⟩
  · cases hworker

/-- A call of the component that is made returns what it can. -/
theorem Honest.executes (lawful : engine.Lawful) {id : ExecutorId}
    {result : Except String (List UInt8)} {time : Duration} (h : s.Honest engine requests)
    (met : s.Meets engine (.executes id result time))
    (taken : s.step engine (.executes id result time) = .ok (t, out)) :
    t.Honest engine requests ∧ out = [] := by
  simp only [WasmCrew.step] at taken
  split at taken
  · cases taken
  · rename_i x hlookup
    have hx := h.executors id x hlookup
    cases hjobs : x.jobs with
    | nil =>
      rw [hjobs] at taken
      cases taken
    | cons job jobs =>
      rw [hjobs] at taken
      dsimp only at taken
      cases hcomponent : s.worker.component engine job.jobId with
      | none =>
        rw [hcomponent] at taken
        cases taken
        have hended : WasmExecutor.Honest engine requests { x with jobs := [], running := false } :=
          ⟨by simp, hx.results⟩
        exact ⟨⟨h.fed, h.modules, h.executors.insert hended id⟩, rfl⟩
      | some compiled =>
        obtain ⟨worker, component⟩ := compiled
        obtain ⟨⟨hkept, hargs⟩, hbrought⟩ :=
          WasmWorker.component_kept lawful h.modules hcomponent
        have hreturns := met x hlookup job (by rw [hjobs]; rfl) _ hcomponent
        rw [hcomponent] at taken
        cases taken
        refine ⟨⟨h.fed.congr (by rw [hargs]), hkept, h.executors.insert ⟨?_, ?_⟩ id⟩, rfl⟩
        · intro order horder
          exact hx.orders order (by rw [hjobs]; exact List.mem_cons_of_mem _ horder)
        · intro r hr data hdata
          rcases List.mem_append.mp hr with hold | hnew
          · exact hx.results r hold data hdata
          · rw [List.mem_singleton.mp hnew] at hdata ⊢
            cases component with
            | error error => cases hdata
            | ok c =>
              obtain ⟨args, program, hprogram, hnew⟩ := hbrought c rfl
              dsimp only at hdata
              rw [hdata] at hreturns
              exact ⟨job, hx.orders job (by rw [hjobs]; exact List.mem_cons_self), rfl, rfl, args,
                program, c, hprogram, hnew, hreturns c rfl⟩

theorem Honest.step (lawful : engine.Lawful) {e : Event} (h : s.Honest engine requests)
    (met : s.Meets engine e) (taken : s.step engine e = .ok (t, out)) :
    t.Honest engine (requests ++ e.request?.toList) ∧
      ∀ result, Sent.respond (.result result) ∈ out →
        ∃ job, Compiled engine (requests ++ e.request?.toList) job result.id result.data := by
  have same : ∀ {e : Event}, e.request? = none → requests ++ e.request?.toList = requests := by
    intro e he
    rw [he]
    exact List.append_nil requests
  cases e with
  | request request =>
    obtain ⟨honest, hanswers⟩ := h.request taken
    exact ⟨honest, fun result hanswer => absurd hanswer (hanswers result)⟩
  | reset drained =>
    rw [same rfl]
    obtain ⟨honest, hanswers⟩ := h.reset taken
    exact ⟨honest, fun result hanswer => absurd hanswer (hanswers result)⟩
  | result id =>
    rw [same rfl]
    simp only [WasmCrew.step] at taken
    split at taken
    · cases taken
    · rename_i x hlookup
      split at taken
      · cases taken
      · rename_i r results hresults
        exact h.result hlookup hresults taken
  | executes id result time =>
    rw [same rfl]
    obtain ⟨honest, rfl⟩ := h.executes lawful met taken
    exact ⟨honest, by simp⟩
  | interrupted id working =>
    rw [same rfl]
    simp only [WasmCrew.step] at taken
    split at taken
    · cases taken
    · rename_i x hlookup
      have hx := h.executors id x hlookup
      split at taken
      · cases taken
        have hresumed : WasmExecutor.Honest engine requests { x with
            jobs := if working then x.jobs.tail else x.jobs, interrupted := false } := by
          refine ⟨?_, hx.results⟩
          intro order horder
          dsimp only at horder
          split at horder
          · exact hx.orders order (List.mem_of_mem_tail horder)
          · exact hx.orders order horder
        exact ⟨⟨h.fed, h.modules, h.executors.insert hresumed id⟩, by simp⟩
      · cases taken

theorem requested_snoc (es : List Event) (e : Event) :
    requested (es ++ [e]) = requested es ++ e.request?.toList := by
  rw [requested, List.filterMap_append, requested]
  cases he : e.request? <;> simp [he]

/-- In every run of a worker with its executors, each result that it answers with is what the
component of a module that was brought for some job returned, on arguments that were brought for
that job and on a task of that id that was brought for it: also when another executor compiled the
module, when executors are interrupted in their work, and when the modules and the arguments of a
job are evicted apart. -/
theorem run_compiles (lawful : engine.Lawful) {executorsNum : Nat} {es : List Event}
    (run : Run (step engine) (Meets engine) (.new executorsNum) es out s) :
    ∀ result, Sent.respond (.result result) ∈ out →
      ∃ request ∈ requested es, ∃ task ∈ request.brings, task.id = result.id ∧
        ∃ args program component, (∃ program', Brought (requested es) request.job args program') ∧
          (∃ args', Brought (requested es) request.job args' program) ∧
            engine.new program = .ok component ∧
              engine.Returns component args task.data (.ok result.data) := by
  have hrun : s.Honest engine (requested es) ∧ ∀ result, Sent.respond (.result result) ∈ out →
      ∃ job, Compiled engine (requested es) job result.id result.data := by
    refine run.invariant (I := fun es out s => s.Honest engine (requested es) ∧
      ∀ result, Sent.respond (.result result) ∈ out →
        ∃ job, Compiled engine (requested es) job result.id result.data) ?_ ?_
    · exact ⟨honest_new executorsNum, by simp⟩
    · intro es out s e t out' hI met taken
      obtain ⟨honest, hanswers⟩ := hI
      obtain ⟨honest', hanswers'⟩ := honest.step lawful met taken
      rw [requested_snoc]
      refine ⟨honest', ?_⟩
      intro result hanswer
      rcases List.mem_append.mp hanswer with hold | hnew
      · obtain ⟨job, hcompiled⟩ := hanswers result hold
        exact ⟨job, hcompiled.later⟩
      · exact hanswers' result hnew
  intro result hanswer
  obtain ⟨job, order, hordered, rfl, htask, args, program, component, hbrought, hnew, hreturns⟩ :=
    hrun.2 result hanswer
  obtain ⟨hargs, request, hmem, hjob, hbrings⟩ := hordered
  refine ⟨request, hmem, _, hbrings, htask, order.jobData, program, component, ?_, ?_, hnew,
    hreturns⟩
  · rw [hjob]
    exact hargs
  · rw [hjob]
    exact ⟨args, hbrought⟩

/-! Components that return all the bytes they can see, each with a mark in front when serialized. -/

abbrev marking : Engine where
  Component := List UInt8
  new bytes := .ok bytes
  serialize component := .ok (0 :: component)
  deserialize bytes := .ok bytes.tail
  Returns component args data result := result = .ok (component ++ args ++ data)

theorem marking_lawful : marking.Lawful := by
  intro component bytes h
  cases h
  rfl

instance (component args data : List UInt8) (result : Except String (List UInt8)) :
    Decidable (marking.Returns component args data result) :=
  inferInstanceAs (Decidable (result = .ok (component ++ args ++ data)))

/-- The second executor uses what the first has compiled. -/
def shared : List Event :=
  [.request ⟨7, some ([1], [2]), [], [⟨5, [3]⟩, ⟨6, [4]⟩]⟩, .executes 1 (.ok [2, 1, 4]) 9,
    .executes 0 (.ok [2, 1, 3]) 4, .result 0]

theorem run_compiles_shared : ∃ out s,
    Run (step marking) (Meets marking) (.new 2) shared out s ∧
      Sent.respond (.result ⟨5, 4, [2, 1, 3]⟩) ∈ out ∧
      ∃ request ∈ requested shared, ∃ task ∈ request.brings, task.id = 5 ∧
        ∃ args component, marking.Returns component args task.data (.ok [2, 1, 3]) := by
  obtain ⟨s, out, run, h⟩ := exists_run (step marking) (Meets marking) (.new 2) shared
    (fun r => Sent.respond (.result ⟨5, 4, [2, 1, 3]⟩) ∈ r.2) (by decide +kernel)
  have hanswer : Sent.respond (.result ⟨5, 4, [2, 1, 3]⟩) ∈ out := of_decide_eq_true h
  obtain ⟨request, hmem, task, hbrings, hid, args, program, component, _, _, _, hreturns⟩ :=
    run_compiles marking_lawful run _ hanswer
  exact ⟨out, s, run, hanswer, request, hmem, task, hbrings, hid, args, component, hreturns⟩

end WasmCrew

end GridServer.NodeWorker
