import GridServer.NodeWorker.Executors

namespace GridServer.NodeWorker
open Library

variable {loader : Loader} {requests more : List WorkerRequest} {files files' : Files}

/-- The data is what a program that was brought for the job returned on arguments and a task that
were. -/
def Computed (loader : Loader) (requests : List WorkerRequest) (job : Uuid) (taskId : TaskId)
    (data : List UInt8) : Prop :=
  ∃ order, Ordered requests order ∧ order.jobId = job ∧ order.taskId = taskId ∧
    ∃ args program, Brought requests job args program ∧
      loader.Returns program order.jobData order.taskData (.ok data)

/-- The file of a job, if it has one, holds a program that was brought for it. -/
def Filed (requests : List WorkerRequest) (files : Files) (job : Uuid) : Prop :=
  ∀ program, files.lookup job = some program → ∃ args, Brought requests job args program

/-- An executor with orders, libraries and results that are as they were brought or computed. -/
structure Executor.Honest (loader : Loader) (requests : List WorkerRequest) (files : Files)
    (x : Executor) : Prop where
  orders : ∀ order ∈ x.jobs, Ordered requests order ∧ Filed requests files order.jobId
  libraries : ∀ job program, x.lruCache.peek job = some program →
    ∃ args, Brought requests job args program
  results : ∀ r ∈ x.results, ∀ data, r.result = .ok data →
    Computed loader requests r.jobId r.taskId data

theorem Computed.later {job : Uuid} {taskId : TaskId} {data : List UInt8}
    (h : Computed loader requests job taskId data) :
    Computed loader (requests ++ more) job taskId data := by
  obtain ⟨order, hordered, hjob, htask, args, program, hbrought, hreturns⟩ := h
  exact ⟨order, hordered.later, hjob, htask, args, program, hbrought.later, hreturns⟩

namespace Executor
variable {x y : Executor}

theorem honest_new : new.Honest loader requests files := by
  refine ⟨by simp [new], ?_, by simp [new]⟩
  intro job program hpeek
  exact absurd (LruCache.contains_iff.mp (congrArg Option.isSome hpeek)) (LruCache.not_mem_new job)

/-- An executor stays honest when requests come, and when no file changes but for programs that
were brought. -/
theorem Honest.later (h : x.Honest loader requests files)
    (hfiles : ∀ job program, files'.lookup job = some program →
      files.lookup job = some program ∨ ∃ args, Brought (requests ++ more) job args program) :
    x.Honest loader (requests ++ more) files' := by
  refine ⟨?_, ?_, fun r hr data hdata => (h.results r hr data hdata).later⟩
  · intro order horder
    obtain ⟨hordered, hfiled⟩ := h.orders order horder
    refine ⟨hordered.later, ?_⟩
    intro program hlookup
    rcases hfiles order.jobId program hlookup with hold | hnew
    · obtain ⟨args, hbrought⟩ := hfiled program hold
      exact ⟨args, hbrought.later⟩
    · exact hnew
  · intro job program hpeek
    obtain ⟨args, hbrought⟩ := h.libraries job program hpeek
    exact ⟨args, hbrought.later⟩

theorem Honest.order (h : x.Honest loader requests files) {job : ExecutorJob}
    (hordered : Ordered requests job) (hfiled : Filed requests files job.jobId) :
    Honest loader requests files { x with jobs := x.jobs ++ [job] } := by
  refine ⟨?_, h.libraries, h.results⟩
  intro order horder
  rcases List.mem_append.mp horder with hold | hnew
  · exact h.orders order hold
  · rw [List.mem_singleton.mp hnew]
    exact ⟨hordered, hfiled⟩

/-- The library of a job is one that was brought. -/
theorem Honest.getLibrary (h : x.Honest loader requests files) {job : Uuid}
    (hfiled : Filed requests files job) :
    (x.getLibrary loader files job).1.Honest loader requests files ∧
      ∀ program, (x.getLibrary loader files job).2 = .ok program →
        ∃ args, Brought requests job args program := by
  have hvalue := LruCache.get_value x.lruCache job
  have hpeek := LruCache.peek_get x.lruCache job
  unfold Executor.getLibrary
  generalize x.lruCache.get job = got at hvalue hpeek
  obtain ⟨lruCache, library⟩ := got
  cases library with
  | some library =>
    refine ⟨⟨h.orders, fun key program hkey => h.libraries key program (hpeek key ▸ hkey),
      h.results⟩, ?_⟩
    intro program heq
    cases heq
    exact h.libraries job library hvalue.symm
  | none =>
    dsimp only
    split
    · rename_i library hlookup
      split
      · refine ⟨⟨h.orders, ?_, h.results⟩, ?_⟩
        · intro key program hkey
          rcases LruCache.peek_push hkey with ⟨rfl, rfl⟩ | hold
          · exact hfiled _ hlookup
          · exact h.libraries key program hold
        · intro program heq
          cases heq
          exact hfiled _ hlookup
      · exact ⟨h, by simp⟩
    · exact ⟨h, by simp⟩

theorem getLibrary_jobs (x : Executor) (loader : Loader) (files : Files) (job : Uuid) :
    (x.getLibrary loader files job).1.jobs = x.jobs := by
  unfold getLibrary
  split
  · rfl
  · split
    · split
      · rfl
      · rfl
    · rfl

theorem getFunc_eq (x : Executor) (loader : Loader) (files : Files) (job : Uuid) :
    (x.getFunc loader files job).1 = (x.getLibrary loader files job).1 ∧
      ∀ program, (x.getFunc loader files job).2 = .ok program →
        (x.getLibrary loader files job).2 = .ok program := by
  unfold getFunc
  generalize x.getLibrary loader files job = got
  obtain ⟨y, library⟩ := got
  cases library with
  | error error => exact ⟨rfl, by simp⟩
  | ok library =>
    refine ⟨rfl, ?_⟩
    intro program heq
    dsimp only at heq ⊢
    split at heq
    · exact heq
    · cases heq

/-- A round of an honest executor, in which the call returns what it can. -/
theorem Honest.execute (h : x.Honest loader requests files) {call : Call} {time : Duration}
    (hcall : ∀ result, call = .returned result → ∀ job ∈ x.jobs.head?, ∀ library,
      (x.getFunc loader files job.jobId).2 = .ok library →
        loader.Returns library job.jobData job.taskData result)
    (hx : x.execute loader files call time = .ok y) : y.Honest loader requests files := by
  unfold Executor.execute at hx
  cases hjobs : x.jobs with
  | nil =>
    rw [hjobs] at hx
    cases hx
  | cons job jobs =>
    rw [hjobs] at hx hcall
    dsimp only at hx
    obtain ⟨hordered, hfiled⟩ := h.orders job (by rw [hjobs]; exact List.mem_cons_self)
    obtain ⟨hhonest, hbrought⟩ := h.getLibrary hfiled
    obtain ⟨hsame, hfunc⟩ := getFunc_eq x loader files job.jobId
    rw [← hsame] at hhonest
    have hjobs' : (x.getFunc loader files job.jobId).1.jobs = job :: jobs := by
      rw [hsame, getLibrary_jobs, hjobs]
    have hreturns := fun result heq => hcall result heq job rfl
    generalize x.getFunc loader files job.jobId = got at hx hhonest hfunc hreturns hjobs'
    obtain ⟨z, func⟩ := got
    cases hx
    refine ⟨?_, hhonest.libraries, ?_⟩
    · intro order horder
      exact hhonest.orders order (by rw [hjobs']; exact List.mem_cons_of_mem _ horder)
    · intro r hr data hdata
      rcases List.mem_append.mp hr with hold | hnew
      · exact hhonest.results r hold data hdata
      · rw [List.mem_singleton.mp hnew] at hdata ⊢
        cases func with
        | error error => cases hdata
        | ok library =>
          cases call with
          | panicked => cases hdata
          | returned result =>
            obtain ⟨args, hlibrary⟩ := hbrought library (hfunc library rfl)
            dsimp only at hdata
            rw [hdata] at hreturns
            exact ⟨job, hordered, rfl, rfl, args, library, hlibrary, hreturns _ rfl library rfl⟩

end Executor

/-- A file is as it was, or was written in the turn. -/
theorem Files.lookup_after {out : List Sent} {job : Uuid} {program : List UInt8}
    (h : files.after out = .ok files') (hlookup : files'.lookup job = some program) :
    files.lookup job = some program ∨ Sent.addLibrary job program ∈ out := by
  induction out generalizing files with
  | nil =>
    cases h
    exact .inl hlookup
  | cons sent out ih =>
    have still : files.after out = .ok files' →
        files.lookup job = some program ∨ Sent.addLibrary job program ∈ sent :: out :=
      fun h => (ih h).imp_right (List.mem_cons_of_mem _)
    cases sent with
    | addLibrary job' data =>
      rcases ih h with hinsert | hmem
      · by_cases he : job = job'
        · subst he
          rw [AList.lookup_insert, Option.some.injEq] at hinsert
          exact .inr (hinsert ▸ List.mem_cons_self)
        · exact .inl ((AList.lookup_insert_ne he).symm.trans hinsert)
      · exact .inr (List.mem_cons_of_mem _ hmem)
    | removeLibrary job' =>
      simp only [Files.after] at h
      split at h
      · rcases ih h with herase | hmem
        · by_cases he : job = job'
          · subst he
            rw [AList.lookup_erase] at herase
            cases herase
          · exact .inl ((AList.lookup_erase_ne he).symm.trans herase)
        · exact .inr (List.mem_cons_of_mem _ hmem)
      · cases h
    | abort | startJob | startExecutor | stopExecutor | respond => exact still h

theorem Executors.after_honest {executors executors' : Executors} {out : List Sent}
    (h : Each (Executor.Honest loader requests files) executors)
    (horders : ∀ id order, Sent.startJob id order ∈ out →
      Ordered requests order ∧ Filed requests files order.jobId)
    (hafter : executors.after out = .ok executors') :
    Each (Executor.Honest loader requests files) executors' := by
  induction out generalizing executors with
  | nil =>
    cases hafter
    exact h
  | cons sent out ih =>
    have hrest := fun id order hstart => horders id order (List.mem_cons_of_mem _ hstart)
    cases sent with
    | startExecutor id => exact ih (h.insert Executor.honest_new id) hrest hafter
    | stopExecutor id => exact ih (h.erase id) hrest hafter
    | startJob id order =>
      simp only [Executors.after] at hafter
      split at hafter
      · rename_i x hlookup
        obtain ⟨hordered, hfiled⟩ := horders id order List.mem_cons_self
        exact ih (h.insert ((h id x hlookup).order hordered hfiled) id) hrest hafter
      · cases hafter
    | abort | addLibrary | removeLibrary | respond => exact ih h hrest hafter

/-- What has been brought is all that the crew works with. -/
structure DllCrew.Honest (loader : Loader) (left : Files) (requests : List WorkerRequest)
    (s : DllCrew) : Prop where
  stored : s.site.Stored left requests
  fed : Fed requests s.site.worker
  executors : Each (Executor.Honest loader requests s.site.files) s.executors

namespace DllCrew
variable {left : Files} {s t : DllCrew} {out : List Sent} {executors : Executors}

theorem honest_new (processIds : List ExecutorId) : (new processIds left).Honest loader left [] := by
  refine ⟨⟨?_, fun job hjob => .inr hjob⟩, ?_, ?_⟩
  · intro job hjob
    exact absurd hjob (LruCache.not_mem_new job)
  · intro job args hpeek
    exact absurd (LruCache.contains_iff.mp (congrArg Option.isSome hpeek)) (LruCache.not_mem_new job)
  · exact Each.start Executor.honest_new .empty processIds

/-- A turn of the worker. Only what an executor has computed is answered with a result. -/
theorem Honest.serve {e : DllEvent} (h : s.Honest loader left requests)
    (hexecutors : Each (Executor.Honest loader requests s.site.files) executors)
    (taken : s.serve executors e = .ok (t, out)) :
    t.Honest loader left (requests ++ e.request?.toList) ∧
      ∀ result, Sent.respond (.result result) ∈ out → ∃ id r processIds keys,
        e = .message id (.result r) processIds keys ∧ r.response = .result result := by
  simp only [DllCrew.serve, bind_ok, except_pure, Except.ok.injEq, Prod.mk.injEq] at taken
  obtain ⟨⟨site, sent⟩, hsite, executors', hafter, rfl, rfl⟩ := taken
  obtain ⟨hstep, hfiles⟩ := DllSite.step_ok.mp hsite
  obtain ⟨files', hfiles', hstored, hcached⟩ := h.stored.step hstep
  cases hfiles.symm.trans hfiles'
  obtain ⟨hsupplied, hanswers⟩ := DllWorker.step_supplied h.fed hstep
  refine ⟨⟨hstored, hsupplied.fed, ?_⟩, hanswers⟩
  refine Executors.after_honest (hexecutors.imp fun x hx => hx.later ?_) ?_ hafter
  · intro job program hprogram
    exact (Files.lookup_after hfiles hprogram).imp_right (hsupplied.files job program)
  · intro id order hstart
    refine ⟨hsupplied.orders id order hstart, ?_⟩
    intro program hprogram
    obtain ⟨request, hmem, args, data, hjob, hdata, hlookup⟩ :=
      hstored.cached order.jobId (hcached id order hstart)
    rw [hlookup, Option.some.injEq] at hprogram
    exact ⟨args, request, hmem, hjob, hprogram ▸ hdata⟩

theorem Honest.step {e : CrewEvent} (h : s.Honest loader left requests) (met : s.Meets loader e)
    (taken : s.step loader e = .ok (t, out)) :
    t.Honest loader left (requests ++ e.request?.toList) ∧
      ∀ result, Sent.respond (.result result) ∈ out →
        ∃ job, Computed loader (requests ++ e.request?.toList) job result.id result.data := by
  have quiet : ∀ {f : DllEvent}, f.request? = e.request? →
      (∀ id r processIds keys, f ≠ .message id (.result r) processIds keys) →
      s.serve s.executors f = .ok (t, out) →
      t.Honest loader left (requests ++ e.request?.toList) ∧
        ∀ result, Sent.respond (.result result) ∈ out →
          ∃ job, Computed loader (requests ++ e.request?.toList) job result.id result.data := by
    intro f hrequest hno hserve
    obtain ⟨hhonest, hanswers⟩ := h.serve h.executors hserve
    refine ⟨hrequest ▸ hhonest, ?_⟩
    intro result hanswer
    obtain ⟨id, r, processIds, keys, rfl, _⟩ := hanswers result hanswer
    exact absurd rfl (hno id r processIds keys)
  cases e with
  | request request processIds => exact quiet rfl (by simp) taken
  | reset drained processIds => exact quiet rfl (by simp) taken
  | terminated id error processIds keys =>
    simp only [DllCrew.step] at taken
    split at taken
    · cases taken
    · exact quiet rfl (by simp) taken
  | result id =>
    have hrequests : requests ++ (CrewEvent.result id).request?.toList = requests := List.append_nil requests
    rw [hrequests]
    simp only [DllCrew.step] at taken
    split at taken
    · cases taken
    · rename_i x hlookup
      split at taken
      · cases taken
      · rename_i r results hresults
        have hx := h.executors id x hlookup
        have hread : Executor.Honest loader requests s.site.files { x with results := results } :=
          ⟨hx.orders, hx.libraries, fun r' hr' => hx.results r' (by
            rw [hresults]
            exact List.mem_cons_of_mem _ hr')⟩
        obtain ⟨hhonest, hanswers⟩ := h.serve (h.executors.insert hread id) taken
        refine ⟨hrequests ▸ hhonest, ?_⟩
        intro result hanswer
        obtain ⟨id', r', processIds, keys, hmessage, hresponse⟩ := hanswers result hanswer
        rw [DllEvent.message.injEq, DllExecutorEvent.result.injEq] at hmessage
        obtain ⟨_, rfl, _⟩ := hmessage
        unfold ExecutorResult.response at hresponse
        split at hresponse
        · rename_i data hdata
          cases hresponse
          exact ⟨r.jobId, hx.results r (by rw [hresults]; exact List.mem_cons_self) data hdata⟩
        · cases hresponse
  | executes id call time =>
    have hrequests : requests ++ (CrewEvent.executes id call time).request?.toList = requests := List.append_nil requests
    rw [hrequests]
    simp only [DllCrew.step] at taken
    split at taken
    · cases taken
    · rename_i x hlookup
      simp only [bind_ok, except_pure, Except.ok.injEq, Prod.mk.injEq] at taken
      obtain ⟨y, hy, rfl, rfl⟩ := taken
      have hcall : ∀ result, call = .returned result → ∀ job ∈ x.jobs.head?, ∀ library,
          (x.getFunc loader s.site.files job.jobId).2 = .ok library →
            loader.Returns library job.jobData job.taskData result := by
        rintro result rfl job hjob library hlibrary
        exact met x hlookup job hjob library (by rw [hlibrary]; rfl)
      have hhonest := (h.executors id x hlookup).execute hcall hy
      exact ⟨⟨h.stored, h.fed, h.executors.insert hhonest id⟩, by simp⟩
  | exits id =>
    have hrequests : requests ++ (CrewEvent.exits id).request?.toList = requests := List.append_nil requests
    rw [hrequests]
    simp only [DllCrew.step] at taken
    split at taken
    · cases taken
      exact ⟨⟨h.stored, h.fed, h.executors.erase id⟩, by simp⟩
    · cases taken

theorem requested_snoc (es : List CrewEvent) (e : CrewEvent) :
    requested (es ++ [e]) = requested es ++ e.request?.toList := by
  rw [requested, List.filterMap_append, requested]
  cases he : e.request? <;> simp [he]

/-- A job that is cached is found by every executor, unless its library cannot be opened. -/
theorem Honest.found (h : s.Honest loader left requests) {x : Executor} {job : Uuid}
    {error : String} (hcached : job ∈ s.site.worker.jobCache)
    (herror : (x.getLibrary loader s.site.files job).2 = .error error) :
    ∃ args program, Brought requests job args program ∧ loader.opens program = false := by
  obtain ⟨request, hmem, args, data, hjob, hdata, hlookup⟩ := h.stored.cached job hcached
  refine ⟨args, data, ⟨request, hmem, hjob, hdata⟩, ?_⟩
  unfold Executor.getLibrary at herror
  generalize x.lruCache.get job = got at herror
  obtain ⟨lruCache, library⟩ := got
  cases library with
  | some library => cases herror
  | none =>
    dsimp only at herror
    rw [hlookup] at herror
    dsimp only at herror
    split at herror
    · cases herror
    · rename_i hopens
      exact Bool.eq_false_of_not_eq_true hopens

/-- In every run of a worker with its executors, each result that it answers with is what a program
that was brought for some job returned, on arguments that were brought for that job and on a task
of that id that was brought for it; whatever is cached, evicted, restarted or lost in between. And no
executor fails to open the library of a job that is still cached, unless one was brought for it that
cannot be opened. -/
theorem run_computes {processIds : List ExecutorId} {es : List CrewEvent}
    (run : Run (step loader) (Meets loader) (.new processIds left) es out s) :
    (∀ result, Sent.respond (.result result) ∈ out →
      ∃ request ∈ requested es, ∃ task ∈ request.brings, task.id = result.id ∧
        ∃ args program, (∃ program', Brought (requested es) request.job args program') ∧
          (∃ args', Brought (requested es) request.job args' program) ∧
            loader.Returns program args task.data (.ok result.data)) ∧
    ∀ (x : Executor) job error, job ∈ s.site.worker.jobCache →
      (x.getLibrary loader s.site.files job).2 = .error error →
        ∃ args program, Brought (requested es) job args program ∧ loader.opens program = false := by
  have hrun : s.Honest loader left (requested es) ∧ ∀ result, Sent.respond (.result result) ∈ out →
      ∃ job, Computed loader (requested es) job result.id result.data := by
    refine run.invariant (I := fun es out s => s.Honest loader left (requested es) ∧
      ∀ result, Sent.respond (.result result) ∈ out →
        ∃ job, Computed loader (requested es) job result.id result.data) ?_ ?_
    · exact ⟨honest_new processIds, by simp⟩
    · intro es out s e t out' hI met taken
      obtain ⟨honest, hanswers⟩ := hI
      obtain ⟨honest', hanswers'⟩ := honest.step met taken
      rw [requested_snoc]
      refine ⟨honest', ?_⟩
      intro result hanswer
      rcases List.mem_append.mp hanswer with hold | hnew
      · obtain ⟨job, hcomputed⟩ := hanswers result hold
        exact ⟨job, hcomputed.later⟩
      · exact hanswers' result hnew
  refine ⟨?_, fun x job error hcached herror => hrun.1.found hcached herror⟩
  intro result hanswer
  obtain ⟨job, order, hordered, rfl, htask, args, program, hbrought, hreturns⟩ :=
    hrun.2 result hanswer
  obtain ⟨hargs, request, hmem, hjob, hbrings⟩ := hordered
  refine ⟨request, hmem, _, hbrings, htask, order.jobData, program, ?_, ?_, hreturns⟩
  · rw [hjob]
    exact hargs
  · rw [hjob]
    exact ⟨args, hbrought⟩

/-! A program that returns all the bytes it can see. -/

def spelling : Loader where
  opens _ := true
  exports _ := true
  Returns program args data result := result = .ok (program ++ args ++ data)

instance (program args data : List UInt8) (result : Except String (List UInt8)) :
    Decidable (spelling.Returns program args data result) :=
  inferInstanceAs (Decidable (result = .ok (program ++ args ++ data)))

def spells : List CrewEvent :=
  [.request ⟨7, some ([1], [2]), [], [⟨5, [3]⟩]⟩ [], .executes 1 (.returned (.ok [2, 1, 3])) 4,
    .result 1]

theorem run_computes_spells : ∃ out s,
    Run (step spelling) (Meets spelling) (.new [1] ∅) spells out s ∧
      Sent.respond (.result ⟨5, 4, [2, 1, 3]⟩) ∈ out ∧
        ∃ request ∈ requested spells, ∃ task ∈ request.brings, task.id = 5 ∧
          ∃ args program, spelling.Returns program args task.data (.ok [2, 1, 3]) := by
  obtain ⟨s, out, run, h⟩ := exists_run (step spelling) (Meets spelling) (.new [1] ∅) spells
    (fun r => Sent.respond (.result ⟨5, 4, [2, 1, 3]⟩) ∈ r.2) (by decide +kernel)
  have hanswer : Sent.respond (.result ⟨5, 4, [2, 1, 3]⟩) ∈ out := of_decide_eq_true h
  obtain ⟨request, hmem, task, hbrings, hid, args, program, _, _, hreturns⟩ :=
    (run_computes run).1 _ hanswer
  exact ⟨out, s, run, hanswer, request, hmem, task, hbrings, hid, args, program, hreturns⟩

end DllCrew

end GridServer.NodeWorker
