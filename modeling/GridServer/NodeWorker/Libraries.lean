import GridServer.NodeWorker.Accounting

namespace GridServer.NodeWorker
open Library

/-! The directory of libraries, from which executors load the programs of their jobs. -/

/-- The file of each job with its program. -/
abbrev Files := AList fun _ : Uuid => List UInt8

/-- What a turn of the worker does to the files. `remove_library` unwraps what the removal returns,
which is an error where there is no file. -/
def Files.after (files : Files) : List Sent → Except Fault Files
  | [] => .ok files
  | .addLibrary job data :: out => after (files.insert job data) out
  | .removeLibrary job :: out =>
    if job ∈ files then after (files.erase job) out else .error .panicked
  | _ :: out => after files out

/-- A worker with the directory that it works in. -/
structure DllSite where
  worker : DllWorker
  files : Files

namespace DllSite

def step (s : DllSite) (e : DllEvent) : Except Fault (DllSite × List Sent) := do
  let (worker, out) ← s.worker.step e
  let files ← s.files.after out
  return (⟨worker, files⟩, out)

end DllSite

/-- The requests that a worker has been given. -/
def DllEvent.request? : DllEvent → Option WorkerRequest
  | .request given _ => some given
  | _ => none

def asked (es : List DllEvent) : List WorkerRequest := es.filterMap DllEvent.request?

/-- Every cached job has its file, with a program that came for the job. Any other file was there
before. -/
structure DllSite.Stored (left : Files) (requests : List WorkerRequest) (s : DllSite) : Prop where
  cached : ∀ job ∈ s.worker.jobCache, ∃ request ∈ requests, ∃ args data, request.job = job ∧
    request.jobData = some (args, data) ∧ s.files.lookup job = some data
  others : ∀ job ∈ s.files, job ∈ s.worker.jobCache ∨ job ∈ left

/-- What is no matter of the files, and starts no job but this. -/
def Sent.Within (job : Option Uuid) : Sent → Prop
  | .addLibrary .. | .removeLibrary _ => False
  | .startJob _ started => job = some started.jobId
  | _ => True

theorem Files.after_within {job : Option Uuid} {files : Files} {out : List Sent}
    (h : ∀ sent ∈ out, sent.Within job) : files.after out = .ok files := by
  induction out with
  | nil => rfl
  | cons sent out ih =>
    have hsent := h sent List.mem_cons_self
    have hout := ih fun sent' hsent' => h sent' (List.mem_cons_of_mem _ hsent')
    cases sent with
    | addLibrary | removeLibrary => exact hsent.elim
    | _ => exact hout

theorem Files.after_append {files : Files} {out out' : List Sent} :
    files.after (out ++ out') = (files.after out).bind fun files => files.after out' := by
  induction out generalizing files with
  | nil => rfl
  | cons sent out ih =>
    cases sent with
    | removeLibrary job =>
      simp only [List.cons_append, Files.after]
      split
      · exact ih
      · rfl
    | _ => exact ih

/-- A part of a turn that is within the job and leaves the cache of libraries as it was. -/
structure Apart {M : Type} (job : Option Uuid) (s t : State M) (out : List Sent) : Prop where
  cache : t.jobCache = s.jobCache
  within : ∀ sent ∈ out, sent.Within job

namespace Apart
variable {M : Type} {job : Option Uuid} {s t u : State M} {out out' : List Sent}

theorem refl (s : State M) (job : Option Uuid) : Apart job s s [] :=
  ⟨rfl, fun _ hsent => absurd hsent List.not_mem_nil⟩

theorem trans (h : Apart job s t out) (h' : Apart job t u out') : Apart job s u (out ++ out') := by
  refine ⟨h'.cache.trans h.cache, ?_⟩
  intro sent hsent
  rcases List.mem_append.mp hsent with hfirst | hsecond
  · exact h.within sent hfirst
  · exact h'.within sent hsecond

theorem assign (s : State M) (id : ExecutorId) (job : Uuid) (task : WorkerTask) :
    Apart (some job) s (s.assign id job task []).1 (s.assign id job task []).2 := by
  unfold State.assign
  split
  · refine ⟨rfl, ?_⟩
    intro sent hsent
    simp only [List.nil_append] at hsent
    obtain ⟨_, _, rfl⟩ := List.mem_map.mp hsent
    rfl
  · exact refl s _

theorem tasksAssignment (s : State M) (job : Uuid) (tasks : List WorkerTask) :
    Apart (some job) s (s.tasksAssignment job tasks).1 (s.tasksAssignment job tasks).2.1 := by
  induction tasks generalizing s with
  | nil => exact refl s _
  | cons task tasks ih =>
    rcases List.eq_nil_or_concat s.freeExecutors with hnone | ⟨front, executorId, hfree⟩
    · rw [State.tasksAssignment_stop hnone]
      exact refl s _
    · rw [State.tasksAssignment_next (by simpa using hfree) job task tasks rfl]
      let t : State M := { s with freeExecutors := front }
      have hstart : Apart (some job) s t [] := ⟨rfl, fun _ hsent => absurd hsent List.not_mem_nil⟩
      exact hstart.trans ((assign t executorId job task).trans (ih _))

theorem finish (s : State M) (result : ExecutorResult) (job : Option Uuid) :
    Apart job s (s.finish result).1 (s.finish result).2 := by
  unfold State.finish
  split
  · refine ⟨rfl, ?_⟩
    intro sent hsent
    rw [List.mem_singleton.mp hsent]
    trivial
  · exact refl s _

end Apart

namespace DllWorker
variable {s t : DllWorker} {out : List Sent} {id id' : ExecutorId} {processIds rest : List ExecutorId}

theorem restartExecutor_apart (job : Option Uuid)
    (h : restartExecutor s id processIds = .ok (t, id', out, rest)) : Apart job s t out := by
  simp only [restartExecutor, bind_ok, except_pure, Except.ok.injEq, Prod.mk.injEq] at h
  obtain ⟨⟨u, executorId, started, later⟩, hstart, rfl, _, rfl, _⟩ := h
  have hstopped : Apart job s (stopExecutor s id).1 (stopExecutor s id).2 := by
    unfold stopExecutor
    split
    · exact ⟨rfl, by simp [Sent.Within]⟩
    · exact .refl s _
  refine hstopped.trans ?_
  unfold startExecutor at hstart
  split at hstart
  · cases hstart
  · split at hstart
    · cases hstart
    · cases hstart
      exact ⟨rfl, by simp [Sent.Within]⟩

theorem processTaskReplacement_apart {job : Uuid} {replacements : List (TaskId × WorkerTask)}
    (h : processTaskReplacement s job replacements processIds = .ok (t, out)) :
    Apart (some job) s t out := by
  induction replacements generalizing s out processIds with
  | nil =>
    cases h
    exact .refl _ _
  | cons replacement replacements ih =>
    obtain ⟨replaceTaskId, task⟩ := replacement
    rw [processTaskReplacement] at h
    split at h
    · rename_i executorId hlookup
      simp only [bind_ok, except_pure, Except.ok.injEq, Prod.mk.injEq] at h
      obtain ⟨⟨u, started, restarted, later⟩, hrestart, ⟨v, out'⟩, hlater, rfl, rfl⟩ := h
      have hunassigned : Apart (some job) s (s.unassign (job, replaceTaskId)) [] :=
        ⟨rfl, fun _ hsent => absurd hsent List.not_mem_nil⟩
      exact ((hunassigned.trans (restartExecutor_apart (some job) hrestart)).trans
        (Apart.assign u started job task)).trans (ih hlater)
    · exact ih h

theorem restartAll_apart {ids : List ExecutorId} (job : Option Uuid)
    (h : restartAll s ids processIds = .ok (t, out)) : Apart job s t out := by
  induction ids generalizing s out processIds with
  | nil =>
    cases h
    exact .refl _ _
  | cons id ids ih =>
    simp only [restartAll, bind_ok, except_pure, Except.ok.injEq, Prod.mk.injEq] at h
    obtain ⟨⟨u, started, restarted, later⟩, hrestart, ⟨v, out'⟩, hlater, rfl, rfl⟩ := h
    have hfreed : Apart job u { u with freeExecutors := u.freeExecutors ++ [started] } [] :=
      ⟨rfl, fun _ hsent => absurd hsent List.not_mem_nil⟩
    have hrestarted := (restartExecutor_apart job hrestart).trans hfreed
    rw [List.append_nil] at hrestarted
    exact hrestarted.trans (ih hlater)

theorem processMessage_apart {event : DllExecutorEvent} {keys : List Key} (job : Option Uuid)
    (h : processMessage s id event processIds keys = .ok (t, out)) : Apart job s t out := by
  cases event with
  | result result =>
    have hfinish : s.finish result = (t, out) := Except.ok.inj h
    have hapart := Apart.finish s result job
    rw [hfinish] at hapart
    exact hapart
  | terminated error =>
    simp only [processMessage, bind_ok] at h
    obtain ⟨⟨u, started, restarted, later⟩, hrestart, h⟩ := h
    have hrestarted := restartExecutor_apart job hrestart
    dsimp only at h
    split at h
    · cases h
      refine hrestarted.trans ⟨rfl, ?_⟩
      intro sent hsent
      rw [List.mem_singleton.mp hsent]
      trivial
    · cases h
      exact ⟨hrestarted.cache, hrestarted.within⟩

theorem processLibrary_stored {left : Files} {requests : List WorkerRequest} {files : Files}
    {request : WorkerRequest} (stored : DllSite.Stored left requests ⟨s, files⟩)
    (h : processLibrary s request = .ok (t, out)) :
    ∃ files', files.after out = .ok files' ∧
      DllSite.Stored left (requests ++ [request]) ⟨t, files'⟩ ∧ request.job ∈ t.jobCache := by
  have hpeek := LruCache.get_value s.jobCache request.job
  unfold processLibrary at h
  split at h
  · rename_i jobCache value hget
    cases h
    have hmem : ∀ job, job ∈ jobCache ↔ job ∈ s.jobCache := by
      intro job
      have hjob := LruCache.mem_get s.jobCache request.job job
      rw [hget] at hjob
      exact hjob
    refine ⟨files, rfl, ⟨?_, ?_⟩, ?_⟩
    · intro job hjob
      obtain ⟨asked, hasked, args, data, hdata⟩ := stored.cached job ((hmem job).mp hjob)
      exact ⟨asked, List.mem_append_left _ hasked, args, data, hdata⟩
    · intro job hjob
      exact (stored.others job hjob).imp_left (hmem job).mpr
    · rw [hmem, ← LruCache.contains_iff, LruCache.contains, ← hpeek, hget]
      rfl
  · rename_i jobCache hget
    rw [hget] at hpeek
    have hnot : request.job ∉ s.jobCache := AList.lookup_eq_none.mp hpeek.symm
    split at h
    · cases h
    · rename_i args data hdata
      have hkept := LruCache.mem_push_gives (c := s.jobCache) hnot ()
      have hgives := LruCache.push_gives (c := s.jobCache) hnot ()
      have hfile : ∀ job ∈ s.jobCache, job ≠ request.job := fun job hjob he => hnot (he ▸ hjob)
      generalize s.jobCache.push request.job () = pushed at h hkept hgives
      obtain ⟨pushedCache, removed⟩ := pushed
      cases h
      have hnew : request.job ∈ pushedCache := (hkept _).mpr (.inl rfl)
      cases removed with
      | none =>
        refine ⟨files.insert request.job data, rfl, ⟨?_, ?_⟩, hnew⟩
        · intro job hjob
          rcases (hkept job).mp hjob with rfl | ⟨hold, _⟩
          · exact ⟨request, by simp, args, data, rfl, hdata, AList.lookup_insert _⟩
          · obtain ⟨asked, hasked, args', data', hid, hdata', hlookup⟩ := stored.cached job hold
            exact ⟨asked, List.mem_append_left _ hasked, args', data', hid, hdata',
              (AList.lookup_insert_ne (hfile job hold)).trans hlookup⟩
        · intro job hjob
          rcases (AList.mem_insert _).mp hjob with rfl | hbefore
          · exact .inl hnew
          · refine (stored.others job hbefore).imp_left fun hold => (hkept job).mpr (.inr ⟨hold, ?_⟩)
            simp
      | some entry =>
        have hcached : entry.1 ∈ s.jobCache := by
          dsimp only [Option.map_some] at hgives
          split at hgives
          · cases hgives
          · exact List.mem_of_getLast? hgives.symm
        have hthere : entry.1 ∈ files.insert request.job data := by
          obtain ⟨_, _, _, data', _, _, hlookup⟩ := stored.cached entry.1 hcached
          refine (AList.mem_insert _).mpr (.inr ?_)
          rw [← AList.lookup_isSome, hlookup]
          rfl
        refine ⟨(files.insert request.job data).erase entry.1, ?_, ⟨?_, ?_⟩, hnew⟩
        · simp [Files.after, hthere]
        · intro job hjob
          rcases (hkept job).mp hjob with rfl | ⟨hold, hne⟩
          · refine ⟨request, by simp, args, data, rfl, hdata, ?_⟩
            rw [AList.lookup_erase_ne (hfile entry.1 hcached).symm]
            exact AList.lookup_insert _
          · obtain ⟨asked, hasked, args', data', hid, hdata', hlookup⟩ := stored.cached job hold
            refine ⟨asked, List.mem_append_left _ hasked, args', data', hid, hdata', ?_⟩
            rw [AList.lookup_erase_ne (fun he => hne (by rw [he]; rfl))]
            exact (AList.lookup_insert_ne (hfile job hold)).trans hlookup
        · intro job hjob
          obtain ⟨hne, hjob⟩ := AList.mem_erase.mp hjob
          rcases (AList.mem_insert _).mp hjob with rfl | hbefore
          · exact .inl hnew
          · refine (stored.others job hbefore).imp_left fun hold => (hkept job).mpr (.inr ⟨hold, ?_⟩)
            intro he
            exact hne (Option.some.inj he).symm

theorem processLibrary_starts_none {request : WorkerRequest}
    (h : processLibrary s request = .ok (t, out)) (job : ExecutorJob) :
    Sent.startJob id job ∉ out := by
  unfold processLibrary at h
  split at h
  · cases h
    exact List.not_mem_nil
  · split at h
    · cases h
    · cases h
      intro hstart
      rcases List.mem_cons.mp hstart with hadd | hremove
      · cases hadd
      · obtain ⟨_, _, hremove⟩ := List.mem_map.mp hremove
        cases hremove

end DllWorker

namespace DllSite
variable {left : Files} {requests : List WorkerRequest} {s t : DllSite} {w : DllWorker} {e : DllEvent}
  {out : List Sent} {files : Files}

/-- A turn that leaves the cache alone has nothing to do with the files. -/
theorem Stored.apart (stored : s.Stored left requests) (h : Apart none s.worker w out) :
    s.files.after out = .ok s.files ∧ Stored left requests ⟨w, s.files⟩ ∧
      ∀ id job, Sent.startJob id job ∉ out := by
  refine ⟨Files.after_within h.within, ⟨?_, ?_⟩, ?_⟩
  · intro job hjob
    exact stored.cached job (h.cache ▸ hjob)
  · intro job hjob
    exact (stored.others job hjob).imp_left fun hold => h.cache ▸ hold
  · intro id job hstart
    exact absurd (h.within _ hstart) (by simp [Sent.Within])

theorem Stored.request {request : WorkerRequest} {processIds : List ExecutorId}
    (stored : s.Stored left requests)
    (taken : s.worker.step (.request request processIds) = .ok (w, out)) :
    ∃ files, s.files.after out = .ok files ∧ Stored left (requests ++ [request]) ⟨w, files⟩ ∧
      ∀ id job, Sent.startJob id job ∈ out → job.jobId ∈ w.jobCache := by
  simp only [DllWorker.step, bind_ok, except_pure, Except.ok.injEq, Prod.mk.injEq] at taken
  obtain ⟨⟨u, sent, error⟩, hprocess, rfl, rfl⟩ := taken
  have hanswered : ∀ job, ∀ x ∈ answered error, x.Within job := by
    intro job x hx
    obtain ⟨_, _, rfl⟩ := List.mem_map.mp hx
    trivial
  unfold DllWorker.processRequest at hprocess
  split at hprocess
  · cases hprocess
    refine ⟨s.files, Files.after_within (hanswered none), ⟨?_, stored.others⟩, ?_⟩
    · intro job hjob
      obtain ⟨asked, hasked, rest⟩ := stored.cached job hjob
      exact ⟨asked, List.mem_append_left _ hasked, rest⟩
    · intro id job hstart
      exact absurd (hanswered none _ hstart) (by simp [Sent.Within])
  · rename_i v cached hlibrary
    obtain ⟨files, hafter, hstored, hjob⟩ := DllWorker.processLibrary_stored stored hlibrary
    simp only [bind_ok, except_pure, Except.ok.injEq, Prod.mk.injEq] at hprocess
    obtain ⟨⟨v', replaced⟩, hreplaced, rfl, rfl, rfl⟩ := hprocess
    have hworked := (DllWorker.processTaskReplacement_apart hreplaced).trans
      (Apart.tasksAssignment v' request.job request.tasks.reverse)
    have hrest : ∀ x ∈ (replaced ++ (v'.tasksAssignment request.job request.tasks.reverse).2.1) ++
        answered (v'.tasksAssignment request.job request.tasks.reverse).2.2,
          x.Within (some request.job) := by
      intro x hx
      rcases List.mem_append.mp hx with hwork | hanswer
      · exact hworked.within x hwork
      · exact hanswered _ x hanswer
    refine ⟨files, ?_, ⟨?_, ?_⟩, ?_⟩
    · rw [List.append_assoc cached, List.append_assoc cached, Files.after_append, hafter]
      exact Files.after_within hrest
    · intro job hjob
      exact hstored.cached job (hworked.cache ▸ hjob)
    · intro job hjob
      exact (hstored.others job hjob).imp_left fun hold => hworked.cache ▸ hold
    · intro id job hstart
      rw [List.append_assoc cached, List.append_assoc cached] at hstart
      rcases List.mem_append.mp hstart with hcached | hlater
      · exact absurd hcached (DllWorker.processLibrary_starts_none hlibrary job)
      · have hid : some request.job = some job.jobId := hrest _ hlater
        rw [← Option.some.inj hid]
        exact hworked.cache ▸ hjob

/-- A turn of the worker finds the files that it needs. -/
theorem Stored.step (stored : s.Stored left requests) (taken : s.worker.step e = .ok (w, out)) :
    ∃ files, s.files.after out = .ok files ∧
      Stored left (requests ++ e.request?.toList) ⟨w, files⟩ ∧
      ∀ id job, Sent.startJob id job ∈ out → job.jobId ∈ w.jobCache := by
  have apart : Apart none s.worker w out → ∃ files, s.files.after out = .ok files ∧
      Stored left (requests ++ []) ⟨w, files⟩ ∧
      ∀ id job, Sent.startJob id job ∈ out → job.jobId ∈ w.jobCache := by
    intro h
    obtain ⟨hafter, hstored, hnone⟩ := stored.apart h
    rw [List.append_nil]
    exact ⟨s.files, hafter, hstored, fun id job hstart => absurd hstart (hnone id job)⟩
  cases e with
  | request request processIds => exact stored.request taken
  | message executorId event processIds keys =>
    refine apart ?_
    simp only [DllWorker.step] at taken
    split at taken
    · exact DllWorker.processMessage_apart none taken
    · cases taken
  | reset drained processIds =>
    refine apart ?_
    simp only [DllWorker.step] at taken
    split at taken
    · have hrestarted := DllWorker.restartAll_apart none taken
      exact ⟨hrestarted.cache, hrestarted.within⟩
    · cases taken

theorem step_ok : s.step e = .ok (t, out) ↔
    s.worker.step e = .ok (t.worker, out) ∧ s.files.after out = .ok t.files := by
  obtain ⟨worker, files⟩ := t
  simp only [step, bind_ok, except_pure, Except.ok.injEq, Prod.mk.injEq, DllSite.mk.injEq]
  constructor
  · rintro ⟨⟨w, sent⟩, hstep, files', hafter, ⟨rfl, rfl⟩, rfl⟩
    exact ⟨hstep, hafter⟩
  · rintro ⟨hstep, hafter⟩
    exact ⟨(worker, out), hstep, files, hafter, ⟨rfl, rfl⟩, rfl⟩

/-- In every run of a worker in a directory, every cached job has its file, with a program that came
for it, and no other file comes to stay. No turn looks for a file to remove that is not there, and an
executor is started on a job only when the job's file is. -/
theorem run_libraries {processIds : List ExecutorId} {es : List DllEvent}
    (run : Run step (fun _ _ => True) ⟨.new processIds, left⟩ es out s) :
    s.Stored left (asked es) ∧
      (∀ e fault, s.step e = .error fault → s.worker.step e = .error fault) ∧
      ∀ e t out, s.step e = .ok (t, out) → ∀ id job, Sent.startJob id job ∈ out →
        ∃ request ∈ asked (es ++ [e]), ∃ args data, request.job = job.jobId ∧
          request.jobData = some (args, data) ∧ t.files.lookup job.jobId = some data := by
  have hsnoc : ∀ es : List DllEvent, ∀ e, asked (es ++ [e]) = asked es ++ e.request?.toList := by
    intro es e
    rw [asked, List.filterMap_append, asked]
    cases he : e.request? <;> simp [he]
  have stored : s.Stored left (asked es) := by
    refine run.invariant (I := fun es _ s => s.Stored left (asked es)) ?_ ?_
    · refine ⟨?_, fun job hjob => .inr hjob⟩
      intro job hjob
      exact absurd hjob (LruCache.not_mem_new job)
    · intro es _ s e t out stored _ taken
      obtain ⟨hstep, hafter⟩ := step_ok.mp taken
      obtain ⟨files, hafter', hstored, _⟩ := stored.step hstep
      rw [hsnoc]
      cases hafter.symm.trans hafter'
      exact hstored
  refine ⟨stored, ?_, ?_⟩
  · intro e fault failed
    cases hstep : s.worker.step e with
    | error fault' =>
      rw [step, hstep] at failed
      cases failed
      rfl
    | ok result =>
      obtain ⟨w, out⟩ := result
      obtain ⟨files, hafter, _⟩ := stored.step hstep
      have hok : s.step e = .ok (⟨w, files⟩, out) := step_ok.mpr ⟨hstep, hafter⟩
      cases hok.symm.trans failed
  · intro e t out taken id job hstart
    obtain ⟨hstep, hafter⟩ := step_ok.mp taken
    obtain ⟨files, hafter', hstored, hstarts⟩ := stored.step hstep
    cases hafter.symm.trans hafter'
    rw [hsnoc]
    exact hstored.cached job.jobId (hstarts id job hstart)

/-! With an eleventh job the first is given up. -/

def elevenJobs : List DllEvent :=
  (List.range 11).map fun job => .request ⟨job, some ([], [job.toUInt8]), [], []⟩ []

theorem run_libraries_eleven : ∃ s out,
    Run step (fun _ _ => True) ⟨.new [1], ∅⟩ elevenJobs out s ∧
      s.files.keys = [10, 9, 8, 7, 6, 5, 4, 3, 2, 1] ∧ s.Stored ∅ (asked elevenJobs) := by
  obtain ⟨s, out, run, h⟩ := exists_run step (fun _ _ => True) ⟨.new [1], ∅⟩ elevenJobs
    (fun r => r.1.files.keys = [10, 9, 8, 7, 6, 5, 4, 3, 2, 1]) (by decide +kernel)
  exact ⟨s, out, run, of_decide_eq_true h, (run_libraries run).1⟩

end DllSite

end GridServer.NodeWorker
