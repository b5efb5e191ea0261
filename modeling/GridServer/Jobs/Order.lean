import GridServer.Jobs.Listing

namespace GridServer.Jobs
open Library

variable {Data Work Output : Type} {engine : Engine Data Work Output}

/-- The job that an `AddJob` brings. -/
def Event.addedJob? : Event Data → Option (Uuid × Data)
  | .command (.addJob data id) => some (id, data)
  | _ => none

namespace State
variable {s t u : State Data Work Output} {out out' : List (Sent Data Output)} {e : Event Data}
  {es es' : List (Event Data)} {log : Service.Log Uuid} {P : Uuid → Data → Prop}
  {flow : Flow Output}

/-- All jobs, from the one that was finished first to the one that waits at the end. -/
def jobs (s : State Data Work Output) : List (Uuid × Data) :=
  (s.jobsFinished ++ s.currentJob.toList ++ s.jobsQueue).map fun job => (job.id, job.data)

/-- Every turn leaves the jobs in the order in which they were added. -/
theorem step_ordered (o : Service.Ordered log s.service) (c : Service.Accounted log s.service)
    (distinct : log.arrived.Nodup) (fresh : ∀ id ∈ e.added?, id ∉ log.arrived)
    (h : s.step engine e = .ok (t, out)) : Service.Ordered (note log s e out) t.service := by
  cases step_service h with
  | inr h =>
    obtain ⟨hstay, ht⟩ := h
    rw [note, hstay, ht]
    exact o.finish
  | inl h =>
    rw [note, h]
    cases hmove : s.move e with
    | stay => exact o
    | finish => exact o.finish
    | take => exact o.take
    | withdraw id => exact o.withdraw c distinct
    | arrive id =>
      refine o.arrive c (fresh id ?_)
      cases e with
      | scheduler event => cases hmove
      | processJob =>
        simp only [move] at hmove
        split at hmove
        · cases hmove
        · cases hmove
      | command command =>
        cases command with
        | addJob data id' =>
          cases hmove
          rfl
        | cancelJob uuid =>
          simp only [move] at hmove
          split at hmove
          · cases hmove
          · cases hmove
        | finishedJobs => cases hmove
        | queuedJobs => cases hmove
        | currentJob => cases hmove

theorem finish_jobs (s : State Data Work Output) (result : JobResult Output) :
    (s.finish result).jobs = s.jobs := by
  unfold finish
  cases hc : s.currentJob with
  | none => rfl
  | some job => simp [jobs, hc]

theorem finish_finished (s : State Data Work Output) (result : JobResult Output) :
    s.jobsFinished <+: (s.finish result).jobsFinished := by
  unfold finish
  split
  · exact List.prefix_refl _
  · exact List.prefix_append _ _

/-- What a turn does to the jobs as a whole: none is put before another, none changes its data, and
what is finished stays as it is. -/
structure Advances (s : State Data Work Output) (added : List (Uuid × Data))
    (t : State Data Work Output) : Prop where
  jobs : t.jobs.Sublist (s.jobs ++ added)
  finished : s.jobsFinished <+: t.jobsFinished

theorem Advances.follow {added : List (Uuid × Data)} (a : Advances s added u)
    (h : follow (u, out', flow) = .ok (t, out)) : Advances s added t := by
  obtain ⟨_, ⟨_, rfl⟩ | ⟨result, _, rfl⟩⟩ := follow_ok h
  · exact a
  · refine ⟨?_, a.finished.trans (finish_finished u result)⟩
    rw [finish_jobs]
    exact a.jobs

theorem Advances.same (jobs : u.jobs = s.jobs) (finished : u.jobsFinished = s.jobsFinished) :
    Advances s [] u := by
  refine ⟨?_, finished ▸ List.prefix_refl _⟩
  rw [List.append_nil, jobs]

theorem restart_jobs (s : State Data Work Output) (scheduler : SchedulerConnection) :
    jobs { s with
      scheduler := scheduler
      currentJob := s.currentJob.map (Job.restart engine) } = s.jobs := by
  have hkey : ∀ job : Job Data Work Output,
      ((job.restart engine).id, (job.restart engine).data) = (job.id, job.data) := by
    intro job
    cases job.restart_cases engine with
    | inl h => rw [h]
    | inr h => rw [h]
  cases hc : s.currentJob with
  | none => simp [jobs, hc]
  | some job => simp [jobs, hc, hkey]

theorem receive_advances {stats : Option JobStats} {results : List WorkerResult}
    (h : s.receive engine stats results = .ok (u, out, flow)) : Advances s [] u := by
  unfold receive at h
  split at h
  · cases h
    exact .same rfl rfl
  · rename_i job hc
    split at h
    · obtain ⟨_, _, h⟩ := bind_ok.mp h
      cases h
      exact .same (by simp [jobs, hc]) rfl
    · cases h
      exact .same rfl rfl

theorem processScheduler_advances {event : SchedulerEvent}
    (h : s.processScheduler engine event = .ok (u, out, flow)) : Advances s [] u := by
  cases event with
  | connected =>
    cases h
    exact .same rfl rfl
  | connectionNotEstablished =>
    cases h
    exact .same rfl rfl
  | disconnected =>
    cases h
    exact .same (restart_jobs s _) rfl
  | message response =>
    cases response with
    | taskResults results => exact receive_advances h
    | jobComplete left stats => exact receive_advances h
    | schedulerBusy =>
      cases h
      exact .same (restart_jobs s _) rfl
    | schedulerFree =>
      cases h
      exact .same rfl rfl
    | taskExecutionError error stats =>
      cases h
      exact .same rfl rfl

theorem processJob_advances (h : s.processJob engine = .ok (u, out, flow)) : Advances s [] u := by
  unfold processJob at h
  split at h
  · rename_i job hc
    obtain ⟨hqueue, hfinished, hcurrent⟩ := engine.onlyJob s job _ h
    dsimp only at hqueue hfinished hcurrent
    refine .same ?_ hfinished
    rcases hcurrent with hsame | ⟨state, hstate⟩
    · rw [jobs, jobs, hqueue, hfinished, hsame]
    · simp [jobs, hqueue, hfinished, hstate, hc]
  · rename_i hc
    split at h
    · cases h
      exact .same rfl rfl
    · rename_i job jobs hq
      cases h
      exact .same (by simp [State.jobs, hc, hq]) rfl

theorem processCommand_advances (command : Command Data) :
    Advances s (Event.command command : Event Data).addedJob?.toList
      (s.processCommand engine command).1 := by
  cases command with
  | addJob data id =>
    refine ⟨?_, List.prefix_refl _⟩
    simp [processCommand, jobs, Event.addedJob?]
  | cancelJob uuid =>
    unfold processCommand
    dsimp only
    split
    · exact .same rfl rfl
    · split
      · rename_i pos _
        refine ⟨?_, List.prefix_refl _⟩
        have herase := (List.eraseIdx_sublist s.jobsQueue pos).append_left
          (s.jobsFinished ++ s.currentJob.toList)
        simpa [jobs, Event.addedJob?] using herase.map fun job => (job.id, job.data)
      · exact .same rfl rfl
  | finishedJobs => exact .same rfl rfl
  | queuedJobs => exact .same rfl rfl
  | currentJob => exact .same rfl rfl

theorem step_advances (h : s.step engine e = .ok (t, out)) :
    Advances s e.addedJob?.toList t := by
  cases e with
  | scheduler event =>
    obtain ⟨⟨u, out', flow⟩, hturn, h⟩ := bind_ok.mp h
    exact (processScheduler_advances hturn).follow h
  | processJob =>
    simp only [step] at h
    split at h
    · obtain ⟨⟨u, out', flow⟩, hturn, h⟩ := bind_ok.mp h
      exact (processJob_advances hturn).follow h
    · cases h
  | command command => exact (processCommand_advances command).follow h

/-- The jobs that there are come from the events, in the order in which they came. -/
theorem run_jobs {meets : State Data Work Output → Event Data → Prop}
    (run : Run (step engine) meets .new es out s) :
    s.jobs.Sublist (es.filterMap Event.addedJob?) := by
  apply run.invariant (I := fun es _ s => s.jobs.Sublist (es.filterMap Event.addedJob?))
  · exact List.Sublist.refl _
  · intro es out s e t out' hI _ taken
    have hadded : [e].filterMap Event.addedJob? = e.addedJob?.toList := by
      cases he : e.addedJob? with
      | none => simp [he]
      | some job => simp [he]
    rw [List.filterMap_append, hadded]
    exact (step_advances taken).jobs.trans (hI.append (.refl _))

theorem arrived_of_run (run : Run (step engine) (fun _ _ => True) .new es out s) :
    (history (step engine) note .none .new es).arrived = es.filterMap Event.added? := by
  apply run.invariant_history note (I := fun log es _ _ => log.arrived = es.filterMap Event.added?)
  · rfl
  · intro log es out s e t out' hI _ _
    rw [note_arrived, hI, List.filterMap_append]
    cases he : e.added? with
    | none => simp [he]
    | some id => simp [he]

theorem ordered_of_run (run : Run (step engine) (fun _ _ => True) .new es out s)
    (distinct : (es.filterMap Event.added?).Nodup) :
    Service.Ordered (history (step engine) note .none .new es) s.service := by
  induction run with
  | nil => rfl
  | @snoc es out out' s t e before met taken ih =>
    have hadded : (es ++ [e]).filterMap Event.added? =
        es.filterMap Event.added? ++ e.added?.toList := by
      rw [List.filterMap_append]
      cases he : e.added? with
      | none => simp [he]
      | some id => simp [he]
    rw [hadded, List.nodup_append] at distinct
    obtain ⟨hnodup, _, hfresh⟩ := distinct
    have harrived := arrived_of_run before
    rw [history_snoc before taken]
    refine step_ordered (ih hnodup) (accounted_of_run before hnodup) (harrived ▸ hnodup) ?_ taken
    intro id hid hmem
    exact hfresh id (harrived ▸ hmem) id (Option.mem_toList.mpr hid) rfl

variable (engine) in
/-- The jobs are worked off in the order in which they were added, but for those that were taken out of
the queue, each with the data it was added with, and what is finished stays as it is. -/
structure InOrder (es : List (Event Data)) (s : State Data Work Output) : Prop where
  ids : s.jobs.map Prod.fst = (es.filterMap Event.added?).filter fun id =>
    id ∉ (history (step engine) note .none .new es).withdrawn
  data : s.jobs.Sublist (es.filterMap Event.addedJob?)
  finished : ∀ {more : List (Event Data)} {out : List (Sent Data Output)}
    {t : State Data Work Output}, Run (step engine) (fun _ _ => True) s more out t →
      s.jobsFinished <+: t.jobsFinished

theorem inOrder_of_run (run : Run (step engine) (fun _ _ => True) .new es out s)
    (distinct : (es.filterMap Event.added?).Nodup) : InOrder engine es s := by
  refine ⟨?_, run_jobs run, ?_⟩
  · rw [← arrived_of_run run, ← ordered_of_run run distinct]
    cases hc : s.currentJob with
    | none => simp [jobs, service, Service.order, hc, Function.comp_def]
    | some job => simp [jobs, service, Service.order, hc, Function.comp_def]
  · intro more out' t later
    exact later.preserves (I := fun t => s.jobsFinished <+: t.jobsFinished) (List.prefix_refl _)
      fun _ _ _ _ before _ taken => before.trans (step_advances taken).finished

end State
end GridServer.Jobs
