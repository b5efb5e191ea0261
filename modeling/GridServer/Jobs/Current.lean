import GridServer.Jobs.Listing

namespace GridServer.Jobs
open Library

variable {Data Work Output : Type} {engine : Engine Data Work Output}

/-- The results that an event brings to the current job, with the statistics if they come with
them. -/
def Event.received : Event Data → Option (Option JobStats × List WorkerResult)
  | .scheduler (.message (.taskResults results)) => some (none, results)
  | .scheduler (.message (.jobComplete left stats)) => some (some stats, left)
  | _ => none

namespace State

/-- What holds of the work on the current job once this has been started. No other job that is still
to be finished has been. -/
structure Works (I : Uuid → Data → Work → Prop) (s : State Data Work Output) : Prop where
  queued : ∀ job ∈ s.jobsQueue, job.state = .notStarted
  current : ∀ job work, s.currentJob = some job → job.state = .started work → I job.id job.data work

variable {s t u : State Data Work Output} {out out' : List (Sent Data Output)} {e : Event Data}
  {I I' : Uuid → Data → Work → Prop}

theorem Works.new : (State.new : State Data Work Output).Works I := by
  refine ⟨?_, ?_⟩
  · simp [State.new]
  · simp [State.new]

theorem Works.idle (queued : ∀ job ∈ s.jobsQueue, job.state = .notStarted)
    (current : ∀ job ∈ s.currentJob, job.state = .notStarted) : s.Works I := by
  refine ⟨queued, ?_⟩
  intro job work hjob hwork
  rw [current job hjob] at hwork
  cases hwork

theorem Works.imp (h : s.Works I) (imp : ∀ id data work, I id data work → I' id data work) :
    s.Works I' := by
  refine ⟨h.queued, ?_⟩
  intro job work hjob hwork
  exact imp _ _ _ (h.current job work hjob hwork)

theorem Works.congr (h : s.Works I) (queue : t.jobsQueue = s.jobsQueue)
    (current : t.currentJob = s.currentJob) : t.Works I := by
  refine ⟨queue ▸ h.queued, ?_⟩
  intro job work hjob
  rw [current] at hjob
  exact h.current job work hjob

/-- Where the work on the current job is known, it need only be looked at. -/
theorem forall_work {job : Job Data Work Output} {work : Work}
    {P : Job Data Work Output → Work → Prop} (hstate : job.state = .started work) (h : P job work) :
    ∀ job' work', some job = some job' → job'.state = .started work' → P job' work' := by
  intro job' work' hjob hwork
  obtain rfl := Option.some.inj hjob
  obtain rfl := JobState.started.inj (hstate.symm.trans hwork)
  exact h

/-- A turn that is followed by the end of the job need not care for it. -/
theorem works_of_follow {flow : Flow Output} (queued : ∀ job ∈ u.jobsQueue, job.state = .notStarted)
    (current : flow = .continue → u.Works I) (h : State.follow (u, out, flow) = .ok (t, out')) :
    t.Works I := by
  obtain ⟨_, hend⟩ := State.follow_ok h
  rcases hend with ⟨hflow, rfl⟩ | ⟨result, _, rfl⟩
  · exact current hflow
  · unfold State.finish
    cases hc : u.currentJob with
    | none => exact .idle queued (by simp [hc])
    | some job => exact .idle queued (by simp)

theorem Works.restart (h : s.Works I) (scheduler : SchedulerConnection) : Works I { s with
    scheduler := scheduler
    currentJob := s.currentJob.map (Job.restart engine) } := by
  refine ⟨h.queued, ?_⟩
  intro job' work hjob hwork
  obtain ⟨job, hc, rfl⟩ := Option.map_eq_some_iff.mp hjob
  rcases job.restart_cases engine with hrestart | hrestart
  · rw [hrestart] at hwork
    cases hwork
  · rw [hrestart] at hwork ⊢
    exact h.current job work hc hwork

theorem Works.receive (h : s.Works I) {stats : Option JobStats} {results : List WorkerResult}
    {flow : Flow Output}
    (receives : ∀ job work work' flow, s.currentJob = some job → job.state = .started work →
      engine.receive work stats results = .ok (work', flow) → I' job.id job.data work')
    (taken : s.receive engine stats results = .ok (u, out, flow)) : u.Works I' := by
  unfold State.receive at taken
  split at taken
  · rename_i hc
    cases taken
    exact .idle h.queued (by simp [hc])
  · rename_i job hc
    split at taken
    · rename_i work hstate
      obtain ⟨⟨work', flow'⟩, hreceive, taken⟩ := bind_ok.mp taken
      cases taken
      exact ⟨h.queued, forall_work rfl (receives job work work' flow hc hstate hreceive)⟩
    · rename_i hnot
      cases taken
      refine ⟨h.queued, ?_⟩
      intro job' work hjob hwork
      rw [hc, Option.some.injEq] at hjob
      subst hjob
      exact absurd hwork (hnot work)

theorem Works.processJob (h : s.Works I) (I' : Uuid → Data → Work → Prop) {flow : Flow Output}
    (processes : ∀ job, s.currentJob = some job →
      engine.processCurrent s job = .ok (u, out, flow) → flow = .continue →
        ∀ job' work, u.currentJob = some job' → job'.state = .started work →
          I' job'.id job'.data work)
    (taken : s.processJob engine = .ok (u, out, flow)) :
    (∀ job ∈ u.jobsQueue, job.state = .notStarted) ∧ (flow = .continue → u.Works I') := by
  unfold State.processJob at taken
  split at taken
  · rename_i job hc
    have hqueue := (engine.onlyJob s job _ taken).1
    have hqueued : ∀ job ∈ u.jobsQueue, job.state = .notStarted :=
      fun job hjob => h.queued job (hqueue ▸ hjob)
    exact ⟨hqueued, fun hflow => ⟨hqueued, processes job hc taken hflow⟩⟩
  · rename_i hc
    split at taken
    · rename_i hq
      cases taken
      exact ⟨by simp [hq], fun _ => .idle (by simp [hq]) (by simp [hc])⟩
    · rename_i job jobs hq
      cases taken
      have hqueued : ∀ job' ∈ job :: jobs, job'.state = .notStarted := hq ▸ h.queued
      have htail : ∀ job' ∈ jobs, job'.state = .notStarted :=
        fun job' hjob' => hqueued job' (List.mem_cons_of_mem _ hjob')
      refine ⟨htail, fun _ => .idle htail ?_⟩
      intro job' hjob'
      simp only [Option.mem_some] at hjob'
      exact hjob' ▸ hqueued job List.mem_cons_self

/-- The rule for what a turn does to the work on the current job: results are added to it, or it is
processed, and no other turn touches it. -/
theorem works_of_step (h : s.Works I)
    (still : e ≠ .processJob → e.received = none → ∀ id data work, I id data work →
      I' id data work)
    (receives : ∀ stats results, e.received = some (stats, results) → ∀ job work work' flow,
      s.currentJob = some job → job.state = .started work →
        engine.receive work stats results = .ok (work', flow) → I' job.id job.data work')
    (processes : e = .processJob → ∀ job u, s.currentJob = some job →
      engine.processCurrent s job = .ok (u, out, .continue) →
        ∀ job' work, u.currentJob = some job' → job'.state = .started work →
          I' job'.id job'.data work)
    (taken : s.step engine e = .ok (t, out)) : t.Works I' := by
  cases e with
  | scheduler event =>
    have hstill (hnone : Event.received (.scheduler event : Event Data) = none) :=
      h.imp (still (fun he => by cases he) hnone)
    obtain ⟨⟨u, out', flow⟩, hturn, taken⟩ := bind_ok.mp taken
    have hu : u.Works I' := by
      cases event with
      | connected =>
        cases hturn
        exact hstill rfl
      | connectionNotEstablished =>
        cases hturn
        exact hstill rfl
      | disconnected =>
        cases hturn
        exact (hstill rfl).restart ⟨false⟩
      | message response =>
        cases response with
        | taskResults results => exact h.receive (receives _ _ rfl) hturn
        | jobComplete left stats => exact h.receive (receives _ _ rfl) hturn
        | schedulerBusy =>
          cases hturn
          exact (hstill rfl).restart ⟨false⟩
        | schedulerFree =>
          cases hturn
          exact (hstill rfl).congr rfl rfl
        | taskExecutionError error stats =>
          cases hturn
          exact hstill rfl
    exact works_of_follow hu.queued (fun _ => hu) taken
  | processJob =>
    simp only [State.step] at taken
    split at taken
    · obtain ⟨⟨u, out', flow⟩, hturn, taken⟩ := bind_ok.mp taken
      obtain rfl := (State.follow_ok taken).1
      obtain ⟨hqueued, hcurrent⟩ := h.processJob I' (fun job hc hprocess hflow => by
        subst hflow
        exact processes rfl job u hc hprocess) hturn
      exact works_of_follow hqueued hcurrent taken
    · cases taken
  | command command =>
    have hstill := h.imp (still (fun he => by cases he) rfl)
    cases command with
    | addJob data id =>
      have hqueued : ∀ job ∈ s.jobsQueue ++ [{ id := id, data := data, state := .notStarted }],
          job.state = .notStarted := by
        intro job hjob
        rcases List.mem_append.mp hjob with hjob | hjob
        · exact h.queued job hjob
        · rw [List.mem_singleton.mp hjob]
      simp only [State.step, State.processCommand] at taken
      refine works_of_follow ?_ (fun _ => ?_) taken
      · exact hqueued
      · exact ⟨hqueued, hstill.current⟩
    | cancelJob uuid =>
      simp only [State.step, State.processCommand] at taken
      split at taken
      · exact works_of_follow h.queued (fun _ => hstill) taken
      · split at taken
        · have hqueued : ∀ pos, ∀ job ∈ s.jobsQueue.eraseIdx pos, job.state = .notStarted :=
            fun pos job hjob => h.queued job (List.mem_of_mem_eraseIdx hjob)
          refine works_of_follow ?_ (fun _ => ?_) taken
          · exact hqueued _
          · exact ⟨hqueued _, hstill.current⟩
        · exact works_of_follow h.queued (fun _ => hstill) taken
    | finishedJobs =>
      simp only [State.step, State.processCommand] at taken
      exact works_of_follow h.queued (fun _ => hstill) taken
    | queuedJobs =>
      simp only [State.step, State.processCommand] at taken
      exact works_of_follow h.queued (fun _ => hstill) taken
    | currentJob =>
      simp only [State.step, State.processCommand] at taken
      exact works_of_follow h.queued (fun _ => hstill) taken

end State
end GridServer.Jobs
