import GridServer.Jobs.Current

namespace GridServer.Jobs
open Library

variable {Data Work Output : Type} {engine : Engine Data Work Output}

namespace State
variable {s t u : State Data Work Output} {out out' : List (Sent Data Output)} {e : Event Data}
  {P : Uuid → Data → Output → Prop} {fault : Fault}

/-- What holds of the outputs of the jobs that have been completed. -/
def Completed (P : Uuid → Data → Output → Prop) (s : State Data Work Output) : Prop :=
  ∀ job ∈ s.jobsFinished, ∀ output stats, job.state = .finished (.completed output stats) →
    P job.id job.data output

theorem Completed.congr (h : s.Completed P) (finished : t.jobsFinished = s.jobsFinished) :
    t.Completed P := by
  intro job hjob
  exact h job (finished ▸ hjob)

theorem Completed.follow {flow : Flow Output} (h : u.Completed P)
    (ends : ∀ output stats, flow = .finish (.completed output stats) →
      ∀ job ∈ u.currentJob, P job.id job.data output)
    (taken : State.follow (u, out, flow) = .ok (t, out')) : t.Completed P := by
  obtain ⟨_, hend⟩ := State.follow_ok taken
  rcases hend with ⟨_, rfl⟩ | ⟨result, hflow, rfl⟩
  · exact h
  · unfold State.finish
    cases hc : u.currentJob with
    | none => exact h
    | some job =>
      intro job' hjob' output stats hstate
      rcases List.mem_append.mp hjob' with hold | hnew
      · exact h job' hold output stats hstate
      · rw [List.mem_singleton] at hnew
        subst hnew
        simp only [JobState.finished.injEq] at hstate
        exact ends output stats (hflow.trans (congrArg _ hstate)) job hc

/-- A turn that ends no job, or ends it with an error. -/
theorem Completed.quiet {flow : Flow Output} (h : s.Completed P)
    (taken : State.follow (u, out, flow) = .ok (t, out'))
    (finished : u.jobsFinished = s.jobsFinished)
    (never : ∀ output stats, flow ≠ .finish (.completed output stats)) : t.Completed P :=
  (h.congr finished).follow (fun output stats hflow => absurd hflow (never output stats)) taken

theorem Completed.receive {stats : Option JobStats} {results : List WorkerResult}
    {flow : Flow Output} (h : s.Completed P)
    (receives : ∀ job work work' output stats', s.currentJob = some job →
      job.state = .started work →
        engine.receive work stats results = .ok (work', .finish (.completed output stats')) →
          P job.id job.data output)
    (hturn : s.receive engine stats results = .ok (u, out', flow))
    (taken : State.follow (u, out', flow) = .ok (t, out)) : t.Completed P := by
  unfold State.receive at hturn
  split at hturn
  · cases hturn
    exact h.quiet taken rfl (by simp)
  · rename_i job hc
    split at hturn
    · rename_i work hstate
      obtain ⟨⟨work', flow'⟩, hreceive, hturn⟩ := bind_ok.mp hturn
      cases hturn
      refine Completed.follow
        (u := { s with currentJob := some { job with state := .started work' } })
        (h.congr rfl) ?_ taken
      intro output stats' hflow job' hjob'
      subst hflow
      simp only [Option.mem_some] at hjob'
      subst hjob'
      exact receives job work work' output stats' hc hstate hreceive
    · cases hturn
      exact h.quiet taken rfl (by simp)

/-- The rule for the outputs of jobs: a job is completed by a turn that processes it or by
results. -/
theorem completed_of_step (h : s.Completed P)
    (receives : ∀ stats results, e.received = some (stats, results) →
      ∀ job work work' output stats', s.currentJob = some job → job.state = .started work →
        engine.receive work stats results = .ok (work', .finish (.completed output stats')) →
          P job.id job.data output)
    (processes : e = .processJob → ∀ job u out output stats, s.currentJob = some job →
      engine.processCurrent s job = .ok (u, out, .finish (.completed output stats)) →
        P job.id job.data output)
    (taken : s.step engine e = .ok (t, out)) : t.Completed P := by
  cases e with
  | scheduler event =>
    obtain ⟨⟨u, out', flow⟩, hturn, hfollow⟩ := bind_ok.mp taken
    cases event with
    | connected =>
      cases hturn
      exact h.quiet hfollow rfl (by simp)
    | connectionNotEstablished =>
      cases hturn
      exact h.quiet hfollow rfl (by simp)
    | disconnected =>
      cases hturn
      exact h.quiet hfollow rfl (by simp)
    | message response =>
      cases response with
      | taskResults results => exact h.receive (receives _ _ rfl) hturn hfollow
      | jobComplete left stats => exact h.receive (receives _ _ rfl) hturn hfollow
      | schedulerBusy =>
        cases hturn
        exact h.quiet hfollow rfl (by simp)
      | schedulerFree =>
        cases hturn
        exact h.quiet hfollow rfl (by simp)
      | taskExecutionError error stats =>
        cases hturn
        exact h.quiet hfollow rfl (by simp)
  | processJob =>
    simp only [State.step] at taken
    split at taken
    · obtain ⟨⟨u, out', flow⟩, hturn, taken⟩ := bind_ok.mp taken
      unfold State.processJob at hturn
      split at hturn
      · rename_i job hc
        obtain ⟨_, hfinished, hcurrent⟩ := engine.onlyJob s job _ hturn
        refine Completed.follow (h.congr hfinished) ?_ taken
        intro output stats hflow job' hjob'
        subst hflow
        have hdone := processes rfl job u out' output stats hc hturn
        rcases hcurrent with hsame | ⟨state, hstate⟩
        · rw [hsame, hc, Option.mem_some] at hjob'
          exact hjob' ▸ hdone
        · rw [hstate, Option.mem_some] at hjob'
          exact hjob' ▸ hdone
      · split at hturn
        · cases hturn
          exact h.quiet taken rfl (by simp)
        · cases hturn
          exact h.quiet taken rfl (by simp)
    · cases taken
  | command command =>
    cases command with
    | addJob data id =>
      simp only [State.step, State.processCommand] at taken
      exact h.quiet taken rfl (by simp)
    | cancelJob uuid =>
      simp only [State.step, State.processCommand] at taken
      split at taken
      · exact h.quiet taken rfl (by simp)
      · split at taken
        · exact h.quiet taken rfl (by simp)
        · exact h.quiet taken rfl (by simp)
    | finishedJobs =>
      simp only [State.step, State.processCommand] at taken
      exact h.quiet taken rfl (by simp)
    | queuedJobs =>
      simp only [State.step, State.processCommand] at taken
      exact h.quiet taken rfl (by simp)
    | currentJob =>
      simp only [State.step, State.processCommand] at taken
      exact h.quiet taken rfl (by simp)

theorem follow_error {turn : Turn Data Work Output} (h : State.follow turn = .error fault) :
    fault = .stopped := by
  obtain ⟨u, out, flow⟩ := turn
  cases flow with
  | «continue» => cases h
  | finish result => cases h
  | stop =>
    cases h
    rfl

/-- A turn fails as the work on the current job does, unless its branch is not ready or the main
loop ends. -/
theorem error_of_step (h : s.step engine e = .error fault) :
    fault = .notReady ∨ fault = .stopped ∨
      (e = .processJob ∧ ∃ job, s.currentJob = some job ∧
        engine.processCurrent s job = .error fault) ∨
      ∃ stats results job work, e.received = some (stats, results) ∧ s.currentJob = some job ∧
        job.state = .started work ∧ engine.receive work stats results = .error fault := by
  have hreceive : ∀ stats results, e.received = some (stats, results) →
      (do State.follow (← s.receive engine stats results)) = .error fault →
        fault = .stopped ∨ ∃ stats results job work, e.received = some (stats, results) ∧
          s.currentJob = some job ∧ job.state = .started work ∧
            engine.receive work stats results = .error fault := by
    intro stats results hreceived hfails
    unfold State.receive at hfails
    split at hfails
    · cases hfails
    · rename_i job hc
      split at hfails
      · rename_i work hstate
        cases hwork : engine.receive work stats results with
        | error fault' =>
          rw [hwork] at hfails
          cases hfails
          exact .inr ⟨stats, results, job, work, hreceived, hc, hstate, hwork⟩
        | ok turn =>
          rw [hwork] at hfails
          exact .inl (follow_error hfails)
      · cases hfails
  cases e with
  | scheduler event =>
    cases event with
    | connected => cases h
    | connectionNotEstablished =>
      cases h
      exact .inr (.inl rfl)
    | disconnected => cases h
    | message response =>
      cases response with
      | taskResults results =>
        rcases hreceive none results rfl h with hstopped | hfails
        · exact .inr (.inl hstopped)
        · exact .inr (.inr (.inr hfails))
      | jobComplete left stats =>
        rcases hreceive (some stats) left rfl h with hstopped | hfails
        · exact .inr (.inl hstopped)
        · exact .inr (.inr (.inr hfails))
      | schedulerBusy => cases h
      | schedulerFree => cases h
      | taskExecutionError error stats => cases h
  | processJob =>
    simp only [State.step] at h
    split at h
    · unfold State.processJob at h
      split at h
      · rename_i job hc
        cases hprocess : engine.processCurrent s job with
        | error fault' =>
          rw [hprocess] at h
          cases h
          exact .inr (.inr (.inl ⟨rfl, job, hc, hprocess⟩))
        | ok turn =>
          rw [hprocess] at h
          exact .inr (.inl (follow_error h))
      · split at h
        · cases h
        · cases h
    · cases h
      exact .inl rfl
  | command command => exact .inr (.inl (follow_error h))

end State
end GridServer.Jobs
