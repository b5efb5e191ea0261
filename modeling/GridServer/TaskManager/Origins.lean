import GridServer.TaskManager.Responses

namespace GridServer.TaskManager
open Jobs Library

/-- The invariant behind `Owned`. -/
structure Tracked (checks : Bool) (externals : Externals) (g : Trace) (id : Uuid) (work : Started) :
    Prop where
  shaped : ∀ part ∈ work.parts, part.Shaped
  tasks : ∃ missing, work.tasks.Represents checks missing
  owned : Owned externals g id work

section
variable {checks : Bool} {externals : Externals} {g g' : Trace} {id : Uuid} {work work' : Started}
  {result : WorkerResult} {batch : List WorkerResult} {response : SchedulerResponse}
  {flow : Flow Distance} {s t u : State} {job : Job} {out : List Sent}

theorem Owned.mono (o : Owned externals g id work) (delivered : g.delivered ⊆ g'.delivered)
    (emitted : g'.emitted = g.emitted) : Owned externals g' id work := by
  refine ⟨?_, ?_, ?_⟩
  · intro taxi set distance hentry
    obtain ⟨response, hresponse, hstored⟩ := o.values taxi set distance hentry
    exact ⟨response, delivered hresponse, hstored⟩
  · intro task htask hbit
    obtain ⟨response, hresponse, hresult⟩ := o.removed task (emitted ▸ htask) hbit
    exact ⟨response, delivered hresponse, hresult⟩
  · intro stats hstats
    obtain ⟨left, hleft⟩ := o.stats stats hstats
    exact ⟨left, delivered hleft⟩

theorem Tracked.mono (k : Tracked checks externals g id work)
    (delivered : g.delivered ⊆ g'.delivered) (emitted : g'.emitted = g.emitted) :
    Tracked checks externals g' id work :=
  ⟨k.shaped, k.tasks, k.owned.mono delivered emitted⟩

/-- Other parts and tasks in the same phase. -/
theorem tables_of_phase (work work' : Started) (hphase : work'.phase = work.phase) :
    work'.tables = work.tables ∨ work'.tables = work'.parts ∧ work.tables = work.parts := by
  unfold Started.tables
  rw [hphase]
  cases work.phase with
  | splitting splitter => exact .inr ⟨rfl, rfl⟩
  | waitingTasksCompletions => exact .inr ⟨rfl, rfl⟩
  | reducing reducer minimal => exact .inl rfl

/-- What a job takes from a result of its own response. -/
theorem Tracked.processResult (k : Tracked checks externals g id work)
    (own : (some id, response) ∈ g.delivered) (mem : result ∈ answers response)
    (h : processResult checks externals work result = .ok (work', flow)) :
    Tracked checks externals g id work' := by
  unfold TaskManager.processResult at h
  split at h
  · cases h
    exact k
  · rename_i found hdecode
    obtain ⟨missing, r⟩ := k.tasks
    obtain ⟨tasks, hremove, hrepresents⟩ := r.remove result.id
    rw [hremove, ok_bind] at h
    dsimp only at h
    have hremoved : ∀ task ∈ g.emitted, tasks.inner.bit task = false →
        ∃ response, (some id, response) ∈ g.delivered ∧
          ∃ result ∈ answers response, result.id = task := by
      intro task htask hbit
      by_cases hsame : task = result.id
      · exact ⟨response, own, result, mem, hsame.symm⟩
      · apply k.owned.removed task htask
        rw [hrepresents.bits] at hbit
        rw [r.bits]
        simpa [hsame] using hbit
    split at h
    · obtain ⟨between, hfirst, h⟩ := bind_ok.mp h
      obtain ⟨after, hsecond, h⟩ := bind_ok.mp h
      cases h
      obtain ⟨hshaped₁, hfound₁⟩ := file_found k.shaped hfirst
      obtain ⟨hshaped₂, hfound₂⟩ := file_found hshaped₁ hsecond
      refine ⟨hshaped₂, ⟨_, hrepresents⟩, ?_, hremoved, k.owned.stats⟩
      intro taxi set distance hentry
      rcases tables_of_phase work { work with tasks := tasks, parts := after } rfl with
        htables | ⟨htables', htables⟩
      · rw [htables] at hentry
        exact k.owned.values taxi set distance hentry
      · rw [htables'] at hentry
        rcases hfound₂ taxi set distance hentry with hbetween | ⟨htaxi, hset⟩
        · rcases hfound₁ taxi set distance hbetween with hold | ⟨htaxi, hset⟩
          · exact k.owned.values taxi set distance (htables ▸ hold)
          · exact ⟨response, own, result, mem, found, hdecode, htaxi.symm, _,
              List.mem_cons_self, hset⟩
        · exact ⟨response, own, result, mem, found, hdecode, htaxi.symm, _,
            List.mem_cons_of_mem _ List.mem_cons_self, hset⟩
    · cases h
      refine ⟨k.shaped, ⟨_, hrepresents⟩, ?_, hremoved, k.owned.stats⟩
      exact k.owned.values

theorem Tracked.processResults (k : Tracked checks externals g id work)
    (own : (some id, response) ∈ g.delivered) (sub : batch ⊆ answers response)
    (h : processResults checks externals work batch = .ok (work', flow)) :
    Tracked checks externals g id work' := by
  induction batch generalizing work with
  | nil =>
    cases h
    exact k
  | cons result batch ih =>
    obtain ⟨⟨between, first⟩, hfirst, h⟩ := bind_ok.mp h
    have hbetween := k.processResult own (sub List.mem_cons_self) hfirst
    cases first with
    | «continue» => exact ih hbetween (fun r hr => sub (List.mem_cons_of_mem _ hr)) h
    | finish jobResult =>
      cases h
      exact hbetween
    | stop =>
      cases h
      exact hbetween

/-- Results of tasks that are not missing leave the work as it is. -/
theorem processResults_useless (useless : ∀ result ∈ batch.takeWhile fun result =>
      (externals.decodeTaskResult result.data).isOk, work.tasks.inner.bit result.id = false)
    (h : processResults checks externals work batch = .ok (work', flow)) : work' = work := by
  induction batch with
  | nil =>
    cases h
    rfl
  | cons result batch ih =>
    obtain ⟨⟨between, first⟩, hfirst, h⟩ := bind_ok.mp h
    unfold processResult at hfirst
    cases hdecode : externals.decodeTaskResult result.data with
    | error err =>
      rw [hdecode] at hfirst
      cases hfirst
      cases h
      rfl
    | ok found =>
      have hok : (externals.decodeTaskResult result.data).isOk = true := by
        rw [hdecode]
        rfl
      rw [List.takeWhile_cons_of_pos (p := fun result : WorkerResult =>
        (externals.decodeTaskResult result.data).isOk) hok] at useless
      have hbit := useless result List.mem_cons_self
      rw [hdecode] at hfirst
      simp only [BitSet.remove_absent hbit, ok_bind, Bool.false_eq_true, ↓reduceIte, except_pure,
        Except.ok.injEq, Prod.mk.injEq] at hfirst
      obtain ⟨rfl, rfl⟩ := hfirst
      exact ih (fun r hr => useless r (List.mem_cons_of_mem _ hr)) h

/-- What the current job takes from a response, whether it was produced for this job or not. -/
theorem Tracked.receive (k : Tracked checks externals g job.id work) {source : Option Uuid}
    {delivered : List (Option Uuid × SchedulerResponse)}
    (hdelivered : g.delivered = delivered ++ [(source, response)])
    (hstate : job.state = .started work)
    (met : source = some job.id ∨ System.Useless externals job response)
    {stats : Option JobStats}
    (hreceived : Jobs.Event.received (.scheduler (.message response) : Event) = some (stats, batch))
    (h : (engine checks externals).receive work stats batch = .ok (work', flow)) :
    Tracked checks externals g job.id work' := by
  have hmem : (source, response) ∈ g.delivered := by
    rw [hdelivered]
    exact List.mem_append_right _ List.mem_cons_self
  cases response with
  | taskResults results =>
    cases hreceived
    rcases met with rfl | huseless
    · exact k.processResults hmem (List.Subset.refl _) h
    · simp only [System.Useless, hstate] at huseless
      exact processResults_useless huseless h ▸ k
  | jobComplete left jobStats =>
    cases hreceived
    rcases met with rfl | huseless
    · have hstats : Tracked checks externals g job.id { work with stats := some jobStats } := by
        refine ⟨k.shaped, k.tasks, k.owned.values, k.owned.removed, ?_⟩
        intro stats hstats
        cases hstats
        exact ⟨batch, hmem⟩
      exact hstats.processResults hmem (List.Subset.refl _) h
    · simp only [System.Useless, hstate] at huseless
  | taskExecutionError error jobStats => cases hreceived
  | schedulerBusy => cases hreceived
  | schedulerFree => cases hreceived

/-- What the current job sends. -/
def Trace.send (g : Trace) (out : List Sent) : Trace :=
  { g with emitted := out.foldl Trace.emit g.emitted }

/-- The current job is tracked once it has been started. -/
def AllTracked (checks : Bool) (externals : Externals) (g : Trace) (s : State) : Prop :=
  ∀ job work, s.currentJob = some job → job.state = .started work →
    Tracked checks externals g job.id work

theorem startJob_tracked (hc : s.currentJob = some job) (hstate : job.state = .notStarted)
    (h : startJob checks externals s job = .ok (u, out, .continue)) :
    AllTracked checks externals (g.send out) u := by
  intro job' work hjob hwork
  unfold startJob at h
  split at h
  · cases h
    rw [hc, Option.some.injEq] at hjob
    rw [← hjob, hstate] at hwork
    cases hwork
  · obtain ⟨splitter, _, h⟩ := bind_ok.mp h
    split at h
    · cases h
    · simp only [bind_ok, except_pure, Except.ok.injEq, Prod.mk.injEq, and_true] at h
      obtain ⟨total, _, tables, htables, rfl, rfl⟩ := h
      simp only [Option.some.injEq] at hjob
      subst hjob
      simp only [JobState.started.injEq] at hwork
      subst hwork
      obtain ⟨hshaped, hempty⟩ := parts_shaped htables
      refine ⟨hshaped, ⟨∅, BitSet.represents_new⟩, ?_, ?_, ?_⟩
      · intro taxi set distance hentry
        rw [Started.tables, hempty] at hentry
        cases hentry
      · intro task htask
        cases htask
      · intro stats hstats
        cases hstats

theorem splitJob_tracked (k : AllTracked checks externals g s) (hc : s.currentJob = some job)
    (hstate : job.state = .started work) {splitter : TaskSplitter}
    (hphase : work.phase = .splitting splitter)
    (h : splitJob checks externals s job work splitter = .ok (u, out, .continue)) :
    AllTracked checks externals (g.send out) u := by
  have hk := k job work hc hstate
  unfold splitJob at h
  split at h
  · cases h
    exact k
  · obtain ⟨⟨chunk, splitter'⟩, _, h⟩ := bind_ok.mp h
    obtain ⟨⟨tasks, workersTasks⟩, henlist, h⟩ := bind_ok.mp h
    cases workersTasks with
    | none => cases h
    | some workersTasks =>
      simp only [except_pure, Except.ok.injEq, Prod.mk.injEq, and_true] at h
      obtain ⟨rfl, rfl⟩ := h
      refine Jobs.State.forall_work rfl ?_
      obtain ⟨missing, r⟩ := hk.tasks
      have hrepresents := enlist_represents r henlist
      refine ⟨hk.shaped, ⟨_, hrepresents⟩, ?_, ?_, hk.owned.stats⟩
      · have htables : work.tables = work.parts := by
          rw [Started.tables, hphase]
        intro taxi set distance hentry
        apply hk.owned.values taxi set distance
        rw [htables]
        cases chunk with
        | ok batch => exact hentry
        | error left => exact hentry
      · intro task htask hbit
        have hnot : task ∉ missing ∧ task ∉ workersTasks.map WorkerTask.id := by
          rw [hrepresents.bits, enlist_ids henlist] at hbit
          simpa [not_or] using hbit
        rcases List.mem_append.mp htask with hold | hnew
        · apply hk.owned.removed task hold
          rw [r.bits]
          simpa using hnot.1
        · exact absurd hnew hnot.2

theorem awaitJob_tracked (k : AllTracked checks externals g s) (hc : s.currentJob = some job)
    (hstate : job.state = .started work) (hphase : work.phase = .waitingTasksCompletions)
    (h : awaitJob checks s job work = .ok (u, out, .continue)) :
    AllTracked checks externals (g.send out) u := by
  have hk := k job work hc hstate
  unfold awaitJob at h
  split at h
  · cases h
    exact k
  · split at h
    · obtain ⟨reducer, hreducer, h⟩ := bind_ok.mp h
      cases h
      refine Jobs.State.forall_work rfl ?_
      refine ⟨by simp, hk.tasks, ?_, hk.owned.removed, hk.owned.stats⟩
      intro taxi set distance hentry
      have hentry : entry reducer.completedParts taxi set = some distance := hentry
      apply hk.owned.values taxi set distance
      rw [TaskReducer.new_parts hreducer] at hentry
      rw [Started.tables, hphase]
      exact hentry
    · cases h
      exact k

theorem reduceJob_tracked (k : AllTracked checks externals g s) (hc : s.currentJob = some job)
    (hstate : job.state = .started work) {reducer : TaskReducer} {minimal : Distance}
    (hphase : work.phase = .reducing reducer minimal)
    (h : reduceJob checks s job work reducer minimal = .ok (u, out, .continue)) :
    AllTracked checks externals (g.send out) u := by
  have hk := k job work hc hstate
  unfold reduceJob at h
  obtain ⟨⟨chunk, reducer'⟩, hchunk, h⟩ := bind_ok.mp h
  cases chunk with
  | error left => cases h
  | ok distances =>
    have hsame : reducer'.completedParts = reducer.completedParts :=
      nextChunk_keeps (I := fun r => r.completedParts = reducer.completedParts)
        (fun r item r' hnext hr => (TaskReducer.next_parts hnext).trans hr) hchunk rfl
    cases h
    refine Jobs.State.forall_work rfl ?_
    refine ⟨hk.shaped, hk.tasks, ?_, hk.owned.removed, hk.owned.stats⟩
    intro taxi set distance hentry
    have hentry : entry reducer'.completedParts taxi set = some distance := hentry
    apply hk.owned.values taxi set distance
    rw [hsame] at hentry
    rw [Started.tables, hphase]
    exact hentry

theorem processCurrent_tracked (k : AllTracked checks externals g s) (hc : s.currentJob = some job)
    (h : processCurrent checks externals s job = .ok (u, out, .continue)) :
    AllTracked checks externals (g.send out) u := by
  unfold processCurrent at h
  cases hstate : job.state with
  | notStarted =>
    rw [hstate] at h
    exact startJob_tracked hc hstate h
  | started work =>
    rw [hstate] at h
    cases hphase : work.phase with
    | splitting splitter =>
      simp only [hphase] at h
      exact splitJob_tracked k hc hstate hphase h
    | waitingTasksCompletions =>
      simp only [hphase] at h
      exact awaitJob_tracked k hc hstate hphase h
    | reducing reducer minimal =>
      simp only [hphase] at h
      exact reduceJob_tracked k hc hstate hphase h
  | finished result =>
    rw [hstate] at h
    cases h
    exact k

end

/-- The current job is tracked, and no job has been ended by a response for another. -/
structure Traced (checks : Bool) (externals : Externals) (g : Trace) (s : State) : Prop where
  works : s.Works fun id _ work => Tracked checks externals g id work
  ended : ∀ job source, (job, source) ∈ g.ended → source = some job

section
variable {checks : Bool} {externals : Externals} {g : Trace} {s t : System} {e : System.Event}
  {es : List System.Event} {out : List Sent}

theorem System.turn_ok {event : TaskManager.Event}
    (h : s.step checks externals (.turns event) = .ok (t, out)) :
    s.manager.step (engine checks externals) event = .ok (t.manager, out) ∧
      event.received = none := by
  have hturn : ∀ h : ∀ response, event ≠ .scheduler (.message response),
      event.received = none := by
    intro h
    unfold Jobs.Event.received
    split
    · exact absurd rfl (h _)
    · exact absurd rfl (h _)
    · rfl
  unfold System.step at h
  split at h
  · cases h
  · rename_i event' hnot he
    cases he
    obtain ⟨⟨manager, out'⟩, hmanager, h⟩ := bind_ok.mp h
    cases h
    exact ⟨hmanager, hturn fun response he => hnot response (he ▸ rfl)⟩
  · rename_i he
    cases he
  · rename_i he
    cases he

theorem Traced.turn (h : Traced checks externals g s.manager) {event : Event}
    (taken : s.step checks externals (.turns event) = .ok (t, out)) :
    Traced checks externals (g.note s (.turns event) out) t.manager := by
  obtain ⟨hstep, hnone⟩ := System.turn_ok taken
  by_cases he : event = .processJob
  · subst he
    refine ⟨?_, h.ended⟩
    apply Jobs.State.works_of_step h.works ?still ?receives ?processes hstep
    case still => exact fun he => absurd rfl he
    case receives =>
      intro stats results hreceived
      cases hreceived
    case processes =>
      intro _ job u hc hprocess
      exact processCurrent_tracked h.works.current hc hprocess
  · have hnote : g.note s (.turns event) out = g := by
      unfold Trace.note
      split
      · rename_i hevent
        cases hevent
        exact absurd rfl he
      · rename_i hevent _
        cases hevent
      · rfl
    rw [hnote]
    refine ⟨?_, h.ended⟩
    apply Jobs.State.works_of_step h.works ?still ?receives ?processes hstep
    case still => exact fun _ _ _ _ _ hk => hk
    case receives =>
      intro stats results hreceived
      rw [hnone] at hreceived
      cases hreceived
    case processes => exact fun hprocess => absurd hprocess he

theorem Traced.deliver (h : Traced checks externals g s.manager)
    (met : s.Meets externals .delivers)
    (taken : s.step checks externals .delivers = .ok (t, out)) :
    Traced checks externals (g.note s .delivers out) t.manager := by
  simp only [System.step] at taken
  split at taken
  · cases taken
  · rename_i source response later hq
    obtain ⟨⟨manager, out'⟩, hstep, taken⟩ := bind_ok.mp taken
    simp only [except_pure, Except.ok.injEq, Prod.mk.injEq] at taken
    obtain ⟨rfl, rfl⟩ := taken
    simp only [System.Meets, hq, List.head?_cons, Option.mem_some, forall_eq'] at met
    obtain ⟨g', hg'⟩ : ∃ g', g' = g.note s .delivers out' := ⟨_, rfl⟩
    have hdelivered : g'.delivered = g.delivered ++ [(source, response)] := by
      simp only [hg', Trace.note, hq]
    have hmore : g.delivered ⊆ g'.delivered := by
      rw [hdelivered]
      exact List.subset_append_left _ _
    have hemitted : g'.emitted = g.emitted := by
      simp only [hg', Trace.note, hq]
    rw [← hg']
    refine ⟨?_, ?_⟩
    · apply Jobs.State.works_of_step h.works ?still ?receives ?processes hstep
      case still => exact fun _ _ id _ work hk => hk.mono hmore hemitted
      case processes =>
        intro he
        cases he
      case receives =>
        intro stats results hreceived job work work' flow hc hstate hreceive
        have hk := (h.works.current job work hc hstate).mono hmore hemitted
        exact hk.receive hdelivered hstate (met job hc) hreceived hreceive
    · intro id source' hended
      have hnote : g'.ended = g.ended ++ if Trace.fails response then
          (s.manager.currentJob.map fun job => (job.id, source)).toList else [] := by
        simp only [hg', Trace.note, hq]
      rw [hnote] at hended
      rcases List.mem_append.mp hended with hold | hnew
      · exact h.ended id source' hold
      · cases response with
        | taskExecutionError error stats =>
          obtain ⟨job, hc, hpair⟩ := Option.map_eq_some_iff.mp (Option.mem_toList.mp hnew)
          cases hpair
          rcases met job hc with hsource | huseless
          · exact hsource
          · cases huseless
        | taskResults batch => cases hnew
        | jobComplete left stats => cases hnew
        | schedulerBusy => cases hnew
        | schedulerFree => cases hnew

theorem Traced.step (h : Traced checks externals g s.manager) (met : s.Meets externals e)
    (taken : s.step checks externals e = .ok (t, out)) :
    Traced checks externals (g.note s e out) t.manager := by
  cases e with
  | turns event => exact h.turn taken
  | delivers => exact h.deliver met taken
  | responds source response =>
    simp only [System.step] at taken
    split at taken
    · cases taken
      exact h
    · cases taken

end

/-- As long as no response is taken that was produced for another job and that the current one has a
use for, everything a job has comes from responses that were produced for it. -/
theorem run_unmixed {checks : Bool} {externals : Externals} {es : List System.Event}
    {out : List Sent} {s : System}
    (run : Run (System.step checks externals) (System.Meets externals) .new es out s) :
    Unmixed externals (history (System.step checks externals) Trace.note .none .new es)
      s.manager := by
  have htraced : Traced checks externals
      (history (System.step checks externals) Trace.note .none .new es) s.manager := by
    apply run.invariant_history Trace.note (I := fun g _ _ s => Traced checks externals g s.manager)
    · exact ⟨.new, by simp [Trace.none]⟩
    · intro g es out s e t out' h met taken
      exact h.step met taken
  exact ⟨fun job work hc hstate => (htraced.works.current job work hc hstate).owned,
    htraced.ended⟩

/-- The first of two jobs is started and cancelled, and the scheduler's answer to it comes late. -/
def late (cancelled : List System.Event) : List System.Event :=
  [.turns (.command (.addJob single 7)), .turns (.command (.addJob single 8)), .turns .processJob,
    .responds .none .schedulerFree, .delivers, .turns .processJob, .turns .processJob,
    .responds (some 7) (.taskResults [⟨0, 0, []⟩]), .turns (.command (.cancelJob 7))] ++ cancelled

/-- The current job is this one, and it has been started and does not miss its first task. -/
def answered (s : State) (id : Uuid) : Bool :=
  match s.currentJob with
  | none => false
  | some job =>
    match job.state with
    | .started work => job.id = id && !work.tasks.inner.bit 0
    | _ => false

theorem run_unmixed_late : ∃ s : System, answered s.manager 8 ∧ Unmixed plain
    (history (System.step true plain) Trace.note .none .new
      (late [.delivers, .turns .processJob, .turns .processJob, .turns .processJob,
        .responds (some 8) (.taskResults [⟨0, 0, []⟩]), .delivers])) s.manager := by
  obtain ⟨s, out, run, h⟩ := exists_run (System.step true plain) (System.Meets plain) .new
    (late [.delivers, .turns .processJob, .turns .processJob, .turns .processJob,
      .responds (some 8) (.taskResults [⟨0, 0, []⟩]), .delivers])
    (fun r => answered r.1.manager 8) (by decide +kernel)
  exact ⟨s, h, run_unmixed run⟩

/-- A job takes over the results of the one before. -/
theorem jobs_mixed : ¬ ∀ (checks : Bool) (externals : Externals) (es : List System.Event)
    (out : List Sent) (s : System),
    Run (System.step checks externals) (fun _ _ => True) .new es out s →
      Unmixed externals (history (System.step checks externals) Trace.note .none .new es)
        s.manager := by
  intro h
  obtain ⟨s, out, run, hanswered⟩ := exists_run (System.step true plain) (fun _ _ => True) .new
    (late [.turns .processJob, .turns .processJob, .turns .processJob, .delivers])
    (fun r => answered r.1.manager 8) (by decide +kernel)
  have hunmixed := h true plain _ out s run
  unfold answered at hanswered
  split at hanswered
  · cases hanswered
  · rename_i job hc
    split at hanswered
    · rename_i work hstate
      simp only [Bool.and_eq_true, decide_eq_true_eq, Bool.not_eq_true'] at hanswered
      obtain ⟨hid, hbit⟩ := hanswered
      obtain ⟨response, hresponse, _⟩ :=
        (hunmixed.current job work hc hstate).removed 0 (by decide +kernel) hbit
      rw [hid] at hresponse
      have hdelivered : (history (System.step true plain) Trace.note .none .new
          (late [.turns .processJob, .turns .processJob, .turns .processJob, .delivers])).delivered =
          [(none, .schedulerFree), (some 7, .taskResults [⟨0, 0, []⟩])] := by decide +kernel
      rw [hdelivered] at hresponse
      simp at hresponse
    · cases hanswered

end GridServer.TaskManager
