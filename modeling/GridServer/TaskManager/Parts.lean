import GridServer.TaskManager.Underway

namespace GridServer.TaskManager
open Jobs Library

/-- The job that is being reduced, and its reducer. -/
def reducing (s : State) : Option (JobData × TaskReducer) :=
  match s.currentJob with
  | none => none
  | some job =>
    match job.state with
    | .started work =>
      match work.phase with
      | .reducing reducer _ => some (job.data, reducer)
      | _ => none
    | _ => none

section
variable {checks : Bool} {externals : Externals} {s t : State} {out out' : List Sent}
  {es : List Event} {data : JobData} {reducer : TaskReducer}

theorem startJob_reducing {job : Job} {flow : Flow Distance} (hc : s.currentJob = some job)
    (hstate : job.state = .notStarted) (h : startJob checks externals s job = .ok (t, out, flow)) :
    reducing t = none := by
  unfold startJob at h
  split at h
  · cases h
    simp [reducing, hc, hstate]
  · obtain ⟨_, _, h⟩ := bind_ok.mp h
    split at h
    · cases h
      simp [reducing, hc, hstate]
    · simp only [bind_ok, except_pure, Except.ok.injEq, Prod.mk.injEq] at h
      obtain ⟨_, _, _, _, rfl, _⟩ := h
      rfl

theorem splitJob_reducing {job : Job} {work : Started} {splitter : TaskSplitter}
    {flow : Flow Distance} (hc : s.currentJob = some job) (hstate : job.state = .started work)
    (hphase : work.phase = .splitting splitter)
    (h : splitJob checks externals s job work splitter = .ok (t, out, flow)) :
    reducing t = none := by
  unfold splitJob at h
  split at h
  · cases h
    simp [reducing, hc, hstate, hphase]
  · obtain ⟨⟨chunk, _⟩, _, h⟩ := bind_ok.mp h
    obtain ⟨⟨_, workersTasks⟩, _, h⟩ := bind_ok.mp h
    cases workersTasks with
    | none =>
      cases h
      rfl
    | some workersTasks =>
      cases h
      cases chunk with
      | ok batch => rfl
      | error left => rfl

/-- A job comes to be reduced when no task of it is missing any more, with the tables it has. -/
theorem awaitJob_reducing {job : Job} {work : Started} {flow : Flow Distance}
    (hc : s.currentJob = some job) (hstate : job.state = .started work)
    (hphase : work.phase = .waitingTasksCompletions)
    (h : awaitJob checks s job work = .ok (t, out, flow))
    (after : reducing t = some (data, reducer)) :
    job.data = data ∧ work.tasks.isEmpty = true ∧ reducer.completedParts = work.parts := by
  unfold awaitJob at h
  split at h
  · cases h
    simp [reducing, hc, hstate, hphase] at after
  · split at h
    · rename_i hempty
      obtain ⟨reducer', hreducer, h⟩ := bind_ok.mp h
      cases h
      simp only [reducing, Option.some.injEq, Prod.mk.injEq] at after
      obtain ⟨hdata, rfl⟩ := after
      exact ⟨hdata, hempty, TaskReducer.new_parts hreducer⟩
    · cases h
      simp [reducing, hc, hstate, hphase] at after

theorem enters_reducing (queued : ∀ job ∈ s.jobsQueue, job.state = .notStarted)
    (taken : s.step (engine checks externals) .processJob = .ok (t, out))
    (before : reducing s = none) (after : reducing t = some (data, reducer)) :
    ∃ job work, s.currentJob = some job ∧ job.state = .started work ∧
      work.phase = .waitingTasksCompletions ∧ job.data = data ∧ work.tasks.isEmpty = true ∧
        reducer.completedParts = work.parts := by
  simp only [State.step] at taken
  split at taken
  case isFalse => cases taken
  obtain ⟨⟨u, out₁, flow⟩, hturn, hfollow⟩ := bind_ok.mp taken
  obtain ⟨_, ⟨_, rfl⟩ | ⟨result, _, rfl⟩⟩ := State.follow_ok hfollow
  swap
  · have hnone : (u.finish result).currentJob = none := by
      unfold State.finish
      split
      · assumption
      · rfl
    simp [reducing, hnone] at after
  have habsurd : reducing t ≠ none := by simp [after]
  unfold State.processJob at hturn
  split at hturn
  · rename_i job hc
    change processCurrent checks externals s job = _ at hturn
    unfold processCurrent at hturn
    cases hstate : job.state with
    | finished result =>
      rw [hstate] at hturn
      cases hturn
      exact absurd before habsurd
    | notStarted =>
      rw [hstate] at hturn
      exact absurd (startJob_reducing hc hstate hturn) habsurd
    | started work =>
      rw [hstate] at hturn
      cases hphase : work.phase with
      | splitting splitter =>
        simp only [hphase] at hturn
        exact absurd (splitJob_reducing hc hstate hphase hturn) habsurd
      | reducing reducer minimal => simp [reducing, hc, hstate, hphase] at before
      | waitingTasksCompletions =>
        simp only [hphase] at hturn
        have hentered := awaitJob_reducing hc hstate hphase hturn after
        exact ⟨job, work, hc, hstate, hphase, hentered⟩
  · rename_i hc
    split at hturn
    · cases hturn
      simp [reducing, hc] at after
    · rename_i job jobs hq
      cases hturn
      have hstate := queued job (hq ▸ List.mem_cons_self)
      simp [reducing, hstate] at after

/-- Whenever a job comes to be reduced, its tables have for every taxi and every set of passengers a
distance that was reported since the job was last started, in a build that checks for overflows or
has fewer tasks than it can count. -/
theorem run_parts
    (run : Run (Jobs.State.step (engine checks externals)) (Genuine externals) .new es out s)
    (taken : s.step (engine checks externals) .processJob = .ok (t, out'))
    (before : reducing s = none) (after : reducing t = some (data, reducer))
    (passengers : 1 ≤ data.p ∧ data.p ≤ 63) (countable : checks = false → data.total < 2 ^ 64) :
    ∀ taxi < data.t, ∀ set < 2 ^ data.p, ∃ part distance,
      reducer.completedParts[taxi]? = some part ∧ part.get (split set) = .ok (some distance) ∧
        Reported externals (history (Jobs.State.step (engine checks externals)) note [] .new es)
          taxi set distance := by
  intro taxi htaxi set hset
  have underway := underway_of_run run
  obtain ⟨job, work, hc, hstate, hphase, rfl, hempty, hparts⟩ :=
    enters_reducing underway.queued taken before after
  have suited : Suited checks job.data := ⟨passengers.1, passengers.2, countable⟩
  have hgoing := underway.current job work hc hstate suited
  simp only [Going, hphase] at hgoing
  obtain ⟨missing, a⟩ := hgoing
  have a : Attempt checks externals job.data _ job.data.total ∅ work := a.eq_empty hempty ▸ a
  obtain ⟨distance, hentry, hreported⟩ := a.covers suited htaxi hset
  obtain ⟨part, hpart, hget⟩ := a.tables.get_split suited.some_passenger hentry
  exact ⟨part, distance, hparts ▸ hpart, hget, hreported⟩

end

/-- The job is added, taken, started and split, and its result comes. -/
def singleEvents : List Event :=
  [.command (.addJob single 7), .processJob, .scheduler (.message .schedulerFree), .processJob,
    .processJob, .scheduler (.message (.taskResults [⟨0, 0, []⟩]))]

theorem run_parts_single : ∃ reducer : TaskReducer, ∀ taxi < 1, ∀ set < 2 ^ 1, ∃ part distance,
    reducer.completedParts[taxi]? = some part ∧ part.get (split set) = .ok (some distance) ∧
      Reported plain
        (history (Jobs.State.step (engine true plain)) note [] .new singleEvents)
        taxi set distance := by
  obtain ⟨s, out, run, h⟩ := exists_run (Jobs.State.step (engine true plain)) (Genuine plain) .new
    singleEvents (fun r => (reducing r.1).isNone &&
      ((r.1.step (engine true plain) .processJob).toOption.bind fun t => reducing t.1).any
        fun found => found.1 = single) (by decide +kernel)
  rw [Bool.and_eq_true, Option.isNone_iff_eq_none, Option.any_eq_true] at h
  obtain ⟨before, ⟨data, reducer⟩, hreducing, hdata⟩ := h
  obtain ⟨⟨t, out'⟩, htaken, after⟩ := Option.bind_eq_some_iff.mp hreducing
  cases taken : Jobs.State.step (engine true plain) s .processJob with
  | error fault =>
    rw [taken] at htaken
    cases htaken
  | ok turn =>
    rw [taken] at htaken
    obtain rfl : turn = (t, out') := Option.some.inj htaken
    obtain rfl : data = single := of_decide_eq_true hdata
    exact ⟨reducer, run_parts run taken before after (by decide) (fun hc => by cases hc)⟩

/-! A job of four taxis and 63 passengers has as many tasks as a `usize` has values. A build that
does not check for overflows counts none of them. -/

def wide : JobData := ⟨[[0]], [0, 0, 0, 0], List.replicate 63 (0, 0)⟩

/-- The first `k` tasks of the job have gone to the scheduler, and no result has come. -/
structure Emitting (k : Nat) (s : State) (work : Started) : Prop where
  ready : s.scheduler.ready = true
  needed : s.needProcessJob = true
  current : s.currentJob = some ⟨7, wide, .started work⟩
  phase : work.phase = .splitting (.after 4 63 k)
  tasks : work.tasks.Represents false (Finset.range k)
  parts : work.parts = List.replicate 4 ⟨0, 63, []⟩

section
variable {k : Nat} {s : State} {work : Started}

theorem Emitting.emit (e : Emitting k s work) (hk : k + 128 ≤ 2 ^ 64) :
    ∃ t out work', s.step (engine false plain) .processJob = .ok (t, out) ∧
      Emitting (k + 128) t work' := by
  obtain ⟨items, hitems⟩ : ∃ items, items =
      (List.range' k 128).map fun id => (id, TaskSplitter.task 63 id) := ⟨_, rfl⟩
  have hlength : items.length = 128 := by
    rw [hitems, List.length_map, List.length_range']
  have hids : items.map Prod.fst = List.range' k 128 := by
    rw [hitems, List.map_map]
    exact List.map_id _
  have hyields : Yields (TaskSplitter.next false) (.after 4 63 k) items (.after 4 63 (k + 128)) := by
    have hall : 4 * TaskSplitter.half 63 = 2 ^ 64 := rfl
    rw [hitems]
    exact TaskSplitter.yields_range (by decide) (hall ▸ hk) hk (fun hc => by cases hc)
  have hchunk := nextChunk_of_yields hyields
  rw [hlength] at hchunk
  obtain ⟨tasks, enlisted, henlist, hsome⟩ :=
    enlist_total plain items e.tasks (fun hc => by cases hc)
  obtain ⟨workersTasks, rfl⟩ := Option.isSome_iff_exists.mp (hsome fun _ => rfl)
  have htasks := enlist_represents e.tasks henlist
  have hrange : Finset.range k ∪ (List.range' k 128).toFinset = Finset.range (k + 128) := by
    ext id
    simp only [Finset.mem_union, Finset.mem_range, List.mem_toFinset, List.mem_range'_1]
    omega
  rw [hids, hrange] at htasks
  obtain ⟨work', hwork'⟩ : ∃ work', work' = { work with
    tasks := tasks, phase := JobPhase.splitting (.after 4 63 (k + 128)) } := ⟨_, rfl⟩
  have hturn : processCurrent false plain s ⟨7, wide, .started work⟩ =
      .ok ({ s with currentJob := some ⟨7, wide, .started work'⟩ },
        [.request (.task workersTasks)], .continue) := by
    rw [hwork']
    simp only [processCurrent, e.phase, splitJob, e.ready, Bool.not_true, Bool.false_eq_true,
      ↓reduceIte, hchunk, ok_bind, henlist, except_pure]
  have hstill : Emitting (k + 128) { s with currentJob := some ⟨7, wide, .started work'⟩ } work' :=
    ⟨e.ready, e.needed, rfl, hwork' ▸ rfl, hwork' ▸ htasks, hwork' ▸ e.parts⟩
  exact ⟨_, _, work', step_current e.needed e.current hturn, hstill⟩

theorem run_emitting (n : Nat) (hn : 128 * n ≤ 2 ^ 64) : ∃ es out s work,
    Run (Jobs.State.step (engine false plain)) (Genuine plain) .new es out s ∧
      Emitting (128 * n) s work := by
  induction n with
  | zero =>
    refine ⟨_, _, _, _, ((((Run.single (genuine_of_results rfl) (rfl :
      Jobs.State.step (engine false plain) .new (.command (.addJob wide 7)) = .ok _)).snoc
      (e := .processJob) (genuine_of_results rfl) rfl).snoc
      (e := .scheduler (.message .schedulerFree)) (genuine_of_results rfl) rfl).snoc
      (e := .processJob) (genuine_of_results rfl) rfl), rfl, rfl, rfl, rfl, ?_, rfl⟩
    exact BitSet.represents_new
  | succ n ih =>
    obtain ⟨es, out, s, work, run, e⟩ := ih (by omega)
    obtain ⟨t, out', work', taken, e'⟩ := e.emit (by omega)
    exact ⟨_, _, t, work', run.snoc (genuine_of_results rfl) taken, e'⟩

end

/-- Without overflow checks such a job is reduced with empty tables. -/
theorem parts_missing : ¬ ∀ (checks : Bool) (externals : Externals) (es : List Event)
    (out out' : List Sent) (s t : State) (data : JobData) (reducer : TaskReducer),
    Run (Jobs.State.step (engine checks externals)) (Genuine externals) .new es out s →
      s.step (engine checks externals) .processJob = .ok (t, out') → reducing s = none →
        reducing t = some (data, reducer) → 1 ≤ data.t → 1 ≤ data.p ∧ data.p ≤ 63 →
          ∀ taxi < data.t, ∀ set < 2 ^ data.p, ∃ part distance,
            reducer.completedParts[taxi]? = some part ∧
              part.get (split set) = .ok (some distance) ∧
                Reported externals
                  (history (Jobs.State.step (engine checks externals)) note [] .new es)
                  taxi set distance := by
  intro h
  obtain ⟨es, out, s, work, run, e⟩ := run_emitting (2 ^ 57) (by decide)
  -- Nothing is left to split: the job waits for results that are all missing.
  have hend : nextChunk (TaskSplitter.next false) 128 (.after 4 63 (128 * 2 ^ 57)) =
      .ok (.error [], .after 4 63 (128 * 2 ^ 57)) :=
    nextChunk_of_end (TaskSplitter.next_end (by decide)) 127
  obtain ⟨waiting, hwaiting⟩ : ∃ waiting, waiting =
    { work with phase := JobPhase.waitingTasksCompletions } := ⟨_, rfl⟩
  have hsplit : processCurrent false plain s ⟨7, wide, .started work⟩ =
      .ok ({ s with currentJob := some ⟨7, wide, .started waiting⟩ }, [.request (.task [])],
        .continue) := by
    simp only [processCurrent, e.phase, splitJob, e.ready, Bool.not_true, Bool.false_eq_true,
      ↓reduceIte, hend, ok_bind, enlist, except_pure, hwaiting]
  have hempty : waiting.tasks.isEmpty = true := by
    have hcount := e.tasks.count
    rw [Finset.card_range] at hcount
    rw [hwaiting, BitSet.isEmpty, hcount]
    rfl
  obtain ⟨reducer, hreducer⟩ : Succeeds (TaskReducer.new false 4 4 waiting.parts) := ⟨_, rfl⟩
  obtain ⟨last, hlast⟩ : ∃ last, last = { waiting with
    parts := [], phase := JobPhase.reducing reducer distanceMax } := ⟨_, rfl⟩
  have hawait : processCurrent false plain { s with
      currentJob := some ⟨7, wide, .started waiting⟩ } ⟨7, wide, .started waiting⟩ =
      .ok ({ s with currentJob := some ⟨7, wide, .started last⟩ }, [], .continue) := by
    have hphase : waiting.phase = .waitingTasksCompletions := hwaiting ▸ rfl
    have hreducer : TaskReducer.new false wide.taxies.length wide.taxies.length waiting.parts =
      .ok reducer := hreducer
    simp only [processCurrent, hphase, awaitJob, e.ready, Bool.not_true, Bool.false_eq_true,
      ↓reduceIte, hempty, hreducer, ok_bind, except_pure, hlast]
  have run := run.snoc (genuine_of_results rfl) (step_current e.needed e.current hsplit)
  have taken := step_current (s := { s with currentJob := some ⟨7, wide, .started waiting⟩ })
    e.needed rfl hawait
  obtain ⟨part, distance, hpart, hget, _⟩ := h false plain _ _ _ _ _ wide reducer run taken
    (hwaiting ▸ rfl) (hlast ▸ rfl) (by decide) (by decide) 0 (by decide) 0 (by decide)
  rw [TaskReducer.new_parts hreducer, hwaiting, e.parts] at hpart
  obtain rfl : _ = part := Option.some.inj hpart
  cases hget

end GridServer.TaskManager
