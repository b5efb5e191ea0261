import GridServer.Jobs.Results
import GridServer.Necklace.TaskManager

namespace GridServer.Necklace
open Jobs Library

/-- A job whose splitter gives an item for each of its tasks and raises nothing. -/
structure Script (externals : Externals) (data : List UInt8) where
  count : Nat
  total : Nat
  task : TaskId → List UInt8
  state : Nat → externals.PyIterator
  small : total < 2 ^ 64
  splits : externals.splitter data = .ok (count, state 0)
  item : ∀ k < total, externals.pyNext (state k) = (some (.ok (task k)), state (k + 1))
  done : externals.pyNext (state total) = (none, state total)

/-- The splitter of which `k` items have been taken. -/
def Script.after {externals : Externals} {data : List UInt8} (script : Script externals data)
    (k : Nat) : TaskSplitter externals :=
  ⟨script.count, k, script.state k⟩

/-- Each of the first `k` tasks is missing or has one result, and these meet `P`. -/
structure Gathered (checks : Bool) {externals : Externals} (P : WorkerResult → Prop) (k : Nat)
    (missing : Finset Nat) (work : Started externals) : Prop where
  tasks : work.tasks.Represents checks missing
  ids : (work.results.map WorkerResult.id ++ missing.toList).Perm (List.range k)
  kept : ∀ result ∈ work.results, P result

/-- How far the work on a job is. -/
def Going (checks : Bool) {externals : Externals} {data : List UInt8}
    (script : Script externals data) (P : WorkerResult → Prop) (work : Started externals) : Prop :=
  match work.phase with
  | .splitting splitter => ∃ k missing, k ≤ script.total ∧ splitter = script.after k ∧
      Gathered checks P k missing work
  | .waitingTasksCompletions => ∃ missing, Gathered checks P script.total missing work
  | .reducing => Gathered checks P script.total ∅ work

/-- The results that come while a job is under way meet `P`. -/
def Answered {externals : Externals} (P : List UInt8 → WorkerResult → Prop) (s : State externals)
    (e : Event (List UInt8)) : Prop :=
  ∀ stats results, e.received = some (stats, results) → ∀ job work, s.currentJob = some job →
    job.state = .started work → ∀ result ∈ results, P job.data result

/-- The work on the current job has been split and is as far as its results. -/
def Underway (checks : Bool) {externals : Externals} (P : List UInt8 → WorkerResult → Prop)
    (s : State externals) : Prop :=
  s.Works fun _ data work => (∃ found, externals.splitter data = .ok found) ∧
    ∀ script : Script externals data, Going checks script (P data) work

/-- The job has been split, and the output is what the reducer makes of one result for each task. -/
def Reduced (externals : Externals) (P : List UInt8 → WorkerResult → Prop) (data : List UInt8)
    (output : String) : Prop :=
  (∃ found, externals.splitter data = .ok found) ∧ ∀ script : Script externals data,
    ∃ results : List WorkerResult,
      (results.map WorkerResult.id).Perm (List.range script.total) ∧
        (∀ result ∈ results, P data result) ∧
          externals.reducer data (results.map WorkerResult.data) = .ok output

section
variable {checks : Bool} {externals : Externals} {data : List UInt8}
  {script : Script externals data} {P : WorkerResult → Prop} {k n : Nat} {missing : Finset Nat}
  {work : Started externals} {tasks : BitSet}

theorem Script.enumerates (checks : Bool) (script : Script externals data) :
    Enumerates (TaskSplitter.next checks externals) script.after
      (fun k => .ok (k, script.task k)) script.total := by
  refine ⟨?_, ?_⟩
  · intro k hk
    have hsmall := script.small
    have hn : usizeAdd checks k 1 = .ok (k + 1) := addBits_of_lt (by omega) checks
    simp only [TaskSplitter.next, Script.after, script.item k hk, hn, ok_bind]
    rfl
  · simp only [TaskSplitter.next, Script.after, script.done]

theorem Gathered.new (checks : Bool) (splitter : TaskSplitter externals) :
    Gathered checks P 0 ∅ ⟨none, [], BitSet.new, .splitting splitter⟩ := by
  refine ⟨BitSet.represents_new, ?_, ?_⟩
  · simp
  · simp

theorem Gathered.congr {work' : Started externals} (g : Gathered checks P k missing work)
    (htasks : work'.tasks = work.tasks) (hresults : work'.results = work.results) :
    Gathered checks P k missing work' :=
  ⟨htasks ▸ g.tasks, hresults ▸ g.ids, hresults ▸ g.kept⟩

theorem Gathered.imp {p p' : WorkerResult → Prop} (imp : ∀ result, p result → p' result)
    (g : Gathered checks p k missing work) : Gathered checks p' k missing work :=
  ⟨g.tasks, g.ids, fun result hresult => imp result (g.kept result hresult)⟩

theorem Gathered.lt (g : Gathered checks P k missing work) {id : Nat} (h : id ∈ missing) :
    id < k :=
  List.mem_range.mp (g.ids.mem_iff.mp (List.mem_append_right _ (Finset.mem_toList.mpr h)))

theorem Gathered.card_le (g : Gathered checks P k missing work) : missing.card ≤ k := by
  have hlength := g.ids.length_eq
  rw [List.length_append, Finset.length_toList, List.length_range] at hlength
  omega

theorem Gathered.emit {tasks' : BitSet} (g : Gathered checks P k missing work)
    (r : tasks'.Represents checks (insert k missing)) :
    Gathered checks P (k + 1) (insert k missing) { work with tasks := tasks' } := by
  refine ⟨r, ?_, g.kept⟩
  have hnew : k ∉ missing := fun hk => Nat.lt_irrefl k (g.lt hk)
  calc (work.results.map WorkerResult.id ++ (insert k missing).toList).Perm
        (work.results.map WorkerResult.id ++ k :: missing.toList) :=
        (Finset.toList_insert hnew).append_left _
    _ |>.Perm (k :: List.range k) := List.perm_middle.trans (g.ids.cons k)
    _ |>.Perm (List.range (k + 1)) := by
        rw [List.range_succ]
        exact (List.perm_append_singleton k _).symm

/-- The tasks of a chunk are missing from then on. -/
theorem Gathered.enlist (g : Gathered checks P k missing work) (h : k + n ≤ script.total) :
    ∃ tasks' missing', enlist checks work.tasks
        ((List.range' k n).map fun id => .ok (id, script.task id)) =
          .ok (tasks', .ok ((List.range' k n).map fun id => ⟨id, script.task id⟩)) ∧
      Gathered checks P (k + n) missing' { work with tasks := tasks' } := by
  induction n generalizing k missing work with
  | zero => exact ⟨work.tasks, missing, rfl, g⟩
  | succ n ih =>
    have hsmall := script.small
    have hcard := g.card_le
    obtain ⟨⟨tasks₁, new⟩, hinsert⟩ := g.tasks.insert_total (fun _ => by omega) k
    obtain ⟨tasks', missing', henlist, g'⟩ := ih (k := k + 1)
      (g.emit (g.tasks.insert hinsert).1) (by omega)
    refine ⟨tasks', missing', ?_, ?_⟩
    · dsimp only at henlist
      simp only [List.range'_succ, List.map_cons, Necklace.enlist, hinsert, ok_bind, henlist]
      rfl
    · rw [Nat.add_right_comm] at g'
      exact g'

theorem Gathered.remove (g : Gathered checks P k missing work) {result : WorkerResult}
    (hresult : P result) :
    ∃ tasks' removed, work.tasks.remove checks result.id = .ok (tasks', removed) ∧
      Gathered checks P k (missing.erase result.id) { work with
        tasks := tasks'
        results := if removed then work.results ++ [result] else work.results } := by
  obtain ⟨tasks', hremove, r⟩ := g.tasks.remove result.id
  refine ⟨tasks', _, hremove, ?_⟩
  by_cases hmissing : result.id ∈ missing
  · simp only [hmissing, decide_true, ↓reduceIte]
    refine ⟨r, ?_, ?_⟩
    · rw [List.map_append, List.append_assoc]
      refine (List.Perm.append_left _ ?_).trans g.ids
      have hinsert := Finset.toList_insert (Finset.notMem_erase result.id missing)
      rw [Finset.insert_erase hmissing] at hinsert
      exact hinsert.symm
    · intro result' hresult'
      rcases List.mem_append.mp hresult' with hold | hnew
      · exact g.kept result' hold
      · rw [List.mem_singleton.mp hnew]
        exact hresult
  · simp only [hmissing, decide_false, Bool.false_eq_true, ↓reduceIte]
    rw [Finset.erase_eq_of_notMem hmissing] at r ⊢
    exact ⟨r, g.ids, g.kept⟩

/-- Of any results that come each missing task gets the first. -/
theorem Gathered.receive (g : Gathered checks P k missing work) {results : List WorkerResult}
    (hresults : ∀ result ∈ results, P result) :
    ∃ work', ∃ missing' ⊆ missing, receive checks externals work results = .ok (work', .continue) ∧
      work'.phase = work.phase ∧ Gathered checks P k missing' work' := by
  induction results generalizing work missing with
  | nil => exact ⟨work, missing, Finset.Subset.refl _, rfl, rfl, g⟩
  | cons result results ih =>
    obtain ⟨tasks', removed, hremove, g'⟩ := g.remove (hresults result List.mem_cons_self)
    obtain ⟨work', missing', hsub, hreceive, hphase, g''⟩ :=
      ih g' fun result' hresult' => hresults result' (List.mem_cons_of_mem _ hresult')
    refine ⟨work', missing', hsub.trans (Finset.erase_subset _ _), ?_, hphase, g''⟩
    simp only [Necklace.receive, hremove, ok_bind]
    exact hreceive

end

/-- What a turn for the current job comes to: it waits, goes on, or is completed by its results. -/
structure Turned (checks : Bool) {externals : Externals} {job : Job externals}
    (script : Script externals job.data) (P : WorkerResult → Prop) (s u : State externals)
    (flow : Flow String) : Prop where
  going : flow = .continue → u.currentJob = s.currentJob ∨ ∃ work,
    u.currentJob = some { job with state := .started work } ∧ Going checks script P work
  completed : ∀ output stats, flow = .finish (.completed output stats) →
    ∃ results : List WorkerResult,
      (results.map WorkerResult.id).Perm (List.range script.total) ∧
        (∀ result ∈ results, P result) ∧
          externals.reducer job.data (results.map WorkerResult.data) = .ok output

section
variable {checks : Bool} {externals : Externals} {s t u : State externals} {job : Job externals}
  {script : Script externals job.data} {work : Started externals} {out : List (Sent _ String)}
  {e : Event (List UInt8)} {es : List (Event (List UInt8))} {P : List UInt8 → WorkerResult → Prop}
  {p : WorkerResult → Prop} {fault : Fault}

theorem Turned.same (h : u.currentJob = s.currentJob) : Turned checks script p s u .continue :=
  ⟨fun _ => .inl h, fun _ _ hflow => by cases hflow⟩

theorem Turned.next (h : u.currentJob = some { job with state := .started work })
    (going : Going checks script p work) : Turned checks script p s u .continue :=
  ⟨fun _ => .inr ⟨work, h, going⟩, fun _ _ hflow => by cases hflow⟩

theorem startJob_turned (s : State externals) (script : Script externals job.data) :
    ∃ u out flow, startJob externals s job = .ok (u, out, flow) ∧
      Turned checks script p s u flow := by
  unfold startJob
  split
  · exact ⟨_, _, _, rfl, .same rfl⟩
  · simp only [TaskSplitter.new, script.splits, ok_bind, except_pure]
    exact ⟨_, _, _, rfl, .next rfl ⟨0, ∅, Nat.zero_le _, rfl, .new checks _⟩⟩

theorem splitJob_turned (s : State externals) {k : Nat} {missing : Finset Nat}
    (hk : k ≤ script.total) (g : Gathered checks p k missing work) :
    ∃ u out flow, splitJob checks externals s job work (script.after k) = .ok (u, out, flow) ∧
      Turned checks script p s u flow := by
  unfold splitJob
  split
  · exact ⟨_, _, _, rfl, .same rfl⟩
  · rcases (script.enumerates checks).nextChunk hk 128 with ⟨hle, hchunk⟩ | ⟨_, hchunk⟩
    · obtain ⟨tasks, missing', henlist, g'⟩ := g.enlist hle
      simp only [hchunk, henlist, ok_bind, except_pure]
      exact ⟨_, _, _, rfl, .next rfl ⟨k + 128, missing', hle, rfl, g'.congr rfl rfl⟩⟩
    · obtain ⟨tasks, missing', henlist, g'⟩ := g.enlist (n := script.total - k)
        (Nat.add_sub_cancel' hk).le
      rw [Nat.add_sub_cancel' hk] at g'
      simp only [hchunk, henlist, ok_bind, except_pure]
      exact ⟨_, _, _, rfl, .next rfl ⟨missing', g'.congr rfl rfl⟩⟩

theorem awaitJob_turned (s : State externals) {missing : Finset Nat}
    (g : Gathered checks p script.total missing work) :
    ∃ u out flow, awaitJob externals s job work = (u, out, flow) ∧
      Turned checks script p s u flow := by
  unfold awaitJob
  split
  · exact ⟨_, _, _, rfl, .same rfl⟩
  · split
    · rename_i hempty
      have hsmall := script.small
      have hcard := g.card_le
      obtain rfl := (g.tasks.isEmpty (by omega)).mp hempty
      exact ⟨_, _, _, rfl, .next rfl (g.congr rfl rfl)⟩
    · exact ⟨_, _, _, rfl, .same rfl⟩

theorem reduceJob_turned (s : State externals) (g : Gathered checks p script.total ∅ work) :
    ∃ u out flow, reduceJob externals s job work = (u, out, flow) ∧
      Turned checks script p s u flow := by
  simp only [reduceJob]
  cases hreduce : externals.reducer job.data (work.results.map WorkerResult.data) with
  | error err =>
    refine ⟨_, _, _, rfl, ?_, ?_⟩
    · intro hflow
      cases hflow
    · intro output stats hflow
      cases hflow
  | ok output =>
    refine ⟨_, _, _, rfl, ?_, ?_⟩
    · intro hflow
      cases hflow
    · intro output' stats hflow
      cases hflow
      refine ⟨work.results, ?_, g.kept, hreduce⟩
      simpa using g.ids

theorem processCurrent_turned (h : Underway checks P s) (hc : s.currentJob = some job)
    (script : Script externals job.data) :
    ∃ u out flow, processCurrent checks externals s job = .ok (u, out, flow) ∧
      Turned checks script (P job.data) s u flow := by
  unfold processCurrent
  cases hstate : job.state with
  | notStarted => exact startJob_turned s script
  | finished result => exact ⟨_, _, _, rfl, .same rfl⟩
  | started work =>
    have going := (h.current job work hc hstate).2 script
    unfold Going at going
    cases hphase : work.phase with
    | splitting splitter =>
      rw [hphase] at going
      obtain ⟨k, missing, hk, rfl, g⟩ := going
      simp only [hphase]
      exact splitJob_turned s hk g
    | waitingTasksCompletions =>
      rw [hphase] at going
      obtain ⟨missing, g⟩ := going
      obtain ⟨u, out, flow, hawait, hturned⟩ := awaitJob_turned s g
      simp only [hphase, hawait]
      exact ⟨u, out, flow, rfl, hturned⟩
    | reducing =>
      rw [hphase] at going
      obtain ⟨u, out, flow, hreduce, hturned⟩ := reduceJob_turned s going
      simp only [hphase, hreduce]
      exact ⟨u, out, flow, rfl, hturned⟩

/-- Results that meet `P` are taken without a panic. -/
theorem Going.receive (going : Going checks script p work) (stats : Option JobStats)
    {results : List WorkerResult} (hresults : ∀ result ∈ results, p result) :
    ∃ work', (engine checks externals).receive work stats results = .ok (work', .continue) ∧
      Going checks script p work' := by
  obtain ⟨start, hreceive, htasks, hkept, hphase⟩ : ∃ start : Started externals,
      (engine checks externals).receive work stats results =
        Necklace.receive checks externals start results ∧
      start.tasks = work.tasks ∧ start.results = work.results ∧ start.phase = work.phase := by
    cases stats with
    | none => exact ⟨work, rfl, rfl, rfl, rfl⟩
    | some jobStats => exact ⟨{ work with stats := some jobStats }, rfl, rfl, rfl, rfl⟩
  rw [hreceive]
  unfold Going at going
  rw [← hphase] at going
  cases hp : start.phase with
  | splitting splitter =>
    rw [hp] at going
    obtain ⟨k, missing, hk, hsplitter, g⟩ := going
    obtain ⟨work', missing', _, hwork, hphase', g'⟩ := (g.congr htasks hkept).receive hresults
    refine ⟨work', hwork, ?_⟩
    rw [Going, hphase', hp]
    exact ⟨k, missing', hk, hsplitter, g'⟩
  | waitingTasksCompletions =>
    rw [hp] at going
    obtain ⟨missing, g⟩ := going
    obtain ⟨work', missing', _, hwork, hphase', g'⟩ := (g.congr htasks hkept).receive hresults
    refine ⟨work', hwork, ?_⟩
    rw [Going, hphase', hp]
    exact ⟨missing', g'⟩
  | reducing =>
    rw [hp] at going
    obtain ⟨work', missing', hsub, hwork, hphase', g'⟩ :=
      (going.congr htasks hkept).receive hresults
    obtain rfl := Finset.subset_empty.mp hsub
    refine ⟨work', hwork, ?_⟩
    rw [Going, hphase', hp]
    exact g'

/-- Only a job that the splitter takes is started. -/
theorem startJob_splits (hstate : job.state = .notStarted) (hc : s.currentJob = some job)
    (h : startJob externals s job = .ok (u, out, .continue)) {job' : Job externals}
    (hc' : u.currentJob = some job') (hstate' : job'.state = .started work) :
    ∃ found, externals.splitter job.data = .ok found := by
  unfold startJob at h
  split at h
  · cases h
    obtain rfl : job' = job := Option.some.inj (hc'.symm.trans hc)
    cases hstate.symm.trans hstate'
  · cases hsplit : externals.splitter job.data with
    | error err =>
      simp only [TaskSplitter.new, hsplit] at h
      cases h
    | ok found => exact ⟨found, rfl⟩

theorem processCurrent_splits (h : Underway checks P s) (hc : s.currentJob = some job)
    (hprocess : processCurrent checks externals s job = .ok (u, out, .continue))
    {job' : Job externals} (hc' : u.currentJob = some job') (hstate' : job'.state = .started work) :
    ∃ found, externals.splitter job.data = .ok found := by
  unfold processCurrent at hprocess
  cases hstate : job.state with
  | notStarted =>
    rw [hstate] at hprocess
    exact startJob_splits hstate hc hprocess hc' hstate'
  | started work => exact (h.current job work hc hstate).1
  | finished result =>
    rw [hstate] at hprocess
    cases hprocess
    obtain rfl : job' = job := Option.some.inj (hc'.symm.trans hc)
    cases hstate.symm.trans hstate'

theorem processCurrent_going (h : Underway checks P s) (hc : s.currentJob = some job)
    (hprocess : processCurrent checks externals s job = .ok (u, out, .continue))
    (script : Script externals job.data) {state : JobState (Started externals) String}
    (hc' : u.currentJob = some { job with state := state }) (hstate' : state = .started work) :
    Going checks script (P job.data) work := by
  obtain ⟨u', out', flow, hturn, turned⟩ := processCurrent_turned h hc script
  cases hturn.symm.trans hprocess
  rcases turned.going rfl with hsame | ⟨work', hcurrent, going⟩
  · rw [hc', hc, Option.some.injEq] at hsame
    exact (h.current job work hc (hsame ▸ hstate')).2 script
  · rw [hc', Option.some.injEq, Jobs.Job.mk.injEq, hstate'] at hcurrent
    exact JobState.started.inj hcurrent.2.2 ▸ going

theorem step_underway (h : Underway checks P s) (answered : Answered P s e)
    (taken : s.step (engine checks externals) e = .ok (t, out)) : Underway checks P t := by
  apply Jobs.State.works_of_step h ?still ?receives ?processes taken
  case still => exact fun _ _ _ _ _ going => going
  case receives =>
    intro stats results hreceived job work work' flow hc hstate hreceive
    obtain ⟨hsplits, going⟩ := h.current job work hc hstate
    refine ⟨hsplits, ?_⟩
    intro script
    obtain ⟨work₂, hreceive₂, going'⟩ := (going script).receive stats
      (answered stats results hreceived job work hc hstate)
    rw [hreceive, Except.ok.injEq, Prod.mk.injEq] at hreceive₂
    exact hreceive₂.1 ▸ going'
  case processes =>
    intro _ job u hc hprocess job' work hc' hstate
    have hsplits := processCurrent_splits h hc hprocess hc' hstate
    obtain ⟨state, rfl⟩ : ∃ state, job' = { job with state := state } := by
      rcases (processCurrent_onlyJob hprocess).2.2 with hsame | ⟨state, hsame⟩
      · rw [hsame, hc, Option.some.injEq] at hc'
        exact ⟨job.state, hc'.symm⟩
      · rw [hsame, Option.some.injEq] at hc'
        exact ⟨state, hc'.symm⟩
    exact ⟨hsplits, fun script => processCurrent_going h hc hprocess script hc' hstate⟩

theorem receive_continues {work' : Started externals} {results : List WorkerResult}
    {flow : Flow String} (h : receive checks externals work results = .ok (work', flow)) :
    flow = .continue := by
  induction results generalizing work with
  | nil =>
    cases h
    rfl
  | cons result results ih =>
    obtain ⟨_, _, h⟩ := bind_ok.mp h
    exact ih h

/-- Only a job that has been started is completed. -/
theorem started_of_completed {output : String} {stats : Option JobStats}
    (h : processCurrent checks externals s job = .ok (u, out, .finish (.completed output stats))) :
    ∃ work, job.state = .started work := by
  unfold processCurrent at h
  cases hstate : job.state with
  | notStarted =>
    simp only [hstate, startJob] at h
    split at h
    · cases h
    · split at h
      · cases h
      · cases h
  | started work => exact ⟨work, rfl⟩
  | finished result =>
    rw [hstate] at h
    cases h

theorem step_reduced (h : Underway checks P s)
    (completed : s.Completed fun _ data output => Reduced externals P data output)
    (taken : s.step (engine checks externals) e = .ok (t, out)) :
    t.Completed fun _ data output => Reduced externals P data output := by
  apply Jobs.State.completed_of_step completed ?receives ?processes taken
  case receives =>
    intro stats results _ job work work' output stats' _ _ hreceive
    cases stats with
    | none => cases receive_continues hreceive
    | some jobStats => cases receive_continues hreceive
  case processes =>
    intro _ job u out output stats hc hprocess
    obtain ⟨work, hstate⟩ := started_of_completed hprocess
    refine ⟨(h.current job work hc hstate).1, ?_⟩
    intro script
    obtain ⟨u', out', flow, hturn, turned⟩ := processCurrent_turned h hc script
    cases hturn.symm.trans hprocess
    exact turned.completed output stats rfl

theorem Underway.imp {P' : List UInt8 → WorkerResult → Prop}
    (imp : ∀ data result, P data result → P' data result) (h : Underway checks P s) :
    Underway checks P' s := by
  refine Jobs.State.Works.imp h ?_
  rintro id data work ⟨hsplits, going⟩
  refine ⟨hsplits, ?_⟩
  intro script
  have going := going script
  unfold Going at going ⊢
  split at going
  · obtain ⟨k, missing, hk, hsplitter, g⟩ := going
    exact ⟨k, missing, hk, hsplitter, g.imp (imp data)⟩
  · obtain ⟨missing, g⟩ := going
    exact ⟨missing, g.imp (imp data)⟩
  · exact going.imp (imp data)

/-- Where every job that is split has a script, a step fails only when its branch is not ready or when
there is no connection any more. -/
theorem Underway.error (scripted : ∀ data found, externals.splitter data = .ok found →
      Nonempty (Script externals data))
    (h : Underway checks (fun _ _ => True) s)
    (failed : s.step (engine checks externals) e = .error fault) :
    fault = .notReady ∨ fault = .stopped := by
  rcases Jobs.State.error_of_step failed with hready | hstopped | ⟨_, job, hc, hprocess⟩ |
    ⟨stats, results, job, work, _, hc, hstate, hfail⟩
  · exact .inl hready
  · exact .inr hstopped
  · cases hsplit : externals.splitter job.data with
    | ok found =>
      obtain ⟨script⟩ := scripted job.data found hsplit
      obtain ⟨u, out, flow, hturn, _⟩ := processCurrent_turned h hc script
      cases hturn.symm.trans hprocess
    | error err =>
      change processCurrent checks externals s job = _ at hprocess
      unfold processCurrent at hprocess
      cases hstate : job.state with
      | notStarted =>
        simp only [hstate, startJob, TaskSplitter.new, hsplit] at hprocess
        split at hprocess
        · cases hprocess
        · cases hprocess
      | started work =>
        obtain ⟨found, hfound⟩ := (h.current job work hc hstate).1
        cases hsplit.symm.trans hfound
      | finished result =>
        rw [hstate] at hprocess
        cases hprocess
  · obtain ⟨⟨found, hsplit⟩, going⟩ := h.current job work hc hstate
    obtain ⟨script⟩ := scripted job.data found hsplit
    obtain ⟨work', hreceive, _⟩ := (going script).receive stats fun _ _ => trivial
    cases hreceive.symm.trans hfail

theorem reduced_of_run (run : Run (Jobs.State.step (engine checks externals)) (Answered P) .new es
    out s) : Underway checks P s ∧ s.Completed fun _ data output => Reduced externals P data output := by
  apply run.preserves (I := fun s => Underway checks P s ∧
    s.Completed fun _ data output => Reduced externals P data output)
  · refine ⟨.new, ?_⟩
    intro job hjob
    cases hjob
  · intro s e t out' ⟨h, completed⟩ answered taken
    exact ⟨step_underway h answered taken, step_reduced h completed taken⟩

/-- Whatever holds of the results that come, a completed job has been reduced from one result for
each of its tasks. -/
theorem run_reduced (run : Run (Jobs.State.step (engine checks externals)) (Answered P) .new es
    out s) : s.Completed fun _ data output => Reduced externals P data output :=
  (reduced_of_run run).2

end

/-! Two tasks. The result of the second comes first, and again after that of the first. -/

/-- A splitter that numbers its tasks, and a reducer that puts the results one after another. -/
def numbering : Externals where
  PyIterator := Nat
  splitter _ := .ok (2, 0)
  pyNext n := if n < 2 then (some (.ok [n.toUInt8]), n + 1) else (none, n)
  reducer _ results := .ok (String.ofList (results.flatten.map fun b => Nat.digitChar b.toNat))
  debug := id
  executorWasm := []

def twoEvents : List (Event (List UInt8)) :=
  [.command (.addJob [] 7), .processJob, .scheduler (.message .schedulerFree), .processJob,
    .processJob, .scheduler (.message (.taskResults [⟨1, 0, [1]⟩])),
    .scheduler (.message (.taskResults [⟨0, 0, [0]⟩, ⟨1, 0, [1]⟩])), .processJob, .processJob]

/-- What the jobs that have been completed came to. -/
def outputs {externals : Externals} (s : State externals) : List String :=
  s.jobsFinished.filterMap fun job =>
    match job.state with
    | .finished (.completed output _) => some output
    | _ => none

theorem run_reduced_two : ∃ s out, Run (Jobs.State.step (engine true numbering))
      (Answered fun _ result => result.data = [result.id.toUInt8]) .new twoEvents out s ∧
    outputs s = ["10"] ∧
    s.Completed fun _ data output =>
      Reduced numbering (fun _ result => result.data = [result.id.toUInt8]) data output := by
  obtain ⟨s, out, run, h⟩ := exists_run (Jobs.State.step (engine true numbering))
    (fun _ e => ∀ found ∈ e.received, ∀ result ∈ found.2, result.data = [result.id.toUInt8]) .new
    twoEvents (fun r => outputs r.1 = ["10"]) (by decide +kernel)
  have run : Run _ (Answered fun _ result => result.data = [result.id.toUInt8]) .new twoEvents
      out s := run.weaken (by
    intro s e h stats results hreceived job work _ _ result hresult
    exact h (stats, results) hreceived result hresult)
  exact ⟨s, out, run, of_decide_eq_true h, run_reduced run⟩

end GridServer.Necklace
