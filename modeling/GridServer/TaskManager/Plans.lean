import GridServer.Jobs.Order
import GridServer.PathFinding.Tours
import GridServer.TaskManager.Optimum
import Mathlib.Order.Lattice.Nat

namespace GridServer.TaskManager
open Jobs Library Library.Allotment PathFinding

/-- The total lengths of the ways to give every passenger a taxi and every taxi a tour over its
passengers. -/
def Plans (data : JobData) : Set ℕ :=
  {c | ∃ (f : Fin data.p → Fin data.t) (tour : Fin data.t → ℕ),
    (∀ x : Fin data.t, tour x ∈ Tours data x (share f x)) ∧ ∑ x : Fin data.t, tour x = c}

/-- The length of the shortest tour. -/
noncomputable def shortestTour (data : JobData) (taxi : ℕ) (set : Finset ℕ) : Distance :=
  sInf (Tours data taxi set)

/-- A job with as many passengers as taxis, whose combinations can be counted, whose finite lengths
fit and whose passengers can all be reached. -/
structure Solvable (data : JobData) : Prop where
  valid : data.validate = true
  some_taxi : 1 ≤ data.t
  even : data.p = data.t
  countable : data.t ^ data.p < 2 ^ 128
  fits : Fits data
  connected : Connected data

/-- A worker has computed the result from the arguments of the job and the task of its id. -/
def Executed (externals : Externals) (codec : Codec) (data : JobData) (result : WorkerResult) :
    Prop :=
  result.id < data.total ∧ ∃ build args input, externals.encodeJobData data = some args ∧
    externals.encodeTaskData (data.task result.id) = some input ∧
      executeJob codec build args input = .ok (.ok result.data)

/-- Only solvable jobs are added, and workers have computed the results that come while a job is under
way. -/
def Worked (externals : Externals) (codec : Codec) (s : State) (e : Event) : Prop :=
  (∀ job ∈ e.addedJob?, Solvable job.2) ∧ ∀ job work, s.currentJob = some job →
    job.state = .started work → ∀ result ∈ results e, Executed externals codec job.data result

/-- What the work on a job has come to, where the distances are the lengths of its shortest tours. -/
def Sought (externals : Externals) (received : List WorkerResult) (s : State) : Prop :=
  s.Works fun _ data work => Searching externals (shortestTour data) data received work

section
variable {checks : Bool} {externals : Externals} {codec : Codec} {data : JobData}
  {result : WorkerResult} {received : List WorkerResult} {s t : State} {out : List Sent} {e : Event}
  {es : List Event} {taxi : ℕ} {set : Finset ℕ}

theorem Solvable.few (solvable : Solvable data) : data.p ≤ 31 := by
  have hcountable := solvable.countable
  rw [solvable.even] at hcountable ⊢
  by_contra hmany
  have hmany : 32 ≤ data.t := by omega
  have hpow : 32 ^ 32 ≤ data.t ^ data.t :=
    (Nat.pow_le_pow_left hmany 32).trans (Nat.pow_le_pow_right (by omega) hmany)
  omega

theorem Solvable.isLeast (solvable : Solvable data) (htaxi : taxi < data.t)
    (hset : ∀ k ∈ set, k < data.p) :
    IsLeast (Tours data taxi set) (shortestTour data taxi set) := by
  have hsome := servable_iff.mp (solvable.connected.servable htaxi hset)
  exact ⟨Nat.sInf_mem hsome, fun r hr => Nat.sInf_le hr⟩

theorem Solvable.share (solvable : Solvable data) (f : Fin data.p → Fin data.t) (x : Fin data.t) :
    IsLeast (Tours data x (share f x)) (shortestTour data x (share f x)) := by
  refine solvable.isLeast x.isLt ?_
  intro k hk
  exact (mem_share.mp hk).1

/-- The distances of a solvable job can all be counted. -/
theorem Solvable.posed (solvable : Solvable data) : Posed (shortestTour data) data := by
  have hfew := solvable.few
  have heven := solvable.even
  have hsome := solvable.some_taxi
  refine ⟨solvable.valid, hsome, by omega, by omega, solvable.countable, ?_⟩
  intro f
  have hmax := u32Max_toNat
  have hcost : cost (shortestTour data) f ≤ ∑ _x : Fin data.t, u32Max.toNat := by
    rw [cost]
    refine (Finset.sum_le_sum fun x _ => ?_).trans
      (Finset.sum_le_sum_of_subset (Finset.filter_subset _ _))
    exact solvable.fits.tours (fun k hk => (mem_share.mp hk).1) (solvable.share f x).1
  rw [Finset.sum_const, Finset.card_univ, Fintype.card_fin, smul_eq_mul] at hcost
  have hbound : data.t * u32Max.toNat ≤ 31 * u32Max.toNat := Nat.mul_le_mul_right _ (by omega)
  omega

/-- The least cost of the reported distances is the least total of any plan. -/
theorem Solvable.isLeast_plans (solvable : Solvable data) {found : Distance}
    (h : IsLeast (Set.range fun f : Fin data.p → Fin data.t => cost (shortestTour data) f) found) :
    IsLeast (Plans data) found :=
  isLeast_allotted (fun x => tours_empty x.isLt) (fun f x _ => solvable.share f x) h

theorem JobData.task_bounds (hid : result.id < data.total) (some_passenger : 1 ≤ data.p) :
    (data.task result.id).taxi < data.t ∧ ∀ i, Sets data ((data.task result.id).combination i) := by
  have hpos := TaskSplitter.half_pos data.p
  have htwo := TaskSplitter.two_half some_passenger
  have hmod := Nat.mod_lt result.id hpos
  refine ⟨Nat.div_lt_of_lt_mul (Nat.mul_comm data.t _ ▸ hid), ?_⟩
  intro i
  match i with
  | 0 =>
    change TaskSplitter.half data.p + result.id % TaskSplitter.half data.p < 2 ^ data.p
    omega
  | 1 =>
    change (2 ^ data.p - 1) ^^^ (TaskSplitter.half data.p + result.id % TaskSplitter.half data.p) <
      2 ^ data.p
    rw [TaskSplitter.complement (by omega)]
    omega

/-- What a worker has computed carries the lengths of the shortest tours. -/
theorem Executed.delivered (executed : Executed externals codec data result)
    (agree : Agree externals codec) (solvable : Solvable data) :
    Delivered externals (shortestTour data) data result := by
  obtain ⟨hid, build, args, input, hargs, hinput, hexecute⟩ := executed
  have hfew : data.p ≤ 31 := solvable.few
  have few : data.passengers.length ≤ 126 := hfew.trans (by decide)
  have posed := solvable.posed
  obtain ⟨htaxi, hsets⟩ := JobData.task_bounds hid posed.some_passenger
  obtain ⟨found, hjob, hfoundTaxi, hfoundSets, hleast⟩ := job_least build solvable.valid few
    solvable.fits htaxi hsets (solvable.connected.drivable few hsets)
  rw [agree.executeJob hargs hinput, hjob] at hexecute
  have hdecode := agree.taskResult found _ (Except.ok.inj hexecute)
  have hdistance : ∀ i, found.distance i = shortestTour data (data.task result.id).taxi
      (members ((data.task result.id).combination i)) := by
    intro i
    have hset : ∀ k ∈ members ((data.task result.id).combination i), k < data.p :=
      fun k hk => lt_of_members (hsets i) few hk
    exact ((hleast i).1 (solvable.connected.servable htaxi hset)).unique
      (solvable.isLeast htaxi hset)
  refine ⟨hid, ?_⟩
  rw [hdecode]
  obtain ⟨taxi, ⟨set, a⟩, ⟨set', b⟩⟩ := found
  have ha : a = _ := hdistance 0
  have hb : b = _ := hdistance 1
  dsimp only at hfoundTaxi hfoundSets
  have hset : set = (data.task result.id).combinations.1 := congrArg Prod.fst hfoundSets
  have hset' : set' = (data.task result.id).combinations.2 := congrArg Prod.snd hfoundSets
  rw [ha, hb, hfoundTaxi, hset, hset']
  rfl

theorem Worked.answered (worked : Worked externals codec s e) (agree : Agree externals codec)
    {job : Job} (hc : s.currentJob = some job) (solvable : Solvable job.data) :
    Answered externals (fun _ => shortestTour job.data) s e := by
  intro job' hjob
  rw [hc, Option.mem_some] at hjob
  subst hjob
  refine ⟨solvable.posed, ?_⟩
  cases hstate : job.state with
  | notStarted => trivial
  | finished found => trivial
  | started work =>
    intro result hresult
    exact (worked.2 job work hc hstate result hresult).delivered agree solvable

theorem Sought.pursued (sought : Sought externals received s) {job : Job}
    (hc : s.currentJob = some job) :
    Pursued externals (fun _ => shortestTour job.data) received s := by
  refine ⟨sought.queued, ?_⟩
  intro job' work hc' hstate _ _
  obtain rfl : job' = job := Option.some.inj (hc'.symm.trans hc)
  exact sought.current job' work hc hstate

/-- No step changes the data of the job that is under way. -/
theorem step_data {job : Job} (queued : ∀ job ∈ s.jobsQueue, job.state = .notStarted)
    (hc : s.currentJob = some job) (taken : s.step (engine checks externals) e = .ok (t, out)) :
    t.Works fun _ data' _ => data' = job.data := by
  have h : s.Works fun _ data' _ => data' = job.data := by
    refine ⟨queued, ?_⟩
    intro job' work hc' _
    obtain rfl : job' = job := Option.some.inj (hc'.symm.trans hc)
    rfl
  apply Jobs.State.works_of_step h ?still ?receives ?processes taken
  case still => exact fun _ _ _ _ _ hdata => hdata
  case receives =>
    intro stats more _ job' work work' flow hc' hstate _
    exact h.current job' work hc' hstate
  case processes =>
    intro _ job' u hc' hprocess job'' work hc'' _
    obtain rfl : job' = job := Option.some.inj (hc'.symm.trans hc)
    rcases (processCurrent_onlyJob hprocess).2.2 with hsame | ⟨state, hsame⟩
    · rw [hsame, hc', Option.some.injEq] at hc''
      exact hc'' ▸ rfl
    · rw [hsame, Option.some.injEq] at hc''
      exact hc'' ▸ rfl

/-- Without a current job no step starts one. -/
theorem step_idle (queued : ∀ job ∈ s.jobsQueue, job.state = .notStarted)
    (hc : s.currentJob = none) (taken : s.step (engine checks externals) e = .ok (t, out))
    (I : Uuid → JobData → Started → Prop) : t.Works I := by
  have h : s.Works fun _ _ _ => False := .idle queued (by simp [hc])
  apply Jobs.State.works_of_step h ?still ?receives ?processes taken
  case still => exact fun _ _ _ _ _ hfalse => hfalse.elim
  case receives =>
    intro _ _ _ job _ _ _ hc' _ _
    cases hc.symm.trans hc'
  case processes =>
    intro _ job _ hc' _
    cases hc.symm.trans hc'

/-- The jobs of the task manager can be solved, the work on the current one has come to what its
results allow, and the completed ones came to the least total of any plan. -/
structure Planned (checks : Bool) (externals : Externals) (received : List WorkerResult)
    (s : State) : Prop where
  solvable : ∀ job ∈ s.jobs, Solvable job.2
  underway : Underway checks externals received s
  sought : Sought externals received s
  completed : s.Completed fun _ data found => IsLeast (Plans data) found

theorem Planned.current (planned : Planned checks externals received s) {job : Job}
    (hc : s.currentJob = some job) : Solvable job.data :=
  planned.solvable (job.id, job.data) (List.mem_map_of_mem (by simp [hc]))

theorem step_sought (planned : Planned checks externals received s) (agree : Agree externals codec)
    (worked : Worked externals codec s e)
    (taken : s.step (engine checks externals) e = .ok (t, out)) :
    Sought externals (note received s e out) t := by
  have queued := planned.sought.queued
  cases hc : s.currentJob with
  | none => exact step_idle queued hc taken _
  | some job =>
    have solvable := planned.current hc
    have hpursued := step_pursued planned.underway (planned.sought.pursued hc)
      (worked.answered agree hc solvable) taken
    refine ⟨hpursued.queued, ?_⟩
    intro job' work hc' hstate
    have hdata : job'.data = job.data := (step_data queued hc taken).current job' work hc' hstate
    have hsearching := hpursued.current job' work hc' hstate
    rw [hdata] at hsearching ⊢
    exact hsearching solvable.posed solvable.even

theorem step_plans (planned : Planned checks externals received s) (agree : Agree externals codec)
    (worked : Worked externals codec s e)
    (taken : s.step (engine checks externals) e = .ok (t, out)) :
    t.Completed fun _ data found => IsLeast (Plans data) found := by
  apply Jobs.State.completed_of_step planned.completed ?receives ?processes taken
  case receives =>
    intro stats more hreceived job work work' found stats' hc hstate hreceive
    have suited : Suited checks job.data :=
      (planned.current hc).posed.suited (planned.current hc).even
    have hdelivered := (worked.answered agree hc (planned.current hc) job hc).2
    rw [hstate, (results_of_received hreceived).1] at hdelivered
    obtain ⟨work₂, hreceive₂, _⟩ := (planned.underway.current job work hc hstate suited).receive
      suited stats fun result hresult => (hdelivered result hresult).computed
    cases hreceive.symm.trans hreceive₂
  case processes =>
    intro _ job u out' found stats hc hprocess
    have solvable := planned.current hc
    exact solvable.isLeast_plans
      (processCurrent_isLeast (planned.sought.pursued hc) hc hprocess solvable.posed solvable.even)

theorem step_planned (planned : Planned checks externals received s)
    (agree : Agree externals codec) (worked : Worked externals codec s e)
    (taken : s.step (engine checks externals) e = .ok (t, out)) :
    Planned checks externals (note received s e out) t := by
  have genuine : Genuine externals s e := by
    intro job hc
    exact (worked.answered agree hc (planned.current hc)).genuine job hc
  refine ⟨?_, step_underway planned.underway genuine taken, step_sought planned agree worked taken,
    step_plans planned agree worked taken⟩
  intro job hjob
  rcases List.mem_append.mp ((Jobs.State.step_advances taken).jobs.subset hjob) with hold | hnew
  · exact planned.solvable job hold
  · exact worked.1 job (Option.mem_toList.mp hnew)

theorem planned_of_run (agree : Agree externals codec)
    (run : Run (Jobs.State.step (engine checks externals)) (Worked externals codec) .new es out s) :
    Planned checks externals
      (history (Jobs.State.step (engine checks externals)) note [] .new es) s := by
  apply run.invariant_history note (I := fun received _ _ s => Planned checks externals received s)
  · refine ⟨?_, .new, .new, ?_⟩
    · intro job hjob
      cases hjob
    · intro job hjob
      cases hjob
  · intro received es out s e t out' planned worked taken
    exact step_planned planned agree worked taken

/-- A step that takes what the workers have computed fails only when its branch is not ready or when
there is no connection any more. -/
theorem Planned.error {fault : Fault} (planned : Planned checks externals received s)
    (agree : Agree externals codec) (worked : Worked externals codec s e)
    (failed : s.step (engine checks externals) e = .error fault) :
    fault = .notReady ∨ fault = .stopped := by
  cases hc : s.currentJob with
  | none =>
    rcases Jobs.State.error_of_step failed with hready | hstopped | ⟨_, job, hc', _⟩ |
      ⟨_, _, job, _, _, hc', _⟩
    · exact .inl hready
    · exact .inr hstopped
    · cases hc.symm.trans hc'
    · cases hc.symm.trans hc'
  | some job =>
    have solvable := planned.current hc
    refine step_error planned.underway (planned.sought.pursued hc)
      (worked.answered agree hc solvable) ?_ failed
    intro job' hjob
    rw [hc, Option.mem_some] at hjob
    exact hjob ▸ solvable.even

/-- When workers compute the results, no step panics, and the completed jobs came to the least total
length of any plan. -/
theorem run_plans (agree : Agree externals codec)
    (run : Run (Jobs.State.step (engine checks externals)) (Worked externals codec) .new es out s) :
    (∀ e fault, Worked externals codec s e → s.step (engine checks externals) e = .error fault →
      fault = .notReady ∨ fault = .stopped) ∧
      s.Completed fun _ data found => IsLeast (Plans data) found := by
  have planned := planned_of_run agree run
  exact ⟨fun e fault worked failed => planned.error agree worked failed, planned.completed⟩

end

/-! The only taxi takes the passenger on a street. -/

theorem solvable_street : Solvable street :=
  ⟨by decide, by decide, by decide, by decide, fits_street, connected_street⟩

def streetEvents : List Event :=
  [.command (.addJob street 7), .processJob, .scheduler (.message .schedulerFree), .processJob,
    .processJob, .scheduler (.message (.taskResults [⟨0, 0, [0, 1, 3, 0, 0]⟩])), .processJob,
    .processJob]

theorem run_plans_street : ∃ s out, Run (Jobs.State.step (engine true streetExternals))
      (Worked streetExternals streetCodec) .new streetEvents out s ∧
    completions s = [(7, street, 3)] ∧
      s.Completed fun _ data found => IsLeast (Plans data) found := by
  obtain ⟨s, out, run, h⟩ := exists_run (Jobs.State.step (engine true streetExternals))
    (fun s e => (∀ job ∈ e.addedJob?, job.2 = street) ∧ ∀ job ∈ s.currentJob,
      job.data = street ∧ ∀ result ∈ results e, result = ⟨0, 0, [0, 1, 3, 0, 0]⟩) .new streetEvents
    (fun r => completions r.1 = [(7, street, 3)]) (by decide +kernel)
  have run : Run _ (Worked streetExternals streetCodec) .new streetEvents out s := run.weaken (by
    intro s e ⟨hadded, hresults⟩
    refine ⟨fun job hjob => hadded job hjob ▸ solvable_street, ?_⟩
    intro job work hc _ result hresult
    obtain ⟨hdata, hresult'⟩ := hresults job hc
    obtain rfl := hresult' result hresult
    rw [hdata]
    exact ⟨by decide, false, streetArgs, [0, 1, 0], rfl, rfl, by decide +kernel⟩)
  exact ⟨s, out, run, of_decide_eq_true h, (run_plans agree_street run).2⟩

end GridServer.TaskManager
