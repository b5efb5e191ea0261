import GridServer.TaskManager.Handlers

namespace GridServer.TaskManager
open Jobs Library

namespace TaskSplitter
variable {checks : Bool} {taxies passengers k : Nat} {start last : TaskSplitter}
  {items : List (TaskId × TaskData)}

/-- What the splitter gives ends where as many tasks have been taken from it, as far as there are
any and they can be counted. -/
theorem yields_after (h : 1 ≤ passengers) {first : TaskSplitter}
    (y : Yields (next checks) first items last) (hfirst : first = after taxies passengers k)
    (hk : k ≤ taxies * half passengers) (fits : checks = true → k < 2 ^ 64) :
    last = after taxies passengers (k + items.length) ∧
      k + items.length ≤ taxies * half passengers ∧
      (checks = true → k + items.length < 2 ^ 64) := by
  induction y generalizing k with
  | nil s => exact ⟨hfirst, hk, fits⟩
  | cons first rest ih =>
    subst hfirst
    have hmore : k < taxies * half passengers := by
      refine Nat.lt_of_le_of_ne hk ?_
      rintro rfl
      rw [next_end (Nat.le_refl _)] at first
      cases first
    rw [next_eq h hmore, bind_ok] at first
    obtain ⟨n, hn, first⟩ := first
    simp only [except_pure, Except.ok.injEq, Prod.mk.injEq] at first
    have hcounted : checks = true → k + 1 < 2 ^ 64 := by
      intro hc
      subst hc
      have hlt := addBits_lt hn
      rwa [Nat.mod_eq_of_lt (fits rfl)] at hlt
    have hrest := ih first.2.symm hmore hcounted
    rwa [List.length_cons, Nat.add_comm _ 1, ← Nat.add_assoc]

/-- The exponent is cast to a `u32`. -/
theorem new_mod (checks : Bool) (taxies passengers : Nat) :
    new checks taxies passengers = new checks taxies (passengers % 2 ^ 32) := by
  rw [new, new, Nat.mod_mod]

theorem new_succeeds : Succeeds (new true taxies passengers) ↔ passengers % 2 ^ 32 < 128 := by
  constructor
  · intro ⟨splitter, h⟩
    by_contra hlarge
    have hpow : 2 ^ 128 ≤ 2 ^ (passengers % 2 ^ 32) :=
      Nat.pow_le_pow_right (by decide) (Nat.le_of_not_lt hlarge)
    rw [new, u128Pow, powBits, if_pos ⟨rfl, hpow⟩] at h
    cases h
  · intro hsmall
    have hpow : 2 ^ (passengers % 2 ^ 32) < 2 ^ 128 := Nat.pow_lt_pow_right (by decide) hsmall
    rw [new, u128Pow, powBits_of_lt hpow, ok_bind, u128Sub, subBits_of_le (Nat.two_pow_pos _)]
    exact succeeds_pure _

/-- The splitter of a job without passengers announces no task, and has one for every taxi. -/
theorem new_zero (checks : Bool) (taxies : Nat) : new checks taxies 0 = .ok ⟨0, taxies, 0, 0, 0, 0⟩ := by
  cases checks with
  | true => rfl
  | false => rfl

/-- As many tasks as are announced can be given out, and counted on the way. -/
def Countable (checks : Bool) (taxies passengers : Nat) : Prop :=
  passengers % 2 ^ 32 < 128 ∧
    (taxies = 0 ∨ 1 ≤ passengers % 2 ^ 32 ∧
      taxies * 2 ^ (passengers % 2 ^ 32 - 1) < if checks then 2 ^ 64 else 2 ^ 128)

/-- The splitter is built without an overflow, and gives as many tasks as it announces. -/
def Announces (checks : Bool) (taxies passengers : Nat) : Prop :=
  Succeeds (new true taxies passengers) ∧ ∃ start items last,
    new checks taxies passengers = .ok start ∧ Yields (next checks) start items last ∧
    last.next checks = .ok (none, last) ∧ start.totalTasks checks = .ok items.length

theorem Announces.mod : Announces checks taxies passengers ↔
    Announces checks taxies (passengers % 2 ^ 32) := by
  rw [Announces, Announces, new_mod, new_mod checks]

/-- Without taxis there is nothing to split. -/
theorem announces_nothing (hsmall : passengers % 2 ^ 32 < 128) : Announces checks 0 passengers := by
  refine ⟨new_succeeds.mpr hsmall, ?_⟩
  have hpow : 2 ^ (passengers % 2 ^ 32) < 2 ^ 128 := Nat.pow_lt_pow_right (by decide) hsmall
  refine ⟨⟨0, 0, 0, 2 ^ (passengers % 2 ^ 32) - 1, 2 ^ (passengers % 2 ^ 32) / 2,
    2 ^ (passengers % 2 ^ 32) / 2⟩, [], _, ?_, .nil _, rfl, ?_⟩
  · rw [new, u128Pow, powBits_of_lt hpow, ok_bind, u128Sub, subBits_of_le (Nat.two_pow_pos _)]
    rfl
  · rw [totalTasks, u128Mul, mulBits_of_lt (by simp), Nat.mul_zero, List.length_nil]

/-- Without passengers a splitter that announces nothing goes through the taxis. -/
theorem not_announces_zero (pos : 0 < taxies) : ¬Announces checks taxies 0 := by
  intro ⟨_, start, items, last, hnew, hyields, hdone, htotal⟩
  rw [new_zero, Except.ok.injEq] at hnew
  subst hnew
  have hnone : items.length = 0 := by
    rw [totalTasks, u128Mul, mulBits_of_lt (by simp), Nat.zero_mul, Except.ok.injEq] at htotal
    exact htotal.symm
  rw [List.length_eq_zero_iff] at hnone
  subst hnone
  cases hyields
  rw [next, if_pos pos, bind_ok] at hdone
  obtain ⟨_, _, hdone⟩ := hdone
  cases hdone

/-- A splitter for passengers that can be counted in its bits. -/
theorem announces_some (h : 1 ≤ passengers) (hlt : passengers < 128) :
    Announces checks taxies passengers ↔
      taxies * half passengers < if checks then 2 ^ 64 else 2 ^ 128 := by
  have htotal : (after taxies passengers 0).totalTasks checks =
      u128Mul checks (half passengers) taxies := rfl
  constructor
  · intro ⟨_, start, items, last, hnew, hyields, hdone, hannounced⟩
    rw [new_eq h hlt, Except.ok.injEq] at hnew
    subst hnew
    obtain ⟨rfl, hle, hcounted⟩ := yields_after h hyields rfl (Nat.zero_le _) fun _ => by decide
    rw [Nat.zero_add] at hdone hle hcounted
    have hall : items.length = taxies * half passengers := by
      refine Nat.le_antisymm hle (Nat.le_of_not_lt ?_)
      intro hmore
      rw [next_eq h hmore, bind_ok] at hdone
      obtain ⟨_, _, hdone⟩ := hdone
      cases hdone
    rw [← hall]
    cases checks with
    | true => exact hcounted rfl
    | false =>
      rw [htotal, u128Mul, mulBits, if_neg (by simp), Except.ok.injEq] at hannounced
      rw [← hannounced]
      exact Nat.mod_lt _ (by decide)
  · intro hfits
    have hsmall : taxies * half passengers < 2 ^ 128 := by
      cases checks with
      | true => exact lt_trans hfits (by decide)
      | false => exact hfits
    have fits : checks = true → taxies * half passengers < 2 ^ 64 := by
      intro hc
      subst hc
      exact hfits
    have enumerated := enumerates_mod h fits
    have hyields := enumerated.yields (k := 0) (n := taxies * half passengers) (by omega)
    rw [Nat.zero_add] at hyields
    refine ⟨new_succeeds.mpr ((Nat.mod_le _ _).trans_lt hlt), _, _, _, new_eq h hlt, hyields,
      enumerated.done, ?_⟩
    rw [htotal, u128Mul, mulBits_of_lt (by rwa [Nat.mul_comm]), List.length_map, List.length_range',
      Nat.mul_comm]

theorem announces_iff : Announces checks taxies passengers ↔ Countable checks taxies passengers := by
  rw [Countable]
  by_cases hlt : passengers % 2 ^ 32 < 128
  · rw [and_iff_right hlt]
    by_cases htaxies : taxies = 0
    · subst htaxies
      exact iff_of_true (announces_nothing hlt) (.inl rfl)
    · rw [or_iff_right htaxies, Announces.mod]
      by_cases hsome : 1 ≤ passengers % 2 ^ 32
      · rw [and_iff_right hsome]
        exact announces_some hsome hlt
      · have hzero : passengers % 2 ^ 32 = 0 := by omega
        rw [hzero]
        exact iff_of_false (not_announces_zero (Nat.pos_of_ne_zero htaxies)) (by simp)
  · exact iff_of_false (fun announced => hlt (new_succeeds.mp announced.1)) fun fits => hlt fits.1

end TaskSplitter

variable {checks : Bool} {externals : Externals} {s : State} {job : Job} {args : List UInt8}

/-- The splitter of the job is built without an overflow, and `NewJob` announces as many tasks as it
then gives. -/
def JobAnnounced (checks : Bool) (externals : Externals) (s : State) (job : Job) : Prop :=
  Succeeds (TaskSplitter.new true job.data.taxies.length job.data.passengers.length) ∧
    ∃ s' totalTasks workerJobData work start items last,
      startJob checks externals s job =
        .ok (s', [.request (.newJob job.id totalTasks workerJobData)], .continue) ∧
      s'.currentJob = some { job with state := .started work } ∧
      work.phase = .splitting start ∧ Yields (TaskSplitter.next checks) start items last ∧
      last.next checks = .ok (none, last) ∧ items.length = totalTasks

/-- A ready scheduler is told what the splitter announces. -/
theorem jobAnnounced_iff (ready : s.scheduler.ready = true)
    (encoded : externals.encodeJobData job.data = some args) :
    JobAnnounced checks externals s job ↔
      TaskSplitter.Announces checks job.data.taxies.length job.data.passengers.length := by
  obtain ⟨part, hpart, _⟩ := MultilevelVecMap.new_ok (T := Distance) checks
    (job.data.passengers.length % 64)
  rw [JobAnnounced, TaskSplitter.Announces]
  refine and_congr_right fun _ => ?_
  constructor
  · intro ⟨s', totalTasks, _, work, start, items, last, hstart, hcurrent, hphase, hyields, hdone,
      hlength⟩
    simp only [startJob, ready, Bool.not_true, Bool.false_eq_true, ↓reduceIte, encoded, bind_ok,
      except_pure, Except.ok.injEq, Prod.mk.injEq] at hstart
    obtain ⟨splitter, hnew, total, htotal, parts, _, rfl, hsent, _⟩ := hstart
    obtain rfl : total = totalTasks := by
      simp only [List.cons.injEq, Jobs.Sent.request.injEq, SchedulerRequest.newJob.injEq] at hsent
      exact hsent.1.2.1
    simp only [Option.some.injEq, Jobs.Job.mk.injEq, JobState.started.injEq, true_and] at hcurrent
    subst hcurrent
    obtain rfl : splitter = start := JobPhase.splitting.inj hphase
    exact ⟨splitter, items, last, hnew, hyields, hdone, hlength ▸ htotal⟩
  · intro ⟨start, items, last, hnew, hyields, hdone, htotal⟩
    obtain ⟨work, hwork⟩ : ∃ work : Started, work =
      ⟨none, List.replicate job.data.taxies.length part, BitSet.new, .splitting start⟩ := ⟨_, rfl⟩
    refine ⟨{ s with currentJob := some { job with state := .started work } }, items.length,
      externals.workerJobData args, work, start, items, last, ?_, rfl, by rw [hwork], hyields, hdone,
      rfl⟩
    simp only [startJob, ready, Bool.not_true, Bool.false_eq_true, ↓reduceIte, encoded, hnew,
      ok_bind, htotal, parts, hpart, except_pure, hwork]

/-- What `NewJob` announces is what the splitter gives exactly when there are passengers, but not
too many for the splitter's numbers, or no taxis. -/
theorem startJob_announces (ready : s.scheduler.ready = true)
    (encoded : externals.encodeJobData job.data = some args) :
    JobAnnounced checks externals s job ↔
      TaskSplitter.Countable checks job.data.taxies.length job.data.passengers.length :=
  (jobAnnounced_iff ready encoded).trans TaskSplitter.announces_iff

/-- A ready scheduler, and the job of one taxi and one passenger. -/
theorem startJob_announces_single :
    JobAnnounced true plain { State.new with scheduler := ⟨true⟩ } ⟨7, single, .notStarted⟩ ↔
      TaskSplitter.Countable true 1 1 :=
  startJob_announces rfl rfl

/-- A job of one taxi and no passengers announces no task, and has one. -/
theorem startJob_announces_fails : ¬∀ checks externals (s : State) (job : Job) args,
    job.data.validate = true → s.scheduler.ready = true →
      externals.encodeJobData job.data = some args → JobAnnounced checks externals s job := by
  intro hall
  have announced := hall true plain { State.new with scheduler := ⟨true⟩ }
    ⟨7, ⟨[[0]], [0], []⟩, .notStarted⟩ [] (by decide) rfl rfl
  exact TaskSplitter.not_announces_zero (by decide) ((jobAnnounced_iff rfl rfl).mp announced)

end GridServer.TaskManager
