import GridServer.Scheduler.Ledger

namespace GridServer
open Library

/-- A worker's tasks, and those it is due to have replaced, fit its subworkers. -/
def Holder.Fits (h : Holder) : Prop :=
  h.assignments.length + h.replacements.length ≤ h.subworkers

instance (h : Holder) : Decidable h.Fits := by unfold Holder.Fits; infer_instance

theorem Holder.releaseFinished_length (h : Holder) (t : TaskId) :
    (h.releaseFinished t).assignments.length ≤ h.assignments.length := by
  unfold Holder.releaseFinished
  cases hp : (h.replacements.idxOf? t).bind (swapRemove h.assignments) with
  | none => simp
  | some ts =>
    obtain ⟨pos, _, hs⟩ := Option.bind_eq_some_iff.mp hp
    exact swapRemove_length_le hs

namespace Board

/-- Every worker's tasks fit. -/
def Capacity (b : Board) : Prop := ∀ w, ∀ h ∈ b.workers w, h.Fits

/-- What a move needs for everything to fit afterwards: room for a task that is given, and an
assignment that leaves, or room, for every replacement that becomes due. -/
def CapacitySafe (b : Board) : Move → Prop
  | .give w _ => ∀ h ∈ b.workers w, h.assignments.length + h.replacements.length < h.subworkers
  | .report w t (some _) => (b.tasks t).isSome → ∀ h ∈ b.workers w,
      t ∈ h.assignments ∨ h.assignments.length + h.replacements.length < h.subworkers
  | .complete w t => ∀ w' ∈ withdraw (b.heldBy t) w,
      ∀ h ∈ (b.editWorker w fun h => h.release t).workers w',
        (withdraw (b.heldBy t) w).count w' + h.assignments.length + h.replacements.length ≤
          h.assignments.count t + h.subworkers
  | .shrink w n => ∀ h ∈ b.workers w,
      h.assignments.length + h.replacements.length + n ≤ h.subworkers
  | _ => True

instance (b : Board) (m : Move) : Decidable (b.CapacitySafe m) := by
  rcases m with _ | _ | ⟨_, _, _ | _⟩ | _ | _ | _ | _ | _ | _ | _ | _ <;>
    unfold CapacitySafe <;> infer_instance

variable {b : Board}

theorem editWorker_self {w : WorkerId} {h : Holder} (hw : b.workers w = some h)
    (f : Holder → Holder) : (b.editWorker w f).workers w = some (f h) := by
  simp [editWorker, hw]

theorem editWorker_of_ne {w w' : WorkerId} (hne : w' ≠ w) (f : Holder → Holder) :
    (b.editWorker w f).workers w' = b.workers w' := by
  simp [editWorker, Function.update_of_ne hne]

/-- An edit of one worker keeps everything fitting when that worker still fits. -/
theorem Capacity.editWorker (c : b.Capacity) {w : WorkerId} {f : Holder → Holder}
    (hf : ∀ h, b.workers w = some h → (f h).Fits) : (b.editWorker w f).Capacity := by
  intro w' h hh
  by_cases hw : w' = w
  · subst hw
    cases hb : b.workers w' with
    | none =>
      rw [editWorker_absent hb, hb] at hh
      cases hh
    | some v =>
      rw [editWorker_self hb] at hh
      exact Option.mem_some_iff.mp hh ▸ hf v hb
  · rw [editWorker_of_ne hw] at hh
    exact c w' h hh

theorem Capacity.congr {b' : Board} (c : b.Capacity) (h : b'.workers = b.workers) :
    b'.Capacity := by
  intro w v hv
  rw [h] at hv
  exact c w v hv

theorem release_fits {h : Holder} (hf : h.Fits) (t : TaskId) : (h.release t).Fits := by
  have := length_withdraw_le h.assignments t
  unfold Holder.Fits Holder.release at *
  simp only
  omega

theorem releaseFinished_fits {h : Holder} (hf : h.Fits) (t : TaskId) :
    (h.releaseFinished t).Fits := by
  have := h.releaseFinished_length t
  unfold Holder.Fits at *
  simp only [Holder.releaseFinished] at this ⊢
  omega

/-- A replacement that becomes due takes the place of the assignment that leaves, or a free
one. -/
theorem replace_fits {h : Holder} (hf : h.Fits) {t : TaskId} (r : TaskId)
    (room : t ∈ h.assignments ∨ h.assignments.length + h.replacements.length < h.subworkers) :
    ((h.release t).addReplacement r).Fits := by
  unfold Holder.Fits at *
  simp only [Holder.release, Holder.addReplacement, List.length_append, List.length_singleton]
  rcases room with ht | hroom
  · have := length_withdraw ht
    omega
  · have := length_withdraw_le h.assignments t
    omega

theorem Capacity.report (c : b.Capacity) {w : WorkerId} {t : TaskId} {due : Option TaskId}
    (safe : b.CapacitySafe (.report w t due)) : (b.report w t due).Capacity := by
  unfold Board.report
  split
  · rename_i v ws hw ht
    refine Capacity.congr (b := b.editWorker w fun h =>
      due.elim (h.release t) (h.release t).addReplacement) ?_ rfl
    refine c.editWorker fun h hh => ?_
    cases due with
    | none => exact release_fits (c w h hh) t
    | some r => exact replace_fits (c w h hh) r (safe (by rw [ht]; rfl) h hh)
  · exact c.editWorker fun h hh => releaseFinished_fits (c w h hh) t
  · exact c

/-- The other workers of a completed task still fit, when each holds it, or has room, as often as
it is listed. -/
theorem Capacity.replaces (c : b.Capacity) {t : TaskId} {ws : List WorkerId}
    (held : ∀ w ∈ ws, ∀ h ∈ b.workers w,
      ws.count w + h.assignments.length + h.replacements.length ≤
        h.assignments.count t + h.subworkers) :
    (ws.foldl (replace t) b).Capacity := by
  induction ws generalizing b with
  | nil => exact c
  | cons w ws ih =>
    have hself := held w List.mem_cons_self
    rw [List.count_cons_self] at hself
    refine ih ?_ ?_
    · refine c.editWorker fun h hh => replace_fits (c w h hh) t ?_
      by_cases ht : t ∈ h.assignments
      · exact .inl ht
      · have := hself h hh
        rw [List.count_eq_zero_of_not_mem ht] at this
        exact .inr (by omega)
    · intro w' hw' h hh
      by_cases hne : w' = w
      · subst hne
        cases hb : b.workers w' with
        | none =>
          rw [replace, editWorker_absent hb, hb] at hh
          cases hh
        | some v =>
          rw [replace, editWorker_self hb, Option.mem_some_iff] at hh
          have hv := hself v hb
          rw [← hh]
          simp only [Holder.release, Holder.addReplacement, count_withdraw, ↓reduceIte,
            List.length_append, List.length_singleton]
          by_cases ht : t ∈ v.assignments
          · have hlen := length_withdraw ht
            have hcount := List.count_pos_iff.mpr ht
            omega
          · have hcount := List.count_eq_zero_of_not_mem ht
            rw [withdraw_of_not_mem ht]
            omega
      · rw [replace, editWorker_of_ne hne] at hh
        have := held w' (List.mem_cons_of_mem _ hw') h hh
        rwa [List.count_cons_of_ne (Ne.symm hne)] at this

theorem Capacity.complete (c : b.Capacity) {w : WorkerId} {t : TaskId}
    (safe : b.CapacitySafe (.complete w t)) : (b.complete w t).Capacity := by
  unfold Board.complete
  split
  · rename_i ws ht
    have hheld : b.heldBy t = ws := by simp [heldBy, ht]
    simp only [CapacitySafe, hheld] at safe
    have hfirst : (b.editWorker w fun h => h.release t).Capacity :=
      c.editWorker fun h hh => release_fits (c w h hh) t
    have hstart : ({ (b.setTask t none).editWorker w fun h => h.release t with
        completed := b.completed + 1 } : Board).Capacity := hfirst.congr rfl
    exact hstart.replaces safe
  · exact c

theorem abandons_workers (b : Board) (w : WorkerId) (ts : List TaskId) :
    (ts.foldl (abandon w) b).workers = b.workers := by
  induction ts generalizing b with
  | nil => rfl
  | cons t ts ih =>
    rw [List.foldl_cons, ih]
    unfold abandon
    split <;> rfl

theorem Capacity.leave (c : b.Capacity) (w : WorkerId) : (b.leave w).Capacity := by
  have hgone : ({ b with workers := Function.update b.workers w none } : Board).Capacity := by
    intro w' h hh
    by_cases hw : w' = w
    · subst hw
      simp at hh
    · simp only [Function.update_of_ne hw] at hh
      exact c w' h hh
  exact hgone.congr (abandons_workers _ w (b.holds w))

/-- Every safe move leaves everything fitting. -/
theorem Capacity.move (m : Move) (safe : b.CapacitySafe m) (c : b.Capacity) :
    (b.move m).Capacity := by
  cases m with
  | give w t =>
    rw [Board.move, Board.give]
    split
    · refine Capacity.congr (b := b.editWorker w fun h =>
        { h with assignments := h.assignments ++ [t] }) ?_ rfl
      refine c.editWorker fun h hh => ?_
      have := safe h hh
      simp only [Holder.Fits, List.length_append, List.length_singleton]
      omega
    · exact c
  | useReplacement w =>
    refine c.editWorker fun h hh => ?_
    have := c w h hh
    simp only [Holder.Fits, List.length_dropLast] at this ⊢
    omega
  | report w t due => exact c.report safe
  | complete w t => exact c.complete safe
  | leave w => exact c.leave w
  | join w subworkers =>
    intro w' h hh
    by_cases hw : w' = w
    · subst hw
      simp only [Board.move, Function.update_self, Option.mem_some_iff] at hh
      simp [← hh, Holder.Fits]
    · simp only [Board.move, Function.update_of_ne hw] at hh
      exact c w' h hh
  | queue t => exact c.congr rfl
  | shrink w n =>
    refine c.editWorker fun h hh => ?_
    have := safe h hh
    have hsub : wrappingSub 64 h.subworkers n = h.subworkers - n := wrappingSub_of_le (by omega)
    simp only [Holder.Fits, hsub]
    omega
  | start => rintro w h ⟨⟩
  | clear => rintro w h ⟨⟩
  | forget => rintro w h ⟨⟩

section Gifts
variable {w : WorkerId}

/-- A gift changes at most the worker it goes to, by one assignment. -/
theorem give_workers (b : Board) (w : WorkerId) (t : TaskId) :
    ∀ h ∈ (b.give w t).workers w, ∃ h₀ ∈ b.workers w, h.subworkers = h₀.subworkers ∧
      h.replacements = h₀.replacements ∧ h.assignments.length ≤ h₀.assignments.length + 1 := by
  intro h hh
  unfold give at hh
  split at hh
  · rename_i v ws hw ht
    change h ∈ (b.editWorker w fun h => { h with assignments := h.assignments ++ [t] }).workers w
      at hh
    rw [editWorker_self hw, Option.mem_some_iff] at hh
    subst hh
    exact ⟨v, hw, rfl, rfl, by simp⟩
  · exact ⟨h, hh, rfl, rfl, by omega⟩

/-- There is room for as many tasks as the worker accepts. -/
theorem along_tasks {n : Nat} (tasks : List WorkerTask) (hlen : tasks.length ≤ n)
    (room : ∀ h ∈ b.workers w, h.assignments.length + h.replacements.length + n ≤ h.subworkers) :
    Along Board.move CapacitySafe b (tasks.map fun t => .give w t.id) ∧
      ∀ h ∈ ((tasks.map fun t => Move.give w t.id).foldl Board.move b).workers w,
        ∃ h₀ ∈ b.workers w, h.subworkers = h₀.subworkers ∧ h.replacements = h₀.replacements ∧
          h.assignments.length ≤ h₀.assignments.length + n := by
  induction tasks generalizing b n with
  | nil => exact ⟨trivial, fun h hh => ⟨h, hh, rfl, rfl, by omega⟩⟩
  | cons t tasks ih =>
    obtain ⟨n, rfl⟩ : ∃ m, n = m + 1 := ⟨n - 1, by rw [List.length_cons] at hlen; omega⟩
    have hroom : ∀ h ∈ (b.move (.give w t.id)).workers w,
        h.assignments.length + h.replacements.length + n ≤ h.subworkers := by
      intro h hh
      obtain ⟨h₀, hh₀, hs, hr, ha⟩ := give_workers b w t.id h hh
      have := room h₀ hh₀
      rw [hs, hr]
      omega
    obtain ⟨along, last⟩ := ih (by simpa using hlen) hroom
    refine ⟨⟨fun h hh => ?_, along⟩, fun h hh => ?_⟩
    · have := room h hh
      omega
    · obtain ⟨h₁, hh₁, hs, hr, ha⟩ := last h hh
      obtain ⟨h₀, hh₀, hs₀, hr₀, ha₀⟩ := give_workers b w t.id h₁ hh₁
      exact ⟨h₀, hh₀, hs.trans hs₀, hr.trans hr₀, by omega⟩

/-- A task that replaces another takes the slot that was kept for it. -/
theorem along_replacements (replacements : List (TaskId × WorkerTask))
    (room : ∀ h ∈ b.workers w, h.Fits ∧ replacements.length ≤ h.replacements.length) :
    Along Board.move CapacitySafe b (replacements.flatMap (Scheduler.replacementMoves w)) := by
  induction replacements generalizing b with
  | nil => trivial
  | cons r replacements ih =>
    have popped : ∀ h ∈ (b.move (.useReplacement w)).workers w, ∃ h₀ ∈ b.workers w,
        h.subworkers = h₀.subworkers ∧ h.assignments = h₀.assignments ∧
          h.replacements.length + 1 = h₀.replacements.length := by
      intro h hh
      cases hb : b.workers w with
      | none =>
        rw [Board.move, editWorker_absent hb, hb] at hh
        cases hh
      | some v =>
        rw [Board.move, editWorker_self hb, Option.mem_some_iff] at hh
        subst hh
        have := (room v hb).2
        rw [List.length_cons] at this
        exact ⟨v, rfl, rfl, rfl, by simp only [List.length_dropLast]; omega⟩
    refine ⟨trivial, ⟨fun h hh => ?_, ih fun h hh => ?_⟩⟩
    · obtain ⟨h₀, hh₀, hs, ha, hr⟩ := popped h hh
      have := (room h₀ hh₀).1
      unfold Holder.Fits at this
      rw [hs, ha]
      omega
    · obtain ⟨h₁, hh₁, hs, hr, ha⟩ := give_workers _ w r.2.id h hh
      obtain ⟨h₀, hh₀, hs₀, ha₀, hr₀⟩ := popped h₁ hh₁
      have hroom := room h₀ hh₀
      unfold Holder.Fits at hroom ⊢
      rw [List.length_cons] at hroom
      rw [ha₀] at ha
      rw [hs, hr, hs₀]
      omega

end Gifts

section Refusals
variable {w : WorkerId}

/-- Whether a report takes a task out of its worker's assignments: the queued task it names, or,
for a finished one, whatever stands at the position that the replacements give. -/
def frees (b : Board) (w : WorkerId) (t : TaskId) : Bool :=
  (b.workers w).any fun h =>
    if (b.tasks t).isSome then t ∈ h.assignments
    else t ∈ h.replacements ∧ h.replacements.idxOf t < h.assignments.length

/-- How many of the reports take nothing out, each at its turn. -/
def unfreed (b : Board) (w : WorkerId) : List TaskId → Nat
  | [] => 0
  | t :: tasks => (!b.frees w t).toNat + unfreed (b.report w t none) w tasks

theorem releaseFinished_eq (h : Holder) (t : TaskId) :
    if t ∈ h.replacements ∧ h.replacements.idxOf t < h.assignments.length then
      (h.releaseFinished t).assignments.length + 1 = h.assignments.length
    else h.releaseFinished t = h := by
  split
  · rename_i hmem
    obtain ⟨ts, hts⟩ := swapRemove_of_lt hmem.2
    have hpos : h.replacements.idxOf? t = some (h.replacements.idxOf t) := idxOf?_of_mem hmem.1
    have hget := List.getElem?_eq_getElem hmem.2
    have := (swapRemove_perm hget hts).length_eq
    simpa [Holder.releaseFinished, hpos, hts] using this
  · rename_i hnot
    by_cases ht : t ∈ h.replacements
    · have hout : swapRemove h.assignments (h.replacements.idxOf t) = none :=
        swapRemove_eq_none.mpr (Nat.le_of_not_lt fun hlt => hnot ⟨ht, hlt⟩)
      simp [Holder.releaseFinished, idxOf?_of_mem ht, hout]
    · exact releaseFinished_of_not_mem ht

theorem report_frees {v₀ : Holder} (hw : b.workers w = some v₀) (t : TaskId) :
    ∃ v, (b.report w t none).workers w = some v ∧ v.subworkers = v₀.subworkers ∧
      v.replacements = v₀.replacements ∧
      v.assignments.length + 1 = v₀.assignments.length + (!b.frees w t).toNat := by
  unfold Board.report
  rw [hw]
  cases ht : b.tasks t with
  | some ws =>
    refine ⟨v₀.release t, editWorker_self hw _, rfl, rfl, ?_⟩
    by_cases hmem : t ∈ v₀.assignments
    · simpa [frees, hw, ht, hmem, Holder.release] using length_withdraw hmem
    · simp [frees, hw, ht, hmem, Holder.release, withdraw_of_not_mem hmem]
  | none =>
    refine ⟨v₀.releaseFinished t, editWorker_self hw _, rfl, rfl, ?_⟩
    have := releaseFinished_eq v₀ t
    split at this
    · rename_i hmem
      simpa [frees, hw, ht, hmem] using this
    · rename_i hnot
      have hkeeps : b.frees w t = false := by simpa [frees, hw, ht] using hnot
      rw [this, hkeeps]
      rfl

/-- Reports take out as many tasks as there are reports, but for those that take nothing out. -/
theorem reports_free {v₀ : Holder} (hw : b.workers w = some v₀) (tasks : List TaskId) :
    ∃ v, ((tasks.map fun t => Move.report w t none).foldl Board.move b).workers w = some v ∧
      v.subworkers = v₀.subworkers ∧ v.replacements = v₀.replacements ∧
      v.assignments.length + tasks.length = v₀.assignments.length + b.unfreed w tasks := by
  induction tasks generalizing b v₀ with
  | nil => exact ⟨v₀, hw, rfl, rfl, rfl⟩
  | cons t tasks ih =>
    obtain ⟨v₁, hv₁, hs₁, hr₁, ha₁⟩ := report_frees hw t
    obtain ⟨v, hv, hs, hr, ha⟩ := ih hv₁
    refine ⟨v, hv, hs.trans hs₁, hr.trans hr₁, ?_⟩
    rw [List.length_cons, unfreed]
    omega

theorem report_others (b : Board) {w w' : WorkerId} (hne : w' ≠ w) (t : TaskId)
    (due : Option TaskId) : (b.report w t due).workers w' = b.workers w' := by
  unfold Board.report
  split
  · exact editWorker_of_ne hne _
  · exact editWorker_of_ne hne _
  · rfl

theorem reports_others (b : Board) {w w' : WorkerId} (hne : w' ≠ w) (tasks : List TaskId) :
    ((tasks.map fun t => Move.report w t none).foldl Board.move b).workers w' = b.workers w' := by
  induction tasks generalizing b with
  | nil => rfl
  | cons t tasks ih =>
    rw [List.map_cons, List.foldl_cons, ih]
    exact report_others b hne t none

/-- A worker that turns tasks down has room for those that take nothing out. -/
def RefusalSafe (b : Board) (w : WorkerId) (tasks : List TaskId) : Prop :=
  ∀ h ∈ b.workers w, h.subworkers ≠ 0 →
    h.assignments.length + h.replacements.length +
      (b.move (.shrink w tasks.length)).unfreed w tasks ≤ h.subworkers

instance (b : Board) (w : WorkerId) (tasks : List TaskId) : Decidable (b.RefusalSafe w tasks) := by
  unfold RefusalSafe
  infer_instance

/-- What is left of a worker that turned tasks down. -/
theorem refusal_worker {tasks : List TaskId} {v : Holder} (hb : b.workers w = some v)
    (hsub : v.subworkers ≠ 0) (safe : b.RefusalSafe w tasks) :
    tasks.length ≤ v.subworkers ∧
      ∃ v', ((Scheduler.refusal b w tasks).foldl Board.move b).workers w = some v' ∧ v'.Fits := by
  have hmoves : Scheduler.refusal b w tasks =
      .shrink w tasks.length :: tasks.map fun t => .report w t none := by
    simp [Scheduler.refusal, hb, hsub]
  have room := safe v hb hsub
  obtain ⟨v', hv', hs, hr, ha⟩ := reports_free (b := b.move (.shrink w tasks.length))
    (editWorker_self hb fun h => { h with subworkers := wrappingSub 64 h.subworkers tasks.length })
    tasks
  simp only at hs hr ha
  have hle : tasks.length ≤ v.subworkers := by omega
  refine ⟨hle, v', by rw [hmoves]; exact hv', ?_⟩
  unfold Holder.Fits
  rw [hs, hr, wrappingSub_of_le hle]
  omega

theorem Capacity.reports (c : b.Capacity) (tasks : List TaskId) :
    ((tasks.map fun t => Move.report w t none).foldl Board.move b).Capacity := by
  refine along_invariant (I := Capacity) (fun _ m safe c => c.move m safe) ?_ c
  apply along_of_forall
  intro m hm b
  obtain ⟨t, _, rfl⟩ := List.mem_map.mp hm
  exact trivial

/-- A worker that turns tasks down still fits with as many subworkers fewer. -/
theorem Capacity.refusal (c : b.Capacity) {tasks : List TaskId} (safe : b.RefusalSafe w tasks) :
    ((Scheduler.refusal b w tasks).foldl Board.move b).Capacity := by
  cases hany : (b.workers w).any (·.subworkers ≠ 0) with
  | false =>
    have hmoves : Scheduler.refusal b w tasks = tasks.map fun t => .report w t none := by
      rw [Scheduler.refusal, hany]
      rfl
    rw [hmoves]
    exact c.reports tasks
  | true =>
    obtain ⟨v, hb, hsub⟩ : ∃ v, b.workers w = some v ∧ v.subworkers ≠ 0 := by
      simpa [Option.any_eq_true] using hany
    obtain ⟨_, v', hv', hfit⟩ := refusal_worker hb hsub safe
    intro w' h hh
    by_cases hw : w' = w
    · subst hw
      rw [hv', Option.mem_some_iff] at hh
      exact hh ▸ hfit
    · have hmoves : Scheduler.refusal b w tasks =
          .shrink w tasks.length :: tasks.map fun t => .report w t none := by
        rw [Scheduler.refusal, hany]
        rfl
      rw [hmoves, List.foldl_cons, reports_others _ hw, Board.move, editWorker_of_ne hw] at hh
      exact c w' h hh

end Refusals

end Board

namespace Scheduler

/-- What `can_accept` subtracts fits every worker's subworkers. -/
def Capacity (s : Scheduler) : Prop :=
  ∀ w v, s.workersQueue.get w = some v →
    v.assignments.length + v.replacements.length ≤ v.subworkers

theorem board_capacity {s : Scheduler} {job : ScheduledJob} :
    (s.board job).Capacity ↔ s.Capacity := by
  constructor
  · intro h w v hv
    exact h w v.holder (by rw [board_workers, hv, Option.map_some]; rfl)
  · rintro h w _ hh
    rw [board_workers, Option.mem_def, Option.map_eq_some_iff] at hh
    obtain ⟨v, hv, rfl⟩ := hh
    exact h w v hv

variable {checks : Bool} {s s' : Scheduler} {job : ScheduledJob} {e : Event} {out : List Sent}

/-- No move of the event makes a worker's tasks and replacements outgrow it. -/
def CapacitySafe (s : Scheduler) (job : ScheduledJob) : Event → Prop
  | .worker (.message w (.error (.noFreeExecutors tasks))) => (s.board job).RefusalSafe w tasks
  | e => Along Board.move Board.CapacitySafe (s.board job) (s.moves job e)

instance (s : Scheduler) (job : ScheduledJob) (e : Event) : Decidable (s.CapacitySafe job e) := by
  unfold CapacitySafe
  split <;> infer_instance

def CapacityStep (s : Scheduler) (e : Event) : Prop := ∀ job ∈ s.scheduledJob, s.CapacitySafe job e

instance (s : Scheduler) (e : Event) : Decidable (s.CapacityStep e) := by
  unfold CapacityStep
  infer_instance

/-- What `can_accept` returns is the room that is left. -/
theorem canAccept_eq {v : Worker} {n : Nat} (h : v.canAccept checks = .ok n)
    (fits : v.assignments.length + v.replacements.length ≤ v.subworkers) :
    v.assignments.length + v.replacements.length + n = v.subworkers := by
  rw [subBits_ok h, wrappingSub_of_le fits]
  omega

/-- The worker that `process_scheduling` puts back has no more tasks than subworkers. -/
theorem dispatch_fits {w : WorkerId} {v : Worker} {n : Nat} {g₁ g₂ : Giving}
    {tasks : List WorkerTask} {replacements : List (TaskId × WorkerTask)}
    (ready : Giving.Ready job s.workersQueue w
      ⟨job, s.tasksQueue, ⟨w, v, false⟩, s.needSchedule⟩)
    (hn : v.canAccept checks = .ok n)
    (fits : v.assignments.length + v.replacements.length ≤ v.subworkers)
    (h₁ : giveTasks checks n ⟨job, s.tasksQueue, ⟨w, v, false⟩, s.needSchedule⟩ [] =
      .ok (g₁, tasks))
    (h₂ : giveReplacements checks g₁.worker.value.replacements.length g₁ [] =
      .ok (g₂, replacements)) :
    (s.dispatch g₂ tasks replacements).1.value.assignments.length ≤
      (s.dispatch g₂ tasks replacements).1.value.subworkers := by
  obtain ⟨given, _, hlen, ready₁, _, hw₁, _⟩ := giveTasks_refines ready h₁
  obtain ⟨given', kept, _, _, _, _, hkept, hw₂, _⟩ :=
    giveReplacements_refines ready₁ (Nat.le_refl _) h₂
  obtain ⟨_, hasJobData, hval⟩ := dispatch_worker (s := s) g₂ tasks replacements
  have hroom := canAccept_eq hn fits
  rw [hw₁] at hkept
  have hdue := congrArg List.length hkept
  rw [hval, hw₂, hw₁]
  simp only [List.length_append, List.length_map, List.length_reverse] at hdue ⊢
  omega

/-- The moves of a step that meets the condition leave everything fitting. -/
theorem CapacityStep.traces {ms : List Move} (h : s.CapacityStep e) (hj : s.scheduledJob = some job)
    (traces : Traces checks s job e ms) (c : (s.board job).Capacity) :
    (ms.foldl Board.move (s.board job)).Capacity := by
  cases traces with
  | idle => exact c
  | event _ _ =>
    have hmet := h job hj
    unfold CapacitySafe at hmet
    split at hmet
    · exact c.refusal hmet
    · exact along_invariant (fun _ m safe c => c.move m safe) hmet c
  | schedule tasks replacements hw hv hn hlen hkept =>
    rename_i w v n kept
    have hb : (s.board job).workers w = some v.holder := by rw [board_workers, hv, Option.map_some]
    have hroom := canAccept_eq hn (board_capacity.mp c w v hv)
    have hdue := congrArg List.length hkept
    simp only [List.length_append, List.length_reverse, List.length_map] at hdue
    obtain ⟨along, last⟩ := Board.along_tasks tasks hlen fun h hh => by
      rw [hb, Option.mem_some_iff] at hh
      subst hh
      exact Nat.le_of_eq hroom
    refine along_invariant (fun _ m safe c => c.move m safe)
      (along_append.mpr ⟨along, Board.along_replacements replacements fun h hh => ?_⟩) c
    obtain ⟨h₀, hh₀, hs, hr, ha⟩ := last h hh
    rw [hb, Option.mem_some_iff] at hh₀
    subst hh₀
    unfold Holder.Fits
    simp only [Worker.holder] at hs hr ha
    rw [hs, hr]
    omega

/-- Every step that meets the condition leaves every worker within its subworkers. -/
theorem step_capacity (sound : s.Sound) (c : s.Capacity) (met : s.CapacityStep e)
    (h : s.step checks e = .ok (s', out)) : s'.Capacity := by
  cases (step_outcome sound h).2 with
  | jobless _ kept =>
    intro w v hv
    rcases kept w v hv with hv | ⟨ha, hr⟩
    · exact c w v hv
    · simp [ha, hr]
  | abandoned job job' w t _ _ _ _ hboard =>
    have c' : (s'.board job').Capacity := by
      rw [hboard]
      exact Board.Capacity.report (board_capacity.mpr c) trivial
    exact board_capacity.mp c'
  | started id totalTasks data _ hs =>
    intro w v hv
    simp [hs, processNewJob, reset] at hv
  | moved job ms hj traces follows =>
    obtain ⟨job', _, _, hboard⟩ := follows.books
    have c' : (s'.board job').Capacity := by
      rw [hboard]
      exact met.traces hj traces (board_capacity.mpr c)
    exact board_capacity.mp c'

theorem capacity_of_run {config : Config} {es : List Event}
    (run : Run (step checks) CapacityStep (Scheduler.new config) es out s) :
    s.Sound ∧ s.Capacity := by
  refine run.preserves (I := fun s => s.Sound ∧ s.Capacity)
    ⟨sound_new config, fun w v hv => ?_⟩ fun t e u out hI met taken => ?_
  · simp [Scheduler.new] at hv
  · exact ⟨(step_outcome hI.1 taken).1, step_capacity hI.1 hI.2 met taken⟩

/-- The step keeps the ledger two-sided and every worker within its subworkers. -/
def BooksStep (s : Scheduler) (e : Event) : Prop := s.LedgerStep e ∧ s.CapacityStep e

instance (s : Scheduler) (e : Event) : Decidable (s.BooksStep e) := by
  unfold BooksStep
  infer_instance

theorem books_of_run {config : Config} {es : List Event}
    (run : Run (step checks) BooksStep (Scheduler.new config) es out s)
    (hj : s.scheduledJob = some job) : s.Sound ∧ s.Capacity ∧ s.Ledger := by
  obtain ⟨sound, fits⟩ := capacity_of_run (run.weaken fun _ _ met => met.2)
  exact ⟨sound, fits, ledger_of_run (run.weaken fun _ _ met => met.1) hj⟩

end Scheduler
end GridServer
