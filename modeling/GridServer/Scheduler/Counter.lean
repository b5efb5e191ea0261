import GridServer.Scheduler.Underflow
import Mathlib.Data.Set.Card

namespace GridServer
open Library

namespace Board
variable {b b' : Board}

/-- The queued tasks that some worker has. -/
def busy (b : Board) : Set TaskId := {t | b.heldBy t ≠ []}

/-- The scheduled tasks are the completed ones and those that some worker has. -/
structure Counted (b : Board) : Prop where
  finite : b.busy.Finite
  scheduled : b.scheduled = b.completed + b.busy.ncard

/-- The count is right about a task that is abandoned. -/
def AbandonSafe (b : Board) (t : TaskId) : Prop := ∀ ws ∈ b.tasks t, ws ≠ []

instance (b : Board) (t : TaskId) : Decidable (b.AbandonSafe t) := by
  unfold AbandonSafe
  infer_instance

/-- What a move must not run into for the count to stay right: an error about a task that only
its reporter has, or that nobody has, a result of a task that nobody has, a departure that finds
one of its tasks unassigned, a task queued again while it is assigned, a counter that is full. -/
def CounterSafe (b : Board) : Move → Prop
  | .give _ t => ∀ ws ∈ b.tasks t, b.scheduled + ws.isEmpty.toNat < 2 ^ 128
  | .report w t _ => (b.workers w).isSome → ∀ ws ∈ b.tasks t, ws ≠ [] ∧ ws ≠ [w]
  | .complete _ t => ∀ ws ∈ b.tasks t, ws ≠ []
  | .leave w =>
    Along (abandon w) AbandonSafe { b with workers := Function.update b.workers w none } (b.holds w)
  | .queue t => b.heldBy t = []
  | .clear => b.scheduled = b.completed
  | _ => True

instance (b : Board) : (m : Move) → Decidable (b.CounterSafe m)
  | .give _ t => inferInstanceAs (Decidable (∀ ws ∈ b.tasks t,
      b.scheduled + ws.isEmpty.toNat < 2 ^ 128))
  | .report w t _ => inferInstanceAs (Decidable ((b.workers w).isSome → ∀ ws ∈ b.tasks t,
      ws ≠ [] ∧ ws ≠ [w]))
  | .complete _ t => inferInstanceAs (Decidable (∀ ws ∈ b.tasks t, ws ≠ []))
  | .leave w => inferInstanceAs (Decidable (Along (abandon w) AbandonSafe
      { b with workers := Function.update b.workers w none } (b.holds w)))
  | .queue t => inferInstanceAs (Decidable (b.heldBy t = []))
  | .clear => inferInstanceAs (Decidable (b.scheduled = b.completed))
  | .useReplacement _ | .join .. | .shrink .. | .start | .forget => inferInstanceAs (Decidable True)

theorem Counted.same (c : b.Counted) (hh : b'.heldBy = b.heldBy)
    (hs : b'.scheduled = b.scheduled) (hc : b'.completed = b.completed) : b'.Counted := by
  have hbusy : b'.busy = b.busy := by rw [busy, busy, hh]
  exact ⟨hbusy ▸ c.finite, by rw [hs, hc, hbusy, c.scheduled]⟩

theorem counted_empty (h : ∀ t, b.heldBy t = []) (hs : b.scheduled = b.completed) : b.Counted := by
  have hbusy : b.busy = ∅ := by
    ext t
    simp [busy, h t]
  exact ⟨hbusy ▸ Set.finite_empty, by rw [hbusy, Set.ncard_empty, hs]; rfl⟩

/-- A task that is assigned afterwards is busy, once. -/
theorem busy_filled (hfin : b.busy.Finite) {t : TaskId} {ws : List WorkerId}
    (hh : b'.heldBy = Function.update b.heldBy t ws) (hws : ws ≠ []) :
    b'.busy.Finite ∧ b'.busy.ncard = b.busy.ncard + (b.heldBy t).isEmpty.toNat := by
  have hbusy : b'.busy = insert t b.busy := by
    ext k
    by_cases hk : k = t
    · subst hk; simp [busy, hh, hws]
    · simp [busy, hh, hk, Function.update_of_ne]
  refine ⟨hbusy ▸ hfin.insert t, ?_⟩
  rw [hbusy]
  by_cases ht : b.heldBy t = []
  · rw [Set.ncard_insert_of_notMem (by simpa [busy] using ht) hfin, ht]
    rfl
  · rw [Set.ncard_insert_of_mem ht, List.isEmpty_eq_false_iff.mpr ht]
    rfl

theorem Counted.filled (c : b.Counted) {t : TaskId} {ws : List WorkerId}
    (hh : b'.heldBy = Function.update b.heldBy t ws) (hws : ws ≠ [])
    (hs : b'.scheduled = b.scheduled + (b.heldBy t).isEmpty.toNat)
    (hc : b'.completed = b.completed) : b'.Counted := by
  obtain ⟨hfin, hcount⟩ := busy_filled c.finite hh hws
  refine ⟨hfin, ?_⟩
  rw [hs, hc, hcount, c.scheduled, Nat.add_assoc]

/-- A task that is unassigned or gone afterwards is no longer counted as assigned. -/
theorem Counted.emptied (c : b.Counted) {t : TaskId}
    (hh : b'.heldBy = Function.update b.heldBy t []) (ht : b.heldBy t ≠ [])
    (hsum : b'.scheduled + (b.completed + 1) = b.scheduled + b'.completed) : b'.Counted := by
  have hbusy : b'.busy = b.busy \ {t} := by
    ext k
    by_cases hk : k = t
    · subst hk; simp [busy, hh]
    · simp [busy, hh, hk, Function.update_of_ne]
  have hcount := Set.ncard_sdiff_singleton_add_one (show t ∈ b.busy from ht) c.finite
  have := c.scheduled
  refine ⟨hbusy ▸ c.finite.sdiff, ?_⟩
  rw [hbusy]
  omega

theorem Counted.pos (c : b.Counted) {t : TaskId} (ht : b.heldBy t ≠ []) : 0 < b.scheduled := by
  have := Set.ncard_ne_zero_of_mem (show t ∈ b.busy from ht) c.finite
  have := c.scheduled
  omega

theorem withdraw_ne_nil {ws : List WorkerId} {w : WorkerId} (hnil : ws ≠ []) (hone : ws ≠ [w]) :
    withdraw ws w ≠ [] := by
  by_cases hw : w ∈ ws
  · have hlen := length_withdraw hw
    intro h
    rw [h] at hlen
    obtain ⟨a, rfl⟩ := List.length_eq_one_iff.mp hlen.symm
    exact hone (by rw [List.mem_singleton.mp hw])
  · rwa [withdraw_of_not_mem hw]

theorem heldBy_of_tasks {t : TaskId} {ws : List WorkerId} (h : b.tasks t = some ws) :
    b.heldBy t = ws := by simp [heldBy, h]

theorem Counted.give (c : b.Counted) {w : WorkerId} {t : TaskId}
    (safe : b.CounterSafe (.give w t)) : (b.give w t).Counted := by
  unfold Board.give
  split
  · rename_i v ws hw ht
    refine c.filled (heldBy_setTask _ t (some (ws ++ [w]))) (by simp) ?_ rfl
    rw [heldBy_of_tasks ht]
    exact wrappingAdd_of_lt (safe ws ht)
  · exact c

theorem Counted.report (c : b.Counted) {w : WorkerId} {t : TaskId} {due : Option TaskId}
    (safe : b.CounterSafe (.report w t due)) : (b.report w t due).Counted := by
  unfold Board.report
  split
  · rename_i v ws hw ht
    obtain ⟨hnil, hone⟩ := safe (by rw [hw]; rfl) ws ht
    have hempty : ws.isEmpty.toNat = 0 := by rw [List.isEmpty_eq_false_iff.mpr hnil]; rfl
    refine c.filled (heldBy_setTask _ t (some (withdraw ws w))) (withdraw_ne_nil hnil hone) ?_ rfl
    rw [heldBy_of_tasks ht, hempty]
    exact show wrappingSub 128 b.scheduled 0 = b.scheduled - 0 from
      wrappingSub_of_le (Nat.zero_le _)
  · exact c.same rfl rfl rfl
  · exact c

theorem replaces_same (b : Board) (t : TaskId) (ws : List WorkerId) :
    (ws.foldl (replace t) b).scheduled = b.scheduled ∧
      (ws.foldl (replace t) b).completed = b.completed := by
  induction ws generalizing b with
  | nil => exact ⟨rfl, rfl⟩
  | cons w ws ih => exact ih (replace t b w)

/-- A completed task leaves the queue, and nothing else is assigned otherwise. -/
theorem complete_heldBy {w : WorkerId} {t : TaskId} {ws : List WorkerId} (ht : b.tasks t = some ws) :
    (b.complete w t).heldBy = Function.update b.heldBy t [] ∧
      (b.complete w t).scheduled = b.scheduled ∧ (b.complete w t).completed = b.completed + 1 := by
  simp only [Board.complete, ht]
  obtain ⟨_, hheld⟩ := holds_replaces
    { (b.setTask t none).editWorker w fun h => h.release t with completed := b.completed + 1 } t
    (withdraw ws w)
  obtain ⟨hs, hc⟩ := replaces_same
    { (b.setTask t none).editWorker w fun h => h.release t with completed := b.completed + 1 } t
    (withdraw ws w)
  exact ⟨hheld.trans (heldBy_setTask b t none), hs, hc⟩

theorem Counted.complete (c : b.Counted) {w : WorkerId} {t : TaskId}
    (safe : b.CounterSafe (.complete w t)) : (b.complete w t).Counted := by
  cases ht : b.tasks t with
  | none =>
    rw [Board.complete, ht]
    exact c
  | some ws =>
    obtain ⟨hheld, hs, hc⟩ := complete_heldBy (w := w) ht
    refine c.emptied hheld (by rw [heldBy_of_tasks ht]; exact safe ws ht) ?_
    rw [hs, hc]

/-- The counter covers an assigned task that is abandoned, and stays right. -/
theorem Counted.abandon (c : b.Counted) {w : WorkerId} {t : TaskId} (safe : b.AbandonSafe t) :
    (∀ ws ∈ b.tasks t, (withdraw ws w).isEmpty.toNat ≤ b.scheduled) ∧ (b.abandon w t).Counted := by
  cases ht : b.tasks t with
  | none =>
    rw [Board.abandon, ht]
    exact ⟨by rintro _ ⟨⟩, c⟩
  | some ws =>
    have hb : b.abandon w t = { b.setTask t (some (withdraw ws w)) with
        scheduled := wrappingSub 128 b.scheduled (withdraw ws w).isEmpty.toNat } := by
      simp [Board.abandon, ht]
    have hws : b.heldBy t ≠ [] := by rw [heldBy_of_tasks ht]; exact safe ws ht
    have hpos := c.pos hws
    have hle : (withdraw ws w).isEmpty.toNat ≤ b.scheduled :=
      Nat.le_trans (Bool.toNat_le _) hpos
    refine ⟨by rintro _ ⟨⟩; exact hle, ?_⟩
    rw [hb]
    have hheld := heldBy_setTask b t (some (withdraw ws w))
    rw [Option.getD_some] at hheld
    rw [wrappingSub_of_le hle]
    by_cases hgone : withdraw ws w = []
    · rw [hgone] at hheld ⊢
      refine c.emptied hheld hws ?_
      change b.scheduled - 1 + (b.completed + 1) = b.scheduled + b.completed
      omega
    · have hempty : (withdraw ws w).isEmpty.toNat = 0 := by
        rw [List.isEmpty_eq_false_iff.mpr hgone]; rfl
      rw [hempty]
      refine c.filled hheld hgone ?_ rfl
      rw [List.isEmpty_eq_false_iff.mpr hws]
      rfl

theorem Counted.leave (c : b.Counted) {w : WorkerId} (safe : b.CounterSafe (.leave w)) :
    (b.leave w).Counted := by
  have start : ({ b with workers := Function.update b.workers w none } : Board).Counted :=
    c.same rfl rfl rfl
  exact along_invariant (I := Counted) (g := Board.abandon w)
    (fun _ _ safe c => (c.abandon safe).2) safe start

/-- Every safe move keeps the count right. -/
theorem Counted.move (m : Move) (safe : b.CounterSafe m) (c : b.Counted) : (b.move m).Counted := by
  cases m with
  | give w t => exact c.give safe
  | report w t due => exact c.report safe
  | complete w t => exact c.complete safe
  | leave w => exact c.leave safe
  | useReplacement w | join w subworkers | shrink w n => exact c.same rfl rfl rfl
  | queue t =>
    refine c.same ?_ rfl rfl
    rw [Board.move, heldBy_setTask, Option.getD_some, ← show b.heldBy t = [] from safe,
      Function.update_eq_self]
  | start => exact counted_empty (fun _ => rfl) rfl
  | clear => exact counted_empty (fun _ => rfl) safe
  | forget =>
    refine counted_empty (fun t => ?_) rfl
    cases ht : b.tasks t <;> simp [Board.move, heldBy, ht]

/-- The counter covers what a safe move takes off it. -/
theorem Counted.covers (c : b.Counted) {m : Move} (safe : b.CounterSafe m) : b.Covers m := by
  cases m with
  | report w t due =>
    intro hw ws ht
    rw [List.isEmpty_eq_false_iff.mpr (safe hw ws ht).1]
    exact Nat.zero_le _
  | leave w =>
    have start : ({ b with workers := Function.update b.workers w none } : Board).Counted :=
      c.same rfl rfl rfl
    exact along_imp (I := Counted) (g := Board.abandon w)
      (fun _ _ safe c => (c.abandon safe).2) (fun _ _ safe c => (c.abandon safe).1) safe start
  | _ => trivial

/-- The tasks in the queue. -/
def queued (b : Board) : Set TaskId := {t | (b.tasks t).isSome}

theorem busy_subset_queued (b : Board) : b.busy ⊆ b.queued := by
  intro t ht
  cases hb : b.tasks t with
  | none => exact absurd (show b.heldBy t = [] by simp [heldBy, hb]) ht
  | some ws => simp [queued, hb]

/-- The unassigned tasks of the queue can all be scheduled before the counter is full. -/
structure Room (b : Board) : Prop where
  finite : b.queued.Finite
  room : b.scheduled + b.queued.ncard < 2 ^ 128 + b.busy.ncard

theorem Room.fits (r : b.Room) {t : TaskId} {ws : List WorkerId} (ht : b.tasks t = some ws) :
    b.scheduled + ws.isEmpty.toNat < 2 ^ 128 := by
  have hroom := r.room
  have hsub := b.busy_subset_queued
  by_cases hws : ws = []
  · have hmem : t ∉ b.busy := by simp [busy, heldBy_of_tasks ht, hws]
    have hins : insert t b.busy ⊆ b.queued := Set.insert_subset (by simp [queued, ht]) hsub
    have hcount := Set.ncard_le_ncard hins r.finite
    rw [Set.ncard_insert_of_notMem hmem (r.finite.subset hsub)] at hcount
    have := Bool.toNat_le ws.isEmpty
    omega
  · have hcount := Set.ncard_le_ncard hsub r.finite
    have : ws.isEmpty.toNat = 0 := by rw [List.isEmpty_eq_false_iff.mpr hws]; rfl
    omega

/-- A gift leaves the others their room. -/
theorem Room.give (r : b.Room) (w : WorkerId) (t : TaskId) : (b.give w t).Room := by
  unfold Board.give
  split
  · rename_i v ws hw ht
    have hqueued : ((b.editWorker w fun h => { h with assignments := h.assignments ++ [t] }).setTask
        t (some (ws ++ [w]))).queued = b.queued := by
      ext k
      by_cases hk : k = t
      · subst hk; simp [queued, setTask, ht]
      · simp [queued, setTask, editWorker, Function.update_of_ne hk]
    obtain ⟨_, hcount⟩ := busy_filled (r.finite.subset b.busy_subset_queued)
      (heldBy_setTask (b.editWorker w fun h => { h with assignments := h.assignments ++ [t] }) t
        (some (ws ++ [w]))) (by simp)
    rw [heldBy_of_tasks ht] at hcount
    have hroom := r.room
    refine ⟨hqueued ▸ r.finite, ?_⟩
    change wrappingAdd 128 b.scheduled ws.isEmpty.toNat + Set.ncard (queued (setTask _ _ _)) <
      2 ^ 128 + Set.ncard (busy (setTask _ _ _))
    rw [hqueued, hcount, wrappingAdd_of_lt (r.fits ht)]
    omega
  · exact r

theorem Room.useReplacement (r : b.Room) (w : WorkerId) : (b.move (.useReplacement w)).Room :=
  ⟨r.finite, r.room⟩

/-- A move of the scheduling branch. -/
def Gift (m : Move) : Prop := (∃ w t, m = .give w t) ∨ ∃ w, m = .useReplacement w

theorem gift_of_mem {w : WorkerId} {tasks : List WorkerTask}
    {replacements : List (TaskId × WorkerTask)} {m : Move}
    (hm : m ∈ (tasks.map fun t => .give w t.id) ++
      replacements.flatMap (Scheduler.replacementMoves w)) : Gift m := by
  rcases List.mem_append.mp hm with hm | hm
  · obtain ⟨t, _, rfl⟩ := List.mem_map.mp hm
    exact .inl ⟨w, t.id, rfl⟩
  · obtain ⟨r, _, hm⟩ := List.mem_flatMap.mp hm
    rcases List.mem_cons.mp hm with rfl | hm
    · exact .inr ⟨w, rfl⟩
    · exact .inl ⟨w, r.2.id, List.mem_singleton.mp hm⟩

theorem Room.gift (r : b.Room) {m : Move} (hm : Gift m) : (b.move m).Room := by
  rcases hm with ⟨w, t, rfl⟩ | ⟨w, rfl⟩
  · exact r.give w t
  · exact r.useReplacement w

theorem Room.gifts (r : b.Room) {ms : List Move} (hms : ∀ m ∈ ms, Gift m) :
    (ms.foldl Board.move b).Room :=
  along_invariant (I := Room) (Q := fun _ m => Gift m) (fun _ _ hm r => r.gift hm)
    (along_of_forall fun m hm _ => hms m hm) r

/-- A turn of the scheduling branch that has room is safe. -/
theorem Counted.along_gifts (c : b.Counted) (r : b.Room) {ms : List Move}
    (hms : ∀ m ∈ ms, Gift m) :
    Along Board.move CounterSafe b ms := by
  refine along_of_invariant (I := fun b => b.Counted ∧ b.Room) (fun m hm b hI => ?_) ⟨c, r⟩
  rcases hms m hm with ⟨w, t, rfl⟩ | ⟨w, rfl⟩
  · have safe : b.CounterSafe (.give w t) := fun ws ht => hI.2.fits ht
    exact ⟨safe, hI.1.give safe, hI.2.give w t⟩
  · exact ⟨trivial, hI.1.same rfl rfl rfl, hI.2.useReplacement w⟩

end Board

namespace Scheduler
variable {checks : Bool} {s : Scheduler} {job : ScheduledJob} {e : Event} {out : List Sent}

/-- The number of queued tasks that have assignments. -/
def busyTasks (s : Scheduler) : Nat :=
  s.tasksQueue.heap.countP fun t => (s.tasksQueue.get t).any Task.hasAssignments

theorem board_queued (sound : s.Sound) (job : ScheduledJob) :
    (s.board job).queued.Finite ∧ (s.board job).queued.ncard = s.tasksQueue.heap.length := by
  have hq : (s.board job).queued = (s.tasksQueue.heap.toFinset : Set TaskId) := by
    ext t
    simp [Board.queued, board_tasks, sound.tasks.indexed.mem_iff]
  rw [hq]
  exact ⟨Finset.finite_toSet _, by
    rw [Set.ncard_coe_finset, List.toFinset_card_of_nodup sound.tasks.indexed.nodup]⟩

/-- The counter has room if it has for as many tasks as are queued. -/
theorem room_of_lt (sound : s.Sound)
    (h : job.scheduledTasks + s.tasksQueue.heap.length < 2 ^ 128) : (s.board job).Room := by
  obtain ⟨hfin, hcard⟩ := board_queued sound job
  refine ⟨hfin, ?_⟩
  rw [hcard]
  exact Nat.lt_of_lt_of_le h (Nat.le_add_right _ _)

theorem board_busy (sound : s.Sound) (job : ScheduledJob) :
    (s.board job).busy.ncard = s.busyTasks := by
  have hb : (s.board job).busy = ((s.tasksQueue.heap.filter fun t =>
      (s.tasksQueue.get t).any Task.hasAssignments).toFinset : Set TaskId) := by
    ext t
    cases ht : s.tasksQueue.get t with
    | none => simp [Board.busy, Board.heldBy, board_tasks, ht]
    | some task =>
      have hm : t ∈ s.tasksQueue.heap := (sound.tasks.indexed.mem_iff t).mpr (by simp [ht])
      simp [Board.busy, Board.heldBy, board_tasks, ht, hm, Task.hasAssignments]
  rw [hb, Set.ncard_coe_finset, List.toFinset_card_of_nodup (sound.tasks.indexed.nodup.filter _),
    ← List.countP_eq_length_filter]
  rfl

/-- No move of the event is one that the counter misses. A result finds its task assigned, and
the last one finds no other task assigned. -/
def CounterSafe (s : Scheduler) (job : ScheduledJob) : Event → Prop
  | .worker (.message _ (.result result)) => ∀ task ∈ s.tasksQueue.get result.id,
      task.assignments ≠ [] ∧ (job.completedTasks + 1 = job.totalTasks →
        ∀ t ∈ s.tasksQueue.heap, t ≠ result.id → ∀ other ∈ s.tasksQueue.get t,
          other.assignments = [])
  | .schedule => job.completedTasks + s.tasksQueue.heap.length < 2 ^ 128
  | e => Along Board.move Board.CounterSafe (s.board job) (s.moves job e)

instance (s : Scheduler) (job : ScheduledJob) (e : Event) : Decidable (s.CounterSafe job e) := by
  unfold CounterSafe
  split <;> infer_instance

def CounterStep (s : Scheduler) (e : Event) : Prop := ∀ job ∈ s.scheduledJob, s.CounterSafe job e

instance (s : Scheduler) (e : Event) : Decidable (s.CounterStep e) := by
  unfold CounterStep
  infer_instance

/-- A result that meets the condition makes safe moves. -/
theorem result_safe (c : (s.board job).Counted) {w : WorkerId} {result : WorkerResult}
    (met : s.CounterSafe job (.worker (.message w (.result result)))) (sound : s.Sound) :
    Along Board.move Board.CounterSafe (s.board job)
      (resultMoves (s.board job) job w result.id) := by
  cases ht : s.tasksQueue.get result.id with
  | none =>
    have hb : (s.board job).tasks result.id = none := by rw [board_tasks, ht, Option.map_none]
    simp only [resultMoves, hb, Option.isSome_none, Bool.false_eq_true, ↓reduceIte]
    refine ⟨fun _ ws hws => ?_, trivial⟩
    rw [hb] at hws
    cases hws
  | some task =>
    have hb : (s.board job).tasks result.id = some task.assignments := by
      rw [board_tasks, ht, Option.map_some]
    obtain ⟨hbusy, hlast⟩ := met task ht
    have hsafe : (s.board job).CounterSafe (.complete w result.id) := by
      intro ws hws
      rw [hb, Option.mem_some_iff] at hws
      exact hws ▸ hbusy
    simp only [resultMoves, hb, Option.isSome_some, ↓reduceIte]
    refine ⟨hsafe, ?_⟩
    split
    · rename_i hdone
      refine ⟨?_, trivial⟩
      have hnone : ((s.board job).complete w result.id).busy = ∅ := by
        ext t
        simp only [Board.busy, (Board.complete_heldBy hb).1, Set.mem_ofPred_eq,
          Set.mem_empty_iff_false, iff_false, not_not]
        by_cases hk : t = result.id
        · rw [hk, Function.update_self]
        · rw [Function.update_of_ne hk, Board.heldBy, board_tasks]
          cases hother : s.tasksQueue.get t with
          | none => rfl
          | some other =>
            have hm := (sound.tasks.indexed.mem_iff t).mpr (by simp [hother])
            exact hlast hdone t hm hk other hother
      have := (c.complete hsafe).scheduled
      rwa [hnone, Set.ncard_empty] at this
    · trivial

/-- The moves of a step that meets the condition are safe. -/
theorem CounterStep.along {ms : List Move} (h : s.CounterStep e) (sound : s.Sound)
    (hj : s.scheduledJob = some job) (traces : Traces checks s job e ms)
    (c : (s.board job).Counted) : Along Board.move Board.CounterSafe (s.board job) ms := by
  have hmet := h job hj
  cases traces with
  | idle => trivial
  | event _ hne =>
    unfold CounterSafe at hmet
    split at hmet
    · exact result_safe c hmet sound
    · exact absurd rfl hne
    · exact hmet
  | schedule tasks replacements =>
    obtain ⟨hfin, hcard⟩ := board_queued sound job
    have hmet : job.completedTasks + s.tasksQueue.heap.length < 2 ^ 128 := hmet
    have hcounted := c.scheduled
    refine c.along_gifts ⟨hfin, ?_⟩ fun m hm => Board.gift_of_mem hm
    change (s.board job).completed + _ < _ at hmet
    omega

/-- In every run whose steps the counter does not miss, the scheduled tasks are the completed ones
and the queued ones that have assignments, and no subtraction on the counter goes below zero. -/
theorem run_counter {config : Config} {es : List Event}
    (run : Run (step checks) CounterStep (Scheduler.new config) es out s)
    (hj : s.scheduledJob = some job) :
    job.scheduledTasks = job.completedTasks + s.busyTasks ∧
      ∀ e, s.CounterStep e → Spares (.subOverflow 128) (s.step true e) := by
  have sound := run_sound run
  have c : (s.board job).Counted := by
    refine run_books (Board.counted_empty (fun _ => rfl) rfl) ?_ run job hj
    intro t job e ms sound hj met traces hI
    exact along_invariant (fun _ m safe c => c.move m safe) (met.along sound hj traces hI) hI
  refine ⟨by rw [← board_busy sound job]; exact c.scheduled, fun e met => ?_⟩
  refine step_spares sound (fun h => absurd h (by decide)) (fun h => absurd h (by decide))
    fun job' hj' => ?_
  rw [hj, Option.some.injEq] at hj'
  subst hj'
  by_cases he : e = .schedule
  · exact he ▸ trivial
  · exact along_imp (fun _ m safe c => c.move m safe) (fun _ m safe c _ => c.covers safe)
      (met.along sound hj (show Traces checks s job e _ from .event e he) c) c

/-- Two workers share a task, one completes it, and the other leaves. -/
theorem run_counter_small : ∃ out s job,
    Run (step true) CounterStep (Scheduler.new smallConfig)
      [jobOf 2, tasksOf [0, 1], joinOf 1 2, .schedule, joinOf 2 1, .schedule, resultOf 2 1,
        .worker (.disconnected 1)] out s ∧
      s.scheduledJob = some job ∧ job.scheduledTasks = job.completedTasks + s.busyTasks ∧
      Spares (.subOverflow 128) (s.step true .schedule) := by
  obtain ⟨s, out, run, h⟩ := exists_run (step true) CounterStep (Scheduler.new smallConfig)
    [jobOf 2, tasksOf [0, 1], joinOf 1 2, .schedule, joinOf 2 1, .schedule, resultOf 2 1,
      .worker (.disconnected 1)]
    (fun r => r.1.scheduledJob.isSome && decide (r.1.CounterStep .schedule)) (by decide +kernel)
  rw [Bool.and_eq_true, decide_eq_true_eq] at h
  obtain ⟨job, hj⟩ := Option.isSome_iff_exists.mp h.1
  obtain ⟨counted, spares⟩ := run_counter run hj
  exact ⟨out, s, job, run, hj, counted, spares .schedule h.2⟩

/-- The only worker of a task reports that it misses the library: the task is unassigned, and
stays counted as scheduled. -/
theorem run_counter_fails : ∃ out s job,
    Run (step true) ReportsOwn (Scheduler.new smallConfig)
      [jobOf 2, tasksOf [0], joinOf 1 1, .schedule,
        .worker (.message 1 (.error (.libraryMissing [0] [])))] out s ∧
      s.scheduledJob = some job ∧ job.scheduledTasks ≠ job.completedTasks + s.busyTasks := by
  obtain ⟨s, out, run, h⟩ := exists_run (step true) ReportsOwn (Scheduler.new smallConfig)
    [jobOf 2, tasksOf [0], joinOf 1 1, .schedule,
      .worker (.message 1 (.error (.libraryMissing [0] [])))]
    (fun r => r.1.scheduledJob.any fun job =>
      decide (job.scheduledTasks ≠ job.completedTasks + r.1.busyTasks)) (by decide +kernel)
  obtain ⟨job, hj, hne⟩ := (Option.any_eq_true _ _).mp h
  exact ⟨out, s, job, run, hj, of_decide_eq_true hne⟩

end Scheduler
end GridServer
