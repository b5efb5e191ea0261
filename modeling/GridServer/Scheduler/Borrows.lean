import GridServer.Scheduler.Board
import GridServer.Shared.PriorityQueueIndex

namespace GridServer
open Library

/-- A queue that files every value under its own id. -/
structure Keyed {V : Type} (id : V → Nat) (q : PriorityQueue V) : Prop where
  indexed : q.Indexed
  keyed : ∀ k v, q.get k = some v → id v = k

namespace Keyed
variable {V : Type} {id : V → Nat} {q q' : PriorityQueue V}

theorem update (h : Keyed id q) (indexed : q'.Indexed) {k : Nat} {o : Option V}
    (get : q'.get = Function.update q.get k o) (key : ∀ v, o = some v → id v = k) :
    Keyed id q' := by
  refine ⟨indexed, ?_⟩
  intro k' v hv
  rw [get] at hv
  by_cases hk : k' = k
  · subst hk
    rw [Function.update_self] at hv
    exact key v hv
  · rw [Function.update_of_ne hk] at hv
    exact h.keyed k' v hv

@[simp] theorem new : Keyed id (PriorityQueue.new : PriorityQueue V) :=
  ⟨PriorityQueue.indexed_new, by simp⟩

@[simp] theorem clear : Keyed id q.clear := ⟨PriorityQueue.indexed_clear q, by simp⟩

end Keyed

namespace RefMut

/-- `r` borrows an entry of `q`, and differs from it only if it was reached through
`deref_mut`. -/
structure Of {V : Type} (q : PriorityQueue V) (r : RefMut V) : Prop where
  present : (q.get r.key).isSome
  clean : r.modified = false → q.get r.key = some r.value

section Generic
variable {V : Type} {q : PriorityQueue V}

theorem of_get {k : Nat} {v : V} (h : q.get k = some v) : Of q ⟨k, v, false⟩ :=
  ⟨by simp [h], fun _ => h⟩

theorem Of.derefMut {r : RefMut V} (h : Of q r) (value : V) : Of q (r.derefMut value) :=
  ⟨h.present, by simp [RefMut.derefMut]⟩

@[simp] theorem derefMut_key (r : RefMut V) (value : V) : (r.derefMut value).key = r.key := rfl

@[simp] theorem derefMut_value (r : RefMut V) (value : V) : (r.derefMut value).value = value := rfl

/-- Dropping a borrow puts its value back, under the same key. -/
theorem Of.drop {id : V → Nat} {cmp : V → V → Except Fault Bool} {r : RefMut V}
    {q' : PriorityQueue V} (h : Of q r) (hq : Keyed id q) (hid : id r.value = r.key)
    (hd : q.dropRefMut cmp r = .ok q') :
    Keyed id q' ∧ q'.get = Function.update q.get r.key (some r.value) := by
  obtain ⟨hi, hget⟩ := PriorityQueue.dropRefMut_content hq.indexed h.present h.clean hd
  exact ⟨hq.update hi hget (by rintro v ⟨⟩; exact hid), hget⟩

theorem Of.dropPeek {id : V → Nat} {cmp : V → V → Except Fault Bool} {r : RefMut V}
    {q' : PriorityQueue V} (h : Of q r) (hq : Keyed id q) (hid : id r.value = r.key)
    (hd : q.dropPeekMut cmp r = .ok q') :
    Keyed id q' ∧ q'.get = Function.update q.get r.key (some r.value) := by
  obtain ⟨hi, hget⟩ := PriorityQueue.dropPeekMut_content hq.indexed h.present h.clean hd
  exact ⟨hq.update hi hget (by rintro v ⟨⟩; exact hid), hget⟩

end Generic

section Tasks
variable {q : PriorityQueue Task} {r : RefMut Task}

theorem releaseWorker_eq (r : RefMut Task) (w : WorkerId) :
    r.releaseWorker w = r ∧ w ∉ r.value.assignments ∨
      r.releaseWorker w =
        r.derefMut { r.value with assignments := withdraw r.value.assignments w } := by
  unfold releaseWorker
  cases h : removeFirst r.value.assignments w with
  | some ws => exact .inr (by rw [withdraw_of_some h])
  | none => exact .inl ⟨rfl, removeFirst_none_iff.mp h⟩

@[simp] theorem releaseWorker_key (r : RefMut Task) (w : WorkerId) :
    (r.releaseWorker w).key = r.key := by
  rcases releaseWorker_eq r w with ⟨h, _⟩ | h
  · rw [h]
  · rw [h]; rfl

@[simp] theorem releaseWorker_value (r : RefMut Task) (w : WorkerId) :
    (r.releaseWorker w).value =
      { r.value with assignments := withdraw r.value.assignments w } := by
  rcases releaseWorker_eq r w with ⟨h, hm⟩ | h
  · rw [h, withdraw_of_not_mem hm]
  · rw [h]; rfl

theorem Of.releaseWorker (h : Of q r) (w : WorkerId) : Of q (r.releaseWorker w) := by
  rcases releaseWorker_eq r w with ⟨he, _⟩ | he <;> rw [he]
  · exact h
  · exact h.derefMut _

end Tasks

section Workers
variable {q : PriorityQueue Worker} {r r' : RefMut Worker}

theorem releaseTask_eq (r : RefMut Worker) (t : TaskId) :
    r.releaseTask t = r ∧ t ∉ r.value.assignments ∨
      r.releaseTask t =
        r.derefMut { r.value with assignments := withdraw r.value.assignments t } := by
  unfold releaseTask
  cases h : removeFirst r.value.assignments t with
  | some ts => exact .inr (by rw [withdraw_of_some h])
  | none => exact .inl ⟨rfl, removeFirst_none_iff.mp h⟩

@[simp] theorem releaseTask_key (r : RefMut Worker) (t : TaskId) :
    (r.releaseTask t).key = r.key := by
  rcases releaseTask_eq r t with ⟨h, _⟩ | h
  · rw [h]
  · rw [h]; rfl

@[simp] theorem releaseTask_value (r : RefMut Worker) (t : TaskId) :
    (r.releaseTask t).value =
      { r.value with assignments := withdraw r.value.assignments t } := by
  rcases releaseTask_eq r t with ⟨h, hm⟩ | h
  · rw [h, withdraw_of_not_mem hm]
  · rw [h]; rfl

theorem Of.releaseTask (h : Of q r) (t : TaskId) : Of q (r.releaseTask t) := by
  rcases releaseTask_eq r t with ⟨he, _⟩ | he <;> rw [he]
  · exact h
  · exact h.derefMut _

@[simp] theorem addReplacement_key (r : RefMut Worker) (t : TaskId) :
    (r.addReplacement t).key = r.key := rfl

@[simp] theorem addReplacement_value (r : RefMut Worker) (t : TaskId) :
    (r.addReplacement t).value =
      { r.value with replacements := r.value.replacements ++ [t] } := rfl

theorem Of.addReplacement (h : Of q r) (t : TaskId) : Of q (r.addReplacement t) := h.derefMut _

/-- The removal that goes by another list's position changes at most the assignments. -/
theorem releaseFinished_ok {t : TaskId} (h : r.releaseFinished t = .ok r') :
    r'.key = r.key ∧ (∃ ts, r'.value = { r.value with assignments := ts }) ∧
      r'.value.holder = r.value.holder.releaseFinished t ∧
      (Of q r → Of q r') := by
  unfold releaseFinished at h
  split at h
  · rename_i pos hpos
    split at h
    · rename_i ts hts
      rw [Except.ok.injEq] at h
      subst h
      refine ⟨rfl, ⟨ts, rfl⟩, ?_, fun h => h.derefMut _⟩
      simp [Worker.holder, Holder.releaseFinished, hpos, hts]
    · cases h
  · rename_i hpos
    rw [Except.ok.injEq] at h
    subst h
    refine ⟨rfl, ⟨_, rfl⟩, ?_, id⟩
    simp [Worker.holder, Holder.releaseFinished, hpos]

end Workers
end RefMut

/-- The number a task carries in its own data. -/
def Task.key (t : Task) : TaskId := t.taskData.id

/-- Tasks and workers are filed under their own ids, and the job's count of completed tasks fits
its type. -/
structure Scheduler.Sound (s : Scheduler) : Prop where
  tasks : Keyed Task.key s.tasksQueue
  workers : Keyed Worker.id s.workersQueue
  completed : ∀ job, s.scheduledJob = some job → job.completedTasks < 2 ^ 128

end GridServer
