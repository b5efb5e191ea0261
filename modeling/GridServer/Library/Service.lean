import Mathlib.Data.List.Nodup
import Mathlib.Data.List.Basic

namespace GridServer.Library

/-- Items that wait in line, of which one at a time is served. Those that have been served are
kept, and one that waits can be withdrawn. -/
structure Service (α : Type) where
  waiting : List α
  serving : Option α
  served : List α

namespace Service
variable {α : Type}

inductive Move (α : Type) where
  | arrive (a : α)
  | withdraw (a : α)
  | take
  | finish
  | stay

/-- What has ever arrived, what was withdrawn, and what has come to be served, in that order. -/
structure Log (α : Type) where
  arrived : List α
  withdrawn : List α
  begun : List α

variable [DecidableEq α]

def apply (s : Service α) : Move α → Service α
  | .arrive a => { s with waiting := s.waiting ++ [a] }
  | .withdraw a => { s with waiting := s.waiting.erase a }
  | .take =>
    match s.serving, s.waiting with
    | none, a :: waiting => { s with waiting := waiting, serving := some a }
    | _, _ => s
  | .finish => { s with serving := none, served := s.served ++ s.serving.toList }
  | .stay => s

namespace Log

def none : Log α := ⟨[], [], []⟩

def record (log : Log α) (s : Service α) : Move α → Log α
  | .arrive a => { log with arrived := log.arrived ++ [a] }
  | .withdraw a => if a ∈ s.waiting then { log with withdrawn := log.withdrawn ++ [a] } else log
  | .take =>
    match s.serving, s.waiting with
    | .none, a :: _ => { log with begun := log.begun ++ [a] }
    | _, _ => log
  | .finish => log
  | .stay => log

@[simp] theorem record_take_arrived (log : Log α) (s : Service α) :
    (log.record s .take).arrived = log.arrived := by
  simp only [record]
  split
  · rfl
  · rfl

@[simp] theorem record_withdraw_arrived (log : Log α) (s : Service α) (a : α) :
    (log.record s (.withdraw a)).arrived = log.arrived := by
  by_cases ha : a ∈ s.waiting
  · simp only [record, if_pos ha]
  · simp only [record, if_neg ha]

/-- What still waits, in the order of arrival. -/
def waiting (log : Log α) : List α :=
  log.arrived.filter fun a => a ∉ log.withdrawn ∧ a ∉ log.begun

end Log

/-- The log tells what the service holds. -/
structure Accounted (log : Log α) (s : Service α) : Prop where
  waiting : s.waiting = log.waiting
  begun : s.served ++ s.serving.toList = log.begun
  withdrawn_arrived : ∀ a ∈ log.withdrawn, a ∈ log.arrived
  begun_arrived : ∀ a ∈ log.begun, a ∈ log.arrived
  apart : ∀ a ∈ log.withdrawn, a ∉ log.begun
  distinct : log.begun.Nodup

variable {log : Log α} {s : Service α} {a : α}

theorem Accounted.none : Accounted (.none : Log α) ⟨[], .none, []⟩ := by
  constructor
  all_goals simp [Log.none, Log.waiting]

theorem Accounted.mem_waiting (c : Accounted log s) :
    a ∈ s.waiting ↔ a ∈ log.arrived ∧ a ∉ log.withdrawn ∧ a ∉ log.begun := by
  simp [c.waiting, Log.waiting]

/-- Whatever arrived and was not withdrawn waits, is served or has been served. -/
theorem Accounted.mem (c : Accounted log s) (ha : a ∈ log.arrived) (hw : a ∉ log.withdrawn) :
    a ∈ s.waiting ∨ s.serving = some a ∨ a ∈ s.served := by
  by_cases hb : a ∈ log.begun
  · rw [← c.begun, List.mem_append, Option.mem_toList] at hb
    exact .inr hb.symm
  · exact .inl (c.mem_waiting.mpr ⟨ha, hw, hb⟩)

theorem Accounted.finish (c : Accounted log s) : Accounted log (s.apply .finish) := by
  refine ⟨c.waiting, ?_, c.withdrawn_arrived, c.begun_arrived, c.apart, c.distinct⟩
  simp [apply, c.begun]

theorem Accounted.arrive (c : Accounted log s) (ha : a ∉ log.arrived) :
    Accounted (log.record s (.arrive a)) (s.apply (.arrive a)) := by
  refine ⟨?_, c.begun, ?_, ?_, c.apart, c.distinct⟩
  · have hw : a ∉ log.withdrawn := fun h => ha (c.withdrawn_arrived a h)
    have hb : a ∉ log.begun := fun h => ha (c.begun_arrived a h)
    simp only [apply, Log.record, Log.waiting, List.filter_append]
    rw [c.waiting, Log.waiting, List.filter_cons_of_pos (by simp [hw, hb])]
    rfl
  · exact fun b hb => List.mem_append_left _ (c.withdrawn_arrived b hb)
  · exact fun b hb => List.mem_append_left _ (c.begun_arrived b hb)

theorem Accounted.withdraw (c : Accounted log s) (distinct : log.arrived.Nodup) :
    Accounted (log.record s (.withdraw a)) (s.apply (.withdraw a)) := by
  by_cases ha : a ∈ s.waiting
  · simp only [Log.record, if_pos ha]
    obtain ⟨harrived, _, hbegun⟩ := c.mem_waiting.mp ha
    have hnodup : s.waiting.Nodup := c.waiting ▸ distinct.filter _
    refine ⟨?_, c.begun, ?_, c.begun_arrived, ?_, c.distinct⟩
    · rw [apply, hnodup.erase_eq_filter, c.waiting, Log.waiting, Log.waiting, List.filter_filter]
      apply List.filter_congr
      intro b _
      by_cases hb : b = a
      · simp [hb]
      · simp [hb]
    · intro b hb
      cases List.mem_append.mp hb with
      | inl hb => exact c.withdrawn_arrived b hb
      | inr hb => exact List.mem_singleton.mp hb ▸ harrived
    · intro b hb
      cases List.mem_append.mp hb with
      | inl hb => exact c.apart b hb
      | inr hb => exact List.mem_singleton.mp hb ▸ hbegun
  · simp only [Log.record, if_neg ha, apply, List.erase_of_not_mem ha]
    exact c

theorem Accounted.take (c : Accounted log s) (distinct : log.arrived.Nodup) :
    Accounted (log.record s .take) (s.apply .take) := by
  unfold Log.record apply
  cases hserving : s.serving with
  | some a => exact c
  | none =>
    cases hwaiting : s.waiting with
    | nil => exact c
    | cons a waiting =>
      obtain ⟨harrived, hwithdrawn, hbegun⟩ := c.mem_waiting.mp (hwaiting ▸ List.mem_cons_self)
      have hnodup : s.waiting.Nodup := c.waiting ▸ distinct.filter _
      have hcons := c.waiting
      rw [hwaiting] at hnodup hcons
      refine ⟨?_, ?_, c.withdrawn_arrived, ?_, ?_, ?_⟩
      · have hfilter : (a :: waiting).filter (fun b => b ≠ a) = waiting := by
          rw [List.filter_cons_of_neg (by simp), List.filter_eq_self]
          intro b hb
          rw [decide_eq_true_eq]
          rintro rfl
          exact (List.nodup_cons.mp hnodup).1 hb
        rw [hcons] at hfilter
        dsimp only
        rw [← hfilter, Log.waiting, Log.waiting, List.filter_filter]
        apply List.filter_congr
        intro b _
        by_cases hb : b = a
        · simp [hb]
        · simp [hb]
      · have hb := c.begun
        rw [hserving] at hb
        simpa using hb
      · intro b hb
        cases List.mem_append.mp hb with
        | inl hb => exact c.begun_arrived b hb
        | inr hb => exact List.mem_singleton.mp hb ▸ harrived
      · intro b hb h
        cases List.mem_append.mp h with
        | inl h => exact c.apart b hb h
        | inr h => exact hwithdrawn (List.mem_singleton.mp h ▸ hb)
      · rw [List.nodup_append]
        refine ⟨c.distinct, List.nodup_singleton a, ?_⟩
        intro b hb b' hb' heq
        rw [List.mem_singleton.mp hb'] at heq
        exact hbegun (heq ▸ hb)

/-- Everything that has not been withdrawn: what has been served, what is being served and what waits,
one after another. -/
def order (s : Service α) : List α := s.served ++ s.serving.toList ++ s.waiting

/-- First come, first served. -/
def Ordered (log : Log α) (s : Service α) : Prop :=
  s.order = log.arrived.filter fun a => a ∉ log.withdrawn

theorem Ordered.finish (o : Ordered log s) : Ordered log (s.apply .finish) := by
  rw [Ordered, ← o]
  simp [order, apply]

theorem Ordered.take (o : Ordered log s) : Ordered (log.record s .take) (s.apply .take) := by
  unfold Log.record apply
  cases hserving : s.serving with
  | some a => exact o
  | none =>
    cases hwaiting : s.waiting with
    | nil => exact o
    | cons a waiting =>
      rw [Ordered, order, hserving, hwaiting] at o
      rw [Ordered, order, ← o]
      simp

theorem Ordered.arrive (o : Ordered log s) (c : Accounted log s) (ha : a ∉ log.arrived) :
    Ordered (log.record s (.arrive a)) (s.apply (.arrive a)) := by
  have hw : a ∉ log.withdrawn := fun h => ha (c.withdrawn_arrived a h)
  rw [Ordered, Log.record, List.filter_append, List.filter_cons_of_pos (by simpa using hw),
    List.filter_nil, ← o, order, order, apply, List.append_assoc _ s.waiting]

theorem Ordered.withdraw (o : Ordered log s) (c : Accounted log s) (distinct : log.arrived.Nodup) :
    Ordered (log.record s (.withdraw a)) (s.apply (.withdraw a)) := by
  by_cases ha : a ∈ s.waiting
  · obtain ⟨_, _, hbegun⟩ := c.mem_waiting.mp ha
    have hnodup : s.waiting.Nodup := c.waiting ▸ distinct.filter _
    have hothers : (s.served ++ s.serving.toList).filter (fun b => b ≠ a) =
        s.served ++ s.serving.toList := by
      rw [List.filter_eq_self, c.begun]
      intro b hb
      rw [decide_eq_true_eq]
      rintro rfl
      exact hbegun hb
    have hall : (log.arrived.filter fun b => b ∉ log.withdrawn).filter (fun b => b ≠ a) =
        log.arrived.filter fun b => b ∉ log.withdrawn ++ [a] := by
      rw [List.filter_filter]
      apply List.filter_congr
      intro b _
      by_cases hb : b = a
      · simp [hb]
      · simp [hb]
    have herase : s.waiting.erase a = s.waiting.filter fun b => b ≠ a := by
      rw [hnodup.erase_eq_filter]
      exact List.filter_congr fun b _ => by simp [bne, beq_eq_decide]
    rw [Ordered, Log.record, if_pos ha, ← hall, ← o, order, order, apply, List.filter_append, hothers,
      herase]
  · rw [Ordered, Log.record, if_neg ha, apply, List.erase_of_not_mem ha]
    exact o

end Service
end GridServer.Library
