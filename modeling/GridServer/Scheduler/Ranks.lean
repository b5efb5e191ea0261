import GridServer.Scheduler.Borrows
import GridServer.Shared.PriorityQueueOrder
import Mathlib.Data.Prod.Lex
import Mathlib.Order.OrderDual

namespace GridServer
open Library

namespace Worker

/-- Workers rank by their free subworkers, then by whether they have the job data. -/
def rank (v : Worker) : Nat ×ₗ Bool := toLex (v.subworkers - v.assignments.length, v.hasJobData)

theorem cmpPriority_decides (checks : Bool) :
    PriorityQueue.Decides (Worker.cmpPriority checks)
      (fun v => v.assignments.length ≤ v.subworkers) Worker.rank := by
  intro a b ha hb
  have hpa : a.priority checks = .ok (a.subworkers - a.assignments.length) := subBits_of_le ha checks
  have hpb : b.priority checks = .ok (b.subworkers - b.assignments.length) := subBits_of_le hb checks
  simp only [cmpPriority, hpa, hpb, ok_bind, except_pure, Except.ok.injEq, rank,
    Prod.Lex.toLex_lt_toLex]
  split
  · rename_i he
    simp [he, Bool.lt_iff]
  · rename_i hne
    simp [hne]

end Worker

namespace Task

/-- Tasks rank the higher the fewer workers have them. -/
def rank (t : Task) : Natᵒᵈ := OrderDual.toDual t.assignments.length

theorem cmpPriority_decides :
    PriorityQueue.Decides Task.cmpPriority (fun _ => True) Task.rank := by
  intro a b _ _
  exact congrArg Except.ok (decide_eq_decide.mpr OrderDual.toDual_lt_toDual.symm)

end Task
end GridServer
