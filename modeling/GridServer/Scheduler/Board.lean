import GridServer.Library.Ledger
import GridServer.Scheduler.Handlers

namespace GridServer
open Library

/-- What the books say of a worker. -/
structure Holder where
  subworkers : Nat
  assignments : List TaskId
  replacements : List TaskId
deriving DecidableEq, Repr

/-- The scheduler's books, without the order its queues keep: who has which queued task, and the
two counters that follow from it. -/
structure Board where
  tasks : TaskId → Option (List WorkerId)
  workers : WorkerId → Option Holder
  scheduled : Nat
  completed : Nat

/-- What can happen to the books. `due` is a task the worker is to have replaced from now on. -/
inductive Move where
  | give (w : WorkerId) (t : TaskId)
  | useReplacement (w : WorkerId)
  | report (w : WorkerId) (t : TaskId) (due : Option TaskId)
  | complete (w : WorkerId) (t : TaskId)
  | leave (w : WorkerId)
  | join (w : WorkerId) (subworkers : Nat)
  | queue (t : TaskId)
  | shrink (w : WorkerId) (n : Nat)
  | start
  | clear
  | forget
deriving DecidableEq, Repr

/-- The removal at the position that another list gave. -/
def Holder.releaseFinished (h : Holder) (t : TaskId) : Holder :=
  { h with assignments := ((h.replacements.idxOf? t).bind (swapRemove h.assignments)).getD h.assignments }

def Holder.release (h : Holder) (t : TaskId) : Holder :=
  { h with assignments := withdraw h.assignments t }

def Holder.addReplacement (h : Holder) (t : TaskId) : Holder :=
  { h with replacements := h.replacements ++ [t] }

namespace Board

def holds (b : Board) (w : WorkerId) : List TaskId := (b.workers w).elim [] Holder.assignments

def heldBy (b : Board) (t : TaskId) : List WorkerId := (b.tasks t).getD []

/-- Change a worker's entry, where there is one. -/
def editWorker (b : Board) (w : WorkerId) (f : Holder → Holder) : Board :=
  { b with workers := Function.update b.workers w ((b.workers w).map f) }

def setTask (b : Board) (t : TaskId) (ws : Option (List WorkerId)) : Board :=
  { b with tasks := Function.update b.tasks t ws }

@[simp] theorem holds_setTask (b : Board) (t : TaskId) (ws : Option (List WorkerId)) :
    (b.setTask t ws).holds = b.holds := rfl

@[simp] theorem heldBy_editWorker (b : Board) (w : WorkerId) (f : Holder → Holder) :
    (b.editWorker w f).heldBy = b.heldBy := rfl

theorem heldBy_setTask (b : Board) (t : TaskId) (ws : Option (List WorkerId)) :
    (b.setTask t ws).heldBy = Function.update b.heldBy t (ws.getD []) := by
  funext k
  by_cases hk : k = t
  · subst hk; simp [heldBy, setTask]
  · simp [heldBy, setTask, Function.update_of_ne hk]

/-- An edit that maps assignments by `g`, which keeps an empty list, acts on what is held. -/
theorem holds_editWorker (b : Board) (w : WorkerId) {f : Holder → Holder}
    (g : List TaskId → List TaskId) (hf : ∀ h, (f h).assignments = g h.assignments)
    (hg : b.workers w = none → g [] = []) :
    (b.editWorker w f).holds = Function.update b.holds w (g (b.holds w)) := by
  funext k
  by_cases hk : k = w
  · subst hk
    cases h : b.workers k with
    | none => simp [holds, editWorker, h, hg h]
    | some v => simp [holds, editWorker, h, hf]
  · simp [holds, editWorker, Function.update_of_ne hk]

def give (b : Board) (w : WorkerId) (t : TaskId) : Board :=
  match b.workers w, b.tasks t with
  | some _, some ws =>
    { (b.editWorker w fun h => { h with assignments := h.assignments ++ [t] }).setTask t
        (some (ws ++ [w])) with
      scheduled := wrappingAdd 128 b.scheduled ws.isEmpty.toNat }
  | _, _ => b

def report (b : Board) (w : WorkerId) (t : TaskId) (due : Option TaskId) : Board :=
  match b.workers w, b.tasks t with
  | some _, some ws =>
    { (b.editWorker w fun h => due.elim (h.release t) (h.release t).addReplacement).setTask t
        (some (withdraw ws w)) with
      scheduled := wrappingSub 128 b.scheduled ws.isEmpty.toNat }
  | some _, none => b.editWorker w fun h => h.releaseFinished t
  | none, _ => b

/-- One other worker of a completed task. -/
def replace (t : TaskId) (b : Board) (w : WorkerId) : Board :=
  b.editWorker w fun h => (h.release t).addReplacement t

def complete (b : Board) (w : WorkerId) (t : TaskId) : Board :=
  match b.tasks t with
  | some ws =>
    (withdraw ws w).foldl (replace t)
      { (b.setTask t none).editWorker w fun h => h.release t with completed := b.completed + 1 }
  | none => b

/-- One assignment of a worker that left. -/
def abandon (w : WorkerId) (b : Board) (t : TaskId) : Board :=
  match b.tasks t with
  | some ws =>
    { b.setTask t (some (withdraw ws w)) with
      scheduled := wrappingSub 128 b.scheduled (withdraw ws w).isEmpty.toNat }
  | none => b

def leave (b : Board) (w : WorkerId) : Board :=
  (b.holds w).foldl (abandon w) { b with workers := Function.update b.workers w none }

def move (b : Board) : Move → Board
  | .give w t => b.give w t
  | .useReplacement w => b.editWorker w fun h => { h with replacements := h.replacements.dropLast }
  | .report w t due => b.report w t due
  | .complete w t => b.complete w t
  | .leave w => b.leave w
  | .join w subworkers =>
    { b with workers := Function.update b.workers w (some ⟨subworkers, [], []⟩) }
  | .queue t => b.setTask t (some [])
  | .shrink w n => b.editWorker w fun h => { h with subworkers := wrappingSub 64 h.subworkers n }
  | .start => ⟨fun _ => none, fun _ => none, 0, 0⟩
  | .clear => { b with tasks := fun _ => none, workers := fun _ => none }
  | .forget =>
    { b with
      tasks := fun t => (b.tasks t).map fun _ => []
      workers := fun _ => none
      scheduled := b.completed }

end Board

def Worker.holder (w : Worker) : Holder := ⟨w.subworkers, w.assignments, w.replacements⟩

/-- The books of two tables of queue entries. -/
def Board.of (tasks : TaskId → Option Task) (workers : WorkerId → Option Worker)
    (job : ScheduledJob) : Board :=
  { tasks := fun t => (tasks t).map Task.assignments
    workers := fun w => (workers w).map Worker.holder
    scheduled := job.scheduledTasks
    completed := job.completedTasks }

def Scheduler.board (s : Scheduler) (job : ScheduledJob) : Board :=
  .of s.tasksQueue.get s.workersQueue.get job

end GridServer
