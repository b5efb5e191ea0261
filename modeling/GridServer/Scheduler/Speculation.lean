import GridServer.Scheduler.Ledger

namespace GridServer
open Library

/-- `after` is `before` and some entries that it did not have, each once. -/
def Extends (before after : List TaskId) : Prop :=
  ∃ new, after = before ++ new ∧ new.Nodup ∧ ∀ t ∈ new, t ∉ before

namespace Extends
variable {a b c : List TaskId}

theorem refl (a : List TaskId) : Extends a a := ⟨[], by simp, List.nodup_nil, by simp⟩

/-- What an extension adds is new, and there once. -/
theorem append_iff {new : List TaskId} :
    Extends a (a ++ new) ↔ new.Nodup ∧ ∀ t ∈ new, t ∉ a := by
  constructor
  · rintro ⟨d, he, hd, hda⟩
    rw [List.append_cancel_left he]
    exact ⟨hd, hda⟩
  · exact fun h => ⟨new, rfl, h⟩

theorem single_iff {t : TaskId} : Extends a (a ++ [t]) ↔ t ∉ a := by simp [append_iff]

/-- A list that is extended twice is extended when both steps extend it. -/
theorem trans_iff {d d' : List TaskId} (hb : b = a ++ d) (hc : c = b ++ d') :
    Extends a c ↔ Extends a b ∧ Extends b c := by
  subst hb hc
  rw [List.append_assoc, append_iff, append_iff, ← List.append_assoc, append_iff,
    List.nodup_append]
  constructor
  · rintro ⟨⟨hd, hd', hdd⟩, hnew⟩
    refine ⟨⟨hd, fun t ht => hnew t (List.mem_append_left d' ht)⟩, hd', fun t ht hm => ?_⟩
    rcases List.mem_append.mp hm with hta | htd
    · exact hnew t (List.mem_append_right d ht) hta
    · exact hdd t htd t ht rfl
  · rintro ⟨⟨hd, hda⟩, hd', hdb⟩
    refine ⟨⟨hd, hd', fun t ht t' ht' he => ?_⟩, fun t ht => ?_⟩
    · exact hdb t' ht' (List.mem_append_right a (he ▸ ht))
    · rcases List.mem_append.mp ht with ht | ht
      · exact hda t ht
      · exact fun hta => hdb t ht (List.mem_append_left d hta)

end Extends

namespace Scheduler
variable {checks : Bool} {s s' : Scheduler} {job : ScheduledJob} {g g' : Giving}

/-- None of the next `n` tasks that come to the head of the queue, while each is given to the
worker in turn, lists the worker already. -/
def Giving.Fresh (checks : Bool) : Nat → Giving → Prop
  | 0, _ => True
  | n + 1, g =>
    match g.offered with
    | .ok (some task) => g.worker.value.id ∉ task.value.assignments ∧
        match g.give checks task with
        | .ok g' => Giving.Fresh checks n g'
        | .error _ => True
    | _ => True

instance Giving.Fresh.decidable (checks : Bool) :
    ∀ (n : Nat) (g : Giving), Decidable (Giving.Fresh checks n g)
  | 0, _ => .isTrue trivial
  | n + 1, g => by
    unfold Giving.Fresh
    have := Giving.Fresh.decidable checks n
    split
    · have : ∀ task, Decidable (match g.give checks task with
          | .ok g' => Giving.Fresh checks n g'
          | .error _ => True) := by
        intro task
        split <;> infer_instance
      infer_instance
    · infer_instance

/-- What a gift does to the job and the queue depends on the worker's id only. -/
theorem give_congr {task : RefMut Task} {g₁ : Giving} (h : g'.give checks task = .ok g₁)
    (hj : g'.job = g.job) (hq : g'.tasksQueue = g.tasksQueue)
    (hid : g'.worker.value.id = g.worker.value.id) :
    ∃ g₂, g.give checks task = .ok g₂ ∧ g₁.job = g₂.job ∧ g₁.tasksQueue = g₂.tasksQueue ∧
      g₁.worker.value.id = g₂.worker.value.id := by
  simp only [Giving.give, hj, hq, hid, bind_ok, except_pure, Except.ok.injEq] at h ⊢
  obtain ⟨q, hd, n, hn, rfl⟩ := h
  exact ⟨_, ⟨q, hd, n, hn, rfl⟩, rfl, rfl, rfl⟩

theorem Giving.Fresh.congr {n : Nat} (hj : g'.job = g.job) (hq : g'.tasksQueue = g.tasksQueue)
    (hid : g'.worker.value.id = g.worker.value.id) (h : Giving.Fresh checks n g) :
    Giving.Fresh checks n g' := by
  induction n generalizing g g' with
  | zero => trivial
  | succ n ih =>
    have hoffered : g'.offered = g.offered := by simp only [Giving.offered, hj, hq]
    unfold Giving.Fresh at h ⊢
    rw [hoffered]
    split
    · rename_i task ho
      rw [ho] at h
      refine ⟨hid ▸ h.1, ?_⟩
      split
      · rename_i g₁ hg₁
        obtain ⟨g₂, hg₂, hj₂, hq₂, hid₂⟩ := give_congr hg₁ hj hq hid
        have hrest := h.2
        rw [hg₂] at hrest
        exact ih hj₂ hq₂ hid₂ hrest
      · trivial
    · trivial

/-- One gift adds a task that the worker does not have exactly when the task does not list the
worker. -/
theorem give_extends {q : PriorityQueue Worker} {w : WorkerId} {task : RefMut Task}
    (ready : g.Ready job q w) (ledger : (g.board q.get).Ledger)
    (hv : g.tasksQueue.get task.key = some task.value) (h : g.give checks task = .ok g') :
    (g'.board q.get).Ledger ∧
      (Extends g.worker.value.assignments g'.worker.value.assignments ↔
        g.worker.value.id ∉ task.value.assignments) := by
  obtain ⟨_, hb, _, _, hw⟩ := give_refines ready hv h
  refine ⟨hb ▸ ledger.give w task.key, ?_⟩
  have hheld : (g.board q.get).heldBy task.key = task.value.assignments := by
    simp [Board.heldBy, Giving.board, Board.of, hv]
  have hholds : (g.board q.get).holds w = g.worker.value.assignments := by
    simp [Board.holds, Giving.board, Board.of, ready.key, Worker.holder]
  have hcount := ledger w task.key
  rw [hheld, hholds] at hcount
  rw [hw, ready.id]
  simp only
  rw [Extends.single_iff, ← List.count_eq_zero, ← List.count_eq_zero, hcount]

theorem giveTasks_extends {q : PriorityQueue Worker} {w : WorkerId} {n m : Nat}
    {tasks tasks' : List WorkerTask} (ready : g.Ready job q w) (ledger : (g.board q.get).Ledger)
    (h : giveTasks checks n g tasks = .ok (g', tasks')) :
    (g'.board q.get).Ledger ∧ (Giving.Fresh checks (n + m) g ↔
      Extends g.worker.value.assignments g'.worker.value.assignments ∧
        Giving.Fresh checks m g') := by
  induction n generalizing g tasks with
  | zero =>
    simp only [giveTasks, Except.ok.injEq, Prod.mk.injEq] at h
    obtain ⟨rfl, rfl⟩ := h
    rw [Nat.zero_add]
    exact ⟨ledger, fun h => ⟨.refl _, h⟩, And.right⟩
  | succ n ih =>
    rcases giveTasks_succ h with ⟨ho, rfl, rfl⟩ | ⟨task, g₁, ho, h₁, h⟩
    · rw [Nat.add_right_comm, Giving.Fresh, ho]
      refine ⟨ledger, fun _ => ⟨.refl _, ?_⟩, fun _ => trivial⟩
      cases m with
      | zero => trivial
      | succ m =>
        have hstop : Giving.offered { g with needSchedule := false } = .ok none := ho
        rw [Giving.Fresh, hstop]
        trivial
    · rw [Nat.add_right_comm, Giving.Fresh, ho]
      obtain ⟨_, _, hv, _⟩ := Giving.offered_some ho
      obtain ⟨ready₁, _, _, _, hw₁⟩ := give_refines ready hv h₁
      obtain ⟨ledger₁, hext⟩ := give_extends ready ledger hv h₁
      obtain ⟨ledger', hrest⟩ := ih ready₁ ledger₁ h
      obtain ⟨given, _, _, _, _, hw, _⟩ := giveTasks_refines ready₁ h
      refine ⟨ledger', ?_⟩
      simp only [h₁]
      rw [hrest, ← hext, ← and_assoc,
        ← Extends.trans_iff (by rw [hw₁]) (by rw [hw])]

theorem giveReplacements_extends {q : PriorityQueue Worker} {w : WorkerId} {n : Nat}
    {rs rs' : List (TaskId × WorkerTask)} (ready : g.Ready job q w)
    (ledger : (g.board q.get).Ledger) (hn : n ≤ g.worker.value.replacements.length)
    (h : giveReplacements checks n g rs = .ok (g', rs')) :
    Giving.Fresh checks n g ↔
      Extends g.worker.value.assignments g'.worker.value.assignments := by
  induction n generalizing g rs with
  | zero =>
    simp only [giveReplacements, Except.ok.injEq, Prod.mk.injEq] at h
    obtain ⟨rfl, rfl⟩ := h
    exact ⟨fun _ => .refl _, fun _ => trivial⟩
  | succ n ih =>
    rcases giveReplacements_succ h with ⟨ho, rfl, rfl⟩ | ⟨task, g₀, ho, rfl, hnext⟩
    · rw [Giving.Fresh, ho]
      exact ⟨fun _ => .refl _, fun _ => trivial⟩
    · rw [Giving.Fresh, ho]
      obtain ⟨_, _, hv, _⟩ := Giving.offered_some ho
      obtain ⟨ready₀, hb₀⟩ := popped_refines ready
      have ledger₀ := hb₀ ▸ ledger.move (.useReplacement w) trivial
      rcases hnext with ⟨due, g₁, _, h₁, h⟩ | ⟨hempty, h⟩
      · obtain ⟨ready₁, _, _, _, hw₁⟩ := give_refines ready₀ hv h₁
        obtain ⟨ledger₁, hext⟩ := give_extends ready₀ ledger₀ hv h₁
        obtain ⟨g₂, h₂, hj₂, hq₂, hid₂⟩ := give_congr (g := g) h₁ rfl rfl rfl
        have hn₁ : n ≤ g₁.worker.value.replacements.length := by
          rw [hw₁]
          simp only [RefMut.derefMut_value, List.length_dropLast]
          omega
        have hrest := ih ready₁ ledger₁ hn₁ h
        obtain ⟨given, _, _, _, _, _, _, hw, _⟩ := giveReplacements_refines ready₁ hn₁ h
        have hsame : Giving.Fresh checks n g₂ ↔ Giving.Fresh checks n g₁ :=
          ⟨Giving.Fresh.congr hj₂ hq₂ hid₂, Giving.Fresh.congr hj₂.symm hq₂.symm hid₂.symm⟩
        have hpre : g₁.worker.value.assignments = g.worker.value.assignments ++ [task.key] := by
          rw [hw₁]
          rfl
        have hpost : g'.worker.value.assignments = g₁.worker.value.assignments ++
            given.map fun r => r.2.id := by rw [hw]
        simp only [h₂]
        rw [hsame, hrest, Extends.trans_iff hpre hpost]
        exact and_congr_left fun _ => hext.symm
      · rw [List.getLast?_eq_none_iff.mp hempty] at hn
        exact absurd hn (Nat.not_succ_le_zero n)

/-- The tasks that come up in a turn of the scheduling branch, as many as the worker at the head
accepts and is due, do not list that worker when they come up. -/
def SpeculationSafe (checks : Bool) (s : Scheduler) : Prop :=
  ∀ job ∈ s.scheduledJob,
    match s.workersQueue.peekMut with
    | .ok (some worker) =>
      match worker.value.canAccept checks with
      | .ok n => Giving.Fresh checks (n + worker.value.needReplace)
          ⟨job, s.tasksQueue, worker, s.needSchedule⟩
      | .error _ => True
    | _ => True

instance (checks : Bool) (s : Scheduler) : Decidable (s.SpeculationSafe checks) := by
  unfold SpeculationSafe
  split
  · split <;> infer_instance
  · infer_instance

/-- A turn that asks a worker for tasks asks for tasks that it does not have, each once, exactly
when it meets the condition. -/
theorem processScheduling_named {out : List Sent} (sound : s.Sound) (ledger : s.Ledger)
    (h : s.processScheduling checks = .ok (s', out)) {node : Node} {w : WorkerId}
    {request : WorkerRequest} (sent : .node node w request ∈ out) :
    ∃ v, s.workersQueue.get w = some v ∧ ((request.named.Nodup ∧
      ∀ t ∈ request.named, t ∉ v.assignments) ↔ s.SpeculationSafe checks) := by
  cases hj : s.scheduledJob with
  | none =>
    obtain ⟨rfl, rfl⟩ := processScheduling_idle hj h
    cases sent
  | some job =>
    rcases processScheduling_cases hj h with ⟨_, rfl, _⟩ |
      ⟨k, v, n, g₁, tasks, g₂, replacements, workersQueue, hk, hv, hn, _, h₁, h₂, _, _, rfl⟩
    · cases sent
    have ready : Giving.Ready job s.workersQueue k
        ⟨job, s.tasksQueue, ⟨k, v, false⟩, s.needSchedule⟩ :=
      ⟨.refl job, rfl, sound.tasks, rfl, sound.workers.keyed k v hv, RefMut.of_get hv⟩
    have hstart : (Giving.board s.workersQueue.get
        ⟨job, s.tasksQueue, ⟨k, v, false⟩, s.needSchedule⟩).Ledger := by
      rw [Giving.board, ← hv, Function.update_eq_self]
      exact board_ledger.mpr ledger
    obtain ⟨given, hgiven, _, ready₁, _, hw₁, _⟩ := giveTasks_refines ready h₁
    obtain ⟨given', kept, hgiven', _, ready₂, _, _, hw₂, _⟩ :=
      giveReplacements_refines ready₁ (Nat.le_refl _) h₂
    rw [List.nil_append] at hgiven hgiven'
    subst hgiven hgiven'
    -- the request goes to the worker at the head, and names what was given out
    have hrequest : w = k ∧ request.named = tasks.map WorkerTask.id ++
        replacements.map fun r => r.2.id := by
      unfold dispatch at sent
      split at sent
      · unfold sendNode at sent
        split at sent
        · obtain ⟨_, rfl, rfl⟩ := Sent.node.inj (List.mem_singleton.mp sent)
          refine ⟨?_, rfl⟩
          rw [(jobDataFor_worker _ _).2]
          exact ready₂.id
        · cases sent
      · cases sent
    obtain ⟨rfl, hnamed⟩ := hrequest
    refine ⟨v, hv, ?_⟩
    have hdue : v.needReplace = g₁.worker.value.replacements.length := by rw [hw₁]; rfl
    obtain ⟨ledger₁, htasks⟩ := giveTasks_extends (m := v.needReplace) ready hstart h₁
    have hreplacements := giveReplacements_extends ready₁ ledger₁ (Nat.le_refl _) h₂
    have hpre : g₁.worker.value.assignments = v.assignments ++ tasks.map WorkerTask.id := by
      rw [hw₁]
    have hpost : g₂.worker.value.assignments = g₁.worker.value.assignments ++
        replacements.map fun r => r.2.id := by rw [hw₂]
    have hsafe : s.SpeculationSafe checks ↔ Giving.Fresh checks (n + v.needReplace)
        ⟨job, s.tasksQueue, ⟨w, v, false⟩, s.needSchedule⟩ := by
      unfold SpeculationSafe
      rw [hj, PriorityQueue.peekMut_of hk hv]
      simp [hn]
    rw [hsafe, htasks, hdue, hreplacements, ← Extends.trans_iff hpre hpost, hpost, hpre,
      List.append_assoc, Extends.append_iff, hnamed]

/-- The requests a call of `process_scheduling` sends. -/
def requests (s : Scheduler) (checks : Bool) : List (Node × WorkerId × WorkerRequest) :=
  match s.processScheduling checks with
  | .ok (_, sent) => sent.filterMap fun
    | .node node w request => some (node, w, request)
    | _ => none
  | .error _ => []

theorem mem_requests {node : Node} {w : WorkerId} {request : WorkerRequest}
    (h : (node, w, request) ∈ s.requests checks) :
    ∃ s' sent, s.processScheduling checks = .ok (s', sent) ∧ .node node w request ∈ sent := by
  unfold requests at h
  split at h
  · rename_i s' sent hs
    obtain ⟨m, hm, he⟩ := List.mem_filterMap.mp h
    cases m with
    | node node' w' request' =>
      simp only [Option.some.injEq, Prod.mk.injEq] at he
      obtain ⟨rfl, rfl, rfl⟩ := he
      exact ⟨s', sent, hs, hm⟩
    | _ => cases he
  · cases h

end Scheduler
end GridServer
