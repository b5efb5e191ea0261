import GridServer.Scheduler.Ranks
import GridServer.Shared.PriorityQueueRuns

namespace GridServer
open Library

@[simp] theorem compare_false_true : compare false true = .lt := rfl

@[simp] theorem compare_true_false : compare true false = .gt := rfl

/-- A comparison that answers on good values, the other way round for the values exchanged, and
whose answers put them in one order. -/
structure TotalPreorder {V : Type} (good : V → Prop) (answers : V → V → Ordering → Prop) :
    Prop where
  total : ∀ a b, good a → good b → ∃ o, answers a b o ∧ answers b a o.swap
  trans : ∀ a b c o o', good a → good b → good c → answers a b o → o.isLE = true →
    answers b c o' → o'.isLE = true → ∃ o'', answers a c o'' ∧ o''.isLE = true

/-- A comparison of good values by two keys, the second of which decides between equals. -/
theorem TotalPreorder.of_keys {V κ κ' : Type} [LinearOrder κ] [LinearOrder κ'] {good : V → Prop}
    {answers : V → V → Ordering → Prop} (first : V → κ) (second : V → κ')
    (tells : ∀ a b o, good a → good b → (answers a b o ↔
      o = (compare (first a) (first b)).then (compare (second a) (second b)))) :
    TotalPreorder good answers := by
  have cmp : Std.TransCmp fun a b : V =>
      (compare (first a) (first b)).then (compare (second a) (second b)) :=
    inferInstanceAs (Std.TransCmp (compareLex (compareOn first) (compareOn second)))
  refine ⟨?_, ?_⟩
  · intro a b ha hb
    refine ⟨_, (tells a b _ ha hb).mpr rfl, ?_⟩
    rw [tells b a _ hb ha]
    exact (cmp.eq_swap (a := b) (b := a)).symm
  · intro a b c o o' ha hb hc hab hle hbc hle'
    rw [tells a b o ha hb] at hab
    rw [tells b c o' hb hc] at hbc
    subst hab hbc
    exact ⟨_, (tells a c _ ha hc).mpr rfl, cmp.isLE_trans hle hle'⟩

namespace PriorityQueue
variable {V κ : Type} [LinearOrder κ] {cmp : V → V → Except Fault Bool} {good : V → Prop}
  {rank : V → κ} {q : PriorityQueue V}

/-- A push of a good value, a pop or a remove. -/
def Operation.Plain (good : V → Prop) : Operation V → Prop
  | .push _ priority => good priority
  | .pop | .remove _ => True
  | _ => False

/-- A queue of good values in heap order. -/
structure Ranked (good : V → Prop) (rank : V → κ) (q : PriorityQueue V) : Prop where
  indexed : q.Indexed
  good : AllGood good q
  ordered : HeapOrdered rank q

theorem ranked_new : Ranked good rank (new : PriorityQueue V) :=
  ⟨indexed_new, by simp [AllGood], ordered_of_length_le (Nat.zero_le 1)⟩

theorem Ranked.operate (dec : Decides cmp good rank) (h : Ranked good rank q) {op : Operation V}
    (plain : op.Plain good) :
    ∃ q' taken, q.operate cmp op = .ok (q', taken) ∧ Ranked good rank q' := by
  cases op with
  | push id priority =>
    obtain ⟨q', old, hpush, ordered⟩ : ∃ q' old, q.push cmp id priority = .ok (q', old) ∧
        HeapOrdered rank q' := push_ordered dec h.indexed h.good plain h.ordered
    obtain ⟨indexed, hget⟩ := push_content h.indexed hpush
    refine ⟨q', [], by simp [PriorityQueue.operate, hpush], indexed, ?_, ordered⟩
    refine h.good.update hget ?_
    intro v hv
    exact Option.some.inj hv ▸ plain
  | pop =>
    obtain ⟨q', r, hpop, ordered⟩ := pop_ordered dec h.indexed h.good h.ordered
    refine ⟨q', r.toList, by simp [PriorityQueue.operate, hpop], ?_⟩
    rcases pop_content h.indexed hpop with ⟨_, rfl, _⟩ | ⟨_, _, _, _, _, indexed, hget⟩
    · exact h
    · exact ⟨indexed, h.good.update hget (by simp), ordered⟩
  | remove id =>
    obtain ⟨q', r, hremove, ordered⟩ : ∃ q' r, q.remove cmp id = .ok (q', r) ∧
        HeapOrdered rank q' := remove_ordered dec h.indexed h.good h.ordered
    refine ⟨q', r.toList, by simp [PriorityQueue.operate, hremove], ?_⟩
    rcases remove_content h.indexed hremove with ⟨_, rfl, _⟩ | ⟨_, _, _, indexed, hget⟩
    · exact h
    · exact ⟨indexed, h.good.update hget (by simp), ordered⟩
  | changePriority | changePriorityBy | peekMut | clear => exact plain.elim

theorem run_ranked (dec : Decides cmp good rank) (ops : List (Operation V))
    (plain : ∀ op ∈ ops, op.Plain good) :
    ∃ q taken, Run (operate cmp) (fun _ _ => True) new ops taken q ∧ Ranked good rank q := by
  induction ops using List.reverseRecOn with
  | nil => exact ⟨new, [], .nil, ranked_new⟩
  | append_singleton ops op ih =>
    obtain ⟨q, taken, run, h⟩ := ih fun op hop => plain op (List.mem_append_left _ hop)
    obtain ⟨q', taken', hop, h'⟩ :=
      h.operate dec (plain op (List.mem_append_right _ List.mem_cons_self))
    exact ⟨q', _, run.snoc trivial hop, h'⟩

/-- The entry at the head ranks highest. -/
theorem Ranked.peek (h : Ranked good rank q) :
    (q.peek = .ok none ∧ ∀ id, q.get id = none) ∨
      ∃ id v, q.peek = .ok (some (id, v)) ∧ q.get id = some v ∧
        ∀ k w, q.get k = some w → rank w ≤ rank v := by
  rcases h.indexed.peek with hnone | ⟨id, v, hpeek, hid, hv⟩
  · exact .inl hnone
  · refine .inr ⟨id, v, hpeek, hv, ?_⟩
    intro k w hw
    exact h.ordered.root_max h.indexed hid hv hw

end PriorityQueue

namespace Worker

/-- `PartialOrd`. -/
def partialCmp (checks : Bool) (a b : Worker) : Except Fault (Option Ordering) := do
  let own ← a.priority checks
  let other ← b.priority checks
  return match compare own other with
    | .eq => some (compare a.hasJobData b.hasJobData)
    | x => some x

/-- `Ord`. -/
def cmp (checks : Bool) (a b : Worker) : Except Fault Ordering :=
  match compare a.hasJobData b.hasJobData with
  | .eq => do
    let own ← a.priority checks
    let other ← b.priority checks
    return compare own other
  | x => .ok x

/-- No more tasks are assigned than there are subworkers. -/
def Fits (w : Worker) : Prop := w.assignments.length ≤ w.subworkers

instance (w : Worker) : Decidable w.Fits := inferInstanceAs (Decidable (_ ≤ _))

/-- What `priority` returns for a worker that fits. -/
def free (w : Worker) : Nat := w.subworkers - w.assignments.length

/-- `a` ranks below `b` by priority and above it by whether the job data is there. -/
def Opposed (a b : Worker) : Prop :=
  a.free < b.free ∧ a.hasJobData = true ∧ b.hasJobData = false

/-- Some worker of the highest priority has the job data, unless no worker has it. -/
def DataOnTop (contents : Nat → Option Worker) : Prop :=
  (∃ id w, contents id = some w ∧ w.hasJobData = true) →
    ∃ id w, contents id = some w ∧ w.hasJobData = true ∧
      ∀ k v, contents k = some v → v.free ≤ w.free

variable {checks : Bool} {a b : Worker}

/-- The heap compares by `<`, which `PartialOrd` derives from `partial_cmp`. -/
theorem cmpPriority_eq (checks : Bool) (a b : Worker) :
    a.cmpPriority checks b = (a.partialCmp checks b).map fun o => o == some .lt := by
  unfold cmpPriority partialCmp
  cases a.priority checks with
  | error fault => rfl
  | ok own =>
    cases b.priority checks with
    | error fault => rfl
    | ok other =>
      simp only [ok_bind, except_pure, Except.map, Except.ok.injEq]
      rcases lt_trichotomy own other with hlt | heq | hgt
      · simp [Nat.compare_eq_lt.mpr hlt, hlt, Nat.ne_of_lt hlt]
      · subst heq
        rw [Nat.compare_eq_eq.mpr rfl]
        cases a.hasJobData <;> cases b.hasJobData <;> simp
      · have hnot : ¬own < other := Nat.lt_asymm hgt
        simp [Nat.compare_eq_gt.mpr hgt, hnot, Nat.ne_of_gt hgt]

theorem priority_of_fits (h : a.Fits) : a.priority checks = .ok a.free := subBits_of_le h checks

theorem partialCmp_eq (ha : a.Fits) (hb : b.Fits) :
    a.partialCmp checks b =
      .ok (some ((compare a.free b.free).then (compare a.hasJobData b.hasJobData))) := by
  rw [partialCmp, priority_of_fits ha, priority_of_fits hb]
  cases h : compare a.free b.free <;> simp [h]

theorem cmp_eq (ha : a.Fits) (hb : b.Fits) :
    a.cmp checks b = .ok ((compare a.hasJobData b.hasJobData).then (compare a.free b.free)) := by
  rw [cmp, priority_of_fits ha, priority_of_fits hb]
  cases compare a.hasJobData b.hasJobData <;> rfl

theorem partialCmp_preorder (checks : Bool) :
    TotalPreorder Fits fun a b o => a.partialCmp checks b = .ok (some o) := by
  refine .of_keys free hasJobData ?_
  intro a b o ha hb
  rw [partialCmp_eq ha hb, Except.ok.injEq, Option.some.injEq, eq_comm]

theorem cmp_preorder (checks : Bool) : TotalPreorder Fits fun a b o => a.cmp checks b = .ok o := by
  refine .of_keys hasJobData free ?_
  intro a b o ha hb
  rw [cmp_eq ha hb, Except.ok.injEq, eq_comm]

/-- The two keys in either order say the same unless they contradict each other. -/
theorem then_comm_iff : (compare a.free b.free).then (compare a.hasJobData b.hasJobData) =
      (compare a.hasJobData b.hasJobData).then (compare a.free b.free) ↔
    ¬a.Opposed b ∧ ¬b.Opposed a := by
  unfold Opposed
  rcases lt_trichotomy a.free b.free with hlt | heq | hgt
  · have hnot : ¬b.free < a.free := Nat.lt_asymm hlt
    rw [Nat.compare_eq_lt.mpr hlt]
    cases a.hasJobData <;> cases b.hasJobData <;> simp [hlt, hnot]
  · rw [Nat.compare_eq_eq.mpr heq, heq]
    cases a.hasJobData <;> cases b.hasJobData <;> simp
  · have hnot : ¬a.free < b.free := Nat.lt_asymm hgt
    rw [Nat.compare_eq_gt.mpr hgt]
    cases a.hasJobData <;> cases b.hasJobData <;> simp [hgt, hnot]

theorem agree_iff (ha : a.Fits) (hb : b.Fits) :
    (∃ o, a.cmp checks b = .ok o ∧ a.partialCmp checks b = .ok (some o)) ↔
      ¬a.Opposed b ∧ ¬b.Opposed a := by
  rw [cmp_eq ha hb, partialCmp_eq ha hb, ← then_comm_iff]
  simp

/-- A worker that ranks highest by priority and then by job data is the greatest by `cmp` as well
exactly when the job data is there among those of the highest priority. -/
theorem greatest_iff {contents : Nat → Option Worker} {id : Nat} (hid : contents id = some a)
    (fits : ∀ k w, contents k = some w → w.Fits)
    (top : ∀ k w, contents k = some w → w.rank ≤ a.rank) :
    (∀ k w, contents k = some w → ∃ o, w.cmp checks a = .ok o ∧ o.isLE = true) ↔
      DataOnTop contents := by
  have ha := fits id a hid
  have hfree : ∀ k w, contents k = some w → w.free ≤ a.free := by
    intro k w hw
    rcases (Prod.Lex.toLex_le_toLex).mp (top k w hw) with hlt | ⟨heq, _⟩
    · exact Nat.le_of_lt hlt
    · exact Nat.le_of_eq heq
  constructor
  · intro greatest ⟨k, w, hw, hdata⟩
    refine ⟨id, a, hid, ?_, hfree⟩
    obtain ⟨o, ho, hle⟩ := greatest k w hw
    rw [cmp_eq (fits k w hw) ha, Except.ok.injEq, hdata] at ho
    subst ho
    by_contra hnone
    rw [Bool.not_eq_true] at hnone
    rw [hnone] at hle
    cases hle
  · intro data k w hw
    refine ⟨_, cmp_eq (fits k w hw) ha, ?_⟩
    have hfw := hfree k w hw
    have hle : (compare w.free a.free).isLE = true := Nat.isLE_compare.mpr hfw
    cases hwd : w.hasJobData with
    | false => cases a.hasJobData <;> simp [Ordering.then, hle]
    | true =>
      obtain ⟨j, v, hv, hvdata, hvtop⟩ := data ⟨k, w, hw, hwd⟩
      have had : a.hasJobData = true := by
        rcases (Prod.Lex.toLex_le_toLex).mp (top j v hv) with hlt | ⟨_, hb⟩
        · exact absurd (hvtop id a hid) (Nat.not_le_of_lt hlt)
        · change v.hasJobData ≤ a.hasJobData at hb
          rw [hvdata] at hb
          exact Bool.eq_true_of_true_le hb
      simp [had, hle]

/-- Both comparisons are total preorders of the workers that fit. They agree on two workers exactly
when priority and job data do not contradict each other there, and the head of a queue is the
greatest by `cmp` exactly when the job data is among the workers of the highest priority. -/
theorem orders (checks : Bool) :
    TotalPreorder Fits (fun a b o => a.partialCmp checks b = .ok (some o)) ∧
      TotalPreorder Fits (fun a b o => a.cmp checks b = .ok o) ∧
      (∀ a b : Worker, a.Fits → b.Fits →
        ((∃ o, a.cmp checks b = .ok o ∧ a.partialCmp checks b = .ok (some o)) ↔
          ¬a.Opposed b ∧ ¬b.Opposed a)) ∧
      ∀ ops : List (PriorityQueue.Operation Worker), (∀ op ∈ ops, op.Plain Fits) →
        ∃ q taken, Run (PriorityQueue.operate (Worker.cmpPriority checks)) (fun _ _ => True)
          PriorityQueue.new ops taken q ∧
          ((q.peek = .ok none ∧ ∀ id, q.get id = none) ∨
            ∃ id v, q.peek = .ok (some (id, v)) ∧ q.get id = some v ∧
              ((∀ k w, q.get k = some w → ∃ o, w.cmp checks v = .ok o ∧ o.isLE = true) ↔
                DataOnTop q.get)) := by
  refine ⟨partialCmp_preorder checks, cmp_preorder checks, fun a b ha hb => agree_iff ha hb, ?_⟩
  intro ops plain
  obtain ⟨q, taken, run, h⟩ := PriorityQueue.run_ranked (cmpPriority_decides checks) ops plain
  refine ⟨q, taken, run, h.peek.imp_right ?_⟩
  intro ⟨id, v, hpeek, hv, top⟩
  exact ⟨id, v, hpeek, hv, greatest_iff hv h.good top⟩

/-- A worker with one free subworker that has the job data. -/
def small : Worker :=
  { id := 0, subworkers := 1, platform := ⟨.x86_64, .unix, .linux⟩, hasJobData := true
    address := ⟨[127, 0, 0, 1], 7000⟩, replacements := [], assignments := [] }

/-- One with two that does not. -/
def large : Worker := { small with id := 1, subworkers := 2, hasJobData := false }

/-- The two comparisons contradict each other on `small` and `large`, and a queue of the two has
the one at its head that `cmp` puts below the other. -/
theorem not_forall_agree :
    (¬∀ a b : Worker, a.Fits → b.Fits →
      ∃ o, a.cmp true b = .ok o ∧ a.partialCmp true b = .ok (some o)) ∧
    ¬∀ (ops : List (PriorityQueue.Operation Worker)) (q : PriorityQueue Worker)
      (taken : List (Nat × Worker)), (∀ op ∈ ops, op.Plain Fits) →
        Run (PriorityQueue.operate (Worker.cmpPriority true)) (fun _ _ => True)
          PriorityQueue.new ops taken q →
        ∀ id v, q.peek = .ok (some (id, v)) →
          ∀ k w, q.get k = some w → ∃ o, w.cmp true v = .ok o ∧ o.isLE = true := by
  constructor
  · intro h
    obtain ⟨o, ho, ho'⟩ := h small large (by decide) (by decide)
    cases ho
    cases ho'
  · intro h
    obtain ⟨q, taken, run, hq⟩ := exists_run
      (PriorityQueue.operate (Worker.cmpPriority true)) (fun _ _ => True) PriorityQueue.new
      [.push 0 small, .push 1 large]
      (fun r => decide (r.1.peek = .ok (some (1, large)) ∧ r.1.get 0 = some small))
      (by decide +kernel)
    obtain ⟨hpeek, hget⟩ := of_decide_eq_true hq
    have plain : ∀ op ∈ [PriorityQueue.Operation.push 0 small, .push 1 large], op.Plain Fits := by
      simp [PriorityQueue.Operation.Plain, Fits, small, large]
    obtain ⟨o, ho, hle⟩ := h _ q taken plain run 1 large hpeek 0 small hget
    cases ho
    cases hle

/-- On a worker and itself the comparisons agree. -/
theorem orders_small : (∃ o, small.cmp true small = .ok o ∧
    small.partialCmp true small = .ok (some o)) ↔ ¬small.Opposed small ∧ ¬small.Opposed small :=
  (orders true).2.2.1 small small (by decide) (by decide)

end Worker
end GridServer
