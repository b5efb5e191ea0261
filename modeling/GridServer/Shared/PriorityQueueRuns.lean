import GridServer.Library.Run
import GridServer.Shared.PriorityQueueOrder
import Mathlib.Data.List.Induction
import Mathlib.Order.OrderDual

namespace GridServer.PriorityQueue
open Library

variable {V κ : Type} [LinearOrder κ]

/-- `Max` and `Min`. -/
inductive Order where
  | max | min
deriving DecidableEq, Repr

namespace Order

/-- `a` comes strictly before `b` in the queue. -/
def Before : Order → κ → κ → Prop
  | max, a, b => b < a
  | min, a, b => a < b

instance (order : Order) (a b : κ) : Decidable (order.Before a b) := by
  cases order
  · exact inferInstanceAs (Decidable (b < a))
  · exact inferInstanceAs (Decidable (a < b))

/-- `Order::cmp_priority`, for values that are ordered as their ranks are. -/
def cmpPriority (order : Order) (rank : V → κ) (lower larger : V) : Except Fault Bool :=
  match order with
  | max => .ok (rank lower < rank larger)
  | min => .ok (rank lower > rank larger)

end Order

/-- The two arrays index each other, and no child is strictly before its parent. -/
structure Valid (order : Order) (rank : V → κ) (q : PriorityQueue V) : Prop where
  indexed : q.Indexed
  ordered : ∀ p, 0 < p → ∀ a b v w, q.heap[p]? = some a → q.heap[parent p]? = some b →
    q.get a = some v → q.get b = some w → ¬order.Before (rank v) (rank w)

/-- What can be done to a queue. A value that is changed in place is changed by a function. -/
inductive Operation (V : Type) where
  | push (id : Nat) (priority : V)
  | pop
  | remove (id : Nat)
  | changePriority (id : Nat) (newPriority : V)
  | changePriorityBy (id : Nat) (prioritySetter : V → V)
  | peekMut (change : V → V)
  | clear

/-- An operation on the queue, with the entry it takes out. -/
def operate (cmp : V → V → Except Fault Bool) (q : PriorityQueue V) :
    Operation V → Except Fault (PriorityQueue V × List (Nat × V))
  | .push id priority => do
    let (q, _) ← q.push cmp id priority
    return (q, [])
  | .pop => do
    let (q, taken) ← q.pop cmp
    return (q, taken.toList)
  | .remove id => do
    let (q, taken) ← q.remove cmp id
    return (q, taken.toList)
  | .changePriority id newPriority => do
    let (q, _) ← q.changePriority cmp id newPriority
    return (q, [])
  | .changePriorityBy id prioritySetter => do
    let (q, _) ← q.changePriorityBy cmp id prioritySetter
    return (q, [])
  | .peekMut change => do
    match ← q.peekMut with
    | none => return (q, [])
    | some top =>
      let q ← q.dropPeekMut cmp (top.derefMut (change top.value))
      return (q, [])
  | .clear => .ok (q.clear, [])

/-- `while let Some(x) = queue.pop()`. -/
def drain (cmp : V → V → Except Fault Bool) : Nat → PriorityQueue V → Except Fault (List (Nat × V))
  | 0, _ => .error .diverged
  | fuel + 1, q => do
    let (q, taken) ← q.pop cmp
    match taken with
    | none => return []
    | some entry =>
      let rest ← drain cmp fuel q
      return entry :: rest

/-- No value of the contents is strictly before that of `id`. -/
def Extremal (order : Order) (rank : V → κ) (contents : Nat → Option V) (id : Nat) (v : V) : Prop :=
  contents id = some v ∧ ∀ k w, contents k = some w → ¬order.Before (rank w) (rank v)

/-- What an operation does to the values that are filed under the ids, and what it takes out. -/
inductive Serves (order : Order) (rank : V → κ) (contents : Nat → Option V) :
    Operation V → (Nat → Option V) → List (Nat × V) → Prop where
  | push (id : Nat) (priority : V) :
    Serves order rank contents (.push id priority) (Function.update contents id (some priority)) []
  | pop {id : Nat} {v : V} (extremal : Extremal order rank contents id v) :
    Serves order rank contents .pop (Function.update contents id none) [(id, v)]
  | popNone (empty : ∀ id, contents id = none) : Serves order rank contents .pop contents []
  | remove (id : Nat) :
    Serves order rank contents (.remove id) (Function.update contents id none)
      ((contents id).toList.map fun v => (id, v))
  | changePriority (id : Nat) (newPriority : V) :
    Serves order rank contents (.changePriority id newPriority)
      (Function.update contents id ((contents id).map fun _ => newPriority)) []
  | changePriorityBy (id : Nat) (prioritySetter : V → V) :
    Serves order rank contents (.changePriorityBy id prioritySetter)
      (Function.update contents id ((contents id).map prioritySetter)) []
  | peekMut {id : Nat} {v : V} (change : V → V) (extremal : Extremal order rank contents id v) :
    Serves order rank contents (.peekMut change)
      (Function.update contents id (some (change v))) []
  | peekMutNone (change : V → V) (empty : ∀ id, contents id = none) :
    Serves order rank contents (.peekMut change) contents []
  | clear : Serves order rank contents .clear (fun _ => none) []

/-- The values after a list of operations, and all that these have taken out. -/
inductive Served (order : Order) (rank : V → κ) :
    List (Operation V) → (Nat → Option V) → List (Nat × V) → Prop where
  | nil : Served order rank [] (fun _ => none) []
  | snoc {ops : List (Operation V)} {op : Operation V} {contents contents' : Nat → Option V}
      {taken taken' : List (Nat × V)} (before : Served order rank ops contents taken)
      (last : Serves order rank contents op contents' taken') :
      Served order rank (ops ++ [op]) contents' (taken ++ taken')

section
variable {order : Order} {rank : V → κ} {q q' : PriorityQueue V}

/-- Either order is a linear order of its own, in which the queue's best entry ranks highest. -/
theorem Order.decides (order : Order) (rank : V → κ) :
    ∃ (κ' : Type) (_ : LinearOrder κ') (rank' : V → κ'),
      Decides (order.cmpPriority rank) (fun _ => True) rank' ∧
        ∀ v w, order.Before (rank v) (rank w) ↔ rank' w < rank' v := by
  cases order with
  | max => exact ⟨κ, inferInstance, rank, fun _ _ _ _ => rfl, fun _ _ => Iff.rfl⟩
  | min =>
    exact ⟨κᵒᵈ, inferInstance, fun v => OrderDual.toDual (rank v), fun _ _ _ _ => rfl,
      fun _ _ => Iff.rfl⟩

section Ranked
variable {κ' : Type} [LinearOrder κ'] {rank' : V → κ'}
  (hbefore : ∀ v w, order.Before (rank v) (rank w) ↔ rank' w < rank' v)
include hbefore

theorem valid_iff : Valid order rank q ↔ q.Indexed ∧ HeapOrdered rank' q := by
  constructor
  · intro h
    refine ⟨h.indexed, ?_⟩
    intro p hp a b ha hb
    obtain ⟨v, hv⟩ := Option.isSome_iff_exists.mp
      ((h.indexed.mem_iff a).mp (List.mem_of_getElem? ha))
    obtain ⟨w, hw⟩ := Option.isSome_iff_exists.mp
      ((h.indexed.mem_iff b).mp (List.mem_of_getElem? hb))
    have hnot := h.ordered p hp a b v w ha hb hv hw
    rw [hbefore, not_lt] at hnot
    exact (rankOf_le hv hw).mpr hnot
  · intro ⟨indexed, ordered⟩
    refine ⟨indexed, ?_⟩
    intro p hp a b v w ha hb hv hw
    rw [hbefore, not_lt]
    exact (rankOf_le hv hw).mp (ordered p hp a b ha hb)

theorem extremal_root (h : Valid order rank q) {id : Nat} {v : V} (hid : q.heap[0]? = some id)
    (hv : q.get id = some v) : Extremal order rank q.get id v := by
  obtain ⟨indexed, ordered⟩ := (valid_iff hbefore).mp h
  refine ⟨hv, ?_⟩
  intro k w hw
  rw [hbefore, not_lt]
  exact ordered.root_max indexed hid hv hw

end Ranked

theorem valid_new : Valid order rank (new : PriorityQueue V) :=
  ⟨indexed_new, by simp [new]⟩

theorem valid_clear (q : PriorityQueue V) : Valid order rank q.clear :=
  ⟨indexed_clear q, by simp⟩

theorem get_eq_none_of_heap (h : q.Indexed) (hnil : q.heap = []) (id : Nat) : q.get id = none := by
  rw [← Option.not_isSome_iff_eq_none, ← h.mem_iff, hnil]
  exact List.not_mem_nil

/-- What is at the head is in the queue. -/
theorem Indexed.peek (h : q.Indexed) :
    (q.peek = .ok none ∧ ∀ id, q.get id = none) ∨
      ∃ id v, q.peek = .ok (some (id, v)) ∧ q.heap[0]? = some id ∧ q.get id = some v := by
  cases hid : q.heap[0]? with
  | none =>
    have hnil : q.heap = [] := by simpa using hid
    exact .inl ⟨by simp [PriorityQueue.peek, hid], get_eq_none_of_heap h hnil⟩
  | some id =>
    obtain ⟨v, hv⟩ := Option.isSome_iff_exists.mp ((h.mem_iff id).mp (List.mem_of_getElem? hid))
    obtain ⟨p, hp⟩ := get_eq_some.mp hv
    refine .inr ⟨id, v, ?_, rfl, hv⟩
    simp [PriorityQueue.peek, hid, VecMap.getUnchecked_ok.mpr hp]

/-- The entry at the head comes first. -/
theorem Valid.peek (h : Valid order rank q) :
    (q.peek = .ok none ∧ ∀ id, q.get id = none) ∨
      ∃ id v, q.peek = .ok (some (id, v)) ∧ Extremal order rank q.get id v := by
  obtain ⟨κ', _, rank', dec, hbefore⟩ := order.decides rank
  rcases h.indexed.peek with hnone | ⟨id, v, hpeek, hid, hv⟩
  · exact .inl hnone
  · exact .inr ⟨id, v, hpeek, extremal_root hbefore h hid hv⟩

/-- The ids of a queue are those of another and one more. -/
theorem heap_perm_of_removed (h : q.Indexed) (h' : q'.Indexed) {id : Nat} (hid : id ∈ q.heap)
    (hget : q'.get = Function.update q.get id none) : q.heap.Perm (id :: q'.heap) := by
  have hnot : id ∉ q'.heap := by
    rw [h'.mem_iff, hget, Function.update_self]
    simp
  refine (List.perm_ext_iff_of_nodup h.nodup (List.nodup_cons.mpr ⟨hnot, h'.nodup⟩)).mpr ?_
  intro k
  by_cases hk : k = id
  · subst hk
    simp [hid]
  · rw [List.mem_cons, h.mem_iff, h'.mem_iff, hget, Function.update_of_ne hk]
    simp [hk]

theorem Valid.pop (h : Valid order rank q) :
    (q.pop (order.cmpPriority rank) = .ok (q, none) ∧ ∀ id, q.get id = none) ∨
      ∃ q' id v, q.pop (order.cmpPriority rank) = .ok (q', some (id, v)) ∧
        Valid order rank q' ∧ Extremal order rank q.get id v ∧
          q'.get = Function.update q.get id none ∧ q.heap.Perm (id :: q'.heap) := by
  obtain ⟨κ', _, rank', dec, hbefore⟩ := order.decides rank
  obtain ⟨indexed, ordered⟩ := (valid_iff hbefore).mp h
  obtain ⟨q', r, hpop, ordered'⟩ := pop_ordered dec indexed (fun _ _ _ => trivial) ordered
  rcases pop_content indexed hpop with ⟨rfl, rfl, hnil⟩ | ⟨id, v, rfl, hid, hv, indexed', hget⟩
  · exact .inl ⟨hpop, get_eq_none_of_heap indexed hnil⟩
  · exact .inr ⟨q', id, v, hpop, (valid_iff hbefore).mpr ⟨indexed', ordered'⟩,
      extremal_root hbefore h hid hv, hget,
      heap_perm_of_removed indexed indexed' (List.mem_of_getElem? hid) hget⟩

/-- An operation on a valid queue ends, leaves it valid and does what it is to do. -/
theorem Valid.operate (h : Valid order rank q) (op : Operation V) :
    ∃ q' taken, q.operate (order.cmpPriority rank) op = .ok (q', taken) ∧
      Valid order rank q' ∧ Serves order rank q.get op q'.get taken := by
  obtain ⟨κ', _, rank', dec, hbefore⟩ := order.decides rank
  obtain ⟨indexed, ordered⟩ := (valid_iff hbefore).mp h
  have good : AllGood (fun _ => True) q := fun _ _ _ => trivial
  cases op with
  | push id priority =>
    obtain ⟨q', old, hpush, ordered'⟩ : ∃ q' old,
        q.push (order.cmpPriority rank) id priority = .ok (q', old) ∧ HeapOrdered rank' q' :=
      push_ordered dec indexed good trivial ordered
    obtain ⟨indexed', hget⟩ := push_content indexed hpush
    refine ⟨q', [], by simp [PriorityQueue.operate, hpush],
      (valid_iff hbefore).mpr ⟨indexed', ordered'⟩, ?_⟩
    rw [hget]
    exact .push id priority
  | pop =>
    rcases h.pop with ⟨hpop, hnone⟩ | ⟨q', id, v, hpop, h', extremal, hget, _⟩
    · exact ⟨q, [], by simp [PriorityQueue.operate, hpop], h, .popNone hnone⟩
    · refine ⟨q', [(id, v)], by simp [PriorityQueue.operate, hpop], h', ?_⟩
      rw [hget]
      exact .pop extremal
  | remove id =>
    obtain ⟨q', r, hremove, ordered'⟩ : ∃ q' r,
        q.remove (order.cmpPriority rank) id = .ok (q', r) ∧ HeapOrdered rank' q' :=
      remove_ordered dec indexed good ordered
    have hserves : Serves order rank q.get (.remove id) _ _ := .remove id
    rcases remove_content indexed hremove with ⟨rfl, hq, hnone⟩ | ⟨v, rfl, hv, indexed', hget⟩
    · have hsame : Function.update q.get id none = q.get := by
        rw [← hnone, Function.update_eq_self]
      rw [hnone, hsame] at hserves
      rw [hq] at hremove
      exact ⟨q, [], by simp [PriorityQueue.operate, hremove], h, hserves⟩
    · rw [hv, ← hget] at hserves
      exact ⟨q', [(id, v)], by simp [PriorityQueue.operate, hremove],
        (valid_iff hbefore).mpr ⟨indexed', ordered'⟩, hserves⟩
  | changePriority id newPriority =>
    have hserves : Serves order rank q.get (.changePriority id newPriority) _ _ :=
      .changePriority id newPriority
    cases hm : q.map.get id with
    | none =>
      have hnone : q.get id = none := by simp [get, hm]
      rw [hnone, Option.map_none, ← hnone, Function.update_eq_self] at hserves
      exact ⟨q, [], by simp [PriorityQueue.operate, PriorityQueue.changePriority, hm], h, hserves⟩
    | some entry =>
      obtain ⟨pos, old⟩ := entry
      obtain ⟨q', hup, ordered'⟩ := upHeapify_write_ordered dec indexed good
        (v := newPriority) trivial ordered hm
      obtain ⟨indexed', hget⟩ := upHeapify_write_content indexed hm hup
      have hold : q.get id = some old := get_eq_some.mpr ⟨pos, hm⟩
      rw [hold, Option.map_some, ← hget] at hserves
      exact ⟨q', [], by simp [PriorityQueue.operate, PriorityQueue.changePriority, hm, hup],
        (valid_iff hbefore).mpr ⟨indexed', ordered'⟩, hserves⟩
  | changePriorityBy id prioritySetter =>
    have hserves : Serves order rank q.get (.changePriorityBy id prioritySetter) _ _ :=
      .changePriorityBy id prioritySetter
    cases hm : q.map.get id with
    | none =>
      have hnone : q.get id = none := by simp [get, hm]
      rw [hnone, Option.map_none, ← hnone, Function.update_eq_self] at hserves
      exact ⟨q, [], by simp [PriorityQueue.operate, PriorityQueue.changePriorityBy, hm], h,
        hserves⟩
    | some entry =>
      obtain ⟨pos, old⟩ := entry
      obtain ⟨q', hup, ordered'⟩ := upHeapify_write_ordered dec indexed good
        (v := prioritySetter old) trivial ordered hm
      obtain ⟨indexed', hget⟩ := upHeapify_write_content indexed hm hup
      have hold : q.get id = some old := get_eq_some.mpr ⟨pos, hm⟩
      rw [hold, Option.map_some, ← hget] at hserves
      exact ⟨q', [], by simp [PriorityQueue.operate, PriorityQueue.changePriorityBy, hm, hup],
        (valid_iff hbefore).mpr ⟨indexed', ordered'⟩, hserves⟩
  | peekMut change =>
    obtain ⟨peeked, hpeek⟩ := peekMut_total indexed
    rcases peekMut_ok hpeek with ⟨rfl, hnil⟩ | ⟨id, v, rfl, hid, hv⟩
    · exact ⟨q, [], by simp [PriorityQueue.operate, hpeek], h,
        .peekMutNone change (get_eq_none_of_heap indexed hnil)⟩
    · obtain ⟨r, hr⟩ : ∃ r, r = RefMut.derefMut ⟨id, v, false⟩ (change v) := ⟨_, rfl⟩
      have hkey : r.key = id := by rw [hr]; rfl
      have hvalue : r.value = change v := by rw [hr]; rfl
      have hmodified : r.modified = true := by rw [hr]; rfl
      obtain ⟨q', hdrop, ordered'⟩ := dropPeekMut_ordered dec indexed good trivial ordered
        (r := r) (hkey ▸ hid)
      obtain ⟨indexed', hget⟩ := dropPeekMut_content indexed
        (by rw [hkey, hv]; rfl) (by simp [hmodified]) hdrop
      rw [hkey, hvalue] at hget
      refine ⟨q', [], ?_, (valid_iff hbefore).mpr ⟨indexed', ordered'⟩, ?_⟩
      · simp [PriorityQueue.operate, hpeek, ← hr, hdrop]
      · rw [hget]
        exact .peekMut change (extremal_root hbefore h hid hv)
  | clear =>
    refine ⟨q.clear, [], rfl, valid_clear q, ?_⟩
    have hnone : q.clear.get = fun _ => none := funext fun id => get_clear q id
    rw [hnone]
    exact .clear

/-- Popping until the queue is empty takes every id out once, with its value, in order. -/
theorem Valid.drain {fuel : Nat} (h : Valid order rank q) (hfuel : q.heap.length < fuel) :
    ∃ entries, drain (order.cmpPriority rank) fuel q = .ok entries ∧
      (entries.map Prod.fst).Nodup ∧ (∀ id v, (id, v) ∈ entries ↔ q.get id = some v) ∧
        entries.Pairwise fun a b => ¬order.Before (rank b.2) (rank a.2) := by
  induction fuel generalizing q with
  | zero => exact absurd hfuel (Nat.not_lt_zero _)
  | succ fuel ih =>
    rcases h.pop with ⟨hpop, hnone⟩ | ⟨q', id, v, hpop, h', extremal, hget, hperm⟩
    · refine ⟨[], by simp [PriorityQueue.drain, hpop], List.nodup_nil, ?_, .nil⟩
      intro id v
      simp [hnone]
    · have hlength := hperm.length_eq
      rw [List.length_cons] at hlength
      obtain ⟨entries, hrest, hnodup, hmem, hpairwise⟩ := ih h' (by omega)
      have hgone : ∀ w, (id, w) ∉ entries := by
        intro w hw
        rw [hmem, hget, Function.update_self] at hw
        cases hw
      refine ⟨(id, v) :: entries, by simp [PriorityQueue.drain, hpop, hrest], ?_, ?_, ?_⟩
      · rw [List.map_cons, List.nodup_cons]
        refine ⟨?_, hnodup⟩
        intro hid
        obtain ⟨⟨_, w⟩, hw, rfl⟩ := List.mem_map.mp hid
        exact hgone w hw
      · intro k w
        by_cases hk : k = id
        · subst hk
          rw [extremal.1, List.mem_cons, Prod.mk.injEq, Option.some.injEq]
          constructor
          · intro hor
            rcases hor with ⟨_, hw⟩ | hold
            · exact hw.symm
            · exact absurd hold (hgone w)
          · intro hw
            exact .inl ⟨rfl, hw.symm⟩
        · rw [List.mem_cons, Prod.mk.injEq, hmem, hget, Function.update_of_ne hk]
          simp [hk]
      · refine .cons ?_ hpairwise
        intro entry hentry
        obtain ⟨k, w⟩ := entry
        have hw : q'.get k = some w := (hmem k w).mp hentry
        have hk : k ≠ id := by
          intro he
          subst he
          exact hgone w hentry
        rw [hget, Function.update_of_ne hk] at hw
        exact extremal.2 k w hw

end

end GridServer.PriorityQueue
