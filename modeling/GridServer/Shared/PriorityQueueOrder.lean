import GridServer.Shared.PriorityQueueFaults
import Mathlib.Order.WithBot

namespace GridServer.PriorityQueue
open Library BinaryHeap

variable {V κ : Type} {cmp : V → V → Except Fault Bool} {good : V → Prop} {rank : V → κ}

/-- The rank of an id's value; an absent id ranks below every value. -/
def rankOf (rank : V → κ) (q : PriorityQueue V) (id : Nat) : WithBot κ := (q.get id).map rank

theorem rankOf_some {q : PriorityQueue V} {id : Nat} {v : V} (h : q.get id = some v) :
    q.rankOf rank id = (rank v : WithBot κ) := by
  rw [rankOf, h]
  rfl

theorem rankOf_congr {q q' : PriorityQueue V} (h : q'.get = q.get) :
    q'.rankOf rank = q.rankOf rank := by
  funext id
  rw [rankOf, rankOf, h]

theorem rankOf_update {q q' : PriorityQueue V} {id k : Nat} {o : Option V}
    (h : q'.get = Function.update q.get id o) (hk : k ≠ id) :
    q'.rankOf rank k = q.rankOf rank k := by
  rw [rankOf, rankOf, h, Function.update_of_ne hk]

theorem IndexedBut.entry {q : PriorityQueue V} {i : Nat} (h : q.IndexedBut i) {p : Nat}
    (hp : p < q.heap.length) :
    ∃ id pos v, q.heap[p]? = some id ∧ q.map.get id = some (pos, v) ∧ q.get id = some v := by
  have hm : q.heap[p] ∈ q.heap := List.getElem_mem hp
  obtain ⟨v, hv⟩ := Option.isSome_iff_exists.mp ((h.mem_iff _).mp hm)
  obtain ⟨pos, hpos⟩ := get_eq_some.mp hv
  exact ⟨_, pos, v, List.getElem?_eq_getElem hp, hpos, hv⟩

theorem Indexed.entry {q : PriorityQueue V} (h : q.Indexed) {p : Nat} (hp : p < q.heap.length) :
    ∃ id v, q.heap[p]? = some id ∧ q.get id = some v ∧
      q.getPriorityFromPosition p = .ok v := by
  obtain ⟨id, pos, v, hid, hpos, hv⟩ := (h.but 0).entry hp
  refine ⟨id, v, hid, hv, ?_⟩
  simp [getPriorityFromPosition, heapAt_ok.mpr hid, VecMap.getUnchecked_ok.mpr hpos]

theorem Indexed.swap_total {q : PriorityQueue V} (h : q.Indexed) {a b : Nat}
    (ha : a < q.heap.length) (hb : b < q.heap.length) (hab : a ≠ b) :
    ∃ q', q.swap a b = .ok q' := by
  obtain ⟨idA, pA, vA, hidA, hmA, _⟩ := (h.but 0).entry ha
  obtain ⟨idB, pB, vB, hidB, hmB, _⟩ := (h.but 0).entry hb
  have hne : idA ≠ idB := fun e => hab (index_inj h.nodup (e ▸ hidA) hidB)
  have hp := getPair_ok.mpr ⟨hidA, hidB, hmA, hmB, hab, hne⟩
  exact ⟨_, by simp [swap, hp]; rfl⟩

variable [LinearOrder κ]

/-- On good values the comparison answers, and compares ranks. -/
def Decides (cmp : V → V → Except Fault Bool) (good : V → Prop) (rank : V → κ) : Prop :=
  ∀ a b, good a → good b → cmp a b = .ok (decide (rank a < rank b))

/-- No entry outranks the one above it. -/
def HeapOrdered (rank : V → κ) (q : PriorityQueue V) : Prop := Ordered q.heap (q.rankOf rank)

instance (rank : V → κ) (q : PriorityQueue V) : Decidable (HeapOrdered rank q) :=
  decidable_of_iff (∀ p < q.heap.length, 0 < p → ∀ a ∈ q.heap[p]?, ∀ b ∈ q.heap[parent p]?,
    q.rankOf rank a ≤ q.rankOf rank b) <| by
  constructor
  · intro h p hp a b ha hb
    exact h p (List.getElem?_eq_some_iff.mp ha).1 hp a ha b hb
  · intro h p _ hp a ha b hb
    exact h p hp a b ha hb

theorem rankOf_le {q : PriorityQueue V} {a b : Nat} {v w : V} (ha : q.get a = some v)
    (hb : q.get b = some w) : q.rankOf rank a ≤ q.rankOf rank b ↔ rank v ≤ rank w := by
  rw [rankOf_some ha, rankOf_some hb, WithBot.coe_le_coe]

theorem rankOf_lt {q : PriorityQueue V} {a b : Nat} {v w : V} (ha : q.get a = some v)
    (hb : q.get b = some w) : q.rankOf rank a < q.rankOf rank b ↔ rank v < rank w := by
  rw [rankOf_some ha, rankOf_some hb, WithBot.coe_lt_coe]

theorem parent_left (i : Nat) : BinaryHeap.parent (left i) = i := by
  simpa [left, Nat.mul_comm] using (parent_child i).1

theorem parent_right (i : Nat) : BinaryHeap.parent (right i) = i := by
  simpa [right, Nat.mul_comm] using (parent_child i).2

theorem left_or_right {p i : Nat} (hp : 0 < p) (he : BinaryHeap.parent p = i) :
    p = left i ∨ p = right i := by
  rcases child_cases hp he with h | h
  · exact .inl (by simp only [left]; omega)
  · exact .inr (by simp only [right]; omega)

/-- No entry below the one at `i` ranks above `x`. -/
def BelowAtMost (rank : V → κ) (q : PriorityQueue V) (i : Nat) (x : WithBot κ) : Prop :=
  ∀ p, 0 < p → BinaryHeap.parent p = i → ∀ d, q.heap[p]? = some d → q.rankOf rank d ≤ x

theorem belowAtMost_both {q : PriorityQueue V} {i l r : Nat} {x : WithBot κ}
    (hl : q.heap[left i]? = some l) (hr : q.heap[right i]? = some r)
    (hlx : q.rankOf rank l ≤ x) (hrx : q.rankOf rank r ≤ x) : BelowAtMost rank q i x := by
  intro p hp he d hd
  rcases left_or_right hp he with rfl | rfl
  · rw [hl, Option.some.injEq] at hd
    exact hd ▸ hlx
  · rw [hr, Option.some.injEq] at hd
    exact hd ▸ hrx

theorem belowAtMost_left {q : PriorityQueue V} {i l : Nat} {x : WithBot κ}
    (hl : q.heap[left i]? = some l) (last : ¬right i < q.heap.length)
    (hlx : q.rankOf rank l ≤ x) : BelowAtMost rank q i x := by
  intro p hp he d hd
  rcases left_or_right hp he with rfl | rfl
  · rw [hl, Option.some.injEq] at hd
    exact hd ▸ hlx
  · exact absurd (List.getElem?_eq_some_iff.mp hd).1 last

theorem belowAtMost_leaf {q : PriorityQueue V} {i : Nat} {x : WithBot κ}
    (leaf : ¬left i < q.heap.length) : BelowAtMost rank q i x := by
  intro p hp he d hd
  have hlt := (List.getElem?_eq_some_iff.mp hd).1
  rcases left_or_right hp he with rfl | rfl
  · exact absurd hlt leaf
  · simp only [left, right] at leaf hlt
    omega

/-- `largestOf` picks the highest-ranked of `i` and the entries below it. -/
theorem largestOf_spec (dec : Decides cmp good rank) {q : PriorityQueue V} (h : q.Indexed)
    (hg : AllGood good q) {i : Nat} (hi : i < q.heap.length) :
    ∃ c a b, q.largestOf cmp i = .ok c ∧ q.heap[i]? = some a ∧ q.heap[c]? = some b ∧
      BelowAtMost rank q i (q.rankOf rank b) ∧
      (c = i ∨ (0 < c ∧ BinaryHeap.parent c = i ∧ q.rankOf rank a < q.rankOf rank b)) := by
  obtain ⟨a, va, ha, hva, hpa⟩ := h.entry hi
  by_cases hl : left i < q.heap.length
  · obtain ⟨l, vl, hlid, hvl, hpl⟩ := h.entry hl
    by_cases hr : right i < q.heap.length
    · obtain ⟨r, vr, hrid, hvr, hpr⟩ := h.entry hr
      by_cases hal : rank va < rank vl
      · by_cases hlr : rank vl < rank vr
        · have hbelow := belowAtMost_both hlid hrid ((rankOf_le hvl hvr).mpr hlr.le) (le_refl _)
          refine ⟨right i, a, r, ?_, ha, hrid, hbelow, .inr ⟨by simp [right], parent_right i,
            (rankOf_lt hva hvr).mpr (hal.trans hlr)⟩⟩
          simp [largestOf, hpa, hl, hpl, dec va vl (hg _ _ hva) (hg _ _ hvl), hal, hr, hpr,
            dec vl vr (hg _ _ hvl) (hg _ _ hvr), hlr]
        · have hbelow := belowAtMost_both hlid hrid (le_refl _)
            ((rankOf_le hvr hvl).mpr (not_lt.mp hlr))
          refine ⟨left i, a, l, ?_, ha, hlid, hbelow, .inr ⟨by simp [left], parent_left i,
            (rankOf_lt hva hvl).mpr hal⟩⟩
          simp [largestOf, hpa, hl, hpl, dec va vl (hg _ _ hva) (hg _ _ hvl), hal, hr, hpr,
            dec vl vr (hg _ _ hvl) (hg _ _ hvr), hlr]
      · by_cases har : rank va < rank vr
        · have hbelow := belowAtMost_both hlid hrid
            ((rankOf_le hvl hvr).mpr ((not_lt.mp hal).trans har.le)) (le_refl _)
          refine ⟨right i, a, r, ?_, ha, hrid, hbelow, .inr ⟨by simp [right], parent_right i,
            (rankOf_lt hva hvr).mpr har⟩⟩
          simp [largestOf, hpa, hl, hpl, dec va vl (hg _ _ hva) (hg _ _ hvl), hal, hr, hpr,
            dec va vr (hg _ _ hva) (hg _ _ hvr), har]
        · have hbelow := belowAtMost_both hlid hrid ((rankOf_le hvl hva).mpr (not_lt.mp hal))
            ((rankOf_le hvr hva).mpr (not_lt.mp har))
          refine ⟨i, a, a, ?_, ha, ha, hbelow, .inl rfl⟩
          simp [largestOf, hpa, hl, hpl, dec va vl (hg _ _ hva) (hg _ _ hvl), hal, hr, hpr,
            dec va vr (hg _ _ hva) (hg _ _ hvr), har]
    · by_cases hal : rank va < rank vl
      · refine ⟨left i, a, l, ?_, ha, hlid, belowAtMost_left hlid hr (le_refl _),
          .inr ⟨by simp [left], parent_left i, (rankOf_lt hva hvl).mpr hal⟩⟩
        simp [largestOf, hpa, hl, hpl, dec va vl (hg _ _ hva) (hg _ _ hvl), hal, hr]
      · refine ⟨i, a, a, ?_, ha, ha, belowAtMost_left hlid hr ?_, .inl rfl⟩
        · simp [largestOf, hpa, hl, hpl, dec va vl (hg _ _ hva) (hg _ _ hvl), hal, hr]
        · exact (rankOf_le hvl hva).mpr (not_lt.mp hal)
  · exact ⟨i, a, a, by simp [largestOf, hpa, hl], ha, ha, belowAtMost_leaf hl, .inl rfl⟩

/-- A round of sifting down at `i` exchanges the entry with the highest-ranked one below it, which
outranks it. -/
structure Sinks (cmp : V → V → Except Fault Bool) (rank : V → κ) (q q' : PriorityQueue V)
    (i c a b : Nat) : Prop where
  largest : q.largestOf cmp i = .ok c
  swap : q.swap i c = .ok q'
  below : 0 < c ∧ BinaryHeap.parent c = i
  entry : q.heap[i]? = some a
  taken : q.heap[c]? = some b
  outranks : q.rankOf rank a < q.rankOf rank b
  highest : BelowAtMost rank q i (q.rankOf rank b)
  indexed : q'.Indexed
  same : q'.get = q.get
  heap : q'.heap = exchange q.heap i c a b

namespace Sinks
variable {q q' : PriorityQueue V} {i c a b : Nat}

theorem lt (s : Sinks cmp rank q q' i c a b) : i < c := by
  have hlt := BinaryHeap.parent_lt s.below.1
  rwa [s.below.2] at hlt

theorem length (s : Sinks cmp rank q q' i c a b) : q'.heap.length = q.heap.length := by
  rw [s.heap, exchange_length]

theorem lt_length (s : Sinks cmp rank q q' i c a b) : c < q'.heap.length := by
  rw [s.length]
  exact (List.getElem?_eq_some_iff.mp s.taken).1

end Sinks

/-- A round of sifting down finds the entry in its place, or exchanges it. -/
theorem heapifyRound (dec : Decides cmp good rank) {q : PriorityQueue V} (h : q.Indexed)
    (hg : AllGood good q) {i : Nat} (hi : i < q.heap.length) :
    (∃ a, q.largestOf cmp i = .ok i ∧ q.heap[i]? = some a ∧
      BelowAtMost rank q i (q.rankOf rank a)) ∨
    ∃ q' c a b, Sinks cmp rank q q' i c a b := by
  obtain ⟨c, a, b, hc, ha, hb, hmax, hcase⟩ := largestOf_spec dec h hg hi
  by_cases hci : c = i
  · subst hci
    exact .inl ⟨b, hc, hb, hmax⟩
  · obtain ⟨hcpos, hpar, hlt⟩ := hcase.resolve_left hci
    have hclt := (List.getElem?_eq_some_iff.mp hb).1
    obtain ⟨q', hs⟩ := h.swap_total hi hclt (Ne.symm hci)
    obtain ⟨h', same, idA, idB, hidA, hidB, hheap⟩ := swap_content h hs
    rw [ha, Option.some.injEq] at hidA
    rw [hb, Option.some.injEq] at hidB
    exact .inr ⟨q', c, a, b, hc, hs, ⟨hcpos, hpar⟩, ha, hb, hlt, hmax, h', same,
      hidA ▸ hidB ▸ hheap⟩

theorem heapifyLoop_stay {q : PriorityQueue V} {i : Nat} (h : q.largestOf cmp i = .ok i)
    (fuel : Nat) : heapifyLoop cmp (fuel + 1) q i = .ok q := by
  simp [heapifyLoop, h]

theorem Sinks.heapifyLoop {q q' : PriorityQueue V} {i c a b : Nat}
    (s : Sinks cmp rank q q' i c a b) (fuel : Nat) :
    heapifyLoop cmp (fuel + 1) q i = PriorityQueue.heapifyLoop cmp fuel q' c := by
  have hne : c ≠ i := Nat.ne_of_gt s.lt
  simp [PriorityQueue.heapifyLoop, s.largest, hne, s.swap]

/-- Sifting down ends, with the heap order restored. -/
theorem heapifyLoop_ordered (dec : Decides cmp good rank) {fuel : Nat} {q : PriorityQueue V}
    {i : Nat} (h : q.Indexed) (hg : AllGood good q) (hi : i < q.heap.length)
    (hf : q.heap.length ≤ fuel + i) (hs : Sinking q.heap (q.rankOf rank) i) :
    ∃ q', heapifyLoop cmp fuel q i = .ok q' ∧ HeapOrdered rank q' := by
  induction fuel generalizing q i with
  | zero => omega
  | succ fuel ih =>
    rcases heapifyRound dec h hg hi with ⟨a, hstay, ha, hmax⟩ | ⟨q₁, c, a, b, sinks⟩
    · refine ⟨q, heapifyLoop_stay hstay fuel, hs.ordered ?_⟩
      intro p hp he d e hd hpe
      rw [he, ha, Option.some.injEq] at hpe
      exact hpe ▸ hmax p hp he d hd
    · have hgt := sinks.lt
      have hlen := sinks.length
      have hs₁ : Sinking q₁.heap (q₁.rankOf rank) c := by
        rw [sinks.heap, rankOf_congr sinks.same]
        exact hs.move sinks.below.1 sinks.below.2 sinks.entry sinks.taken sinks.outranks
          sinks.highest
      obtain ⟨q', hq', ho⟩ := ih sinks.indexed (hg.congr sinks.same) sinks.lt_length (by omega) hs₁
      exact ⟨q', (sinks.heapifyLoop fuel).trans hq', ho⟩

/-- Sifting down ends whatever the order, since it only moves towards the leaves. -/
theorem heapifyLoop_total (dec : Decides cmp good rank) {fuel : Nat} {q : PriorityQueue V}
    {i : Nat} (h : q.Indexed) (hg : AllGood good q) (hi : i < q.heap.length)
    (hf : q.heap.length ≤ fuel + i) : ∃ q', heapifyLoop cmp fuel q i = .ok q' := by
  induction fuel generalizing q i with
  | zero => omega
  | succ fuel ih =>
    rcases heapifyRound dec h hg hi with ⟨a, hstay, _⟩ | ⟨q₁, c, a, b, sinks⟩
    · exact ⟨q, heapifyLoop_stay hstay fuel⟩
    · have hgt := sinks.lt
      have hlen := sinks.length
      obtain ⟨q', hq'⟩ := ih sinks.indexed (hg.congr sinks.same) sinks.lt_length (by omega)
      exact ⟨q', (sinks.heapifyLoop fuel).trans hq'⟩

theorem dropPeekMut_total (dec : Decides cmp good rank) {q : PriorityQueue V} {r : RefMut V}
    (h : q.Indexed) (hg : AllGood good q) (hv : good r.value) (hk : (q.get r.key).isSome) :
    Succeeds (q.dropPeekMut cmp r) := by
  cases hmod : r.modified with
  | false => exact ⟨q, by simp [dropPeekMut, hmod]⟩
  | true =>
    obtain ⟨h₁, _, hset⟩ := setValue_content h hk r.value
    by_cases hlen : (q.setValue r.key r.value).heap.length ≤ 1
    · exact ⟨q.setValue r.key r.value, by simp [dropPeekMut, hmod, heapify, hlen]⟩
    · obtain ⟨q', hq'⟩ := heapifyLoop_total dec h₁
        (hg.update hset (by rintro w ⟨⟩; exact hv)) (i := 0) (by omega) (Nat.le_refl _)
      exact ⟨q', by simp [dropPeekMut, hmod, heapify, hlen, hq']⟩

theorem dropRefMut_total (dec : Decides cmp good rank) {q : PriorityQueue V} {r : RefMut V}
    (h : q.Indexed) (hg : AllGood good q) (hv : good r.value) (hk : (q.get r.key).isSome) :
    Succeeds (q.dropRefMut cmp r) := by
  cases hmod : r.modified with
  | false => exact ⟨q, by simp [dropRefMut, hmod]⟩
  | true =>
    obtain ⟨h₁, _, hset⟩ := setValue_content h hk r.value
    obtain ⟨pos, hpos⟩ := get_eq_some.mp (by rw [hset, Function.update_self] :
      (q.setValue r.key r.value).get r.key = some r.value)
    have hlt := (List.getElem?_eq_some_iff.mp (h₁.lt_of_get hpos)).1
    by_cases hlen : (q.setValue r.key r.value).heap.length ≤ 1
    · exact ⟨q.setValue r.key r.value, by simp [dropRefMut, hmod, hpos, heapify, hlen]⟩
    · obtain ⟨q', hq'⟩ := heapifyLoop_total dec h₁
        (hg.update hset (by rintro w ⟨⟩; exact hv)) hlt (Nat.le_add_right _ _)
      exact ⟨q', by simp [dropRefMut, hmod, hpos, heapify, hlen, hq']⟩

theorem peekMut_total {q : PriorityQueue V} (h : q.Indexed) : Succeeds q.peekMut := by
  cases hid : q.heap[0]? with
  | none => exact ⟨none, by simp [peekMut, hid]⟩
  | some id =>
    obtain ⟨v, hv⟩ := Option.isSome_iff_exists.mp ((h.mem_iff id).mp (List.mem_of_getElem? hid))
    exact ⟨_, peekMut_of hid hv⟩

theorem ordered_of_length_le {q : PriorityQueue V} (h : q.heap.length ≤ 1) : HeapOrdered rank q := by
  intro p hp a b ha
  obtain ⟨hlt, _⟩ := List.getElem?_eq_some_iff.mp ha
  omega

theorem heapify_ordered (dec : Decides cmp good rank) {q : PriorityQueue V} {i : Nat}
    (h : q.Indexed) (hg : AllGood good q) (hi : i < q.heap.length ∨ q.heap = [])
    (hs : Sinking q.heap (q.rankOf rank) i) :
    ∃ q', q.heapify cmp i = .ok q' ∧ HeapOrdered rank q' := by
  by_cases hlen : q.heap.length ≤ 1
  · exact ⟨q, by simp [heapify, hlen], ordered_of_length_le hlen⟩
  · have hi' : i < q.heap.length := hi.resolve_right (by rintro e; simp [e] at hlen)
    obtain ⟨q', hq', ho⟩ := heapifyLoop_ordered dec h hg hi' (Nat.le_add_right _ i) hs
    exact ⟨q', by simp [heapify, hlen, hq'], ho⟩

/-- The state `bubble_up` reaches after one move, and what it holds. -/
theorem IndexedBut.pair {q : PriorityQueue V} {i : Nat} (h : q.IndexedBut i) (hpos : 0 < i)
    (hi : i < q.heap.length) :
    ∃ idC idP posC posP current above,
      q.getPair i (parent i) = .ok ((idC, posC, current), (idP, posP, above)) ∧
      q.heap[i]? = some idC ∧ q.heap[BinaryHeap.parent i]? = some idP ∧
      q.get idC = some current ∧ q.get idP = some above := by
  have hlt : parent i < i := BinaryHeap.parent_lt hpos
  obtain ⟨idC, posC, current, hidC, hmC, hvC⟩ := h.entry hi
  obtain ⟨idP, posP, above, hidP, hmP, hvP⟩ := h.entry (p := parent i) (by omega)
  have hne : idC ≠ idP := by
    intro e
    have := index_inj h.nodup (e ▸ hidC) hidP
    omega
  exact ⟨idC, idP, posC, posP, current, above,
    getPair_ok.mpr ⟨hidC, hidP, hmC, hmP, by omega, hne⟩, hidC, hidP, hvC, hvP⟩

/-- An entry that does not outrank the one above it stays. -/
theorem bubbleUpLoop_stops (dec : Decides cmp good rank) {q : PriorityQueue V} {i : Nat}
    (h : q.IndexedBut i) (hg : AllGood good q) (hi : i < q.heap.length)
    (hs : 0 < i → Settled q.heap (q.rankOf rank) i) (fuel : Nat) :
    bubbleUpLoop cmp (fuel + 1) q i = .ok (q, i) := by
  by_cases hpos : 0 < i
  · obtain ⟨idC, idP, posC, posP, current, above, hp, hidC, hidP, hvC, hvP⟩ := h.pair hpos hi
    have hcmp := dec above current (hg _ _ hvP) (hg _ _ hvC)
    have hle := (rankOf_le hvC hvP).mp (hs hpos idC idP hidC hidP)
    simp [bubbleUpLoop, hpos, hp, hcmp, not_lt.mpr hle]
  · simp [bubbleUpLoop, hpos]

/-- An entry that outranks the one above it changes places with it. -/
theorem bubbleUpLoop_moves (dec : Decides cmp good rank) {q : PriorityQueue V} {i a b : Nat}
    (h : q.IndexedBut i) (hg : AllGood good q) (hpos : 0 < i) (ha : q.heap[i]? = some a)
    (hb : q.heap[BinaryHeap.parent i]? = some b) (hlt : q.rankOf rank b < q.rankOf rank a) :
    ∃ q₁ : PriorityQueue V, (∀ fuel, bubbleUpLoop cmp (fuel + 1) q i =
        bubbleUpLoop cmp fuel q₁ (BinaryHeap.parent i)) ∧
      q₁.IndexedBut (BinaryHeap.parent i) ∧ q₁.get = q.get ∧
        q₁.heap = exchange q.heap i (BinaryHeap.parent i) a b := by
  have hi := (List.getElem?_eq_some_iff.mp ha).1
  obtain ⟨idC, idP, posC, posP, current, above, hp, hidC, hidP, hvC, hvP⟩ := h.pair hpos hi
  rw [ha, Option.some.injEq] at hidC
  rw [hb, Option.some.injEq] at hidP
  subst hidC hidP
  have hcmp := dec above current (hg _ _ hvP) (hg _ _ hvC)
  have hm := (rankOf_lt hvP hvC).mp hlt
  obtain ⟨h₁, same⟩ := bubbleUp_move h hp
  refine ⟨_, ?_, h₁, same, rfl⟩
  intro fuel
  rw [bubbleUpLoop, if_pos hpos, hp]
  simp [hcmp, hm]
  rfl

/-- Sifting up ends; started on an entry that rises in the part up to `n` it orders that part. -/
theorem bubbleUpLoop_rising (dec : Decides cmp good rank) {fuel n : Nat} {q : PriorityQueue V}
    {i : Nat} (h : q.IndexedBut i) (hg : AllGood good q) (hi : i < n) (hn : n ≤ q.heap.length)
    (hf : i < fuel) (hr : Rising (q.heap.take n) (q.rankOf rank) i) :
    ∃ q' i', bubbleUpLoop cmp fuel q i = .ok (q', i') ∧
      Ordered (q'.heap.take n) (q'.rankOf rank) ∧ i' < n ∧ q'.heap.length = q.heap.length := by
  induction fuel generalizing q i with
  | zero => omega
  | succ fuel ih =>
    by_cases hs : 0 < i → Settled (q.heap.take n) (q.rankOf rank) i
    · refine ⟨q, i, bubbleUpLoop_stops dec h hg (by omega) ?_ fuel, hr.ordered hs, hi, rfl⟩
      intro hpos a b ha hb
      have hlt := BinaryHeap.parent_lt hpos
      exact hs hpos a b (by rw [List.getElem?_take_of_lt hi, ha])
        (by rw [List.getElem?_take_of_lt (by omega), hb])
    · simp only [Classical.not_imp, Settled, not_forall, not_le] at hs
      obtain ⟨hpos, a, b, ha, hb, hlt⟩ := hs
      have hpar := BinaryHeap.parent_lt hpos
      have hr₁ := hr.move hpos ha hb hlt
      rw [List.getElem?_take_of_lt hi] at ha
      rw [List.getElem?_take_of_lt (by omega)] at hb
      obtain ⟨q₁, hstep, h₁, same, hheap⟩ := bubbleUpLoop_moves dec h hg hpos ha hb hlt
      rw [← exchange_take, ← hheap, ← rankOf_congr same] at hr₁
      have hlen : q₁.heap.length = q.heap.length := by rw [hheap, exchange_length]
      obtain ⟨q', i', hq', ho, hi', hlen'⟩ := ih h₁ (hg.congr same) (by omega) (by omega)
        (by omega) hr₁
      exact ⟨q', i', by rw [hstep, hq'], ho, hi', hlen'.trans hlen⟩

/-- Sifting up an entry of any rank leaves at most the entry it ends on to sift down. -/
theorem bubbleUpLoop_displaced (dec : Decides cmp good rank) {fuel : Nat} {q : PriorityQueue V}
    {i : Nat} (h : q.IndexedBut i) (hg : AllGood good q) (hi : i < q.heap.length)
    (hf : i < fuel) (hd : Displaced q.heap (q.rankOf rank) i) :
    ∃ q' i', bubbleUpLoop cmp fuel q i = .ok (q', i') ∧
      Sinking q'.heap (q'.rankOf rank) i' ∧ i' < q'.heap.length := by
  by_cases hs : 0 < i → Settled q.heap (q.rankOf rank) i
  · obtain ⟨fuel, rfl⟩ : ∃ n, fuel = n + 1 := ⟨fuel - 1, by omega⟩
    exact ⟨q, i, bubbleUpLoop_stops dec h hg hi hs fuel, hd.sinking hs, hi⟩
  · simp only [Classical.not_imp, Settled, not_forall, not_le] at hs
    obtain ⟨hpos, a, b, ha, hb, hlt⟩ := hs
    have hr := hd.rising hpos ha hb hlt
    rw [← List.take_length (l := q.heap)] at hr
    obtain ⟨q', i', hq', ho, hi', hlen⟩ := bubbleUpLoop_rising dec h hg hi (le_refl _) hf hr
    rw [List.take_of_length_le hlen.le] at ho
    exact ⟨q', i', hq', ho.sinking i', hlen ▸ hi'⟩

/-- The write that ends `bubble_up` succeeds and moves nothing. -/
theorem bubbleUp_finish {q q₁ : PriorityQueue V} {i i₁ : Nat} (h : q.IndexedBut i)
    (hl : bubbleUpLoop cmp (i + 1) q i = .ok (q₁, i₁)) (hi : i₁ < q₁.heap.length) :
    ∃ q', q.bubbleUp cmp i = .ok (q', i₁) ∧ q'.Indexed ∧ q'.get = q.get ∧
      q₁.get = q.get ∧ q'.heap = q₁.heap := by
  obtain ⟨h₁, same⟩ := bubbleUpLoop_content h hl
  obtain ⟨id, pos, v, hid, hm, _⟩ := h₁.entry hi
  obtain ⟨h₂, same'⟩ := h₁.settle hid hm
  refine ⟨{ q₁ with map := q₁.map.write id (i₁, v) }, ?_, h₂, same'.trans same, same, rfl⟩
  simp [bubbleUp, hl, heapAt_ok.mpr hid, VecMap.getUnchecked_ok.mpr hm]

theorem bubbleUp_ordered (dec : Decides cmp good rank) {q : PriorityQueue V} {i : Nat}
    (h : q.IndexedBut i) (hg : AllGood good q) (hi : i < q.heap.length)
    (hr : Rising q.heap (q.rankOf rank) i) :
    ∃ q' i', q.bubbleUp cmp i = .ok (q', i') ∧ HeapOrdered rank q' := by
  rw [← List.take_length (l := q.heap)] at hr
  obtain ⟨q₁, i₁, hl, ho, hlt, hlen⟩ :=
    bubbleUpLoop_rising dec h hg hi (le_refl _) (Nat.lt_succ_self i) hr
  rw [List.take_of_length_le hlen.le] at ho
  obtain ⟨q', hq', _, same', same, hheap⟩ := bubbleUp_finish h hl (hlen ▸ hlt)
  refine ⟨q', i₁, hq', ?_⟩
  rw [HeapOrdered, hheap, rankOf_congr (same'.trans same.symm)]
  exact ho

theorem upHeapify_ordered (dec : Decides cmp good rank) {q : PriorityQueue V} {i : Nat}
    (h : q.IndexedBut i) (hg : AllGood good q) (hi : i < q.heap.length)
    (hd : Displaced q.heap (q.rankOf rank) i) :
    ∃ q', q.upHeapify cmp i = .ok q' ∧ HeapOrdered rank q' := by
  obtain ⟨q₁, i₁, hl, hs, hlt⟩ := bubbleUpLoop_displaced dec h hg hi (Nat.lt_succ_self i) hd
  obtain ⟨q₂, hq₂, h₂, same₂, same₁, hheap⟩ := bubbleUp_finish h hl hlt
  have hs₂ : Sinking q₂.heap (q₂.rankOf rank) i₁ := by
    rw [hheap, rankOf_congr (same₂.trans same₁.symm)]
    exact hs
  obtain ⟨q', hq', ho⟩ := heapify_ordered dec h₂ (hg.congr same₂) (.inl (by rw [hheap]; exact hlt)) hs₂
  exact ⟨q', by simp [upHeapify, hq₂, hq'], ho⟩

/-- One changed value displaces the entry that holds it. -/
theorem HeapOrdered.displaced {q q' : PriorityQueue V} (ho : HeapOrdered rank q)
    (nodup : q.heap.Nodup) {id i : Nat} (hi : q.heap[i]? = some id) {v : V}
    (hheap : q'.heap = q.heap) (hget : q'.get = Function.update q.get id (some v)) :
    Displaced q'.heap (q'.rankOf rank) i := by
  rw [hheap]
  apply Ordered.displaced ho hi nodup
  intro a _ ha
  exact rankOf_update hget ha

theorem upHeapify_write_ordered (dec : Decides cmp good rank) {q : PriorityQueue V} {id pos : Nat}
    {old v : V} (h : q.Indexed) (hg : AllGood good q) (hv : good v) (ho : HeapOrdered rank q)
    (hm : q.map.get id = some (pos, old)) :
    ∃ q', upHeapify cmp { q with map := q.map.write id (pos, v) } pos = .ok q' ∧
      HeapOrdered rank q' := by
  have hk : (q.get id).isSome := isSome_get.mpr (by simp [hm])
  obtain ⟨h₁, hheap, hset⟩ := setValue_content h hk v
  have hpos := h.lt_of_get hm
  have hd := ho.displaced h.nodup hpos hheap hset
  have hlt := (List.getElem?_eq_some_iff.mp hpos).1
  have hgood : AllGood good (q.setValue id v) := by
    refine hg.update hset ?_
    intro w hw
    exact Option.some.inj hw ▸ hv
  obtain ⟨q', hq', ho'⟩ := upHeapify_ordered dec (h₁.but pos) hgood (by rw [hheap]; exact hlt) hd
  rw [setValue_eq v hm] at hq'
  exact ⟨q', hq', ho'⟩

theorem push_ordered (dec : Decides cmp good rank) {q : PriorityQueue V} {id : Nat} {v : V}
    (h : q.Indexed) (hg : AllGood good q) (hv : good v) (ho : HeapOrdered rank q) :
    ∃ q' old, q.push cmp id v = .ok (q', old) ∧ HeapOrdered rank q' := by
  cases hm : q.map.get id with
  | some entry =>
    obtain ⟨pos, old⟩ := entry
    obtain ⟨q', hq', ho'⟩ := upHeapify_write_ordered dec h hg hv ho hm
    exact ⟨q', some old, by simp [push, hm, hq'], ho'⟩
  | none =>
    obtain ⟨hbut, hget⟩ := appended_content h hm v
    have hr : Rising (q.heap ++ [id])
        (rankOf rank { map := q.map.insert id (q.heap.length, v), heap := q.heap ++ [id] })
        q.heap.length := by
      have inside : ∀ (p : Nat) (a : Nat), (q.heap ++ [id])[p]? = some a → p ≠ q.heap.length →
          q.heap[p]? = some a ∧ a ≠ id := by
        intro p a ha hp
        have hlt := (List.getElem?_eq_some_iff.mp ha).1
        rw [List.length_append, List.length_singleton] at hlt
        rw [List.getElem?_append_left (by omega)] at ha
        refine ⟨ha, fun e => ?_⟩
        have := (h.mem_iff a).mp (List.mem_of_getElem? ha)
        rw [e, isSome_get, hm] at this
        cases this
      constructor
      · intro p hp hpn a b ha hb
        have hplt := BinaryHeap.parent_lt hp
        obtain ⟨hlt, _⟩ := List.getElem?_eq_some_iff.mp ha
        rw [List.length_append, List.length_singleton] at hlt
        obtain ⟨ha', hna⟩ := inside p a ha hpn
        obtain ⟨hb', hnb⟩ := inside _ b hb (by omega)
        have := ho p hp a b ha' hb'
        rwa [rankOf_update hget hna, rankOf_update hget hnb]
      · intro _ p hp he a b ha hb
        have hplt := BinaryHeap.parent_lt hp
        obtain ⟨hlt, _⟩ := List.getElem?_eq_some_iff.mp ha
        rw [List.length_append, List.length_singleton] at hlt
        omega
    obtain ⟨q', i', hq', ho'⟩ := bubbleUp_ordered dec hbut
      (hg.update hget (by rintro w ⟨⟩; exact hv)) (by simp) hr
    exact ⟨q', none, by simp [push, hm, hq'], ho'⟩

/-- Taking the last entry into a vacated position displaces it and nothing else. -/
theorem swapRemoveAt_displaced {q q' : PriorityQueue V} {position id : Nat} {v : V}
    (h : q.Indexed) (ho : HeapOrdered rank q)
    (hs : q.swapRemoveAt position = .ok (q', id, v)) :
    Displaced q'.heap (q'.rankOf rank) position := by
  obtain ⟨hid, _, h', hget, hheap⟩ := swapRemoveAt_content h hs
  have old : ∀ (p a : Nat), p ≠ position → q'.heap[p]? = some a →
      q.heap[p]? = some a ∧ q'.rankOf rank a = q.rankOf rank a := by
    intro p a hp ha
    have hne : a ≠ id := by
      intro e
      have := (h'.mem_iff a).mp (List.mem_of_getElem? ha)
      rw [hget, e, Function.update_self] at this
      cases this
    rw [swapRemove_get hheap, if_neg hp] at ha
    split at ha
    · exact ⟨ha, rankOf_update hget hne⟩
    · cases ha
  constructor
  · intro p hp hne hpar a b ha hb
    obtain ⟨ha', hra⟩ := old p a hne ha
    obtain ⟨hb', hrb⟩ := old _ b hpar hb
    rw [hra, hrb]
    exact ho p hp a b ha' hb'
  · intro hpos p hp he a b ha hb
    have hlt := BinaryHeap.parent_lt hpos
    have hlt' := BinaryHeap.parent_lt hp
    obtain ⟨ha', hra⟩ := old p a (by omega) ha
    obtain ⟨hb', hrb⟩ := old _ b (by omega) hb
    rw [hra, hrb]
    exact ho.grand position hpos p hp he a b ha' hb'

theorem swapRemoveAt_total {q : PriorityQueue V} (h : q.Indexed) {position : Nat}
    (hp : position < q.heap.length) :
    ∃ q' id v, q.swapRemoveAt position = .ok (q', id, v) := by
  obtain ⟨last, pos, v, hlast, hm, hv⟩ := (h.but 0).entry (p := q.heap.length - 1) (by omega)
  obtain ⟨head, posH, w, hhead, hmH, hvH⟩ := (h.but 0).entry hp
  obtain ⟨heap, hheap⟩ := swapRemove_of_lt hp
  have hget := congrFun (get_write_position (p := position) hv) head
  rw [hvH] at hget
  obtain ⟨posR, hmR⟩ := get_eq_some.mp hget
  refine ⟨{ map := (q.map.write last (position, v)).remove head, heap := heap }, head, w, ?_⟩
  have hread : (q.map.write last (position, v)).getUnchecked head = .ok (posR, w) :=
    VecMap.getUnchecked_ok.mpr hmR
  simp only [swapRemoveAt, heapAt_ok.mpr hlast, ok_bind, VecMap.getUnchecked_ok.mpr hm, hhead,
    hheap, hread, except_pure]

theorem pop_ordered (dec : Decides cmp good rank) {q : PriorityQueue V} (h : q.Indexed)
    (hg : AllGood good q) (ho : HeapOrdered rank q) :
    ∃ q' r, q.pop cmp = .ok (q', r) ∧ HeapOrdered rank q' := by
  by_cases hlen : q.heap.length = 0
  · exact ⟨q, none, by simp [pop, hlen], ho⟩
  · obtain ⟨q₁, id, v, hs⟩ := swapRemoveAt_total h (Nat.pos_of_ne_zero hlen)
    obtain ⟨_, _, h₁, hget, _⟩ := swapRemoveAt_content h hs
    have hgood : AllGood good q₁ := by
      refine hg.update hget ?_
      intro w hw
      cases hw
    have hd := (swapRemoveAt_displaced h ho hs).sinking fun h0 => absurd h0 (Nat.lt_irrefl 0)
    have hsome : 0 < q₁.heap.length ∨ q₁.heap = [] :=
      (Nat.eq_zero_or_pos _).symm.imp_right List.eq_nil_of_length_eq_zero
    obtain ⟨q', hq', ho'⟩ := heapify_ordered dec h₁ hgood hsome hd
    exact ⟨q', some (id, v), by simp [pop, hlen, hs, hq'], ho'⟩

theorem remove_ordered (dec : Decides cmp good rank) {q : PriorityQueue V} {id : Nat}
    (h : q.Indexed) (hg : AllGood good q) (ho : HeapOrdered rank q) :
    ∃ q' r, q.remove cmp id = .ok (q', r) ∧ HeapOrdered rank q' := by
  cases hm : q.map.get id with
  | none => exact ⟨q, none, by simp [remove, hm], ho⟩
  | some entry =>
    obtain ⟨pos, v⟩ := entry
    have hpos := h.lt_of_get hm
    obtain ⟨q₁, id₁, v₁, hs⟩ := swapRemoveAt_total h (List.getElem?_eq_some_iff.mp hpos).1
    have hd := swapRemoveAt_displaced h ho hs
    obtain ⟨_, _, h₁, hget, _⟩ := swapRemoveAt_content h hs
    by_cases hlt : pos < q₁.heap.length
    · obtain ⟨q', hq', ho'⟩ := upHeapify_ordered dec (h₁.but pos)
        (hg.update hget (by rintro w ⟨⟩)) hlt hd
      exact ⟨q', some (id₁, v₁), by simp [remove, hm, hs, hlt, hq'], ho'⟩
    · refine ⟨q₁, some (id₁, v₁), by simp [remove, hm, hs, hlt], ?_⟩
      intro p hp a b ha hb
      have := (List.getElem?_eq_some_iff.mp ha).1
      have := BinaryHeap.parent_lt hp
      exact hd.except p hp (by omega) (by omega) a b ha hb

/-- The value written for `key` ranks no higher than the entry above it. -/
def StaysBelow (rank : V → κ) (q : PriorityQueue V) (key : Nat) (value : V) : Prop :=
  match q.map.get key with
  | some (p, _) => 0 < p → ∀ id ∈ q.heap[parent p]?, ∀ w ∈ q.get id, rank value ≤ rank w
  | none => True

instance (rank : V → κ) (q : PriorityQueue V) (key : Nat) (value : V) :
    Decidable (StaysBelow rank q key value) := by
  unfold StaysBelow
  split <;> infer_instance

/-- Dropping a borrow restores the heap order when the new value need not rise. -/
theorem dropRefMut_ordered (dec : Decides cmp good rank) {q : PriorityQueue V} {r : RefMut V}
    (h : q.Indexed) (hg : AllGood good q) (hv : good r.value) (ho : HeapOrdered rank q)
    (hk : (q.get r.key).isSome) (hb : r.modified = true → StaysBelow rank q r.key r.value) :
    ∃ q', q.dropRefMut cmp r = .ok q' ∧ HeapOrdered rank q' := by
  cases hmod : r.modified with
  | false => exact ⟨q, by simp [dropRefMut, hmod], ho⟩
  | true =>
    obtain ⟨⟨p, v⟩, hm⟩ := Option.isSome_iff_exists.mp (isSome_get.mp hk)
    obtain ⟨h₁, hheap, hset⟩ := setValue_content h hk r.value
    have hpos := h.lt_of_get hm
    have hlt := (List.getElem?_eq_some_iff.mp hpos).1
    have hd := ho.displaced h.nodup hpos hheap hset
    have hs : Sinking (q.setValue r.key r.value).heap
        ((q.setValue r.key r.value).rankOf rank) p := by
      apply hd.sinking
      intro hp0 a b ha hb'
      have hplt := BinaryHeap.parent_lt hp0
      rw [hheap] at ha hb'
      rw [hpos, Option.some.injEq] at ha
      subst ha
      obtain ⟨w, hw⟩ := Option.isSome_iff_exists.mp ((h.mem_iff b).mp (List.mem_of_getElem? hb'))
      have hne : b ≠ r.key := by
        intro e
        have := index_inj h.nodup (e ▸ hb') hpos
        omega
      have hbelow := hb hmod
      simp only [StaysBelow, hm] at hbelow
      refine (rankOf_le (v := r.value) (w := w) (by rw [hset, Function.update_self])
        (by rw [hset, Function.update_of_ne hne]; exact hw)).mpr ?_
      exact hbelow hp0 b hb' w hw
    obtain ⟨q', hq', ho'⟩ := heapify_ordered dec h₁ (hg.update hset (by rintro w ⟨⟩; exact hv))
      (.inl (by rw [hheap]; exact hlt)) hs
    have hm' : (q.setValue r.key r.value).map.get r.key = some (p, r.value) := by
      rw [setValue_eq r.value hm]
      change (q.map.write r.key (p, r.value)).get r.key = _
      rw [VecMap.get_write (isSome_get.mp hk), Function.update_self]
    exact ⟨q', by simp [dropRefMut, hmod, hm', hq'], ho'⟩

/-- Dropping the borrow of the root restores the heap order whatever was written. -/
theorem dropPeekMut_ordered (dec : Decides cmp good rank) {q : PriorityQueue V} {r : RefMut V}
    (h : q.Indexed) (hg : AllGood good q) (hv : good r.value) (ho : HeapOrdered rank q)
    (hroot : q.heap[0]? = some r.key) :
    ∃ q', q.dropPeekMut cmp r = .ok q' ∧ HeapOrdered rank q' := by
  cases hmod : r.modified with
  | false => exact ⟨q, by simp [dropPeekMut, hmod], ho⟩
  | true =>
    have hk : (q.get r.key).isSome := (h.mem_iff _).mp (List.mem_of_getElem? hroot)
    have hlt := (List.getElem?_eq_some_iff.mp hroot).1
    obtain ⟨h₁, hheap, hset⟩ := setValue_content h hk r.value
    have hd := ho.displaced h.nodup hroot hheap hset
    obtain ⟨q', hq', ho'⟩ := heapify_ordered dec h₁ (hg.update hset (by rintro w ⟨⟩; exact hv))
      (.inl (by rw [hheap]; exact hlt)) (hd.sinking (fun h0 => absurd h0 (Nat.lt_irrefl 0)))
    exact ⟨q', by simp [dropPeekMut, hmod, hq'], ho'⟩

/-- The root of an ordered heap outranks every entry. -/
theorem HeapOrdered.root_max {q : PriorityQueue V} (ho : HeapOrdered rank q) (h : q.Indexed)
    {root id : Nat} {v w : V} (hroot : q.heap[0]? = some root) (hv : q.get root = some v)
    (hw : q.get id = some w) : rank w ≤ rank v := by
  have hm : id ∈ q.heap := (h.mem_iff id).mpr (by simp [hw])
  exact (rankOf_le hw hv).mp (ho.root_max_mem hroot hm)

end GridServer.PriorityQueue
