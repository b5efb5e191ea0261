import GridServer.Shared.PriorityQueueRuns

namespace GridServer.PriorityQueue
open Library BinaryHeap

/-! What `Drop for RefMut` and `map` make of a queue that may have lost its order. -/

variable {V κ : Type} {cmp : V → V → Except Fault Bool} {good : V → Prop} {rank : V → κ}

theorem largestOf_cases {q : PriorityQueue V} {i c : Nat} (h : q.largestOf cmp i = .ok c) :
    c = i ∨ c = left i ∨ c = right i := by
  simp only [largestOf, bind_ok, except_pure] at h
  obtain ⟨top, _, h⟩ := h
  split at h
  · simp only [bind_ok] at h
    obtain ⟨child, _, above, _, h⟩ := h
    split at h
    · simp only [bind_ok, Except.ok.injEq] at h
      obtain ⟨other, _, above', _, rfl⟩ := h
      cases above <;> cases above' <;> simp
    · rw [Except.ok.injEq] at h
      subst h
      cases above <;> simp
  · rw [Except.ok.injEq] at h
    exact .inl h.symm

/-- Sifting down leaves what stands before the position it starts on. -/
theorem heapifyLoop_above {fuel : Nat} {q q' : PriorityQueue V} {i : Nat} (h : q.Indexed)
    (hl : heapifyLoop cmp fuel q i = .ok q') :
    q'.heap.length = q.heap.length ∧ ∀ p, p < i → q'.heap[p]? = q.heap[p]? := by
  induction fuel generalizing q i with
  | zero => cases hl
  | succ fuel ih =>
    simp only [heapifyLoop, bind_ok] at hl
    obtain ⟨c, hc, hl⟩ := hl
    split at hl
    · rename_i hne
      rw [bind_ok] at hl
      obtain ⟨q₁, hs, hl⟩ := hl
      obtain ⟨h₁, _, a, b, ha, hb, hheap⟩ := swap_content h hs
      obtain ⟨hlen, hsame⟩ := ih h₁ hl
      have hic : i < c := by
        rcases largestOf_cases hc with rfl | rfl | rfl
        · exact absurd rfl hne
        · unfold left; omega
        · unfold right; omega
      rw [hheap, exchange_length] at hlen
      refine ⟨hlen, ?_⟩
      intro p hp
      rw [hsame p (by omega), hheap, exchange_get ha hb, if_neg (by omega), if_neg (by omega)]
    · simp only [except_pure, Except.ok.injEq] at hl
      exact hl ▸ ⟨rfl, fun _ _ => rfl⟩

/-- Sifting up moves one entry towards the root; what is not on its way stays. -/
theorem bubbleUpLoop_frame {fuel : Nat} {q q' : PriorityQueue V} {i i' : Nat}
    (hl : bubbleUpLoop cmp fuel q i = .ok (q', i')) :
    q'.heap.length = q.heap.length ∧ i' ≤ i ∧ ∀ p, i < p ∨ p < i' → q'.heap[p]? = q.heap[p]? := by
  induction fuel generalizing q i with
  | zero => cases hl
  | succ fuel ih =>
    unfold bubbleUpLoop at hl
    split at hl
    · rename_i hpos
      simp only [bind_ok] at hl
      obtain ⟨⟨⟨idC, posC, current⟩, idP, posP, above⟩, hp, moves, _, hl⟩ := hl
      obtain ⟨hi, hj, _⟩ := getPair_ok.mp hp
      have hlt : parent i < i := BinaryHeap.parent_lt hpos
      split at hl
      · obtain ⟨hlen, hle, hsame⟩ := ih hl
        rw [exchange_length] at hlen
        refine ⟨hlen, by omega, ?_⟩
        intro p hp
        rw [hsame p (by omega), exchange_get hi hj, if_neg (by omega), if_neg (by omega)]
      · simp only [except_pure, Except.ok.injEq, Prod.mk.injEq] at hl
        obtain ⟨rfl, rfl⟩ := hl
        exact ⟨rfl, le_refl _, fun _ _ => rfl⟩
    · simp only [except_pure, Except.ok.injEq, Prod.mk.injEq] at hl
      obtain ⟨rfl, rfl⟩ := hl
      exact ⟨rfl, le_refl _, fun _ _ => rfl⟩

section Ranked
variable [LinearOrder κ] (dec : Decides cmp good rank)
include dec

/-- Sifting down puts the highest-ranked of an entry and those below it where the entry was. -/
theorem heapify_top {q : PriorityQueue V} (h : q.Indexed) (hg : AllGood good q) {i a : Nat}
    (ha : q.heap[i]? = some a) :
    ∃ q', q.heapify cmp i = .ok q' ∧ q'.heap.length = q.heap.length ∧
      ((q' = q ∧ BelowAtMost rank q i (q.rankOf rank a)) ∨
        ∃ c b, 0 < c ∧ BinaryHeap.parent c = i ∧ q.heap[c]? = some b ∧
          q.rankOf rank a < q.rankOf rank b ∧ BelowAtMost rank q i (q.rankOf rank b) ∧
          q'.heap[i]? = some b ∧ ∀ p, p < c → p ≠ i → q'.heap[p]? = q.heap[p]?) := by
  have hi := (List.getElem?_eq_some_iff.mp ha).1
  by_cases hlen : q.heap.length ≤ 1
  · refine ⟨q, by simp [heapify, hlen], rfl, .inl ⟨rfl, ?_⟩⟩
    intro p hp _ d hd
    have hplen := (List.getElem?_eq_some_iff.mp hd).1
    omega
  · obtain ⟨n, hn⟩ : ∃ n, q.heap.length = n + 1 := ⟨q.heap.length - 1, by omega⟩
    have hloop : q.heapify cmp i = heapifyLoop cmp (n + 1) q i := by
      rw [heapify, if_neg hlen, hn]
    rw [hloop]
    rcases heapifyRound dec h hg hi with ⟨a', hstay, ha', hmax⟩ | ⟨q₁, c, a', b, sinks⟩
    · obtain rfl : a = a' := Option.some.inj (ha.symm.trans ha')
      exact ⟨q, heapifyLoop_stay hstay n, rfl, .inl ⟨rfl, hmax⟩⟩
    · obtain rfl : a = a' := Option.some.inj (ha.symm.trans sinks.entry)
      have hgt := sinks.lt
      have hlen₁ := sinks.length
      obtain ⟨q', hq'⟩ : ∃ q', heapifyLoop cmp n q₁ c = .ok q' :=
        heapifyLoop_total dec sinks.indexed (hg.congr sinks.same) sinks.lt_length (by omega)
      obtain ⟨hlen', hbefore⟩ := heapifyLoop_above sinks.indexed hq'
      refine ⟨q', (sinks.heapifyLoop n).trans hq', hlen'.trans hlen₁, .inr ⟨c, b, sinks.below.1,
        sinks.below.2, sinks.taken, sinks.outranks, sinks.highest, ?_, ?_⟩⟩
      · rw [hbefore i hgt, sinks.heap, exchange_get ha sinks.taken, if_neg (by omega), if_pos rfl]
      · intro p hpc hpi
        rw [hbefore p hpc, sinks.heap, exchange_get ha sinks.taken, if_neg (by omega), if_neg hpi]

/-- After sifting down at `i` the part up to `k` is ordered unless an entry from behind `k` comes up
under a lower-ranked one. -/
theorem heapify_prefix {q : PriorityQueue V} (h : q.Indexed) (hg : AllGood good q) {i k : Nat}
    (hik : i ≤ k) (hk : k < q.heap.length) (ho : Ordered (q.heap.take (k + 1)) (q.rankOf rank)) :
    ∃ q', q.heapify cmp i = .ok q' ∧ q'.heap.length = q.heap.length ∧
      (Ordered (q'.heap.take (k + 1)) (q'.rankOf rank) ↔
        SettledAfter q.heap (q.rankOf rank) i k) := by
  have ho' := ordered_take.mp ho
  obtain ⟨a, _, ha, _⟩ := h.entry (p := i) (by omega)
  obtain ⟨q', hq', hlen, hcase⟩ := heapify_top dec h hg ha
  refine ⟨q', hq', hlen, ?_⟩
  rcases hcase with ⟨rfl, hbelow⟩ | ⟨c, b, hcpos, hpar, hb, hlt, hmax, htop, hsame⟩
  · refine ⟨?_, fun _ => ho⟩
    intro _ hpos c hkc hpc s g hs hparent
    exact (hbelow c (by omega) hpc s hs).trans (ho' i hpos (by omega) a g ha hparent)
  · have hkc : k < c := by
      by_contra hck
      exact absurd (ho' c hcpos (by omega) b a hb (hpar ▸ ha)) (not_le.mpr hlt)
    have hpi : 0 < i → BinaryHeap.parent i < i := BinaryHeap.parent_lt
    rw [ordered_take, rankOf_congr (heapify_content h hq').2]
    constructor
    · intro hafter hpos c' _ hpc s g hs hparent
      have hup := hpi hpos
      have hbg := hafter i hpos (by omega) b g htop
        (by rw [hsame _ (by omega) (by omega), hparent])
      exact (hmax c' (by omega) hpc s hs).trans hbg
    · intro hcalm p hp hpk x y hx hy
      have hup := BinaryHeap.parent_lt hp
      by_cases hpe : p = i
      · subst hpe
        rw [htop, Option.some.injEq] at hx
        rw [hsame _ (by omega) (by omega)] at hy
        exact hx ▸ hcalm hp c hkc hpar b y hb hy
      · rw [hsame p (by omega) hpe] at hx
        by_cases hpp : BinaryHeap.parent p = i
        · rw [hpp, htop, Option.some.injEq] at hy
          exact hy ▸ hmax p hp hpp x hx
        · rw [hsame _ (by omega) hpp] at hy
          exact ho' p hp hpk x y hx hy

/-- Where sifting up ends on a position that nothing from behind `i` can outrank, it started on a
calm one. -/
theorem bubbleUpLoop_calm {q q₁ : PriorityQueue V} (h : q.Indexed) (hg : AllGood good q)
    {i i₁ : Nat} (hi : i < q.heap.length) (hl : bubbleUpLoop cmp (i + 1) q i = .ok (q₁, i₁)) :
    SettledAfter q₁.heap (q.rankOf rank) i₁ i ↔ Calm q.heap (q.rankOf rank) i := by
  by_cases hs : 0 < i → Settled q.heap (q.rankOf rank) i
  · -- The entry stays.
    rw [bubbleUpLoop_stops dec (h.but i) hg hi hs, Except.ok.injEq, Prod.mk.injEq] at hl
    obtain ⟨rfl, rfl⟩ := hl
    exact (calm_iff_settledAfter hs).symm
  · have hns : ¬Settled q.heap (q.rankOf rank) i := fun h' => hs fun _ => h'
    simp only [Classical.not_imp, Settled, not_forall, not_le] at hs
    obtain ⟨hpos, a, b, ha, hb, hlt⟩ := hs
    have hup := BinaryHeap.parent_lt hpos
    obtain ⟨q₃, hstep, h₃, same₃, hheap₃⟩ := bubbleUpLoop_moves dec (h.but i) hg hpos ha hb hlt
    rw [hstep] at hl
    have hlen₃ : q₃.heap.length = q.heap.length := by rw [hheap₃, exchange_length]
    have hmoved : q₃.heap[BinaryHeap.parent i]? = some a := by
      rw [hheap₃, exchange_get ha hb, if_pos rfl]
    have hrest : ∀ p, p ≠ i → p ≠ BinaryHeap.parent i → q₃.heap[p]? = q.heap[p]? := by
      intro p hpi hpp
      rw [hheap₃, exchange_get ha hb, if_neg hpp, if_neg hpi]
    obtain ⟨n, rfl⟩ : ∃ n, i = n + 1 := ⟨i - 1, by omega⟩
    by_cases hs₃ : 0 < BinaryHeap.parent (n + 1) →
        Settled q₃.heap (q₃.rankOf rank) (BinaryHeap.parent (n + 1))
    · -- It goes up by one: only its sibling may come up from behind.
      rw [bubbleUpLoop_stops dec h₃ (hg.congr same₃) (by omega) hs₃, Except.ok.injEq,
        Prod.mk.injEq] at hl
      obtain ⟨rfl, rfl⟩ := hl
      have hgrand : 0 < BinaryHeap.parent (n + 1) →
          BinaryHeap.parent (BinaryHeap.parent (n + 1)) < BinaryHeap.parent (n + 1) :=
        BinaryHeap.parent_lt
      constructor
      · intro after
        refine ⟨fun hset => absurd hset hns, ?_⟩
        intro _ hpp hsib _ s g _ hs' hg' _
        have hup' := hgrand hpp
        exact after hpp (n + 1 + 1) (by omega) hsib s g
          (by rw [hrest _ (by omega) (by omega), hs'])
          (by rw [hrest _ (by omega) (by omega), hg'])
      · intro calm hpp c hc hpar s g hs' hg'
        have hup' := hgrand hpp
        have hceq : c = n + 1 + 1 := by unfold BinaryHeap.parent at hpar; omega
        subst hceq
        have hle := hs₃ hpp a g hmoved hg'
        rw [rankOf_congr same₃] at hle
        rw [hrest _ (by omega) (by omega)] at hs' hg'
        exact calm.rises hns hpp hpar a s g ha hs' hg' hle
    · -- It goes up further: below the position it ends on nothing stands behind `i`.
      simp only [Classical.not_imp, Settled, not_forall, not_le] at hs₃
      obtain ⟨hpp, a', g, ha', hg', hgt⟩ := hs₃
      rw [hmoved, Option.some.injEq] at ha'
      subst ha'
      have hup' := BinaryHeap.parent_lt hpp
      obtain ⟨q₄, hstep', _⟩ := bubbleUpLoop_moves dec h₃ (hg.congr same₃) hpp hmoved hg' hgt
      rw [hstep'] at hl
      obtain ⟨_, hle, _⟩ := bubbleUpLoop_frame hl
      rw [rankOf_congr same₃] at hgt
      rw [hrest _ (by omega) (by omega)] at hg'
      constructor
      · intro _
        refine ⟨fun hset => absurd hset hns, ?_⟩
        intro _ _ _ x _ g' hx _ hgx hxg
        rw [ha, Option.some.injEq] at hx
        rw [hg', Option.some.injEq] at hgx
        subst hx hgx
        exact absurd hxg (not_le.mpr hgt)
      · intro _ _ c hc hpar
        unfold BinaryHeap.parent at *
        omega

/-- One pass of `map`'s loop orders one position more, if and only if it starts on a calm one. -/
theorem upHeapify_prefix {q : PriorityQueue V} (h : q.Indexed) (hg : AllGood good q) {i : Nat}
    (hi : i < q.heap.length) (ho : Ordered (q.heap.take i) (q.rankOf rank)) :
    ∃ q', q.upHeapify cmp i = .ok q' ∧ q'.heap.length = q.heap.length ∧
      (Ordered (q'.heap.take (i + 1)) (q'.rankOf rank) ↔ Calm q.heap (q.rankOf rank) i) := by
  obtain ⟨q₁, i₁, hl, ho₁, hi₁, hlen₁⟩ := bubbleUpLoop_rising dec (h.but i) hg
    (Nat.lt_succ_self i) hi (Nat.lt_succ_self i) (rising_take ho)
  obtain ⟨q₂, hq₂, h₂, same₂, same₁, hheap⟩ := bubbleUp_finish (h.but i) hl (by omega)
  rw [← hheap, rankOf_congr (same₁.trans same₂.symm)] at ho₁
  obtain ⟨q', hq', hlen', hiff⟩ := heapify_prefix dec h₂ (hg.congr same₂) (i := i₁) (k := i)
    (by omega) (by rw [hheap]; omega) ho₁
  refine ⟨q', by simp [upHeapify, hq₂, hq'], by rw [hlen', hheap, hlen₁], hiff.trans ?_⟩
  rw [hheap, rankOf_congr same₂]
  exact bubbleUpLoop_calm dec h hg hi hl

theorem bubbleUpLoop_total {fuel : Nat} {q : PriorityQueue V} {i : Nat} (h : q.IndexedBut i)
    (hg : AllGood good q) (hi : i < q.heap.length) (hf : i < fuel) :
    ∃ q' i', bubbleUpLoop cmp fuel q i = .ok (q', i') := by
  induction fuel generalizing q i with
  | zero => omega
  | succ fuel ih =>
    by_cases hs : 0 < i → Settled q.heap (q.rankOf rank) i
    · exact ⟨q, i, bubbleUpLoop_stops dec h hg hi hs fuel⟩
    · simp only [Classical.not_imp, Settled, not_forall, not_le] at hs
      obtain ⟨hpos, a, b, ha, hb, hlt⟩ := hs
      have hup := BinaryHeap.parent_lt hpos
      obtain ⟨q₁, hstep, h₁, same, hheap⟩ := bubbleUpLoop_moves dec h hg hpos ha hb hlt
      rw [hstep]
      exact ih h₁ (hg.congr same) (by rw [hheap, exchange_length]; omega) (by omega)

/-- Sifting an entry up and down ends, whatever the order. -/
theorem upHeapify_total {q : PriorityQueue V} (h : q.Indexed) (hg : AllGood good q) {i : Nat}
    (hi : i < q.heap.length) :
    ∃ q', q.upHeapify cmp i = .ok q' ∧ q'.heap.length = q.heap.length := by
  obtain ⟨q₁, i₁, hl⟩ := bubbleUpLoop_total dec (h.but i) hg hi (Nat.lt_succ_self i)
  obtain ⟨hlen₁, hle, _⟩ := bubbleUpLoop_frame hl
  obtain ⟨q₂, hq₂, h₂, same₂, _, hheap⟩ := bubbleUp_finish (h.but i) hl (by omega)
  obtain ⟨a, _, ha, _⟩ := h₂.entry (p := i₁) (by rw [hheap]; omega)
  obtain ⟨q', hq', hlen', _⟩ := heapify_top dec h₂ (hg.congr same₂) ha
  exact ⟨q', by simp [upHeapify, hq₂, hq'], by rw [hlen', hheap, hlen₁]⟩

/-- Removing an entry ends, whatever the order. -/
theorem remove_total {q : PriorityQueue V} (h : q.Indexed) (hg : AllGood good q) (id : Nat) :
    Succeeds (q.remove cmp id) := by
  cases hm : q.map.get id with
  | none => exact ⟨(q, none), by simp [remove, hm]⟩
  | some entry =>
    obtain ⟨pos, v⟩ := entry
    obtain ⟨q₁, id₁, v₁, hs⟩ :=
      swapRemoveAt_total h (List.getElem?_eq_some_iff.mp (h.lt_of_get hm)).1
    by_cases hlt : pos < q₁.heap.length
    · obtain ⟨_, _, h₁, hget, _⟩ := swapRemoveAt_content h hs
      have hg₁ : AllGood good q₁ := by
        refine hg.update hget ?_
        intro w hw
        cases hw
      obtain ⟨q', hq', _⟩ := upHeapify_total dec h₁ hg₁ hlt
      exact ⟨(q', some (id₁, v₁)), by simp [remove, hm, hs, hlt, hq']⟩
    · exact ⟨(q₁, some (id₁, v₁)), by simp [remove, hm, hs, hlt]⟩

end Ranked

variable [LinearOrder κ]

/-- The value at a position of the heap. -/
def valueAt (q : PriorityQueue V) (p : Nat) : Option V := q.heap[p]?.bind q.get

/-- The value at position `p` is strictly before the one at `r`. -/
def Outranks (order : Order) (rank : V → κ) (q : PriorityQueue V) (p r : Nat) : Prop :=
  ∃ v ∈ q.valueAt p, ∃ w ∈ q.valueAt r, order.Before (rank v) (rank w)

/-- A new value for `id` is not strictly before the one in the position above it. -/
def StaysBehind (order : Order) (rank : V → κ) (q : PriorityQueue V) (id : Nat) (value : V) :
    Prop :=
  ∀ p, 0 < p → q.heap[p]? = some id →
    ∀ w ∈ q.valueAt (parent p), ¬order.Before (rank value) (rank w)

/-- The loop of `map` before its pass over position `n`. -/
def siftedTo (cmp : V → V → Except Fault Bool) (q : PriorityQueue V) (f : V → V) (n : Nat) :
    Except Fault (PriorityQueue V) :=
  (List.range n).foldlM (fun q i => q.upHeapify cmp i)
    { q with map := q.map.mapValues fun entry => (entry.1, f entry.2) }

/-- No position up to `n` is strictly before the one above it. -/
def OrderedTo (order : Order) (rank : V → κ) (q : PriorityQueue V) (n : Nat) : Prop :=
  ∀ p, 0 < p → p ≤ n → ¬Outranks order rank q p (parent p)

/-- What may come up when position `i` is sifted stays behind what it comes to stand under: the two
below `i` if the entry at `i` stays, the one beside it if that goes up by one. -/
structure CalmAt (order : Order) (rank : V → κ) (q : PriorityQueue V) (i : Nat) : Prop where
  stays : 0 < i → ¬Outranks order rank q i (parent i) →
    ¬Outranks order rank q (left i) (parent i) ∧ ¬Outranks order rank q (right i) (parent i)
  rises : 0 < parent i → parent (i + 1) = parent i → Outranks order rank q i (parent i) →
    ¬Outranks order rank q i (parent (parent i)) →
      ¬Outranks order rank q (i + 1) (parent (parent i))

/-- Every pass of the loop starts on a calm position. -/
def CalmThroughout (order : Order) (rank : V → κ) (q : PriorityQueue V) (f : V → V) : Prop :=
  ∀ i, i < q.heap.length → ∀ q', q.siftedTo (order.cmpPriority rank) f i = .ok q' →
    CalmAt order rank q' i

section
variable {order : Order} {rank : V → κ} {q q' : PriorityQueue V} {κ' : Type} [LinearOrder κ']
  {rank' : V → κ'}

theorem valueAt_eq_some {p : Nat} {v : V} :
    q.valueAt p = some v ↔ ∃ a, q.heap[p]? = some a ∧ q.get a = some v := by
  simp [valueAt, Option.bind_eq_some_iff]

theorem Valid.of_operate (h : Valid order rank q) (op : Operation V) (q' : PriorityQueue V)
    (taken : List (Nat × V)) (hop : q.operate (order.cmpPriority rank) op = .ok (q', taken)) :
    Valid order rank q' := by
  obtain ⟨q₁, taken₁, hop₁, h₁, _⟩ := h.operate op
  rw [hop, Except.ok.injEq, Prod.mk.injEq] at hop₁
  exact hop₁.1 ▸ h₁

section Bridge
variable (hbefore : ∀ v w, order.Before (rank v) (rank w) ↔ rank' w < rank' v)
include hbefore

theorem outranks_iff (h : q.Indexed) {p r : Nat} :
    Outranks order rank q p r ↔ ∃ a b, q.heap[p]? = some a ∧ q.heap[r]? = some b ∧
      q.rankOf rank' b < q.rankOf rank' a := by
  constructor
  · intro ⟨v, hv, w, hw, hlt⟩
    obtain ⟨a, ha, hva⟩ := valueAt_eq_some.mp hv
    obtain ⟨b, hb, hwb⟩ := valueAt_eq_some.mp hw
    exact ⟨a, b, ha, hb, (rankOf_lt hwb hva).mpr ((hbefore v w).mp hlt)⟩
  · intro ⟨a, b, ha, hb, hlt⟩
    obtain ⟨v, hv⟩ := Option.isSome_iff_exists.mp ((h.mem_iff a).mp (List.mem_of_getElem? ha))
    obtain ⟨w, hw⟩ := Option.isSome_iff_exists.mp ((h.mem_iff b).mp (List.mem_of_getElem? hb))
    exact ⟨v, valueAt_eq_some.mpr ⟨a, ha, hv⟩, w, valueAt_eq_some.mpr ⟨b, hb, hw⟩,
      (hbefore v w).mpr ((rankOf_lt hw hv).mp hlt)⟩

theorem not_outranks_iff (h : q.Indexed) {p r : Nat} :
    ¬Outranks order rank q p r ↔ ∀ a b, q.heap[p]? = some a → q.heap[r]? = some b →
      q.rankOf rank' a ≤ q.rankOf rank' b := by
  rw [outranks_iff hbefore h]
  simp only [not_exists, not_and, not_lt]

theorem settled_iff (h : q.Indexed) {p : Nat} :
    Settled q.heap (q.rankOf rank') p ↔ ¬Outranks order rank q p (parent p) :=
  (not_outranks_iff hbefore h).symm

theorem orderedTo_iff (h : q.Indexed) {n : Nat} :
    OrderedTo order rank q n ↔ Ordered (q.heap.take (n + 1)) (q.rankOf rank') := by
  rw [ordered_take]
  refine forall_congr' fun p => forall_congr' fun _ => ?_
  rw [settled_iff hbefore h, Nat.lt_succ_iff]

theorem calmAt_iff (h : q.Indexed) {i : Nat} :
    CalmAt order rank q i ↔ Calm q.heap (q.rankOf rank') i := by
  constructor
  · intro calm
    refine ⟨?_, ?_⟩
    · intro hset hpos p hp hpar s g hs hg
      obtain ⟨hleft, hright⟩ := calm.stays hpos ((settled_iff hbefore h).mp hset)
      rcases left_or_right hp hpar with rfl | rfl
      · exact (not_outranks_iff hbefore h).mp hleft s g hs hg
      · exact (not_outranks_iff hbefore h).mp hright s g hs hg
    · intro hns hpp hsib a s g ha hs hg hle
      rw [settled_iff hbefore h, not_not] at hns
      refine (not_outranks_iff hbefore h).mp (calm.rises hpp hsib hns ?_) s g hs hg
      refine (not_outranks_iff hbefore h).mpr ?_
      intro a' g' ha' hg'
      rw [ha, Option.some.injEq] at ha'
      rw [show q.heap[parent (parent i)]? = some g from hg, Option.some.injEq] at hg'
      exact ha' ▸ hg' ▸ hle
  · intro calm
    refine ⟨?_, ?_⟩
    · intro hpos hnot
      have hgrand := calm.stays ((settled_iff hbefore h).mpr hnot) hpos
      constructor
      · exact (not_outranks_iff hbefore h).mpr (hgrand (left i) (by unfold left; omega) (parent_left i))
      · exact (not_outranks_iff hbefore h).mpr (hgrand (right i) (by unfold right; omega) (parent_right i))
    · intro hpp hsib hout hnot
      have hns : ¬Settled q.heap (q.rankOf rank') i := by
        rw [settled_iff hbefore h, not_not]
        exact hout
      refine (not_outranks_iff hbefore h).mpr ?_
      intro s g hs hg
      obtain ⟨a, _, ha, _⟩ := (outranks_iff hbefore h).mp hout
      exact calm.rises hns hpp hsib a s g ha hs hg
        ((not_outranks_iff hbefore h).mp hnot a g ha hg)

end Bridge

/-- Sifting down leaves an entry that is strictly before the one above it before it. -/
theorem Valid.staysBehind (hvalid : Valid order rank q')
    (hbefore : ∀ v w, order.Before (rank v) (rank w) ↔ rank' w < rank' v)
    (dec : Decides cmp (fun _ => True) rank') (h : q.Indexed) {id pos : Nat} {old value : V}
    (hm : q.map.get id = some (pos, old)) (hh : (q.setValue id value).heapify cmp pos = .ok q') :
    StaysBehind order rank q id value := by
  intro p hp hid w hw hlt
  have hpos : p = pos := index_inj h.nodup hid (h.lt_of_get hm)
  subst hpos
  have hk : (q.get id).isSome := isSome_get.mpr (by simp [hm])
  obtain ⟨h₁, hheap, hset⟩ := setValue_content h hk value
  obtain ⟨b, hb, hwb⟩ := valueAt_eq_some.mp hw
  have hup : parent p < p := BinaryHeap.parent_lt hp
  have hne : b ≠ id := by
    intro he
    have := index_inj h.nodup (he ▸ hb) hid
    omega
  have hnew : (q.setValue id value).get id = some value := by rw [hset, Function.update_self]
  have habove : (q.setValue id value).get b = some w := by
    rw [hset, Function.update_of_ne hne, hwb]
  obtain ⟨q₂, hq₂, _, hcase⟩ := heapify_top dec h₁ (fun _ _ _ => trivial) (hheap ▸ hid)
  rw [hh, Except.ok.injEq] at hq₂
  subst hq₂
  have same := (heapify_content h₁ hh).2
  obtain ⟨indexed', ordered'⟩ := (valid_iff hbefore).mp hvalid
  -- The entry at `p` ranks at least as high as the new value, the one above it has not moved.
  obtain ⟨a, ha, hle⟩ : ∃ a, q'.heap[p]? = some a ∧
      (q.setValue id value).rankOf rank' id ≤ (q.setValue id value).rankOf rank' a := by
    rcases hcase with ⟨rfl, _⟩ | ⟨c, a, _, _, _, hlt', _, ha, _⟩
    · exact ⟨id, hheap ▸ hid, le_refl _⟩
    · exact ⟨a, ha, hlt'.le⟩
  have hstill : q'.heap[BinaryHeap.parent p]? = some b := by
    rcases hcase with ⟨rfl, _⟩ | ⟨c, _, hc, hpar, _, _, _, _, hsame⟩
    · rw [hheap]; exact hb
    · have hgt := BinaryHeap.parent_lt hc
      have hup' := BinaryHeap.parent_lt hp
      rw [hsame _ (by omega) (by omega), hheap]
      exact hb
  have hord := ordered' p hp a b ha hstill
  rw [rankOf_congr same] at hord
  have hover := (rankOf_lt habove hnew).mpr ((hbefore value w).mp hlt)
  exact absurd (hle.trans hord) (not_le.mpr hover)

/-- A borrowed value of a valid queue that was changed leaves the queue valid, when it is dropped,
if and only if the new value is not strictly before the one in the position above it. -/
theorem dropRefMut_valid (order : Order) (rank : V → κ) (q : PriorityQueue V)
    (h : Valid order rank q) (id : Nat) (r : RefMut V) (hr : q.getMut id = some r) (value : V) :
    q.dropRefMut (order.cmpPriority rank) r = .ok q ∧
      ∃ q', q.dropRefMut (order.cmpPriority rank) (r.derefMut value) = .ok q' ∧ q'.Indexed ∧
        q'.get = Function.update q.get id (some value) ∧
          (Valid order rank q' ↔ StaysBehind order rank q id value) := by
  obtain ⟨κ', _, rank', dec, hbefore⟩ := order.decides rank
  obtain ⟨indexed, ordered⟩ := (valid_iff hbefore).mp h
  obtain ⟨v, hv, rfl⟩ := getMut_eq_some.mp hr
  obtain ⟨pos, hm⟩ := get_eq_some.mp hv
  have hk : (q.get id).isSome := by rw [hv]; rfl
  have hpos := indexed.lt_of_get hm
  obtain ⟨h₁, hheap, hset⟩ := setValue_content indexed hk value
  have hm' : (q.setValue id value).map.get id = some (pos, value) := by
    rw [setValue_eq value hm]
    change (q.map.write id (pos, value)).get id = _
    rw [VecMap.get_write (isSome_get.mp hk), Function.update_self]
  have hdrop : ∀ q', q.dropRefMut (order.cmpPriority rank) (RefMut.derefMut ⟨id, v, false⟩ value) =
      .ok q' ↔ (q.setValue id value).heapify (order.cmpPriority rank) pos = .ok q' := by
    intro q'
    simp [dropRefMut, RefMut.derefMut, hm']
  refine ⟨by simp [dropRefMut], ?_⟩
  obtain ⟨q', hq', _⟩ := heapify_top dec h₁ (fun _ _ _ => trivial) (hheap ▸ hpos)
  obtain ⟨h', same⟩ := heapify_content h₁ hq'
  refine ⟨q', (hdrop q').mpr hq', h', same.trans hset, ?_⟩
  constructor
  · intro hvalid
    exact hvalid.staysBehind hbefore dec indexed hm hq'
  · intro stays
    have hbelow : StaysBelow rank' q id value := by
      simp only [StaysBelow, hm]
      intro hp b hb w hw
      have hnot := stays pos hp hpos w (valueAt_eq_some.mpr ⟨b, hb, hw⟩)
      rwa [hbefore, not_lt] at hnot
    obtain ⟨q₂, hq₂, ordered'⟩ := dropRefMut_ordered dec indexed (fun _ _ _ => trivial)
      (r := RefMut.derefMut ⟨id, v, false⟩ value) trivial ordered hk fun _ => hbelow
    rw [hdrop, hq', Except.ok.injEq] at hq₂
    exact (valid_iff hbefore).mpr ⟨h', hq₂ ▸ ordered'⟩

/-- The queue of two entries after `push`. -/
theorem valid_pair : Valid Order.max (fun v => v)
    (⟨⟨2, [some (0, 10), some (1, 5)]⟩, [0, 1]⟩ : PriorityQueue Nat) := by
  have h₁ : Valid Order.max (fun v => v) (⟨⟨1, [some (0, 10)]⟩, [0]⟩ : PriorityQueue Nat) :=
    valid_new.of_operate (.push 0 10) _ [] (by decide)
  exact h₁.of_operate (.push 1 5) _ [] (by decide)

theorem dropRefMut_valid_pair :
    ∃ q' : PriorityQueue Nat, PriorityQueue.dropRefMut (Order.max.cmpPriority fun v => v)
        ⟨⟨2, [some (0, 10), some (1, 5)]⟩, [0, 1]⟩ (RefMut.derefMut ⟨1, 5, false⟩ 7) = .ok q' ∧
      q'.get 1 = some 7 := by
  obtain ⟨_, q', hq', _, hget, _⟩ := 
    dropRefMut_valid Order.max (fun v => v) _ valid_pair 1 ⟨1, 5, false⟩ rfl 7
  exact ⟨q', hq', by rw [hget, Function.update_self]⟩

/-- Raising the lower of two entries through a borrow leaves it below the other. -/
theorem dropRefMut_fails :
    ¬∀ (q q' : PriorityQueue Nat) (id value : Nat) (r : RefMut Nat),
      Valid Order.max (fun v => v) q → q.getMut id = some r →
        q.dropRefMut (Order.max.cmpPriority fun v => v) (r.derefMut value) = .ok q' →
          Valid Order.max (fun v => v) q' := by
  intro hall
  have hvalid := hall ⟨⟨2, [some (0, 10), some (1, 5)]⟩, [0, 1]⟩
    ⟨⟨2, [some (0, 10), some (1, 20)]⟩, [0, 1]⟩ 1 20 ⟨1, 5, false⟩ valid_pair rfl (by decide)
  exact hvalid.ordered 1 (by decide) 1 0 20 10 rfl rfl rfl rfl (by decide)

/-- What the loop of `map` keeps. -/
structure SiftedAs (q : PriorityQueue V) (f : V → V) (q' : PriorityQueue V) : Prop where
  indexed : q'.Indexed
  length : q'.heap.length = q.heap.length
  get : q'.get = fun id => (q.get id).map f

theorem siftedTo_succ (f : V → V) (n : Nat) :
    q.siftedTo cmp f (n + 1) = (q.siftedTo cmp f n).bind fun q' => q'.upHeapify cmp n := by
  rw [siftedTo, List.range_succ, List.foldlM_append, siftedTo]
  simp only [List.foldlM_cons, List.foldlM_nil]
  cases (List.range n).foldlM (fun q i => q.upHeapify cmp i)
      { q with map := q.map.mapValues fun entry => (entry.1, f entry.2) } with
  | error fault => rfl
  | ok q₁ => cases hu : q₁.upHeapify cmp n <;> simp [Except.bind, hu]

section Sifting
variable (dec : Decides cmp (fun _ => True) rank') (f : V → V)
include dec

/-- Every pass ends. -/
theorem siftedTo_total (h : q.Indexed) {n : Nat} (hn : n ≤ q.heap.length) :
    ∃ q', q.siftedTo cmp f n = .ok q' ∧ SiftedAs q f q' := by
  induction n with
  | zero =>
    obtain ⟨h₀, hget⟩ := mapValues_start h f
    exact ⟨_, rfl, h₀, rfl, hget⟩
  | succ n ih =>
    obtain ⟨q₁, hq₁, sifted⟩ := ih (by omega)
    obtain ⟨q', hq', hlen⟩ := upHeapify_total dec sifted.indexed (fun _ _ _ => trivial)
      (i := n) (by rw [sifted.length]; omega)
    obtain ⟨h', same⟩ := upHeapify_content (sifted.indexed.but n) hq'
    refine ⟨q', ?_, h', hlen.trans sifted.length, same.trans sifted.get⟩
    rw [siftedTo_succ, hq₁]
    exact hq'

/-- A pass that finds the positions before it in order leaves one more in order, if and only if it
starts on a calm one. -/
theorem siftedTo_step (hbefore : ∀ v w, order.Before (rank v) (rank w) ↔ rank' w < rank' v)
    (h : q.Indexed) {n : Nat} (hn : n < q.heap.length) {q₁ q₂ : PriorityQueue V}
    (hq₁ : q.siftedTo cmp f n = .ok q₁) (hq₂ : q.siftedTo cmp f (n + 1) = .ok q₂)
    (ho : Ordered (q₁.heap.take n) (q₁.rankOf rank')) :
    OrderedTo order rank q₂ n ↔ CalmAt order rank q₁ n := by
  obtain ⟨q₁', hq₁', sifted⟩ := siftedTo_total dec f h (n := n) (by omega)
  rw [hq₁, Except.ok.injEq] at hq₁'
  subst hq₁'
  obtain ⟨q₂', hq₂', _, hiff⟩ := upHeapify_prefix dec sifted.indexed (fun _ _ _ => trivial)
    (i := n) (by rw [sifted.length]; omega) ho
  rw [siftedTo_succ, hq₁] at hq₂
  obtain rfl : q₂' = q₂ := Except.ok.inj (hq₂'.symm.trans hq₂)
  obtain ⟨h₂, _⟩ := upHeapify_content (sifted.indexed.but n) hq₂
  rw [orderedTo_iff hbefore h₂, calmAt_iff hbefore sifted.indexed]
  exact hiff

end Sifting

/-- `map` ends, changes every value and keeps the two arrays indexing each other. Every pass of its
loop leaves the positions up to its own in order if and only if every pass starts on a calm
position, and then the queue is valid again. -/
theorem mapValues_valid (order : Order) (rank : V → κ) (q : PriorityQueue V)
    (h : Valid order rank q) (f : V → V) :
    ∃ q', q.mapValues (order.cmpPriority rank) f = .ok q' ∧ q'.Indexed ∧
      q'.get = (fun id => (q.get id).map f) ∧
        ((∀ i, i < q.heap.length → ∀ q'', q.siftedTo (order.cmpPriority rank) f (i + 1) = .ok q'' →
          OrderedTo order rank q'' i) ↔ CalmThroughout order rank q f) ∧
        (CalmThroughout order rank q f → Valid order rank q') := by
  obtain ⟨κ', _, rank', dec, hbefore⟩ := order.decides rank
  have indexed := h.indexed
  obtain ⟨q', hq', sifted⟩ := siftedTo_total dec f indexed (le_refl _)
  -- Calm up to a pass, the positions before it are in order.
  have hcalm : CalmThroughout order rank q f → ∀ n, n ≤ q.heap.length → ∀ q'',
      q.siftedTo (order.cmpPriority rank) f n = .ok q'' →
        Ordered (q''.heap.take n) (q''.rankOf rank') := by
    intro calm n
    induction n with
    | zero => exact fun _ q'' _ => ordered_take_zero _ _
    | succ n ih =>
      intro hn q'' hq''
      obtain ⟨q₁, hq₁, _⟩ := siftedTo_total dec f indexed (n := n) (by omega)
      obtain ⟨q₂, hq₂, sifted₂⟩ := siftedTo_total dec f indexed hn
      obtain rfl : q₂ = q'' := Except.ok.inj (hq₂.symm.trans hq'')
      exact (orderedTo_iff hbefore sifted₂.indexed).mp
        ((siftedTo_step dec f hbefore indexed (by omega) hq₁ hq₂ (ih (by omega) q₁ hq₁)).mpr
          (calm n (by omega) q₁ hq₁))
  refine ⟨q', hq', sifted.indexed, sifted.get, ⟨?_, ?_⟩, ?_⟩
  · intro hordered i hi q₁ hq₁
    obtain ⟨q₂, hq₂, _⟩ := siftedTo_total dec f indexed (n := i + 1) (by omega)
    refine (siftedTo_step dec f hbefore indexed hi hq₁ hq₂ ?_).mp (hordered i hi q₂ hq₂)
    obtain ⟨_, hq₁', sifted₁⟩ := siftedTo_total dec f indexed (n := i) (by omega)
    obtain rfl := Except.ok.inj (hq₁'.symm.trans hq₁)
    rcases i with _ | n
    · exact ordered_take_zero _ _
    · exact (orderedTo_iff hbefore sifted₁.indexed).mp (hordered n (by omega) _ hq₁)
  · intro calm i hi q₂ hq₂
    obtain ⟨_, hq₂', sifted₂⟩ := siftedTo_total dec f indexed (n := i + 1) (by omega)
    obtain rfl := Except.ok.inj (hq₂'.symm.trans hq₂)
    exact (orderedTo_iff hbefore sifted₂.indexed).mpr (hcalm calm (i + 1) (by omega) _ hq₂)
  · intro calm
    have hall := hcalm calm q.heap.length (le_refl _) q' hq'
    rw [List.take_of_length_le sifted.length.le] at hall
    exact (valid_iff hbefore).mpr ⟨sifted.indexed, hall⟩

theorem mapValues_valid_pair :
    ∃ q', PriorityQueue.mapValues (Order.max.cmpPriority fun v : Nat => v)
        ⟨⟨2, [some (0, 10), some (1, 5)]⟩, [0, 1]⟩ (fun v => 20 - v) = .ok q' ∧
      q'.get 1 = some 15 := by
  obtain ⟨q', hq', _, hget, _⟩ :=
    mapValues_valid Order.max (fun v => v) _ valid_pair fun v => 20 - v
  exact ⟨q', hq', by rw [hget]; rfl⟩

/-- A value that `map` raises above the root from behind the pass stays below it. -/
theorem mapValues_fails :
    ¬∀ (q q' : PriorityQueue Nat) (f : Nat → Nat), Valid Order.max (fun v => v) q →
      q.mapValues (Order.max.cmpPriority fun v => v) f = .ok q' →
        Valid Order.max (fun v => v) q' := by
  intro hall
  have h₂ := valid_pair.of_operate (.push 2 4)
    ⟨⟨3, [some (0, 10), some (1, 5), some (2, 4)]⟩, [0, 1, 2]⟩ [] (by decide)
  have h₃ := h₂.of_operate (.push 3 3)
    ⟨⟨4, [some (0, 10), some (1, 5), some (2, 4), some (3, 3)]⟩, [0, 1, 2, 3]⟩ [] (by decide)
  have hvalid := hall _ ⟨⟨4, [some (0, 10), some (3, 5), some (2, 4), some (1, 20)]⟩, [0, 3, 2, 1]⟩
    (fun v => if v = 3 then 20 else v) h₃ (by decide)
  exact hvalid.ordered 1 (by decide) 3 0 20 10 rfl rfl rfl rfl (by decide)

end

end GridServer.PriorityQueue
