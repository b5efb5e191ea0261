import GridServer.Shared.PriorityQueueIndex

namespace GridServer.PriorityQueue
open Library

/-! The queue's own steps never subtract: only a comparison can overflow below zero. -/

variable {V : Type} {bits : Nat} {q : PriorityQueue V}

/-- Every value of the queue is good. -/
def AllGood (good : V → Prop) (q : PriorityQueue V) : Prop :=
  ∀ id v, q.get id = some v → good v

theorem AllGood.congr {good : V → Prop} {q' : PriorityQueue V} (h : AllGood good q)
    (same : q'.get = q.get) : AllGood good q' := by
  intro id v hv
  exact h id v (same ▸ hv)

theorem AllGood.update {good : V → Prop} {q' : PriorityQueue V} {id : Nat} {o : Option V}
    (h : AllGood good q) (same : q'.get = Function.update q.get id o)
    (ho : ∀ v, o = some v → good v) : AllGood good q' := by
  intro k v hv
  rw [same] at hv
  by_cases hk : k = id
  · subst hk
    rw [Function.update_self] at hv
    exact ho v hv
  · rw [Function.update_of_ne hk] at hv
    exact h k v hv

theorem heapAt_spares (position : Nat) : Spares (.subOverflow bits) (q.heapAt position) := by
  unfold heapAt
  split <;> simp

theorem getUnchecked_spares {W : Type} (m : VecMap W) (key : Nat) :
    Spares (.subOverflow bits) (m.getUnchecked key) := by
  unfold VecMap.getUnchecked
  split <;> simp

theorem getPair_spares (a b : Nat) : Spares (.subOverflow bits) (q.getPair a b) := by
  unfold getPair
  refine (heapAt_spares a).bind fun _ _ => (heapAt_spares b).bind fun _ _ =>
    (getUnchecked_spares _ _).bind fun _ _ => (getUnchecked_spares _ _).bind fun _ _ => ?_
  split <;> simp

theorem getPriorityFromPosition_spares (position : Nat) :
    Spares (.subOverflow bits) (q.getPriorityFromPosition position) :=
  (heapAt_spares position).bind fun _ _ => (getUnchecked_spares _ _).bind fun _ _ => spares_pure _ _

theorem swap_spares (a b : Nat) : Spares (.subOverflow bits) (q.swap a b) :=
  (getPair_spares a b).bind fun _ _ => spares_pure _ _

theorem peekMut_spares : Spares (.subOverflow bits) q.peekMut := by
  unfold peekMut
  split
  · exact spares_ok _ _
  · exact (getUnchecked_spares _ _).bind fun _ _ => spares_pure _ _

/-- What stands at a position of an indexed queue is a value of the queue. -/
theorem getPriorityFromPosition_good {good : V → Prop} (hg : AllGood good q) {position : Nat}
    {v : V} (h : q.getPriorityFromPosition position = .ok v) : good v := by
  simp only [getPriorityFromPosition, bind_ok, VecMap.getUnchecked_ok, except_pure,
    Except.ok.injEq] at h
  obtain ⟨id, _, ⟨p, w⟩, he, rfl⟩ := h
  exact hg id w (get_eq_some.mpr ⟨p, he⟩)

section Comparisons
variable {cmp : V → V → Except Fault Bool} {good : V → Prop}
  (answers : ∀ a b, good a → good b → Spares (.subOverflow bits) (cmp a b))
include answers

/-- The second comparison of `largestOf`. -/
theorem againstRight (hg : AllGood good q) {v : V} (hv : good v) (i largest : Nat) :
    Spares (.subOverflow bits) (if right i < q.heap.length then do
      let other ← q.getPriorityFromPosition (right i)
      let above ← cmp v other
      return if above then right i else largest
    else return largest) := by
  split
  · refine (getPriorityFromPosition_spares _).bind fun other hother => ?_
    exact (answers _ _ hv (getPriorityFromPosition_good hg hother)).bind fun _ _ => spares_pure _ _
  · exact spares_pure _ _

theorem largestOf_spares (hg : AllGood good q) (i : Nat) :
    Spares (.subOverflow bits) (q.largestOf cmp i) := by
  unfold largestOf
  refine (getPriorityFromPosition_spares i).bind fun top htop => ?_
  have gtop := getPriorityFromPosition_good hg htop
  split
  · refine (getPriorityFromPosition_spares _).bind fun child hchild => ?_
    have gchild := getPriorityFromPosition_good hg hchild
    refine (answers _ _ gtop gchild).bind fun above _ => ?_
    cases above with
    | true => exact againstRight answers hg gchild _ _
    | false => exact againstRight answers hg gtop _ _
  · exact spares_pure _ _

theorem heapifyLoop_spares {fuel : Nat} (h : q.Indexed) (hg : AllGood good q) (i : Nat) :
    Spares (.subOverflow bits) (heapifyLoop cmp fuel q i) := by
  induction fuel generalizing q i with
  | zero => simp [heapifyLoop]
  | succ fuel ih =>
    unfold heapifyLoop
    refine (largestOf_spares answers hg i).bind fun largest _ => ?_
    split
    · refine (swap_spares i largest).bind fun q₁ hs => ?_
      obtain ⟨h₁, same, _⟩ := swap_content h hs
      exact ih h₁ (hg.congr same) largest
    · exact spares_pure _ _

theorem heapify_spares (h : q.Indexed) (hg : AllGood good q) (i : Nat) :
    Spares (.subOverflow bits) (q.heapify cmp i) := by
  unfold heapify
  split
  · exact spares_ok _ _
  · exact heapifyLoop_spares answers h hg i

theorem bubbleUpLoop_spares {fuel i : Nat} (h : q.IndexedBut i) (hg : AllGood good q) :
    Spares (.subOverflow bits) (bubbleUpLoop cmp fuel q i) := by
  induction fuel generalizing q i with
  | zero => simp [bubbleUpLoop]
  | succ fuel ih =>
    unfold bubbleUpLoop
    split
    · refine (getPair_spares _ _).bind fun ⟨⟨idC, posC, current⟩, idP, posP, above⟩ hp => ?_
      obtain ⟨h₁, same⟩ := bubbleUp_move h hp
      obtain ⟨_, _, hC, hP, _⟩ := getPair_ok.mp hp
      refine (answers _ _ (hg idP above (get_eq_some.mpr ⟨_, hP⟩))
        (hg idC current (get_eq_some.mpr ⟨_, hC⟩))).bind fun moves _ => ?_
      split
      · exact ih h₁ (hg.congr same)
      · exact spares_pure _ _
    · exact spares_pure _ _

theorem bubbleUp_spares {i : Nat} (h : q.IndexedBut i) (hg : AllGood good q) :
    Spares (.subOverflow bits) (q.bubbleUp cmp i) :=
  (bubbleUpLoop_spares answers h hg).bind fun _ _ => (heapAt_spares _).bind fun _ _ =>
    (getUnchecked_spares _ _).bind fun _ _ => spares_pure _ _

theorem upHeapify_spares {i : Nat} (h : q.IndexedBut i) (hg : AllGood good q) :
    Spares (.subOverflow bits) (q.upHeapify cmp i) := by
  unfold upHeapify
  refine (bubbleUp_spares answers h hg).bind fun ⟨q₁, i₁⟩ hb => ?_
  obtain ⟨h₁, same⟩ := bubbleUp_content h hb
  exact heapify_spares answers h₁ (hg.congr same) i₁

theorem push_spares (h : q.Indexed) (hg : AllGood good q) {id : Nat} {v : V} (hv : good v) :
    Spares (.subOverflow bits) (q.push cmp id v) := by
  unfold push
  split
  · rename_i pos prior hget
    have hk : (q.get id).isSome := isSome_get.mpr (by simp [hget])
    obtain ⟨h₁, _, hset⟩ := setValue_content h hk v
    rw [setValue_eq v hget] at h₁ hset
    exact (upHeapify_spares answers (h₁.but pos)
      (hg.update hset (by rintro w ⟨⟩; exact hv))).bind fun _ _ => spares_pure _ _
  · rename_i hget
    obtain ⟨hbut, hset⟩ := appended_content h hget v
    exact (bubbleUp_spares answers hbut (hg.update hset (by rintro w ⟨⟩; exact hv))).bind
      fun _ _ => spares_pure _ _

omit answers in
theorem swapRemoveAt_spares (position : Nat) :
    Spares (.subOverflow bits) (q.swapRemoveAt position) := by
  unfold swapRemoveAt
  refine (heapAt_spares _).bind fun _ _ => (getUnchecked_spares _ _).bind fun _ _ => ?_
  split
  · exact (getUnchecked_spares _ _).bind fun _ _ => spares_pure _ _
  · simp

theorem remove_spares (h : q.Indexed) (hg : AllGood good q) (id : Nat) :
    Spares (.subOverflow bits) (q.remove cmp id) := by
  unfold remove
  split
  · rename_i pos v hget
    refine (swapRemoveAt_spares pos).bind fun ⟨q₁, id₁, v₁⟩ hs => ?_
    obtain ⟨_, _, h₁, hset, _⟩ := swapRemoveAt_content h hs
    dsimp only
    split
    · exact (upHeapify_spares answers (h₁.but pos) (hg.update hset (by rintro w ⟨⟩))).bind
        fun _ _ => spares_pure _ _
    · exact spares_pure _ _
  · exact spares_ok _ _

theorem mapValues_spares (h : q.Indexed) {f : V → V} (hg : ∀ id v, q.get id = some v → good (f v)) :
    Spares (.subOverflow bits) (q.mapValues cmp f) := by
  obtain ⟨h₀, hget⟩ := mapValues_start h f
  have hg₀ : AllGood good { q with map := q.map.mapValues fun entry => (entry.1, f entry.2) } := by
    intro id v hv
    rw [hget, Option.map_eq_some_iff] at hv
    obtain ⟨w, hw, rfl⟩ := hv
    exact hg id w hw
  exact foldlM_spares (I := fun _ q => q.Indexed ∧ AllGood good q)
    (fun i _ q hI => upHeapify_spares answers (hI.1.but i) hI.2)
    (fun i _ q q' hI hu => by
      obtain ⟨h', same⟩ := upHeapify_content (hI.1.but i) hu
      exact ⟨h', hI.2.congr same⟩) ⟨h₀, hg₀⟩

theorem dropRefMut_spares (h : q.Indexed) (hg : AllGood good q) {r : RefMut V}
    (hk : (q.get r.key).isSome) (hv : good r.value) :
    Spares (.subOverflow bits) (q.dropRefMut cmp r) := by
  unfold dropRefMut
  obtain ⟨h₁, _, hset⟩ := setValue_content h hk r.value
  split
  · split
    · exact heapify_spares answers h₁ (hg.update hset (by rintro w ⟨⟩; exact hv)) _
    · exact spares_ok _ _
  · exact spares_ok _ _

theorem dropPeekMut_spares (h : q.Indexed) (hg : AllGood good q) {r : RefMut V}
    (hk : (q.get r.key).isSome) (hv : good r.value) :
    Spares (.subOverflow bits) (q.dropPeekMut cmp r) := by
  unfold dropPeekMut
  obtain ⟨h₁, _, hset⟩ := setValue_content h hk r.value
  split
  · exact heapify_spares answers h₁ (hg.update hset (by rintro w ⟨⟩; exact hv)) _
  · exact spares_ok _ _

end Comparisons
end GridServer.PriorityQueue
