import Mathlib.Data.Finset.Card
import Mathlib.Order.Bounds.Basic

namespace GridServer.Library.VisitOrder

variable {V : Type} {dist : V → V → ℕ} {i j : V} {s : Finset V} {order : List V} {d : ℕ}

/-- How far it is from `i` to the vertices one after another. -/
def length (dist : V → V → ℕ) : V → List V → ℕ
  | _, [] => 0
  | i, j :: order => dist i j + length dist j order

/-- All vertices of the set, each once. -/
def IsOrder (order : List V) (s : Finset V) : Prop := order.Nodup ∧ ∀ v, v ∈ order ↔ v ∈ s

/-- The least length over all orders in which the vertices of the set can be visited from `i`. -/
def IsShortest (dist : V → V → ℕ) (i : V) (s : Finset V) (d : ℕ) : Prop :=
  IsLeast {c | ∃ order, IsOrder order s ∧ length dist i order = c} d

theorem isOrder_nil : IsOrder ([] : List V) ∅ := ⟨List.nodup_nil, fun _ => by simp⟩

theorem IsOrder.eq_nil (h : IsOrder order ∅) : order = [] :=
  List.eq_nil_iff_forall_not_mem.mpr fun v hv => Finset.notMem_empty v ((h.2 v).mp hv)

/-- The orders of a set are those of any list of its vertices. -/
theorem isOrder_iff_perm {vertices : List V} (nodup : vertices.Nodup)
    (h : ∀ v, v ∈ vertices ↔ v ∈ s) : IsOrder order s ↔ order.Perm vertices := by
  constructor
  · intro ⟨hnodup, hmem⟩
    refine (List.perm_ext_iff_of_nodup hnodup nodup).mpr ?_
    intro v
    rw [hmem, h]
  · intro hperm
    refine ⟨hperm.nodup_iff.mpr nodup, ?_⟩
    intro v
    rw [hperm.mem_iff, h]

/-- An order of some of the first `n` numbers is no longer than `n`. -/
theorem length_le_of_lt {order : List ℕ} {n : ℕ} (nodup : order.Nodup)
    (within : ∀ k ∈ order, k < n) : order.length ≤ n := by
  have hsub : order ⊆ List.range n := fun k hk => List.mem_range.mpr (within k hk)
  have hle := (nodup.subperm hsub).length_le
  rwa [List.length_range] at hle

/-- A list of images in another order is the list of images of another order. -/
theorem exists_map_of_perm {α β : Type} {f : α → β} {images : List β} {items : List α}
    (h : images.Perm (items.map f)) : ∃ order : List α, order.Perm items ∧ order.map f = images := by
  induction items generalizing images with
  | nil => exact ⟨[], .refl _, (List.Perm.eq_nil h).symm⟩
  | cons a items ih =>
    rw [List.map_cons] at h
    obtain ⟨before, after, rfl⟩ := List.append_of_mem (h.mem_iff.mpr List.mem_cons_self)
    obtain ⟨order, horder, hmap⟩ := ih (List.perm_middle.symm.trans h).cons_inv
    obtain ⟨first, last, rfl, rfl, rfl⟩ := List.map_eq_append_iff.mp hmap
    exact ⟨first ++ a :: last, List.perm_middle.trans (horder.cons a), by simp⟩

/-- An order begins with one vertex and goes on with an order of the others. -/
theorem isOrder_cons [DecidableEq V] :
    IsOrder (j :: order) s ↔ j ∈ s ∧ IsOrder order (s.erase j) := by
  constructor
  · intro ⟨hnodup, hmem⟩
    obtain ⟨hj, hnodup⟩ := List.nodup_cons.mp hnodup
    refine ⟨(hmem j).mp List.mem_cons_self, hnodup, ?_⟩
    intro v
    rw [Finset.mem_erase, ← hmem, List.mem_cons]
    constructor
    · exact fun hv => ⟨fun h => hj (h ▸ hv), .inr hv⟩
    · exact fun hv => hv.2.resolve_left hv.1
  · intro ⟨hj, hnodup, hmem⟩
    refine ⟨List.nodup_cons.mpr ⟨?_, hnodup⟩, ?_⟩
    · rw [hmem]
      exact Finset.notMem_erase j s
    · intro v
      rw [List.mem_cons, hmem, Finset.mem_erase]
      constructor
      · rintro (rfl | hv)
        · exact hj
        · exact hv.2
      · intro hv
        by_cases hsame : v = j
        · exact .inl hsame
        · exact .inr ⟨hsame, hv⟩

theorem isShortest_empty (dist : V → V → ℕ) (i : V) : IsShortest dist i ∅ 0 :=
  ⟨⟨[], isOrder_nil, rfl⟩, fun _ _ => Nat.zero_le _⟩

/-- The shortest way begins with the vertex after which it is shortest. -/
theorem isShortest_of_first [DecidableEq V] (some_vertex : s.Nonempty)
    (bound : ∀ j ∈ s, ∃ b, IsShortest dist j (s.erase j) b ∧ d ≤ dist i j + b)
    (attained : ∃ j ∈ s, ∃ b, IsShortest dist j (s.erase j) b ∧ d = dist i j + b) :
    IsShortest dist i s d := by
  constructor
  · obtain ⟨j, hj, b, hb, rfl⟩ := attained
    obtain ⟨order, horder, hlength⟩ := hb.1
    exact ⟨j :: order, isOrder_cons.mpr ⟨hj, horder⟩, by rw [length, hlength]⟩
  · intro c ⟨order, horder, hc⟩
    cases order with
    | nil =>
      obtain ⟨v, hv⟩ := some_vertex
      exact absurd ((horder.2 v).mpr hv) List.not_mem_nil
    | cons j order =>
      obtain ⟨hj, hrest⟩ := isOrder_cons.mp horder
      obtain ⟨b, hb, hle⟩ := bound j hj
      have hb' : b ≤ length dist j order := hb.2 ⟨order, hrest, rfl⟩
      rw [length] at hc
      omega

theorem length_le {w : ℕ} (within : ∀ i j, dist i j ≤ w) (i : V) (order : List V) :
    length dist i order ≤ order.length * w := by
  induction order generalizing i with
  | nil => exact Nat.zero_le _
  | cons j order ih =>
    have hfirst := within i j
    have hrest := ih j
    rw [length, List.length_cons, Nat.add_mul, Nat.one_mul]
    omega

theorem IsShortest.le {w : ℕ} (h : IsShortest dist i s d) (within : ∀ i j, dist i j ≤ w) :
    d ≤ s.card * w := by
  classical
  obtain ⟨order, ⟨hnodup, hmem⟩, hlength⟩ := h.1
  have hset : order.toFinset = s := by
    ext v
    rw [List.mem_toFinset, hmem]
  have hcard : order.length = s.card := by
    rw [← hset, List.toFinset_card_of_nodup hnodup]
  rw [← hlength, ← hcard]
  exact length_le within i order

end GridServer.Library.VisitOrder
