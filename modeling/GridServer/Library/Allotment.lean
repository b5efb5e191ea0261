import Mathlib.Algebra.BigOperators.Fin
import Mathlib.Algebra.Order.BigOperators.Group.Finset
import Mathlib.Data.Nat.Bitwise

namespace GridServer.Library.Allotment
open Finset

/-- The set whose members are the bits of a number. -/
def members (n : ℕ) : Finset ℕ := (range n).filter fun i => n.testBit i

theorem mem_members {n i : ℕ} : i ∈ members n ↔ n.testBit i = true := by
  rw [members, mem_filter, mem_range, and_iff_right_iff_imp]
  intro h
  exact Nat.lt_two_pow_self.trans_le (Nat.ge_two_pow_of_testBit h)

theorem members_nonempty {n : ℕ} : (members n).Nonempty ↔ n ≠ 0 := by
  constructor
  · intro ⟨i, hi⟩ hzero
    rw [mem_members, hzero, Nat.zero_testBit] at hi
    cases hi
  · intro h
    obtain ⟨i, hi⟩ := Nat.exists_testBit_of_ne_zero h
    exact ⟨i, mem_members.mpr hi⟩

section
variable {p t : ℕ} {f : Fin p → Fin t} {x : Fin t} {i : ℕ}

/-- The things that fall to `x`, when `p` things are given to `t` holders. -/
def share (f : Fin p → Fin t) (x : Fin t) : Finset ℕ :=
  (univ.filter fun i => f i = x).map Fin.valEmbedding

theorem mem_share : i ∈ share f x ↔ ∃ h : i < p, f ⟨i, h⟩ = x := by
  simp only [share, mem_map, mem_filter, mem_univ, true_and, Fin.valEmbedding_apply]
  constructor
  · intro ⟨j, hj, hi⟩
    subst hi
    exact ⟨j.isLt, hj⟩
  · intro ⟨h, hf⟩
    exact ⟨⟨i, h⟩, hf, rfl⟩

/-- Every holder is charged for its share, unless it has none. -/
def cost (charge : ℕ → Finset ℕ → ℕ) (f : Fin p → Fin t) : ℕ :=
  ∑ x with (share f x).Nonempty, charge x (share f x)

/-- Who has which thing by a number: its digits to the base `t`, with the last thing's first. -/
def nth (pos : 0 < t) (p k : ℕ) : Fin p → Fin t :=
  fun i => ⟨k / t ^ (p - 1 - i) % t, Nat.mod_lt _ pos⟩

theorem nth_eq (pos : 0 < t) (k : Fin (t ^ p)) :
    nth pos p k = finFunctionFinEquiv.symm k ∘ Fin.rev := by
  funext i
  have hplace : p - 1 - i = p - (i + 1) := by omega
  rw [Fin.ext_iff, Function.comp_apply, finFunctionFinEquiv_symm_apply_val, Fin.val_rev, ← hplace]
  rfl

/-- Every function has one number. -/
theorem nth_bijOn (pos : 0 < t) (p : ℕ) :
    Set.BijOn (nth pos p) (Set.Iio (t ^ p)) Set.univ := by
  refine ⟨Set.mapsTo_univ _ _, ?_, ?_⟩
  · intro k hk k' hk' hsame
    rw [nth_eq pos ⟨k, hk⟩, nth_eq pos ⟨k', hk'⟩] at hsame
    have hdigits := Fin.rev_surjective.injective_comp_right hsame
    exact congrArg Fin.val (finFunctionFinEquiv.symm.injective hdigits)
  · intro f _
    obtain ⟨k, hk⟩ := finFunctionFinEquiv.symm.surjective (f ∘ Fin.rev)
    refine ⟨k, k.isLt, ?_⟩
    rw [nth_eq, hk]
    funext i
    simp

/-- Every function comes once when the numbers are counted down. -/
theorem nth_bijOn_down (pos : 0 < t) (p : ℕ) :
    Set.BijOn (fun k => nth pos p (t ^ p - 1 - k)) (Set.Iio (t ^ p)) Set.univ := by
  have hdown : Set.MapsTo (fun k => t ^ p - 1 - k) (Set.Iio (t ^ p)) (Set.Iio (t ^ p)) := by
    intro k hk
    rw [Set.mem_Iio] at hk
    change t ^ p - 1 - k < t ^ p
    omega
  have hself : Set.LeftInvOn (fun k => t ^ p - 1 - k) (fun k => t ^ p - 1 - k)
      (Set.Iio (t ^ p)) := by
    intro k hk
    rw [Set.mem_Iio] at hk
    change t ^ p - 1 - (t ^ p - 1 - k) = k
    omega
  exact (nth_bijOn pos p).comp (Set.InvOn.bijOn ⟨hself, hself⟩ hdown hdown)

theorem exists_nth (pos : 0 < t) (f : Fin p → Fin t) : ∃ k < t ^ p, nth pos p k = f :=
  (nth_bijOn pos p).surjOn (Set.mem_univ f)

/-- What is least by number is least of all. -/
theorem isLeast_cost (pos : 0 < t) {charge : ℕ → Finset ℕ → ℕ} {least : ℕ}
    (bound : ∀ k < t ^ p, least ≤ cost charge (nth pos p k))
    (attained : ∃ k < t ^ p, cost charge (nth pos p k) = least) :
    IsLeast (Set.range fun f : Fin p → Fin t => cost charge f) least := by
  constructor
  · obtain ⟨k, _, hk⟩ := attained
    exact ⟨nth pos p k, hk⟩
  · intro c ⟨f, hf⟩
    obtain ⟨k, hk, rfl⟩ := exists_nth pos f
    exact hf ▸ bound k hk

/-- The least cost, found by going through the numbers from the last to the first. -/
theorem isLeast_foldl_min (pos : 0 < t) {charge : ℕ → Finset ℕ → ℕ} {limit : ℕ}
    (within : ∀ f : Fin p → Fin t, cost charge f ≤ limit) :
    IsLeast (Set.range fun f : Fin p → Fin t => cost charge f)
      (((List.range' 0 (t ^ p)).map fun k => cost charge (nth pos p (t ^ p - 1 - k))).foldl min
        limit) := by
  have hmember : ∀ k < t ^ p, cost charge (nth pos p k) ∈
      (List.range' 0 (t ^ p)).map fun k => cost charge (nth pos p (t ^ p - 1 - k)) := by
    intro k hk
    refine List.mem_map.mpr ⟨t ^ p - 1 - k, ?_, ?_⟩
    · rw [List.mem_range'_1]
      omega
    · congr 2
      omega
  obtain ⟨costs, hcosts⟩ : ∃ costs, costs =
      (List.range' 0 (t ^ p)).map fun k => cost charge (nth pos p (t ^ p - 1 - k)) := ⟨_, rfl⟩
  have hnumber : ∀ c ∈ costs, ∃ k < t ^ p, cost charge (nth pos p k) = c := by
    intro c hc
    obtain ⟨k, hk, hcost⟩ := List.mem_map.mp (hcosts ▸ hc)
    rw [List.mem_range'_1] at hk
    exact ⟨t ^ p - 1 - k, by omega, hcost⟩
  rw [← hcosts] at hmember ⊢
  have hmin? : (limit :: costs).min? = some (costs.foldl min limit) := List.min?_cons'
  obtain ⟨hmin, hle⟩ := List.min?_eq_some_iff.mp hmin?
  have hbound : ∀ k < t ^ p, _ ≤ cost charge (nth pos p k) :=
    fun k hk => hle _ (List.mem_cons_of_mem _ (hmember k hk))
  refine isLeast_cost pos hbound ?_
  rcases List.mem_cons.mp hmin with hlimit | hmin
  · have hsome : 0 < t ^ p := Nat.pow_pos pos
    refine ⟨0, hsome, Nat.le_antisymm ?_ (hbound 0 hsome)⟩
    exact (within _).trans_eq hlimit.symm
  · exact hnumber _ hmin

/-- When every share is charged the least of its prices, the least cost is the least total of any
prices of any shares. -/
theorem isLeast_allotted {charge : ℕ → Finset ℕ → ℕ} {prices : ℕ → Finset ℕ → Set ℕ} {least : ℕ}
    (idle : ∀ x : Fin t, prices x ∅ = {0})
    (charged : ∀ (f : Fin p → Fin t) (x : Fin t), (share f x).Nonempty →
      IsLeast (prices x (share f x)) (charge x (share f x)))
    (h : IsLeast (Set.range fun f : Fin p → Fin t => cost charge f) least) :
    IsLeast {c | ∃ (f : Fin p → Fin t) (price : Fin t → ℕ),
      (∀ x : Fin t, price x ∈ prices x (share f x)) ∧ ∑ x : Fin t, price x = c} least := by
  constructor
  · obtain ⟨f, hf⟩ := h.1
    change cost charge f = least at hf
    refine ⟨f, fun x : Fin t => if (share f x).Nonempty then charge x (share f x) else 0, ?_, ?_⟩
    · intro x
      dsimp only
      by_cases hx : (share f x).Nonempty
      · rw [if_pos hx]
        exact (charged f x hx).1
      · rw [if_neg hx, not_nonempty_iff_eq_empty.mp hx, idle]
        rfl
    · rw [← hf, cost, sum_filter]
  · intro c ⟨f, price, hprice, hc⟩
    refine (h.2 ⟨f, rfl⟩).trans ?_
    change cost charge f ≤ c
    rw [← hc, cost, sum_filter]
    refine sum_le_sum ?_
    intro x _
    split
    · rename_i hx
      exact (charged f x hx).2 (hprice x)
    · exact Nat.zero_le _

end

end GridServer.Library.Allotment
