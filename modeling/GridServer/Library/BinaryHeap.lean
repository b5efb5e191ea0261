import Mathlib.Tactic.Common
import Mathlib.Order.Lattice
import Mathlib.Data.List.Perm.Basic

namespace GridServer.Library.BinaryHeap

/-- The position above `p`; position 0 has none, although `parent 0 = 0`. -/
def parent (p : Nat) : Nat := (p - 1) / 2

theorem parent_lt {p : Nat} (h : 0 < p) : parent p < p := by
  unfold parent; omega

/-- The two positions below `i`. -/
theorem child_cases {p i : Nat} (h : 0 < p) (he : parent p = i) : p = 2 * i + 1 ∨ p = 2 * i + 2 := by
  unfold parent at he; omega

theorem parent_child (i : Nat) : parent (2 * i + 1) = i ∧ parent (2 * i + 2) = i := by
  unfold parent; omega

section Order
variable {α κ : Type} [LinearOrder κ]

/-- The entry at `p` ranks no higher than the entry above it. -/
def Settled (ids : List α) (rank : α → κ) (p : Nat) : Prop :=
  ∀ a b, ids[p]? = some a → ids[parent p]? = some b → rank a ≤ rank b

/-- The heap order: no entry outranks the one above it. -/
def Ordered (ids : List α) (rank : α → κ) : Prop :=
  ∀ p, 0 < p → Settled ids rank p

/-- The children of `i` rank no higher than the entry above `i`. -/
def GrandSettled (ids : List α) (rank : α → κ) (i : Nat) : Prop :=
  0 < i → ∀ p, 0 < p → parent p = i → ∀ a b, ids[p]? = some a → ids[parent i]? = some b →
    rank a ≤ rank b

/-- Ordered, except that the entry at `i` may be outranked by those below it. -/
structure Sinking (ids : List α) (rank : α → κ) (i : Nat) : Prop where
  except : ∀ p, 0 < p → parent p ≠ i → Settled ids rank p
  grand : GrandSettled ids rank i

/-- Ordered, except that the entry at `i` may outrank the one above it. -/
structure Rising (ids : List α) (rank : α → κ) (i : Nat) : Prop where
  except : ∀ p, 0 < p → p ≠ i → Settled ids rank p
  grand : GrandSettled ids rank i

/-- Ordered, except around `i`, whose entry may have any rank. -/
structure Displaced (ids : List α) (rank : α → κ) (i : Nat) : Prop where
  except : ∀ p, 0 < p → p ≠ i → parent p ≠ i → Settled ids rank p
  grand : GrandSettled ids rank i

theorem Ordered.grand {ids : List α} {rank : α → κ} (h : Ordered ids rank) (i : Nat) :
    GrandSettled ids rank i := by
  intro hi p hp he a b ha hb
  cases hm : ids[i]? with
  | none =>
    have hlen := List.getElem?_eq_none_iff.mp hm
    have hlt := parent_lt hp
    rw [List.getElem?_eq_none_iff.mpr (by omega)] at ha
    cases ha
  | some m => exact (h p hp a m ha (he ▸ hm)).trans (h i hi m b hm hb)

theorem Ordered.sinking {ids : List α} {rank : α → κ} (h : Ordered ids rank) (i : Nat) :
    Sinking ids rank i :=
  ⟨fun p hp _ => h p hp, h.grand i⟩

/-- Every entry of an ordered heap ranks no higher than the root. -/
theorem Ordered.root_max {ids : List α} {rank : α → κ} (h : Ordered ids rank) {root : α}
    (hr : ids[0]? = some root) : ∀ (p : Nat) a, ids[p]? = some a → rank a ≤ rank root := by
  intro p
  induction p using Nat.strongRecOn with
  | ind p ih =>
    intro a ha
    rcases Nat.eq_zero_or_pos p with rfl | hp
    · rw [hr, Option.some.injEq] at ha
      exact ha ▸ le_refl _
    · have hlt := parent_lt hp
      obtain ⟨hlen, _⟩ := List.getElem?_eq_some_iff.mp ha
      obtain ⟨b, hb⟩ : ∃ b, ids[parent p]? = some b :=
        ⟨_, List.getElem?_eq_getElem (Nat.lt_trans hlt hlen)⟩
      exact (h p hp a b ha hb).trans (ih _ hlt b hb)

theorem Ordered.root_max_mem {ids : List α} {rank : α → κ} (h : Ordered ids rank) {root : α}
    (hr : ids[0]? = some root) {a : α} (ha : a ∈ ids) : rank a ≤ rank root := by
  obtain ⟨p, hp⟩ := List.getElem?_of_mem ha
  exact h.root_max hr p a hp

theorem Sinking.ordered {ids : List α} {rank : α → κ} {i : Nat} (h : Sinking ids rank i)
    (below : ∀ p, 0 < p → parent p = i → Settled ids rank p) : Ordered ids rank := by
  intro p hp
  by_cases he : parent p = i
  · exact below p hp he
  · exact h.except p hp he

theorem Rising.ordered {ids : List α} {rank : α → κ} {i : Nat} (h : Rising ids rank i)
    (above : 0 < i → Settled ids rank i) : Ordered ids rank := by
  intro p hp
  by_cases he : p = i
  · exact he ▸ above (he ▸ hp)
  · exact h.except p hp he

/-- An entry that outranks the one above it outranks everything below itself. -/
theorem Displaced.rising {ids : List α} {rank : α → κ} {i : Nat} (h : Displaced ids rank i)
    {a b : α} (hi : 0 < i) (ha : ids[i]? = some a) (hb : ids[parent i]? = some b)
    (hlt : rank b < rank a) : Rising ids rank i := by
  refine ⟨?_, h.grand⟩
  intro p hp hpi
  by_cases he : parent p = i
  · intro c d hc hd
    rw [he, ha, Option.some.injEq] at hd
    subst hd
    exact (h.grand hi p hp he c b hc hb).trans hlt.le
  · exact h.except p hp hpi he

theorem Displaced.sinking {ids : List α} {rank : α → κ} {i : Nat} (h : Displaced ids rank i)
    (above : 0 < i → Settled ids rank i) : Sinking ids rank i := by
  refine ⟨?_, h.grand⟩
  intro p hp he
  by_cases hpi : p = i
  · exact hpi ▸ above (hpi ▸ hp)
  · exact h.except p hp hpi he

/-- A heap is ordered up to `n` if no entry below `n` outranks the one above it. -/
theorem ordered_take {ids : List α} {rank : α → κ} {n : Nat} :
    Ordered (ids.take n) rank ↔ ∀ p, 0 < p → p < n → Settled ids rank p := by
  constructor
  · intro h p hp hpn a b ha hb
    have hlt := parent_lt hp
    refine h p hp a b ?_ ?_
    · rw [List.getElem?_take_of_lt hpn, ha]
    · rw [List.getElem?_take_of_lt (Nat.lt_trans hlt hpn), hb]
  · intro h p hp a b ha hb
    have hlt := parent_lt hp
    by_cases hpn : p < n
    · rw [List.getElem?_take_of_lt hpn] at ha
      rw [List.getElem?_take_of_lt (Nat.lt_trans hlt hpn)] at hb
      exact h p hp hpn a b ha hb
    · have hlen := (List.getElem?_eq_some_iff.mp ha).1
      rw [List.length_take] at hlen
      omega

@[simp] theorem ordered_take_zero (ids : List α) (rank : α → κ) : Ordered (ids.take 0) rank :=
  ordered_take.mpr fun _ _ h => absurd h (Nat.not_lt_zero _)

/-- The entry after an ordered part may outrank the one above it. -/
theorem rising_take {ids : List α} {rank : α → κ} {i : Nat} (h : Ordered (ids.take i) rank) :
    Rising (ids.take (i + 1)) rank i := by
  constructor
  · intro p hp hpi a b ha hb
    have hlt := parent_lt hp
    have hlen := (List.getElem?_eq_some_iff.mp ha).1
    rw [List.length_take] at hlen
    rw [List.getElem?_take_of_lt (by omega)] at ha hb
    exact ordered_take.mp h p hp (by omega) a b ha hb
  · intro _ p hp he a b ha _
    have hlt := parent_lt hp
    have hlen := (List.getElem?_eq_some_iff.mp ha).1
    rw [List.length_take] at hlen
    omega

/-- Once the part before `i` is ordered, the entry at `i` can be sifted up and then down: what the
sifting brings up from behind `i` does not outrank the entry it comes to stand under. -/
structure Calm (ids : List α) (rank : α → κ) (i : Nat) : Prop where
  stays : Settled ids rank i → GrandSettled ids rank i
  rises : ¬Settled ids rank i → 0 < parent i → parent (i + 1) = parent i → ∀ a s g,
    ids[i]? = some a → ids[i + 1]? = some s → ids[parent (parent i)]? = some g →
      rank a ≤ rank g → rank s ≤ rank g

/-- What stands below `i`, but after `k`, ranks no higher than the entry above `i`. -/
def SettledAfter (ids : List α) (rank : α → κ) (i k : Nat) : Prop :=
  0 < i → ∀ c, k < c → parent c = i → ∀ s g, ids[c]? = some s → ids[parent i]? = some g →
    rank s ≤ rank g

/-- Where the entry at `i` stays, it is calm if nothing below it outranks the entry above it. -/
theorem calm_iff_settledAfter {ids : List α} {rank : α → κ} {i : Nat}
    (hs : 0 < i → Settled ids rank i) : Calm ids rank i ↔ SettledAfter ids rank i i := by
  constructor
  · intro calm hpos c hic hpar s g hs' hg
    exact calm.stays (hs hpos) hpos c (Nat.lt_trans hpos hic) hpar s g hs' hg
  · intro after
    refine ⟨?_, ?_⟩
    · intro _ hpos p hp hpar s g hs' hg
      exact after hpos p (hpar ▸ parent_lt hp) hpar s g hs' hg
    · intro hns hpar
      have hpos : 0 < i := by unfold parent at hpar; omega
      exact absurd (hs hpos) hns

theorem Ordered.congr {ids : List α} {rank rank' : α → κ} (h : Ordered ids rank)
    (same : ∀ a ∈ ids, rank' a = rank a) : Ordered ids rank' := by
  intro p hp a b ha hb
  rw [same a (List.mem_of_getElem? ha), same b (List.mem_of_getElem? hb)]
  exact h p hp a b ha hb

/-- Giving the entry at `i` a new rank displaces it and nothing else. -/
theorem Ordered.displaced {ids : List α} {rank rank' : α → κ} {i : Nat} {e : α}
    (h : Ordered ids rank) (hi : ids[i]? = some e) (nodup : ids.Nodup)
    (same : ∀ a ∈ ids, a ≠ e → rank' a = rank a) : Displaced ids rank' i := by
  have other : ∀ (p : Nat) a, p ≠ i → ids[p]? = some a → rank' a = rank a := by
    intro p a hp ha
    apply same a (List.mem_of_getElem? ha)
    intro he
    obtain ⟨hlt, _⟩ := List.getElem?_eq_some_iff.mp ha
    exact hp ((List.getElem?_inj hlt nodup).mp (by rw [ha, hi, he]))
  constructor
  · intro p hp hpi hpar a b ha hb
    rw [other p a hpi ha, other (parent p) b hpar hb]
    exact h p hp a b ha hb
  · intro hpos p hp he a b ha hb
    have hp' := parent_lt hpos
    have hpi : p ≠ i := by have := parent_lt hp; omega
    rw [other p a hpi ha, other (parent i) b (by omega) hb]
    exact h.grand i hpos p hp he a b ha hb

end Order

section Swap
variable {α : Type}

/-- Exchange the entries `a` at `i` and `b` at `j`. -/
def exchange (ids : List α) (i j : Nat) (a b : α) : List α := (ids.set i b).set j a

@[simp] theorem exchange_length (ids : List α) (i j : Nat) (a b : α) :
    (exchange ids i j a b).length = ids.length := by simp [exchange]

theorem exchange_get {ids : List α} {i j : Nat} {a b : α} (hi : ids[i]? = some a)
    (hj : ids[j]? = some b) (p : Nat) :
    (exchange ids i j a b)[p]? = if p = j then some a else if p = i then some b else ids[p]? := by
  obtain ⟨hi', _⟩ := List.getElem?_eq_some_iff.mp hi
  obtain ⟨hj', _⟩ := List.getElem?_eq_some_iff.mp hj
  simp only [exchange, List.getElem?_set, List.length_set]
  split_ifs <;> first | rfl | omega

theorem exchange_take (ids : List α) (i j n : Nat) (a b : α) :
    (exchange ids i j a b).take n = exchange (ids.take n) i j a b := by
  rw [exchange, exchange, List.take_set, List.take_set]

theorem exchange_perm {ids : List α} {i j : Nat} {a b : α} (hi : ids[i]? = some a)
    (hj : ids[j]? = some b) : (exchange ids i j a b).Perm ids := by
  obtain ⟨hi', rfl⟩ := List.getElem?_eq_some_iff.mp hi
  obtain ⟨hj', rfl⟩ := List.getElem?_eq_some_iff.mp hj
  exact List.set_set_perm hi' hj'

end Swap

section Move
variable {α κ : Type} [LinearOrder κ]

/-- Exchanging a sinking entry with the highest-ranked entry below it moves the gap down. -/
theorem Sinking.move {ids : List α} {rank : α → κ} {i c : Nat} {a b : α}
    (h : Sinking ids rank i) (hc : 0 < c) (hp : parent c = i) (hi : ids[i]? = some a)
    (hb : ids[c]? = some b) (hlt : rank a < rank b)
    (hmax : ∀ p, 0 < p → parent p = i → ∀ d, ids[p]? = some d → rank d ≤ rank b) :
    Sinking (exchange ids i c a b) rank c := by
  have hic : i < c := hp ▸ parent_lt hc
  have hne : i ≠ c := by omega
  have get := exchange_get hi hb
  constructor
  · intro p hpos hpc x y hx hy
    rw [get] at hx hy
    have hplt := parent_lt hpos
    by_cases hpi : p = i
    · subst hpi
      have h1 : parent p ≠ p := by omega
      have h2 : p ≠ c := by omega
      simp only [hpc, h1, h2, ↓reduceIte, Option.some.injEq] at hx hy
      subst hx
      exact h.grand hpos c hc hp _ y hb hy
    · by_cases hpar : parent p = i
      · simp only [hpar, hne, ↓reduceIte, Option.some.injEq] at hy
        subst hy
        by_cases hpc' : p = c
        · simp only [hpc', ↓reduceIte, Option.some.injEq] at hx
          exact hx ▸ hlt.le
        · simp only [hpc', hpi, ↓reduceIte] at hx
          exact hmax p hpos hpar x hx
      · have hpc' : p ≠ c := fun e => hpar (e ▸ hp)
        simp only [hpc', hpi, hpc, hpar, ↓reduceIte] at hx hy
        exact h.except p hpos hpar x y hx hy
  · intro _ p hpos hpc x y hx hy
    rw [get] at hx hy
    have hplt := parent_lt hpos
    have h1 : p ≠ c := by omega
    have h2 : p ≠ i := by omega
    simp only [hp, hne, h1, h2, ↓reduceIte, Option.some.injEq] at hx hy
    subst hy
    exact h.except p hpos (by omega) x _ hx (hpc ▸ hb)

/-- Exchanging a rising entry with the lower-ranked one above it moves the gap up. -/
theorem Rising.move {ids : List α} {rank : α → κ} {i : Nat} {a b : α} (h : Rising ids rank i)
    (hi : 0 < i) (ha : ids[i]? = some a) (hb : ids[parent i]? = some b) (hlt : rank b < rank a) :
    Rising (exchange ids i (parent i) a b) rank (parent i) := by
  have hqi := parent_lt hi
  have hne : i ≠ parent i := by omega
  have get := exchange_get ha hb
  constructor
  · intro p hpos hpq x y hx hy
    rw [get] at hx hy
    have hplt := parent_lt hpos
    by_cases hpi : p = i
    · subst hpi
      simp only [hne, ↓reduceIte, Option.some.injEq] at hx hy
      subst hx hy
      exact hlt.le
    · simp only [hpq, hpi, ↓reduceIte] at hx
      by_cases hpar : parent p = i
      · simp only [hpar, hne, ↓reduceIte, Option.some.injEq] at hy
        subst hy
        exact h.grand hi p hpos hpar x _ hx hb
      · by_cases hsib : parent p = parent i
        · simp only [hsib, ↓reduceIte, Option.some.injEq] at hy
          subst hy
          exact (h.except p hpos hpi x b hx (hsib ▸ hb)).trans hlt.le
        · simp only [hsib, hpar, ↓reduceIte] at hy
          exact h.except p hpos hpi x y hx hy
  · intro hq p hpos hpar x y hx hy
    rw [get] at hx hy
    have hplt := parent_lt hpos
    have hqq := parent_lt hq
    have h1 : parent (parent i) ≠ i := by omega
    have h3 : parent (parent i) ≠ parent i := by omega
    simp only [h3, h1, ↓reduceIte] at hy
    by_cases hpi : p = i
    · subst hpi
      simp only [hne, ↓reduceIte, Option.some.injEq] at hx
      subst hx
      exact h.except _ hq (by omega) _ y hb hy
    · have h2 : p ≠ parent i := by omega
      simp only [h2, hpi, ↓reduceIte] at hx
      exact (h.except p hpos hpi x b hx (hpar ▸ hb)).trans (h.except _ hq (by omega) b y hb hy)

end Move

end GridServer.Library.BinaryHeap
