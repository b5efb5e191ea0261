import Mathlib.Tactic.Common
import Mathlib.Data.List.Perm.Basic
import Mathlib.Data.List.Count

namespace GridServer.Library

variable {α : Type}

/-- Take the entry at `pos` out by moving the last entry into its place. -/
def swapRemove (xs : List α) (pos : Nat) : Option (List α) :=
  match xs.getLast? with
  | some last => if pos < xs.length then some ((xs.set pos last).dropLast) else none
  | none => none

theorem swapRemove_eq_none {xs : List α} {pos : Nat} :
    swapRemove xs pos = none ↔ xs.length ≤ pos := by
  unfold swapRemove
  split
  · simp
  · rename_i hl
    simp [List.getLast?_eq_none_iff.mp hl]

theorem swapRemove_of_lt {xs : List α} {pos : Nat} (h : pos < xs.length) :
    ∃ ys, swapRemove xs pos = some ys := by
  cases hs : swapRemove xs pos with
  | some ys => exact ⟨ys, rfl⟩
  | none => exact absurd (swapRemove_eq_none.mp hs) (by omega)

theorem swapRemove_last (pre : List α) (a : α) :
    swapRemove (pre ++ [a]) pre.length = some pre := by
  simp [swapRemove]

theorem swapRemove_inner (pre init : List α) (a last : α) :
    swapRemove (pre ++ a :: (init ++ [last])) pre.length = some (pre ++ last :: init) := by
  have hcat : pre ++ a :: (init ++ [last]) = (pre ++ a :: init) ++ [last] := by simp
  have hset : ((pre ++ a :: init) ++ [last]).set pre.length last =
      (pre ++ last :: init) ++ [last] := by simp
  unfold swapRemove
  rw [hcat, List.getLast?_concat]
  simp only [hset, List.dropLast_concat]
  simp

theorem swapRemove_get {xs ys : List α} {pos : Nat} (h : swapRemove xs pos = some ys) (p : Nat) :
    ys[p]? = if p < xs.length - 1 then if p = pos then xs.getLast? else xs[p]? else none := by
  unfold swapRemove at h
  split at h
  · rename_i last hl
    split at h
    · rename_i hlt
      rw [Option.some.injEq] at h
      subst h
      rw [List.getElem?_dropLast, List.length_set, List.getElem?_set, hl]
      by_cases hp : p = pos
      · subst hp; simp [hlt]
      · simp [hp, Ne.symm hp]
    · cases h
  · cases h

/-- What is left together with the entry taken out is a rearrangement of the list. -/
theorem swapRemove_perm {xs ys : List α} {pos : Nat} {a : α} (ha : xs[pos]? = some a)
    (h : swapRemove xs pos = some ys) : (a :: ys).Perm xs := by
  obtain ⟨hlt, he⟩ := List.getElem?_eq_some_iff.mp ha
  have hsplit : xs = xs.take pos ++ a :: xs.drop (pos + 1) := by
    rw [← he, ← List.drop_eq_getElem_cons hlt, List.take_append_drop]
  generalize hpre : xs.take pos = pre at hsplit
  generalize xs.drop (pos + 1) = post at hsplit
  have hlen : pre.length = pos := by rw [← hpre]; simp; omega
  subst hsplit
  rcases List.eq_nil_or_concat post with rfl | ⟨init, last, rfl⟩
  · rw [← hlen, swapRemove_last, Option.some.injEq] at h
    subst h
    exact (List.perm_append_singleton a pre).symm
  · rw [List.concat_eq_append, ← hlen, swapRemove_inner, Option.some.injEq] at h
    subst h
    rw [List.concat_eq_append]
    have hmove : (last :: init).Perm (init ++ [last]) := (List.perm_append_singleton last init).symm
    exact List.perm_middle.symm.trans ((hmove.cons a).append_left pre)

theorem swapRemove_length_le {xs ys : List α} {pos : Nat} (h : swapRemove xs pos = some ys) :
    ys.length ≤ xs.length := by
  unfold swapRemove at h
  split at h
  · split at h
    · rw [Option.some.injEq] at h
      subst h
      simp
    · cases h
  · cases h

section Removal
variable [DecidableEq α]

/-- Take the first occurrence of `a` out, where there is one. -/
def removeFirst (xs : List α) (a : α) : Option (List α) :=
  (xs.idxOf? a).bind (swapRemove xs)

theorem idxOf?_of_mem {xs : List α} {a : α} (h : a ∈ xs) : xs.idxOf? a = some (xs.idxOf a) := by
  obtain ⟨pos, hp⟩ := Option.isSome_iff_exists.mp (List.isSome_idxOf?.mpr h)
  rw [hp, List.idxOf_eq_getD_idxOf?, hp]
  rfl

theorem removeFirst_eq_none {xs : List α} {a : α} (h : a ∉ xs) : removeFirst xs a = none := by
  simp [removeFirst, List.idxOf?_eq_none_iff.mpr h]

theorem removeFirst_perm {xs ys : List α} {a : α} (h : removeFirst xs a = some ys) :
    (a :: ys).Perm xs := by
  obtain ⟨pos, hp, hs⟩ := Option.bind_eq_some_iff.mp h
  obtain ⟨hlt, he, _⟩ := List.idxOf?_eq_some_iff.mp hp
  exact swapRemove_perm (List.getElem?_eq_some_iff.mpr ⟨hlt, he⟩) hs

theorem removeFirst_of_mem {xs : List α} {a : α} (h : a ∈ xs) :
    ∃ ys, removeFirst xs a = some ys := by
  obtain ⟨pos, hp⟩ := Option.isSome_iff_exists.mp (List.isSome_idxOf?.mpr h)
  obtain ⟨hlt, _⟩ := List.idxOf?_eq_some_iff.mp hp
  obtain ⟨ys, hs⟩ := swapRemove_of_lt hlt
  exact ⟨ys, by simp [removeFirst, hp, hs]⟩

theorem removeFirst_none_iff {xs : List α} {a : α} : removeFirst xs a = none ↔ a ∉ xs := by
  constructor
  · intro h hm
    obtain ⟨ys, hs⟩ := removeFirst_of_mem hm
    rw [h] at hs
    cases hs
  · exact removeFirst_eq_none

theorem removeFirst_count {xs ys : List α} {a : α} (h : removeFirst xs a = some ys) (b : α) :
    ys.count b = xs.count b - if b = a then 1 else 0 := by
  have hc := (removeFirst_perm h).count_eq b
  rw [List.count_cons] at hc
  by_cases hb : b = a
  · subst hb
    simp at hc ⊢
    omega
  · have : (a == b) = false := by simpa using fun h => hb h.symm
    simp only [this, hb] at hc ⊢
    simpa using hc

theorem removeFirst_length {xs ys : List α} {a : α} (h : removeFirst xs a = some ys) :
    xs.length = ys.length + 1 := by
  simpa using (removeFirst_perm h).length_eq.symm

/-- `xs` without the first occurrence of `a`. -/
def withdraw (xs : List α) (a : α) : List α := (removeFirst xs a).getD xs

theorem withdraw_of_some {xs ys : List α} {a : α} (h : removeFirst xs a = some ys) :
    withdraw xs a = ys := by simp [withdraw, h]

theorem withdraw_of_not_mem {xs : List α} {a : α} (h : a ∉ xs) : withdraw xs a = xs := by
  simp [withdraw, removeFirst_eq_none h]

theorem count_withdraw (xs : List α) (a b : α) :
    (withdraw xs a).count b = xs.count b - if b = a then 1 else 0 := by
  cases h : removeFirst xs a with
  | some ys => rw [withdraw_of_some h, removeFirst_count h]
  | none =>
    have hmem := removeFirst_none_iff.mp h
    rw [withdraw_of_not_mem hmem]
    by_cases hb : b = a
    · subst hb
      simp [List.count_eq_zero.mpr hmem]
    · simp [hb]

theorem count_withdraw_of_ne (xs : List α) {a b : α} (h : b ≠ a) :
    (withdraw xs a).count b = xs.count b := by simp [count_withdraw, h]

theorem perm_withdraw {xs : List α} {a : α} (h : a ∈ xs) : (a :: withdraw xs a).Perm xs := by
  obtain ⟨ys, hs⟩ := removeFirst_of_mem h
  rw [withdraw_of_some hs]
  exact removeFirst_perm hs

theorem length_withdraw {xs : List α} {a : α} (h : a ∈ xs) :
    (withdraw xs a).length + 1 = xs.length := by
  obtain ⟨ys, hs⟩ := removeFirst_of_mem h
  rw [withdraw_of_some hs, removeFirst_length hs]

theorem length_withdraw_le (xs : List α) (a : α) : (withdraw xs a).length ≤ xs.length := by
  by_cases h : a ∈ xs
  · have := length_withdraw h
    omega
  · exact (withdraw_of_not_mem h).symm ▸ Nat.le_refl _

end Removal

end GridServer.Library
