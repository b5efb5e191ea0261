import Mathlib.Logic.Function.Basic
import Mathlib.Data.List.Nodup
import Mathlib.Data.List.Perm.Subperm
import Mathlib.Tactic.Common

namespace GridServer.Library
open Function

/-- A memory of cells. An address is given out once, so that a use after a `free` shows. -/
structure Heap (α : Type) where
  cell : Nat → Option α
  top : Nat
  fresh : ∀ a, top ≤ a → cell a = none

namespace Heap
variable {α β : Type} (h : Heap α)

def empty : Heap α := ⟨fun _ => none, 0, fun _ _ => rfl⟩

def alloc (c : α) : Heap α × Nat :=
  ({ cell := update h.cell h.top (some c)
     top := h.top + 1
     fresh := by
      intro a ha
      rw [update_of_ne (by omega)]
      exact h.fresh a (by omega) }, h.top)

def modify (a : Nat) (f : α → α) : Heap α :=
  { cell := update h.cell a ((h.cell a).map f)
    top := h.top
    fresh := by
      intro b hb
      by_cases hab : b = a
      · subst hab
        rw [update_self, h.fresh b hb]
        rfl
      · rw [update_of_ne hab]
        exact h.fresh b hb }

def free (a : Nat) : Heap α :=
  { cell := update h.cell a none
    top := h.top
    fresh := by
      intro b hb
      by_cases hab : b = a
      · rw [hab, update_self]
      · rw [update_of_ne hab]
        exact h.fresh b hb }

/-- One field of every cell. -/
def field (f : α → Option β) (a : Nat) : Option β := (h.cell a).bind f

variable {h} {f : α → Option β} {a : Nat}

theorem lt_top {c : α} (hc : h.cell a = some c) : a < h.top := by
  by_contra hn
  rw [h.fresh a (by omega)] at hc
  cases hc

theorem field_eq {c : α} (hc : h.cell a = some c) : h.field f a = f c := by simp [field, hc]

theorem cell_of_field {b : β} (hb : h.field f a = some b) : ∃ c, h.cell a = some c ∧ f c = some b :=
  Option.bind_eq_some_iff.mp hb

theorem field_congr {h' : Heap α} (same : h'.cell a = h.cell a) : h'.field f a = h.field f a := by
  rw [field, field, same]

@[simp] theorem cell_modify_self (u : α → α) : (h.modify a u).cell a = (h.cell a).map u :=
  update_self ..

theorem cell_modify_of_ne {b : Nat} (hb : b ≠ a) (u : α → α) : (h.modify a u).cell b = h.cell b :=
  update_of_ne hb ..

theorem field_modify {c : α} (hc : h.cell a = some c) (u : α → α) :
    (h.modify a u).field f = update (h.field f) a (f (u c)) := by
  funext b
  by_cases hb : b = a
  · subst hb
    simp [field, hc]
  · rw [update_of_ne hb]
    exact field_congr (cell_modify_of_ne hb u)

/-- Writing one field leaves the others. -/
theorem field_modify_other {u : α → α} (hu : ∀ c, f (u c) = f c) :
    (h.modify a u).field f = h.field f := by
  funext b
  by_cases hb : b = a
  · subst hb
    cases hc : h.cell b with
    | none => simp [field, hc]
    | some c => simp [field, hc, hu]
  · exact field_congr (cell_modify_of_ne hb u)

theorem cell_alloc (c : α) : (h.alloc c).1.cell = update h.cell h.top (some c) := rfl

theorem field_alloc (c : α) : (h.alloc c).1.field f = update (h.field f) h.top (f c) := by
  funext b
  by_cases hb : b = h.top
  · subst hb
    simp [field, cell_alloc]
  · simp [field, cell_alloc, hb]

theorem cell_free_of_ne {b : Nat} (hb : b ≠ a) : (h.free a).cell b = h.cell b := update_of_ne hb ..

theorem field_free : (h.free a).field f = update (h.field f) a none := by
  funext b
  by_cases hb : b = a
  · subst hb
    simp [field, free]
  · simp [field, free, hb]

/-- A chain of cells is no longer than the memory. -/
theorem length_le_top {as : List Nat} (nodup : as.Nodup) (live : ∀ a ∈ as, (h.cell a).isSome) :
    as.length ≤ h.top := by
  have hsub : as ⊆ List.range h.top := by
    intro a ha
    obtain ⟨c, hc⟩ := Option.isSome_iff_exists.mp (live a ha)
    exact List.mem_range.mpr (lt_top hc)
  simpa using (nodup.subperm hsub).length_le

end Heap
end GridServer.Library
