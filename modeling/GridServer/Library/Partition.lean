import Mathlib.Data.List.Nodup
import Mathlib.Data.List.Perm.Subperm

namespace GridServer.Library

variable {α : Type} {received done new : List α} {pending pending' : α → Prop}

/-- What was received is done or pending, and not both; nothing is done twice. -/
structure Partition (received done : List α) (pending : α → Prop) : Prop where
  distinct : done.Nodup
  covers : ∀ a, a ∈ received ↔ a ∈ done ∨ pending a
  apart : ∀ a ∈ done, ¬pending a

namespace Partition

theorem start (h : ∀ a, ¬pending a) : Partition [] [] pending :=
  ⟨.nil, by simp [h], by simp⟩

theorem congr (p : Partition received done pending) (h : ∀ a, pending' a ↔ pending a) :
    Partition received done pending' := by
  obtain rfl : pending' = pending := funext fun a => propext (h a)
  exact p

/-- New items are pending. -/
theorem receive (p : Partition received done pending) (fresh : ∀ a ∈ new, a ∉ received)
    (h : ∀ a, pending' a ↔ pending a ∨ a ∈ new) :
    Partition (received ++ new) done pending' := by
  refine ⟨p.distinct, ?_, ?_⟩
  · intro a
    rw [List.mem_append, p.covers, h, or_assoc]
  · intro a ha hp
    cases (h a).mp hp with
    | inl hp => exact p.apart a ha hp
    | inr hn => exact fresh a hn ((p.covers a).mpr (.inl ha))

/-- A pending item is done. -/
theorem accept (p : Partition received done pending) {a : α} (ha : pending a)
    (h : ∀ b, pending' b ↔ pending b ∧ b ≠ a) : Partition received (done ++ [a]) pending' := by
  have hnew : a ∉ done := fun hd => p.apart a hd ha
  refine ⟨?_, ?_, ?_⟩
  · rw [List.nodup_append]
    refine ⟨p.distinct, List.nodup_singleton a, ?_⟩
    intro b hb c hc
    rw [List.mem_singleton.mp hc]
    exact fun he => hnew (he ▸ hb)
  · intro b
    by_cases hb : b = a
    · subst hb
      simp [p.covers, ha]
    · simp [p.covers, h, hb]
  · intro b hb hp
    obtain ⟨hp, hne⟩ := (h b).mp hp
    cases List.mem_append.mp hb with
    | inl hd => exact p.apart b hd hp
    | inr he => exact hne (List.mem_singleton.mp he)

theorem subperm (p : Partition received done pending) : done.Subperm received :=
  p.distinct.subperm fun a ha => (p.covers a).mpr (.inl ha)

theorem length_le (p : Partition received done pending) : done.length ≤ received.length :=
  p.subperm.length_le

/-- When as many are done as were received, everything received is done. -/
theorem perm (p : Partition received done pending) (h : received.length ≤ done.length) :
    done.Perm received :=
  p.subperm.perm_of_length_le h

theorem not_pending (p : Partition received done pending) (h : received.length ≤ done.length)
    (a : α) : ¬pending a := by
  intro ha
  exact p.apart a ((p.perm h).mem_iff.mpr ((p.covers a).mpr (.inr ha))) ha

end Partition

end GridServer.Library
