import Mathlib.Data.List.Nodup
import Mathlib.Logic.Function.Basic
import Mathlib.Tactic.Common

namespace GridServer.Library
open Function

variable {α : Type} {next prev : α → Option α}

/-- Following `next` from `p` visits `as` one by one and arrives at `q`. -/
def Path (next : α → Option α) : Option α → List α → Option α → Prop
  | p, [], q => p = q
  | p, a :: as, q => p = some a ∧ Path next (next a) as q

@[simp] theorem path_nil {p q : Option α} : Path next p [] q ↔ p = q := Iff.rfl

@[simp] theorem path_cons {p q : Option α} {a : α} {as : List α} :
    Path next p (a :: as) q ↔ p = some a ∧ Path next (next a) as q := Iff.rfl

theorem path_append {p q : Option α} {as bs : List α} :
    Path next p (as ++ bs) q ↔ ∃ r, Path next p as r ∧ Path next r bs q := by
  induction as generalizing p with
  | nil => simp
  | cons a as ih =>
    rw [List.cons_append, path_cons, ih]
    constructor
    · rintro ⟨hp, r, first, second⟩
      exact ⟨r, ⟨hp, first⟩, second⟩
    · rintro ⟨r, ⟨hp, first⟩, second⟩
      exact ⟨hp, r, first, second⟩

/-- A path depends on the links of the addresses it visits only. -/
theorem Path.congr {next' : α → Option α} {p q : Option α} {as : List α} (h : Path next p as q)
    (same : ∀ a ∈ as, next' a = next a) : Path next' p as q := by
  induction as generalizing p with
  | nil => exact h
  | cons a as ih =>
    refine ⟨h.1, ?_⟩
    rw [same a List.mem_cons_self]
    exact ih h.2 fun b hb => same b (List.mem_cons_of_mem _ hb)

theorem Path.update [DecidableEq α] {p q r : Option α} {as : List α} {x : α}
    (h : Path next p as q) (hx : x ∉ as) : Path (update next x r) p as q :=
  h.congr fun _ ha => update_of_ne (ne_of_mem_of_not_mem ha hx) _ _

/-- Each address on a path is the end of the part before it. -/
theorem Path.before {p q : Option α} {as bs : List α} {x : α} (h : Path next p (as ++ x :: bs) q) :
    Path next p as (some x) := by
  obtain ⟨r, first, rfl, _⟩ := path_append.mp h
  exact first

theorem Path.after {p q : Option α} {as bs : List α} {x : α} (h : Path next p (as ++ x :: bs) q) :
    Path next (next x) bs q := by
  obtain ⟨r, _, _, second⟩ := path_append.mp h
  exact second

/-- From inside a set that the links do not leave, a path stays inside. -/
theorem Path.end_mem {p : Option α} {as inside : List α} {a : α} (h : Path next p as (some a))
    (closed : ∀ b ∈ inside, ∀ c, next b = some c → c ∈ inside)
    (start : ∀ b, p = some b → b ∈ inside) :
    a ∈ inside := by
  induction as generalizing p with
  | nil => exact start a h
  | cons b as ih => exact ih h.2 (closed b (start b h.1))

/-- The links of a path that ends nowhere do not leave it. -/
theorem Path.closed {p : Option α} {as : List α} (h : Path next p as none) :
    ∀ b ∈ as, ∀ c, next b = some c → c ∈ as := by
  intro b hb c hc
  obtain ⟨before, after, rfl⟩ := List.append_of_mem hb
  have hafter := h.after
  rw [hc] at hafter
  cases after with
  | nil => cases hafter
  | cons d after =>
    obtain rfl := Option.some.inj hafter.1
    simp

/-- Take `x` out of a path by pointing the address before it past it. -/
theorem Path.unlink [DecidableEq α] {p q : Option α} {as bs : List α} {a x : α}
    (h : Path next p (as ++ a :: x :: bs) q) (nodup : (as ++ a :: bs).Nodup) :
    Path (Function.update next a (next x)) p (as ++ a :: bs) q := by
  obtain ⟨r, first, rfl, rest⟩ := path_append.mp h
  obtain ⟨_, second⟩ := path_cons.mp rest
  rw [List.nodup_append] at nodup
  obtain ⟨_, hbs, hdisj⟩ := nodup
  have ha : a ∉ as := fun ha => hdisj a ha a List.mem_cons_self rfl
  refine path_append.mpr ⟨some a, first.update ha, rfl, ?_⟩
  rw [update_self]
  exact second.update (List.nodup_cons.mp hbs).1

/-- Point the last address of a path elsewhere. -/
theorem Path.redirect [DecidableEq α] {p q : Option α} {as : List α} {a : α}
    (h : Path next p (as ++ [a]) q) (ha : a ∉ as) (r : Option α) :
    Path (Function.update next a r) p (as ++ [a]) r :=
  path_append.mpr ⟨some a, h.before.update ha, rfl, update_self ..⟩

/-- Put `x` into a path behind `a`. -/
theorem Path.link [DecidableEq α] {p q : Option α} {as bs : List α} {a x : α}
    (h : Path next p (as ++ a :: bs) q) (nodup : (as ++ a :: bs).Nodup) (hx : x ∉ as ++ a :: bs) :
    Path (Function.update (Function.update next x (next a)) a (some x)) p (as ++ a :: x :: bs)
      q := by
  obtain ⟨r, first, rfl, second⟩ := path_append.mp h
  rw [List.nodup_append] at nodup
  obtain ⟨_, hbs, hdisj⟩ := nodup
  simp only [List.mem_append, List.mem_cons, not_or] at hx
  obtain ⟨hxas, hxa, hxbs⟩ := hx
  have ha : a ∉ as := fun ha => hdisj a ha a List.mem_cons_self rfl
  refine path_append.mpr ⟨some a, (first.update hxas).update ha, rfl, ?_⟩
  rw [update_self]
  refine ⟨rfl, ?_⟩
  rw [update_of_ne hxa, update_self]
  exact (second.update hxbs).update (List.nodup_cons.mp hbs).1

/-- A circular doubly linked list: `g` and then `as` in the direction of `next`, and back again in
the direction of `prev`. -/
structure Ring (next prev : α → Option α) (g : α) (as : List α) : Prop where
  forth : Path next (some g) (g :: as) (some g)
  back : Path prev (some g) (g :: as.reverse) (some g)
  nodup : (g :: as).Nodup

namespace Ring
variable {g : α} {as bs : List α} {x : α}

theorem alone (hnext : next g = some g) (hprev : prev g = some g) : Ring next prev g [] :=
  ⟨⟨rfl, hnext⟩, ⟨rfl, hprev⟩, by simp⟩

theorem symm (h : Ring next prev g as) : Ring prev next g as.reverse := by
  refine ⟨h.back, by rw [List.reverse_reverse]; exact h.forth, ?_⟩
  rw [List.nodup_cons, List.mem_reverse, List.nodup_reverse, ← List.nodup_cons]
  exact h.nodup

theorem congr {next' prev' : α → Option α} (h : Ring next prev g as)
    (hnext : ∀ a ∈ g :: as, next' a = next a) (hprev : ∀ a ∈ g :: as, prev' a = prev a) :
    Ring next' prev' g as := by
  refine ⟨h.forth.congr hnext, h.back.congr fun a ha => hprev a ?_, h.nodup⟩
  rw [List.mem_cons, List.mem_reverse] at ha
  exact List.mem_cons.mpr ha

/-- Every link of a ring leads back into it. -/
theorem next_mem (h : Ring next prev g as) {a : α} (ha : a ∈ g :: as) :
    ∃ b ∈ g :: as, next a = some b := by
  obtain ⟨before, after, hsplit⟩ := List.append_of_mem ha
  have hpath := h.forth
  rw [hsplit] at hpath
  have hafter := hpath.after
  cases after with
  | nil => exact ⟨g, List.mem_cons_self, hafter⟩
  | cons b after =>
    refine ⟨b, ?_, hafter.1⟩
    rw [hsplit]
    simp

theorem prev_mem (h : Ring next prev g as) {a : α} (ha : a ∈ g :: as) :
    ∃ b ∈ g :: as, prev a = some b := by
  obtain ⟨b, hb, he⟩ := h.symm.next_mem (a := a) (by simpa using ha)
  exact ⟨b, by simpa using hb, he⟩

/-- The link back from `x` leads to what stands before it. -/
theorem prev_eq (h : Ring next prev g (as ++ x :: bs)) :
    ∃ init p, g :: as = init ++ [p] ∧ prev x = some p := by
  have hback := h.back
  rw [List.reverse_append, List.reverse_cons, List.append_assoc, List.singleton_append,
    ← List.cons_append] at hback
  have hrest := hback.after
  rcases List.eq_nil_or_concat' as with rfl | ⟨init, p, rfl⟩
  · exact ⟨[], g, rfl, hrest⟩
  · rw [List.reverse_append] at hrest
    exact ⟨g :: init, p, rfl, hrest.1⟩

/-- The neighbours of `x` are among the others. -/
theorem neighbours (h : Ring next prev g (as ++ x :: bs)) :
    ∃ p n, prev x = some p ∧ next x = some n ∧ p ∈ g :: (as ++ bs) ∧ n ∈ g :: (as ++ bs) := by
  obtain ⟨init, p, hp, hprev⟩ := h.prev_eq
  have hsymm := h.symm
  rw [List.reverse_append, List.reverse_cons, List.append_assoc, List.singleton_append] at hsymm
  obtain ⟨last, n, hn, hnext⟩ := hsymm.prev_eq
  have hpmem : p ∈ g :: as := by simp [hp]
  have hnmem : n ∈ g :: bs.reverse := by simp [hn]
  refine ⟨p, n, hprev, hnext, ?_, ?_⟩
  · rw [← List.cons_append]
    exact List.mem_append_left _ hpmem
  · simp only [List.mem_cons, List.mem_reverse, List.mem_append] at hnmem ⊢
    tauto

variable [DecidableEq α]

private theorem forth_unlink (h : Ring next prev g (as ++ x :: bs)) {p : α} (hp : prev x = some p) :
    Path (update next p (next x)) (some g) (g :: (as ++ bs)) (some g) := by
  obtain ⟨init, p', hinit, hp'⟩ := h.prev_eq
  obtain rfl : p' = p := Option.some.inj (hp'.symm.trans hp)
  have hforth := h.forth
  have hnodup : (g :: (as ++ bs)).Nodup := h.nodup.sublist (by simp)
  rw [← List.cons_append, hinit, List.append_assoc] at hforth hnodup ⊢
  exact hforth.unlink hnodup

/-- Taking `x` out of a ring. -/
theorem unlink (h : Ring next prev g (as ++ x :: bs)) {p n : α} (hp : prev x = some p)
    (hn : next x = some n) :
    Ring (update next p (some n)) (update prev n (some p)) g (as ++ bs) := by
  refine ⟨hn ▸ h.forth_unlink hp, ?_, h.nodup.sublist (by simp)⟩
  have hsymm := h.symm
  rw [List.reverse_append, List.reverse_cons, List.append_assoc, List.singleton_append] at hsymm
  rw [List.reverse_append, ← hp]
  exact hsymm.forth_unlink hn

/-- Putting `x` into a ring behind `g`. -/
theorem link (h : Ring next prev g as) (hx : x ∉ g :: as) {n : α} (hn : next g = some n) :
    Ring (update (update next x (some n)) g (some x)) (update (update prev x (some g)) n (some x)) g
      (x :: as) := by
  have hxg : x ≠ g := List.ne_of_not_mem_cons hx
  have hxas : x ∉ as := List.not_mem_of_not_mem_cons hx
  refine ⟨?_, ?_, ?_⟩
  · rw [← hn]
    have hforth : Path next (some g) ([] ++ g :: as) (some g) := h.forth
    exact hforth.link h.nodup hx
  · -- `n` stands last in the direction back
    obtain ⟨init, hinit⟩ : ∃ init, g :: as.reverse = init ++ [n] := by
      cases as with
      | nil => exact ⟨[], by rw [show n = g from Option.some.inj (hn.symm.trans h.forth.2)]; rfl⟩
      | cons a as =>
        obtain rfl : n = a := Option.some.inj (hn.symm.trans h.forth.2.1)
        exact ⟨g :: as.reverse, by simp⟩
    have hback := h.back
    have hnodup := h.symm.nodup
    have hx' : x ∉ g :: as.reverse := by simpa using hx
    rw [List.reverse_cons, ← List.cons_append]
    rw [hinit] at hback hnodup hx' ⊢
    have hprev : prev n = some g := hback.after
    have hlink := hback.link hnodup hx'
    rw [hprev] at hlink
    rw [List.append_assoc]
    exact hlink
  · obtain ⟨hg, hnodup⟩ := List.nodup_cons.mp h.nodup
    rw [List.nodup_cons, List.mem_cons, not_or, List.nodup_cons]
    exact ⟨⟨Ne.symm hxg, hg⟩, hxas, hnodup⟩

end Ring
end GridServer.Library
