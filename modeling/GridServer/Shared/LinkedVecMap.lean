import Mathlib.Data.List.Nodup
import Mathlib.Logic.Function.Basic
import Mathlib.Tactic.Common

namespace GridServer

/-- A map that remembers in which order its keys were inserted, oldest first. -/
structure LinkedVecMap (V : Type) where
  entries : List (Nat × V)
  distinct : (entries.map Prod.fst).Nodup
deriving DecidableEq, Repr

namespace LinkedVecMap
variable {V : Type} {m : LinkedVecMap V}

def new : LinkedVecMap V := ⟨[], .nil⟩

def keys (m : LinkedVecMap V) : List Nat := m.entries.map Prod.fst

def len (m : LinkedVecMap V) : Nat := m.entries.length

def get (m : LinkedVecMap V) (k : Nat) : Option V :=
  (m.entries.find? fun e => e.1 = k).map Prod.snd

def containsKey (m : LinkedVecMap V) (k : Nat) : Bool := (m.get k).isSome

theorem distinct_filter {entries : List (Nat × V)} (h : (entries.map Prod.fst).Nodup)
    (p : Nat × V → Bool) : ((entries.filter p).map Prod.fst).Nodup :=
  (List.filter_sublist.map Prod.fst).nodup h

def remove (m : LinkedVecMap V) (k : Nat) : LinkedVecMap V :=
  { entries := m.entries.filter fun e => e.1 ≠ k
    distinct := distinct_filter m.distinct _ }

/-- The value goes to the back, also when the key was there already. -/
def insert (m : LinkedVecMap V) (k : Nat) (v : V) : LinkedVecMap V :=
  { entries := (m.remove k).entries ++ [(k, v)]
    distinct := by
      rw [List.map_append, List.nodup_append]
      refine ⟨(m.remove k).distinct, by simp, ?_⟩
      intro a ha b hb he
      obtain ⟨e, hmem, rfl⟩ := List.mem_map.mp ha
      have hne := (List.mem_filter.mp hmem).2
      simp only [ne_eq, decide_not, Bool.not_eq_eq_eq_not, Bool.not_true, decide_eq_false_iff_not]
        at hne
      simp only [List.map_cons, List.map_nil, List.mem_singleton] at hb
      exact hne (he.trans hb) }

/-- What a write through the reference that `get_mut` returned leaves behind. -/
def write (m : LinkedVecMap V) (k : Nat) (v : V) : LinkedVecMap V :=
  { entries := m.entries.map fun e => if e.1 = k then (k, v) else e
    distinct := by
      have hkeys : (m.entries.map fun e => if e.1 = k then (k, v) else e).map Prod.fst =
          m.entries.map Prod.fst := by
        rw [List.map_map]
        apply List.map_congr_left
        intro e _
        by_cases he : e.1 = k
        · simp [he]
        · simp [he]
      rw [hkeys]
      exact m.distinct }

def front (m : LinkedVecMap V) : Option (Nat × V) := m.entries.head?

def popFront (m : LinkedVecMap V) : LinkedVecMap V :=
  { entries := m.entries.tail
    distinct := by
      rw [List.map_tail]
      exact m.distinct.sublist (List.tail_sublist _) }

def back (m : LinkedVecMap V) : Option (Nat × V) := m.entries.getLast?

def popBack (m : LinkedVecMap V) : LinkedVecMap V :=
  { entries := m.entries.dropLast
    distinct := by
      rw [List.map_dropLast]
      exact m.distinct.sublist (List.dropLast_sublist _) }

/-- What `get_refresh` leaves behind: the key is the newest, if it is there. -/
def refresh (m : LinkedVecMap V) (k : Nat) : LinkedVecMap V :=
  match m.get k with
  | some v => m.insert k v
  | none => m

theorem get_eq_some {k : Nat} {v : V} : m.get k = some v ↔ (k, v) ∈ m.entries := by
  obtain ⟨entries, distinct⟩ := m
  simp only [get]
  induction entries with
  | nil => simp
  | cons e es ih =>
    rw [List.map_cons, List.nodup_cons] at distinct
    rw [List.find?_cons, List.mem_cons]
    by_cases he : e.1 = k
    · subst he
      have hnot : (e.1, v) ∉ es := fun h => distinct.1 (List.mem_map.mpr ⟨_, h, rfl⟩)
      simp only [decide_true, Option.map_some, Option.some.injEq, hnot, or_false]
      constructor
      · rintro rfl
        rfl
      · intro hv
        rw [← hv]
    · have hne : (k, v) ≠ e := fun h => he (by rw [← h])
      simp only [he, decide_false, hne, false_or]
      exact ih distinct.2

theorem get_eq_none {k : Nat} : m.get k = none ↔ k ∉ m.keys := by
  rw [Option.eq_none_iff_forall_ne_some]
  constructor
  · intro h hk
    obtain ⟨e, he, rfl⟩ := List.mem_map.mp hk
    exact h e.2 (get_eq_some.mpr he)
  · intro h v hv
    exact h (List.mem_map.mpr ⟨_, get_eq_some.mp hv, rfl⟩)

theorem mem_keys {k : Nat} : k ∈ m.keys ↔ (m.get k).isSome := by
  rw [← not_iff_not, ← get_eq_none, Option.not_isSome_iff_eq_none]

@[simp] theorem get_new (k : Nat) : (new : LinkedVecMap V).get k = none := rfl

@[simp] theorem keys_new : (new : LinkedVecMap V).keys = [] := rfl

/-- What stands under a key comes once. -/
theorem entries_remove {k : Nat} {v : V} {as bs : List (Nat × V)}
    (h : m.entries = as ++ (k, v) :: bs) : (m.remove k).entries = as ++ bs := by
  have hdistinct := m.distinct
  rw [h, List.map_append, List.map_cons, List.nodup_middle, ← List.map_append] at hdistinct
  have hk := (List.nodup_cons.mp hdistinct).1
  have hkeep : (as ++ bs).filter (fun e => e.1 ≠ k) = as ++ bs := by
    rw [List.filter_eq_self]
    intro e he
    simpa using ne_of_mem_of_not_mem (List.mem_map_of_mem (f := Prod.fst) he) hk
  rw [List.filter_append] at hkeep
  simp only [remove, h, List.filter_append, List.filter_cons]
  simpa using hkeep

theorem entries_remove_of_not_mem {k : Nat} (h : k ∉ m.keys) :
    (m.remove k).entries = m.entries := by
  simp only [remove, List.filter_eq_self]
  intro e he
  simpa using ne_of_mem_of_not_mem (List.mem_map_of_mem (f := Prod.fst) he) h

theorem ext_get {f : Nat → Option V} (h : ∀ k v, (k, v) ∈ m.entries ↔ f k = some v) : m.get = f := by
  funext k
  apply Option.ext
  intro v
  rw [get_eq_some, h]

@[simp] theorem get_remove (m : LinkedVecMap V) (k : Nat) :
    (m.remove k).get = Function.update m.get k none := by
  apply ext_get
  intro k' v
  by_cases hk : k' = k
  · subst hk
    simp [remove]
  · rw [Function.update_of_ne hk, get_eq_some]
    simp [remove, hk]

@[simp] theorem get_insert (m : LinkedVecMap V) (k : Nat) (v : V) :
    (m.insert k v).get = Function.update m.get k (some v) := by
  apply ext_get
  intro k' v'
  by_cases hk : k' = k
  · subst hk
    simp [insert, remove, eq_comm]
  · rw [Function.update_of_ne hk, get_eq_some]
    simp [insert, remove, hk]

theorem keys_write (m : LinkedVecMap V) (k : Nat) (v : V) : (m.write k v).keys = m.keys := by
  simp only [keys, write, List.map_map]
  apply List.map_congr_left
  intro e _
  by_cases he : e.1 = k
  · simp [he]
  · simp [he]

theorem get_write {k : Nat} (h : (m.get k).isSome) (v : V) :
    (m.write k v).get = Function.update m.get k (some v) := by
  apply ext_get
  intro k' v'
  by_cases hk : k' = k
  · subst hk
    obtain ⟨old, hold⟩ := Option.isSome_iff_exists.mp h
    rw [Function.update_self, Option.some.injEq]
    constructor
    · intro hmem
      obtain ⟨e, _, he⟩ := List.mem_map.mp hmem
      by_cases hek : e.1 = k'
      · rw [if_pos hek] at he
        exact congrArg Prod.snd he
      · rw [if_neg hek] at he
        exact absurd (congrArg Prod.fst he) hek
    · rintro rfl
      exact List.mem_map.mpr ⟨_, get_eq_some.mp hold, by simp⟩
  · rw [Function.update_of_ne hk, get_eq_some]
    constructor
    · intro hmem
      obtain ⟨e, hmem, he⟩ := List.mem_map.mp hmem
      by_cases hek : e.1 = k
      · rw [if_pos hek] at he
        exact absurd (congrArg Prod.fst he).symm hk
      · rw [if_neg hek] at he
        exact he ▸ hmem
    · intro hmem
      exact List.mem_map.mpr ⟨_, hmem, by simp [hk]⟩

theorem front_eq_none : m.front = none ↔ m.entries = [] := List.head?_eq_none_iff

theorem entries_of_front {e : Nat × V} (h : m.front = some e) :
    m.entries = e :: m.popFront.entries := by
  unfold front at h
  cases hm : m.entries with
  | nil =>
    rw [hm] at h
    cases h
  | cons e' es =>
    rw [hm, List.head?_cons, Option.some.injEq] at h
    simp [popFront, hm, h]

theorem get_popFront {e : Nat × V} (h : m.front = some e) :
    m.popFront.get = Function.update m.get e.1 none := by
  have hm := entries_of_front h
  have hd := m.distinct
  rw [hm, List.map_cons, List.nodup_cons] at hd
  apply ext_get
  intro k v
  by_cases hk : k = e.1
  · subst hk
    rw [Function.update_self]
    constructor
    · intro hmem
      exact absurd (List.mem_map.mpr ⟨_, hmem, rfl⟩) hd.1
    · intro hnone
      cases hnone
  · rw [Function.update_of_ne hk, get_eq_some, hm, List.mem_cons]
    have hne : (k, v) ≠ e := fun he => hk (by rw [← he])
    simp [hne]

theorem len_insert {k : Nat} (h : m.get k = none) (v : V) : (m.insert k v).len = m.len + 1 := by
  simp only [len, insert, entries_remove_of_not_mem (get_eq_none.mp h), List.length_append,
    List.length_singleton]

theorem len_remove {k : Nat} (h : (m.get k).isSome) : (m.remove k).len + 1 = m.len := by
  obtain ⟨v, hv⟩ := Option.isSome_iff_exists.mp h
  have hsplit : m.entries.Perm ((k, v) :: (m.remove k).entries) := by
    apply (List.perm_ext_iff_of_nodup m.distinct.of_map ?_).mpr
    · intro e
      rw [List.mem_cons]
      simp only [remove, List.mem_filter, ne_eq, decide_not, Bool.not_eq_eq_eq_not, Bool.not_true,
        decide_eq_false_iff_not]
      by_cases hk : e.1 = k
      · constructor
        · intro he
          have hsame := (get_eq_some.mpr (show (k, e.2) ∈ m.entries from hk ▸ he)).symm.trans hv
          exact .inl (Prod.ext hk (Option.some.inj hsame))
        · rintro (rfl | ⟨_, hne⟩)
          · exact get_eq_some.mp hv
          · exact absurd hk hne
      · constructor
        · exact fun he => .inr ⟨he, hk⟩
        · rintro (rfl | ⟨he, _⟩)
          · exact absurd rfl hk
          · exact he
    · rw [List.nodup_cons]
      refine ⟨?_, (m.remove k).distinct.of_map⟩
      simp [remove]
  exact hsplit.length_eq.symm

end LinkedVecMap

/-- The keys of such a map. -/
abbrev LinkedVecSet := LinkedVecMap Unit

namespace LinkedVecSet

def insert (s : LinkedVecSet) (k : Nat) : LinkedVecSet := LinkedVecMap.insert s k ()

instance : Membership Nat LinkedVecSet := ⟨fun s k => (s.get k).isSome⟩

theorem mem_iff {s : LinkedVecSet} {k : Nat} : k ∈ s ↔ (s.get k).isSome := Iff.rfl

instance (s : LinkedVecSet) (k : Nat) : Decidable (k ∈ s) :=
  inferInstanceAs (Decidable ((s.get k).isSome = true))

theorem mem_keys {s : LinkedVecSet} {k : Nat} : k ∈ s.keys ↔ k ∈ s := LinkedVecMap.mem_keys

theorem not_mem_new (k : Nat) : k ∉ (LinkedVecMap.new : LinkedVecSet) := by simp [mem_iff]

theorem mem_insert {s : LinkedVecSet} {k k' : Nat} : k' ∈ s.insert k ↔ k' = k ∨ k' ∈ s := by
  rw [mem_iff, mem_iff, insert, LinkedVecMap.get_insert]
  by_cases h : k' = k
  · simp [h]
  · simp [h]

theorem mem_remove {s : LinkedVecSet} {k k' : Nat} :
    k' ∈ (s.remove k : LinkedVecSet) ↔ k' ≠ k ∧ k' ∈ s := by
  rw [mem_iff, mem_iff, LinkedVecMap.get_remove]
  by_cases h : k' = k
  · simp [h]
  · simp [h]

theorem mem_popFront {s : LinkedVecSet} {k k' : Nat} (h : s.front = some (k, ())) :
    k' ∈ (s.popFront : LinkedVecSet) ↔ k' ≠ k ∧ k' ∈ s := by
  rw [mem_iff, mem_iff, LinkedVecMap.get_popFront h]
  by_cases hk : k' = k
  · simp [hk]
  · simp [hk]

end LinkedVecSet
end GridServer
