import GridServer.Library.Run
import GridServer.Shared.LinkedNodesIters

namespace GridServer.Pointers
open Library Function

variable {V : Type} {checks : Bool} {m : LinkedVecMap V} {l : GridServer.LinkedVecMap V}

inductive Call (V : Type) where
  | insert (k : Nat) (v : V)
  /-- `entry` and `insert` on it, occupied or vacant. -/
  | entryInsert (k : Nat) (v : V)
  | remove (k : Nat)
  | getRefresh (k : Nat)
  | popFront
  | popBack
  /-- `drain`, with the calls on the iterator before it is dropped or forgotten. -/
  | drain (ends : List End) (forgotten : Bool)
  | clear

inductive Answer (V : Type) where
  | value (v : Option V)
  | entry (e : Option (Nat × V))
  | items (es : List (Option (Nat × V)))
  | none

namespace Call

/-- Keys are `usize`. -/
def OfUsize : Call V → Prop
  | .insert k _ | .entryInsert k _ | .remove k | .getRefresh k => k < 2 ^ 64
  | _ => True

/-- An insertion whose slots can be counted. -/
def Fits (map : VecMap Ptr) : Call V → Prop
  | .insert k _ | .entryInsert k _ => ¬ map.Overgrows k
  | _ => True

instance : (c : Call V) → Decidable c.OfUsize
  | .insert k _ | .entryInsert k _ | .remove k | .getRefresh k => Nat.decLt k _
  | .popFront | .popBack | .drain .. | .clear => .isTrue trivial

/-- What a call does to a list of pairs in the order of the last insertion, and what it answers. -/
def meaning (l : GridServer.LinkedVecMap V) : Call V → GridServer.LinkedVecMap V × Answer V
  | .insert k v => (l.insert k v, .value (l.get k))
  | .entryInsert k v => (l.insert k v, .value (some ((l.get k).getD v)))
  | .remove k => (l.remove k, .value (l.get k))
  | .getRefresh k => (l.refresh k, .value (l.get k))
  | .popFront => (l.popFront, .entry l.front)
  | .popBack => (l.popBack, .entry l.back)
  | .drain ends _ => (.new, .items (takes ends l.entries).1)
  | .clear => (.new, .none)

end Call

/-- The calls on a list of pairs that is empty at first, with their answers. -/
def replay (cs : List (Call V)) : GridServer.LinkedVecMap V × List (Answer V) :=
  cs.foldl (fun r c => ((c.meaning r.1).1, r.2 ++ [(c.meaning r.1).2])) (.new, [])

theorem replay_append (cs : List (Call V)) (c : Call V) :
    replay (cs ++ [c]) =
      ((c.meaning (replay cs).1).1, (replay cs).2 ++ [(c.meaning (replay cs).1).2]) := by
  simp only [replay, List.foldl_append, List.foldl_cons, List.foldl_nil]

namespace LinkedVecMap

/-- A call on the map, with its answer. -/
def call (checks : Bool) (m : LinkedVecMap V) :
    Call V → Except Fault (LinkedVecMap V × List (Answer V))
  | .insert k v => do
    let (m, old) ← m.insert checks k v
    return (m, [.value old])
  | .entryInsert k v => do
    let (m, value) ← m.entryInsert checks k v
    return (m, [.value (some value)])
  | .remove k => do
    let (m, value) ← m.remove k
    return (m, [.value value])
  | .getRefresh k => do
    let (m, value) ← m.getRefresh k
    return (m, [.value value])
  | .popFront => do
    let (m, e) ← m.popFront
    return (m, [.entry e])
  | .popBack => do
    let (m, e) ← m.popBack
    return (m, [.entry e])
  | .drain ends forgotten => do
    let (m, es) ← m.drainWith checks ends forgotten
    return (m, [.items es])
  | .clear => do
    let m ← m.clear
    return (m, [.none])

/-- The nodes that `next` leads to from the guard. -/
def InRing (m : LinkedVecMap V) (a : Nat) : Prop :=
  ∃ as, Path (links m.heap).next m.head as (some a)

/-- The nodes that `next` leads to from the head of the free list. -/
def InFreeList (m : LinkedVecMap V) (a : Nat) : Prop :=
  ∃ as, Path (links m.heap).next m.free as (some a)

/-- Whatever reads the map sees the pairs of `l`, and no node of the free list is in the ring. -/
structure Shows (m : LinkedVecMap V) (checks : Bool) (l : GridServer.LinkedVecMap V) : Prop where
  len : m.len = l.len
  get : ∀ k, m.get k = .ok (l.get k)
  front : m.front = .ok l.front
  back : m.back = .ok l.back
  iter : ∀ ends, ∃ items, m.iterWith checks ends = .ok items ∧ EachOnce ends items l.entries
  intoIter : ∀ ends, ∃ items, m.intoIterWith ends = .ok items ∧ EachOnce ends items l.entries
  recycled : ∀ a, m.InFreeList a → ¬ m.InRing a

end LinkedVecMap

theorem Models.recycled (h : Models m l) {a : Nat} (hfree : m.InFreeList a) : ¬ m.InRing a := by
  obtain ⟨as, hfree⟩ := hfree
  rintro ⟨bs, hring⟩
  rcases h with ⟨hblank, _⟩ | ⟨g, ps, frees, h⟩
  · have hnone : Path (links m.heap).next m.free [] none := hblank.free
    cases hfree.end_mem hnone.closed (by simp [hblank.free])
  · have hmem : a ∈ frees := by
      refine hfree.end_mem h.shape.chain.closed fun b hb => ?_
      have hchain := h.shape.chain
      rw [hb] at hchain
      cases frees with
      | nil => cases hchain
      | cons c frees => exact List.mem_cons.mpr (.inl (Option.some.inj hchain.1))
    have hmem' : a ∈ g :: ps.map Prod.fst := by
      refine hring.end_mem (fun b hb c hc => ?_) fun b hb => ?_
      · obtain ⟨d, hd, he⟩ := h.shape.ring.prev_mem hb
        exact Option.some.inj (he.symm.trans hc) ▸ hd
      · exact List.mem_cons.mpr (.inl (Option.some.inj (hb.symm.trans h.head)))
    exact h.shape.not_mem_frees hmem' hmem

theorem Models.shows (h : Models m l) : m.Shows checks l where
  len := h.count
  get := get_spec h
  front := front_spec h
  back := back_spec h
  iter ends := ⟨_, iterWith_spec h ends, eachOnce_takes ends l.entries⟩
  intoIter ends := ⟨_, intoIterWith_spec h ends, eachOnce_takes ends l.entries⟩
  recycled _ := h.recycled

/-- Each call does to the nodes what it does to the list. -/
theorem call_spec (checks : Bool) (h : Models m l) {c : Call V} (husize : c.OfUsize)
    (hfits : c.Fits m.map) :
    ∃ m', m.call checks c = .ok (m', [(c.meaning l).2]) ∧ Models m' (c.meaning l).1 := by
  cases c with
  | insert k v =>
    obtain ⟨m', hok, hmodels⟩ := insert_spec h husize hfits v
    exact ⟨m', by rw [LinkedVecMap.call, hok]; rfl, hmodels⟩
  | entryInsert k v =>
    obtain ⟨m', hok, hmodels⟩ := entryInsert_spec h husize hfits v
    exact ⟨m', by rw [LinkedVecMap.call, hok]; rfl, hmodels⟩
  | remove k =>
    obtain ⟨m', hok, hmodels⟩ := remove_spec h k
    exact ⟨m', by rw [LinkedVecMap.call, hok]; rfl, hmodels⟩
  | getRefresh k =>
    obtain ⟨m', hok, hmodels⟩ := getRefresh_spec h k
    exact ⟨m', by rw [LinkedVecMap.call, hok]; rfl, hmodels⟩
  | popFront =>
    obtain ⟨m', hok, hmodels⟩ := popFront_spec h
    exact ⟨m', by rw [LinkedVecMap.call, hok]; rfl, hmodels⟩
  | popBack =>
    obtain ⟨m', hok, hmodels⟩ := popBack_spec h
    exact ⟨m', by rw [LinkedVecMap.call, hok]; rfl, hmodels⟩
  | drain ends forgotten =>
    obtain ⟨m', hok, hmodels⟩ := drainWith_spec checks h ends forgotten
    exact ⟨m', by rw [LinkedVecMap.call, hok]; rfl, hmodels⟩
  | clear =>
    obtain ⟨m', hok, hmodels⟩ := clear_spec h
    exact ⟨m', by rw [LinkedVecMap.call, hok]; rfl, hmodels⟩

/-- The other insertions fail. -/
theorem fits_of_succeeds (h : Models m l) {c : Call V} (hok : Succeeds (m.call checks c)) :
    c.Fits m.map := by
  obtain ⟨r, hok⟩ := hok
  cases c with
  | insert k v =>
    intro hover
    obtain ⟨e, he⟩ := insert_overgrows checks h hover v
    rw [LinkedVecMap.call, he] at hok
    cases hok
  | entryInsert k v =>
    intro hover
    obtain ⟨e, he⟩ := entryInsert_overgrows checks h hover v
    rw [LinkedVecMap.call, he] at hok
    cases hok
  | _ => trivial

namespace LinkedVecMap

end LinkedVecMap
end GridServer.Pointers
