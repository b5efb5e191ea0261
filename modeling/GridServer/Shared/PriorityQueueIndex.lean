import GridServer.Shared.PriorityQueue
import Mathlib.Data.List.Nodup

namespace GridServer.PriorityQueue
open Library

variable {V : Type}

/-- `heap` lists exactly the keys of `map`, once each, and `map` files each at its position. -/
structure Indexed (q : PriorityQueue V) : Prop where
  nodup : q.heap.Nodup
  mem_iff : ∀ id, id ∈ q.heap ↔ (q.get id).isSome
  position : ∀ p id, q.heap[p]? = some id → ∃ v, q.map.get id = some (p, v)

/-- `Indexed`, except that the entry at `i` may be filed under another position. -/
structure IndexedBut (q : PriorityQueue V) (i : Nat) : Prop where
  nodup : q.heap.Nodup
  mem_iff : ∀ id, id ∈ q.heap ↔ (q.get id).isSome
  position : ∀ p id, p ≠ i → q.heap[p]? = some id → ∃ v, q.map.get id = some (p, v)

theorem get_eq_some {q : PriorityQueue V} {id : Nat} {v : V} :
    q.get id = some v ↔ ∃ p, q.map.get id = some (p, v) := by
  simp [get]

theorem isSome_get {q : PriorityQueue V} {id : Nat} :
    (q.get id).isSome ↔ (q.map.get id).isSome := by simp [get]

@[simp] theorem indexed_new : (new : PriorityQueue V).Indexed :=
  ⟨List.nodup_nil, by simp [new, get], by simp [new]⟩

@[simp] theorem indexed_clear (q : PriorityQueue V) : q.clear.Indexed :=
  ⟨List.nodup_nil, by simp [clear, get], by simp [clear]⟩

@[simp] theorem get_new (id : Nat) : (new : PriorityQueue V).get id = none := by simp [new, get]

@[simp] theorem get_clear (q : PriorityQueue V) (id : Nat) : q.clear.get id = none := by
  simp [clear, get]

@[simp] theorem heap_clear (q : PriorityQueue V) : q.clear.heap = [] := rfl

theorem heapAt_ok {q : PriorityQueue V} {p id : Nat} :
    q.heapAt p = .ok id ↔ q.heap[p]? = some id := by
  unfold heapAt
  split <;> simp_all

theorem getPair_ok {q : PriorityQueue V} {a b idA idB : Nat} {entryA entryB : Nat × V} :
    q.getPair a b = .ok ((idA, entryA), (idB, entryB)) ↔
      q.heap[a]? = some idA ∧ q.heap[b]? = some idB ∧ q.map.get idA = some entryA ∧
        q.map.get idB = some entryB ∧ a ≠ b ∧ idA ≠ idB := by
  simp only [getPair, bind_ok, heapAt_ok, VecMap.getUnchecked_ok]
  constructor
  · rintro ⟨_, ha, _, hb, _, hea, _, heb, h⟩
    split at h
    · cases h
    · rename_i hne
      simp only [Except.ok.injEq, Prod.mk.injEq] at h
      obtain ⟨⟨rfl, rfl⟩, rfl, rfl⟩ := h
      exact ⟨ha, hb, hea, heb, not_or.mp hne⟩
  · rintro ⟨ha, hb, hea, heb, hab, hid⟩
    exact ⟨_, ha, _, hb, _, hea, _, heb, by simp [hab, hid]⟩

/-- The value of an id does not change when only stored positions are rewritten. -/
theorem get_write_position {q : PriorityQueue V} {id p : Nat} {v : V} (h : q.get id = some v) :
    ({ q with map := q.map.write id (p, v) } : PriorityQueue V).get = q.get := by
  funext k
  have hs : (q.map.get id).isSome := isSome_get.mp (by simp [h])
  by_cases hk : k = id
  · subst hk
    simp [get, VecMap.get_write hs] at h ⊢
    obtain ⟨a, ha⟩ := h
    simp [ha]
  · simp [get, VecMap.get_write hs, Function.update_of_ne hk]

/-- Rearranging `heap` without touching a value keeps its ids the keys of `map`. -/
theorem mem_iff_of_perm {q q' : PriorityQueue V} (h : ∀ id, id ∈ q.heap ↔ (q.get id).isSome)
    (perm : q'.heap.Perm q.heap) (same : q'.get = q.get) :
    ∀ id, id ∈ q'.heap ↔ (q'.get id).isSome := by
  intro id
  rw [perm.mem_iff, same, h]

theorem Indexed.lt_of_get {q : PriorityQueue V} (h : q.Indexed) {id p : Nat} {v : V}
    (hg : q.map.get id = some (p, v)) : q.heap[p]? = some id := by
  have hm : id ∈ q.heap := (h.mem_iff id).mpr (isSome_get.mpr (by simp [hg]))
  obtain ⟨p', hp⟩ := List.getElem?_of_mem hm
  obtain ⟨v', hv⟩ := h.position p' id hp
  rw [hg, Option.some.injEq, Prod.mk.injEq] at hv
  exact hv.1 ▸ hp

theorem Indexed.but {q : PriorityQueue V} (h : q.Indexed) (i : Nat) : q.IndexedBut i :=
  ⟨h.nodup, h.mem_iff, fun p id _ => h.position p id⟩

/-- Two positions hold different ids. -/
theorem index_inj {ids : List Nat} (nodup : ids.Nodup) {p p' id : Nat} (h : ids[p]? = some id)
    (h' : ids[p']? = some id) : p = p' := by
  obtain ⟨hlt, _⟩ := List.getElem?_eq_some_iff.mp h
  exact (List.getElem?_inj hlt nodup).mp (h.trans h'.symm)

theorem swap_content {q q' : PriorityQueue V} {a b : Nat} (h : q.Indexed)
    (hs : q.swap a b = .ok q') :
    q'.Indexed ∧ q'.get = q.get ∧ ∃ idA idB, q.heap[a]? = some idA ∧ q.heap[b]? = some idB ∧
      q'.heap = BinaryHeap.exchange q.heap a b idA idB := by
  simp only [swap, bind_ok, except_pure, Except.ok.injEq] at hs
  obtain ⟨⟨⟨idA, posA, valueA⟩, idB, posB, valueB⟩, hp, rfl⟩ := hs
  obtain ⟨ha, hb, hea, heb, hab, hid⟩ := getPair_ok.mp hp
  obtain ⟨_, hpa⟩ := h.position a idA ha
  obtain ⟨_, hpb⟩ := h.position b idB hb
  rw [hea, Option.some.injEq, Prod.mk.injEq] at hpa
  rw [heb, Option.some.injEq, Prod.mk.injEq] at hpb
  obtain ⟨rfl, rfl⟩ := hpa
  obtain ⟨rfl, rfl⟩ := hpb
  have hgetA : (q.map.get idA).isSome := by simp [hea]
  have hgetB : ((q.map.write idA (posB, valueA)).get idB).isSome := by
    rw [VecMap.get_write hgetA, Function.update_of_ne (Ne.symm hid)]
    simp [heb]
  have hmap : ((q.map.write idA (posB, valueA)).write idB (posA, valueB)).get =
      Function.update (Function.update q.map.get idA (some (posB, valueA))) idB
        (some (posA, valueB)) := by
    rw [VecMap.get_write hgetB, VecMap.get_write hgetA]
  have hsame : ({ map := (q.map.write idA (posB, valueA)).write idB (posA, valueB)
                  heap := BinaryHeap.exchange q.heap posA posB idA idB } : PriorityQueue V).get =
      q.get := by
    funext k
    simp only [get, hmap]
    by_cases hkb : k = idB
    · subst hkb; simp [heb]
    · by_cases hka : k = idA
      · subst hka; simp [Function.update_of_ne hid, hea]
      · simp [Function.update_of_ne hkb, Function.update_of_ne hka]
  have hperm := BinaryHeap.exchange_perm ha hb
  refine ⟨⟨hperm.nodup_iff.mpr h.nodup, mem_iff_of_perm h.mem_iff hperm hsame, ?_⟩, hsame,
    idA, idB, ha, hb, rfl⟩
  intro p id hpid
  simp only [hmap]
  rw [BinaryHeap.exchange_get ha hb] at hpid
  split_ifs at hpid with h1 h2
  · rw [Option.some.injEq] at hpid
    subst hpid h1
    exact ⟨valueA, by simp [Function.update_of_ne hid]⟩
  · rw [Option.some.injEq] at hpid
    subst hpid h2
    exact ⟨valueB, by simp⟩
  · have hnA : id ≠ idA := fun e => h2 (index_inj h.nodup (e ▸ hpid) ha)
    have hnB : id ≠ idB := fun e => h1 (index_inj h.nodup (e ▸ hpid) hb)
    obtain ⟨v, hv⟩ := h.position p id hpid
    exact ⟨v, by simp [Function.update_of_ne hnA, Function.update_of_ne hnB, hv]⟩

section Content
variable {cmp : V → V → Except Fault Bool}

theorem heapifyLoop_content {fuel : Nat} {q q' : PriorityQueue V} {i : Nat} (h : q.Indexed)
    (hl : heapifyLoop cmp fuel q i = .ok q') : q'.Indexed ∧ q'.get = q.get := by
  induction fuel generalizing q i with
  | zero => cases hl
  | succ fuel ih =>
    simp only [heapifyLoop, bind_ok] at hl
    obtain ⟨largest, _, hl⟩ := hl
    split at hl
    · rw [bind_ok] at hl
      obtain ⟨q₁, hs, hl⟩ := hl
      obtain ⟨h₁, same, _⟩ := swap_content h hs
      obtain ⟨h', same'⟩ := ih h₁ hl
      exact ⟨h', same'.trans same⟩
    · simp only [except_pure, Except.ok.injEq] at hl
      exact hl ▸ ⟨h, rfl⟩

theorem heapify_content {q q' : PriorityQueue V} {i : Nat} (h : q.Indexed)
    (hh : q.heapify cmp i = .ok q') : q'.Indexed ∧ q'.get = q.get := by
  unfold heapify at hh
  split at hh
  · rw [Except.ok.injEq] at hh
    exact hh ▸ ⟨h, rfl⟩
  · exact heapifyLoop_content h hh

/-- One pass of `bubble_up`: only the entry that moves stays filed under its old position. -/
theorem bubbleUp_move {q : PriorityQueue V} {i j idC idP : Nat} {entryC : Nat × V} {posP : Nat}
    {above : V} (h : q.IndexedBut i)
    (hp : q.getPair i j = .ok ((idC, entryC), (idP, posP, above))) :
    IndexedBut { map := q.map.write idP (i, above)
                 heap := BinaryHeap.exchange q.heap i j idC idP } j ∧
    ({ map := q.map.write idP (i, above)
       heap := BinaryHeap.exchange q.heap i j idC idP } : PriorityQueue V).get = q.get := by
  obtain ⟨hi, hj, hei, hej, hij, hid⟩ := getPair_ok.mp hp
  have hsome : (q.map.get idP).isSome := by simp [hej]
  have hval : q.get idP = some above := get_eq_some.mpr ⟨posP, hej⟩
  have hsame := get_write_position (p := i) hval
  have hperm := BinaryHeap.exchange_perm hi hj
  refine ⟨⟨hperm.nodup_iff.mpr h.nodup, ?_, ?_⟩, hsame⟩
  · intro id
    rw [hperm.mem_iff, h.mem_iff, ← congrFun hsame id]
    rfl
  · intro p id hpj hpid
    change ∃ v, (q.map.write idP (i, above)).get id = some (p, v)
    rw [VecMap.get_write hsome]
    rw [BinaryHeap.exchange_get hi hj] at hpid
    rw [if_neg hpj] at hpid
    split_ifs at hpid with h2
    · rw [Option.some.injEq] at hpid
      subst hpid h2
      exact ⟨above, by simp⟩
    · have hn : id ≠ idP := fun e => hpj (index_inj h.nodup (e ▸ hpid) hj)
      obtain ⟨v, hv⟩ := h.position p id h2 hpid
      exact ⟨v, by simp [Function.update_of_ne hn, hv]⟩

theorem bubbleUpLoop_content {fuel : Nat} {q q' : PriorityQueue V} {i i' : Nat}
    (h : q.IndexedBut i) (hl : bubbleUpLoop cmp fuel q i = .ok (q', i')) :
    q'.IndexedBut i' ∧ q'.get = q.get := by
  induction fuel generalizing q i with
  | zero => cases hl
  | succ fuel ih =>
    unfold bubbleUpLoop at hl
    split at hl
    · simp only [bind_ok] at hl
      obtain ⟨⟨⟨idC, posC, current⟩, idP, posP, above⟩, hp, moves, _, hl⟩ := hl
      obtain ⟨h₁, same⟩ := bubbleUp_move h hp
      split at hl
      · obtain ⟨h', same'⟩ := ih h₁ hl
        exact ⟨h', same'.trans same⟩
      · simp only [except_pure, Except.ok.injEq, Prod.mk.injEq] at hl
        obtain ⟨rfl, rfl⟩ := hl
        exact ⟨h, rfl⟩
    · simp only [except_pure, Except.ok.injEq, Prod.mk.injEq] at hl
      obtain ⟨rfl, rfl⟩ := hl
      exact ⟨h, rfl⟩

/-- The write that ends `bubble_up` files the moved entry under its new position. -/
theorem IndexedBut.settle {q : PriorityQueue V} {i id p : Nat} {v : V} (h : q.IndexedBut i)
    (hi : q.heap[i]? = some id) (hg : q.map.get id = some (p, v)) :
    Indexed { q with map := q.map.write id (i, v) } ∧
    ({ q with map := q.map.write id (i, v) } : PriorityQueue V).get = q.get := by
  have hsome : (q.map.get id).isSome := by simp [hg]
  have hsame := get_write_position (p := i) (get_eq_some.mpr ⟨p, hg⟩)
  refine ⟨⟨h.nodup, fun k => by rw [hsame]; exact h.mem_iff k, ?_⟩, hsame⟩
  intro p' id' hp'
  change ∃ v', (q.map.write id (i, v)).get id' = some (p', v')
  rw [VecMap.get_write hsome]
  by_cases he : p' = i
  · subst he
    rw [hi, Option.some.injEq] at hp'
    subst hp'
    exact ⟨v, by simp⟩
  · have hn : id' ≠ id := fun e => he (index_inj h.nodup (e ▸ hp') hi)
    obtain ⟨v', hv⟩ := h.position p' id' he hp'
    exact ⟨v', by simp [Function.update_of_ne hn, hv]⟩

theorem bubbleUp_content {q q' : PriorityQueue V} {i i' : Nat} (h : q.IndexedBut i)
    (hb : q.bubbleUp cmp i = .ok (q', i')) : q'.Indexed ∧ q'.get = q.get := by
  simp only [bubbleUp, bind_ok, except_pure, Except.ok.injEq, Prod.mk.injEq] at hb
  obtain ⟨⟨q₁, i₁⟩, hl, id, hid, entry, he, rfl, rfl⟩ := hb
  obtain ⟨h₁, same⟩ := bubbleUpLoop_content h hl
  obtain ⟨h₂, same'⟩ := h₁.settle (heapAt_ok.mp hid) (VecMap.getUnchecked_ok.mp he)
  exact ⟨h₂, same'.trans same⟩

theorem upHeapify_content {q q' : PriorityQueue V} {i : Nat} (h : q.IndexedBut i)
    (hu : q.upHeapify cmp i = .ok q') : q'.Indexed ∧ q'.get = q.get := by
  simp only [upHeapify, bind_ok] at hu
  obtain ⟨⟨q₁, i₁⟩, hb, hh⟩ := hu
  obtain ⟨h₁, same⟩ := bubbleUp_content h hb
  obtain ⟨h₂, same'⟩ := heapify_content h₁ hh
  exact ⟨h₂, same'.trans same⟩

theorem setValue_eq (value : V) {q : PriorityQueue V} {key p : Nat} {v : V}
    (hg : q.map.get key = some (p, v)) :
    q.setValue key value = { q with map := q.map.write key (p, value) } := by
  simp [setValue, hg]

/-- A write through a borrow changes the one value and no position. -/
theorem setValue_content {q : PriorityQueue V} (h : q.Indexed) {key : Nat}
    (hk : (q.get key).isSome) (value : V) :
    (q.setValue key value).Indexed ∧ (q.setValue key value).heap = q.heap ∧
      (q.setValue key value).get = Function.update q.get key (some value) := by
  obtain ⟨⟨p, v⟩, hg⟩ := Option.isSome_iff_exists.mp (isSome_get.mp hk)
  have hset := setValue_eq value hg
  have hget : (q.setValue key value).get = Function.update q.get key (some value) := by
    funext k
    rw [hset]
    by_cases hkk : k = key
    · subst hkk; simp [get, VecMap.get_write (isSome_get.mp hk)]
    · simp [get, VecMap.get_write (isSome_get.mp hk), Function.update_of_ne hkk]
  refine ⟨⟨?_, ?_, ?_⟩, by rw [hset], hget⟩
  · rw [hset]; exact h.nodup
  · intro id
    rw [hget]
    by_cases hkk : id = key
    · subst hkk
      have := (h.mem_iff id).mpr hk
      simp [hset, this]
    · rw [Function.update_of_ne hkk, hset]; exact h.mem_iff id
  · intro p' id hp'
    rw [hset] at hp' ⊢
    obtain ⟨v', hv⟩ := h.position p' id hp'
    by_cases hkk : id = key
    · subst hkk
      rw [hg, Option.some.injEq, Prod.mk.injEq] at hv
      obtain ⟨rfl, rfl⟩ := hv
      exact ⟨value, by simp [VecMap.get_write (isSome_get.mp hk)]⟩
    · exact ⟨v', by simp [VecMap.get_write (isSome_get.mp hk), Function.update_of_ne hkk, hv]⟩

/-- Dropping a borrow puts its value back. -/
theorem dropRefMut_content {q q' : PriorityQueue V} {r : RefMut V} (h : q.Indexed)
    (hk : (q.get r.key).isSome) (hr : r.modified = false → q.get r.key = some r.value)
    (hd : q.dropRefMut cmp r = .ok q') :
    q'.Indexed ∧ q'.get = Function.update q.get r.key (some r.value) := by
  unfold dropRefMut at hd
  obtain ⟨h₁, _, hset⟩ := setValue_content h hk r.value
  split at hd
  · split at hd
    · obtain ⟨h₂, same⟩ := heapify_content h₁ hd
      exact ⟨h₂, same.trans hset⟩
    · rw [Except.ok.injEq] at hd
      exact hd ▸ ⟨h₁, hset⟩
  · rename_i hm
    rw [Except.ok.injEq] at hd
    subst hd
    exact ⟨h, by rw [← hr (by simpa using hm), Function.update_eq_self]⟩

theorem dropPeekMut_content {q q' : PriorityQueue V} {r : RefMut V} (h : q.Indexed)
    (hk : (q.get r.key).isSome) (hr : r.modified = false → q.get r.key = some r.value)
    (hd : q.dropPeekMut cmp r = .ok q') :
    q'.Indexed ∧ q'.get = Function.update q.get r.key (some r.value) := by
  unfold dropPeekMut at hd
  obtain ⟨h₁, _, hset⟩ := setValue_content h hk r.value
  split at hd
  · obtain ⟨h₂, same⟩ := heapify_content h₁ hd
    exact ⟨h₂, same.trans hset⟩
  · rename_i hm
    rw [Except.ok.injEq] at hd
    subst hd
    exact ⟨h, by rw [← hr (by simpa using hm), Function.update_eq_self]⟩

theorem getMut_eq_some {q : PriorityQueue V} {id : Nat} {r : RefMut V} :
    q.getMut id = some r ↔ ∃ v, q.get id = some v ∧ r = ⟨id, v, false⟩ := by
  simp only [getMut, Option.map_eq_some_iff]
  exact exists_congr fun v => and_congr_right fun _ => eq_comm

theorem getMut_eq_none {q : PriorityQueue V} {id : Nat} : q.getMut id = none ↔ q.get id = none := by
  simp [getMut]

theorem peekMut_ok {q : PriorityQueue V} {r : Option (RefMut V)} (hp : q.peekMut = .ok r) :
    (r = none ∧ q.heap = []) ∨
      ∃ id v, r = some ⟨id, v, false⟩ ∧ q.heap[0]? = some id ∧ q.get id = some v := by
  unfold peekMut at hp
  split at hp
  · rename_i hn
    rw [Except.ok.injEq] at hp
    exact .inl ⟨hp.symm, by simpa using hn⟩
  · rename_i id hid
    simp only [bind_ok, VecMap.getUnchecked_ok, except_pure, Except.ok.injEq] at hp
    obtain ⟨⟨p, v⟩, he, rfl⟩ := hp
    exact .inr ⟨id, v, rfl, hid, get_eq_some.mpr ⟨p, he⟩⟩

theorem peekMut_of {q : PriorityQueue V} {id : Nat} {v : V} (hid : q.heap[0]? = some id)
    (hv : q.get id = some v) : q.peekMut = .ok (some ⟨id, v, false⟩) := by
  obtain ⟨p, he⟩ := get_eq_some.mp hv
  have hget := VecMap.getUnchecked_ok.mpr he
  simp [peekMut, hid, hget]

/-- A new id at the end of `heap`, filed under that position. -/
theorem appended_content {q : PriorityQueue V} (h : q.Indexed) {id : Nat} (hg : q.map.get id = none)
    (v : V) :
    IndexedBut { map := q.map.insert id (q.heap.length, v), heap := q.heap ++ [id] }
      q.heap.length ∧
    ({ map := q.map.insert id (q.heap.length, v), heap := q.heap ++ [id] } : PriorityQueue V).get =
      Function.update q.get id (some v) := by
  have hget : ({ map := q.map.insert id (q.heap.length, v), heap := q.heap ++ [id] }
      : PriorityQueue V).get = Function.update q.get id (some v) := by
    funext k
    by_cases hk : k = id
    · subst hk; simp [get]
    · simp [get, Function.update_of_ne hk]
  have hnot : id ∉ q.heap := by
    rw [h.mem_iff, isSome_get, hg]; simp
  refine ⟨⟨?_, ?_, ?_⟩, hget⟩
  · exact List.nodup_append.mpr ⟨h.nodup, List.nodup_singleton id, by
      intro a ha b hb e
      exact hnot (List.mem_singleton.mp hb ▸ e ▸ ha)⟩
  · intro k
    rw [hget]
    by_cases hk : k = id
    · subst hk; simp
    · simp [hk, h.mem_iff]
  · intro p k hpn hpk
    change (q.heap ++ [id])[p]? = some k at hpk
    rw [List.getElem?_append] at hpk
    split at hpk
    · have hk : k ≠ id := fun e => hnot (e ▸ List.mem_of_getElem? hpk)
      obtain ⟨v', hv⟩ := h.position p k hpk
      exact ⟨v', by simp [Function.update_of_ne hk, hv]⟩
    · rw [List.getElem?_singleton] at hpk
      split at hpk
      · omega
      · cases hpk

/-- Giving an id another value: what `push`, `change_priority` and `change_priority_by` share. -/
theorem upHeapify_write_content {q q' : PriorityQueue V} {id pos : Nat} {old v : V} (h : q.Indexed)
    (hg : q.map.get id = some (pos, old))
    (hu : upHeapify cmp { q with map := q.map.write id (pos, v) } pos = .ok q') :
    q'.Indexed ∧ q'.get = Function.update q.get id (some v) := by
  have hk : (q.get id).isSome := isSome_get.mpr (by simp [hg])
  obtain ⟨h₁, _, hset⟩ := setValue_content h hk v
  rw [setValue_eq v hg] at h₁ hset
  obtain ⟨h₂, same⟩ := upHeapify_content (h₁.but pos) hu
  exact ⟨h₂, same.trans hset⟩

theorem push_content {q q' : PriorityQueue V} {id : Nat} {v : V} {old : Option V} (h : q.Indexed)
    (hp : q.push cmp id v = .ok (q', old)) :
    q'.Indexed ∧ q'.get = Function.update q.get id (some v) := by
  unfold push at hp
  split at hp
  · rename_i pos prior hg
    simp only [bind_ok, except_pure, Except.ok.injEq, Prod.mk.injEq] at hp
    obtain ⟨q₁, hu, rfl, _⟩ := hp
    exact upHeapify_write_content h hg hu
  · rename_i hg
    simp only [bind_ok, except_pure, Except.ok.injEq, Prod.mk.injEq] at hp
    obtain ⟨⟨q₁, i₁⟩, hb, rfl, _⟩ := hp
    obtain ⟨hbut, hget⟩ := appended_content h hg v
    obtain ⟨h₁, same⟩ := bubbleUp_content hbut hb
    exact ⟨h₁, same.trans hget⟩

/-- The entry at `position` leaves; the last entry is filed in its place. -/
theorem swapRemoveAt_content {q q' : PriorityQueue V} {position id : Nat} {v : V} (h : q.Indexed)
    (hs : q.swapRemoveAt position = .ok (q', id, v)) :
    q.heap[position]? = some id ∧ q.get id = some v ∧ q'.Indexed ∧
      q'.get = Function.update q.get id none ∧ swapRemove q.heap position = some q'.heap := by
  simp only [swapRemoveAt, bind_ok, heapAt_ok, VecMap.getUnchecked_ok] at hs
  obtain ⟨last, hlast, ⟨p, w⟩, hw, hs⟩ := hs
  split at hs
  · rename_i head heap hhead hheap
    simp only [bind_ok, VecMap.getUnchecked_ok, except_pure, Except.ok.injEq, Prod.mk.injEq] at hs
    obtain ⟨⟨p', removed⟩, hr, rfl, rfl, rfl⟩ := hs
    have hlastval : q.get last = some w := get_eq_some.mpr ⟨p, hw⟩
    have hsame := get_write_position (p := position) hlastval
    have hgetv : q.get head = some removed := by
      rw [← hsame]
      exact get_eq_some.mpr ⟨p', hr⟩
    have hget : ({ map := (q.map.write last (position, w)).remove head, heap := heap }
        : PriorityQueue V).get = Function.update q.get head none := by
      rw [← hsame]
      funext k
      by_cases hk : k = head
      · subst hk; simp [get, VecMap.get_remove]
      · simp [get, VecMap.get_remove, Function.update_of_ne hk]
    refine ⟨hhead, hgetv, ⟨?_, ?_, ?_⟩, hget, hheap⟩
    · exact ((swapRemove_perm hhead hheap).nodup_iff.mpr h.nodup).of_cons
    · intro k
      have hperm := swapRemove_perm hhead hheap
      have hnd := hperm.nodup_iff.mpr h.nodup
      rw [hget]
      by_cases hk : k = head
      · subst hk
        simpa using (List.nodup_cons.mp hnd).1
      · rw [Function.update_of_ne hk, ← h.mem_iff, ← hperm.mem_iff, List.mem_cons]
        simp [hk]
    · intro k id hkid
      change ∃ v, ((q.map.write last (position, w)).remove head).get id = some (k, v)
      have hnot : id ≠ head := by
        intro e
        exact (List.nodup_cons.mp ((swapRemove_perm hhead hheap).nodup_iff.mpr h.nodup)).1
          (e ▸ List.mem_of_getElem? hkid)
      have hsome : (q.map.get last).isSome := by simp [hw]
      rw [VecMap.get_remove, Function.update_of_ne hnot, VecMap.get_write hsome]
      have hpos := swapRemove_get hheap k
      rw [hkid] at hpos
      split_ifs at hpos with h1 h2
      · rw [List.getLast?_eq_getElem?, hlast, Option.some.injEq] at hpos
        subst hpos h2
        exact ⟨w, by simp⟩
      · have hne : id ≠ last := by
          intro e
          have := index_inj h.nodup (e ▸ hpos.symm) hlast
          omega
        obtain ⟨v', hv'⟩ := h.position k id hpos.symm
        exact ⟨v', by simp [Function.update_of_ne hne, hv']⟩
  · cases hs

theorem pop_content {q q' : PriorityQueue V} {r : Option (Nat × V)} (h : q.Indexed)
    (hp : q.pop cmp = .ok (q', r)) :
    (r = none ∧ q' = q ∧ q.heap = []) ∨
      ∃ id v, r = some (id, v) ∧ q.heap[0]? = some id ∧ q.get id = some v ∧ q'.Indexed ∧
        q'.get = Function.update q.get id none := by
  unfold pop at hp
  split at hp
  · rename_i hlen
    simp only [Except.ok.injEq, Prod.mk.injEq] at hp
    obtain ⟨rfl, rfl⟩ := hp
    exact .inl ⟨rfl, rfl, List.eq_nil_of_length_eq_zero hlen⟩
  · simp only [bind_ok, except_pure, Except.ok.injEq, Prod.mk.injEq] at hp
    obtain ⟨⟨q₁, id, v⟩, hs, q₂, hh, rfl, rfl⟩ := hp
    obtain ⟨hid, hv, h₁, hget, _⟩ := swapRemoveAt_content h hs
    obtain ⟨h₂, same⟩ := heapify_content h₁ hh
    exact .inr ⟨id, v, rfl, hid, hv, h₂, same.trans hget⟩

theorem remove_of_get_none {q : PriorityQueue V} {id : Nat} (h : q.get id = none) :
    q.remove cmp id = .ok (q, none) := by
  rw [get, Option.map_eq_none_iff] at h
  rw [remove, h]

theorem remove_content {q q' : PriorityQueue V} {id : Nat} {r : Option (Nat × V)} (h : q.Indexed)
    (hr : q.remove cmp id = .ok (q', r)) :
    (r = none ∧ q' = q ∧ q.get id = none) ∨
      ∃ v, r = some (id, v) ∧ q.get id = some v ∧ q'.Indexed ∧
        q'.get = Function.update q.get id none := by
  unfold remove at hr
  split at hr
  · rename_i pos v hg
    simp only [bind_ok] at hr
    obtain ⟨⟨q₁, id₁, v₁⟩, hs, hr⟩ := hr
    obtain ⟨hpos, hv₁, h₁, hget, _⟩ := swapRemoveAt_content h hs
    have hid : id₁ = id := by
      have := h.lt_of_get hg
      rw [hpos, Option.some.injEq] at this
      exact this
    subst hid
    right
    split at hr
    · simp only [bind_ok, except_pure, Except.ok.injEq, Prod.mk.injEq] at hr
      obtain ⟨q₂, hu, rfl, rfl⟩ := hr
      obtain ⟨h₂, same⟩ := upHeapify_content (h₁.but pos) hu
      exact ⟨v₁, rfl, hv₁, h₂, same.trans hget⟩
    · simp only [except_pure, Except.ok.injEq, Prod.mk.injEq] at hr
      obtain ⟨rfl, rfl⟩ := hr
      exact ⟨v₁, rfl, hv₁, h₁, hget⟩
  · rename_i hg
    simp only [Except.ok.injEq, Prod.mk.injEq] at hr
    obtain ⟨rfl, rfl⟩ := hr
    exact .inl ⟨rfl, rfl, by simp [get, hg]⟩

theorem mapValues_start {q : PriorityQueue V} (h : q.Indexed) (f : V → V) :
    Indexed { q with map := q.map.mapValues fun entry => (entry.1, f entry.2) } ∧
    ({ q with map := q.map.mapValues fun entry => (entry.1, f entry.2) } : PriorityQueue V).get =
      fun id => (q.get id).map f := by
  have hget : ({ q with map := q.map.mapValues fun entry => (entry.1, f entry.2) }
      : PriorityQueue V).get = fun id => (q.get id).map f := by
    funext id
    simp [get, Function.comp_def]
  refine ⟨⟨h.nodup, ?_, ?_⟩, hget⟩
  · intro id
    rw [hget]
    simpa using h.mem_iff id
  · intro p id hp
    obtain ⟨v, hv⟩ := h.position p id hp
    exact ⟨f v, by simp [hv]⟩

theorem mapValues_content {q q' : PriorityQueue V} {f : V → V} (h : q.Indexed)
    (hm : q.mapValues cmp f = .ok q') : q'.Indexed ∧ q'.get = fun id => (q.get id).map f := by
  obtain ⟨h₀, hget⟩ := mapValues_start h f
  exact foldlM_invariant (I := fun _ q' => q'.Indexed ∧ q'.get = fun id => (q.get id).map f)
    (fun i _ s s' hI hs => by
      obtain ⟨h', same⟩ := upHeapify_content (hI.1.but i) hs
      exact ⟨h', same.trans hI.2⟩) ⟨h₀, hget⟩ hm

end Content
section Totals
variable {f : V → Nat}

/-- `f` summed over the values of the queue. -/
def total (f : V → Nat) (q : PriorityQueue V) : Nat :=
  (q.heap.map fun id => (q.get id).elim 0 f).sum

/-- Writing one value changes the sum by the difference it makes. -/
theorem total_update {q q' : PriorityQueue V} (h : q.Indexed) (h' : q'.Indexed) {id : Nat}
    {v v' : V} (hv : q.get id = some v) (hget : q'.get = Function.update q.get id (some v')) :
    q'.total f + f v = q.total f + f v' := by
  have hmem : id ∈ q.heap := (h.mem_iff id).mpr (by simp [hv])
  have hsame : ∀ k, k ∈ q'.heap ↔ k ∈ q.heap := by
    intro k
    rw [h'.mem_iff, h.mem_iff, hget]
    by_cases hk : k = id
    · subst hk; simp [hv]
    · rw [Function.update_of_ne hk]
  have hperm : q'.heap.Perm (id :: q.heap.erase id) :=
    ((List.perm_ext_iff_of_nodup h'.nodup h.nodup).mpr hsame).trans (List.perm_cons_erase hmem)
  have hrest : (q.heap.erase id).map (fun k => (q'.get k).elim 0 f) =
      (q.heap.erase id).map fun k => (q.get k).elim 0 f := by
    refine List.map_congr_left fun k hk => ?_
    have hne : k ≠ id := fun he => by
      subst he
      exact h.nodup.not_mem_erase hk
    rw [hget, Function.update_of_ne hne]
  rw [total, total, (hperm.map _).sum_nat, ((List.perm_cons_erase hmem).map _).sum_nat]
  have hnew : q'.get id = some v' := by rw [hget, Function.update_self]
  simp only [List.map_cons, List.sum_cons, hrest, hv, hnew, Option.elim_some]
  omega

end Totals

end GridServer.PriorityQueue
