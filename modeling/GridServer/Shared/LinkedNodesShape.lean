import GridServer.Library.LinkedRing
import GridServer.Shared.LinkedNodes

namespace GridServer.Pointers
open Library Function

variable {V : Type}

/-- The memory without the keys and the values. -/
@[ext] structure Links where
  next : Nat → Ptr
  prev : Nat → Ptr
  live : Nat → Bool

def links (heap : Heap (Node V)) : Links where
  next := heap.field Node.next
  prev := heap.field Node.prev
  live := fun a => (heap.cell a).isSome

def contents (heap : Heap (Node V)) : Nat → Option (Nat × V) := heap.field Node.entry

theorem links_congr {heap heap' : Heap (Node V)} {a : Nat} (same : heap'.cell a = heap.cell a) :
    (links heap').next a = (links heap).next a ∧ (links heap').prev a = (links heap).prev a ∧
      (links heap').live a = (links heap).live a :=
  ⟨Heap.field_congr same, Heap.field_congr same, congrArg Option.isSome same⟩

section Access
variable {heap : Heap (Node V)} {a : Nat}

theorem cell_of_live (live : (links heap).live a = true) : ∃ n, heap.cell a = some n :=
  Option.isSome_iff_exists.mp live

theorem deref_spec (live : (links heap).live a = true) :
    ∃ n, deref heap (some a) = .ok n ∧ n.next = (links heap).next a ∧
      n.prev = (links heap).prev a := by
  obtain ⟨n, hn⟩ := cell_of_live live
  refine ⟨n, by simp [deref, hn], ?_, ?_⟩
  · exact (Heap.field_eq hn).symm
  · exact (Heap.field_eq hn).symm

theorem live_modify (f : Node V → Node V) : (links (heap.modify a f)).live = (links heap).live := by
  funext b
  by_cases hb : b = a
  · subst hb
    simp [links]
  · simp [links, Heap.cell_modify_of_ne hb]

theorem assign_ok (live : (links heap).live a = true) (f : Node V → Node V) :
    assign heap (some a) f = .ok (heap.modify a f) := if_pos live

theorem setNext_spec (live : (links heap).live a = true) (q : Ptr) :
    ∃ heap', setNext heap (some a) q = .ok heap' ∧
      links heap' = { links heap with next := update (links heap).next a q } ∧
      contents heap' = contents heap := by
  obtain ⟨n, hn⟩ := cell_of_live live
  refine ⟨_, assign_ok live _, ?_, Heap.field_modify_other fun _ => rfl⟩
  ext1
  · exact Heap.field_modify hn _
  · exact Heap.field_modify_other fun _ => rfl
  · exact live_modify _

theorem setPrev_spec (live : (links heap).live a = true) (q : Ptr) :
    ∃ heap', setPrev heap (some a) q = .ok heap' ∧
      links heap' = { links heap with prev := update (links heap).prev a q } ∧
      contents heap' = contents heap := by
  obtain ⟨n, hn⟩ := cell_of_live live
  refine ⟨_, assign_ok live _, ?_, Heap.field_modify_other fun _ => rfl⟩
  ext1
  · exact Heap.field_modify_other fun _ => rfl
  · exact Heap.field_modify hn _
  · exact live_modify _

theorem setEntry_spec (live : (links heap).live a = true) (e : Option (Nat × V)) :
    ∃ heap', setEntry heap (some a) e = .ok heap' ∧ links heap' = links heap ∧
      contents heap' = update (contents heap) a e := by
  obtain ⟨n, hn⟩ := cell_of_live live
  refine ⟨_, assign_ok live _, ?_, Heap.field_modify hn _⟩
  ext1
  · exact Heap.field_modify_other fun _ => rfl
  · exact Heap.field_modify_other fun _ => rfl
  · exact live_modify _

theorem live_of_contents {e : Nat × V} (he : contents heap a = some e) :
    (links heap).live a = true := by
  obtain ⟨n, hn, _⟩ := Heap.cell_of_field he
  simp [links, hn]

theorem readEntry_ok {e : Nat × V} (he : contents heap a = some e) :
    readEntry heap (some a) = .ok e := by
  obtain ⟨n, hn, hentry⟩ := Heap.cell_of_field he
  simp [readEntry, deref, hn, hentry]

theorem replaceValue_spec {e : Nat × V} (he : contents heap a = some e) (value : V) :
    ∃ heap', replaceValue heap (some a) value = .ok (heap', e.2) ∧ links heap' = links heap ∧
      contents heap' = update (contents heap) a (some (e.1, value)) := by
  obtain ⟨heap', hset, hlinks, hcontents⟩ :=
    setEntry_spec (live_of_contents he) (some (e.1, value))
  exact ⟨heap', by simp [replaceValue, readEntry_ok he, hset], hlinks, hcontents⟩

theorem moveOut_spec {e : Nat × V} (he : contents heap a = some e) :
    ∃ heap', moveOut heap (some a) = .ok (heap', e) ∧ links heap' = links heap ∧
      contents heap' = update (contents heap) a none := by
  obtain ⟨heap', hset, hlinks, hcontents⟩ := setEntry_spec (live_of_contents he) none
  exact ⟨heap', by simp [moveOut, readEntry_ok he, hset], hlinks, hcontents⟩

def Links.without (w : Links) (a : Nat) : Links :=
  ⟨update w.next a none, update w.prev a none, update w.live a false⟩

theorem links_free (heap : Heap (Node V)) (a : Nat) :
    links (heap.free a) = (links heap).without a := by
  ext1
  · exact Heap.field_free
  · exact Heap.field_free
  · funext b
    by_cases hb : b = a
    · subst hb
      simp [links, Links.without, Heap.free]
    · simp [links, Links.without, Heap.free, hb]

theorem contents_free (heap : Heap (Node V)) (a : Nat) :
    contents (heap.free a) = update (contents heap) a none := Heap.field_free

/-- A path survives when a cell off it is freed. -/
theorem path_free {p q : Ptr} {ns : List Nat} (h : Path (links heap).next p ns q) (ha : a ∉ ns) :
    Path (links (heap.free a)).next p ns q := by
  rw [links_free]
  exact h.update ha

theorem live_free {b : Nat} (hb : b ≠ a) : (links (heap.free a)).live b = (links heap).live b := by
  rw [links_free]
  exact update_of_ne hb ..

theorem dropEmptyNode_ok (live : (links heap).live a = true) :
    dropEmptyNode heap (some a) = .ok (heap.free a) := by
  obtain ⟨n, hn⟩ := cell_of_live live
  simp [dropEmptyNode, deref, hn]

theorem fromRaw_ok {e : Nat × V} (he : contents heap a = some e) :
    fromRaw heap (some a) = .ok (heap.free a, e) := by
  simp [fromRaw, readEntry_ok he, dropEmptyNode_ok (live_of_contents he)]

/-- A new cell is one that was not live. -/
theorem alloc_spec (heap : Heap (Node V)) (n : Node V) :
    (links heap).live heap.top = false ∧
      links (heap.alloc n).1 =
        ⟨update (links heap).next heap.top n.next, update (links heap).prev heap.top n.prev,
          update (links heap).live heap.top true⟩ ∧
      contents (heap.alloc n).1 = update (contents heap) heap.top n.entry := by
  refine ⟨by simp [links, heap.fresh heap.top], ?_, Heap.field_alloc n⟩
  ext1
  · exact Heap.field_alloc n
  · exact Heap.field_alloc n
  · funext b
    by_cases hb : b = heap.top
    · subst hb
      simp [links, Heap.cell_alloc]
    · simp [links, Heap.cell_alloc, hb]

end Access

/-- The nodes in their places: the ring from the oldest to the newest behind the guard `g`, and
the free list, which share no node. -/
structure Shape (w : Links) (g : Nat) (free : Ptr) (nodes frees : List Nat) : Prop where
  ring : Ring w.prev w.next g nodes
  chain : Path w.next free frees none
  live : ∀ a ∈ g :: (nodes ++ frees), w.live a = true
  nodup : (g :: (nodes ++ frees)).Nodup

theorem not_mem_nodes {g x : Nat} {nodes frees : List Nat} (hx : x ∉ g :: (nodes ++ frees)) :
    x ∉ nodes := fun hmem => hx (List.mem_cons_of_mem _ (List.mem_append_left _ hmem))

namespace Shape
variable {w : Links} {g x : Nat} {free : Ptr} {nodes frees as bs : List Nat}

theorem not_mem_frees (h : Shape w g free nodes frees) {a : Nat} (ha : a ∈ g :: nodes) :
    a ∉ frees := by
  have hnodup := h.nodup
  rw [← List.cons_append, List.nodup_append] at hnodup
  exact fun hf => hnodup.2.2 a ha a hf rfl

/-- A node stands in one place. -/
theorem not_mem_others (h : Shape w g free (as ++ x :: bs) frees) :
    x ∉ g :: (as ++ bs ++ frees) := by
  have hnodup : ((g :: as) ++ x :: (bs ++ frees)).Nodup := by simpa using h.nodup
  simpa using (List.nodup_middle.mp hnodup).notMem

/-- Cells outside the ring and the free list do not matter. -/
theorem congr {w' : Links} (h : Shape w g free nodes frees)
    (hnext : ∀ a ∈ g :: (nodes ++ frees), w'.next a = w.next a)
    (hprev : ∀ a ∈ g :: (nodes ++ frees), w'.prev a = w.prev a)
    (hlive : ∀ a ∈ g :: (nodes ++ frees), w'.live a = w.live a) : Shape w' g free nodes frees := by
  have hring : ∀ a ∈ g :: nodes, a ∈ g :: (nodes ++ frees) := fun a ha =>
    (List.mem_append_left frees ha : a ∈ (g :: nodes) ++ frees)
  refine ⟨h.ring.congr (fun a ha => hprev a (hring a ha)) fun a ha => hnext a (hring a ha),
    h.chain.congr fun a ha => hnext a ?_, fun a ha => (hlive a ha).trans (h.live a ha), h.nodup⟩
  exact List.mem_cons_of_mem _ (List.mem_append_right _ ha)

theorem without (h : Shape w g free nodes frees) (hx : x ∉ g :: (nodes ++ frees)) :
    Shape (w.without x) g free nodes frees :=
  h.congr (fun _ ha => update_of_ne (ne_of_mem_of_not_mem ha hx) _ _)
    (fun _ ha => update_of_ne (ne_of_mem_of_not_mem ha hx) _ _)
    (fun _ ha => update_of_ne (ne_of_mem_of_not_mem ha hx) _ _)

theorem unlink (h : Shape w g free (as ++ x :: bs) frees) {p n : Nat} (hp : w.prev x = some p)
    (hn : w.next x = some n) :
    Shape ⟨update w.next p (some n), update w.prev n (some p), w.live⟩ g free (as ++ bs) frees := by
  have hsub : (g :: (as ++ bs ++ frees)).Sublist (g :: (as ++ x :: bs ++ frees)) := by simp
  refine ⟨h.ring.unlink hn hp, h.chain.update (h.not_mem_frees ?_),
    fun a ha => h.live a (hsub.subset ha), h.nodup.sublist hsub⟩
  obtain ⟨b, hb, he⟩ := h.ring.next_mem (a := x) (by simp)
  exact Option.some.inj (hp.symm.trans he) ▸ hb

theorem link (h : Shape w g free nodes frees) (hx : x ∉ g :: (nodes ++ frees))
    (hlive : w.live x = true) {n : Nat} (hn : w.next g = some n) :
    Shape ⟨update (update w.next x (some n)) g (some x),
      update (update w.prev x (some g)) n (some x), w.live⟩ g free (nodes ++ [x]) frees := by
  simp only [List.mem_cons, List.mem_append, not_or] at hx
  obtain ⟨hxg, hxnodes, hxfrees⟩ := hx
  refine ⟨?_, ?_, ?_, ?_⟩
  · have hlink := h.ring.symm.link (x := x) (by simp [hxg, hxnodes]) hn
    have hsymm := hlink.symm
    rw [List.reverse_cons, List.reverse_reverse] at hsymm
    exact hsymm
  · exact (h.chain.update hxfrees).update (h.not_mem_frees List.mem_cons_self)
  · intro a ha
    simp only [List.append_assoc, List.singleton_append, List.mem_cons, List.mem_append] at ha
    rcases ha with rfl | ha | rfl | ha
    · exact h.live a List.mem_cons_self
    · exact h.live a (by simp [ha])
    · exact hlive
    · exact h.live a (by simp [ha])
  · have hperm : (x :: (g :: (nodes ++ frees))).Perm (g :: (nodes ++ [x] ++ frees)) := by
      refine (List.Perm.swap g x _).trans (List.Perm.cons g ?_)
      rw [List.append_assoc, List.singleton_append]
      exact List.perm_middle.symm
    rw [← hperm.nodup_iff, List.nodup_cons]
    exact ⟨by simp [hxg, hxnodes, hxfrees], h.nodup⟩

/-- A node that is in neither list goes to the front of the free list. -/
theorem recycle (h : Shape w g free nodes frees) (hx : x ∉ g :: (nodes ++ frees))
    (hlive : w.live x = true) :
    Shape { w with next := update w.next x free } g (some x) nodes (x :: frees) := by
  have hkept : Shape { w with next := update w.next x free } g free nodes frees :=
    h.congr (fun _ ha => update_of_ne (ne_of_mem_of_not_mem ha hx) _ _) (fun _ _ => rfl)
      (fun _ _ => rfl)
  have hperm : (x :: (g :: (nodes ++ frees))).Perm (g :: (nodes ++ x :: frees)) :=
    (List.Perm.swap g x _).trans (List.Perm.cons g List.perm_middle.symm)
  refine ⟨hkept.ring, ⟨rfl, ?_⟩, ?_, hperm.nodup_iff.mp (List.nodup_cons.mpr ⟨hx, h.nodup⟩)⟩
  · change Path (update w.next x free) (update w.next x free x) frees none
    rw [update_self]
    exact hkept.chain
  · intro a ha
    rcases List.mem_cons.mp (hperm.mem_iff.mpr ha) with rfl | ha
    · exact hlive
    · exact h.live a ha

/-- The first node of the free list can be taken off it. -/
theorem reuse (h : Shape w g (some x) nodes frees) :
    ∃ rest, x ∉ g :: (nodes ++ rest) ∧ w.live x = true ∧ Shape w g (w.next x) nodes rest := by
  obtain ⟨ring, chain, live, nodup⟩ := h
  cases frees with
  | nil => cases chain
  | cons y rest =>
    obtain ⟨hy, chain⟩ := chain
    obtain rfl := Option.some.inj hy
    have hperm : (x :: (g :: (nodes ++ rest))).Perm (g :: (nodes ++ x :: rest)) :=
      (List.Perm.swap g x _).trans (List.Perm.cons g List.perm_middle.symm)
    obtain ⟨hx, hrest⟩ := List.nodup_cons.mp (hperm.nodup_iff.mpr nodup)
    exact ⟨rest, hx, live x (by simp), ring, chain,
      fun a ha => live a (hperm.mem_iff.mp (List.mem_cons_of_mem _ ha)), hrest⟩

/-- All nodes of the ring go to the front of the free list, the newest first. They can still be
walked from both ends. -/
theorem splice (h : Shape w g free nodes frees) {o n : Nat} (hnodes : nodes ≠ [])
    (ho : w.prev g = some o) (hn : w.next g = some n) {next' prev' : Nat → Ptr}
    (hnext' : next' = update (update w.next g (some g)) o free)
    (hprev' : prev' = update (update w.prev g (some g)) n none) :
    Shape ⟨next', prev', w.live⟩ g (some n) [] (nodes.reverse ++ frees) ∧
      Path prev' (some o) nodes none ∧ Path next' (some n) nodes.reverse free := by
  obtain ⟨hg, hnodup⟩ := List.nodup_cons.mp h.ring.nodup
  have hforth : Path w.prev (some o) nodes (some g) := ho ▸ h.ring.forth.2
  have hback : Path w.next (some n) nodes.reverse (some g) := hn ▸ h.ring.back.2
  obtain ⟨newer, rfl⟩ : ∃ newer, nodes = o :: newer := by
    cases nodes with
    | nil => exact absurd rfl hnodes
    | cons a newer => exact ⟨newer, by rw [Option.some.inj hforth.1]⟩
  obtain ⟨older, holder⟩ : ∃ older, o :: newer = older ++ [n] := by
    rcases List.eq_nil_or_concat' (o :: newer) with hnil | ⟨older, a, he⟩
    · cases hnil
    · rw [he, List.reverse_append] at hback
      exact ⟨older, by rw [he, Option.some.inj hback.1]⟩
  have hgo : g ≠ o := List.ne_of_not_mem_cons hg
  have hgn : g ≠ n := fun he => hg (by simp [holder, he])
  have hprev : Path prev' (some o) (o :: newer) none := by
    rw [hprev', holder]
    rw [holder] at hforth hg hnodup
    have hn : n ∉ older := List.disjoint_singleton.mp (List.disjoint_of_nodup_append hnodup)
    exact (hforth.update hg).redirect hn none
  have hnext : Path next' (some n) (o :: newer).reverse free := by
    rw [hnext', List.reverse_cons]
    rw [List.reverse_cons] at hback
    refine (hback.update ?_).redirect ?_ free
    · simpa [or_comm] using hg
    · simpa using (List.nodup_cons.mp hnodup).1
  have hfrees : Path next' free frees none := by
    rw [hnext']
    exact (h.chain.update (h.not_mem_frees List.mem_cons_self)).update
      (h.not_mem_frees (List.mem_cons_of_mem _ List.mem_cons_self))
  have hperm : (g :: (o :: newer ++ frees)).Perm (g :: ([] ++ ((o :: newer).reverse ++ frees))) :=
    .cons g ((List.reverse_perm _).symm.append_right frees)
  have hguard : prev' g = some g ∧ next' g = some g := by
    rw [hprev', hnext', update_of_ne hgn, update_self, update_of_ne hgo, update_self]
    exact ⟨rfl, rfl⟩
  exact ⟨⟨Ring.alone hguard.1 hguard.2, path_append.mpr ⟨free, hnext, hfrees⟩,
    fun a ha => h.live a (hperm.mem_iff.mpr ha), hperm.nodup_iff.mp h.nodup⟩, hprev, hnext⟩

end Shape
end GridServer.Pointers
