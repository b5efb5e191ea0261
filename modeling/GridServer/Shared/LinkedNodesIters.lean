import GridServer.Shared.LinkedNodesWalks

namespace GridServer.Pointers
open Library Function

variable {V : Type} {checks : Bool} {m : LinkedVecMap V} {l : GridServer.LinkedVecMap V}
  {heap : Heap (Node V)} {g : Nat}

/-- The entries `es` stand in nodes that are linked from `first` to `last`, and back again. -/
def Strung (heap : Heap (Node V)) (first last : Ptr) (stop : Ptr) (es : List (Nat × V)) : Prop :=
  ∃ (ps : List (Nat × Nat × V)) (q : Ptr), ps.map Prod.snd = es ∧
    (∀ p ∈ ps, contents heap p.1 = some p.2) ∧ (ps.map Prod.fst).Nodup ∧ (∀ p ∈ ps, some p.1 ≠ stop) ∧
    Path (links heap).prev first (ps.map Prod.fst) stop ∧
    Path (links heap).next last (ps.map Prod.fst).reverse q

namespace Strung
variable {first last stop : Ptr} {e : Nat × V} {es : List (Nat × V)}

theorem oldest (h : Strung heap first last stop (e :: es)) :
    ∃ a, first = some a ∧ some a ≠ stop ∧ contents heap a = some e := by
  obtain ⟨ps, q, hes, hentry, _, hstop, hforth, _⟩ := h
  cases ps with
  | nil => cases hes
  | cons p ps =>
    obtain ⟨rfl, _⟩ := List.cons.inj hes
    exact ⟨p.1, hforth.1, hstop p List.mem_cons_self, hentry p List.mem_cons_self⟩

theorem newest (h : Strung heap first last stop (es ++ [e])) :
    ∃ a, last = some a ∧ contents heap a = some e := by
  obtain ⟨ps, q, hes, hentry, _, _, _, hback⟩ := h
  rcases List.eq_nil_or_concat' ps with rfl | ⟨init, p, rfl⟩
  · simp at hes
  · rw [List.map_append] at hes
    obtain ⟨_, he⟩ := List.append_inj' hes rfl
    cases he
    rw [List.map_append, List.reverse_append] at hback
    exact ⟨p.1, hback.1, hentry p (by simp)⟩

/-- The rest of the string, in a memory where the first node may have changed. -/
theorem dropOldest (h : Strung heap first last stop (e :: es)) {a : Nat} (ha : first = some a)
    {heap' : Heap (Node V)} (same : ∀ b ≠ a, heap'.cell b = heap.cell b) :
    Strung heap' ((links heap).prev a) last stop es := by
  obtain ⟨ps, q, hes, hentry, hnodup, hstop, hforth, hback⟩ := h
  cases ps with
  | nil => cases hes
  | cons p ps =>
    obtain ⟨rfl, rfl⟩ := List.cons.inj hes
    obtain rfl : p.1 = a := Option.some.inj (hforth.1.symm.trans ha)
    obtain ⟨hp, hnodup⟩ := List.nodup_cons.mp hnodup
    have hcell : ∀ b ∈ ps.map Prod.fst, heap'.cell b = heap.cell b :=
      fun b hb => same b (ne_of_mem_of_not_mem hb hp)
    rw [List.map_cons, List.reverse_cons] at hback
    refine ⟨ps, some p.1, rfl, ?_, hnodup, fun x hx => hstop x (List.mem_cons_of_mem _ hx), ?_, ?_⟩
    · intro x hx
      exact (Heap.field_congr (hcell x.1 (List.mem_map_of_mem hx))).trans
        (hentry x (List.mem_cons_of_mem _ hx))
    · exact hforth.2.congr fun b hb => (links_congr (hcell b hb)).2.1
    · exact hback.before.congr fun b hb => (links_congr (hcell b (List.mem_reverse.mp hb))).1

/-- All but the last, in a memory where the last node may have changed. -/
theorem dropNewest (h : Strung heap first last stop (es ++ [e])) {a : Nat} (ha : last = some a)
    {heap' : Heap (Node V)} (same : ∀ b ≠ a, heap'.cell b = heap.cell b) :
    Strung heap' first ((links heap).next a) (some a) es := by
  obtain ⟨ps, q, hes, hentry, hnodup, hstop, hforth, hback⟩ := h
  rcases List.eq_nil_or_concat' ps with rfl | ⟨init, p, rfl⟩
  · simp at hes
  · rw [List.map_append] at hes hforth hback hnodup
    obtain ⟨rfl, _⟩ := List.append_inj' hes rfl
    rw [List.reverse_append] at hback
    obtain rfl : p.1 = a := Option.some.inj (hback.1.symm.trans ha)
    have hp : p.1 ∉ init.map Prod.fst :=
      List.disjoint_singleton.mp (List.disjoint_of_nodup_append hnodup)
    have hcell : ∀ b ∈ init.map Prod.fst, heap'.cell b = heap.cell b :=
      fun b hb => same b (ne_of_mem_of_not_mem hb hp)
    refine ⟨init, q, rfl, ?_, (List.nodup_append.mp hnodup).1, ?_, ?_, ?_⟩
    · intro x hx
      exact (Heap.field_congr (hcell x.1 (List.mem_map_of_mem hx))).trans
        (hentry x (List.mem_append_left _ hx))
    · exact fun x hx he => hp (Option.some.inj he ▸ List.mem_map_of_mem hx)
    · exact hforth.before.congr fun b hb => (links_congr (hcell b hb)).2.1
    · exact hback.2.congr fun b hb => (links_congr (hcell b (List.mem_reverse.mp hb))).1

theorem empty (heap : Heap (Node V)) (first last : Ptr) : Strung heap first last first [] :=
  ⟨[], last, rfl, by simp, .nil, by simp, rfl, rfl⟩

end Strung

/-- The items that a `Drain` or an `IntoIter` still has. -/
def Drain.Has (heap : Heap (Node V)) (d : Drain) (es : List (Nat × V)) : Prop :=
  d.remaining = es.length ∧ ∃ stop, Strung heap d.head d.tail stop es

/-- However the iterator gets at an item, as long as it leaves the other nodes alone, it takes the
item at the end that it is asked for. -/
theorem Drain.stepBy_spec {read : Heap (Node V) → Ptr → Except Fault (Heap (Node V) × (Nat × V))}
    {I : Heap (Node V) → Prop}
    (reads : ∀ heap a e, I heap → contents heap a = some e →
      ∃ heap', read heap (some a) = .ok (heap', e) ∧ I heap' ∧ ∀ b ≠ a, heap'.cell b = heap.cell b)
    (e : End) {heap : Heap (Node V)} {d : Drain} {es : List (Nat × V)} (hI : I heap)
    (h : Drain.Has heap d es) :
    ∃ heap' d', Drain.stepBy read e (heap, d) = .ok ((heap', d'), (e.take es).1) ∧
      I heap' ∧ Drain.Has heap' d' (e.take es).2 := by
  obtain ⟨hremaining, stop, hstrung⟩ := h
  rcases List.eq_nil_or_concat' es with rfl | ⟨before, last, hconcat⟩
  · have hzero : d.remaining = 0 := hremaining
    refine ⟨heap, d, ?_, hI, ?_⟩
    · cases e with
      | front => simp only [stepBy, hzero, if_true, End.take, List.head?_nil]
      | back => simp only [stepBy, hzero, if_true, End.take, List.getLast?_nil]
    · cases e with
      | front => exact ⟨hremaining, stop, hstrung⟩
      | back => exact ⟨hremaining, stop, hstrung⟩
  · have hne : d.remaining ≠ 0 := by
      rw [hremaining, hconcat, List.length_append]
      exact Nat.succ_ne_zero _
    cases e with
    | front =>
      cases es with
      | nil => simp at hconcat
      | cons first rest =>
        obtain ⟨a, ha, _, hentry⟩ := hstrung.oldest
        obtain ⟨node, hderef, _, hprev⟩ := deref_spec (live_of_contents hentry)
        obtain ⟨heap', hread, hI', hsame⟩ := reads heap a first hI hentry
        refine ⟨heap', { d with head := node.prev, remaining := d.remaining - 1 }, ?_, hI', ?_,
          stop, hprev ▸ hstrung.dropOldest ha hsame⟩
        · simp only [stepBy, if_neg hne, ha, hderef, ok_bind, hread, except_pure, End.take,
            List.head?_cons]
        · rw [hremaining]
          rfl
    | back =>
      subst hconcat
      obtain ⟨a, ha, hentry⟩ := hstrung.newest
      obtain ⟨node, hderef, hnext, _⟩ := deref_spec (live_of_contents hentry)
      obtain ⟨heap', hread, hI', hsame⟩ := reads heap a last hI hentry
      refine ⟨heap', { d with tail := node.next, remaining := d.remaining - 1 }, ?_, hI', ?_,
        some a, ?_⟩
      · simp only [stepBy, if_neg hne, ha, hderef, ok_bind, hread, except_pure, End.take,
          List.getLast?_concat]
      · simp only [hremaining, End.take, List.dropLast_concat, List.length_append,
          List.length_singleton, Nat.add_sub_cancel]
      · rw [End.take, List.dropLast_concat]
        exact hnext ▸ hstrung.dropNewest ha hsame

/-- The items that an iterator of `iter` still has. -/
def Iter.Has (heap : Heap (Node V)) (it : Iter) (es : List (Nat × V)) : Prop :=
  it.remaining = es.length ∧ Strung heap it.head (it.tail.bind (links heap).next) it.tail es

theorem Iter.step_spec (checks : Bool) (e : End) (it : Iter) (es : List (Nat × V))
    (h : Iter.Has heap it es) :
    ∃ it', Iter.step checks heap e it = .ok (it', (e.take es).1) ∧
      Iter.Has heap it' (e.take es).2 := by
  obtain ⟨hremaining, hstrung⟩ := h
  cases es with
  | nil =>
    have hends : it.head = it.tail := by
      obtain ⟨ps, q, hes, _, _, _, hforth, _⟩ := hstrung
      obtain rfl := List.map_eq_nil_iff.mp hes
      exact hforth
    refine ⟨it, ?_, ?_⟩
    · cases e with
      | front => simp only [step, hends, if_true, End.take, List.head?_nil]
      | back => simp only [step, hends, if_true, End.take, List.getLast?_nil]
    · cases e with
      | front => exact ⟨hremaining, hstrung⟩
      | back => exact ⟨hremaining, hstrung⟩
  | cons first rest =>
    obtain ⟨a, ha, hstop, hentry⟩ := hstrung.oldest
    have hsub : usizeSub checks it.remaining 1 = .ok (it.remaining - 1) :=
      subBits_of_le (by rw [hremaining, List.length_cons]; omega) checks
    cases e with
    | front =>
      obtain ⟨node, hderef, _, hprev⟩ := deref_spec (live_of_contents hentry)
      refine ⟨{ it with head := node.prev, remaining := it.remaining - 1 }, ?_, ?_,
        hprev ▸ hstrung.dropOldest ha fun _ _ => rfl⟩
      · simp only [step, ha, if_neg hstop, hsub, ok_bind, readEntry_ok hentry, hderef, except_pure,
          End.take, List.head?_cons]
      · rw [hremaining]
        rfl
    | back =>
      obtain ⟨before, last, hlast⟩ : ∃ before last, first :: rest = before ++ [last] :=
        (List.eq_nil_or_concat' (first :: rest)).resolve_left (List.cons_ne_nil _ _)
      rw [hlast] at hstrung hremaining ⊢
      obtain ⟨b, hb, hentry⟩ := hstrung.newest
      obtain ⟨t, ht, hnext⟩ := Option.bind_eq_some_iff.mp hb
      obtain ⟨n, hn, _⟩ := Heap.cell_of_field hnext
      have hlive : (links heap).live t = true := by simp [links, hn]
      obtain ⟨node, hderef, hnode, _⟩ := deref_spec hlive
      rw [hnext] at hnode
      rw [ht] at hstop
      refine ⟨{ it with tail := node.next, remaining := it.remaining - 1 }, ?_, ?_, ?_⟩
      · simp only [step, ha, ht, if_neg hstop, hsub, ok_bind, hderef, hnode, readEntry_ok hentry,
          except_pure, End.take, List.getLast?_concat]
      · simp only [hremaining, End.take, List.dropLast_concat, List.length_append,
          List.length_singleton, Nat.add_sub_cancel]
      · rw [End.take, List.dropLast_concat, hnode]
        exact hstrung.dropNewest hb fun _ _ => rfl

/-- The ring as a string. -/
theorem Linked.strung {ps : List (Nat × Nat × V)} {frees : List Nat} (h : Linked m g ps frees l)
    {heap' : Heap (Node V)} (same : ∀ a ∈ ps.map Prod.fst, heap'.cell a = m.heap.cell a) :
    Strung heap' ((links m.heap).prev g) ((links m.heap).next g) (some g) l.entries := by
  refine ⟨ps, some g, h.entries, ?_, h.nodup, ?_, ?_, ?_⟩
  · intro p hp
    exact (Heap.field_congr (same p.1 (List.mem_map_of_mem hp))).trans (h.filed.entry p hp)
  · intro p hp he
    exact (List.nodup_cons.mp h.shape.ring.nodup).1 (Option.some.inj he ▸ List.mem_map_of_mem hp)
  · exact h.shape.ring.forth.2.congr fun a ha => (links_congr (same a ha)).2.1
  · exact h.shape.ring.back.2.congr fun a ha => (links_congr (same a (List.mem_reverse.mp ha))).1

theorem iterWith_spec (h : Models m l) (ends : List End) :
    m.iterWith checks ends = .ok (takes ends l.entries).1 := by
  obtain ⟨it, hiter, hhas⟩ : ∃ it, m.iter = .ok it ∧ Iter.Has m.heap it l.entries := by
    have hcount := h.count
    rcases h with ⟨hblank, hempty⟩ | ⟨g, ps, frees, h⟩
    · refine ⟨⟨none, m.head, m.len⟩, by rw [LinkedVecMap.iter, if_pos hblank.head]; rfl, hcount, ?_⟩
      rw [hempty, hblank.head]
      exact .empty ..
    · obtain ⟨guard, hderef, _, hprev⟩ := deref_spec (h.shape.live g List.mem_cons_self)
      refine ⟨⟨guard.prev, m.head, m.len⟩, ?_, hcount, ?_⟩
      · rw [LinkedVecMap.iter, if_neg (by rw [h.head]; simp), h.head]
        simp only [hderef, ok_bind, except_pure]
      · rw [h.head, hprev]
        exact h.strung fun _ _ => rfl
  obtain ⟨it', hdrive, _⟩ := drive_takes (Iter.step_spec checks) ends hhas
  simp only [LinkedVecMap.iterWith, hiter, ok_bind, hdrive, except_pure]

theorem intoIter_spec (h : Models m l) :
    ∃ heap d, m.intoIter = .ok (heap, d) ∧ Drain.Has heap d l.entries := by
  have hcount := h.count
  rcases h with ⟨hblank, hempty⟩ | ⟨g, ps, frees, h⟩
  · refine ⟨m.heap, ⟨none, none, m.len⟩, ?_, hcount, none, ?_⟩
    · simp [LinkedVecMap.intoIter, hblank.head, LinkedVecMap.clearFreeList, hblank.free, dropFree]
    · rw [hempty]
      exact .empty ..
  · have hglive := h.shape.live g List.mem_cons_self
    obtain ⟨guard, hderef, hnext, hprev⟩ := deref_spec hglive
    obtain ⟨hg, hnodup⟩ := List.nodup_cons.mp h.shape.nodup
    have hfrees : ∀ a ∈ frees, (links m.heap).live a = true := fun a ha =>
      h.shape.live a (List.mem_cons_of_mem _ (List.mem_append_right _ ha))
    have hgfrees : g ∉ frees := fun hmem => hg (List.mem_append_right _ hmem)
    have hlive : ∀ a ∈ frees, (links (m.heap.free g)).live a = true := fun a ha =>
      (live_free (ne_of_mem_of_not_mem ha hgfrees)).trans (hfrees a ha)
    have hnodup' := (List.nodup_append.mp hnodup).2.1
    obtain ⟨heap', hdrop, hsame⟩ := dropFree_spec (path_free h.shape.chain hgfrees) hlive hnodup'
      (Nat.lt_succ_of_le (Heap.length_le_top hnodup' hfrees))
    refine ⟨heap', ⟨guard.prev, guard.next, m.len⟩, ?_, hcount, some g, ?_⟩
    · simp only [LinkedVecMap.intoIter, h.head, reduceCtorEq, if_false, hderef, ok_bind,
        except_pure, dropEmptyNode_ok hglive, LinkedVecMap.clearFreeList]
      rw [show dropFree ((m.heap.free g).top + 1) (m.heap.free g) m.free = .ok heap' from hdrop]
      rfl
    · rw [hprev, hnext]
      refine h.strung fun a ha => ?_
      rw [hsame a fun hmem => h.shape.not_mem_frees (List.mem_cons_of_mem _ ha) hmem]
      exact Heap.cell_free_of_ne (ne_of_mem_of_not_mem (List.mem_append_left _ ha) hg)

theorem intoIterWith_spec (h : Models m l) (ends : List End) :
    m.intoIterWith ends = .ok (takes ends l.entries).1 := by
  obtain ⟨heap, d, hinto, hhas⟩ := intoIter_spec h
  have hstep : ∀ e (s : Heap (Node V) × Drain) es, Drain.Has s.1 s.2 es → ∃ s',
      IntoIter.step e s = .ok (s', (e.take es).1) ∧ Drain.Has s'.1 s'.2 (e.take es).2 := by
    intro e s es hs
    obtain ⟨heap', d', hok, _, hs'⟩ := Drain.stepBy_spec (I := fun _ => True)
      (fun heap a e _ he => ⟨_, fromRaw_ok he, trivial, fun b hb => Heap.cell_free_of_ne hb⟩)
      e trivial hs
    exact ⟨(heap', d'), hok, hs'⟩
  have hstart : Drain.Has (heap, d).1 (heap, d).2 l.entries := hhas
  obtain ⟨s', hdrive, _⟩ := drive_takes hstep ends hstart
  simp only [LinkedVecMap.intoIterWith, hinto, ok_bind, hdrive, except_pure]

/-- Reading an item out leaves the links alone, and the other nodes. -/
theorem moveOut_reads (w : Links) (heap : Heap (Node V)) (a : Nat) (e : Nat × V)
    (hw : links heap = w) (he : contents heap a = some e) :
    ∃ heap', moveOut heap (some a) = .ok (heap', e) ∧ links heap' = w ∧
      ∀ b ≠ a, heap'.cell b = heap.cell b := by
  obtain ⟨heap', hmove, hlinks, _⟩ := moveOut_spec he
  refine ⟨heap', hmove, hlinks.trans hw, fun b hb => ?_⟩
  simp only [moveOut, readEntry_ok he, ok_bind, setEntry, assign_ok (live_of_contents he),
    except_pure, Except.ok.injEq, Prod.mk.injEq, and_true] at hmove
  rw [← hmove]
  exact Heap.cell_modify_of_ne hb _

theorem Drain.step_spec (w : Links) (e : End) (s : Heap (Node V) × Drain) (es : List (Nat × V))
    (h : links s.1 = w ∧ Drain.Has s.1 s.2 es) :
    ∃ s', Drain.step e s = .ok (s', (e.take es).1) ∧ links s'.1 = w ∧
      Drain.Has s'.1 s'.2 (e.take es).2 := by
  obtain ⟨heap', d', hok, hlinks, hs'⟩ := Drain.stepBy_spec (moveOut_reads w) e h.1 h.2
  exact ⟨(heap', d'), hok, hlinks, hs'⟩

/-- A `Drain` that is dropped takes the items that it still has. -/
theorem Drain.drop_spec (w : Links) {heap : Heap (Node V)} {d : Drain} {es : List (Nat × V)}
    {fuel : Nat} (hw : links heap = w) (h : Drain.Has heap d es) (hfuel : es.length < fuel) :
    ∃ heap', Drain.drop fuel heap d = .ok heap' ∧ links heap' = w := by
  induction es generalizing heap d fuel with
  | nil =>
    obtain ⟨fuel, rfl⟩ := Nat.exists_eq_add_one_of_ne_zero (Nat.ne_of_gt hfuel)
    obtain ⟨⟨heap', d'⟩, hstep, hlinks, _⟩ := Drain.step_spec w .front (heap, d) [] ⟨hw, h⟩
    refine ⟨heap', ?_, hlinks⟩
    simp only [drop, hstep, ok_bind, End.take, List.head?_nil, except_pure]
  | cons e es ih =>
    obtain ⟨fuel, rfl⟩ := Nat.exists_eq_add_one_of_ne_zero (Nat.ne_of_gt (Nat.zero_lt_of_lt hfuel))
    obtain ⟨⟨heap₁, d₁⟩, hstep, hlinks, hhas⟩ :=
      Drain.step_spec w .front (heap, d) (e :: es) ⟨hw, h⟩
    obtain ⟨heap', hdrop, hlinks'⟩ := ih hlinks hhas (Nat.lt_of_succ_lt_succ hfuel)
    refine ⟨heap', ?_, hlinks'⟩
    simp only [drop, hstep, ok_bind, End.take, List.head?_cons, hdrop]

/-- `drain` empties the map, and the items stay in nodes of the free list. -/
theorem drain_spec (checks : Bool) (h : Models m l) :
    ∃ m' d, m.drain checks = .ok (m', d) ∧ Drain.Has m'.heap d l.entries ∧
      ∀ heap : Heap (Node V), links heap = links m'.heap →
        Models ({ m' with heap } : LinkedVecMap V) .new := by
  have hcount := h.count
  cases hn : m.isEmpty with
  | true =>
    have hlen : m.len = 0 := by simpa [LinkedVecMap.isEmpty] using hn
    have hempty := h.empty hn
    refine ⟨{ m with map := m.map.clear }, ⟨none, none, m.len⟩, ?_, ⟨hcount, none, ?_⟩, ?_⟩
    · simp only [LinkedVecMap.drain, hlen, ne_eq, not_true_eq_false, if_false, except_pure]
    · rw [hempty]
      exact .empty ..
    · intro heap hheap
      rcases h with ⟨hblank, _⟩ | ⟨g, ps, frees, h⟩
      · exact .inl ⟨⟨hblank.head, hblank.free, VecMap.get_clear m.map, rfl⟩, rfl⟩
      · have hps : ps = [] := List.length_eq_zero_iff.mp (h.filed.count.symm.trans hlen)
        subst hps
        exact .inr ⟨g, [], frees, h.head, hheap ▸ h.shape, .none (VecMap.get_clear m.map) rfl, rfl⟩
  | false =>
    obtain ⟨g, ps, frees, hps, h⟩ := h.nonempty hn
    have hlen : m.len ≠ 0 := by simpa [LinkedVecMap.isEmpty] using hn
    obtain ⟨guard, hderef, hprev, hnext, holdest, hnewest⟩ := h.ends hps
    have hnodes : ∀ a ∈ g :: ps.map Prod.fst, (links m.heap).live a = true := fun a ha =>
      h.shape.live a (List.mem_append_left frees ha)
    have ho := hnodes (ps.head hps).1
      (List.mem_cons_of_mem _ (List.mem_map_of_mem (List.head_mem hps)))
    have hl := hnodes (ps.getLast hps).1
      (List.mem_cons_of_mem _ (List.mem_map_of_mem (List.getLast_mem hps)))
    have hgo : (some (ps.head hps).1 : Ptr) ≠ some g := fun he =>
      (List.nodup_cons.mp h.shape.ring.nodup).1
        (Option.some.inj he ▸ List.mem_map_of_mem (List.head_mem hps))
    obtain ⟨heap₁, hset₁, hlinks₁, hcontents₁⟩ :=
      setPrev_spec (hnodes g List.mem_cons_self) (some g)
    have hlive₁ : (links heap₁).live = (links m.heap).live := by rw [hlinks₁]
    obtain ⟨heap₂, hset₂, hlinks₂, hcontents₂⟩ :=
      setNext_spec ((congrFun hlive₁ g).trans (hnodes g List.mem_cons_self)) (some g)
    rw [hlinks₁] at hlinks₂
    have hlive₂ : (links heap₂).live = (links m.heap).live := by rw [hlinks₂]
    obtain ⟨heap₃, hset₃, hlinks₃, hcontents₃⟩ := setNext_spec ((congrFun hlive₂ _).trans ho) m.free
    rw [hlinks₂] at hlinks₃
    have hlive₃ : (links heap₃).live = (links m.heap).live := by rw [hlinks₃]
    obtain ⟨heap₄, hset₄, hlinks₄, hcontents₄⟩ := setPrev_spec ((congrFun hlive₃ _).trans hl) none
    rw [hlinks₃] at hlinks₄
    obtain ⟨hshape, hforth, hback⟩ := h.shape.splice (by simpa using hps) holdest hnewest rfl rfl
    refine ⟨{ m with map := m.map.clear, heap := heap₄, free := some (ps.getLast hps).1 },
      ⟨some (ps.head hps).1, some (ps.getLast hps).1, m.len⟩, ?_, ⟨hcount, none, ?_⟩, ?_⟩
    · have hassert : ∀ p [Decidable p], p → LinkedVecMap.debugAssert checks p = .ok () := by
        intro p _ hp
        exact if_neg fun hn => hn.2 hp
      rw [h.head] at hderef
      simp only [LinkedVecMap.drain, ne_eq, hlen, not_false_eq_true, if_true, h.head, hassert,
        reduceCtorEq, ok_bind, hderef, hprev, hgo, hset₁, hset₂, hset₃, hnext, hset₄, except_pure]
    · refine ⟨ps, m.free, h.entries, ?_, h.nodup, by simp, ?_, ?_⟩
      · intro p hp
        rw [hcontents₄, hcontents₃, hcontents₂, hcontents₁]
        exact h.filed.entry p hp
      · change Path (links heap₄).prev _ _ _
        rw [hlinks₄]
        exact hforth
      · change Path (links heap₄).next _ _ _
        rw [hlinks₄]
        exact hback
    · intro heap hheap
      refine .inr ⟨g, [], (ps.map Prod.fst).reverse ++ frees, h.head, ?_,
        .none (VecMap.get_clear m.map) rfl, rfl⟩
      change Shape (links heap) g (some (ps.getLast hps).1) _ _
      rw [hheap]
      change Shape (links heap₄) g (some (ps.getLast hps).1) _ _
      rw [hlinks₄]
      exact hshape

theorem drainWith_spec (checks : Bool) (h : Models m l) (ends : List End) (forgotten : Bool) :
    ∃ m', m.drainWith checks ends forgotten = .ok (m', (takes ends l.entries).1) ∧
      Models m' .new := by
  obtain ⟨m₁, d, hdrain, hhas, hmodels⟩ := drain_spec checks h
  have hstart : links (m₁.heap, d).1 = links m₁.heap ∧
      Drain.Has (m₁.heap, d).1 (m₁.heap, d).2 l.entries := ⟨rfl, hhas⟩
  obtain ⟨⟨heap₂, d₂⟩, hdrive, hlinks₂, hhas₂⟩ :=
    drive_takes (Drain.step_spec (links m₁.heap)) ends hstart
  cases forgotten with
  | true =>
    refine ⟨{ m₁ with heap := heap₂ }, ?_, hmodels heap₂ hlinks₂⟩
    simp only [LinkedVecMap.drainWith, hdrain, ok_bind, hdrive, if_true, except_pure]
  | false =>
    obtain ⟨heap₃, hdrop, hlinks₃⟩ := Drain.drop_spec (links m₁.heap) hlinks₂ hhas₂
      (Nat.lt_succ_of_le (Nat.le_of_eq hhas₂.1.symm))
    refine ⟨{ m₁ with heap := heap₃ }, ?_, hmodels heap₃ hlinks₃⟩
    simp only [LinkedVecMap.drainWith, hdrain, ok_bind, hdrive, Bool.false_eq_true, if_false,
      hdrop, except_pure]

end GridServer.Pointers
