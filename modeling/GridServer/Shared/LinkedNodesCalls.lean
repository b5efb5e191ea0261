import GridServer.Shared.LinkedNodesOps

namespace GridServer.Pointers
open Library Function

variable {V : Type}

/-- The map before its first insertion. -/
structure Blank (m : LinkedVecMap V) : Prop where
  head : m.head = none
  free : m.free = none
  index : ∀ k, m.map.get k = none
  count : m.map.n = 0

/-- The nodes `ps` of the ring, oldest first, hold the entries of `l`. -/
structure Linked (m : LinkedVecMap V) (g : Nat) (ps : List (Nat × Nat × V)) (frees : List Nat)
    (l : GridServer.LinkedVecMap V) : Prop where
  head : m.head = some g
  shape : Shape (links m.heap) g m.free (ps.map Prod.fst) frees
  filed : Filed (contents m.heap) m.map ps
  entries : ps.map Prod.snd = l.entries

/-- The map stands for the list of pairs `l`. -/
def Models (m : LinkedVecMap V) (l : GridServer.LinkedVecMap V) : Prop :=
  (Blank m ∧ l.entries = []) ∨ ∃ g ps frees, Linked m g ps frees l

theorem models_new : Models (LinkedVecMap.new : LinkedVecMap V) .new :=
  .inl ⟨⟨rfl, rfl, VecMap.get_new, rfl⟩, rfl⟩

variable {checks : Bool} {m : LinkedVecMap V} {l : GridServer.LinkedVecMap V} {g k : Nat} {v : V}
  {ps before after : List (Nat × Nat × V)} {frees : List Nat}

theorem Linked.nodup (h : Linked m g ps frees l) : (ps.map Prod.fst).Nodup :=
  (List.nodup_cons.mp h.shape.ring.nodup).2

theorem Linked.get_none (h : Linked m g ps frees l) (hk : m.map.get k = none) : l.get k = none := by
  rw [GridServer.LinkedVecMap.get_eq_none, GridServer.LinkedVecMap.keys, ← h.entries]
  exact h.filed.not_mem_keys hk

theorem Linked.removed {a : Nat} (h : Linked m g (before ++ (a, k, v) :: after) frees l) :
    (l.remove k).entries = (before ++ after).map Prod.snd := by
  have hsplit : l.entries = before.map Prod.snd ++ (k, v) :: after.map Prod.snd := by
    rw [← h.entries, List.map_append]
    rfl
  rw [GridServer.LinkedVecMap.entries_remove hsplit, List.map_append]

/-- A key of the index has its node in the ring. -/
theorem Linked.find (h : Linked m g ps frees l) {q : Ptr} (hk : m.map.get k = some q) :
    ∃ a v before after, q = some a ∧ ps = before ++ (a, k, v) :: after ∧
      contents m.heap a = some (k, v) ∧ l.get k = some v := by
  obtain ⟨a, v, before, after, hq, rfl⟩ := h.filed.split hk
  refine ⟨a, v, before, after, hq, rfl, h.filed.get_mid.1, ?_⟩
  rw [GridServer.LinkedVecMap.get_eq_some, ← h.entries]
  simp

/-- A node that has become the newest, with the value that it has now. -/
theorem Linked.moved {a : Nat} {old : V} (h : Linked m g (before ++ (a, k, old) :: after) frees l)
    {heap : Heap (Node V)} {value : V}
    (hshape : Shape (links heap) g m.free (before.map Prod.fst ++ after.map Prod.fst ++ [a]) frees)
    (hcontents : contents heap = update (contents m.heap) a (some (k, value))) :
    Models { m with heap } (l.insert k value) := by
  refine .inr ⟨g, before ++ after ++ [(a, k, value)], frees, h.head, by simpa using hshape, ?_, ?_⟩
  · change Filed (contents heap) m.map _
    rw [hcontents]
    refine (h.filed.replace h.nodup value).perm ?_
    exact List.perm_middle.trans (List.perm_append_singleton _ _).symm
  · rw [List.map_append, ← h.removed]
    rfl

theorem Models.of_entries (h : Models m l) {l' : GridServer.LinkedVecMap V}
    (he : l'.entries = l.entries) : Models m l' := by
  rcases h with ⟨hblank, hempty⟩ | ⟨g, ps, frees, h⟩
  · exact .inl ⟨hblank, he.trans hempty⟩
  · exact .inr ⟨g, ps, frees, h.head, h.shape, h.filed, h.entries.trans he.symm⟩

theorem Models.get_none (h : Models m l) (hk : m.map.get k = none) : l.get k = none := by
  rcases h with ⟨_, hempty⟩ | ⟨g, ps, frees, h⟩
  · simp [GridServer.LinkedVecMap.get, hempty]
  · exact h.get_none hk

theorem Models.linked (h : Models m l) {q : Ptr} (hk : m.map.get k = some q) :
    ∃ g ps frees, Linked m g ps frees l := by
  rcases h with ⟨hblank, _⟩ | h
  · cases (hblank.index k).symm.trans hk
  · exact h

theorem Models.count (h : Models m l) : m.len = l.len := by
  rcases h with ⟨hblank, hempty⟩ | ⟨g, ps, frees, h⟩
  · exact hblank.count.trans (by simp [GridServer.LinkedVecMap.len, hempty])
  · rw [LinkedVecMap.len, h.filed.count, GridServer.LinkedVecMap.len, ← h.entries, List.length_map]

theorem ensureGuardNode_spec (h : Models m l) :
    ∃ m' g ps frees, m.ensureGuardNode = .ok m' ∧ m'.map = m.map ∧ Linked m' g ps frees l := by
  rcases h with ⟨hblank, hempty⟩ | ⟨g, ps, frees, h⟩
  · obtain ⟨_, hlinks, _⟩ := alloc_spec m.heap ⟨none, none, none⟩
    have hlive : (links (m.heap.alloc ⟨none, none, none⟩).1).live m.heap.top = true := by
      rw [hlinks]
      exact update_self ..
    obtain ⟨heap₁, hset₁, hlinks₁, _⟩ := setNext_spec hlive (some m.heap.top)
    have hlive₁ : (links heap₁).live m.heap.top = true := by
      rw [hlinks₁]
      exact hlive
    obtain ⟨heap₂, hset₂, hlinks₂, _⟩ := setPrev_spec hlive₁ (some m.heap.top)
    rw [hlinks₁, hlinks] at hlinks₂
    refine ⟨{ m with heap := heap₂, head := some m.heap.top }, m.heap.top, [], [], ?_, rfl, rfl,
      ?_, .none hblank.index hblank.count, hempty.symm⟩
    · rw [LinkedVecMap.ensureGuardNode, if_pos hblank.head]
      change (do
        let heap ← setNext (m.heap.alloc ⟨none, none, none⟩).1 (some m.heap.top) (some m.heap.top)
        let heap ← setPrev heap (some m.heap.top) (some m.heap.top)
        return { m with heap, head := some m.heap.top }) = _
      simp only [hset₁, ok_bind, hset₂, except_pure]
    · rw [hlinks₂]
      refine ⟨.alone (update_self ..) (update_self ..), hblank.free, fun a ha => ?_, by simp⟩
      rw [List.mem_singleton.mp ha]
      exact update_self ..
  · refine ⟨m, g, ps, frees, ?_, rfl, h⟩
    rw [LinkedVecMap.ensureGuardNode, if_neg (by rw [h.head]; simp)]
    rfl

/-- A new node is in neither list. -/
theorem newNode_spec {nodes : List Nat} (h : Shape (links m.heap) g m.free nodes frees) (k : Nat)
    (v : V) :
    ∃ heap free x rest, m.newNode k v = .ok ({ m with heap, free }, some x) ∧
      x ∉ g :: (nodes ++ rest) ∧ (links heap).live x = true ∧
      Shape (links heap) g free nodes rest ∧
      contents heap = update (contents m.heap) x (some (k, v)) := by
  cases hfree : m.free with
  | none =>
    obtain ⟨hdead, hlinks, hcontents⟩ := alloc_spec m.heap ⟨none, none, some (k, v)⟩
    have hx : m.heap.top ∉ g :: (nodes ++ frees) := by
      intro hmem
      rw [h.live _ hmem] at hdead
      cases hdead
    refine ⟨(m.heap.alloc ⟨none, none, some (k, v)⟩).1, none, m.heap.top, frees, ?_, hx, ?_, ?_,
      hcontents⟩
    · rw [LinkedVecMap.newNode, if_pos hfree, ← hfree]
      rfl
    · rw [hlinks]
      exact update_self ..
    · rw [hlinks, ← hfree]
      exact h.congr (fun _ ha => update_of_ne (ne_of_mem_of_not_mem ha hx) ..)
        (fun _ ha => update_of_ne (ne_of_mem_of_not_mem ha hx) ..)
        (fun _ ha => update_of_ne (ne_of_mem_of_not_mem ha hx) ..)
  | some x =>
    obtain ⟨rest, hx, hlive, hshape⟩ := (hfree ▸ h).reuse
    obtain ⟨node, hderef, hnext, _⟩ := deref_spec hlive
    obtain ⟨n, hn⟩ := cell_of_live hlive
    refine ⟨m.heap.modify x fun _ => ⟨none, none, some (k, v)⟩, (links m.heap).next x, x, rest,
      ?_, hx, ?_, ?_, Heap.field_modify hn _⟩
    · rw [LinkedVecMap.newNode, if_neg (by rw [hfree]; simp)]
      simp only [hfree, hderef, ok_bind, assign_ok hlive, hnext, except_pure]
    · rw [live_modify]
      exact hlive
    · have hcell : ∀ a ∈ g :: (nodes ++ rest),
          (m.heap.modify x fun _ => ⟨none, none, some (k, v)⟩).cell a = m.heap.cell a :=
        fun a ha => Heap.cell_modify_of_ne (ne_of_mem_of_not_mem ha hx) _
      exact hshape.congr (fun a ha => (links_congr (hcell a ha)).1)
        (fun a ha => (links_congr (hcell a ha)).2.1) (fun a ha => (links_congr (hcell a ha)).2.2)

/-- A new value for a key that is there, which makes the key the newest. -/
theorem overwrite_spec (h : Linked m g ps frees l) {q : Ptr} (hk : m.map.get k = some q) (v : V) :
    ∃ old heap₀ heap₁ heap₂, l.get k = some old ∧ replaceValue m.heap q v = .ok (heap₀, old) ∧
      { m with heap := heap₀ }.detach q = .ok { m with heap := heap₁ } ∧
      { m with heap := heap₁ }.attach q = .ok { m with heap := heap₂ } ∧
      Models { m with heap := heap₂ } (l.insert k v) := by
  obtain ⟨a, old, before, after, rfl, rfl, hentry, hget⟩ := h.find hk
  obtain ⟨heap₀, hreplace, hlinks₀, hcontents₀⟩ := replaceValue_spec hentry v
  have hshape : Shape (links heap₀) g m.free (before.map Prod.fst ++ a :: after.map Prod.fst)
      frees := by
    rw [hlinks₀]
    simpa using h.shape
  obtain ⟨heap₁, heap₂, hdetach, hattach, hshape₂, hcontents₂⟩ :=
    refresh_spec (m := { m with heap := heap₀ }) h.head hshape
  exact ⟨old, heap₀, heap₁, heap₂, hget, hreplace, hdetach, hattach,
    h.moved hshape₂ (hcontents₂.trans hcontents₀)⟩

/-- A node for a key that is not there, on its way into the ring and into the index. -/
theorem addNode_spec (h : Linked m g ps frees l) (hk : m.map.get k = none) (v : V) :
    ∃ heap free x, m.newNode k v = .ok ({ m with heap, free }, some x) ∧
      contents heap x = some (k, v) ∧
      ∀ map, ∃ heap', ({ m with heap, free, map } : LinkedVecMap V).attach (some x) =
          .ok { m with heap := heap', free, map } ∧
        contents heap' x = some (k, v) ∧
        Models { m with heap := heap', free, map := m.map.insert k (some x) } (l.insert k v) := by
  obtain ⟨heap, free, x, rest, hnew, hx, hlive, hshape, hcontents⟩ := newNode_spec h.shape k v
  have hself : contents heap x = some (k, v) := by rw [hcontents, update_self]
  refine ⟨heap, free, x, hnew, hself, fun map => ?_⟩
  obtain ⟨heap', hattach, hshape', hcontents'⟩ :=
    attach_spec (m := { m with heap, free, map }) h.head hshape hx hlive
  refine ⟨heap', hattach, by rw [hcontents']; exact hself,
    .inr ⟨g, ps ++ [(x, k, v)], rest, h.head, by simpa using hshape', ?_, ?_⟩⟩
  · have hfiled : Filed (contents heap) m.map ps := by
      rw [hcontents]
      exact h.filed.update_other (not_mem_nodes hx) _
    change Filed (contents heap') (m.map.insert k (some x)) _
    rw [hcontents']
    exact hfiled.add hk hself
  · have hremove := GridServer.LinkedVecMap.entries_remove_of_not_mem
      (GridServer.LinkedVecMap.get_eq_none.mp (h.get_none hk))
    change _ = (l.remove k).entries ++ [(k, v)]
    rw [List.map_append, h.entries, hremove]
    rfl

theorem insert_spec (h : Models m l) (hkey : k < 2 ^ 64) (hfits : ¬ m.map.Overgrows k) (v : V) :
    ∃ m', m.insert checks k v = .ok (m', l.get k) ∧ Models m' (l.insert k v) := by
  obtain ⟨m₁, g, ps, frees, hguard, hmap, h⟩ := ensureGuardNode_spec h
  rw [← hmap] at hfits
  cases hk : m₁.map.get k with
  | some q =>
    obtain ⟨old, heap₀, heap₁, heap₂, hget, hreplace, hdetach, hattach, hmodels⟩ :=
      overwrite_spec h hk v
    refine ⟨_, ?_, hmodels⟩
    simp only [LinkedVecMap.insert, hguard, ok_bind, hk, hreplace, hdetach, hattach, hget,
      except_pure]
  | none =>
    obtain ⟨heap, free, x, hnew, _, hadd⟩ := addNode_spec h hk v
    obtain ⟨heap', hattach, _, hmodels⟩ := hadd (m₁.map.insert k (some x))
    refine ⟨_, ?_, hmodels⟩
    simp only [LinkedVecMap.insert, hguard, ok_bind, hk, hnew,
      VecMap.insertChecked_ok hkey hfits, hattach, h.get_none hk, except_pure]

theorem occupiedInsert_spec (h : Models m l) {q : Ptr} (hk : m.map.get k = some q) (v : V) :
    ∃ m' old, l.get k = some old ∧ m.occupiedInsert q v = .ok (m', old) ∧
      Models m' (l.insert k v) := by
  obtain ⟨m₁, g, ps, frees, hguard, hmap, h⟩ := ensureGuardNode_spec h
  rw [← hmap] at hk
  obtain ⟨old, heap₀, heap₁, heap₂, hget, hreplace, hdetach, hattach, hmodels⟩ :=
    overwrite_spec h hk v
  refine ⟨_, old, hget, ?_, hmodels⟩
  simp only [LinkedVecMap.occupiedInsert, hguard, ok_bind, hreplace, hdetach, hattach, except_pure]

theorem vacantInsert_spec (h : Models m l) (hk : m.map.get k = none) (hkey : k < 2 ^ 64)
    (hfits : ¬ m.map.Overgrows k) (v : V) :
    ∃ m', l.get k = none ∧ m.vacantInsert checks k v = .ok (m', v) ∧ Models m' (l.insert k v) := by
  obtain ⟨m₁, g, ps, frees, hguard, hmap, h⟩ := ensureGuardNode_spec h
  rw [← hmap] at hk hfits
  obtain ⟨heap, free, x, hnew, hself, hadd⟩ := addNode_spec h hk v
  obtain ⟨heap', hattach, hself', hmodels⟩ := hadd m₁.map
  refine ⟨_, h.get_none hk, ?_, hmodels⟩
  simp only [LinkedVecMap.vacantInsert, hguard, ok_bind, hnew, readEntry_ok hself, hattach,
    VecMap.getOrInsertChecked_ok hkey hfits hk, readEntry_ok hself', except_pure]

theorem entryInsert_spec (h : Models m l) (hkey : k < 2 ^ 64) (hfits : ¬ m.map.Overgrows k)
    (v : V) :
    ∃ m', m.entryInsert checks k v = .ok (m', (l.get k).getD v) ∧ Models m' (l.insert k v) := by
  unfold LinkedVecMap.entryInsert
  cases hk : m.map.get k with
  | some q =>
    obtain ⟨m', old, hget, hok, hmodels⟩ := occupiedInsert_spec h hk v
    exact ⟨m', by rw [hget]; exact hok, hmodels⟩
  | none =>
    obtain ⟨m', hget, hok, hmodels⟩ := vacantInsert_spec h hk hkey hfits v
    exact ⟨m', by rw [hget]; exact hok, hmodels⟩

/-- A key past the end of no slots at all fails, whatever the build. -/
theorem insert_overgrows (checks : Bool) (h : Models m l) (hover : m.map.Overgrows k) (v : V) :
    ∃ e, m.insert checks k v = .error e := by
  obtain ⟨m₁, g, ps, frees, hguard, hmap, h⟩ := ensureGuardNode_spec h
  rw [← hmap] at hover
  have hk : m₁.map.get k = none := by simp [VecMap.get, hover.2]
  obtain ⟨heap, free, x, hnew, _, _⟩ := addNode_spec h hk v
  obtain ⟨e, he⟩ := VecMap.insertChecked_overgrows checks hover (some x)
  exact ⟨e, by simp only [LinkedVecMap.insert, hguard, ok_bind, hk, hnew, he, error_bind]⟩

theorem entryInsert_overgrows (checks : Bool) (h : Models m l) (hover : m.map.Overgrows k) (v : V) :
    ∃ e, m.entryInsert checks k v = .error e := by
  have hk : m.map.get k = none := by simp [VecMap.get, hover.2]
  simp only [LinkedVecMap.entryInsert, hk]
  obtain ⟨m₁, g, ps, frees, hguard, hmap, h⟩ := ensureGuardNode_spec h
  rw [← hmap] at hover hk
  obtain ⟨heap, free, x, hnew, hself, hadd⟩ := addNode_spec h hk v
  obtain ⟨heap', hattach, _, _⟩ := hadd m₁.map
  obtain ⟨e, he⟩ := VecMap.getOrInsertChecked_overgrows checks hover (some x)
  exact ⟨e, by simp only [LinkedVecMap.vacantInsert, hguard, ok_bind, hnew, readEntry_ok hself,
    hattach, he, error_bind]⟩

theorem getRefresh_spec (h : Models m l) (k : Nat) :
    ∃ m', m.getRefresh k = .ok (m', l.get k) ∧ Models m' (l.refresh k) := by
  cases hk : m.map.get k with
  | none =>
    refine ⟨m, ?_, ?_⟩
    · simp only [LinkedVecMap.getRefresh, hk, h.get_none hk, except_pure]
    · rw [GridServer.LinkedVecMap.refresh, h.get_none hk]
      exact h
  | some q =>
    obtain ⟨g, ps, frees, h⟩ := h.linked hk
    obtain ⟨a, v, before, after, rfl, rfl, hentry, hget⟩ := h.find hk
    have hshape : Shape (links m.heap) g m.free (before.map Prod.fst ++ a :: after.map Prod.fst)
        frees := by simpa using h.shape
    obtain ⟨heap₁, heap₂, hdetach, hattach, hshape₂, hcontents₂⟩ := refresh_spec h.head hshape
    refine ⟨{ m with heap := heap₂ }, ?_, ?_⟩
    · simp only [LinkedVecMap.getRefresh, hk, readEntry_ok hentry, ok_bind, hdetach, hattach, hget,
        except_pure]
    · rw [GridServer.LinkedVecMap.refresh, hget]
      apply h.moved hshape₂
      rw [hcontents₂, ← hentry, update_eq_self]

/-- Out of the ring and out of the index. -/
theorem takeNode_spec {a : Nat} (h : Linked m g (before ++ (a, k, v) :: after) frees l) :
    a ∉ g :: ((before ++ after).map Prod.fst ++ frees) ∧ ∀ map, ∃ heap,
      ({ m with map } : LinkedVecMap V).detach (some a) = .ok { m with heap, map } ∧
        Shape (links heap) g m.free ((before ++ after).map Prod.fst) frees ∧
        (links heap).live a = true ∧ contents heap a = some (k, v) ∧
        Filed (contents heap) (m.map.remove k) (before ++ after) := by
  have hshape : Shape (links m.heap) g m.free (before.map Prod.fst ++ a :: after.map Prod.fst)
      frees := by simpa using h.shape
  refine ⟨by simpa using hshape.not_mem_others, fun map => ?_⟩
  obtain ⟨heap, hdetach, hshape', hlive, hcontents⟩ := detach_spec (m := { m with map }) hshape
  refine ⟨heap, hdetach, by simpa using hshape', ?_, ?_, ?_⟩
  · rw [hlive]
    exact hshape.live a (by simp)
  · rw [hcontents]
    exact h.filed.get_mid.1
  · rw [hcontents]
    exact h.filed.erase h.nodup

theorem remove_spec (h : Models m l) (k : Nat) :
    ∃ m', m.remove k = .ok (m', l.get k) ∧ Models m' (l.remove k) := by
  cases hk : m.map.get k with
  | none =>
    have hget := h.get_none hk
    refine ⟨m, ?_, h.of_entries (GridServer.LinkedVecMap.entries_remove_of_not_mem
      (GridServer.LinkedVecMap.get_eq_none.mp hget))⟩
    simp only [LinkedVecMap.remove, hk, VecMap.remove_of_none hk, hget, except_pure]
  | some q =>
    obtain ⟨g, ps, frees, h⟩ := h.linked hk
    obtain ⟨a, v, before, after, rfl, rfl, hentry, hget⟩ := h.find hk
    obtain ⟨ha, htake⟩ := takeNode_spec h
    obtain ⟨heap₁, hdetach, hshape, hlive, hentry₁, hfiled⟩ := htake (m.map.remove k)
    obtain ⟨heap₂, hset, hlinks₂, hcontents₂⟩ := setNext_spec hlive m.free
    obtain ⟨heap₃, hmove, hlinks₃, hcontents₃⟩ :=
      moveOut_spec ((congrFun hcontents₂ a).trans hentry₁)
    refine ⟨{ m with heap := heap₃, map := m.map.remove k, free := some a }, ?_,
      .inr ⟨g, before ++ after, a :: frees, h.head, ?_, ?_, h.removed.symm⟩⟩
    · simp only [LinkedVecMap.remove, hk, hdetach, ok_bind, hset, hmove, hget, except_pure]
    · change Shape (links heap₃) g (some a) _ _
      rw [hlinks₃, hlinks₂]
      exact hshape.recycle ha hlive
    · change Filed (contents heap₃) (m.map.remove k) _
      rw [hcontents₃, hcontents₂]
      exact hfiled.update_other (not_mem_nodes ha) _

theorem popNode_spec {a : Nat} (h : Linked m g (before ++ (a, k, v) :: after) frees l) :
    ∃ m', m.popNode (some a) = .ok (m', some (k, v)) ∧
      ∀ l' : GridServer.LinkedVecMap V, l'.entries = (before ++ after).map Prod.snd →
        Models m' l' := by
  obtain ⟨ha, htake⟩ := takeNode_spec h
  obtain ⟨heap, hdetach, hshape, _, hentry, hfiled⟩ := htake m.map
  have hk : m.map.get k = some (some a) := h.filed.get_mid.2
  refine ⟨{ m with heap := heap.free a, map := m.map.remove k }, ?_,
    fun l' hl' => .inr ⟨g, before ++ after, frees, h.head, ?_, ?_, hl'.symm⟩⟩
  · simp only [LinkedVecMap.popNode, hdetach, ok_bind, readEntry_ok hentry, hk, fromRaw_ok hentry,
      except_pure]
  · change Shape (links (heap.free a)) g m.free _ _
    rw [links_free]
    exact hshape.without ha
  · change Filed (contents (heap.free a)) (m.map.remove k) _
    rw [contents_free]
    exact hfiled.update_other (not_mem_nodes ha) _

theorem peekNode_spec {a : Nat} (h : Linked m g (before ++ (a, k, v) :: after) frees l) :
    m.peekNode (some a) = .ok (some (k, v)) := by
  obtain ⟨hentry, hk⟩ := h.filed.get_mid
  simp only [LinkedVecMap.peekNode, readEntry_ok hentry, ok_bind, hk, except_pure]

/-- The guard leads to the oldest node and to the newest. -/
theorem Linked.ends (h : Linked m g ps frees l) (hps : ps ≠ []) :
    ∃ guard, deref m.heap m.head = .ok guard ∧ guard.prev = (ps.head hps).1 ∧
      guard.next = (ps.getLast hps).1 ∧ (links m.heap).prev g = (ps.head hps).1 ∧
      (links m.heap).next g = (ps.getLast hps).1 := by
  obtain ⟨guard, hderef, hnext, hprev⟩ := deref_spec (h.shape.live g List.mem_cons_self)
  have holdest : (links m.heap).prev g = (ps.head hps).1 := by
    have hforth := h.shape.ring.forth.2
    cases ps with
    | nil => exact absurd rfl hps
    | cons p ps => exact hforth.1
  have hnewest : (links m.heap).next g = (ps.getLast hps).1 := by
    have hback := h.shape.ring.back.2
    rcases List.eq_nil_or_concat' ps with rfl | ⟨init, p, rfl⟩
    · exact absurd rfl hps
    · rw [List.map_append, List.reverse_append] at hback
      rw [List.getLast_append_singleton]
      exact hback.1
  refine ⟨guard, ?_, hprev.trans holdest, hnext.trans hnewest, holdest, hnewest⟩
  rw [h.head]
  exact hderef

/-- A map with entries has them on a ring. -/
theorem Models.nonempty (h : Models m l) (hn : m.isEmpty = false) :
    ∃ g ps frees, ps ≠ [] ∧ Linked m g ps frees l := by
  have hlen : m.len ≠ 0 := by simpa [LinkedVecMap.isEmpty] using hn
  rcases h with ⟨hblank, _⟩ | ⟨g, ps, frees, h⟩
  · exact absurd hblank.count hlen
  · refine ⟨g, ps, frees, ?_, h⟩
    rintro rfl
    exact hlen h.filed.count

theorem Models.empty (h : Models m l) (hn : m.isEmpty = true) : l.entries = [] := by
  have hlen : m.len = 0 := by simpa [LinkedVecMap.isEmpty] using hn
  rw [h.count] at hlen
  exact List.length_eq_zero_iff.mp hlen

/-- The node that `pop_front` and `front` go to. -/
theorem Models.first (h : Models m l) (hn : m.isEmpty = false) :
    ∃ guard a k v g ps frees, deref m.heap m.head = .ok guard ∧ guard.prev = some a ∧
      Linked m g ([] ++ (a, k, v) :: ps) frees l := by
  obtain ⟨g, ps, frees, hps, h⟩ := h.nonempty hn
  obtain ⟨guard, hderef, hprev, _⟩ := h.ends hps
  cases ps with
  | nil => exact absurd rfl hps
  | cons p ps => exact ⟨guard, p.1, p.2.1, p.2.2, g, ps, frees, hderef, hprev, h⟩

/-- The node that `pop_back` and `back` go to. -/
theorem Models.last (h : Models m l) (hn : m.isEmpty = false) :
    ∃ guard a k v g ps frees, deref m.heap m.head = .ok guard ∧ guard.next = some a ∧
      Linked m g (ps ++ (a, k, v) :: []) frees l := by
  obtain ⟨g, ps, frees, hps, h⟩ := h.nonempty hn
  obtain ⟨guard, hderef, _, hnext, _⟩ := h.ends hps
  rcases List.eq_nil_or_concat' ps with rfl | ⟨init, p, rfl⟩
  · exact absurd rfl hps
  · rw [List.getLast_append_singleton] at hnext
    exact ⟨guard, p.1, p.2.1, p.2.2, g, init, frees, hderef, hnext, h⟩

theorem popFront_spec (h : Models m l) :
    ∃ m', m.popFront = .ok (m', l.front) ∧ Models m' l.popFront := by
  cases hn : m.isEmpty with
  | true =>
    have hempty := h.empty hn
    refine ⟨m, ?_, h.of_entries (by simp [GridServer.LinkedVecMap.popFront, hempty])⟩
    simp [LinkedVecMap.popFront, hn, GridServer.LinkedVecMap.front, hempty]
  | false =>
    obtain ⟨guard, a, k, v, g, ps, frees, hderef, hprev, h⟩ := h.first hn
    obtain ⟨m', hok, hmodels⟩ := popNode_spec h
    refine ⟨m', ?_, hmodels l.popFront (by simp [GridServer.LinkedVecMap.popFront, ← h.entries])⟩
    simp only [LinkedVecMap.popFront, hn, hderef, ok_bind, hprev, Bool.false_eq_true, if_false, hok]
    simp [GridServer.LinkedVecMap.front, ← h.entries]

theorem popBack_spec (h : Models m l) :
    ∃ m', m.popBack = .ok (m', l.back) ∧ Models m' l.popBack := by
  cases hn : m.isEmpty with
  | true =>
    have hempty := h.empty hn
    refine ⟨m, ?_, h.of_entries (by simp [GridServer.LinkedVecMap.popBack, hempty])⟩
    simp [LinkedVecMap.popBack, hn, GridServer.LinkedVecMap.back, hempty]
  | false =>
    obtain ⟨guard, a, k, v, g, ps, frees, hderef, hnext, h⟩ := h.last hn
    obtain ⟨m', hok, hmodels⟩ := popNode_spec h
    refine ⟨m', ?_, hmodels l.popBack (by simp [GridServer.LinkedVecMap.popBack, ← h.entries])⟩
    simp only [LinkedVecMap.popBack, hn, hderef, ok_bind, hnext, Bool.false_eq_true, if_false, hok]
    simp [GridServer.LinkedVecMap.back, ← h.entries]

end GridServer.Pointers
