import GridServer.Shared.LinkedNodesCalls

namespace GridServer.Pointers
open Library Function

variable {V : Type} {checks : Bool} {m : LinkedVecMap V} {l : GridServer.LinkedVecMap V}
  {heap : Heap (Node V)} {g : Nat}

theorem front_spec (h : Models m l) : m.front = .ok l.front := by
  cases hn : m.isEmpty with
  | true => simp [LinkedVecMap.front, hn, GridServer.LinkedVecMap.front, h.empty hn]
  | false =>
    obtain ⟨guard, a, k, v, g, ps, frees, hderef, hprev, h⟩ := h.first hn
    simp only [LinkedVecMap.front, hn, hderef, ok_bind, hprev, Bool.false_eq_true, if_false,
      peekNode_spec h]
    simp [GridServer.LinkedVecMap.front, ← h.entries]

theorem back_spec (h : Models m l) : m.back = .ok l.back := by
  cases hn : m.isEmpty with
  | true => simp [LinkedVecMap.back, hn, GridServer.LinkedVecMap.back, h.empty hn]
  | false =>
    obtain ⟨guard, a, k, v, g, ps, frees, hderef, hnext, h⟩ := h.last hn
    simp only [LinkedVecMap.back, hn, hderef, ok_bind, hnext, Bool.false_eq_true, if_false,
      peekNode_spec h]
    simp [GridServer.LinkedVecMap.back, ← h.entries]

theorem get_spec (h : Models m l) (k : Nat) : m.get k = .ok (l.get k) := by
  unfold LinkedVecMap.get
  cases hk : m.map.get k with
  | none => rw [h.get_none hk]
  | some q =>
    obtain ⟨g, ps, frees, h⟩ := h.linked hk
    obtain ⟨a, v, _, _, rfl, _, hentry, hget⟩ := h.find hk
    simp only [readEntry_ok hentry, ok_bind, hget, except_pure]

/-- The nodes from `cur` up to the guard are freed, and no other cell is touched. -/
theorem dropFrom_spec {cur : Ptr} {ns : List Nat} {fuel : Nat}
    (hpath : Path (links heap).next cur ns (some g)) (hentry : ∀ a ∈ ns, (contents heap a).isSome)
    (hg : g ∉ ns) (hnodup : ns.Nodup) (hfuel : ns.length < fuel) :
    ∃ heap', dropFrom (some g) fuel heap cur = .ok heap' ∧
      ∀ a ∉ ns, heap'.cell a = heap.cell a := by
  induction ns generalizing heap cur fuel with
  | nil =>
    obtain ⟨fuel, rfl⟩ := Nat.exists_eq_add_one_of_ne_zero (Nat.ne_of_gt hfuel)
    obtain rfl : cur = some g := hpath
    exact ⟨heap, by rw [dropFrom, if_pos rfl], fun _ _ => rfl⟩
  | cons a ns ih =>
    obtain ⟨fuel, rfl⟩ := Nat.exists_eq_add_one_of_ne_zero (Nat.ne_of_gt (Nat.zero_lt_of_lt hfuel))
    obtain ⟨rfl, hpath⟩ := hpath
    obtain ⟨hga, hg⟩ := not_or.mp (fun h => hg (List.mem_cons.mpr h))
    obtain ⟨ha, hnodup⟩ := List.nodup_cons.mp hnodup
    obtain ⟨e, he⟩ := Option.isSome_iff_exists.mp (hentry a List.mem_cons_self)
    obtain ⟨node, hderef, hnext, _⟩ := deref_spec (live_of_contents he)
    have hentry' : ∀ b ∈ ns, (contents (heap.free a) b).isSome := by
      intro b hb
      rw [contents_free, update_of_ne (ne_of_mem_of_not_mem hb ha)]
      exact hentry b (List.mem_cons_of_mem _ hb)
    obtain ⟨heap', hdrop, hsame⟩ :=
      ih (path_free hpath ha) hentry' hg hnodup (Nat.lt_of_succ_lt_succ hfuel)
    refine ⟨heap', ?_, fun b hb => ?_⟩
    · rw [dropFrom, if_neg (by simpa using Ne.symm hga)]
      simp only [hderef, ok_bind, fromRaw_ok he, hnext, hdrop]
    · obtain ⟨hba, hb⟩ := not_or.mp (fun h => hb (List.mem_cons.mpr h))
      exact (hsame b hb).trans (Heap.cell_free_of_ne hba)

theorem dropFree_spec {cur : Ptr} {ns : List Nat} {fuel : Nat}
    (hpath : Path (links heap).next cur ns none) (hlive : ∀ a ∈ ns, (links heap).live a = true)
    (hnodup : ns.Nodup) (hfuel : ns.length < fuel) :
    ∃ heap', dropFree fuel heap cur = .ok heap' ∧ ∀ a ∉ ns, heap'.cell a = heap.cell a := by
  induction ns generalizing heap cur fuel with
  | nil =>
    obtain ⟨fuel, rfl⟩ := Nat.exists_eq_add_one_of_ne_zero (Nat.ne_of_gt hfuel)
    obtain rfl : cur = none := hpath
    exact ⟨heap, by rw [dropFree, if_pos rfl], fun _ _ => rfl⟩
  | cons a ns ih =>
    obtain ⟨fuel, rfl⟩ := Nat.exists_eq_add_one_of_ne_zero (Nat.ne_of_gt (Nat.zero_lt_of_lt hfuel))
    obtain ⟨rfl, hpath⟩ := hpath
    obtain ⟨ha, hnodup⟩ := List.nodup_cons.mp hnodup
    have hself := hlive a List.mem_cons_self
    obtain ⟨node, hderef, hnext, _⟩ := deref_spec hself
    have hlive' : ∀ b ∈ ns, (links (heap.free a)).live b = true := fun b hb =>
      (live_free (ne_of_mem_of_not_mem hb ha)).trans (hlive b (List.mem_cons_of_mem _ hb))
    obtain ⟨heap', hdrop, hsame⟩ :=
      ih (path_free hpath ha) hlive' hnodup (Nat.lt_of_succ_lt_succ hfuel)
    refine ⟨heap', ?_, fun b hb => ?_⟩
    · rw [dropFree, if_neg (by simp)]
      simp only [hderef, ok_bind, dropEmptyNode_ok hself, hnext, hdrop]
    · obtain ⟨hba, hb⟩ := not_or.mp (fun h => hb (List.mem_cons.mpr h))
      exact (hsame b hb).trans (Heap.cell_free_of_ne hba)

theorem clear_spec (h : Models m l) : ∃ m', m.clear = .ok m' ∧ Models m' .new := by
  rcases h with ⟨hblank, _⟩ | ⟨g, ps, frees, h⟩
  · refine ⟨{ m with map := m.map.clear }, ?_,
      .inl ⟨⟨hblank.head, hblank.free, VecMap.get_clear m.map, rfl⟩, rfl⟩⟩
    rw [LinkedVecMap.clear, if_pos hblank.head]
    rfl
  · obtain ⟨guard, hderef, hnext, _⟩ := deref_spec (h.shape.live g List.mem_cons_self)
    have hentry : ∀ a ∈ (ps.map Prod.fst).reverse, (contents m.heap a).isSome := by
      intro a ha
      obtain ⟨p, hp, rfl⟩ := List.mem_map.mp (List.mem_reverse.mp ha)
      rw [h.filed.entry p hp]
      rfl
    have hg : g ∉ (ps.map Prod.fst).reverse := by
      rw [List.mem_reverse]
      exact (List.nodup_cons.mp h.shape.ring.nodup).1
    have hlen : (ps.map Prod.fst).reverse.length < m.heap.top + 1 := by
      rw [List.length_reverse]
      exact Nat.lt_succ_of_le (Heap.length_le_top h.nodup fun a ha =>
        h.shape.live a (List.mem_cons_of_mem _ (List.mem_append_left _ ha)))
    obtain ⟨heap₁, hdrop, hsame⟩ := dropFrom_spec h.shape.ring.back.2 hentry hg
      (List.nodup_reverse.mpr h.nodup) hlen
    have hkept : ∀ a ∈ g :: frees, heap₁.cell a = m.heap.cell a := by
      intro a ha
      apply hsame a
      rw [List.mem_reverse]
      rcases List.mem_cons.mp ha with rfl | ha
      · exact (List.nodup_cons.mp h.shape.ring.nodup).1
      · exact fun hmem => h.shape.not_mem_frees (List.mem_cons_of_mem _ hmem) ha
    have hglive : (links heap₁).live g = true :=
      (links_congr (hkept g List.mem_cons_self)).2.2.trans (h.shape.live g List.mem_cons_self)
    obtain ⟨heap₂, hset₂, hlinks₂, _⟩ := setPrev_spec hglive (some g)
    have hglive₂ : (links heap₂).live g = true := by
      rw [hlinks₂]
      exact hglive
    obtain ⟨heap₃, hset₃, hlinks₃, _⟩ := setNext_spec hglive₂ (some g)
    rw [hlinks₂] at hlinks₃
    refine ⟨{ m with map := m.map.clear, heap := heap₃ }, ?_, .inr ⟨g, [], frees, h.head, ?_,
      .none (VecMap.get_clear m.map) rfl, rfl⟩⟩
    · rw [LinkedVecMap.clear, if_neg (by rw [h.head]; simp)]
      simp only [LinkedVecMap.dropEntries, h.head, hderef, ok_bind, hnext, hdrop, hset₂, hset₃,
        except_pure]
    · change Shape (links heap₃) g m.free [] frees
      rw [hlinks₃]
      have hgfrees := h.shape.not_mem_frees List.mem_cons_self
      have hsub : (g :: frees).Sublist (g :: (ps.map Prod.fst ++ frees)) := by simp
      refine ⟨.alone (update_self ..) (update_self ..), Path.update ?_ hgfrees, ?_,
        h.shape.nodup.sublist hsub⟩
      · exact h.shape.chain.congr fun a ha => (links_congr (hkept a (List.mem_cons_of_mem _ ha))).1
      · exact fun a ha => (links_congr (hkept a ha)).2.2.trans (h.shape.live a (hsub.subset ha))

end GridServer.Pointers
