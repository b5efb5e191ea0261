import GridServer.Shared.LinkedNodesShape

namespace GridServer

namespace VecMap
variable {V : Type} {checks : Bool} {m : VecMap V} {key : Nat}

/-- `key - len + 1` leaves the `usize`. -/
def Overgrows (m : VecMap V) (key : Nat) : Prop := key = 2 ^ 64 - 1 ∧ m.v = []

instance (m : VecMap V) (key : Nat) : Decidable (m.Overgrows key) :=
  inferInstanceAs (Decidable (_ ∧ _))

theorem grow_ok (hkey : key < 2 ^ 64) (h : ¬ m.Overgrows key) :
    m.grow checks key = .ok (extended m.v key) := by
  unfold grow extended
  split
  · rename_i hlen
    have hfits : key - m.v.length + 1 < 2 ^ 64 := by
      by_cases hnil : m.v = []
      · have hne : key ≠ 2 ^ 64 - 1 := fun he => h ⟨he, hnil⟩
        omega
      · have hpos : 0 < m.v.length := List.length_pos_iff.mpr hnil
        omega
    simp [usizeSub, usizeAdd, subBits_of_le hlen, addBits_of_lt hfits]
  · rfl

/-- A build with overflow checks panics, one without them adds no slot. -/
theorem grow_overgrows (h : m.Overgrows key) :
    m.grow checks key = if checks then .error (.addOverflow 64) else .ok [] := by
  obtain ⟨rfl, hnil⟩ := h
  cases checks with
  | false => simp [grow, hnil, usizeSub, usizeAdd, subBits, addBits, wrappingSub, wrappingAdd]
  | true => simp [grow, hnil, usizeSub, usizeAdd, subBits, addBits, wrappingSub]

theorem extended_slot (m : VecMap V) (key : Nat) :
    (extended m.v key)[key]? = some (m.get key) := by
  have h := extended_get m.v key key
  rw [List.getElem?_eq_getElem (lt_extended m.v key)] at h ⊢
  exact congrArg some h

theorem insertChecked_ok (hkey : key < 2 ^ 64) (h : ¬ m.Overgrows key) (value : V) :
    m.insertChecked checks key value = .ok (m.insert key value, m.get key) := by
  simp only [insertChecked, grow_ok hkey h, Library.ok_bind, extended_slot]
  rfl

theorem getOrInsertChecked_ok (hkey : key < 2 ^ 64) (h : ¬ m.Overgrows key)
    (hnone : m.get key = none) (value : V) :
    m.getOrInsertChecked checks key value = .ok (m.insert key value, value) := by
  simp only [getOrInsertChecked, grow_ok hkey h, Library.ok_bind, extended_slot, hnone, insert,
    Option.isNone_none, if_true]
  split
  · rfl
  · rfl

theorem insertChecked_overgrows (checks : Bool) (h : m.Overgrows key) (value : V) :
    ∃ e, m.insertChecked checks key value = .error e := by
  rw [insertChecked, grow_overgrows h]
  cases checks with
  | false => exact ⟨_, rfl⟩
  | true => exact ⟨_, rfl⟩

theorem getOrInsertChecked_overgrows (checks : Bool) (h : m.Overgrows key) (value : V) :
    ∃ e, m.getOrInsertChecked checks key value = .error e := by
  rw [getOrInsertChecked, grow_overgrows h]
  cases checks with
  | false => exact ⟨.undefinedBehaviour, by simp [h.2]⟩
  | true => exact ⟨_, rfl⟩

theorem n_insert (hnone : m.get key = none) (value : V) : (m.insert key value).n = m.n + 1 := by
  simp [insert, hnone]

theorem remove_of_none (hnone : m.get key = none) : m.remove key = m := by simp [remove, hnone]

theorem n_remove (hsome : (m.get key).isSome) : (m.remove key).n = m.n - 1 := by
  simp [remove, hsome]

end VecMap

namespace Pointers
open Library Function

variable {V : Type}

/-- The nodes are filed: each node of `ps` holds its entry, and the index leads to it. -/
structure Filed (entry : Nat → Option (Nat × V)) (map : VecMap Ptr) (ps : List (Nat × Nat × V)) :
    Prop where
  entry : ∀ p ∈ ps, entry p.1 = some p.2
  index : ∀ k q, map.get k = some q ↔ ∃ a v, q = some a ∧ (a, k, v) ∈ ps
  count : map.n = ps.length

namespace Filed
variable {entry : Nat → Option (Nat × V)} {map : VecMap Ptr} {ps as bs : List (Nat × Nat × V)}
  {a k : Nat} {v : V}

theorem none (hnone : ∀ k, map.get k = .none) (hn : map.n = 0) : Filed entry map [] := by
  refine ⟨fun p hp => absurd hp List.not_mem_nil, fun k q => ?_, hn⟩
  rw [hnone k]
  simp

theorem perm (h : Filed entry map ps) {qs : List (Nat × Nat × V)} (hperm : ps.Perm qs) :
    Filed entry map qs := by
  refine ⟨fun p hp => h.entry p (hperm.mem_iff.mpr hp), fun k q => ?_,
    h.count.trans hperm.length_eq⟩
  rw [h.index]
  simp only [hperm.mem_iff]

theorem split (h : Filed entry map ps) {q : Ptr} (hq : map.get k = some q) :
    ∃ a v as bs, q = some a ∧ ps = as ++ (a, k, v) :: bs := by
  obtain ⟨a, v, hqa, hmem⟩ := (h.index k q).mp hq
  obtain ⟨as, bs, hps⟩ := List.append_of_mem hmem
  exact ⟨a, v, as, bs, hqa, hps⟩

theorem not_mem_keys (h : Filed entry map ps) (hnone : map.get k = .none) :
    k ∉ (ps.map Prod.snd).map Prod.fst := by
  rw [List.map_map, List.mem_map]
  rintro ⟨⟨a, k', v⟩, hmem, rfl⟩
  cases hnone.symm.trans ((h.index k' (some a)).mpr ⟨a, v, rfl, hmem⟩)

/-- What becomes of the memory elsewhere does not matter. -/
theorem congr (h : Filed entry map ps) {entry' : Nat → Option (Nat × V)}
    (same : ∀ p ∈ ps, entry' p.1 = entry p.1) : Filed entry' map ps :=
  ⟨fun p hp => (same p hp).trans (h.entry p hp), h.index, h.count⟩

theorem update_other (h : Filed entry map ps) {x : Nat} (hx : x ∉ ps.map Prod.fst)
    (e : Option (Nat × V)) : Filed (update entry x e) map ps :=
  h.congr fun _ hp => update_of_ne (ne_of_mem_of_not_mem (List.mem_map_of_mem hp) hx) _ _

/-- The entry at `(a, k)`, put first. -/
theorem get_mid (h : Filed entry map (as ++ (a, k, v) :: bs)) :
    entry a = some (k, v) ∧ map.get k = some (some a) :=
  ⟨h.entry (a, k, v) (by simp), (h.index k (some a)).mpr ⟨a, v, rfl, by simp⟩⟩

theorem replace (h : Filed entry map (as ++ (a, k, v) :: bs))
    (nodup : ((as ++ (a, k, v) :: bs).map Prod.fst).Nodup) (value : V) :
    Filed (update entry a (some (k, value))) map (as ++ (a, k, value) :: bs) := by
  have hperm : (as ++ (a, k, v) :: bs).Perm ((a, k, v) :: (as ++ bs)) := List.perm_middle
  have ha : a ∉ (as ++ bs).map Prod.fst :=
    (List.nodup_cons.mp ((hperm.map Prod.fst).nodup_iff.mp nodup)).1
  obtain ⟨hentry, hindex, hcount⟩ := h.perm hperm
  suffices hfirst : Filed (update entry a (some (k, value))) map ((a, k, value) :: (as ++ bs)) from
    hfirst.perm List.perm_middle.symm
  refine ⟨?_, ?_, hcount⟩
  · intro p hp
    rcases List.mem_cons.mp hp with rfl | hp
    · rw [update_self]
    · rw [update_of_ne (ne_of_mem_of_not_mem (List.mem_map_of_mem hp) ha)]
      exact hentry p (List.mem_cons_of_mem _ hp)
  · intro k' q
    rw [hindex]
    constructor
    · rintro ⟨b, w, rfl, hmem⟩
      rcases List.mem_cons.mp hmem with he | hmem
      · cases he
        exact ⟨a, value, rfl, List.mem_cons_self⟩
      · exact ⟨b, w, rfl, List.mem_cons_of_mem _ hmem⟩
    · rintro ⟨b, w, rfl, hmem⟩
      rcases List.mem_cons.mp hmem with he | hmem
      · cases he
        exact ⟨a, v, rfl, List.mem_cons_self⟩
      · exact ⟨b, w, rfl, List.mem_cons_of_mem _ hmem⟩

theorem add (h : Filed entry map ps) (hnone : map.get k = .none) (ha : entry a = some (k, v)) :
    Filed entry (map.insert k (some a)) (ps ++ [(a, k, v)]) := by
  refine ⟨?_, ?_, ?_⟩
  · intro p hp
    rcases List.mem_append.mp hp with hp | hp
    · exact h.entry p hp
    · rw [List.mem_singleton.mp hp]
      exact ha
  · intro k' q
    rw [VecMap.get_insert]
    by_cases hk : k' = k
    · subst hk
      rw [update_self]
      constructor
      · rintro ⟨⟩
        exact ⟨a, v, rfl, by simp⟩
      · rintro ⟨b, w, rfl, hmem⟩
        rcases List.mem_append.mp hmem with hmem | hmem
        · have hkeys := List.mem_map_of_mem (f := Prod.snd) hmem
          exact absurd (List.mem_map_of_mem (f := Prod.fst) hkeys) (h.not_mem_keys hnone)
        · cases List.mem_singleton.mp hmem
          rfl
    · rw [update_of_ne hk, h.index]
      simp [hk]
  · rw [VecMap.n_insert hnone, h.count, List.length_append]
    rfl

theorem erase (h : Filed entry map (as ++ (a, k, v) :: bs))
    (nodup : ((as ++ (a, k, v) :: bs).map Prod.fst).Nodup) :
    Filed entry (map.remove k) (as ++ bs) := by
  have hperm : (as ++ (a, k, v) :: bs).Perm ((a, k, v) :: (as ++ bs)) := List.perm_middle
  have ha : a ∉ (as ++ bs).map Prod.fst :=
    (List.nodup_cons.mp ((hperm.map Prod.fst).nodup_iff.mp nodup)).1
  obtain ⟨_, hk⟩ := h.get_mid
  obtain ⟨hentry, hindex, hcount⟩ := h.perm hperm
  refine ⟨fun p hp => hentry p (List.mem_cons_of_mem _ hp), ?_, ?_⟩
  · intro k' q
    rw [VecMap.get_remove]
    by_cases hk' : k' = k
    · subst hk'
      rw [update_self]
      constructor
      · rintro ⟨⟩
      · rintro ⟨b, w, rfl, hmem⟩
        -- a second node under the key would be the same node
        have hb := (hindex k' (some b)).mpr ⟨b, w, rfl, List.mem_cons_of_mem _ hmem⟩
        cases hk.symm.trans hb
        exact absurd (List.mem_map_of_mem (f := Prod.fst) hmem) ha
    · rw [update_of_ne hk', hindex]
      simp [hk']
  · rw [VecMap.n_remove (by rw [hk]; rfl), hcount]
    rfl

end Filed
section Moves
variable {m : LinkedVecMap V} {g x : Nat} {free : Ptr} {nodes frees before after : List Nat}

theorem detach_spec (h : Shape (links m.heap) g free (before ++ x :: after) frees) :
    ∃ heap, m.detach (some x) = .ok { m with heap } ∧
      Shape (links heap) g free (before ++ after) frees ∧
      (links heap).live = (links m.heap).live ∧ contents heap = contents m.heap := by
  obtain ⟨n, p, hn, hp, hnmem, hpmem⟩ := h.ring.neighbours
  have hlive : ∀ a ∈ g :: (before ++ after), (links m.heap).live a = true := by
    intro a ha
    apply h.live a
    simp only [List.mem_cons, List.mem_append] at ha ⊢
    tauto
  have hpx : x ≠ p := by
    rintro rfl
    exact h.not_mem_others (List.mem_append_left frees hpmem)
  have hxlive : (links m.heap).live x = true := h.live x (by simp)
  obtain ⟨node, hderef, hnext, hprev⟩ := deref_spec hxlive
  obtain ⟨heap₁, hset₁, hlinks₁, hcontents₁⟩ := setNext_spec (hlive p hpmem) (some n)
  obtain ⟨node₁, hderef₁, hnext₁, hprev₁⟩ : ∃ n', deref heap₁ (some x) = .ok n' ∧
      n'.next = some n ∧ n'.prev = some p := by
    have hxlive₁ : (links heap₁).live x = true := by
      rw [hlinks₁]
      exact hxlive
    obtain ⟨n', hok, hnext', hprev'⟩ := deref_spec hxlive₁
    rw [hlinks₁] at hnext' hprev'
    exact ⟨n', hok, hnext'.trans ((update_of_ne hpx ..).trans hn), hprev'.trans hp⟩
  have hnlive₁ : (links heap₁).live n = true := by
    rw [hlinks₁]
    exact hlive n hnmem
  obtain ⟨heap₂, hset₂, hlinks₂, hcontents₂⟩ := setPrev_spec hnlive₁ (some p)
  rw [hlinks₁] at hlinks₂
  refine ⟨heap₂, ?_, ?_, ?_, hcontents₂.trans hcontents₁⟩
  · simp only [LinkedVecMap.detach, hderef, ok_bind, hnext, hprev, hn, hp, hset₁, hderef₁, hnext₁,
      hprev₁, hset₂, except_pure]
  · rw [hlinks₂]
    exact h.unlink hp hn
  · rw [hlinks₂]

theorem attach_spec (hg : m.head = some g) (h : Shape (links m.heap) g free nodes frees)
    (hx : x ∉ g :: (nodes ++ frees)) (hxlive : (links m.heap).live x = true) :
    ∃ heap, m.attach (some x) = .ok { m with heap } ∧
      Shape (links heap) g free (nodes ++ [x]) frees ∧ contents heap = contents m.heap := by
  have hglive : (links m.heap).live g = true := h.live g List.mem_cons_self
  have hgx : g ≠ x := fun he => hx (he ▸ List.mem_cons_self)
  obtain ⟨n, hnmem, hn⟩ := h.ring.prev_mem (a := g) List.mem_cons_self
  have hnlive : (links m.heap).live n = true := by
    apply h.live n
    simp only [List.mem_cons, List.mem_append] at hnmem ⊢
    tauto
  obtain ⟨guard, hderef, hnext, _⟩ := deref_spec hglive
  obtain ⟨heap₁, hset₁, hlinks₁, hcontents₁⟩ := setNext_spec hxlive (some n)
  -- no cell comes or goes on the way
  have hlive₁ : (links heap₁).live = (links m.heap).live := by rw [hlinks₁]
  obtain ⟨heap₂, hset₂, hlinks₂, hcontents₂⟩ :=
    setPrev_spec ((congrFun hlive₁ x).trans hxlive) (some g)
  rw [hlinks₁] at hlinks₂
  have hlive₂ : (links heap₂).live = (links m.heap).live := by rw [hlinks₂]
  obtain ⟨heap₃, hset₃, hlinks₃, hcontents₃⟩ :=
    setNext_spec ((congrFun hlive₂ g).trans hglive) (some x)
  rw [hlinks₂] at hlinks₃
  have hlive₃ : (links heap₃).live = (links m.heap).live := by rw [hlinks₃]
  obtain ⟨node, hderef₃, hnext₃⟩ : ∃ n', deref heap₃ (some x) = .ok n' ∧ n'.next = some n := by
    obtain ⟨n', hok, hnext', _⟩ := deref_spec ((congrFun hlive₃ x).trans hxlive)
    rw [hlinks₃] at hnext'
    exact ⟨n', hok, hnext'.trans ((update_of_ne (Ne.symm hgx) ..).trans (update_self ..))⟩
  obtain ⟨heap₄, hset₄, hlinks₄, hcontents₄⟩ :=
    setPrev_spec ((congrFun hlive₃ n).trans hnlive) (some x)
  rw [hlinks₃] at hlinks₄
  refine ⟨heap₄, ?_, ?_, ?_⟩
  · simp only [LinkedVecMap.attach, hg, hderef, ok_bind, hnext, hn, hset₁, hset₂, hset₃, hderef₃,
      hnext₃, hset₄, except_pure]
  · rw [hlinks₄]
    exact h.link hx hxlive hn
  · rw [hcontents₄, hcontents₃, hcontents₂, hcontents₁]

/-- `detach` and then `attach` make a node the newest. -/
theorem refresh_spec (hg : m.head = some g)
    (h : Shape (links m.heap) g free (before ++ x :: after) frees) :
    ∃ heap₁ heap₂, m.detach (some x) = .ok { m with heap := heap₁ } ∧
      { m with heap := heap₁ }.attach (some x) = .ok { m with heap := heap₂ } ∧
      Shape (links heap₂) g free (before ++ after ++ [x]) frees ∧
      contents heap₂ = contents m.heap := by
  obtain ⟨heap₁, hdetach, hshape₁, hlive₁, hcontents₁⟩ := detach_spec h
  have hxlive : (links heap₁).live x = true := by
    rw [hlive₁]
    exact h.live x (by simp)
  obtain ⟨heap₂, hattach, hshape₂, hcontents₂⟩ :=
    attach_spec (m := { m with heap := heap₁ }) hg hshape₁ h.not_mem_others hxlive
  exact ⟨heap₁, heap₂, hdetach, hattach, hshape₂, hcontents₂.trans hcontents₁⟩

end Moves
end Pointers
end GridServer
