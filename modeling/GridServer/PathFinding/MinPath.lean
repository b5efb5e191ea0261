import GridServer.Library.VisitOrder
import GridServer.Shared.BitArray
import GridServer.TaskManager.Reducer
import Mathlib.Order.Interval.Finset.Nat

namespace GridServer.PathFinding
open Library Library.VisitOrder TaskManager

/-- What the recursion of `min_path` works on. -/
structure State where
  dist : List (List UInt32)
  memo : List (MultilevelVecMap Distance)

/-- The loop over the vertices of a mask, of which each is left to the recursion `minPath`. -/
def State.tryAll (checks : Bool)
    (minPath : State → Nat → BitSet → Except Fault (Distance × State)) (i : Nat) (mask : BitSet) :
    List Nat → State → Distance → Except Fault (Distance × State)
  | [], s, res => .ok (res, s)
  | j :: js, s, res => do
    let others ← mask.exclude checks j
    let (rest, s) ← minPath s j others
    match s.dist[i]?.bind fun row => row[j]? with
    | none => .error .indexOutOfBounds
    | some leg =>
      let path ← u64Add checks rest leg.toNat
      tryAll checks minPath i mask js s (if path < res then path else res)

/-- The first argument bounds the depth of the recursion. -/
def State.minPath (checks : Bool) : Nat → State → Nat → BitSet → Except Fault (Distance × State)
  | 0, _, _, _ => .error .diverged
  | depth + 1, s, i, mask =>
    if mask.isEmpty then .ok (0, s)
    else
      match s.memo[i]? with
      | none => .error .indexOutOfBounds
      | some table => do
        match ← table.get mask.inner with
        | some x => return (x, s)
        | none =>
          let (res, s) ← s.tryAll checks (minPath checks depth) i mask mask.iter distanceMax
          match s.memo[i]? with
          | none => .error .indexOutOfBounds
          | some table =>
            let (table, _) ← table.insert checks mask.inner res
            return (res, { s with memo := s.memo.set i table })

/-- Every vertex is excluded from the mask on the way down, so no recursion is deeper than there are
vertices. -/
def minPath (checks : Bool) (graph : List (List UInt32)) : Except Fault Distance := do
  let table ← MultilevelVecMap.new checks 2
  let mask ← BitSet.init 2 true graph.length
  let mask ← mask.exclude checks 0
  let (min, _) ← State.minPath checks (graph.length + 1)
    ⟨graph, List.replicate graph.length table⟩ 0 mask
  return min

/-- The entry of the matrix. -/
def leg (graph : List (List UInt32)) (i j : Nat) : ℕ :=
  match graph[i]?.bind fun row => row[j]? with
  | some x => x.toNat
  | none => 0

/-- What is in the memo is right. -/
structure Sound (graph : List (List UInt32)) (s : State) : Prop where
  dist : s.dist = graph
  length : s.memo.length = graph.length
  shaped : ∀ table ∈ s.memo, table.Shaped ∧ table.levelsIdx = 1
  found : ∀ i table, s.memo[i]? = some table → ∀ words : Words, words.length = 2 →
    ∀ d, table.find words = some d → IsShortest (leg graph) i words.members d

/-- A mask of two words for a set of vertices, of which the first is none. -/
structure Masks (checks : Bool) (graph : List (List UInt32)) (mask : BitSet)
    (set : Finset ℕ) : Prop where
  represents : mask.Represents checks set
  words : mask.inner.length = 2
  vertices : set ⊆ Finset.Ico 1 graph.length

section
variable {checks : Bool} {graph : List (List UInt32)} {s : State} {i j depth : Nat} {mask : BitSet}
  {set : Finset ℕ} {words words' : Words}

theorem leg_le (graph : List (List UInt32)) (i j : Nat) : leg graph i j ≤ 2 ^ 32 - 1 := by
  unfold leg
  split
  · rename_i x _
    exact Nat.le_sub_one_of_lt x.toNat_lt
  · exact Nat.zero_le _

/-- Two words that are padded alike are the same. -/
theorem padded_two (h : words.length = 2) (h' : words'.length = 2)
    (same : Entry.padded 1 words = Entry.padded 1 words') : words = words' := by
  obtain ⟨a, b, rfl⟩ := List.length_eq_two.mp h
  obtain ⟨a', b', rfl⟩ := List.length_eq_two.mp h'
  simp only [Entry.padded, Entry.index, List.headD_cons, List.tail_cons, List.cons.injEq,
    BitVec.toNat_inj] at same
  rw [same.1, same.2.1]

/-- A word that misses a bit is not the last. -/
theorem toNat_succ_lt {word : BitVec 64} {k : Nat} (hk : k < 64) (h : word.getLsbD k = false) :
    word.toNat + 1 < 2 ^ 64 := by
  by_contra hlast
  have hlt := word.isLt
  have hall : word = BitVec.allOnes 64 := by
    apply BitVec.eq_of_toNat_eq
    rw [BitVec.toNat_allOnes]
    omega
  rw [hall, BitVec.getLsbD_allOnes, decide_eq_false_iff_not] at h
  exact h hk

theorem Masks.card (m : Masks checks graph mask set) (few : graph.length ≤ 127) :
    set.card ≤ 126 := by
  have hle := Finset.card_le_card m.vertices
  rw [Nat.card_Ico] at hle
  omega

/-- There is room for a mask in every table: it has neither vertex 0 nor vertex 127. -/
theorem Masks.roomy (m : Masks checks graph mask set) (few : graph.length ≤ 127)
    {table : MultilevelVecMap Distance} (levels : table.levelsIdx = 1) :
    table.Roomy mask.inner := by
  have hfirst : mask.inner.bit 0 = false := by
    rw [m.represents.bits, decide_eq_false_iff_not]
    intro h
    have hpos := Finset.mem_Ico.mp (m.vertices h)
    omega
  have hlast : mask.inner.bit 127 = false := by
    rw [m.represents.bits, decide_eq_false_iff_not]
    intro h
    have hlt := Finset.mem_Ico.mp (m.vertices h)
    omega
  obtain ⟨a, b, hwords⟩ := List.length_eq_two.mp m.words
  rw [hwords] at hfirst hlast
  rw [MultilevelVecMap.Roomy, levels, hwords]
  refine .of_padded ?_
  intro idx hidx
  simp only [Entry.padded, Entry.index, List.headD_cons, List.tail_cons, List.mem_cons,
    List.not_mem_nil, or_false] at hidx
  rcases hidx with rfl | rfl
  · exact toNat_succ_lt (by decide) hfirst
  · exact toNat_succ_lt (by decide) hlast

theorem Masks.exclude (m : Masks checks graph mask set) (j : Nat) :
    ∃ others, mask.exclude checks j = .ok others ∧ Masks checks graph others (set.erase j) := by
  obtain ⟨others, hexclude, hrepresents, hlength⟩ := m.represents.exclude j
  exact ⟨others, hexclude, hrepresents, hlength.trans m.words,
    (Finset.erase_subset j set).trans m.vertices⟩

/-- The recursion gives the shortest way for a smaller set, and leaves a memo that is right. -/
def Finds (checks : Bool) (graph : List (List UInt32))
    (minPath : State → Nat → BitSet → Except Fault (Distance × State)) (set : Finset ℕ) : Prop :=
  ∀ s i mask, Sound graph s → i < graph.length → Masks checks graph mask set →
    ∃ d t, minPath s i mask = .ok (d, t) ∧ Sound graph t ∧ IsShortest (leg graph) i set d

theorem leg_eq (rows : ∀ row ∈ graph, row.length = graph.length) (hi : i < graph.length)
    (hj : j < graph.length) :
    ∃ x, graph[i]?.bind (fun row => row[j]?) = some x ∧ leg graph i j = x.toNat := by
  obtain ⟨row, hrow⟩ : ∃ row, graph[i]? = some row := ⟨_, List.getElem?_eq_getElem hi⟩
  have hlength := rows row (List.mem_of_getElem? hrow)
  obtain ⟨x, hx⟩ : ∃ x, row[j]? = some x := ⟨_, List.getElem?_eq_getElem (hlength ▸ hj)⟩
  have hentry : graph[i]?.bind (fun row => row[j]?) = some x := by rw [hrow, Option.bind_some, hx]
  exact ⟨x, hentry, by rw [leg, hentry]⟩

/-- No way over so few vertices is longer than a `u64` holds. -/
theorem path_lt {d : ℕ} (h : IsShortest (leg graph) j (set.erase i) d) (few : set.card ≤ 126)
    (k l : Nat) : leg graph k l + d < distanceMax := by
  have hle := h.le (w := 2 ^ 32 - 1) (leg_le graph)
  have hfirst := leg_le graph k l
  have hcard : (set.erase i).card ≤ 126 := (Finset.card_erase_le).trans few
  have hbound := hle.trans (Nat.mul_le_mul_right (2 ^ 32 - 1) hcard)
  rw [distanceMax]
  omega

/-- The loop finds the best of the vertices that it tries first. -/
theorem tryAll_ok {minPath : State → Nat → BitSet → Except Fault (Distance × State)}
    (rows : ∀ row ∈ graph, row.length = graph.length) (few : graph.length ≤ 127)
    (hi : i < graph.length) (masks : Masks checks graph mask set)
    (finds : ∀ j ∈ set, Finds checks graph minPath (set.erase j)) {js : List Nat}
    (hjs : ∀ j ∈ js, j ∈ set) (sound : Sound graph s) (res : ℕ) :
    ∃ (best : ℕ) (t : State), s.tryAll checks minPath i mask js res = .ok (best, t) ∧
      Sound graph t ∧ best ≤ res ∧
      (∀ j ∈ js, ∃ b, IsShortest (leg graph) j (set.erase j) b ∧ best ≤ leg graph i j + b) ∧
      (best = res ∨ ∃ j ∈ js, ∃ b, IsShortest (leg graph) j (set.erase j) b ∧
        best = leg graph i j + b) := by
  induction js generalizing s res with
  | nil =>
    refine ⟨res, s, rfl, sound, Nat.le_refl _, ?_, .inl rfl⟩
    exact fun j hj => absurd hj List.not_mem_nil
  | cons j js ih =>
    have hj := hjs j List.mem_cons_self
    have hlt : j < graph.length := (Finset.mem_Ico.mp (masks.vertices hj)).2
    obtain ⟨others, hexclude, hothers⟩ := masks.exclude j
    obtain ⟨b, t, hcall, hsound, hshortest⟩ := finds j hj s j others sound hlt hothers
    obtain ⟨x, hentry, hleg⟩ := leg_eq rows hi hlt
    have hfits := path_lt hshortest (masks.card few) i j
    rw [hleg, distanceMax] at hfits
    have hadd : u64Add checks b x.toNat = .ok (leg graph i j + b) := by
      rw [hleg, Nat.add_comm x.toNat b]
      exact addBits_of_lt (by omega) checks
    obtain ⟨best, u, htry, husound, hle, hbound, hattained⟩ :=
      ih (fun k hk => hjs k (List.mem_cons_of_mem _ hk)) hsound
        (if leg graph i j + b < res then leg graph i j + b else res)
    have hboth : best ≤ res ∧ best ≤ leg graph i j + b := by
      split at hle
      · omega
      · omega
    refine ⟨best, u, ?_, husound, hboth.1, ?_, ?_⟩
    · rw [← hsound.dist] at hentry
      simp only [State.tryAll, hexclude, ok_bind, hcall, hentry, hadd, htry]
    · intro k hk
      rcases List.mem_cons.mp hk with rfl | hk
      · exact ⟨b, hshortest, hboth.2⟩
      · exact hbound k hk
    · rcases hattained with hres | ⟨k, hk, c, hc, hbest⟩
      · split at hres
        · exact .inr ⟨j, List.mem_cons_self, b, hshortest, hres⟩
        · exact .inl hres
      · exact .inr ⟨k, List.mem_cons_of_mem _ hk, c, hc, hbest⟩

/-- What is added to a table of a memo that is right is right. -/
theorem Sound.insert (sound : Sound graph s) (few : graph.length ≤ 127) (hi : i < graph.length)
    (masks : Masks checks graph mask set) {d : Distance}
    (shortest : IsShortest (leg graph) i set d) :
    ∃ table after old, s.memo[i]? = some table ∧
      table.insert checks mask.inner d = .ok (after, old) ∧
      Sound graph { s with memo := s.memo.set i after } := by
  have hlt : i < s.memo.length := sound.length ▸ hi
  obtain ⟨table, htable⟩ : ∃ table, s.memo[i]? = some table := ⟨_, List.getElem?_eq_getElem hlt⟩
  obtain ⟨hshaped, hlevels⟩ := sound.shaped table (List.mem_of_getElem? htable)
  obtain ⟨after, hinsert, hshaped', hlevels', hfind⟩ := MultilevelVecMap.insert_ok checks hshaped
    (masks.roomy few hlevels)
    (by rw [hlevels, masks.words] : mask.inner.length ≤ table.levelsIdx + 1) d
  refine ⟨table, after, _, htable, hinsert, sound.dist, ?_, ?_, ?_⟩
  · rw [List.length_set, sound.length]
  · intro other hother
    rcases List.mem_or_eq_of_mem_set hother with hother | rfl
    · exact sound.shaped other hother
    · exact ⟨hshaped', hlevels'.trans hlevels⟩
  · intro k other hother words hwords c hc
    by_cases hsame : k = i
    · subst hsame
      rw [List.getElem?_set_self hlt, Option.some.injEq] at hother
      rw [← hother, hfind, hlevels] at hc
      split at hc
      · rename_i hpadded
        rw [padded_two hwords masks.words hpadded, masks.represents.members_eq,
          ← Option.some.inj hc]
        exact shortest
      · exact sound.found k table htable words hwords c hc
    · rw [List.getElem?_set_ne (Ne.symm hsame)] at hother
      exact sound.found k other hother words hwords c hc

/-- The recursion finds the shortest way, as deep as there are vertices in the set. -/
theorem minPath_finds (checks : Bool) (rows : ∀ row ∈ graph, row.length = graph.length)
    (few : graph.length ≤ 127) (hdepth : set.card < depth) :
    Finds checks graph (State.minPath checks depth) set := by
  induction depth generalizing set with
  | zero => omega
  | succ depth ih =>
    intro s i mask sound hi masks
    have hcard := masks.card few
    have hempty := masks.represents.isEmpty (by omega)
    by_cases hset : set = ∅
    · refine ⟨0, s, ?_, sound, hset ▸ isShortest_empty (leg graph) i⟩
      rw [State.minPath, if_pos (hempty.mpr hset)]
    · have hsome : set.Nonempty := Finset.nonempty_iff_ne_empty.mpr hset
      have hlt : i < s.memo.length := sound.length ▸ hi
      obtain ⟨table, htable⟩ : ∃ table, s.memo[i]? = some table :=
        ⟨_, List.getElem?_eq_getElem hlt⟩
      obtain ⟨hshaped, hlevels⟩ := sound.shaped table (List.mem_of_getElem? htable)
      have hget : table.get mask.inner = .ok (table.find mask.inner) :=
        MultilevelVecMap.get_eq hshaped (by rw [hlevels, masks.words])
      have hfilled : mask.isEmpty = false := Bool.eq_false_iff.mpr fun h => hset (hempty.mp h)
      cases hfind : table.find mask.inner with
      | some d =>
        have hfound := sound.found i table htable mask.inner masks.words d hfind
        rw [masks.represents.members_eq] at hfound
        refine ⟨d, s, ?_, sound, hfound⟩
        simp only [State.minPath, hfilled, Bool.false_eq_true, ↓reduceIte, htable, hget, hfind,
          ok_bind, except_pure]
      | none =>
        have hfinds : ∀ j ∈ set, Finds checks graph (State.minPath checks depth) (set.erase j) := by
          intro j hj
          refine ih ?_
          rw [Finset.card_erase_of_mem hj]
          have hpos := Finset.card_pos.mpr hsome
          omega
        obtain ⟨best, t, htry, htsound, _, hbound, hattained⟩ := tryAll_ok rows few hi masks hfinds
          (fun j hj => masks.represents.mem_iter.mp hj) sound distanceMax
        have hshortest : IsShortest (leg graph) i set best := by
          refine isShortest_of_first hsome ?_ ?_
          · exact fun j hj => hbound j (masks.represents.mem_iter.mpr hj)
          · rcases hattained with hmax | ⟨j, hj, hbest⟩
            · obtain ⟨j, hj⟩ := hsome
              obtain ⟨b, hb, hle⟩ := hbound j (masks.represents.mem_iter.mpr hj)
              have hsmall := path_lt hb hcard i j
              omega
            · exact ⟨j, masks.represents.mem_iter.mp hj, hbest⟩
        obtain ⟨table', after, old, htable', hinsert, hsound⟩ :=
          htsound.insert few hi masks hshortest
        refine ⟨best, _, ?_, hsound, hshortest⟩
        simp only [State.minPath, hfilled, Bool.false_eq_true, ↓reduceIte, htable, hget, hfind,
          ok_bind, htry, htable', hinsert, except_pure]

theorem minPath_ok (checks : Bool) (rows : ∀ row ∈ graph, row.length = graph.length)
    (some_vertex : 1 ≤ graph.length) (few : graph.length ≤ 127) :
    ∃ d, minPath checks graph = .ok d ∧
      IsShortest (leg graph) 0 (Finset.Ico 1 graph.length) d := by
  obtain ⟨table, hnew, hshaped, hlevels, hnone⟩ :=
    MultilevelVecMap.new_ok (T := Distance) checks 1
  obtain ⟨all, hinit, hlength, hall⟩ :=
    BitSet.init_ok (n := 2) checks (by omega : graph.length < 64 * 2) (by omega)
  obtain ⟨mask, hexclude, hmask, hlength'⟩ := hall.exclude 0
  have hset : (Finset.range graph.length).erase 0 = Finset.Ico 1 graph.length := by
    ext v
    rw [Finset.mem_erase, Finset.mem_range, Finset.mem_Ico]
    omega
  rw [hset] at hmask
  have masks : Masks checks graph mask (Finset.Ico 1 graph.length) :=
    ⟨hmask, hlength'.trans hlength, Finset.Subset.refl _⟩
  have sound : Sound graph ⟨graph, List.replicate graph.length table⟩ := by
    refine ⟨rfl, List.length_replicate .., ?_, ?_⟩
    · intro other hother
      rw [List.eq_of_mem_replicate hother]
      exact ⟨hshaped, hlevels⟩
    · intro i other hother words _ d hd
      rw [List.eq_of_mem_replicate (List.mem_of_getElem? hother), hnone] at hd
      cases hd
  have hdepth : (Finset.Ico 1 graph.length).card < graph.length + 1 := by
    rw [Nat.card_Ico]
    omega
  obtain ⟨d, t, hfound, _, hshortest⟩ :=
    minPath_finds checks rows few hdepth _ 0 mask sound some_vertex masks
  refine ⟨d, ?_, hshortest⟩
  rw [minPath, hnew, ok_bind, hinit, ok_bind, hexclude, ok_bind, hfound]
  rfl

theorem isOrder_range {n : Nat} {order : List Nat} :
    IsOrder order (Finset.Ico 1 (n + 1)) ↔ order.Perm (List.range' 1 n) := by
  refine isOrder_iff_perm List.nodup_range' ?_
  intro v
  rw [List.mem_range'_1, Finset.mem_Ico, Nat.add_comm 1 n]

/-- From the first of three vertices it is shorter to visit the third before the second. -/
def three : List (List UInt32) := [[0, 7, 2], [9, 0, 4], [1, 3, 5]]

example : minPath true three = .ok 5 := by decide +kernel

end
end GridServer.PathFinding
