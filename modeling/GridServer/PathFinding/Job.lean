import GridServer.Library.Allotment
import GridServer.PathFinding.MinPath
import GridServer.PathFinding.Reduction

namespace GridServer.PathFinding
open Library Library.Allotment Library.ShortestPath Library.VisitOrder TaskManager

/-- `graph[i][j]`. -/
def distanceAt (graph : List (List UInt32)) (i j : Nat) : Except Fault UInt32 :=
  match graph[i]?.bind fun row => row[j]? with
  | none => .error .indexOutOfBounds
  | some x => .ok x

/-- How far it is to a passenger's start and on to the end. -/
def via (checks : Bool) (graph : List (List UInt32)) (place : Nat) (passenger : Nat × Nat) :
    Except Fault UInt32 := do
  let toStart ← distanceAt graph place passenger.1
  let toEnd ← distanceAt graph passenger.1 passenger.2
  u32Add checks toStart toEnd

/-- `job_data.passengers[x]`. -/
def passengerAt (data : JobData) (x : Nat) : Except Fault (Nat × Nat) :=
  match data.passengers[x]? with
  | none => .error .indexOutOfBounds
  | some passenger => .ok passenger

/-- What is computed for a passenger: an entry of the taxi's row, and a row. -/
def transformRow (checks : Bool) (graph : List (List UInt32)) (taxi : Nat)
    (passengers : List (Nat × Nat)) (passenger : Nat × Nat) :
    Except Fault (UInt32 × List UInt32) := do
  let first ← via checks graph taxi passenger
  let row ← passengers.mapM (via checks graph passenger.2)
  return (first, u32Max :: row)

def transformGraph (checks : Bool) (data : JobData) (taxi : Nat) (passengers : BitSet) :
    Except Fault (List (List UInt32)) := do
  let passengers ← passengers.iter.mapM (passengerAt data)
  match data.taxies[taxi]? with
  | none => .error .indexOutOfBounds
  | some taxi =>
    let rows ← passengers.mapM (transformRow checks data.graph taxi passengers)
    return (0 :: rows.map Prod.fst) :: rows.map Prod.snd

/-- What `job` finds out for one set of passengers. -/
def measure (checks : Bool) (data : JobData) (taxi combination : Nat) :
    Except Fault (Nat × Distance) := do
  let passengers := BitSet.ofWords (split combination)
  let graph ← transformGraph checks data taxi passengers
  let minPath ← minPath checks graph
  return (combination, minPath)

/-- `job`, between decoding its arguments and encoding its result. -/
def job (checks : Bool) (data : JobData) (task : TaskData) : Except Fault TaskResult := do
  let data ← reduceGraph checks data
  let first ← measure checks data task.taxi task.combinations.1
  let second ← measure checks data task.taxi task.combinations.2
  return ⟨task.taxi, (first, second)⟩

/-- A passenger's start and end. -/
def rider (data : JobData) (k : Nat) : Nat × Nat := data.passengers.getD k (0, 0)

/-- How far it is from a place to a passenger's start and on to the end. -/
def leap (graph : List (List UInt32)) (place : Nat) (passenger : Nat × Nat) : ℕ :=
  leg graph place passenger.1 + leg graph passenger.1 passenger.2

/-- How far it is from a place over all passengers. -/
def total (graph : List (List UInt32)) : Nat → List (Nat × Nat) → ℕ
  | _, [] => 0
  | place, passenger :: rest => leap graph place passenger + total graph passenger.2 rest

/-- All sums that are formed for a taxi and some passengers are `u32`s. -/
structure Adds (graph : List (List UInt32)) (place : Nat) (passengers : List (Nat × Nat)) :
    Prop where
  first : ∀ p ∈ passengers, leap graph place p < 2 ^ 32
  next : ∀ p ∈ passengers, ∀ q ∈ passengers, leap graph p.2 q < 2 ^ 32

/-- The matrix that a search for the shortest order works on. -/
def joined (graph : List (List UInt32)) (place : Nat) (passengers : List (Nat × Nat)) :
    List (List UInt32) :=
  (0 :: passengers.map fun p => UInt32.ofNat (leap graph place p)) ::
    passengers.map fun p => u32Max :: passengers.map fun q => UInt32.ofNat (leap graph p.2 q)

/-- A taxi and some passengers whose places the graph has. -/
structure Placed (graph : List (List UInt32)) (place : Nat) (passengers : List (Nat × Nat)) :
    Prop where
  rows : ∀ row ∈ graph, row.length = graph.length
  place : place < graph.length
  stops : ∀ p ∈ passengers, p.1 < graph.length ∧ p.2 < graph.length

section
variable {checks : Bool} {graph : List (List UInt32)} {data : JobData} {place taxi n : Nat}
  {p : Nat × Nat} {passengers : List (Nat × Nat)} {set : Finset ℕ} {mask : BitSet}

theorem distanceAt_ok (rows : ∀ row ∈ graph, row.length = graph.length) {i j : Nat}
    (hi : i < graph.length) (hj : j < graph.length) :
    ∃ x, distanceAt graph i j = .ok x ∧ x.toNat = leg graph i j := by
  obtain ⟨x, hx, hleg⟩ := leg_eq rows hi hj
  exact ⟨x, by rw [distanceAt, hx], hleg.symm⟩

/-- A sum is formed if it is a `u32`, and in a build with overflow checks only then. -/
theorem via_ok (checks : Bool) (rows : ∀ row ∈ graph, row.length = graph.length)
    (hplace : place < graph.length) (hstart : p.1 < graph.length) (hstop : p.2 < graph.length)
    (fits : leap graph place p < 2 ^ 32) :
    via checks graph place p = .ok (UInt32.ofNat (leap graph place p)) := by
  obtain ⟨a, ha, ha'⟩ := distanceAt_ok rows hplace hstart
  obtain ⟨b, hb, hb'⟩ := distanceAt_ok rows hstart hstop
  rw [leap, ← ha', ← hb'] at fits ⊢
  rw [via, ha, ok_bind, hb, ok_bind, u32Add, addBits_of_lt fits]
  rfl

theorem leap_lt (rows : ∀ row ∈ graph, row.length = graph.length)
    (hplace : place < graph.length) (hstart : p.1 < graph.length) (hstop : p.2 < graph.length)
    (h : Succeeds (via true graph place p)) : leap graph place p < 2 ^ 32 := by
  obtain ⟨a, ha, ha'⟩ := distanceAt_ok rows hplace hstart
  obtain ⟨b, hb, hb'⟩ := distanceAt_ok rows hstart hstop
  obtain ⟨c, h⟩ := h
  rw [via, ha, ok_bind, hb, ok_bind, u32Add] at h
  obtain ⟨sum, hsum, _⟩ := bind_ok.mp h
  rw [leap, ← ha', ← hb']
  exact addBits_lt hsum

theorem riders_ok {ks : List Nat} (h : ∀ k ∈ ks, k < data.passengers.length) :
    ks.mapM (passengerAt data) = .ok (ks.map (rider data)) := by
  refine mapM_ok ?_
  intro k hk
  rw [passengerAt, List.getElem?_eq_getElem (h k hk), rider, List.getD_eq_getElem _ _ (h k hk)]

theorem transformRows_ok (checks : Bool) (placed : Placed graph place passengers)
    (adds : Adds graph place passengers) :
    passengers.mapM (transformRow checks graph place passengers) =
      .ok (passengers.map fun p => (UInt32.ofNat (leap graph place p),
        u32Max :: passengers.map fun q => UInt32.ofNat (leap graph p.2 q))) := by
  refine mapM_ok ?_
  intro p hp
  have hrow := mapM_ok fun q hq => via_ok checks placed.rows (placed.stops p hp).2
    (placed.stops q hq).1 (placed.stops q hq).2 (adds.next p hp q hq)
  rw [transformRow, via_ok checks placed.rows placed.place (placed.stops p hp).1
    (placed.stops p hp).2 (adds.first p hp), ok_bind, hrow, ok_bind]
  rfl

/-- The matrix of a set of passengers, when all sums are `u32`s. -/
theorem transformGraph_ok (checks : Bool) (htaxi : data.taxies[taxi]? = some place)
    (hmask : ∀ k ∈ mask.iter, k < data.passengers.length)
    (placed : Placed data.graph place (mask.iter.map (rider data)))
    (adds : Adds data.graph place (mask.iter.map (rider data))) :
    transformGraph checks data taxi mask =
      .ok (joined data.graph place (mask.iter.map (rider data))) := by
  rw [transformGraph, riders_ok hmask, ok_bind, htaxi]
  generalize mask.iter.map (rider data) = passengers at placed adds
  dsimp only
  rw [transformRows_ok checks placed adds, ok_bind, joined, List.map_map, List.map_map]
  rfl

/-- A build with overflow checks succeeds only then. -/
theorem transformGraph_adds (data : JobData) (htaxi : data.taxies[taxi]? = some place)
    (hmask : ∀ k ∈ mask.iter, k < data.passengers.length)
    (placed : Placed data.graph place (mask.iter.map (rider data)))
    (h : Succeeds (transformGraph true data taxi mask)) :
    Adds data.graph place (mask.iter.map (rider data)) := by
  obtain ⟨matrix, h⟩ := h
  rw [transformGraph, riders_ok hmask, ok_bind, htaxi] at h
  obtain ⟨rows, hrows, _⟩ := bind_ok.mp h
  have hall := Succeeds.of_mapM ⟨rows, hrows⟩
  refine ⟨?_, ?_⟩
  · intro p hp
    obtain ⟨pair, hpair⟩ := hall p hp
    obtain ⟨first, hfirst, _⟩ := bind_ok.mp hpair
    exact leap_lt placed.rows placed.place (placed.stops p hp).1 (placed.stops p hp).2
      ⟨first, hfirst⟩
  · intro p hp q hq
    obtain ⟨pair, hpair⟩ := hall p hp
    obtain ⟨first, _, hpair⟩ := bind_ok.mp hpair
    obtain ⟨row, hrow, _⟩ := bind_ok.mp hpair
    exact leap_lt placed.rows (placed.stops p hp).2 (placed.stops q hq).1 (placed.stops q hq).2
      (Succeeds.of_mapM ⟨row, hrow⟩ q hq)

theorem joined_length : (joined graph place passengers).length = passengers.length + 1 := by
  simp [joined]

theorem joined_rows : ∀ row ∈ joined graph place passengers,
    row.length = (joined graph place passengers).length := by
  intro row hrow
  rw [joined_length]
  rcases List.mem_cons.mp hrow with rfl | hrow
  · simp
  · obtain ⟨p, _, rfl⟩ := List.mem_map.mp hrow
    simp

/-- The passenger of a vertex of the matrix. -/
def passengerOf (passengers : List (Nat × Nat)) (j : Nat) : Nat × Nat :=
  passengers.getD (j - 1) (0, 0)

/-- Where a vertex of the matrix leaves off: the taxi's place or a passenger's end. -/
def placeOf (place : Nat) (passengers : List (Nat × Nat)) (i : Nat) : Nat :=
  if i = 0 then place else (passengerOf passengers i).2

theorem leg_joined (adds : Adds graph place passengers) {i j : Nat} (hi : i ≤ passengers.length)
    (hj : 1 ≤ j) (hlast : j ≤ passengers.length) :
    leg (joined graph place passengers) i j =
      leap graph (placeOf place passengers i) (passengerOf passengers j) := by
  obtain ⟨j, rfl⟩ : ∃ k, j = k + 1 := ⟨j - 1, by omega⟩
  have hlt : j < passengers.length := by omega
  have hpassenger : passengerOf passengers (j + 1) = passengers[j] := by
    rw [passengerOf, Nat.add_sub_cancel, List.getD_eq_getElem _ _ hlt]
  rw [hpassenger]
  cases i with
  | zero =>
    have hadd := adds.first _ (List.getElem_mem hlt)
    simp [leg, joined, placeOf, hlt]
    omega
  | succ i =>
    have hlt' : i < passengers.length := by omega
    have hadd := adds.next _ (List.getElem_mem hlt') _ (List.getElem_mem hlt)
    have hplace : placeOf place passengers (i + 1) = passengers[i].2 := by
      rw [placeOf, if_neg (Nat.add_one_ne_zero i), passengerOf, Nat.add_sub_cancel,
        List.getD_eq_getElem _ _ hlt']
    rw [hplace]
    simp [leg, joined, hlt, hlt']
    omega

/-- The length of an order of the matrix's vertices is that of the way over their passengers. -/
theorem length_joined (adds : Adds graph place passengers) {order : List Nat} {i : Nat}
    (hi : i ≤ passengers.length) (horder : ∀ j ∈ order, 1 ≤ j ∧ j ≤ passengers.length) :
    length (leg (joined graph place passengers)) i order =
      total graph (placeOf place passengers i) (order.map (passengerOf passengers)) := by
  induction order generalizing i with
  | nil => rfl
  | cons j order ih =>
    obtain ⟨hj, hlast⟩ := horder j List.mem_cons_self
    have hrest := ih hlast fun k hk => horder k (List.mem_cons_of_mem _ hk)
    have hplace : placeOf place passengers j = (passengerOf passengers j).2 :=
      if_neg (by omega)
    rw [length, leg_joined adds hi hj hlast, hrest, hplace]
    rfl

theorem map_passengerOf (passengers : List (Nat × Nat)) :
    (List.range' 1 passengers.length).map (passengerOf passengers) = passengers := by
  apply List.ext_getElem
  · simp
  · intro k _ hk
    simp [passengerOf, hk]

/-- What is found out for some passengers is the least length of the ways over them in any order. -/
theorem minPath_joined (checks : Bool) (adds : Adds graph place passengers)
    (few : passengers.length ≤ 126) :
    ∃ d, minPath checks (joined graph place passengers) = .ok d ∧
      IsLeast {c | ∃ order : List (Nat × Nat), order.Perm passengers ∧
        total graph place order = c} d := by
  have rows : ∀ row ∈ joined graph place passengers,
      row.length = (joined graph place passengers).length := joined_rows
  obtain ⟨d, hfound, hshortest⟩ := minPath_ok checks rows (by rw [joined_length]; omega)
    (by rw [joined_length]; omega)
  rw [joined_length] at hshortest
  have hlength : ∀ order : List Nat, order.Perm (List.range' 1 passengers.length) →
      length (leg (joined graph place passengers)) 0 order =
        total graph place (order.map (passengerOf passengers)) := by
    intro order horder
    refine length_joined adds (Nat.zero_le _) ?_
    intro j hj
    have hrange := List.mem_range'_1.mp (horder.mem_iff.mp hj)
    omega
  refine ⟨d, hfound, ?_, ?_⟩
  · obtain ⟨order, horder, hd⟩ := hshortest.1
    have hperm := isOrder_range.mp horder
    refine ⟨order.map (passengerOf passengers), ?_, by rw [← hlength order hperm, hd]⟩
    exact (hperm.map _).trans (.of_eq (map_passengerOf passengers))
  · intro c ⟨order, horder, hc⟩
    obtain ⟨positions, hpositions, rfl⟩ :=
      exists_map_of_perm (horder.trans (.of_eq (map_passengerOf passengers).symm))
    rw [← hc, ← hlength positions hpositions]
    exact hshortest.2 ⟨positions, isOrder_range.mpr hpositions, rfl⟩

/-- The passengers that the words of a combination stand for. -/
theorem mem_split {c k : Nat} (h : c < 2 ^ 128) :
    k ∈ (BitSet.ofWords (split c)).iter ↔ k ∈ members c := by
  rw [BitSet.mem_iter, Words.mem_members, mem_members, BitSet.ofWords, Words.bit, split]
  by_cases hfirst : k < 64
  · rw [Nat.div_eq_of_lt hfirst, Nat.mod_eq_of_lt hfirst, List.getD_cons_zero,
      BitVec.getLsbD_ofNat]
    simp [hfirst]
  · by_cases hsecond : k < 128
    · have hword : k / 64 = 1 := by omega
      have hbit : 64 + k % 64 = k := by omega
      rw [hword, List.getD_cons_succ, List.getD_cons_zero, BitVec.getLsbD_ofNat,
        Nat.testBit_shiftRight, hbit]
      simp [Nat.mod_lt]
    · have hword : 2 ≤ k / 64 := by omega
      rw [List.getD_eq_default _ _ (by simpa using hword)]
      have hclear : c.testBit k = false :=
        Nat.testBit_lt_two_pow (h.trans_le (Nat.pow_le_pow_right (by decide) (by omega)))
      simp [hclear]

/-- The passengers of a combination of some of the job's. -/
theorem lt_of_split {c k : Nat} (hc : c < 2 ^ data.passengers.length)
    (few : data.passengers.length ≤ 126) (h : k ∈ (BitSet.ofWords (split c)).iter) :
    k < data.passengers.length := by
  have hlt : c < 2 ^ 128 := hc.trans (Nat.pow_lt_pow_right (by decide) (by omega))
  rw [mem_split hlt, mem_members] at h
  by_contra hge
  have hclear := Nat.testBit_lt_two_pow
    (hc.trans_le (Nat.pow_le_pow_right (by decide) (Nat.le_of_not_lt hge)))
  rw [hclear] at h
  cases h

/-- A combination is reported with the least length of the ways over its passengers in any order. -/
theorem measure_ok (checks : Bool) (data : JobData) {c : Nat} (hc : c < 2 ^ data.passengers.length)
    (few : data.passengers.length ≤ 126) (htaxi : data.taxies[taxi]? = some place)
    (placed : Placed data.graph place ((BitSet.ofWords (split c)).iter.map (rider data)))
    (adds : Adds data.graph place ((BitSet.ofWords (split c)).iter.map (rider data))) :
    ∃ d, measure checks data taxi c = .ok (c, d) ∧
      IsLeast {t | ∃ order, IsOrder order (members c) ∧
        total data.graph place (order.map (rider data)) = t} d := by
  have hlt : c < 2 ^ 128 := hc.trans (Nat.pow_lt_pow_right (by decide) (by omega))
  have hnodup := (BitSet.ofWords (split c)).nodup_iter
  have hpassengers : ∀ k ∈ (BitSet.ofWords (split c)).iter, k < data.passengers.length :=
    fun k hk => lt_of_split hc few hk
  have hlength : ((BitSet.ofWords (split c)).iter.map (rider data)).length ≤ 126 := by
    rw [List.length_map]
    exact (length_le_of_lt hnodup hpassengers).trans few
  have hmatrix := transformGraph_ok checks htaxi hpassengers placed adds
  obtain ⟨d, hfound, hleast⟩ := minPath_joined checks adds hlength
  have horder : ∀ order, IsOrder order (members c) ↔
      order.Perm (BitSet.ofWords (split c)).iter :=
    fun order => isOrder_iff_perm hnodup fun k => mem_split hlt
  refine ⟨d, ?_, ?_, ?_⟩
  · rw [measure, hmatrix, ok_bind, hfound]
    rfl
  · obtain ⟨order, hperm, hd⟩ := hleast.1
    obtain ⟨ks, hks, rfl⟩ := exists_map_of_perm hperm
    exact ⟨ks, (horder ks).mpr hks, hd⟩
  · intro t ⟨order, hks, ht⟩
    exact hleast.2 ⟨order.map (rider data), ((horder order).mp hks).map _, ht⟩

end
end GridServer.PathFinding
