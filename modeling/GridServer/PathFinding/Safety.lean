import GridServer.PathFinding.Job

namespace GridServer.PathFinding
open Library Library.Allotment Library.ShortestPath Library.VisitOrder TaskManager

/-- The length of the best way from a place to each passenger's start and on to the end, for one
passenger after another. -/
inductive Route (graph : List (List UInt32)) : Nat → List (Nat × Nat) → ℕ → Prop where
  | nil (place : Nat) : Route graph place [] 0
  | cons {place start stop a b r : ℕ} {rest : List (Nat × Nat)}
      (toStart : IsDistance (Edge graph) place start a)
      (toEnd : IsDistance (Edge graph) start stop b) (onward : Route graph stop rest r) :
      Route graph place ((start, stop) :: rest) (a + b + r)

/-- A taxi can serve all passengers of a set in some order. -/
def Servable (data : JobData) (taxi : Nat) (set : Finset ℕ) : Prop :=
  ∃ place order r, data.taxies[taxi]? = some place ∧ IsOrder order set ∧
    Route data.graph place (order.map (rider data)) r

/-- Finite lengths fit: what the searches add up, and the routes of the taxis. -/
structure Fits (data : JobData) : Prop where
  vertices : data.graph.length < 2 ^ 64
  search : Reducible data.graph (stops data)
  routes : ∀ place ∈ data.taxies, ∀ order : List ℕ, order.Nodup →
    (∀ k ∈ order, k < data.passengers.length) →
      ∀ r, Route data.graph place (order.map (rider data)) r → r ≤ u32Max.toNat

/-- A passenger can be picked up from a place and brought to the end, or one of the two ways is of
length 0. -/
def Joins (graph : List (List UInt32)) (place : Nat) (p : Nat × Nat) : Prop :=
  ((∃ a, Walk (Edge graph) place p.1 a) ∧ ∃ b, Walk (Edge graph) p.1 p.2 b) ∨
    IsDistance (Edge graph) place p.1 0 ∨ IsDistance (Edge graph) p.1 p.2 0

/-- Every passenger of a set of the task can be brought from the taxi's place and from the end of
every passenger of that set. -/
def Drivable (data : JobData) (task : TaskData) : Prop :=
  ∀ place, data.taxies[task.taxi]? = some place → ∀ i,
    ∀ k ∈ members (task.combination i), Joins data.graph place (rider data k) ∧
      ∀ l ∈ members (task.combination i), Joins data.graph (rider data l).2 (rider data k)

/-- The splitter of the job emits the task. -/
def Emits (checks : Bool) (data : JobData) (task : TaskData) : Prop :=
  ∃ splitter items after id,
    TaskSplitter.new checks data.taxies.length data.passengers.length = .ok splitter ∧
      Yields (TaskSplitter.next checks) splitter items after ∧ (id, task) ∈ items

/-- No addition of a task's job leaves its type and no access is out of bounds, and a set that cannot
be served is not reported with a smaller distance than one that can. -/
structure Safe (checks : Bool) (data : JobData) : Prop where
  succeeds : ∀ task, Emits checks data task → Succeeds (job true data task)
  compare : ∀ task task', Emits checks data task → Emits checks data task' →
    ∀ build result result', job build data task = .ok result →
      job build data task' = .ok result' → ∀ i i',
        ¬Servable data task.taxi (members (task.combination i)) →
          Servable data task'.taxi (members (task'.combination i')) →
            result'.distance i' ≤ result.distance i

section
variable {checks : Bool} {graph : List (List UInt32)} {data : JobData} {s : Reduction}
  {done : Finset ℕ} {place taxi r : ℕ} {p : Nat × Nat} {passengers : List (Nat × Nat)}
  {set : Finset ℕ} {task : TaskData}

/-- An entry of a replaced row is a distance, or `u32::MAX` where there is no path. -/
theorem Replaced.leg_cases (replaced : Replaced checks graph done s) {u v : ℕ} (hu : u ∈ done)
    (hv : v < graph.length) :
    (∃ d, IsDistance (Edge graph) u v d ∧ leg s.graph u v = d) ∨
      (∀ d, ¬Walk (Edge graph) u v d) ∧ leg s.graph u v = u32Max.toNat := by
  obtain ⟨row, hrow, hdistances⟩ := replaced.rows u hu
  have hlength := (replaced.square.rows row (List.mem_of_getElem? hrow)).trans replaced.length
  obtain ⟨x, hx⟩ : ∃ x, row[v]? = some x := ⟨_, List.getElem?_eq_getElem (hlength ▸ hv)⟩
  have hleg : leg s.graph u v = x.toNat := by rw [leg, hrow, Option.bind_some, hx]
  have hknown : known row v = finite x := by rw [known, hx, Option.bind_some]
  by_cases hmax : x = u32Max
  · refine .inr ⟨?_, by rw [hleg, hmax]⟩
    intro d hwalk
    obtain ⟨e, _, hdistance⟩ := hwalk.exists_distance
    rw [← hdistances, hknown, finite_eq_some] at hdistance
    exact hdistance.1 hmax
  · refine .inl ⟨x.toNat, ?_, hleg⟩
    rw [← hdistances, hknown, finite_eq_some]
    exact ⟨hmax, rfl⟩

theorem Replaced.leg_of_distance (replaced : Replaced checks graph done s) {u v d : ℕ}
    (hu : u ∈ done) (hv : v < graph.length) (h : IsDistance (Edge graph) u v d) :
    leg s.graph u v = d := by
  rcases replaced.leg_cases hu hv with ⟨e, he, hleg⟩ | ⟨hnone, _⟩
  · rw [hleg, he.unique h]
  · exact absurd h.1 (hnone d)

/-- The sum for a passenger is a `u32` exactly when both ways exist or one is of length 0. -/
theorem Replaced.joins_iff (replaced : Replaced checks graph done s) {stops : List Nat}
    (reducible : Reducible graph stops) (hplace : place ∈ stops) (hstart : p.1 ∈ stops)
    (hdone : done = stops.toFinset) (hp : p.1 < graph.length ∧ p.2 < graph.length) :
    Joins graph place p ↔ leap s.graph place p < 2 ^ 32 := by
  have hfirst := replaced.leg_cases (hdone ▸ List.mem_toFinset.mpr hplace) hp.1
  have hsecond := replaced.leg_cases (hdone ▸ List.mem_toFinset.mpr hstart) hp.2
  have hle := leg_le s.graph
  have hmax := u32Max_toNat
  rw [leap]
  constructor
  · intro joins
    rcases joins with ⟨⟨a, ha⟩, b, hb⟩ | hzero | hzero
    · obtain ⟨d, hd, hleg⟩ := hfirst.resolve_right fun h => h.1 a ha
      obtain ⟨e, he, hleg'⟩ := hsecond.resolve_right fun h => h.1 b hb
      have hlt := reducible place hplace p.1 p.2 d e hd (.inr ⟨hstart, he⟩)
      omega
    · have hleg := replaced.leg_of_distance (hdone ▸ List.mem_toFinset.mpr hplace) hp.1 hzero
      have hother := hle p.1 p.2
      omega
    · have hleg := replaced.leg_of_distance (hdone ▸ List.mem_toFinset.mpr hstart) hp.2 hzero
      have hother := hle place p.1
      omega
  · intro hlt
    rcases hfirst with ⟨d, hd, hleg⟩ | ⟨_, hleg⟩
    · rcases hsecond with ⟨e, he, hleg'⟩ | ⟨_, hleg'⟩
      · exact .inl ⟨⟨d, hd.1⟩, e, he.1⟩
      · obtain rfl : d = 0 := by omega
        exact .inr (.inl hd)
    · rcases hsecond with ⟨e, he, hleg'⟩ | ⟨_, hleg'⟩
      · obtain rfl : e = 0 := by omega
        exact .inr (.inr he)
      · omega

/-- A route is as long in the reduced graph. -/
theorem Replaced.total_of_route (replaced : Replaced checks graph done s)
    (h : Route graph place passengers r) (hplace : place ∈ done)
    (hstops : ∀ p ∈ passengers, p.1 ∈ done ∧ p.2 ∈ done) : total s.graph place passengers = r := by
  induction h with
  | nil => rfl
  | @cons place start stop a b r rest toStart toEnd _ ih =>
    obtain ⟨hstart, hstop⟩ := hstops (start, stop) List.mem_cons_self
    have hrest := ih hstop fun p hp => hstops p (List.mem_cons_of_mem _ hp)
    rw [total, leap, replaced.leg_of_distance hplace (replaced.lt hstart) toStart,
      replaced.leg_of_distance hstart (replaced.lt hstop) toEnd, hrest]

/-- What is no route has an entry for no path. -/
theorem Replaced.route_or_max (replaced : Replaced checks graph done s) (hplace : place ∈ done)
    (hstops : ∀ p ∈ passengers, p.1 ∈ done ∧ p.2 ∈ done) :
    Route graph place passengers (total s.graph place passengers) ∨
      u32Max.toNat ≤ total s.graph place passengers := by
  induction passengers generalizing place with
  | nil => exact .inl (.nil place)
  | cons p rest ih =>
    obtain ⟨hstart, hstop⟩ := hstops p List.mem_cons_self
    rw [total, leap]
    rcases replaced.leg_cases hplace (replaced.lt hstart) with ⟨a, ha, hleg⟩ | ⟨_, hleg⟩
    · rcases replaced.leg_cases hstart (replaced.lt hstop) with ⟨b, hb, hleg'⟩ | ⟨_, hleg'⟩
      · rcases ih hstop fun p hp => hstops p (List.mem_cons_of_mem _ hp) with hroute | hmax
        · exact .inl (hleg ▸ hleg' ▸ .cons ha hb hroute)
        · exact .inr (hmax.trans (Nat.le_add_left _ _))
      · exact .inr (by omega)
    · exact .inr (by omega)

theorem rider_mem {k : Nat} (hk : k < data.passengers.length) : rider data k ∈ data.passengers := by
  rw [rider, List.getD_eq_getElem _ _ hk]
  exact List.getElem_mem hk

theorem rider_stops {k : Nat} (hk : k < data.passengers.length) :
    (rider data k).1 ∈ stops data ∧ (rider data k).2 ∈ stops data := by
  have hmem : ∀ v ∈ [(rider data k).1, (rider data k).2], v ∈ stops data := fun v hv =>
    List.mem_append_left _ (List.mem_flatMap.mpr ⟨rider data k, rider_mem hk, hv⟩)
  exact ⟨hmem _ (by simp), hmem _ (by simp)⟩

theorem taxi_stops (h : data.taxies[taxi]? = some place) : place ∈ stops data :=
  List.mem_append_right _ (List.mem_of_getElem? h)

/-- The sets of the tasks that the splitter emits. -/
def Sets (data : JobData) (c : Nat) : Prop := c < 2 ^ data.passengers.length

theorem Sets.iter {c k : Nat} (sets : Sets data c) (few : data.passengers.length ≤ 126) :
    k ∈ (BitSet.ofWords (split c)).iter ↔ k ∈ members c :=
  mem_split (Nat.lt_trans sets (Nat.pow_lt_pow_right (by decide) (by omega)))

/-- The graph of a job after it has been reduced. -/
structure Reduced (checks : Bool) (data : JobData) (s : Reduction) : Prop where
  valid : data.validate = true
  few : data.passengers.length ≤ 126
  fits : Fits data
  replaced : Replaced checks data.graph (stops data).toFinset s

namespace Reduced
variable {c : Nat}

theorem placed (reduced : Reduced checks data s) (sets : Sets data c)
    (htaxi : data.taxies[taxi]? = some place) :
    Placed s.graph place ((BitSet.ofWords (split c)).iter.map (rider data)) := by
  have hlt : ∀ v ∈ stops data, v < s.graph.length := by
    intro v hv
    rw [reduced.replaced.length]
    exact stops_lt reduced.valid v hv
  refine ⟨reduced.replaced.square.rows, ?_, ?_⟩
  · exact hlt place (taxi_stops htaxi)
  · intro p hp
    obtain ⟨k, hk, rfl⟩ := List.mem_map.mp hp
    have hstops := rider_stops (lt_of_split sets reduced.few hk)
    exact ⟨hlt _ hstops.1, hlt _ hstops.2⟩

/-- The sums for a taxi and a set are `u32`s exactly when all passengers of the set join. -/
theorem adds_iff (reduced : Reduced checks data s) (sets : Sets data c)
    (htaxi : data.taxies[taxi]? = some place) :
    Adds s.graph place ((BitSet.ofWords (split c)).iter.map (rider data)) ↔
      ∀ k ∈ members c, Joins data.graph place (rider data k) ∧
        ∀ l ∈ members c, Joins data.graph (rider data l).2 (rider data k) := by
  have hplace : place ∈ stops data := taxi_stops htaxi
  have hiter : ∀ k, k ∈ (BitSet.ofWords (split c)).iter ↔ k ∈ members c :=
    fun k => sets.iter reduced.few
  have hstops : ∀ k ∈ members c, (rider data k).1 ∈ stops data ∧ (rider data k).2 ∈ stops data :=
    fun k hk => rider_stops (lt_of_split sets reduced.few ((hiter k).mpr hk))
  have hjoins : ∀ u ∈ stops data, ∀ k ∈ members c,
      (Joins data.graph u (rider data k) ↔ leap s.graph u (rider data k) < 2 ^ 32) := by
    intro u hu k hk
    exact reduced.replaced.joins_iff reduced.fits.search hu (hstops k hk).1 rfl
      ⟨stops_lt reduced.valid _ (hstops k hk).1, stops_lt reduced.valid _ (hstops k hk).2⟩
  constructor
  · intro adds k hk
    have hmem := List.mem_map_of_mem (f := rider data) ((hiter k).mpr hk)
    refine ⟨(hjoins place hplace k hk).mpr (adds.first _ hmem), ?_⟩
    intro l hl
    have hmem' := List.mem_map_of_mem (f := rider data) ((hiter l).mpr hl)
    exact (hjoins _ (hstops l hl).2 k hk).mpr (adds.next _ hmem' _ hmem)
  · intro joins
    refine ⟨?_, ?_⟩
    · intro p hp
      obtain ⟨k, hk, rfl⟩ := List.mem_map.mp hp
      rw [hiter] at hk
      exact (hjoins place hplace k hk).mp (joins k hk).1
    · intro p hp q hq
      obtain ⟨l, hl, rfl⟩ := List.mem_map.mp hp
      obtain ⟨k, hk, rfl⟩ := List.mem_map.mp hq
      rw [hiter] at hl hk
      exact (hjoins _ (hstops l hl).2 k hk).mp ((joins k hk).2 l hl)

/-- A set that can be served is reported with a length of at most `u32::MAX`, and every other set
with no less. -/
theorem measure (reduced : Reduced checks data s) (sets : Sets data c)
    (htaxi : data.taxies[taxi]? = some place)
    (adds : Adds s.graph place ((BitSet.ofWords (split c)).iter.map (rider data))) :
    ∃ d, PathFinding.measure checks { data with graph := s.graph } taxi c = .ok (c, d) ∧
      (Servable data taxi (members c) → d ≤ u32Max.toNat) ∧
      (¬Servable data taxi (members c) → u32Max.toNat ≤ d) := by
  obtain ⟨d, hmeasure, hleast⟩ := measure_ok checks { data with graph := s.graph }
    sets reduced.few htaxi (reduced.placed sets htaxi) adds
  have hplace : place ∈ (stops data).toFinset :=
    List.mem_toFinset.mpr (taxi_stops htaxi)
  have hlt : ∀ order, IsOrder order (members c) → ∀ k ∈ order, k < data.passengers.length := by
    intro order horder k hk
    exact lt_of_split sets reduced.few ((sets.iter reduced.few).mpr ((horder.2 k).mp hk))
  have hstops : ∀ order, IsOrder order (members c) → ∀ p ∈ order.map (rider data),
      p.1 ∈ (stops data).toFinset ∧ p.2 ∈ (stops data).toFinset := by
    intro order horder p hp
    obtain ⟨k, hk, rfl⟩ := List.mem_map.mp hp
    have hmem := rider_stops (hlt order horder k hk)
    exact ⟨List.mem_toFinset.mpr hmem.1, List.mem_toFinset.mpr hmem.2⟩
  refine ⟨d, hmeasure, ?_, ?_⟩
  · intro ⟨place', order, r, htaxi', horder, hroute⟩
    obtain rfl : place = place' := Option.some.inj (htaxi.symm.trans htaxi')
    have htotal := reduced.replaced.total_of_route hroute hplace (hstops order horder)
    have hle : d ≤ r := hleast.2 ⟨order, horder, htotal⟩
    exact hle.trans (reduced.fits.routes place (List.mem_of_getElem? htaxi) order horder.1
      (hlt order horder) r hroute)
  · intro unservable
    obtain ⟨order, horder, hd⟩ := hleast.1
    rcases reduced.replaced.route_or_max hplace (hstops order horder) with hroute | hmax
    · exact absurd ⟨place, order, _, htaxi, horder, hroute⟩ unservable
    · exact hd ▸ hmax

end Reduced

/-- What the splitter keeps while it emits tasks. -/
structure Splitting (taxies passengers : Nat) (splitter : TaskSplitter) : Prop where
  taxies : splitter.taxies = taxies
  max : splitter.max = 2 ^ passengers - 1
  mid : splitter.mid ≤ splitter.max
  cur : splitter.cur ≤ splitter.max

theorem Splitting.next {taxies passengers : Nat} {splitter after : TaskSplitter}
    {item : TaskId × TaskData} (splitting : Splitting taxies passengers splitter)
    (h : splitter.next checks = .ok (some item, after)) :
    (item.2.taxi < taxies ∧ ∀ i, item.2.combination i < 2 ^ passengers) ∧
      Splitting taxies passengers after := by
  obtain ⟨htaxies, hmax, hmid, hcur⟩ := splitting
  have hpos := Nat.two_pow_pos passengers
  unfold TaskSplitter.next at h
  split at h
  · rename_i hlt
    obtain ⟨n, _, h⟩ := bind_ok.mp h
    have hsets : ∀ i, TaskData.combination
        ⟨splitter.curTaxi, (splitter.cur, splitter.max ^^^ splitter.cur)⟩ i < 2 ^ passengers := by
      intro i
      match i with
      | 0 =>
        change splitter.cur < 2 ^ passengers
        omega
      | 1 =>
        change splitter.max ^^^ splitter.cur < 2 ^ passengers
        rw [hmax, TaskSplitter.complement (by omega)]
        omega
    split at h
    · cases h
      exact ⟨⟨htaxies ▸ hlt, hsets⟩, htaxies, hmax, hmid, hmid⟩
    · cases h
      refine ⟨⟨htaxies ▸ hlt, hsets⟩, htaxies, hmax, hmid, ?_⟩
      change splitter.cur + 1 ≤ splitter.max
      omega
  · cases h

/-- A task that is emitted has a taxi of the job and two sets of its passengers. -/
theorem Emits.bounds (h : Emits checks data task) (few : data.passengers.length ≤ 126) :
    task.taxi < data.taxies.length ∧ ∀ i, Sets data (task.combination i) := by
  obtain ⟨splitter, items, after, id, hnew, hyields, hmem⟩ := h
  have hpow : 2 ^ data.passengers.length < 2 ^ 128 :=
    Nat.pow_lt_pow_right (by decide) (by omega)
  have hpos := Nat.two_pow_pos data.passengers.length
  have hstart : Splitting data.taxies.length data.passengers.length splitter := by
    rw [TaskSplitter.new, Nat.mod_eq_of_lt (by omega : data.passengers.length < 2 ^ 32), u128Pow,
      powBits_of_lt hpow, ok_bind, u128Sub, subBits_of_le hpos, ok_bind] at hnew
    cases hnew
    refine ⟨rfl, rfl, ?_, ?_⟩
    · change 2 ^ data.passengers.length / 2 ≤ 2 ^ data.passengers.length - 1
      omega
    · change 2 ^ data.passengers.length / 2 ≤ 2 ^ data.passengers.length - 1
      omega
  exact hyields.forall (fun _ _ _ splitting hnext => splitting.next hnext) hstart (id, task) hmem

/-- The two reports of a job that can be driven. -/
theorem job_ok (checks : Bool) (valid : data.validate = true)
    (few : data.passengers.length ≤ 126) (fits : Fits data)
    (htaxi : task.taxi < data.taxies.length) (sets : ∀ i, Sets data (task.combination i))
    (drivable : Drivable data task) :
    ∃ result, job checks data task = .ok result ∧ ∀ i,
      (Servable data task.taxi (members (task.combination i)) →
        result.distance i ≤ u32Max.toNat) ∧
      (¬Servable data task.taxi (members (task.combination i)) →
        u32Max.toNat ≤ result.distance i) := by
  obtain ⟨s, hs, replaced⟩ := reduceGraph_ok checks valid fits.vertices fits.search
  have reduced : Reduced checks data s := ⟨valid, few, fits, replaced⟩
  obtain ⟨place, hplace⟩ : ∃ place, data.taxies[task.taxi]? = some place :=
    ⟨_, List.getElem?_eq_getElem htaxi⟩
  have hmeasure := fun i => reduced.measure (sets i) hplace
    ((reduced.adds_iff (sets i) hplace).mpr (drivable place hplace i))
  obtain ⟨d, hfirst, hreport⟩ := hmeasure 0
  obtain ⟨d', hsecond, hreport'⟩ := hmeasure 1
  have hjob : job checks data task =
      .ok ⟨task.taxi, ((task.combination 0, d), (task.combination 1, d'))⟩ := by
    rw [job, hs, ok_bind]
    change (do
      let first ← measure checks { data with graph := s.graph } task.taxi (task.combination 0)
      let second ← measure checks { data with graph := s.graph } task.taxi (task.combination 1)
      return (⟨task.taxi, (first, second)⟩ : TaskResult)) = _
    rw [hfirst, ok_bind, hsecond]
    rfl
  refine ⟨_, hjob, ?_⟩
  intro i
  match i with
  | 0 => exact hreport
  | 1 => exact hreport'

/-- A build with overflow checks gets through the job of a task only if it can be driven. -/
theorem drivable_of_job (valid : data.validate = true) (few : data.passengers.length ≤ 126)
    (fits : Fits data) (sets : ∀ i, Sets data (task.combination i))
    (h : Succeeds (job true data task)) : Drivable data task := by
  obtain ⟨s, hs, replaced⟩ := reduceGraph_ok true valid fits.vertices fits.search
  have reduced : Reduced true data s := ⟨valid, few, fits, replaced⟩
  obtain ⟨result, h⟩ := h
  rw [job, hs, ok_bind] at h
  obtain ⟨first, hfirst, h⟩ := bind_ok.mp h
  obtain ⟨second, hsecond, _⟩ := bind_ok.mp h
  have htransform : ∀ i, Succeeds (transformGraph true { data with graph := s.graph } task.taxi
      (BitSet.ofWords (split (task.combination i)))) := by
    intro i
    match i with
    | 0 =>
      obtain ⟨matrix, hmatrix, _⟩ := bind_ok.mp hfirst
      exact ⟨matrix, hmatrix⟩
    | 1 =>
      obtain ⟨matrix, hmatrix, _⟩ := bind_ok.mp hsecond
      exact ⟨matrix, hmatrix⟩
  intro place hplace i
  refine (reduced.adds_iff (sets i) hplace).mp ?_
  exact transformGraph_adds { data with graph := s.graph } hplace
    (fun k hk => lt_of_split (sets i) few hk) (reduced.placed (sets i) hplace) (htransform i)

/-- The jobs of a job's tasks are safe exactly when all can be driven. -/
theorem safe_iff (checks : Bool) (valid : data.validate = true)
    (few : data.passengers.length ≤ 126) (fits : Fits data) :
    Safe checks data ↔ ∀ task, Emits checks data task → Drivable data task := by
  constructor
  · intro safe task emits
    exact drivable_of_job valid few fits (emits.bounds few).2 (safe.succeeds task emits)
  · intro drivable
    have hjob : ∀ build task, Emits checks data task → _ := fun build task emits =>
      job_ok build valid few fits (emits.bounds few).1 (emits.bounds few).2 (drivable task emits)
    refine ⟨?_, ?_⟩
    · intro task emits
      obtain ⟨result, hresult, _⟩ := hjob true task emits
      exact ⟨result, hresult⟩
    · intro task task' emits emits' build result result' hresult hresult' i i' hnot hserved
      obtain ⟨first, hfirst, hreport⟩ := hjob build task emits
      obtain ⟨second, hsecond, hreport'⟩ := hjob build task' emits'
      obtain rfl : first = result := Except.ok.inj (hfirst.symm.trans hresult)
      obtain rfl : second = result' := Except.ok.inj (hsecond.symm.trans hresult')
      exact ((hreport' i').1 hserved).trans ((hreport i).2 hnot)

theorem Route.le {w : ℕ} (h : Route graph place passengers r) (weighs : Weighs graph w)
    (square : Square graph) (hplace : place < graph.length)
    (hstops : ∀ p ∈ passengers, p.1 < graph.length ∧ p.2 < graph.length) :
    r ≤ passengers.length * (2 * (graph.length * w)) := by
  induction h with
  | nil => exact Nat.zero_le _
  | @cons place start stop a b r rest toStart toEnd _ ih =>
    obtain ⟨hstart, hstop⟩ := hstops (start, stop) List.mem_cons_self
    have hbound : (graph.length - 1) * w ≤ graph.length * w :=
      Nat.mul_le_mul_right w (Nat.sub_le _ _)
    have ha := (weighs.distance square hplace toStart).trans hbound
    have hb := (weighs.distance square hstart toEnd).trans hbound
    have hrest := ih hstop fun p hp => hstops p (List.mem_cons_of_mem _ hp)
    rw [List.length_cons, Nat.add_mul, Nat.one_mul]
    omega

/-- With small weights all finite lengths fit. -/
theorem fits_of_weighs {w : ℕ} (valid : data.validate = true)
    (vertices : data.graph.length < 2 ^ 64) (weighs : Weighs data.graph w)
    (small : (data.passengers.length + 1) * (2 * (data.graph.length * w)) < u32Max.toNat) :
    Fits data := by
  have square := square_of_validate valid vertices
  rw [Nat.add_mul, Nat.one_mul] at small
  refine ⟨vertices, ?_, ?_⟩
  · refine reducible_of_weighs square weighs ?_ (stops_lt valid)
    rw [Nat.mul_assoc]
    omega
  · intro place hplace order hnodup hlt r hroute
    have hstops : ∀ p ∈ order.map (rider data),
        p.1 < data.graph.length ∧ p.2 < data.graph.length := by
      intro p hp
      obtain ⟨k, hk, rfl⟩ := List.mem_map.mp hp
      have hmem := rider_stops (hlt k hk)
      exact ⟨stops_lt valid _ hmem.1, stops_lt valid _ hmem.2⟩
    have hle := hroute.le weighs square
      (stops_lt valid place (List.mem_append_right _ hplace)) hstops
    rw [List.length_map] at hle
    have hmul := Nat.mul_le_mul_right (2 * (data.graph.length * w)) (length_le_of_lt hnodup hlt)
    omega

/-- A passenger on a street with both directions. -/
def street : JobData := ⟨[[u32Max, 3], [4, u32Max]], [0], [(0, 1)]⟩

theorem street_joins {u : Nat} (hu : u < 2) : Joins street.graph u (0, 1) := by
  have hto : Walk (Edge street.graph) 0 1 3 := .single rfl
  have hback : Walk (Edge street.graph) 1 0 4 := .single rfl
  refine .inl ⟨?_, 3, hto⟩
  match u with
  | 0 => exact ⟨0, .nil⟩
  | 1 => exact ⟨4, hback⟩

theorem safe_street : Safe true street := by
  have fits : Fits street := fits_of_weighs (w := 4) (by decide) (by decide)
    (by simp [Weighs, street, u32Max]) (by decide)
  refine (safe_iff true (by decide) (by decide) fits).mpr ?_
  intro task emits place hplace i k hk
  obtain ⟨htaxi, sets⟩ := emits.bounds (by decide)
  have hmembers : ∀ l ∈ members (task.combination i), l = 0 := by
    intro l hl
    have hlt := lt_of_split (sets i) (by decide) (((sets i).iter (by decide)).mpr hl)
    exact Nat.lt_one_iff.mp hlt
  obtain rfl := hmembers k hk
  have hzero : task.taxi = 0 := Nat.lt_one_iff.mp htaxi
  rw [hzero] at hplace
  obtain rfl : 0 = place := Option.some.inj hplace
  refine ⟨street_joins (by decide), ?_⟩
  intro l hl
  obtain rfl := hmembers l hl
  exact street_joins (by decide)

/-- The taxi cannot get to the first passenger, and the second one's ride is longer. -/
def apart : JobData := ⟨[[u32Max, u32Max, 9], [u32Max, u32Max, 5], [u32Max, u32Max, u32Max]], [0],
  [(1, 2), (0, 2)]⟩

/-- `u32::MAX` is added to 5. -/
theorem job_apart : job true apart ⟨0, (2, 1)⟩ = .error (.addOverflow 32) ∧
    job false apart ⟨0, (2, 1)⟩ = .ok ⟨0, ((2, 9), (1, 4))⟩ := by
  decide +kernel

theorem not_forall_safe : ¬∀ (checks : Bool) (data : JobData), data.validate = true →
    data.passengers.length ≤ 126 → Fits data → Safe checks data := by
  intro hall
  have fits : Fits apart := fits_of_weighs (w := 9) (by decide) (by decide)
    (by simp [Weighs, apart, u32Max]) (by decide)
  have safe := hall true apart (by decide) (by decide) fits
  have emits : Emits true apart ⟨0, (2, 1)⟩ :=
    ⟨_, [_], _, _, rfl, .cons rfl (.nil _), List.mem_singleton_self _⟩
  obtain ⟨result, hresult⟩ := safe.succeeds _ emits
  rw [job_apart.1] at hresult
  cases hresult

end
end GridServer.PathFinding
