import GridServer.PathFinding.Safety

namespace GridServer.PathFinding
open Library Library.Allotment Library.ShortestPath Library.VisitOrder TaskManager

/-- The lengths of the routes on which a taxi can serve all passengers of a set, in whatever order. -/
def Tours (data : JobData) (taxi : Nat) (set : Finset ℕ) : Set ℕ :=
  {r | ∃ place order, data.taxies[taxi]? = some place ∧ IsOrder order set ∧
    Route data.graph place (order.map (rider data)) r}

/-- How the `bincode` crate decodes and encodes for a worker. -/
structure Codec where
  decodeJobData : List UInt8 → Except String JobData
  decodeTaskData : List UInt8 → Except String TaskData
  encodeTaskResult : TaskResult → Except String (List UInt8)

/-- `job` as a whole, which `execute_job` calls. -/
def executeJob (codec : Codec) (checks : Bool) (jobData taskData : List UInt8) :
    Except Fault (Except String (List UInt8)) :=
  match codec.decodeJobData jobData with
  | .error err => .ok (.error err)
  | .ok jobData =>
    match codec.decodeTaskData taskData with
    | .error err => .ok (.error err)
    | .ok taskData => do
      let result ← job checks jobData taskData
      return codec.encodeTaskResult result

/-- A worker decodes what the task manager encodes, and the other way round. -/
structure Agree (externals : Externals) (codec : Codec) : Prop where
  jobData : ∀ data bytes, externals.encodeJobData data = some bytes →
    codec.decodeJobData bytes = .ok data
  taskData : ∀ task bytes, externals.encodeTaskData task = some bytes →
    codec.decodeTaskData bytes = .ok task
  taskResult : ∀ result bytes, codec.encodeTaskResult result = .ok bytes →
    externals.decodeTaskResult bytes = .ok result

/-- Every passenger can be reached from every taxi and from the end of every passenger, and be
brought to the end. -/
structure Connected (data : JobData) : Prop where
  pickups : ∀ place ∈ data.taxies ++ data.passengers.map Prod.snd, ∀ p ∈ data.passengers,
    ∃ a, Walk (Edge data.graph) place p.1 a
  rides : ∀ p ∈ data.passengers, ∃ b, Walk (Edge data.graph) p.1 p.2 b

section
variable {checks build : Bool} {externals : Externals} {codec : Codec} {data : JobData}
  {s : Reduction} {place taxi c : ℕ} {set : Finset ℕ} {task : TaskData} {args input : List UInt8}

theorem servable_iff : Servable data taxi set ↔ (Tours data taxi set).Nonempty := by
  constructor
  · intro ⟨place, order, r, h⟩
    exact ⟨r, place, order, h⟩
  · intro ⟨r, place, order, h⟩
    exact ⟨place, order, r, h⟩

/-- A set that can be served is reported with the length of its shortest tour. -/
theorem Reduced.measure_least (reduced : Reduced checks data s) (sets : Sets data c)
    (htaxi : data.taxies[taxi]? = some place)
    (adds : Adds s.graph place ((BitSet.ofWords (split c)).iter.map (rider data))) :
    ∃ d, PathFinding.measure checks { data with graph := s.graph } taxi c = .ok (c, d) ∧
      (Servable data taxi (members c) → IsLeast (Tours data taxi (members c)) d) ∧
      (¬Servable data taxi (members c) → u32Max.toNat ≤ d) := by
  obtain ⟨d, hmeasure, hleast⟩ := measure_ok checks { data with graph := s.graph }
    sets reduced.few htaxi (reduced.placed sets htaxi) adds
  have hplace : place ∈ (stops data).toFinset := List.mem_toFinset.mpr (taxi_stops htaxi)
  have hlt : ∀ order, IsOrder order (members c) → ∀ k ∈ order, k < data.passengers.length := by
    intro order horder k hk
    exact lt_of_split sets reduced.few ((sets.iter reduced.few).mpr ((horder.2 k).mp hk))
  have hstops : ∀ order, IsOrder order (members c) → ∀ p ∈ order.map (rider data),
      p.1 ∈ (stops data).toFinset ∧ p.2 ∈ (stops data).toFinset := by
    intro order horder p hp
    obtain ⟨k, hk, rfl⟩ := List.mem_map.mp hp
    have hmem := rider_stops (hlt order horder k hk)
    exact ⟨List.mem_toFinset.mpr hmem.1, List.mem_toFinset.mpr hmem.2⟩
  have hbound : d ∈ lowerBounds (Tours data taxi (members c)) := by
    intro r ⟨place', order, htaxi', horder, hroute⟩
    obtain rfl : place = place' := Option.some.inj (htaxi.symm.trans htaxi')
    exact hleast.2 ⟨order, horder, reduced.replaced.total_of_route hroute hplace
      (hstops order horder)⟩
  obtain ⟨order, horder, hd⟩ := hleast.1
  have hfound := reduced.replaced.route_or_max hplace (hstops order horder)
  change total s.graph place (order.map (rider data)) = d at hd
  rw [hd] at hfound
  refine ⟨d, hmeasure, ?_, ?_⟩
  · intro ⟨place', order', r, htaxi', horder', hroute'⟩
    obtain rfl : place = place' := Option.some.inj (htaxi.symm.trans htaxi')
    have hr : r ∈ Tours data taxi (members c) := ⟨place, order', htaxi, horder', hroute'⟩
    rcases hfound with hroute | hmax
    · exact ⟨⟨place, order, htaxi, horder, hroute⟩, hbound⟩
    · -- the only tour that is as long as `u32::MAX` is then the shortest
      have hfits := reduced.fits.routes place (List.mem_of_getElem? htaxi) order' horder'.1
        (hlt order' horder') r hroute'
      obtain rfl : d = r := Nat.le_antisymm (hbound hr) (hfits.trans hmax)
      exact ⟨hr, hbound⟩
  · intro unservable
    rcases hfound with hroute | hmax
    · exact absurd ⟨place, order, d, htaxi, horder, hroute⟩ unservable
    · exact hmax

/-- What a worker finds out for a task: the shortest tour of the taxi over each of the two sets, and no
less than any tour for a set that has none. -/
theorem job_least (checks : Bool) (valid : data.validate = true)
    (few : data.passengers.length ≤ 126) (fits : Fits data)
    (htaxi : task.taxi < data.taxies.length) (sets : ∀ i, Sets data (task.combination i))
    (drivable : Drivable data task) :
    ∃ result, job checks data task = .ok result ∧ result.taxi = task.taxi ∧
      (result.result.1.1, result.result.2.1) = task.combinations ∧ ∀ i,
        (Servable data task.taxi (members (task.combination i)) →
          IsLeast (Tours data task.taxi (members (task.combination i))) (result.distance i)) ∧
        (¬Servable data task.taxi (members (task.combination i)) →
          u32Max.toNat ≤ result.distance i) := by
  obtain ⟨s, hs, replaced⟩ := reduceGraph_ok checks valid fits.vertices fits.search
  have reduced : Reduced checks data s := ⟨valid, few, fits, replaced⟩
  obtain ⟨place, hplace⟩ : ∃ place, data.taxies[task.taxi]? = some place :=
    ⟨_, List.getElem?_eq_getElem htaxi⟩
  have hmeasure := fun i => reduced.measure_least (sets i) hplace
    ((reduced.adds_iff (sets i) hplace).mpr (drivable place hplace i))
  obtain ⟨a, hfirst, hreport⟩ := hmeasure 0
  obtain ⟨b, hsecond, hreport'⟩ := hmeasure 1
  have hjob : job checks data task =
      .ok ⟨task.taxi, ((task.combination 0, a), (task.combination 1, b))⟩ := by
    rw [job, hs, ok_bind]
    change (do
      let first ← measure checks { data with graph := s.graph } task.taxi (task.combination 0)
      let second ← measure checks { data with graph := s.graph } task.taxi (task.combination 1)
      return (⟨task.taxi, (first, second)⟩ : TaskResult)) = _
    rw [hfirst, ok_bind, hsecond]
    rfl
  refine ⟨_, hjob, rfl, rfl, ?_⟩
  exact Fin.forall_fin_two.mpr ⟨hreport, hreport'⟩

theorem Agree.executeJob (agree : Agree externals codec)
    (hargs : externals.encodeJobData data = some args)
    (hinput : externals.encodeTaskData task = some input) :
    PathFinding.executeJob codec build args input =
      (job build data task).map codec.encodeTaskResult := by
  rw [PathFinding.executeJob, agree.jobData data args hargs]
  dsimp only
  rw [agree.taskData task input hinput]
  change (job build data task >>= fun result => pure (codec.encodeTaskResult result)) = _
  cases hjob : job build data task with
  | error fault => rfl
  | ok result => rfl

theorem lt_of_members {k : ℕ} (sets : Sets data c) (few : data.passengers.length ≤ 126)
    (hk : k ∈ members c) : k < data.passengers.length :=
  lt_of_split sets few ((sets.iter few).mpr hk)

theorem Connected.joins (connected : Connected data)
    (hplace : place ∈ data.taxies ++ data.passengers.map Prod.snd) {k : ℕ}
    (hk : k < data.passengers.length) : Joins data.graph place (rider data k) :=
  .inl ⟨connected.pickups place hplace _ (rider_mem hk), connected.rides _ (rider_mem hk)⟩

theorem end_mem {k : ℕ} (hk : k < data.passengers.length) :
    (rider data k).2 ∈ data.taxies ++ data.passengers.map Prod.snd :=
  List.mem_append_right _ (List.mem_map_of_mem (rider_mem hk))

theorem Connected.drivable (connected : Connected data) (few : data.passengers.length ≤ 126)
    (sets : ∀ i, Sets data (task.combination i)) : Drivable data task := by
  intro place hplace i k hk
  have hk := lt_of_members (sets i) few hk
  refine ⟨?_, ?_⟩
  · exact connected.joins (List.mem_append_left _ (List.mem_of_getElem? hplace)) hk
  · intro l hl
    exact connected.joins (end_mem (lt_of_members (sets i) few hl)) hk

/-- The passengers can be served in any order. -/
theorem Connected.route (connected : Connected data)
    (hplace : place ∈ data.taxies ++ data.passengers.map Prod.snd) {order : List ℕ}
    (horder : ∀ k ∈ order, k < data.passengers.length) :
    ∃ r, Route data.graph place (order.map (rider data)) r := by
  induction order generalizing place with
  | nil => exact ⟨0, .nil place⟩
  | cons k order ih =>
    have hk := horder k List.mem_cons_self
    obtain ⟨a, ha⟩ := connected.pickups place hplace _ (rider_mem hk)
    obtain ⟨b, hb⟩ := connected.rides _ (rider_mem hk)
    obtain ⟨a', _, ha'⟩ := ha.exists_distance
    obtain ⟨b', _, hb'⟩ := hb.exists_distance
    obtain ⟨r, hr⟩ := ih (end_mem hk) fun l hl => horder l (List.mem_cons_of_mem _ hl)
    exact ⟨a' + b' + r, .cons ha' hb' hr⟩

theorem Connected.servable (connected : Connected data) (htaxi : taxi < data.taxies.length)
    (hset : ∀ k ∈ set, k < data.passengers.length) : Servable data taxi set := by
  have horder : IsOrder set.toList set := ⟨set.nodup_toList, fun _ => Finset.mem_toList⟩
  obtain ⟨r, hr⟩ := connected.route (List.mem_append_left _ (List.getElem_mem htaxi))
    fun k hk => hset k (Finset.mem_toList.mp hk)
  exact ⟨_, _, r, List.getElem?_eq_getElem htaxi, horder, hr⟩

/-- A taxi without passengers stays where it is. -/
theorem tours_empty (htaxi : taxi < data.taxies.length) : Tours data taxi ∅ = {0} := by
  ext r
  constructor
  · intro ⟨place, order, _, horder, hroute⟩
    rw [horder.eq_nil, List.map_nil] at hroute
    cases hroute
    rfl
  · rintro rfl
    exact ⟨_, [], List.getElem?_eq_getElem htaxi, isOrder_nil, .nil _⟩

theorem Fits.tours (fits : Fits data) (hset : ∀ k ∈ set, k < data.passengers.length) {r : ℕ}
    (h : r ∈ Tours data taxi set) : r ≤ u32Max.toNat := by
  obtain ⟨place, order, htaxi, horder, hroute⟩ := h
  exact fits.routes place (List.mem_of_getElem? htaxi) order horder.1
    (fun k hk => hset k ((horder.2 k).mp hk)) r hroute

end

/-! The passenger on a street, with what the crate encodes. -/

def streetArgs : List UInt8 :=
  [2, 2, 252, 255, 255, 255, 255, 3, 2, 4, 252, 255, 255, 255, 255, 1, 0, 1, 0, 1]

def streetExternals : Externals :=
  { encodeJobData := fun data => if data = street then some streetArgs else none
    encodeTaskData := fun task => if task = ⟨0, (1, 0)⟩ then some [0, 1, 0] else none
    decodeTaskResult := fun bytes =>
      if bytes = [0, 1, 3, 0, 0] then .ok ⟨0, ((1, 3), (0, 0))⟩ else .error "unexpected end"
    libjobSo := []
    jobDll := []
    jobWasm := [] }

def streetCodec : Codec :=
  { decodeJobData := fun bytes => if bytes = streetArgs then .ok street else .error "unexpected end"
    decodeTaskData := fun bytes =>
      if bytes = [0, 1, 0] then .ok ⟨0, (1, 0)⟩ else .error "unexpected end"
    encodeTaskResult := fun result =>
      if result = ⟨0, ((1, 3), (0, 0))⟩ then .ok [0, 1, 3, 0, 0] else .error "unexpected" }

theorem agree_street : Agree streetExternals streetCodec := by
  refine ⟨?_, ?_, ?_⟩
  · intro data bytes h
    simp only [streetExternals, Option.ite_none_right_eq_some, Option.some.injEq] at h
    obtain ⟨rfl, rfl⟩ := h
    rfl
  · intro task bytes h
    simp only [streetExternals, Option.ite_none_right_eq_some, Option.some.injEq] at h
    obtain ⟨rfl, rfl⟩ := h
    rfl
  · intro result bytes h
    simp only [streetCodec] at h
    split at h
    · rename_i hresult
      cases h
      exact hresult ▸ rfl
    · cases h

theorem connected_street : Connected street := by
  have hto : Walk (Edge street.graph) 0 1 3 := .single rfl
  have hback : Walk (Edge street.graph) 1 0 4 := .single rfl
  refine ⟨?_, ?_⟩
  · intro place hplace p hp
    obtain rfl := List.mem_singleton.mp hp
    simp only [street, List.map_cons, List.map_nil, List.cons_append, List.nil_append,
      List.mem_cons, List.not_mem_nil, or_false] at hplace
    rcases hplace with rfl | rfl
    · exact ⟨0, .nil⟩
    · exact ⟨4, hback⟩
  · intro p hp
    obtain rfl := List.mem_singleton.mp hp
    exact ⟨3, hto⟩

theorem fits_street : Fits street :=
  fits_of_weighs (w := 4) (by decide) (by decide) (by simp [Weighs, street, u32Max]) (by decide)

example : executeJob streetCodec false streetArgs [0, 1, 0] = .ok (.ok [0, 1, 3, 0, 0]) := by
  decide +kernel

end GridServer.PathFinding
