import GridServer.TaskManager.Tables

namespace GridServer.TaskManager
open Jobs Library

def JobData.t (data : JobData) : Nat := data.taxies.length

def JobData.p (data : JobData) : Nat := data.passengers.length

/-- The number of tasks of a job. -/
def JobData.total (data : JobData) : Nat := data.t * TaskSplitter.half data.p

def JobData.task (data : JobData) (id : TaskId) : TaskData := TaskSplitter.task data.p id

/-- The result was computed for the job's task of that id. -/
def Computed (externals : Externals) (data : JobData) (result : WorkerResult) : Prop :=
  result.id < data.total ∧
    match externals.decodeTaskResult result.data with
    | .ok found => found.taxi = (data.task result.id).taxi ∧
        (found.result.1.1, found.result.2.1) = (data.task result.id).combinations
    | .error _ => False

instance (externals : Externals) (data : JobData) (result : WorkerResult) :
    Decidable (Computed externals data result) := by
  unfold Computed
  split <;> infer_instance

/-- One of the results reports the distance for the taxi and the set of passengers. -/
def Reported (externals : Externals) (results : List WorkerResult) (taxi set : Nat)
    (distance : Distance) : Prop :=
  ∃ result ∈ results, ∃ found, externals.decodeTaskResult result.data = .ok found ∧
    found.taxi = taxi ∧ (found.result.1 = (set, distance) ∨ found.result.2 = (set, distance))

/-- Both sets of the task have their distances. -/
def Filed (parts : List (MultilevelVecMap Distance)) (task : TaskData) : Prop :=
  (entry parts task.taxi task.combinations.1).isSome ∧
    (entry parts task.taxi task.combinations.2).isSome

/-- An attempt at a job of which `k` tasks have been emitted, and the results received. -/
structure Attempt (checks : Bool) (externals : Externals) (data : JobData)
    (results : List WorkerResult) (k : Nat) (missing : Finset Nat) (work : Started) : Prop where
  tasks : work.tasks.Represents checks missing
  emitted : ∀ id ∈ missing, id < k
  within : k ≤ data.total
  small : k < 2 ^ 64
  tables : Tables data.t data.p work.parts
  sound : ∀ taxi set distance, set < 2 ^ 128 → entry work.parts taxi set = some distance →
    Reported externals results taxi set distance
  complete : ∀ id < k, id ∉ missing → Filed work.parts (data.task id)

/-- The jobs that the tables are made for, with no more tasks than a build can count that does not
check for overflows. -/
structure Suited (checks : Bool) (data : JobData) : Prop where
  some_passenger : 1 ≤ data.p
  few_passengers : data.p ≤ 63
  countable : checks = false → data.total < 2 ^ 64

section
variable {checks : Bool} {externals : Externals} {data : JobData} {work work' : Started}
  {results received : List WorkerResult} {result : WorkerResult} {k taxies passengers : Nat}
  {missing : Finset Nat} {tasks tasks' : TaskSet} {items : List (TaskId × TaskData)}
  {splitter : TaskSplitter}

theorem Computed.found (h : Computed externals data result) :
    result.id < data.total ∧ ∃ a b, externals.decodeTaskResult result.data =
      .ok ⟨(data.task result.id).taxi,
        (((data.task result.id).combinations.1, a), ((data.task result.id).combinations.2, b))⟩ := by
  obtain ⟨hid, h⟩ := h
  refine ⟨hid, ?_⟩
  split at h
  · rename_i found hdecode
    obtain ⟨taxi, ⟨set₁, a⟩, ⟨set₂, b⟩⟩ := found
    obtain ⟨htaxi, hsets⟩ := h
    refine ⟨a, b, ?_⟩
    dsimp only at htaxi hsets
    rw [hdecode, htaxi, ← hsets]
  · cases h

theorem Reported.mono {taxi set : Nat} {distance : Distance}
    (h : Reported externals results taxi set distance) (received : List WorkerResult) :
    Reported externals (results ++ received) taxi set distance := by
  obtain ⟨result, hmem, found⟩ := h
  exact ⟨result, List.mem_append_left _ hmem, found⟩

theorem Attempt.mono (a : Attempt checks externals data results k missing work)
    (received : List WorkerResult) :
    Attempt checks externals data (results ++ received) k missing work := by
  refine ⟨a.tasks, a.emitted, a.within, a.small, a.tables, ?_, a.complete⟩
  exact fun taxi set distance hset h => (a.sound taxi set distance hset h).mono received

/-- The items of the splitter are the tasks under their numbers. -/
theorem yields_after (h : 1 ≤ passengers) (hk : k ≤ taxies * TaskSplitter.half passengers)
    (small : k < 2 ^ 64) (countable : checks = false → taxies * TaskSplitter.half passengers < 2 ^ 64)
    (y : Yields (TaskSplitter.next checks) (.after taxies passengers k) items splitter) :
    ∃ n, items = (List.range' k n).map (fun id => (id, TaskSplitter.task passengers id)) ∧
      splitter = .after taxies passengers (k + n) ∧
        k + n ≤ taxies * TaskSplitter.half passengers ∧ k + n < 2 ^ 64 := by
  generalize hs : TaskSplitter.after taxies passengers k = start at y
  induction y generalizing k with
  | nil s => exact ⟨0, rfl, hs.symm, hk, small⟩
  | cons first rest ih =>
    subst hs
    by_cases hlt : k < taxies * TaskSplitter.half passengers
    · rw [TaskSplitter.next_eq h hlt, bind_ok] at first
      obtain ⟨n, hn, first⟩ := first
      simp only [except_pure, Except.ok.injEq, Prod.mk.injEq, Option.some.injEq] at first
      obtain ⟨rfl, rfl⟩ := first
      have hsmall : k + 1 < 2 ^ 64 := by
        cases checks with
        | true =>
          have hfits := addBits_lt hn
          rwa [Nat.mod_eq_of_lt small] at hfits
        | false =>
          have hfits := countable rfl
          omega
      obtain ⟨m, hitems, hsplitter, hle, hlt'⟩ := ih hlt hsmall rfl
      refine ⟨m + 1, ?_, ?_, ?_, ?_⟩
      · rw [hitems, List.range'_succ, List.map_cons, Nat.mod_eq_of_lt small]
      · rw [hsplitter]
        congr 1
        omega
      · omega
      · omega
    · rw [TaskSplitter.next_end (Nat.le_of_not_lt hlt)] at first
      cases first

theorem enlist_cons {id : TaskId} {task : TaskData} {workersTasks : List WorkerTask}
    (h : enlist checks externals tasks ((id, task) :: items) = .ok (tasks', some workersTasks)) :
    ∃ tasks₁ new data rest, tasks.insert checks id = .ok (tasks₁, new) ∧
      enlist checks externals tasks₁ items = .ok (tasks', some rest) ∧
        workersTasks = ⟨id, data⟩ :: rest := by
  simp only [enlist, bind_ok] at h
  obtain ⟨⟨tasks₁, new⟩, hinsert, h⟩ := h
  cases hencode : externals.encodeTaskData task with
  | none => simp [hencode] at h
  | some data =>
    simp only [hencode, bind_ok, except_pure, Except.ok.injEq, Prod.mk.injEq] at h
    obtain ⟨⟨tasks₂, rest⟩, hrest, rfl, hsome⟩ := h
    cases rest with
    | none => cases hsome
    | some rest =>
      cases hsome
      exact ⟨tasks₁, new, data, rest, hinsert, hrest, rfl⟩

/-- The tasks of a chunk are not completed. -/
theorem enlist_represents {workersTasks : List WorkerTask} (r : tasks.Represents checks missing)
    (h : enlist checks externals tasks items = .ok (tasks', some workersTasks)) :
    tasks'.Represents checks (missing ∪ (items.map Prod.fst).toFinset) := by
  induction items generalizing tasks missing workersTasks with
  | nil =>
    simp only [enlist, Except.ok.injEq, Prod.mk.injEq] at h
    obtain ⟨rfl, _⟩ := h
    simpa using r
  | cons item items ih =>
    obtain ⟨id, task⟩ := item
    obtain ⟨_, _, _, _, hinsert, hrest, _⟩ := enlist_cons h
    have hr := ih (r.insert hinsert).1 hrest
    have hsets : missing ∪ ((id, task) :: items |>.map Prod.fst).toFinset =
        insert id missing ∪ (items.map Prod.fst).toFinset := by
      ext i
      simp only [List.map_cons, List.toFinset_cons, Finset.mem_union, Finset.mem_insert]
      tauto
    rw [hsets]
    exact hr

theorem enlist_ids {workersTasks : List WorkerTask}
    (h : enlist checks externals tasks items = .ok (tasks', some workersTasks)) :
    items.map Prod.fst = workersTasks.map WorkerTask.id := by
  induction items generalizing tasks workersTasks with
  | nil =>
    cases h
    rfl
  | cons item items ih =>
    obtain ⟨id, task⟩ := item
    obtain ⟨_, _, _, _, _, hrest, rfl⟩ := enlist_cons h
    rw [List.map_cons, List.map_cons, ih hrest]

/-- A chunk that can be counted is enlisted, unless the encoder gives up. -/
theorem enlist_total (externals : Externals) (items : List (TaskId × TaskData))
    (r : tasks.Represents checks missing)
    (fits : checks = true → missing.card + items.length < 2 ^ 64) :
    ∃ tasks' workersTasks, enlist checks externals tasks items = .ok (tasks', workersTasks) ∧
      ((∀ task, (externals.encodeTaskData task).isSome) → workersTasks.isSome) := by
  induction items generalizing tasks missing with
  | nil => exact ⟨tasks, some [], rfl, fun _ => rfl⟩
  | cons item items ih =>
    obtain ⟨id, task⟩ := item
    obtain ⟨⟨tasks₁, new⟩, hinsert⟩ := r.insert_total (fun hc => by
      have hfits := fits hc
      rw [List.length_cons] at hfits
      omega) id
    obtain ⟨tasks₂, workersTasks, hrest, hsome⟩ := ih (r.insert hinsert).1 fun hc => by
      have hfits := fits hc
      have hcard := Finset.card_insert_le id missing
      rw [List.length_cons] at hfits
      omega
    cases hencode : externals.encodeTaskData task with
    | none =>
      refine ⟨tasks₁, none, by simp [enlist, hinsert, hencode], fun encodes => ?_⟩
      have htask := encodes task
      rw [hencode] at htask
      exact htask
    | some data =>
      refine ⟨tasks₂, workersTasks.map fun workersTasks => ⟨id, data⟩ :: workersTasks,
        by simp [enlist, hinsert, hencode, hrest], fun encodes => ?_⟩
      rw [Option.isSome_map]
      exact hsome encodes

theorem task_lt (s : Suited checks data) {id : TaskId} (hid : id < data.total) :
    (data.task id).taxi < data.t ∧ (data.task id).combinations.1 < 2 ^ data.p ∧
      (data.task id).combinations.2 < 2 ^ data.p := by
  have hpos := TaskSplitter.half_pos data.p
  have hhalf := TaskSplitter.two_half s.some_passenger
  have hmod := Nat.mod_lt id hpos
  have hset : TaskSplitter.half data.p + id % TaskSplitter.half data.p < 2 ^ data.p := by omega
  refine ⟨(Nat.div_lt_iff_lt_mul hpos).mpr hid, hset, ?_⟩
  have hcomplement := TaskSplitter.complement hset
  simp only [JobData.task, TaskSplitter.task]
  omega

theorem lt_word (s : Suited checks data) {set : Nat} (h : set < 2 ^ data.p) : set + 1 < 2 ^ 64 := by
  have hp := s.few_passengers
  have hpow : 2 ^ data.p ≤ 2 ^ 63 := Nat.pow_le_pow_right (by decide) hp
  omega

theorem lt_words (s : Suited checks data) {set : Nat} (h : set < 2 ^ data.p) : set < 2 ^ 128 := by
  have hp := s.few_passengers
  exact h.trans (Nat.pow_lt_pow_right (by decide) (by omega))

/-- The tasks that the splitter emits are missing from then on. -/
theorem Attempt.emit (a : Attempt checks externals data results k missing work)
    (s : Suited checks data) {workersTasks : List WorkerTask}
    (y : Yields (TaskSplitter.next checks) (.after data.t data.p k) items splitter)
    (h : enlist checks externals work.tasks items = .ok (tasks, some workersTasks)) :
    ∃ n missing', splitter = .after data.t data.p (k + n) ∧ ∀ phase,
      Attempt checks externals data results (k + n) missing'
        { work with tasks := tasks, phase := phase } := by
  obtain ⟨n, hitems, hsplitter, hle, hlt⟩ :=
    yields_after s.some_passenger a.within a.small s.countable y
  have hids : items.map Prod.fst = List.range' k n := by
    rw [hitems, List.map_map]
    exact List.map_id _
  have hrepresents := enlist_represents a.tasks h
  rw [hids] at hrepresents
  refine ⟨n, missing ∪ (List.range' k n).toFinset, hsplitter, fun phase =>
    ⟨hrepresents, ?_, hle, hlt, a.tables, a.sound, ?_⟩⟩
  · intro id hid
    simp only [Finset.mem_union, List.mem_toFinset, List.mem_range'_1] at hid
    cases hid with
    | inl hid => exact (a.emitted id hid).trans_le (Nat.le_add_right k n)
    | inr hid => exact hid.2
  · intro id hid hnot
    simp only [Finset.mem_union, List.mem_toFinset, List.mem_range'_1, not_or] at hnot
    exact a.complete id (by omega) hnot.1

/-- A job is started with nothing emitted and empty tables. -/
theorem Attempt.start (s : Suited checks data) {tables : List (MultilevelVecMap Distance)}
    (hsplitter : TaskSplitter.new checks data.taxies.length data.passengers.length = .ok splitter)
    (htables : parts checks data.taxies.length data.passengers.length = .ok tables) :
    splitter = .after data.t data.p 0 ∧ Attempt checks externals data [] 0 ∅
      { stats := none, parts := tables, tasks := BitSet.new, phase := .splitting splitter } := by
  have hsome : 1 ≤ data.passengers.length := s.some_passenger
  have hfew : data.passengers.length ≤ 63 := s.few_passengers
  rw [TaskSplitter.new_eq hsome (by omega), Except.ok.injEq] at hsplitter
  obtain ⟨tables', htables', hnew, hentry⟩ := parts_ok checks data.taxies.length
    (by omega : data.passengers.length < 64)
  rw [htables', Except.ok.injEq] at htables
  subst htables
  refine ⟨hsplitter.symm, BitSet.represents_new, ?_, Nat.zero_le _, Nat.two_pow_pos _, hnew, ?_, ?_⟩
  · simp
  · intro taxi set distance _ hfound
    rw [hentry] at hfound
    cases hfound
  · intro id hid
    exact absurd hid (Nat.not_lt_zero id)

/-- A result of a task that is not completed is filed, and another one is not looked at. -/
theorem Attempt.processResult (a : Attempt checks externals data results k missing work)
    (s : Suited checks data) (computed : Computed externals data result) :
    ∃ work', TaskManager.processResult checks externals work result = .ok (work', .continue) ∧
      Attempt checks externals data (results ++ [result]) k (missing.erase result.id) work' ∧
        work'.phase = work.phase := by
  obtain ⟨hid, d₁, d₂, hdecode⟩ := computed.found
  obtain ⟨tasks, hremove, hrepresents⟩ := a.tasks.remove result.id
  obtain ⟨htaxi, hset₁, hset₂⟩ := task_lt s hid
  have hemitted : ∀ i ∈ missing.erase result.id, i < k :=
    fun i hi => a.emitted i (Finset.mem_of_mem_erase hi)
  by_cases hmissing : result.id ∈ missing
  · obtain ⟨between, after, hfile₁, hfile₂, htables, hentered⟩ :=
      a.tables.fileBoth checks s.some_passenger htaxi
        (((data.task result.id).combinations.1, d₁), ((data.task result.id).combinations.2, d₂))
        (lt_word s hset₁) (lt_word s hset₂)
    refine ⟨{ work with tasks := tasks, parts := after }, ?_, ⟨hrepresents, hemitted, a.within,
      a.small, htables, ?_, ?_⟩, rfl⟩
    · simp [TaskManager.processResult, hdecode, hremove, hmissing, hfile₁, hfile₂]
    · intro taxi set distance hset hfound
      cases hentered.of_eq_some hset hfound with
      | inl hold => exact (a.sound taxi set distance hset hold).mono [result]
      | inr hnew =>
        exact ⟨result, List.mem_append_right _ List.mem_cons_self, _, hdecode, hnew.1.symm, hnew.2⟩
    · intro id hlt hnot
      obtain ⟨_, hfst, hsnd⟩ := task_lt s (hlt.trans_le a.within)
      by_cases hsame : id = result.id
      · subst hsame
        exact ⟨hentered.isSome (lt_words s hfst) (.inr ⟨rfl, .inl rfl⟩),
          hentered.isSome (lt_words s hsnd) (.inr ⟨rfl, .inr rfl⟩)⟩
      · obtain ⟨hfiled₁, hfiled₂⟩ := a.complete id hlt fun hmem =>
          hnot (Finset.mem_erase.mpr ⟨hsame, hmem⟩)
        exact ⟨hentered.isSome (lt_words s hfst) (.inl hfiled₁),
          hentered.isSome (lt_words s hsnd) (.inl hfiled₂)⟩
  · refine ⟨{ work with tasks := tasks }, ?_, ⟨hrepresents, hemitted, a.within, a.small, a.tables,
      ?_, ?_⟩, rfl⟩
    · simp [TaskManager.processResult, hdecode, hremove, hmissing]
    · exact fun taxi set distance hset h => (a.sound taxi set distance hset h).mono [result]
    · rw [Finset.erase_eq_of_notMem hmissing]
      exact a.complete

theorem Attempt.processResults (a : Attempt checks externals data results k missing work)
    (s : Suited checks data) (computed : ∀ result ∈ received, Computed externals data result) :
    ∃ work' missing', TaskManager.processResults checks externals work received =
        .ok (work', .continue) ∧
      Attempt checks externals data (results ++ received) k missing' work' ∧
        work'.phase = work.phase := by
  induction received generalizing results missing work with
  | nil => exact ⟨work, missing, rfl, by simpa using a, rfl⟩
  | cons result received ih =>
    obtain ⟨work₁, hresult, a₁, hphase₁⟩ := a.processResult s (computed result List.mem_cons_self)
    obtain ⟨work₂, missing₂, hresults, a₂, hphase₂⟩ :=
      ih a₁ fun r hr => computed r (List.mem_cons_of_mem _ hr)
    refine ⟨work₂, missing₂, ?_, ?_, hphase₂.trans hphase₁⟩
    · simp [TaskManager.processResults, hresult, hresults]
    · simpa using a₂

/-- Results that come when nothing is missing are not looked at. -/
theorem processResults_done (r : work.tasks.Represents checks ∅)
    (computed : ∀ result ∈ received, Computed externals data result) :
    ∃ work', processResults checks externals work received = .ok (work', .continue) ∧
      work'.tasks.Represents checks ∅ ∧ work'.phase = work.phase := by
  induction received generalizing work with
  | nil => exact ⟨work, rfl, r, rfl⟩
  | cons result received ih =>
    obtain ⟨_, d₁, d₂, hdecode⟩ := (computed result List.mem_cons_self).found
    obtain ⟨tasks, hremove, hrepresents⟩ := r.remove result.id
    have hstill : ({ work with tasks := tasks } : Started).tasks.Represents checks ∅ := by
      simpa using hrepresents
    obtain ⟨work', hresults, hdone, hphase⟩ :=
      ih hstill fun r hr => computed r (List.mem_cons_of_mem _ hr)
    refine ⟨work', ?_, hdone, hphase⟩
    have hresult : TaskManager.processResult checks externals work result =
        .ok ({ work with tasks := tasks }, .continue) := by
      simp [TaskManager.processResult, hdecode, hremove]
    simp [processResults, hresult, hresults]

/-- An empty set of tasks has lost count of none. -/
theorem Attempt.eq_empty (a : Attempt checks externals data results k missing work)
    (h : work.tasks.isEmpty = true) : missing = ∅ := by
  have hsubset : missing ⊆ Finset.range k :=
    fun id hid => Finset.mem_range.mpr (a.emitted id hid)
  have hcard := Finset.card_le_card hsubset
  rw [Finset.card_range] at hcard
  exact (a.tasks.isEmpty (hcard.trans_lt a.small)).mp h

/-- An attempt at which nothing is missing has every distance. -/
theorem Attempt.covers (a : Attempt checks externals data results data.total ∅ work)
    (s : Suited checks data) {taxi set : Nat} (htaxi : taxi < data.t) (hset : set < 2 ^ data.p) :
    ∃ distance, entry work.parts taxi set = some distance ∧
      Reported externals results taxi set distance := by
  obtain ⟨id, hid, htask, hplace⟩ := TaskSplitter.task_covers s.some_passenger htaxi hset
  obtain ⟨hfst, hsnd⟩ := a.complete id hid (by simp)
  have hsome : (entry work.parts taxi set).isSome := by
    unfold JobData.task at hfst hsnd
    cases hplace with
    | inl hplace => rwa [htask, hplace] at hfst
    | inr hplace => rwa [htask, hplace] at hsnd
  obtain ⟨distance, hentry⟩ := Option.isSome_iff_exists.mp hsome
  exact ⟨distance, hentry, a.sound taxi set distance (lt_words s hset) hentry⟩

end

end GridServer.TaskManager
