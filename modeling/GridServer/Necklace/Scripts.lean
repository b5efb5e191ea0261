import GridServer.Necklace.Answers
import GridServer.Necklace.Reducer
import Mathlib.Data.Set.Card

namespace GridServer.Necklace
open Jobs Library

/-- `itertools.product(values, repeat=n)`, where the last place changes first. -/
def product (values : List Nat) : Nat → List (List Nat)
  | 0 => [[]]
  | n + 1 => values.flatMap fun value => (product values n).map fun rest => value :: rest

def generateSolutions (grid : List Cell) : Nat × List (List Nat) :=
  let size := grid.length
  let possibleValues := List.range' 1 7
  (7 ^ size, product possibleValues size)

section
variable (grids : Pickle (List Cell)) (solutions : Pickle (List Nat)) (records : Pickle TaskResult)

/-- The generator that comes with the count gives the combinations one after another. -/
def splitter (job : List UInt8) : Except PyError (Nat × List (List Nat)) := do
  let grid ← grids.loads job
  return generateSolutions grid

/-- The scripts of the repository as the task manager calls them: the count has to fit into a `u64`,
and an exception comes as its message. -/
def scripts (message : PyError → String) (debug : String → String) (executorWasm : List UInt8) :
    Externals where
  PyIterator := List (List Nat)
  splitter data :=
    match splitter grids data with
    | .error err => .error (message err)
    | .ok (count, combinations) =>
      if count < 2 ^ 64 then .ok (count, combinations)
      else .error "OverflowError: int too big to convert"
  pyNext
    | [] => (none, [])
    | combination :: rest => (some (.ok (solutions.dumps combination)), rest)
  reducer job results :=
    match reducer grids records job results with
    | .error err => .error (message err)
    | .ok text => .ok (String.ofList text)
  debug := debug
  executorWasm := executorWasm

/-- A worker has run the executor on the job and on the combination of the result's id. -/
def Executed (data : List UInt8) (result : WorkerResult) : Prop :=
  ∀ count combinations, splitter grids data = .ok (count, combinations) →
    ∃ combination, combinations[result.id]? = some combination ∧
      executeJob grids solutions records data (solutions.dumps combination) = .ok result.data

end

/-- The ways to fill a grid of `L` rows of `L` cells that the executor accepts: every line goes on in
the next cell, every dot is met, and no straight tile follows another in a row. -/
def Accepted (L : Nat) (grid : List Cell) : Set (List Nat) :=
  {solution | solution.length = L * L ∧ (∀ tile ∈ solution, 1 ≤ tile ∧ tile ≤ 7) ∧
    Solves L grid solution ∧ ¬StraightPair L solution}

section
variable {values : List Nat} {n : Nat} {solution : List Nat}

theorem length_product (values : List Nat) (n : Nat) :
    (product values n).length = values.length ^ n := by
  induction n with
  | zero => rfl
  | succ n ih => simp [product, List.length_flatMap, ih, Nat.pow_succ, Nat.mul_comm]

theorem mem_product : solution ∈ product values n ↔
    solution.length = n ∧ ∀ tile ∈ solution, tile ∈ values := by
  induction n generalizing solution with
  | zero =>
    constructor
    · intro h
      obtain rfl := List.mem_singleton.mp h
      simp
    · rintro ⟨hlength, _⟩
      rw [List.length_eq_zero_iff.mp hlength]
      exact List.mem_singleton_self _
  | succ n ih =>
    simp only [product, List.mem_flatMap, List.mem_map, ih]
    constructor
    · rintro ⟨value, hvalue, rest, ⟨hlength, hrest⟩, rfl⟩
      exact ⟨by simp [hlength], List.forall_mem_cons.mpr ⟨hvalue, hrest⟩⟩
    · rintro ⟨hlength, hsolution⟩
      obtain ⟨value, rest, rfl⟩ := List.exists_cons_of_length_eq_add_one hlength
      obtain ⟨hvalue, hrest⟩ := List.forall_mem_cons.mp hsolution
      exact ⟨value, hvalue, rest, ⟨by simpa using hlength, hrest⟩, rfl⟩

theorem nodup_product (h : values.Nodup) (n : Nat) : (product values n).Nodup := by
  induction n with
  | zero => exact List.nodup_singleton _
  | succ n ih =>
    rw [product, List.nodup_flatMap]
    refine ⟨?_, ?_⟩
    · intro value _
      exact ih.map fun _ _ hcons => (List.cons.inj hcons).2
    · refine h.imp ?_
      intro a b hne
      rw [Function.onFun, List.disjoint_left]
      intro solution ha hb
      obtain ⟨_, _, rfl⟩ := List.mem_map.mp ha
      obtain ⟨_, _, hcons⟩ := List.mem_map.mp hb
      exact hne (List.cons.inj hcons).1.symm

end

section
variable {grids : Pickle (List Cell)} {solutions : Pickle (List Nat)}
  {records : Pickle TaskResult} {message : PyError → String} {debug : String → String}
  {wasm : List UInt8} {checks : Bool} {data : List UInt8} {grid : List Cell} {L : Nat}

theorem splitter_of_loads (h : grids.loads data = .ok grid) :
    splitter grids data = .ok (generateSolutions grid) := by
  rw [splitter, h]
  rfl

theorem executeJob_of_loads (h : grids.loads data = .ok grid) (taskData : List UInt8) :
    executeJob grids solutions records data taskData =
      executeJob grids solutions records (grids.dumps grid) taskData := by
  rw [executeJob, executeJob, h, grids.loads_dumps]

theorem reducer_of_loads (h : grids.loads data = .ok grid) (results : List (List UInt8)) :
    reducer grids records data results = reducer grids records (grids.dumps grid) results := by
  rw [reducer, reducer, h, grids.loads_dumps]

theorem splitter_length {count : Nat} {combinations : List (List Nat)}
    (h : splitter grids data = .ok (count, combinations)) : combinations.length = count := by
  obtain ⟨grid, _, h⟩ := bind_ok.mp h
  cases h
  exact length_product _ _

/-- Every job that is split is split into its combinations. -/
def script {count : Nat} {combinations : List (List Nat)}
    (h : splitter grids data = .ok (count, combinations)) (small : count < 2 ^ 64) :
    Script (scripts grids solutions records message debug wasm) data where
  count := count
  total := count
  task id := solutions.dumps (combinations.getD id [])
  state k := combinations.drop k
  small := small
  splits := by
    simp only [scripts, h]
    exact if_pos small
  item := by
    intro k hk
    have hlt : k < combinations.length := splitter_length h ▸ hk
    rw [List.drop_eq_getElem_cons hlt, List.getD_eq_getElem _ _ hlt]
    rfl
  done := by
    rw [← splitter_length h, List.drop_length]
    rfl

theorem splitter_scripts {found : Nat × List (List Nat)}
    (h : (scripts grids solutions records message debug wasm).splitter data = .ok found) :
    ∃ count combinations, splitter grids data = .ok (count, combinations) ∧ count < 2 ^ 64 := by
  simp only [scripts] at h
  split at h
  · cases h
  · rename_i count combinations hsplit
    split at h
    · rename_i hsmall
      exact ⟨count, combinations, hsplit, hsmall⟩
    · cases h

theorem mem_solutions {solution : List Nat} : solution ∈ product (List.range' 1 7) (L * L) ↔
    solution.length = L * L ∧ ∀ tile ∈ solution, 1 ≤ tile ∧ tile ≤ 7 := by
  simp only [mem_product, List.mem_range'_1]
  have htile : ∀ tile, tile < 1 + 7 ↔ tile ≤ 7 := fun tile => Nat.lt_succ_iff
  simp only [htile]

/-- Each accepted solution is among the combinations once. -/
theorem length_accepted (L : Nat) (grid : List Cell) :
    ((product (List.range' 1 7) (L * L)).filter fun solution =>
      decide (∀ i < L * L, CellFits L grid solution i)).length = (Accepted L grid).ncard := by
  have hnodup : (product (List.range' 1 7) (L * L)).Nodup := nodup_product (List.nodup_range' ..) _
  rw [← List.toFinset_card_of_nodup (hnodup.filter _), ← Set.ncard_coe_finset]
  congr 1
  ext solution
  simp only [List.coe_toFinset, Set.mem_ofPred_eq, List.mem_filter, mem_solutions, Accepted,
    decide_eq_true_eq, and_assoc]
  refine and_congr_right fun _ => and_congr_right fun tiles => ?_
  exact forall_cellFits_iff tiles

/-- What the reducer makes of the executor's results on all combinations, in any order. -/
theorem reducer_executed {results : List WorkerResult} {text : List Char} (hL : 1 ≤ L)
    (hgrid : grid.length = L * L) (hloads : grids.loads data = .ok grid)
    (ids : (results.map WorkerResult.id).Perm (List.range (7 ^ (L * L))))
    (executed : ∀ result ∈ results, Executed grids solutions records data result)
    (h : reducer grids records data (results.map WorkerResult.data) = .ok text) :
    text = dumps (enumerated (List.replicate (Accepted L grid).ncard none)) := by
  let combinations := product (List.range' 1 7) (L * L)
  let found (id : TaskId) : TaskResult :=
    ⟨combinations.getD id [], decide (∀ i < L * L, CellFits L grid (combinations.getD id []) i)⟩
  have hlength : combinations.length = 7 ^ (L * L) := length_product _ _
  have hdata : results.map WorkerResult.data =
      ((results.map WorkerResult.id).map found).map records.dumps := by
    rw [List.map_map, List.map_map]
    refine List.map_congr_left fun result hresult => ?_
    obtain ⟨combination, hcombination, hexecute⟩ :=
      executed result hresult _ _ (splitter_of_loads hloads)
    rw [hgrid] at hcombination
    have hfits := mem_solutions.mp (List.mem_of_getElem? hcombination)
    rw [executeJob_of_loads hloads, executeJob_eq hL hgrid hfits.1, Except.ok.injEq] at hexecute
    have hget : combinations.getD result.id [] = combination := by
      rw [List.getD_eq_getElem?_getD, hcombination]
      rfl
    simp only [Function.comp_apply, found, hget, hexecute]
  have hall : (List.range (7 ^ (L * L))).map found = combinations.map fun solution =>
      ⟨solution, decide (∀ i < L * L, CellFits L grid solution i)⟩ := by
    refine List.ext_getElem (by simp [hlength]) fun i hi hi' => ?_
    have hlt : i < combinations.length := by simpa using hi'
    simp only [List.getElem_map, List.getElem_range, found, List.getD_eq_getElem _ _ hlt]
  have hcount : (((results.map WorkerResult.id).map found).filter TaskResult.valid).length =
      (Accepted L grid).ncard := by
    rw [((ids.map found).filter TaskResult.valid).length_eq, hall, List.filter_map,
      List.length_map, ← length_accepted]
    rfl
  rw [reducer_of_loads hloads, hdata] at h
  rw [reducer_ok h, hcount]

/-- The answer to a square grid of at most four rows has as many entries as there are accepted
solutions. -/
theorem answer_of_reduced {output : String}
    (h : Reduced (scripts grids solutions records message debug wasm)
      (Executed grids solutions records) data output)
    (hL : 1 ≤ L) (hgrid : grid.length = L * L) (hloads : grids.loads data = .ok grid) :
    L ≤ 4 ∧ output =
      String.ofList (dumps (enumerated (List.replicate (Accepted L grid).ncard none))) := by
  obtain ⟨⟨found, hfound⟩, hreduced⟩ := h
  obtain ⟨count, combinations, hsplit, hsmall⟩ := splitter_scripts hfound
  obtain ⟨results, hids, hexecuted, hreduce⟩ := hreduced (script hsplit hsmall)
  cases (splitter_of_loads hloads).symm.trans hsplit
  rw [hgrid] at hsmall
  refine ⟨?_, ?_⟩
  · by_contra hlarge
    have hsquare : 5 * 5 ≤ L * L := Nat.mul_le_mul (by omega) (by omega)
    have hpow : 7 ^ 25 ≤ 7 ^ (L * L) := Nat.pow_le_pow_right (by decide) hsquare
    omega
  · simp only [scripts] at hreduce
    split at hreduce
    · cases hreduce
    · rename_i text htext
      cases hreduce
      rw [reducer_executed hL hgrid hloads (hgrid ▸ hids) hexecuted htext]

end

/-! One empty cell, with pickles that write numbers in unary. Of the seven tiles only the blank has no
line that leaves the grid. -/

def unary : List Nat → List UInt8
  | [] => []
  | n :: ns => List.replicate n 1 ++ 0 :: unary ns

/-- Read numbers, the first of which has `k` marks before the bytes. -/
def readUnary : Nat → List UInt8 → List Nat
  | _, [] => []
  | k, 0 :: bytes => k :: readUnary 0 bytes
  | k, _ :: bytes => readUnary (k + 1) bytes

theorem readUnary_unary (k n : Nat) (ns : List Nat) :
    readUnary k (List.replicate n 1 ++ 0 :: unary ns) = (k + n) :: readUnary 0 (unary ns) := by
  induction n generalizing k with
  | zero => rfl
  | succ n ih =>
    have hmark : readUnary k (List.replicate (n + 1) 1 ++ 0 :: unary ns) =
        readUnary (k + 1) (List.replicate n 1 ++ 0 :: unary ns) := rfl
    rw [hmark, ih, Nat.add_right_comm]
    rfl

theorem readUnary_zero (ns : List Nat) : readUnary 0 (unary ns) = ns := by
  induction ns with
  | nil => rfl
  | cons n ns ih => rw [unary, readUnary_unary, ih, Nat.zero_add]

/-- Values that can be told from lists of numbers. -/
def Pickle.ofNumbers {α : Type} (write : α → List Nat) (read : List Nat → α)
    (read_write : ∀ a, read (write a) = a) : Pickle α where
  dumps a := unary (write a)
  loads bytes := .ok (read (readUnary 0 bytes))
  loads_dumps a := by rw [readUnary_zero, read_write]

def Cell.number : Cell → Nat
  | .zero => 0
  | .a => 1
  | .b => 2

def Cell.ofNumber : Nat → Cell
  | 0 => .zero
  | 1 => .a
  | _ => .b

def unaryGrids : Pickle (List Cell) :=
  .ofNumbers (List.map Cell.number) (List.map Cell.ofNumber) fun grid => by
    have hcell : Cell.ofNumber ∘ Cell.number = id := by
      funext cell
      cases cell <;> rfl
    rw [List.map_map, hcell, List.map_id]

def unarySolutions : Pickle (List Nat) := .ofNumbers id id fun _ => rfl

def unaryRecords : Pickle TaskResult :=
  .ofNumbers (fun record => record.valid.toNat :: record.solution)
    (fun numbers => ⟨numbers.tail, decide (numbers.headD 0 = 1)⟩) fun record => by
      obtain ⟨solution, valid⟩ := record
      cases valid <;> rfl

def unaryScripts : Externals :=
  scripts unaryGrids unarySolutions unaryRecords (fun _ => "UnpicklingError") id []

/-- The seven results, of which the first comes twice. -/
def cellResults : List WorkerResult :=
  ([0, 6, 5, 4, 0, 3, 2, 1].map fun id =>
    ⟨id, 0, unaryRecords.dumps ⟨[id + 1], decide (id = 6)⟩⟩)

def cellEvents : List (Event (List UInt8)) :=
  [.command (.addJob (unaryGrids.dumps [.zero]) 7), .processJob,
    .scheduler (.message .schedulerFree), .processJob, .processJob,
    .scheduler (.message (.taskResults cellResults)), .processJob, .processJob]

theorem executed_cell : ∀ result ∈ cellResults,
    Executed unaryGrids unarySolutions unaryRecords (unaryGrids.dumps [.zero]) result := by
  intro result hresult count combinations hsplit
  cases (splitter_of_loads (unaryGrids.loads_dumps [.zero])).symm.trans hsplit
  revert result
  decide +kernel

end GridServer.Necklace
