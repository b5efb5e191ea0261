import GridServer.Necklace.Executor
import Mathlib.Tactic.DeriveEncodable
import Mathlib.Logic.Equiv.List
import Mathlib.Data.List.Forall2

namespace GridServer.Necklace
open Library

deriving instance Encodable for Cell

/-- `pickle.dumps` and `pickle.loads` on values of a type. -/
structure Pickle (α : Type) where
  dumps : α → List UInt8
  loads : List UInt8 → Except PyError α
  loads_dumps : ∀ a, loads (dumps a) = .ok a

/-- There is one for any values that can be numbered. -/
def Pickle.ofEncodable (α : Type) [Encodable α] : Pickle α where
  dumps a := List.replicate (Encodable.encode a) 0
  loads bytes :=
    match (Encodable.decode bytes.length : Option α) with
    | some a => .ok a
    | none => .error .unpicklingError
  loads_dumps := by
    intro a
    rw [List.length_replicate, Encodable.encodek]

/-- What `execute_job` finds out about a candidate. -/
structure TaskResult where
  solution : List Nat
  valid : Bool
deriving DecidableEq, Encodable, Repr

/-- `symbol_map`. -/
def symbolMap : Nat → Except PyError Char
  | 1 => .ok '\u2510'
  | 2 => .ok '\u250C'
  | 3 => .ok '\u2518'
  | 4 => .ok '\u2514'
  | 5 => .ok '\u2502'
  | 6 => .ok '\u2500'
  | 7 => .ok ' '
  | _ => .error .keyError

/-- The function makes the matrix and ends without returning it, so its value is `None`. -/
def formatMatrix (solution : List Nat) (size : Nat) :
    Except PyError (Option (List (List Char))) := do
  let length := size.sqrt
  let _ ← (List.range length).mapM fun i => do
    let row := (solution.drop (i * length)).take length
    row.mapM symbolMap
  return none

/-- A text within quotes, with what is not ASCII escaped. -/
def dumpsChar (c : Char) : List Char :=
  if c.toNat < 128 then ['"', c, '"']
  else ['"', '\\', 'u'] ++ (Nat.toDigits 16 c.toNat).leftpad 4 '0' ++ ['"']

/-- Items with `", "` between them. -/
def commas : List (List Char) → List Char
  | [] => []
  | [item] => item
  | item :: items => item ++ [',', ' '] ++ commas items

def dumpsList (items : List (List Char)) : List Char := ['['] ++ commas items ++ [']']

def dumpsValue : Option (List (List Char)) → List Char
  | none => ['n', 'u', 'l', 'l']
  | some matrix => dumpsList (matrix.map fun row => dumpsList (row.map dumpsChar))

/-- `json.dumps` of a dict, whose keys become texts. -/
def dumps (fields : List (Nat × Option (List (List Char)))) : List Char :=
  ['\x7b'] ++ commas (fields.map fun field =>
    ['"'] ++ Nat.toDigits 10 field.1 ++ ['"', ':', ' '] ++ dumpsValue field.2) ++ ['\x7d']

/-- `{ idx: value for idx, value in enumerate(values) }`. -/
def enumerated (values : List (Option (List (List Char)))) :
    List (Nat × Option (List (List Char))) :=
  values.zipIdx.map Prod.swap

section
variable (grids : Pickle (List Cell)) (solutions : Pickle (List Nat)) (records : Pickle TaskResult)

def executeJob (jobData taskData : List UInt8) : Except PyError (List UInt8) := do
  let grid ← grids.loads jobData
  let solution ← solutions.loads taskData
  let valid ← isValidSolution solution grid
  return records.dumps ⟨solution, valid⟩

def reducer (job : List UInt8) (results : List (List UInt8)) : Except PyError (List Char) := do
  let grid ← grids.loads job
  let results ← results.mapM records.loads
  let outputs := (results.filter TaskResult.valid).map TaskResult.solution
  let size := grid.length
  let formateOutputs ← outputs.mapM fun solution => formatMatrix solution size
  return dumps (enumerated formateOutputs)

end

/-- The matrix has `L` rows of `L` symbols, at `(i, j)` that of the tile `i * L + j`. -/
def Renders (L : Nat) (solution : List Nat) (matrix : List (List Char)) : Prop :=
  matrix.length = L ∧ ∀ i < L, ∃ row, matrix[i]? = some row ∧ row.length = L ∧
    ∀ j < L, ∃ tile symbol, solution[i * L + j]? = some tile ∧ symbolMap tile = .ok symbol ∧
      row[j]? = some symbol

variable {grids : Pickle (List Cell)} {solutions : Pickle (List Nat)}
  {records : Pickle TaskResult} {grid : List Cell} {results : List TaskResult} {L : Nat}

/-- What the executors send back on a square grid. -/
theorem executeJob_eq {solution : List Nat} (hL : 1 ≤ L) (hgrid : grid.length = L * L)
    (hs : solution.length = L * L) :
    executeJob grids solutions records (grids.dumps grid) (solutions.dumps solution) =
      .ok (records.dumps ⟨solution, decide (∀ i < L * L, CellFits L grid solution i)⟩) := by
  rw [executeJob, grids.loads_dumps, ok_bind, solutions.loads_dumps, ok_bind,
    isValidSolution_eq hL hgrid hs]
  rfl

/-- Whatever the solution is, there is nothing in its place. -/
theorem formatMatrix_ok {solution : List Nat} {size : Nat} {value : Option (List (List Char))}
    (h : formatMatrix solution size = .ok value) : value = none := by
  simp only [formatMatrix, bind_ok, except_pure, Except.ok.injEq] at h
  obtain ⟨_, _, rfl⟩ := h
  rfl

theorem mapM_formatMatrix {outputs : List (List Nat)} {size : Nat}
    {values : List (Option (List (List Char)))}
    (h : outputs.mapM (fun solution => formatMatrix solution size) = .ok values) :
    values = List.replicate outputs.length none := by
  induction outputs generalizing values with
  | nil =>
    cases h
    rfl
  | cons solution outputs ih =>
    rw [List.mapM_cons] at h
    obtain ⟨value, hvalue, h⟩ := bind_ok.mp h
    obtain ⟨rest, hrest, h⟩ := bind_ok.mp h
    cases h
    rw [formatMatrix_ok hvalue, ih hrest]
    rfl

theorem mapM_loads (records : Pickle TaskResult) (results : List TaskResult) :
    (results.map records.dumps).mapM records.loads = .ok results := by
  induction results with
  | nil => rfl
  | cons result results ih =>
    rw [List.map_cons, List.mapM_cons, records.loads_dumps, ok_bind, ih]
    rfl

/-- The answer says how many valid solutions there are, and nothing else about them. -/
theorem reducer_ok {text : List Char}
    (h : reducer grids records (grids.dumps grid) (results.map records.dumps) = .ok text) :
    text = dumps (enumerated (List.replicate (results.filter TaskResult.valid).length none)) := by
  rw [reducer, grids.loads_dumps, ok_bind, mapM_loads, ok_bind] at h
  obtain ⟨values, hvalues, h⟩ := bind_ok.mp h
  cases h
  rw [mapM_formatMatrix hvalues, List.length_map]

theorem reducer_none (h : results.filter TaskResult.valid = []) :
    reducer grids records (grids.dumps grid) (results.map records.dumps) =
      .ok (dumps (enumerated [])) := by
  rw [reducer, grids.loads_dumps, ok_bind, mapM_loads, ok_bind, h]
  rfl

theorem commas_cons (item : List Char) (items : List (List Char)) :
    ∃ rest, commas (item :: items) = item ++ rest := by
  cases items with
  | nil => exact ⟨[], (List.append_nil item).symm⟩
  | cons next items => exact ⟨_, List.append_assoc item _ _⟩

/-- How the text of a dict that is not empty begins. -/
theorem dumps_cons (value : Option (List (List Char))) (values : List _) :
    ∃ rest, dumps (enumerated (value :: values)) =
      ['\x7b', '"', '0', '"', ':', ' '] ++ (dumpsValue value ++ rest) := by
  obtain ⟨rest, hrest⟩ := commas_cons
    (['"'] ++ Nat.toDigits 10 0 ++ ['"', ':', ' '] ++ dumpsValue value)
    (((values.zipIdx 1).map Prod.swap).map fun field =>
      ['"'] ++ Nat.toDigits 10 field.1 ++ ['"', ':', ' '] ++ dumpsValue field.2)
  refine ⟨rest ++ ['\x7d'], ?_⟩
  simp only [dumps, enumerated, List.zipIdx_cons, List.map_cons, Prod.swap_prod_mk, hrest]
  simp

/-- `null` is the text of no matrix. -/
theorem dumps_ne (matrix : List (List Char)) (values values' : List _) :
    dumps (enumerated (none :: values)) ≠ dumps (enumerated (some matrix :: values')) := by
  obtain ⟨rest, hrest⟩ := dumps_cons none values
  obtain ⟨rest', hrest'⟩ := dumps_cons (some matrix) values'
  rw [hrest, hrest', Ne, List.append_cancel_left_eq]
  simp [dumpsValue, dumpsList]

/-- The rendering of a solution is lost, so the answer is the right one exactly when there is
nothing to render. -/
theorem reducer_iff (grids : Pickle (List Cell)) (records : Pickle TaskResult) (L : Nat)
    (grid : List Cell) (results : List TaskResult) :
    (∃ matrices, List.Forall₂ (Renders L)
        ((results.filter TaskResult.valid).map TaskResult.solution) matrices ∧
      reducer grids records (grids.dumps grid) (results.map records.dumps) =
        .ok (dumps (enumerated (matrices.map some)))) ↔
      ∀ result ∈ results, result.valid = false := by
  constructor
  · intro ⟨matrices, hmatrices, hreducer⟩ result hresult
    by_contra hvalid
    have hmem : result ∈ results.filter TaskResult.valid :=
      List.mem_filter.mpr ⟨hresult, Bool.eq_true_of_not_eq_false hvalid⟩
    have htext := reducer_ok hreducer
    have hlength := hmatrices.length_eq
    rw [List.length_map] at hlength
    obtain ⟨n, hn⟩ := Nat.exists_eq_succ_of_ne_zero
      (Nat.ne_of_gt (List.length_pos_of_mem hmem))
    rw [hn] at hlength
    cases matrices with
    | nil => cases hlength
    | cons matrix matrices =>
      rw [hn, List.replicate_succ, List.map_cons] at htext
      exact dumps_ne _ _ _ htext.symm
  · intro hnone
    have hfilter : results.filter TaskResult.valid = [] := by
      rw [List.filter_eq_nil_iff]
      intro result hresult
      simp [hnone result hresult]
    refine ⟨[], ?_, reducer_none hfilter⟩
    rw [hfilter]
    exact .nil

/-- One valid solution of one cell: the answer has `null` for it, and not the matrix of one
blank. -/
theorem not_forall_reducer : ¬∀ (grids : Pickle (List Cell)) (records : Pickle TaskResult) (L : Nat)
    (grid : List Cell) (results : List TaskResult), grid.length = L * L →
    (∀ result ∈ results, result.solution.length = L * L ∧
      ∀ tile ∈ result.solution, 1 ≤ tile ∧ tile ≤ 7) →
    ∃ matrices, List.Forall₂ (Renders L)
        ((results.filter TaskResult.valid).map TaskResult.solution) matrices ∧
      reducer grids records (grids.dumps grid) (results.map records.dumps) =
        .ok (dumps (enumerated (matrices.map some))) := by
  intro h
  obtain ⟨matrices, hmatrices, hreducer⟩ := h (.ofEncodable _) (.ofEncodable _) 1 [.zero]
    [⟨[7], true⟩] rfl (by simp)
  have htext := reducer_ok hreducer
  cases hmatrices with
  | cons _ _ => exact dumps_ne _ _ _ htext.symm

end GridServer.Necklace
