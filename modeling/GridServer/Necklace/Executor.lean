import GridServer.Library.Fallible
import Mathlib.Data.Nat.Sqrt

namespace GridServer.Necklace
open Library

/-- What a script raises. -/
inductive PyError where
  | indexError | keyError | zeroDivisionError | unpicklingError
deriving DecidableEq, Repr

/-- A cell of the grid: `'a'`, `'b'` or `'0'`. -/
inductive Cell where
  | a | b | zero
deriving DecidableEq, Repr

/-- `xs[i]`, which counts from the end below zero. -/
def pyGet {α : Type} (xs : List α) (i : Int) : Except PyError α :=
  let place := if i < 0 then xs.length + i else i
  if place < 0 then .error .indexError
  else
    match xs[place.toNat]? with
    | some x => .ok x
    | none => .error .indexError

def pyMod (a b : Nat) : Except PyError Nat :=
  if b = 0 then .error .zeroDivisionError else .ok (a % b)

/-- `solution[i] in tiles`. -/
def tileIn (solution : List Nat) (i : Int) (tiles : List Nat) : Except PyError Bool := do
  let tile ← pyGet solution i
  return decide (tile ∈ tiles)

/-- Two checks, of which the second is only made if the first passes. -/
def both (first second : Except PyError Bool) : Except PyError Bool := do
  if ← first then second else return false

/-- What is looked up around a cell, tile by tile. -/
def neighboursFit (solution : List Nat) (length i : Nat) : Except PyError Bool := do
  match ← pyGet solution i with
  | 1 => both (tileIn solution (i - 1) [2, 4, 6]) (tileIn solution (i + length) [3, 4, 5])
  | 2 => both (tileIn solution (i + 1) [1, 3, 6]) (tileIn solution (i + length) [3, 4, 5])
  | 3 => both (tileIn solution (i - 1) [2, 4, 6]) (tileIn solution (i - length) [1, 2, 5])
  | 4 => both (tileIn solution (i + 1) [1, 3, 6]) (tileIn solution (i - length) [1, 2, 5])
  | 5 => both (tileIn solution (i + length) [3, 4]) (tileIn solution (i - length) [1, 2])
  | 6 => both (tileIn solution (i + 1) [1, 3]) (tileIn solution (i - 1) [2, 4])
  | _ => return true

/-- `except IndexError: return False`. -/
def orFalse : Except PyError Bool → Except PyError Bool
  | .error .indexError => .ok false
  | r => r

def checkCell (solution : List Nat) (grid : List Cell) (size length i : Nat) :
    Except PyError Bool := do
  if !(← orFalse (neighboursFit solution length i)) then return false
  else
    let tile ← pyGet solution i
    if i < length ∧ tile ∈ [3, 4, 5] then return false
    else if size ≤ i + length ∧ tile ∈ [1, 2, 5] then return false
    else
      let column ← pyMod i length
      if column = 0 ∧ tile ∈ [1, 3, 6] then return false
      else if column = length - 1 ∧ tile ∈ [2, 4, 6] then return false
      else
        let cell ← pyGet grid i
        if cell = .a ∧ tile ∉ [1, 2, 3, 4] then return false
        else if cell = .b ∧ tile ∉ [5, 6] then return false
        else return true

/-- The loop over the cells, which ends at the first that does not fit. -/
def checkCells (solution : List Nat) (grid : List Cell) (size length : Nat) :
    List Nat → Except PyError Bool
  | [] => .ok true
  | i :: rest => do
    if ← checkCell solution grid size length i then
      checkCells solution grid size length rest
    else return false

/-- `int(math.sqrt(size))` is the floor of the root for the sizes that a list can have. -/
def isValidSolution (solution : List Nat) (grid : List Cell) : Except PyError Bool :=
  let size := grid.length
  let length := size.sqrt
  checkCells solution grid size length (List.range solution.length)

inductive Direction where
  | left | right | up | down
deriving DecidableEq, Repr

def Direction.opposite : Direction → Direction
  | left => right
  | right => left
  | up => down
  | down => up

/-- The sides on which a tile's line leaves its cell. -/
def openings : Nat → List Direction
  | 1 => [.left, .down]
  | 2 => [.right, .down]
  | 3 => [.left, .up]
  | 4 => [.right, .up]
  | 5 => [.up, .down]
  | 6 => [.left, .right]
  | _ => []

/-- The cell next to a cell of a grid of `L` rows of `L` cells. -/
def neighbour (L i : Nat) : Direction → Option Nat
  | .left => if i % L = 0 then none else some (i - 1)
  | .right => if i % L = L - 1 then none else some (i + 1)
  | .up => if i < L then none else some (i - L)
  | .down => if L * L ≤ i + L then none else some (i + L)

def tileAt (solution : List Nat) (i : Nat) : Nat := solution.getD i 7

/-- The tile of a cell with a dot bends in it or goes straight through, as the dot says. -/
def DotFits (grid : List Cell) (solution : List Nat) (i : Nat) : Prop :=
  (grid[i]? = some .a → tileAt solution i ∈ [1, 2, 3, 4]) ∧
    (grid[i]? = some .b → tileAt solution i ∈ [5, 6])

/-- Every line that leaves a cell goes on in the next one, and every dot is met. -/
structure Solves (L : Nat) (grid : List Cell) (solution : List Nat) : Prop where
  closed : ∀ i < L * L, ∀ d ∈ openings (tileAt solution i), ∃ j ∈ neighbour L i d,
    d.opposite ∈ openings (tileAt solution j)
  dots : ∀ i < L * L, DotFits grid solution i

/-- Two straight tiles in a row: one 5 above another or one 6 left of another. -/
def StraightPair (L : Nat) (solution : List Nat) : Prop :=
  ∃ i < L * L, (tileAt solution i = 5 ∧ ∃ j ∈ neighbour L i .down, tileAt solution j = 5) ∨
    (tileAt solution i = 6 ∧ ∃ j ∈ neighbour L i .right, tileAt solution j = 6)

section Tables

/-- The tiles that `neighboursFit` takes next to an opening of a tile. -/
def allowed : Nat → Direction → List Nat
  | 1, .left | 3, .left => [2, 4, 6]
  | 1, .down | 2, .down => [3, 4, 5]
  | 2, .right | 4, .right => [1, 3, 6]
  | 3, .up | 4, .up => [1, 2, 5]
  | 5, .down => [3, 4]
  | 5, .up => [1, 2]
  | 6, .right => [1, 3]
  | 6, .left => [2, 4]
  | _, _ => []

/-- Where `neighboursFit` looks. -/
def Direction.place (length i : Nat) : Direction → Int
  | left => i - 1
  | right => i + 1
  | up => i - length
  | down => i + length

/-- The two are the same straight tile. -/
def SameStraight (tile next : Nat) : Prop := next = tile ∧ (tile = 5 ∨ tile = 6)

instance (tile next : Nat) : Decidable (SameStraight tile next) :=
  inferInstanceAs (Decidable (_ ∧ _))

/-- The tables have every tile that opens back, but the same straight tile. -/
theorem mem_allowed_iff : ∀ tile < 7, ∀ next < 8, ∀ d ∈ openings tile,
    (next ∈ allowed tile d ↔ d.opposite ∈ openings next ∧ ¬SameStraight tile next) := by
  decide

theorem openings_of_le {tile : Nat} (h : 7 ≤ tile) : openings tile = [] := by
  match tile, h with
  | n + 7, _ => rfl

end Tables

section Cells
variable {solution : List Nat} {grid : List Cell} {L i j : Nat} {d : Direction}

theorem pyGet_of_lt {α : Type} {xs : List α} (h : i < xs.length) : pyGet xs i = .ok xs[i] := by
  have hneg : ¬(i : Int) < 0 := by omega
  simp [pyGet, hneg, h]

theorem pyGet_cases {α : Type} (xs : List α) (i : Int) :
    (∃ x, pyGet xs i = .ok x) ∨ pyGet xs i = .error .indexError := by
  simp only [pyGet]
  generalize (if i < 0 then (xs.length : Int) + i else i) = place
  by_cases hneg : place < 0
  · exact .inr (if_pos hneg)
  · rw [if_neg hneg]
    cases xs[place.toNat]? with
    | some x => exact .inl ⟨x, rfl⟩
    | none => exact .inr rfl

theorem pyGet_tile (h : i < solution.length) : pyGet solution i = .ok (tileAt solution i) := by
  simp [pyGet_of_lt h, tileAt, h]

theorem both_ok {first second : Except PyError Bool} :
    both first second = .ok true ↔ first = .ok true ∧ second = .ok true := by
  cases first with
  | error e => simp [both]
  | ok b => cases b <;> simp [both]

/-- The only thing that looking around a cell raises is what the check catches. -/
def Caught (r : Except PyError Bool) : Prop := (∃ b, r = .ok b) ∨ r = .error .indexError

theorem caught_tileIn (solution : List Nat) (i : Int) (tiles : List Nat) :
    Caught (tileIn solution i tiles) := by
  rcases pyGet_cases solution i with ⟨tile, h⟩ | h
  · exact .inl ⟨_, by rw [tileIn, h]; rfl⟩
  · exact .inr (by rw [tileIn, h]; rfl)

theorem Caught.both {first second : Except PyError Bool} (hfirst : Caught first)
    (hsecond : Caught second) : Caught (both first second) := by
  rcases hfirst with ⟨b, rfl⟩ | rfl
  · cases b with
    | true => exact hsecond
    | false => exact .inl ⟨false, rfl⟩
  · exact .inr rfl

theorem Caught.orFalse {r : Except PyError Bool} (h : Caught r) :
    orFalse r = .ok (decide (r = .ok true)) := by
  rcases h with ⟨b, rfl⟩ | rfl
  · cases b <;> rfl
  · rfl

/-- The neighbours fit when each opening of the tile finds a tile of its table. -/
theorem neighboursFit_iff (h : i < solution.length) :
    Caught (neighboursFit solution L i) ∧ (neighboursFit solution L i = .ok true ↔
      ∀ d ∈ openings (tileAt solution i),
        tileIn solution (d.place L i) (allowed (tileAt solution i) d) = .ok true) := by
  unfold neighboursFit
  rw [pyGet_tile h, ok_bind]
  generalize tileAt solution i = tile
  have hboth : ∀ a b : Int, ∀ as bs, Caught (both (tileIn solution a as) (tileIn solution b bs)) :=
    fun a b as bs => (caught_tileIn _ a as).both (caught_tileIn _ b bs)
  split
  case h_7 h1 h2 h3 h4 h5 h6 =>
    have hnone : openings tile = [] := by simp [openings]
    simp [hnone, Caught]
  all_goals
    refine ⟨hboth _ _ _ _, ?_⟩
    rw [both_ok]
    simp [openings, allowed, Direction.place]
  case h_5 => exact and_comm
  case h_6 => exact and_comm

theorem place_of_neighbour (hi : i < L * L) (h : j ∈ neighbour L i d) :
    d.place L i = j ∧ j < L * L := by
  have hpos : 0 < L := by
    by_contra hzero
    simp [Nat.eq_zero_of_not_pos hzero] at hi
  cases d with
  | left =>
    simp only [neighbour, Option.mem_def, Option.ite_none_left_eq_some, Option.some.injEq] at h
    obtain ⟨hcol, rfl⟩ := h
    have hne : i ≠ 0 := by
      rintro rfl
      exact hcol (Nat.zero_mod L)
    simp only [Direction.place]
    omega
  | right =>
    simp only [neighbour, Option.mem_def, Option.ite_none_left_eq_some, Option.some.injEq] at h
    obtain ⟨hcol, rfl⟩ := h
    refine ⟨by simp [Direction.place], ?_⟩
    -- The last cell of all ends its row.
    rcases Nat.lt_or_ge (i + 1) (L * L) with hlt | hge
    · exact hlt
    · refine absurd ?_ hcol
      have hlast : i = L * (L - 1) + (L - 1) := by
        have hmul : L * L = L * (L - 1) + L := by
          obtain ⟨k, rfl⟩ : ∃ k, L = k + 1 := ⟨L - 1, by omega⟩
          rw [Nat.add_sub_cancel, Nat.mul_succ]
        omega
      rw [hlast, Nat.mul_add_mod, Nat.mod_eq_of_lt (by omega)]
  | up =>
    simp only [neighbour, Option.mem_def, Option.ite_none_left_eq_some, Option.some.injEq] at h
    obtain ⟨hrow, rfl⟩ := h
    simp only [Direction.place]
    omega
  | down =>
    simp only [neighbour, Option.mem_def, Option.ite_none_left_eq_some, Option.some.injEq] at h
    obtain ⟨hrow, rfl⟩ := h
    simp only [Direction.place]
    omega

theorem tileIn_neighbour (hs : solution.length = L * L) (hi : i < L * L)
    (h : j ∈ neighbour L i d) (tiles : List Nat) :
    tileIn solution (d.place L i) tiles = .ok (decide (tileAt solution j ∈ tiles)) := by
  obtain ⟨hplace, hj⟩ := place_of_neighbour hi h
  rw [tileIn, hplace, pyGet_tile (hs ▸ hj)]
  rfl

/-- The line of the tile leaves the grid, as the rules for the border have it. -/
def Leaves (L i tile : Nat) : Prop :=
  (i < L ∧ tile ∈ [3, 4, 5]) ∨ (L * L ≤ i + L ∧ tile ∈ [1, 2, 5]) ∨
    (i % L = 0 ∧ tile ∈ [1, 3, 6]) ∨ (i % L = L - 1 ∧ tile ∈ [2, 4, 6])

instance (L i tile : Nat) : Decidable (Leaves L i tile) := inferInstanceAs (Decidable (_ ∨ _))

theorem not_leaves_iff {tile : Nat} :
    ¬Leaves L i tile ↔ ∀ d ∈ openings tile, neighbour L i d ≠ none := by
  match tile with
  | 0 | 5 | 6 => simp [Leaves, openings, neighbour]
  | 1 | 2 | 3 | 4 => simp [Leaves, openings, neighbour, and_comm]
  | n + 7 => simp [Leaves, openings]

/-- What the check asks of a cell. -/
def CellFits (L : Nat) (grid : List Cell) (solution : List Nat) (i : Nat) : Prop :=
  (∀ d ∈ openings (tileAt solution i), ∃ j ∈ neighbour L i d,
    tileAt solution j ∈ allowed (tileAt solution i) d) ∧ DotFits grid solution i

theorem cellFits_iff (hs : solution.length = L * L) (hi : i < L * L) :
    CellFits L grid solution i ↔ neighboursFit solution L i = .ok true ∧
      ¬Leaves L i (tileAt solution i) ∧ DotFits grid solution i := by
  rw [(neighboursFit_iff (hs ▸ hi)).2, not_leaves_iff, CellFits, ← and_assoc]
  refine and_congr_left fun _ => ?_
  rw [← forall₂_and]
  refine forall₂_congr fun d _ => ?_
  cases hd : neighbour L i d with
  | none => simp
  | some j => simp [tileIn_neighbour hs hi hd]

instance (i : Nat) : Decidable (DotFits grid solution i) := inferInstanceAs (Decidable (_ ∧ _))

instance (i : Nat) : Decidable (CellFits L grid solution i) := inferInstanceAs (Decidable (_ ∧ _))

/-- A check that refuses a cell before the checks that follow. -/
theorem refuse {P Q : Prop} [Decidable P] [Decidable Q] {r : Except PyError Bool}
    (h : r = .ok (decide Q)) :
    (if P then .ok false else r) = (.ok (decide (¬P ∧ Q)) : Except PyError Bool) := by
  by_cases hP : P
  · simp [hP]
  · simp [hP, h]

theorem checkCell_eq (hL : 1 ≤ L) (hgrid : grid.length = L * L) (hs : solution.length = L * L)
    (hi : i < L * L) :
    checkCell solution grid (L * L) L i = .ok (decide (CellFits L grid solution i)) := by
  have hcaught := (neighboursFit_iff (L := L) (hs ▸ hi)).1.orFalse
  have hcell : pyGet grid i = .ok grid[i] := pyGet_of_lt (hgrid ▸ hi)
  have hcol : pyMod i L = .ok (i % L) := if_neg (by omega)
  have hdot : DotFits grid solution i ↔ ¬(grid[i] = .a ∧ tileAt solution i ∉ [1, 2, 3, 4]) ∧
      ¬(grid[i] = .b ∧ tileAt solution i ∉ [5, 6]) := by
    rw [DotFits, List.getElem?_eq_getElem (hgrid ▸ hi), Option.some.injEq, Option.some.injEq,
      not_and_not_right, not_and_not_right]
  rw [checkCell, hcaught, ok_bind, pyGet_tile (hs ▸ hi)]
  simp only [hcell, hcol, ok_bind, except_pure]
  have hend : (.ok true : Except PyError Bool) = .ok (decide True) := rfl
  refine (refuse (refuse (refuse (refuse (refuse (refuse (refuse hend))))))).trans ?_
  rw [Except.ok.injEq, decide_eq_decide, cellFits_iff hs hi, hdot, Leaves]
  simp only [Bool.not_eq_true', decide_eq_false_iff_not, not_not, not_or]
  tauto

theorem checkCells_eq (hL : 1 ≤ L) (hgrid : grid.length = L * L) (hs : solution.length = L * L)
    {cells : List Nat} (hcells : ∀ i ∈ cells, i < L * L) :
    checkCells solution grid (L * L) L cells =
      .ok (decide (∀ i ∈ cells, CellFits L grid solution i)) := by
  induction cells with
  | nil => simp [checkCells]
  | cons i cells ih =>
    rw [checkCells, checkCell_eq hL hgrid hs (hcells i List.mem_cons_self), ok_bind,
      ih fun k hk => hcells k (List.mem_cons_of_mem _ hk)]
    by_cases hi : CellFits L grid solution i
    · simp [hi]
    · simp [hi]

/-- The check is over a square grid, and goes through all of its cells. -/
theorem isValidSolution_eq (hL : 1 ≤ L) (hgrid : grid.length = L * L)
    (hs : solution.length = L * L) :
    isValidSolution solution grid = .ok (decide (∀ i < L * L, CellFits L grid solution i)) := by
  rw [isValidSolution, hgrid, hs, Nat.sqrt_eq, checkCells_eq hL hgrid hs]
  · simp only [List.mem_range]
  · simp

theorem opposite_neighbour (hi : i < L * L) (h : j ∈ neighbour L i d) :
    i ∈ neighbour L j d.opposite := by
  have hrow := Nat.div_add_mod i L
  have hcol : i % L < L := Nat.mod_lt _ (Nat.pos_of_ne_zero (by rintro rfl; simp at hi))
  cases d with
  | left =>
    simp only [neighbour, Option.mem_def, Option.ite_none_left_eq_some, Option.some.injEq] at h
    obtain ⟨hne, rfl⟩ := h
    have hprev : (i - 1) % L = i % L - 1 := by
      have hi' : i - 1 = L * (i / L) + (i % L - 1) := by omega
      rw [hi', Nat.mul_add_mod, Nat.mod_eq_of_lt (by omega)]
    simp only [Direction.opposite, neighbour, hprev, Option.mem_def,
      Option.ite_none_left_eq_some, Option.some.injEq]
    omega
  | right =>
    simp only [neighbour, Option.mem_def, Option.ite_none_left_eq_some, Option.some.injEq] at h
    obtain ⟨hne, rfl⟩ := h
    have hnext : (i + 1) % L = i % L + 1 := by
      have hi' : i + 1 = L * (i / L) + (i % L + 1) := by omega
      rw [hi', Nat.mul_add_mod, Nat.mod_eq_of_lt (by omega)]
    simp only [Direction.opposite, neighbour, hnext, Option.mem_def,
      Option.ite_none_left_eq_some, Option.some.injEq]
    omega
  | up | down =>
    simp only [neighbour, Option.mem_def, Option.ite_none_left_eq_some, Option.some.injEq] at h
    obtain ⟨hne, rfl⟩ := h
    simp only [Direction.opposite, neighbour, Option.mem_def, Option.ite_none_left_eq_some,
      Option.some.injEq]
    omega

/-- The tiles that stand for no line or for one of the six. -/
theorem tileAt_lt (tiles : ∀ t ∈ solution, 1 ≤ t ∧ t ≤ 7) (i : Nat) : tileAt solution i < 8 := by
  rw [tileAt, List.getD_eq_getElem?_getD]
  cases h : solution[i]? with
  | none => simp
  | some t =>
    have ht := tiles t (List.mem_of_getElem? h)
    simp only [Option.getD_some]
    omega

/-- All cells fit when the candidate solves the grid and has no two straight tiles in a row. -/
theorem forall_cellFits_iff (tiles : ∀ t ∈ solution, 1 ≤ t ∧ t ≤ 7) :
    (∀ i < L * L, CellFits L grid solution i) ↔
      Solves L grid solution ∧ ¬StraightPair L solution := by
  have htable : ∀ i, ∀ d ∈ openings (tileAt solution i), ∀ j,
      (tileAt solution j ∈ allowed (tileAt solution i) d ↔
        d.opposite ∈ openings (tileAt solution j) ∧
          ¬SameStraight (tileAt solution i) (tileAt solution j)) := by
    intro i d hd j
    have hlt : tileAt solution i < 7 := by
      by_contra hge
      rw [openings_of_le (Nat.le_of_not_lt hge)] at hd
      exact List.not_mem_nil hd
    exact mem_allowed_iff _ hlt _ (tileAt_lt tiles j) d hd
  constructor
  · intro h
    refine ⟨⟨?_, fun i hi => (h i hi).2⟩, ?_⟩
    · intro i hi d hd
      obtain ⟨j, hj, hallowed⟩ := (h i hi).1 d hd
      exact ⟨j, hj, ((htable i d hd j).mp hallowed).1⟩
    · intro ⟨i, hi, hpair⟩
      have hrow : ∀ d ∈ openings (tileAt solution i), ∀ j ∈ neighbour L i d,
          ¬SameStraight (tileAt solution i) (tileAt solution j) := by
        intro d hd j hj
        obtain ⟨k, hk, hallowed⟩ := (h i hi).1 d hd
        obtain rfl : j = k := Option.some.inj (hj.symm.trans hk)
        exact ((htable i d hd j).mp hallowed).2
      rcases hpair with ⟨htile, j, hj, hnext⟩ | ⟨htile, j, hj, hnext⟩
      · exact hrow .down (by simp [htile, openings]) j hj (by simp [SameStraight, htile, hnext])
      · exact hrow .right (by simp [htile, openings]) j hj (by simp [SameStraight, htile, hnext])
  · intro ⟨solves, nopair⟩ i hi
    refine ⟨?_, solves.dots i hi⟩
    intro d hd
    obtain ⟨j, hj, hback⟩ := solves.closed i hi d hd
    refine ⟨j, hj, (htable i d hd j).mpr ⟨hback, ?_⟩⟩
    intro ⟨hnext, hstraight⟩
    have hj' := (place_of_neighbour hi hj).2
    have hopp := opposite_neighbour hi hj
    refine nopair ?_
    rcases hstraight with htile | htile
    · rw [htile] at hnext
      simp only [htile, openings, List.mem_cons, List.not_mem_nil, or_false] at hd
      rcases hd with rfl | rfl
      · exact ⟨j, hj', .inl ⟨hnext, i, hopp, htile⟩⟩
      · exact ⟨i, hi, .inl ⟨htile, j, hj, hnext⟩⟩
    · rw [htile] at hnext
      simp only [htile, openings, List.mem_cons, List.not_mem_nil, or_false] at hd
      rcases hd with rfl | rfl
      · exact ⟨j, hj', .inr ⟨hnext, i, hopp, htile⟩⟩
      · exact ⟨i, hi, .inr ⟨htile, j, hj, hnext⟩⟩

/-- The check says which candidates solve the grid, but for those with two straight tiles in a row,
of which it takes none. -/
theorem isValidSolution_iff (L : Nat) (grid : List Cell) (solution : List Nat) (hL : 1 ≤ L)
    (hgrid : grid.length = L * L) (hs : solution.length = L * L)
    (tiles : ∀ t ∈ solution, 1 ≤ t ∧ t ≤ 7) :
    (∃ valid, isValidSolution solution grid = .ok valid ∧
      (valid = true ↔ Solves L grid solution)) ↔
        ¬(Solves L grid solution ∧ StraightPair L solution) := by
  rw [isValidSolution_eq hL hgrid hs]
  simp only [Except.ok.injEq, exists_eq_left', decide_eq_true_eq, forall_cellFits_iff tiles]
  tauto

/-- A loop of two columns and four rows, in a grid without dots. -/
def tallLoop : List Nat := [2, 1, 7, 7, 5, 5, 7, 7, 5, 5, 7, 7, 4, 3, 7, 7]

/-- The check does not take the loop. -/
theorem not_forall_isValidSolution : ¬∀ (L : Nat) (grid : List Cell) (solution : List Nat), 1 ≤ L →
    grid.length = L * L → solution.length = L * L → (∀ t ∈ solution, 1 ≤ t ∧ t ≤ 7) →
    ∃ valid, isValidSolution solution grid = .ok valid ∧
      (valid = true ↔ Solves L grid solution) := by
  intro h
  obtain ⟨valid, hvalid, hiff⟩ :=
    h 4 (List.replicate 16 .zero) tallLoop (by decide) rfl rfl (by decide)
  have hsolves : Solves 4 (List.replicate 16 .zero) tallLoop := ⟨by decide, by decide⟩
  have hrefused : ¬∀ i < 4 * 4, CellFits 4 (List.replicate 16 .zero) tallLoop i := by decide
  rw [isValidSolution_eq (L := 4) (by decide) rfl rfl, hiff.mpr hsolves, Except.ok.injEq,
    decide_eq_true_eq] at hvalid
  exact hrefused hvalid

/-- A loop around the middle of nine cells. -/
theorem isValidSolution_iff_three : (∃ valid,
    isValidSolution [2, 6, 1, 5, 7, 5, 4, 6, 3] [.a, .b, .zero, .b, .zero, .b, .a, .b, .a] =
        .ok valid ∧
      (valid = true ↔
        Solves 3 [.a, .b, .zero, .b, .zero, .b, .a, .b, .a] [2, 6, 1, 5, 7, 5, 4, 6, 3])) ↔
    ¬(Solves 3 [.a, .b, .zero, .b, .zero, .b, .a, .b, .a] [2, 6, 1, 5, 7, 5, 4, 6, 3] ∧
      StraightPair 3 [2, 6, 1, 5, 7, 5, 4, 6, 3]) :=
  isValidSolution_iff 3 _ _ (by decide) rfl rfl (by decide)

end Cells

end GridServer.Necklace
