import GridServer.Library.ShortestPath
import GridServer.Shared.BitSet
import Mathlib.Data.List.MinMax
import Mathlib.Data.Prod.Lex

namespace GridServer.PathFinding
open Library Library.ShortestPath

/-- `u32::MAX`. -/
def u32Max : UInt32 := 4294967295

def u32Add (checks : Bool) (a b : UInt32) : Except Fault UInt32 := do
  let sum ← addBits 32 checks a.toNat b.toNat
  return UInt32.ofNat sum

/-- The entries of a `BinaryHeap<Reverse<(u32, usize)>>`. -/
abbrev Heap := List (UInt32 × Nat)

namespace Heap

/-- `pop` takes a maximal element. The order of the pairs is reversed, so it is the least pair. -/
def pop (heap : Heap) : Option ((UInt32 × Nat) × Heap) :=
  (heap.argmin fun entry => toLex (entry.1.toNat, entry.2)).map fun least =>
    (least, heap.erase least)

end Heap

/-- The variables of the search. -/
structure Search where
  pQueue : Heap
  visited : BitSet
  distances : List UInt32

/-- The variables before the loop. -/
def Search.new (vertices start : Nat) : Search :=
  { pQueue := [(0, start)]
    visited := BitSet.new
    distances := (List.replicate vertices u32Max).set start 0 }

/-- The body of the loop over the neighbors. -/
def relax (checks : Bool) (currentDistance : UInt32) (s : Search) (neighbor : Nat)
    (weight : UInt32) : Except Fault Search :=
  if weight ≠ u32Max ∧ s.visited.contains neighbor = false then do
    let distance ← u32Add checks currentDistance weight
    match s.distances[neighbor]? with
    | none => .error .indexOutOfBounds
    | some known =>
      if distance < known then
        return { s with
          distances := s.distances.set neighbor distance
          pQueue := (distance, neighbor) :: s.pQueue }
      else return s
  else .ok s

def relaxAll (checks : Bool) (currentDistance : UInt32) :
    Nat → List UInt32 → Search → Except Fault Search
  | _, [], s => .ok s
  | neighbor, weight :: row, s => do
    let s ← relax checks currentDistance s neighbor weight
    relaxAll checks currentDistance (neighbor + 1) row s

/-- What is done with an entry whose vertex has not been visited. -/
def visit (checks : Bool) (graph : List (List UInt32)) (s : Search) (currentDistance : UInt32)
    (currentVertex : Nat) : Except Fault Search := do
  let (visited, _) ← s.visited.insert checks currentVertex
  match graph[currentVertex]? with
  | none => .error .indexOutOfBounds
  | some row => relaxAll checks currentDistance 0 row { s with visited := visited }

def search (checks : Bool) (graph : List (List UInt32)) : Nat → Search → Except Fault (List UInt32)
  | 0, _ => .error .diverged
  | rounds + 1, s =>
    match s.pQueue.pop with
    | none => .ok s.distances
    | some ((currentDistance, currentVertex), pQueue) =>
      let s := { s with pQueue := pQueue }
      if s.visited.contains currentVertex then search checks graph rounds s
      else do
        let s ← visit checks graph s currentDistance currentVertex
        search checks graph rounds s

/-- Every round takes an entry from the queue, the last one excepted, and every vertex files one for
each of its neighbors at most. -/
def dijkstra (checks : Bool) (graph : List (List UInt32)) (start : Nat) :
    Except Fault (List UInt32) :=
  if start < graph.length then
    search checks graph (graph.length * graph.length + 2) (Search.new graph.length start)
  else .error .indexOutOfBounds

/-- The length that a number stands for. -/
def finite (x : UInt32) : Option ℕ := if x = u32Max then none else some x.toNat

/-- The weight of the edge from one vertex to another. -/
def weight (graph : List (List UInt32)) (u v : Nat) : Option ℕ := do
  let row ← graph[u]?
  let x ← row[v]?
  finite x

def Edge (graph : List (List UInt32)) (u v c : ℕ) : Prop := weight graph u v = some c

/-- The distance that a vector has for a vertex. -/
def known (distances : List UInt32) (v : Nat) : Option ℕ := distances[v]?.bind finite

/-- A square matrix, of a length that a vector can have. -/
structure Square (graph : List (List UInt32)) : Prop where
  rows : ∀ row ∈ graph, row.length = graph.length
  fits : graph.length < 2 ^ 64

/-- What the search adds up stays below `u32::MAX`. -/
def Short (graph : List (List UInt32)) (start : Nat) : Prop :=
  ∀ u d x c, IsDistance (Edge graph) start u d → Edge graph u x c → d + c < u32Max.toNat

/-- The entries with their distances as numbers. -/
def Heap.queue (heap : Heap) : List (ℕ × ℕ) := heap.map fun entry => (entry.1.toNat, entry.2)

/-- The search for the distances from `start` is under way. -/
structure Under (checks : Bool) (graph : List (List UInt32)) (start : Nat) (settled : Finset ℕ)
    (s : Search) : Prop where
  searching : Searching (Edge graph) start (known s.distances) settled s.pQueue.queue
  length : s.distances.length = graph.length
  visited : s.visited.Represents checks settled
  vertices : settled ⊆ Finset.range graph.length
  entries : ∀ entry ∈ s.pQueue, entry.2 < graph.length

section
variable {checks : Bool} {graph : List (List UInt32)} {start : Nat} {settled : Finset ℕ}
  {s t : Search} {heap heap' : Heap} {entry : UInt32 × Nat} {a b : UInt32} {w : ℕ}

theorem u32Max_toNat : u32Max.toNat = 2 ^ 32 - 1 := rfl

theorem u32Add_of_lt (h : a.toNat + b.toNat < 2 ^ 32) (checks : Bool) :
    ∃ c, u32Add checks a b = .ok c ∧ c.toNat = a.toNat + b.toNat := by
  refine ⟨UInt32.ofNat (a.toNat + b.toNat), ?_, UInt32.toNat_ofNat_of_lt h⟩
  rw [u32Add, addBits_of_lt h]
  rfl

theorem finite_eq_some {c : ℕ} : finite a = some c ↔ a ≠ u32Max ∧ a.toNat = c := by
  unfold finite
  by_cases h : a = u32Max
  · simp [h]
  · simp [h]

theorem finite_of_lt (h : a.toNat < u32Max.toNat) : finite a = some a.toNat :=
  finite_eq_some.mpr ⟨fun ha => Nat.ne_of_lt h (congrArg UInt32.toNat ha), rfl⟩

theorem Heap.pop_none (h : heap.pop = none) : heap = [] :=
  List.argmin_eq_none.mp (Option.map_eq_none_iff.mp h)

theorem Heap.pop_some (h : heap.pop = some (entry, heap')) :
    entry ∈ heap ∧ heap' = heap.erase entry ∧ ∀ other ∈ heap, entry.1.toNat ≤ other.1.toNat := by
  obtain ⟨least, hleast, he⟩ := Option.map_eq_some_iff.mp h
  obtain ⟨rfl, rfl⟩ := Prod.mk.inj he
  refine ⟨List.argmin_mem hleast, rfl, ?_⟩
  intro other hother
  have hle := List.le_of_mem_argmin hother hleast
  rcases Prod.Lex.toLex_le_toLex.mp hle with hlt | ⟨heq, _⟩
  · exact Nat.le_of_lt hlt
  · exact Nat.le_of_eq heq

theorem known_set {distances : List UInt32} {i : Nat} (h : i < distances.length) (a : UInt32) :
    known (distances.set i a) = Function.update (known distances) i (finite a) := by
  funext v
  unfold known
  by_cases hv : v = i
  · rw [hv, List.getElem?_set_self h, Function.update_self]
    rfl
  · rw [List.getElem?_set_ne (Ne.symm hv), Function.update_of_ne hv]

/-- What one neighbor's relaxation does. -/
theorem relax_ok (checks : Bool) (current w : UInt32) {i : Nat} (hi : i < s.distances.length)
    (visited : s.visited.Represents checks settled)
    (fits : i ∉ settled → ∀ c, finite w = some c → current.toNat + c < u32Max.toNat) :
    ∃ t, relax checks current s i w = .ok t ∧ t.visited = s.visited ∧
      t.distances.length = s.distances.length ∧ t.pQueue.length ≤ s.pQueue.length + 1 ∧
      (∀ entry ∈ t.pQueue, entry ∈ s.pQueue ∨ entry.2 = i) ∧
      Relaxed settled current.toNat (fun x c => x = i ∧ finite w = some c) (known s.distances)
        (known t.distances) s.pQueue.queue t.pQueue.queue := by
  by_cases htry : w ≠ u32Max ∧ s.visited.contains i = false
  · obtain ⟨hfinite, hnew⟩ := htry
    rw [visited.contains, decide_eq_false_iff_not] at hnew
    have hweight : finite w = some w.toNat := finite_eq_some.mpr ⟨hfinite, rfl⟩
    have hlt := fits hnew _ hweight
    rw [u32Max_toNat] at hlt
    obtain ⟨distance, hadd, hdistance⟩ := u32Add_of_lt (a := current) (b := w) (by omega) checks
    obtain ⟨before, hbefore⟩ : ∃ before, s.distances[i]? = some before :=
      ⟨_, List.getElem?_eq_getElem hi⟩
    have htry : w ≠ u32Max ∧ s.visited.contains i = false :=
      ⟨hfinite, by rw [visited.contains, decide_eq_false_iff_not]; exact hnew⟩
    have hknown : known s.distances i = finite before := by
      rw [known, hbefore]
      rfl
    have hout : ∀ x c, (x = i ∧ c = w.toNat) ↔ (x = i ∧ finite w = some c) := by
      intro x c
      rw [hweight, Option.some.injEq, eq_comm (a := c)]
    rw [relax, if_pos htry, hadd, ok_bind, hbefore]
    by_cases hbetter : distance < before
    · refine ⟨_, if_pos hbetter, rfl, List.length_set .., Nat.le_refl _, ?_, ?_⟩
      · intro entry hentry
        rcases List.mem_cons.mp hentry with rfl | hold
        · exact .inr rfl
        · exact .inl hold
      · have hlength : finite distance = some (current.toNat + w.toNat) := by
          rw [finite_of_lt (by rw [hdistance, u32Max_toNat]; omega), hdistance]
        refine .congr ?_ hout
        rw [known_set hi, hlength]
        change Relaxed _ _ _ _ _ _ ((distance.toNat, i) :: s.pQueue.queue)
        rw [hdistance]
        refine .improve hnew ?_
        intro e he
        rw [hknown, finite_eq_some] at he
        obtain ⟨_, rfl⟩ := he
        rw [← hdistance]
        exact Nat.le_of_lt (UInt32.lt_iff_toNat_lt.mp hbetter)
    · refine ⟨s, if_neg hbetter, rfl, rfl, Nat.le_succ _, fun entry hentry => .inl hentry, ?_⟩
      refine .refl ?_
      intro x _ c ⟨hx, hc⟩
      obtain rfl : w.toNat = c := Option.some.inj (hweight.symm.trans hc)
      have hle : before.toNat ≤ current.toNat + w.toNat := by
        rw [← hdistance]
        exact Nat.le_of_not_lt fun h => hbetter (UInt32.lt_iff_toNat_lt.mpr h)
      refine ⟨before.toNat, hle, ?_⟩
      rw [hx, hknown]
      exact finite_of_lt (by rw [u32Max_toNat]; omega)
  · rw [relax, if_neg htry]
    refine ⟨s, rfl, rfl, rfl, Nat.le_succ _, fun entry hentry => .inl hentry, .refl ?_⟩
    intro x hx c ⟨hsame, hc⟩
    have hnew : s.visited.contains i = false := by
      rw [visited.contains, decide_eq_false_iff_not]
      exact hsame ▸ hx
    exact absurd ⟨(finite_eq_some.mp hc).1, hnew⟩ htry

/-- The relaxation of a whole row. -/
theorem relaxAll_ok (checks : Bool) (s : Search) (current : UInt32) (row : List UInt32) (i : Nat)
    (hrow : i + row.length ≤ s.distances.length)
    (visited : s.visited.Represents checks settled)
    (fits : ∀ x c, x ∉ settled → i ≤ x → row[x - i]?.bind finite = some c →
      current.toNat + c < u32Max.toNat) :
    ∃ t, relaxAll checks current i row s = .ok t ∧ t.visited = s.visited ∧
      t.distances.length = s.distances.length ∧ t.pQueue.length ≤ s.pQueue.length + row.length ∧
      (∀ entry ∈ t.pQueue, entry ∈ s.pQueue ∨ entry.2 < i + row.length) ∧
      Relaxed settled current.toNat (fun x c => i ≤ x ∧ row[x - i]?.bind finite = some c)
        (known s.distances) (known t.distances) s.pQueue.queue t.pQueue.queue := by
  induction row generalizing i s with
  | nil =>
    refine ⟨s, rfl, rfl, rfl, Nat.le_refl _, fun entry hentry => .inl hentry, .refl ?_⟩
    intro x _ c ⟨_, hc⟩
    cases hc
  | cons w row ih =>
    rw [List.length_cons] at hrow
    obtain ⟨t, ht, hvisited, hlength, hqueue, hentries, hfirst⟩ :=
      relax_ok checks current w (by omega : i < s.distances.length) visited
        (fun hi c hc => fits i c hi (Nat.le_refl _) (by rw [Nat.sub_self]; exact hc))
    have hstep : ∀ x, i + 1 ≤ x → (w :: row)[x - i]? = row[x - (i + 1)]? := by
      intro x hx
      have hsucc : x - i = x - (i + 1) + 1 := by omega
      rw [hsucc, List.getElem?_cons_succ]
    obtain ⟨u, hu, hvisited', hlength', hqueue', hentries', hrest⟩ :=
      ih t (i + 1) (by omega) (hvisited ▸ visited) (by
        intro x c hx hle hc
        exact fits x c hx (by omega) (by rwa [hstep x hle]))
    refine ⟨u, ?_, hvisited'.trans hvisited, hlength'.trans hlength, ?_, ?_, ?_⟩
    · rw [relaxAll, ht, ok_bind, hu]
    · rw [List.length_cons]
      omega
    · intro entry hentry
      rw [List.length_cons]
      rcases hentries' entry hentry with hmid | hlt
      · rcases hentries entry hmid with hold | heq
        · exact .inl hold
        · exact .inr (by omega)
      · exact .inr (by omega)
    · refine (hfirst.trans hrest).congr ?_
      intro x c
      constructor
      · rintro (⟨rfl, hc⟩ | ⟨hle, hc⟩)
        · exact ⟨Nat.le_refl _, by rw [Nat.sub_self]; exact hc⟩
        · exact ⟨by omega, by rwa [hstep x hle]⟩
      · intro ⟨hle, hc⟩
        by_cases hsame : x = i
        · subst hsame
          rw [Nat.sub_self] at hc
          exact .inl ⟨rfl, hc⟩
        · rw [hstep x (by omega)] at hc
          exact .inr ⟨by omega, hc⟩

theorem Heap.queue_erase (heap : Heap) (entry : UInt32 × Nat) :
    Heap.queue (heap.erase entry) = heap.queue.erase (entry.1.toNat, entry.2) := by
  have hinj : Function.Injective fun entry : UInt32 × Nat => (entry.1.toNat, entry.2) := by
    intro a b h
    obtain ⟨hfirst, hsecond⟩ := Prod.mk.inj h
    exact Prod.ext (UInt32.toNat_inj.mp hfirst) hsecond
  exact List.map_erase hinj heap

theorem Heap.first_of_pop (h : heap.pop = some (entry, heap')) :
    First entry.1.toNat entry.2 heap.queue := by
  obtain ⟨hmem, _, hleast⟩ := pop_some h
  refine ⟨List.mem_map.mpr ⟨entry, hmem, rfl⟩, ?_⟩
  intro e u hqueued
  obtain ⟨other, hother, he⟩ := List.mem_map.mp hqueued
  exact (Prod.mk.inj he).1 ▸ hleast other hother

theorem weight_of_row {u : Nat} {row : List UInt32} (h : graph[u]? = some row) (v : Nat) :
    weight graph u v = row[v]?.bind finite := by
  rw [weight, h]
  rfl

/-- A set of vertices can be counted. -/
theorem Square.card_lt (square : Square graph) {v : ℕ}
    (hvertices : insert v settled ⊆ Finset.range graph.length) (hnew : v ∉ settled) :
    settled.card + 1 < 2 ^ 64 := by
  have hle := Finset.card_le_card hvertices
  rw [Finset.card_insert_of_notMem hnew, Finset.card_range] at hle
  exact Nat.lt_of_le_of_lt hle square.fits

/-- What remains of a search under way when its first entry is out of date. -/
theorem Under.discard (under : Under checks graph start settled s)
    (hpop : s.pQueue.pop = some (entry, heap')) (hold : entry.2 ∈ settled) :
    Under checks graph start settled { s with pQueue := heap' } := by
  obtain ⟨_, rfl, _⟩ := Heap.pop_some hpop
  refine ⟨?_, under.length, under.visited, under.vertices, ?_⟩
  · rw [Heap.queue_erase]
    exact under.searching.discard hold
  · exact fun e he => under.entries e (List.mem_of_mem_erase he)

/-- The vertex of the first entry is visited, with its final distance. -/
theorem Under.visit (under : Under checks graph start settled s) (square : Square graph)
    (short : Short graph start) (hpop : s.pQueue.pop = some (entry, heap'))
    (hnew : entry.2 ∉ settled) :
    ∃ t, visit checks graph { s with pQueue := heap' } entry.1 entry.2 = .ok t ∧
      Under checks graph start (insert entry.2 settled) t ∧
      t.pQueue.length ≤ heap'.length + graph.length := by
  obtain ⟨hmem, rfl, _⟩ := Heap.pop_some hpop
  have hfirst := Heap.first_of_pop hpop
  have hlt := under.entries entry hmem
  have hvertices : insert entry.2 settled ⊆ Finset.range graph.length :=
    Finset.insert_subset (Finset.mem_range.mpr hlt) under.vertices
  have hcard := square.card_lt hvertices hnew
  obtain ⟨⟨visited, changed⟩, hinsert⟩ := under.visited.insert_total (fun _ => hcard) entry.2
  obtain ⟨row, hrow⟩ : ∃ row, graph[entry.2]? = some row := ⟨_, List.getElem?_eq_getElem hlt⟩
  have hlength := square.rows row (List.mem_of_getElem? hrow)
  have hedge : ∀ x c, Edge graph entry.2 x c ↔ 0 ≤ x ∧ row[x - 0]?.bind finite = some c := by
    intro x c
    rw [Edge, weight_of_row hrow, Nat.sub_zero, and_iff_right (Nat.zero_le x)]
  obtain ⟨t, ht, hvisited, hdistances, hqueue, hentries, relaxed⟩ :=
    relaxAll_ok checks { s with pQueue := s.pQueue.erase entry, visited := visited } entry.1 row 0
      (by rw [hlength, Nat.zero_add]; exact Nat.le_of_eq under.length.symm)
      (under.visited.insert hinsert).1 (by
        intro x c _ hle hc
        exact short entry.2 entry.1.toNat x c (under.searching.first_final hfirst hnew).2
          ((hedge x c).mpr ⟨hle, hc⟩))
  refine ⟨t, ?_, ⟨?_, hdistances.trans under.length, ?_, hvertices, ?_⟩, ?_⟩
  · simp only [PathFinding.visit, hinsert, ok_bind, hrow, ht]
  · rw [Heap.queue_erase] at relaxed
    exact under.searching.settle hfirst hnew (relaxed.congr fun x c => (hedge x c).symm)
  · rw [hvisited]
    exact (under.visited.insert hinsert).1
  · intro e he
    rcases hentries e he with hold | hrow
    · exact under.entries e (List.mem_of_mem_erase hold)
    · omega
  · rwa [hlength] at hqueue

/-- A search comes to its end with the distances: each round takes an entry from the queue, or visits
one vertex more. -/
theorem Under.search (under : Under checks graph start settled s) (square : Square graph)
    (short : Short graph start) {rounds : Nat}
    (enough : s.pQueue.length + (graph.length - settled.card) * graph.length < rounds) :
    ∃ distances, search checks graph rounds s = .ok distances ∧
      distances.length = graph.length ∧
      ∀ v d, known distances v = some d ↔ IsDistance (Edge graph) start v d := by
  induction rounds generalizing s settled with
  | zero => omega
  | succ rounds ih =>
    cases hpop : s.pQueue.pop with
    | none =>
      refine ⟨s.distances, by rw [PathFinding.search, hpop], under.length, fun v d => ?_⟩
      have hsearching := under.searching
      rw [Heap.pop_none hpop] at hsearching
      exact hsearching.finished
    | some popped =>
      obtain ⟨entry, heap'⟩ := popped
      obtain ⟨hmem, hheap', _⟩ := Heap.pop_some hpop
      have hlength : heap'.length = s.pQueue.length - 1 := hheap' ▸ List.length_erase_of_mem hmem
      have hpos := List.length_pos_of_mem hmem
      have hcontains := under.visited.contains entry.2
      by_cases hold : entry.2 ∈ settled
      · obtain ⟨distances, hsearch, hresult⟩ := ih (under.discard hpop hold) (by
          dsimp only
          omega)
        refine ⟨distances, ?_, hresult⟩
        simp only [PathFinding.search, hpop, hcontains, hold, decide_true, ↓reduceIte, hsearch]
      · obtain ⟨t, hvisit, hunder, hqueue⟩ := under.visit square short hpop hold
        have hcard := Finset.card_le_card hunder.vertices
        rw [Finset.card_insert_of_notMem hold, Finset.card_range] at hcard
        obtain ⟨distances, hsearch, hresult⟩ := ih hunder (by
          rw [Finset.card_insert_of_notMem hold]
          have hless : graph.length - settled.card = graph.length - (settled.card + 1) + 1 := by
            omega
          rw [hless, Nat.add_mul, Nat.one_mul] at enough
          omega)
        refine ⟨distances, ?_, hresult⟩
        simp only [PathFinding.search, hpop, hcontains, hold, decide_false, Bool.false_eq_true,
          ↓reduceIte, hvisit, ok_bind, hsearch]

/-- A search returns the distances from its start. -/
theorem dijkstra_ok (checks : Bool) (square : Square graph) (hstart : start < graph.length)
    (short : Short graph start) :
    ∃ distances, dijkstra checks graph start = .ok distances ∧ distances.length = graph.length ∧
      ∀ v d, known distances v = some d ↔ IsDistance (Edge graph) start v d := by
  rw [dijkstra, if_pos hstart]
  have hknown : known ((List.replicate graph.length u32Max).set start 0) =
      fun v => if v = start then some 0 else none := by
    funext v
    rw [known_set (by simpa using hstart)]
    by_cases hv : v = start
    · rw [hv, Function.update_self, if_pos rfl]
      rfl
    · rw [Function.update_of_ne hv, if_neg hv, known, List.getElem?_replicate]
      split
      · rfl
      · rfl
  have hunder : Under checks graph start ∅ (Search.new graph.length start) := by
    refine ⟨?_, ?_, BitSet.represents_new, Finset.empty_subset _, ?_⟩
    · rw [Search.new, hknown]
      exact .initial (Edge graph) start
    · simp [Search.new]
    · simpa [Search.new] using hstart
  refine hunder.search square short ?_
  simp only [Search.new, List.length_singleton, Finset.card_empty, Nat.sub_zero]
  omega

theorem Square.edge_lt (square : Square graph) {u v c : ℕ} (h : Edge graph u v c) :
    u < graph.length ∧ v < graph.length ∧ ∃ row ∈ graph, ∃ x ∈ row, x ≠ u32Max ∧ x.toNat = c := by
  obtain ⟨row, hrow, h⟩ := Option.bind_eq_some_iff.mp h
  obtain ⟨x, hx, h⟩ := Option.bind_eq_some_iff.mp h
  have hmem := List.mem_of_getElem? hrow
  obtain ⟨hu, _⟩ := List.getElem?_eq_some_iff.mp hrow
  obtain ⟨hv, _⟩ := List.getElem?_eq_some_iff.mp hx
  exact ⟨hu, square.rows row hmem ▸ hv, row, hmem, x, List.mem_of_getElem? hx,
    finite_eq_some.mp h⟩

/-- No edge is heavier. -/
def Weighs (graph : List (List UInt32)) (weight : ℕ) : Prop :=
  ∀ row ∈ graph, ∀ x ∈ row, x ≠ u32Max → x.toNat ≤ weight

theorem Weighs.edge (weighs : Weighs graph w) (square : Square graph) {u v c : ℕ}
    (h : Edge graph u v c) : c ≤ w := by
  obtain ⟨_, _, row, hrow, x, hx, hfinite, rfl⟩ := square.edge_lt h
  exact weighs row hrow x hx hfinite

theorem Weighs.distance (weighs : Weighs graph w) (square : Square graph)
    (hstart : start < graph.length) {v d : ℕ} (h : IsDistance (Edge graph) start v d) :
    d ≤ (graph.length - 1) * w := by
  have hclosed : ∀ u v c, Edge graph u v c → v ∈ Finset.range graph.length ∧ c ≤ w :=
    fun u v c hedge =>
      ⟨Finset.mem_range.mpr (square.edge_lt hedge).2.1, weighs.edge square hedge⟩
  have hle := h.le (Finset.mem_range.mpr hstart) hclosed
  rwa [Finset.card_range] at hle

/-- The row has, for every vertex, the least total weight of all paths from `start`, or `u32::MAX` if
there are none. -/
def Distances (graph : List (List UInt32)) (start : Nat) (row : List UInt32) : Prop :=
  row.length = graph.length ∧ ∀ v (h : v < row.length),
    row[v] = u32Max ∧ (∀ d, ¬Walk (Edge graph) start v d) ∨
      row[v] ≠ u32Max ∧ IsLeast {d | Walk (Edge graph) start v d} row[v].toNat

theorem distances_of_known {row : List UInt32} (length : row.length = graph.length)
    (h : ∀ v d, known row v = some d ↔ IsDistance (Edge graph) start v d) :
    Distances graph start row := by
  refine ⟨length, ?_⟩
  intro v hv
  have hknown : known row v = finite row[v] := by
    rw [known, List.getElem?_eq_getElem hv]
    rfl
  by_cases hmax : row[v] = u32Max
  · refine .inl ⟨hmax, ?_⟩
    intro d hwalk
    obtain ⟨e, _, hdistance⟩ := hwalk.exists_distance
    rw [← h, hknown, finite_eq_some] at hdistance
    exact hdistance.1 hmax
  · exact .inr ⟨hmax, (h v _).mp (hknown.trans (finite_eq_some.mpr ⟨hmax, rfl⟩))⟩

/-- With small weights the search returns the distances. -/
theorem dijkstra_distances (checks : Bool) (square : Square graph) (hstart : start < graph.length)
    (small : ∀ row ∈ graph, ∀ x ∈ row, x ≠ u32Max → graph.length * x.toNat < u32Max.toNat) :
    ∃ row, dijkstra checks graph start = .ok row ∧ Distances graph start row := by
  have hpos : 0 < graph.length := Nat.zero_lt_of_lt hstart
  have weighs : Weighs graph ((u32Max.toNat - 1) / graph.length) := by
    intro row hrow x hx hfinite
    rw [Nat.le_div_iff_mul_le hpos, Nat.mul_comm]
    exact Nat.le_sub_one_of_lt (small row hrow x hx hfinite)
  have short : Short graph start := by
    intro u d x c hdistance hedge
    have hd := weighs.distance square hstart hdistance
    have hc := weighs.edge square hedge
    have htotal := Nat.mul_div_le (u32Max.toNat - 1) graph.length
    have hmax : 0 < u32Max.toNat := by decide
    obtain ⟨m, hm⟩ : ∃ m, graph.length = m + 1 := ⟨graph.length - 1, by omega⟩
    rw [hm] at hd hc htotal
    rw [Nat.add_sub_cancel] at hd
    rw [Nat.add_mul, Nat.one_mul] at htotal
    omega
  obtain ⟨row, hdijkstra, hlength, hresult⟩ := dijkstra_ok checks square hstart short
  exact ⟨row, hdijkstra, distances_of_known hlength hresult⟩

/-- A graph with a loop, an edge of weight 0 and a vertex that cannot be reached. -/
def four : List (List UInt32) := [[u32Max, 4, 0, u32Max], [2, u32Max, u32Max, u32Max],
  [u32Max, 3, 7, u32Max], [1, u32Max, u32Max, u32Max]]

theorem dijkstra_distances_four :
    ∃ row, dijkstra true four 0 = .ok row ∧ Distances four 0 row :=
  dijkstra_distances true ⟨by decide, by decide⟩ (by decide) (by simp [four, u32Max])

example : dijkstra true four 0 = .ok [0, 3, 0, u32Max] := by decide +kernel

end
end GridServer.PathFinding
