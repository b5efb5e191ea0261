import GridServer.PathFinding.Dijkstra
import GridServer.TaskManager.State

namespace GridServer.PathFinding
open Library Library.ShortestPath TaskManager

/-- The variables of `reduce_graph` that change. -/
structure Reduction where
  graph : List (List UInt32)
  visited : BitSet

/-- A row is replaced by the distances from its vertex, once. The search has checked its index. -/
def reduceRow (checks : Bool) (s : Reduction) (vertex : Nat) : Except Fault Reduction :=
  if s.visited.contains vertex then .ok s
  else do
    let shortestPaths ← dijkstra checks s.graph vertex
    let (visited, _) ← s.visited.insert checks vertex
    return ⟨s.graph.set vertex shortestPaths, visited⟩

def reduceGraph (checks : Bool) (data : JobData) : Except Fault JobData := do
  let s ← data.passengers.foldlM
    (fun s (start, stop) => do
      let s ← reduceRow checks s start
      reduceRow checks s stop)
    (⟨data.graph, BitSet.new⟩ : Reduction)
  let s ← data.taxies.foldlM (reduceRow checks) s
  return { data with graph := s.graph }

/-- The vertices at which a passenger or a taxi is, or to which one goes, in the order in which their
rows are replaced. -/
def stops (data : JobData) : List Nat :=
  (data.passengers.flatMap fun (start, stop) => [start, stop]) ++ data.taxies

/-- No best path from a stop that goes on over an edge, or from another stop by a best path, is as long
as `u32::MAX`. -/
def Reducible (graph : List (List UInt32)) (stops : List Nat) : Prop :=
  ∀ s ∈ stops, ∀ u x d c, IsDistance (Edge graph) s u d →
    Edge graph u x c ∨ u ∈ stops ∧ IsDistance (Edge graph) u x c → d + c < u32Max.toNat

/-- The rows of some vertices have been replaced. -/
structure Replaced (checks : Bool) (graph : List (List UInt32)) (done : Finset ℕ)
    (s : Reduction) : Prop where
  square : Square s.graph
  length : s.graph.length = graph.length
  visited : s.visited.Represents checks done
  vertices : done ⊆ Finset.range graph.length
  others : ∀ u ∉ done, s.graph[u]? = graph[u]?
  rows : ∀ u ∈ done, ∃ row, s.graph[u]? = some row ∧
    ∀ v d, known row v = some d ↔ IsDistance (Edge graph) u v d

section
variable {checks : Bool} {graph : List (List UInt32)} {done : Finset ℕ} {s : Reduction}
  {data : JobData} {vertex : Nat} {vertices : List Nat}

theorem reduceGraph_eq (checks : Bool) (data : JobData) : reduceGraph checks data = do
    let s ← (stops data).foldlM (reduceRow checks) ⟨data.graph, BitSet.new⟩
    return { data with graph := s.graph } := by
  have hpassengers : ∀ (passengers : List (Nat × Nat)) (s : Reduction),
      passengers.foldlM (fun s (start, stop) => do
        let s ← reduceRow checks s start
        reduceRow checks s stop) s =
      (passengers.flatMap fun (start, stop) => [start, stop]).foldlM (reduceRow checks) s := by
    intro passengers
    induction passengers with
    | nil => exact fun s => rfl
    | cons passenger passengers ih =>
      intro s
      simp only [List.foldlM_cons, List.flatMap_cons, List.cons_append, List.nil_append,
        bind_assoc, ih]
  rw [reduceGraph, stops, List.foldlM_append, bind_assoc, hpassengers]

theorem Replaced.lt (r : Replaced checks graph done s) {v : ℕ} (hv : v ∈ done) : v < graph.length :=
  Finset.mem_range.mp (r.vertices hv)

/-- An edge out of a replaced row is a distance, and every other edge is as it was. -/
theorem Replaced.edge (r : Replaced checks graph done s) (u v c : ℕ) :
    Edge s.graph u v c ↔ if u ∈ done then IsDistance (Edge graph) u v c else Edge graph u v c := by
  by_cases hu : u ∈ done
  · obtain ⟨row, hrow, hdistances⟩ := r.rows u hu
    rw [if_pos hu, Edge, weight_of_row hrow]
    exact hdistances v c
  · rw [if_neg hu, Edge, Edge, weight, weight, r.others u hu]

/-- Replacing rows keeps all distances. -/
theorem Replaced.isDistance (r : Replaced checks graph done s) {u v d : ℕ} :
    IsDistance (Edge s.graph) u v d ↔ IsDistance (Edge graph) u v d := by
  refine isDistance_congr ?_ ?_
  · intro u v c hedge
    by_cases hu : u ∈ done
    · have hwalk := Walk.single hedge
      obtain ⟨e, he, hdistance⟩ := hwalk.exists_distance
      exact ⟨e, he, .single ((r.edge u v e).mpr (by rwa [if_pos hu]))⟩
    · exact ⟨c, Nat.le_refl _, .single ((r.edge u v c).mpr (by rwa [if_neg hu]))⟩
  · intro u v c hedge
    rw [r.edge] at hedge
    split at hedge
    · exact ⟨c, Nat.le_refl _, hedge.1⟩
    · exact ⟨c, Nat.le_refl _, .single hedge⟩

theorem Replaced.short (r : Replaced checks graph done s) (reducible : Reducible graph vertices)
    (within : done ⊆ vertices.toFinset) (hvertex : vertex ∈ vertices) : Short s.graph vertex := by
  intro u d x c hdistance hedge
  rw [r.isDistance] at hdistance
  rw [r.edge] at hedge
  refine reducible vertex hvertex u x d c hdistance ?_
  split at hedge
  · rename_i hu
    exact .inr ⟨List.mem_toFinset.mp (within hu), hedge⟩
  · exact .inl hedge

/-- One row more is replaced, unless it has been before. -/
theorem Replaced.reduceRow (r : Replaced checks graph done s) (reducible : Reducible graph vertices)
    (within : done ⊆ vertices.toFinset) (hstop : vertex ∈ vertices)
    (hvertex : vertex < graph.length) :
    ∃ t, reduceRow checks s vertex = .ok t ∧ Replaced checks graph (insert vertex done) t := by
  have hcontains := r.visited.contains vertex
  by_cases hold : vertex ∈ done
  · refine ⟨s, ?_, ?_⟩
    · simp only [PathFinding.reduceRow, hcontains, hold, decide_true, ↓reduceIte]
    · rwa [Finset.insert_eq_of_mem hold]
  · have hlt : vertex < s.graph.length := r.length ▸ hvertex
    obtain ⟨row, hdijkstra, hlength, hrow⟩ :=
      dijkstra_ok checks r.square hlt (r.short reducible within hstop)
    have hvertices : insert vertex done ⊆ Finset.range graph.length :=
      Finset.insert_subset (Finset.mem_range.mpr hvertex) r.vertices
    have hcard := r.square.card_lt (r.length.symm ▸ hvertices) hold
    obtain ⟨⟨visited, changed⟩, hinsert⟩ := r.visited.insert_total (fun _ => hcard) vertex
    refine ⟨⟨s.graph.set vertex row, visited⟩, ?_, ?_, ?_, ?_, hvertices, ?_, ?_⟩
    · simp only [PathFinding.reduceRow, hcontains, hold, decide_false, Bool.false_eq_true,
        ↓reduceIte, hdijkstra, ok_bind, hinsert, except_pure]
    · refine ⟨?_, by rw [List.length_set]; exact r.square.fits⟩
      intro other hother
      rw [List.length_set]
      rcases List.mem_or_eq_of_mem_set hother with hother | rfl
      · exact r.square.rows other hother
      · exact hlength
    · rw [List.length_set, r.length]
    · exact (r.visited.insert hinsert).1
    · intro u hu
      rw [Finset.mem_insert, not_or] at hu
      rw [List.getElem?_set_ne (Ne.symm hu.1), r.others u hu.2]
    · intro u hu
      by_cases hsame : u = vertex
      · subst hsame
        refine ⟨row, List.getElem?_set_self hlt, ?_⟩
        intro v d
        rw [hrow, r.isDistance]
      · rw [List.getElem?_set_ne (Ne.symm hsame)]
        exact r.rows u (Finset.mem_of_mem_insert_of_ne hu hsame)

/-- The rows of some vertices after another are replaced. -/
theorem Replaced.foldlM (r : Replaced checks graph done s) (reducible : Reducible graph vertices)
    (within : done ⊆ vertices.toFinset) {next : List Nat} (hnext : next ⊆ vertices)
    (hvertices : ∀ v ∈ vertices, v < graph.length) :
    ∃ t, next.foldlM (PathFinding.reduceRow checks) s = .ok t ∧
      Replaced checks graph (done ∪ next.toFinset) t := by
  induction next generalizing done s with
  | nil => exact ⟨s, rfl, by simpa using r⟩
  | cons v next ih =>
    have hv := hnext List.mem_cons_self
    obtain ⟨t, ht, hreplaced⟩ := r.reduceRow reducible within hv (hvertices v hv)
    obtain ⟨u, hu, hrest⟩ := ih hreplaced
      (Finset.insert_subset (List.mem_toFinset.mpr hv) within)
      fun w hw => hnext (List.mem_cons_of_mem _ hw)
    refine ⟨u, ?_, ?_⟩
    · rw [List.foldlM_cons, ht, ok_bind, hu]
    · rw [List.toFinset_cons, Finset.union_insert, ← Finset.insert_union]
      exact hrest

theorem square_of_validate (valid : data.validate = true) (fits : data.graph.length < 2 ^ 64) :
    Square data.graph := by
  simp only [JobData.validate, Bool.and_eq_true, List.all_eq_true, decide_eq_true_eq] at valid
  exact ⟨valid.1.1, fits⟩

theorem stops_lt (valid : data.validate = true) : ∀ v ∈ stops data, v < data.graph.length := by
  simp only [JobData.validate, Bool.and_eq_true, List.all_eq_true, decide_eq_true_eq] at valid
  intro v hv
  rcases List.mem_append.mp hv with hv | hv
  · obtain ⟨passenger, hpassenger, hv⟩ := List.mem_flatMap.mp hv
    have hlt := valid.2 passenger hpassenger
    rcases List.mem_cons.mp hv with rfl | hv
    · exact hlt.1
    · exact List.mem_singleton.mp hv ▸ hlt.2
  · exact valid.1.2 v hv

/-- The graph of a job is reduced to one with the same distances. -/
theorem reduceGraph_ok (checks : Bool) (valid : data.validate = true)
    (fits : data.graph.length < 2 ^ 64) (reducible : Reducible data.graph (stops data)) :
    ∃ s, reduceGraph checks data = .ok { data with graph := s.graph } ∧
      Replaced checks data.graph (stops data).toFinset s := by
  have hstart : Replaced checks data.graph ∅ ⟨data.graph, BitSet.new⟩ :=
    ⟨square_of_validate valid fits, rfl, BitSet.represents_new, Finset.empty_subset _,
      fun _ _ => rfl, fun u hu => absurd hu (Finset.notMem_empty u)⟩
  obtain ⟨s, hs, hreplaced⟩ := hstart.foldlM reducible (Finset.empty_subset _)
    (List.Subset.refl _) (stops_lt valid)
  rw [Finset.empty_union] at hreplaced
  exact ⟨s, by rw [reduceGraph_eq, hs]; rfl, hreplaced⟩

theorem reducible_of_weighs {w : ℕ} (square : Square graph) (weighs : Weighs graph w)
    (small : 2 * graph.length * w < u32Max.toNat) (hvertices : ∀ v ∈ vertices, v < graph.length) :
    Reducible graph vertices := by
  intro s hstop u x d c hdistance hleg
  have hs := hvertices s hstop
  have hd := weighs.distance square hs hdistance
  have hu : u < graph.length := by
    cases hdistance.1 with
    | nil => exact hs
    | snoc _ last => exact (square.edge_lt last).2.1
  have hc : c ≤ graph.length * w := by
    rcases hleg with hedge | ⟨_, hdistance'⟩
    · exact (weighs.edge square hedge).trans (Nat.le_mul_of_pos_left w (Nat.zero_lt_of_lt hs))
    · exact (weighs.distance square hu hdistance').trans
        (Nat.mul_le_mul_right w (Nat.sub_le _ _))
  have hd' : d ≤ graph.length * w := hd.trans (Nat.mul_le_mul_right w (Nat.sub_le _ _))
  rw [Nat.mul_assoc] at small
  omega

/-- A job's reduced graph has the distances of its graph in the rows of all stops, although some were
searched for among rows that had been replaced, and its other rows are unchanged. -/
theorem reduceGraph_distances (checks : Bool) (valid : data.validate = true)
    (fits : data.graph.length < 2 ^ 64) (small : ∀ row ∈ data.graph, ∀ x ∈ row, x ≠ u32Max →
      2 * data.graph.length * x.toNat < u32Max.toNat) :
    ∃ reduced, reduceGraph checks data = .ok reduced ∧ reduced.taxies = data.taxies ∧
      reduced.passengers = data.passengers ∧ reduced.graph.length = data.graph.length ∧
      (∀ v ∈ stops data, ∃ row, reduced.graph[v]? = some row ∧ Distances data.graph v row) ∧
      ∀ v ∉ stops data, reduced.graph[v]? = data.graph[v]? := by
  have square := square_of_validate valid fits
  have reducible : Reducible data.graph (stops data) := by
    by_cases hempty : data.graph.length = 0
    · intro s hs
      have hlt := stops_lt valid s hs
      omega
    · have hpos : 0 < 2 * data.graph.length := by omega
      refine reducible_of_weighs (w := (u32Max.toNat - 1) / (2 * data.graph.length)) square ?_ ?_
        (stops_lt valid)
      · intro row hrow x hx hfinite
        rw [Nat.le_div_iff_mul_le hpos, Nat.mul_comm]
        exact Nat.le_sub_one_of_lt (small row hrow x hx hfinite)
      · have htotal := Nat.mul_div_le (u32Max.toNat - 1) (2 * data.graph.length)
        have hmax : 0 < u32Max.toNat := by decide
        omega
  obtain ⟨s, hs, r⟩ := reduceGraph_ok checks valid fits reducible
  refine ⟨_, hs, rfl, rfl, r.length, ?_, ?_⟩
  · intro v hv
    obtain ⟨row, hrow, hdistances⟩ := r.rows v (List.mem_toFinset.mpr hv)
    have hlength := (r.square.rows row (List.mem_of_getElem? hrow)).trans r.length
    exact ⟨row, hrow, distances_of_known hlength hdistances⟩
  · exact fun v hv => r.others v fun h => hv (List.mem_toFinset.mp h)

/-- The second passenger is searched for in a graph whose first row has been replaced. -/
theorem reduceGraph_distances_four :
    ∃ reduced, reduceGraph true ⟨four, [0], [(0, 1), (1, 0)]⟩ = .ok reduced ∧
      reduced.taxies = [0] ∧ reduced.passengers = [(0, 1), (1, 0)] ∧ reduced.graph.length = 4 ∧
      (∀ v ∈ [0, 1, 1, 0, 0], ∃ row, reduced.graph[v]? = some row ∧ Distances four v row) ∧
      ∀ v ∉ [0, 1, 1, 0, 0], reduced.graph[v]? = four[v]? :=
  reduceGraph_distances true
    (by decide : JobData.validate ⟨four, [0], [(0, 1), (1, 0)]⟩ = true) (by decide)
    (by simp [four, u32Max])

end
end GridServer.PathFinding
