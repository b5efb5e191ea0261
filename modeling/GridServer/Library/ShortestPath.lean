import Mathlib.Data.Finset.Card
import Mathlib.Data.Nat.Find
import Mathlib.Order.Bounds.Basic

namespace GridServer.Library.ShortestPath

variable {V : Type} {edge edge' : V → V → ℕ → Prop} {source u v x : V} {c d e : ℕ}

/-- A path of that total weight, which may visit a vertex more than once. -/
inductive Walk (edge : V → V → ℕ → Prop) (source : V) : V → ℕ → Prop where
  | nil : Walk edge source source 0
  | snoc {u v : V} {d c : ℕ} (walk : Walk edge source u d) (last : edge u v c) :
      Walk edge source v (d + c)

/-- The least total weight of all paths. -/
def IsDistance (edge : V → V → ℕ → Prop) (u v : V) (d : ℕ) : Prop :=
  IsLeast {d | Walk edge u v d} d

theorem Walk.single (h : edge u v c) : Walk edge u v c := by
  have hwalk := Walk.nil.snoc h
  rwa [Nat.zero_add] at hwalk

theorem Walk.trans (first : Walk edge u v d) (second : Walk edge v x e) :
    Walk edge u x (d + e) := by
  induction second with
  | nil => exact first
  | snoc _ last ih =>
    rw [← Nat.add_assoc]
    exact ih.snoc last

theorem Walk.exists_distance (h : Walk edge u v d) : ∃ e ≤ d, IsDistance edge u v e := by
  classical
  have hsome : ∃ e, Walk edge u v e := ⟨d, h⟩
  exact ⟨Nat.find hsome, Nat.find_min' hsome h, Nat.find_spec hsome,
    fun e he => Nat.find_min' hsome he⟩

theorem IsDistance.self (edge : V → V → ℕ → Prop) (v : V) : IsDistance edge v v 0 :=
  ⟨.nil, fun _ _ => Nat.zero_le _⟩

/-- A walk leaves every set of vertices that its source is in and its end is not over an edge. -/
theorem Walk.exists_exit {P : V → Prop} (h : Walk edge source v d) (start : P source)
    (outside : ¬P v) : ∃ u x c, edge u x c ∧ P u ∧ ¬P x := by
  induction h with
  | nil => exact absurd start outside
  | @snoc u v d c _ last ih =>
    by_cases hu : P u
    · exact ⟨u, v, c, last, hu, outside⟩
    · exact ih hu

/-- Walks over edges that stand for walks of no greater weight. -/
theorem Walk.replace (h : Walk edge' u v d)
    (stand : ∀ u v c, edge' u v c → ∃ d ≤ c, Walk edge u v d) : ∃ e ≤ d, Walk edge u v e := by
  induction h with
  | nil => exact ⟨0, Nat.le_refl _, .nil⟩
  | snoc _ last ih =>
    obtain ⟨e, he, hwalk⟩ := ih
    obtain ⟨c, hc, hlast⟩ := stand _ _ _ last
    exact ⟨e + c, Nat.add_le_add he hc, hwalk.trans hlast⟩

/-- Graphs of which each has, for every edge of the other, a walk of no greater weight, have the same
distances. -/
theorem isDistance_congr (stand : ∀ u v c, edge' u v c → ∃ d ≤ c, Walk edge u v d)
    (stand' : ∀ u v c, edge u v c → ∃ d ≤ c, Walk edge' u v d) :
    IsDistance edge u v d ↔ IsDistance edge' u v d := by
  constructor
  · intro ⟨hwalk, hleast⟩
    obtain ⟨e, he, hwalk'⟩ := hwalk.replace stand'
    have hlower : d ∈ lowerBounds {d | Walk edge' u v d} := by
      intro a ha
      obtain ⟨b, hb, hwalk⟩ := Walk.replace ha stand
      exact (hleast hwalk).trans hb
    obtain rfl : e = d := Nat.le_antisymm he (hlower hwalk')
    exact ⟨hwalk', hlower⟩
  · intro ⟨hwalk', hleast⟩
    obtain ⟨e, he, hwalk⟩ := hwalk'.replace stand
    have hlower : d ∈ lowerBounds {d | Walk edge u v d} := by
      intro a ha
      obtain ⟨b, hb, hwalk'⟩ := Walk.replace ha stand'
      exact (hleast hwalk').trans hb
    obtain rfl : e = d := Nat.le_antisymm he (hlower hwalk)
    exact ⟨hwalk, hlower⟩

section Bound
variable {vertices : Finset V} {weight : ℕ}

open Classical in
/-- The vertices that are no further than `j` of the heaviest edges. -/
noncomputable def ball (edge : V → V → ℕ → Prop) (source : V) (vertices : Finset V)
    (weight j : ℕ) : Finset V :=
  vertices.filter fun u => ∃ e ≤ j * weight, Walk edge source u e

theorem mem_ball {j : ℕ} : u ∈ ball edge source vertices weight j ↔
    u ∈ vertices ∧ ∃ e ≤ j * weight, Walk edge source u e := by
  classical exact Finset.mem_filter

/-- As long as a vertex that can be reached is not near, there are more and more that are. -/
theorem Walk.near_or_card (h : Walk edge source v d) (start : source ∈ vertices)
    (closed : ∀ u v c, edge u v c → v ∈ vertices ∧ c ≤ weight) (j : ℕ) :
    v ∈ ball edge source vertices weight j ∨ j + 1 ≤ (ball edge source vertices weight j).card := by
  have hsource : ∀ j, source ∈ ball edge source vertices weight j :=
    fun j => mem_ball.mpr ⟨start, 0, Nat.zero_le _, .nil⟩
  induction j with
  | zero => exact .inr (Finset.card_pos.mpr ⟨source, hsource 0⟩)
  | succ j ih =>
    have hmono : ball edge source vertices weight j ⊆ ball edge source vertices weight (j + 1) := by
      intro u hu
      rw [mem_ball] at hu ⊢
      obtain ⟨hvertex, e, he, hwalk⟩ := hu
      exact ⟨hvertex, e, he.trans (Nat.mul_le_mul_right _ (Nat.le_succ j)), hwalk⟩
    by_cases hnear : v ∈ ball edge source vertices weight j
    · exact .inl (hmono hnear)
    · obtain ⟨u, x, c, hedge, hu, hx⟩ :=
        h.exists_exit (P := fun u => u ∈ ball edge source vertices weight j) (hsource j) hnear
      obtain ⟨hvertex, hweight⟩ := closed u x c hedge
      obtain ⟨e, he, hwalk⟩ := (mem_ball.mp hu).2
      have hnew : x ∈ ball edge source vertices weight (j + 1) := by
        refine mem_ball.mpr ⟨hvertex, e + c, ?_, hwalk.snoc hedge⟩
        rw [Nat.add_mul, Nat.one_mul]
        exact Nat.add_le_add he hweight
      have hcard := Finset.card_lt_card (Finset.ssubset_iff_subset_ne.mpr
        ⟨hmono, fun hsame => hx (hsame ▸ hnew)⟩)
      have hmany := ih.resolve_left hnear
      exact .inr (by omega)

/-- No distance is greater than the weight of as many of the heaviest edges as there are other
vertices. -/
theorem IsDistance.le (h : IsDistance edge source v d) (start : source ∈ vertices)
    (closed : ∀ u v c, edge u v c → v ∈ vertices ∧ c ≤ weight) :
    d ≤ (vertices.card - 1) * weight := by
  have hpos := Finset.card_pos.mpr ⟨source, start⟩
  have hvertex : v ∈ vertices := by
    cases h.1 with
    | nil => exact start
    | snoc _ last => exact (closed _ _ _ last).1
  have hnear : v ∈ ball edge source vertices weight (vertices.card - 1) := by
    rcases h.1.near_or_card start closed (vertices.card - 1) with hnear | hcard
    · exact hnear
    · have hall : ball edge source vertices weight (vertices.card - 1) = vertices :=
        Finset.eq_of_subset_of_card_le (fun u hu => (mem_ball.mp hu).1) (by omega)
      rwa [hall]
  obtain ⟨e, he, hwalk⟩ := (mem_ball.mp hnear).2
  exact (h.2 hwalk).trans he

end Bound

section Search
variable {dist dist' : V → Option ℕ} {settled : Finset V} {queue queue' : List (ℕ × V)}

/-- How far a search by nearest vertices is: the distances it has found, the vertices it has settled
and the entries that wait, of which some are out of date. -/
structure Searching (edge : V → V → ℕ → Prop) (source : V) (dist : V → Option ℕ)
    (settled : Finset V) (queue : List (ℕ × V)) : Prop where
  start : dist source = some 0
  walk : ∀ v d, dist v = some d → Walk edge source v d
  pending : ∀ v d, dist v = some d → v ∈ settled ∨ (d, v) ∈ queue
  queued : ∀ d v, (d, v) ∈ queue → ∃ e ≤ d, dist v = some e
  known : ∀ u ∈ settled, ∃ e, dist u = some e ∧ ∀ d v, (d, v) ∈ queue → e ≤ d
  closed : ∀ u ∈ settled, ∀ e, dist u = some e → ∀ x c, edge u x c → ∃ d ≤ e + c, dist x = some d

/-- The entry at whose turn it is. -/
def First (d : ℕ) (v : V) (queue : List (ℕ × V)) : Prop :=
  (d, v) ∈ queue ∧ ∀ e u, (e, u) ∈ queue → d ≤ e

/-- What the relaxation of edges that start at the distance `d` does. The settled vertices are passed
over. -/
structure Relaxed (settled : Finset V) (d : ℕ) (out : V → ℕ → Prop) (dist dist' : V → Option ℕ)
    (queue queue' : List (ℕ × V)) : Prop where
  keeps : ∀ x ∈ settled, dist' x = dist x
  lower : ∀ x e, dist x = some e → ∃ e' ≤ e, dist' x = some e'
  reaches : ∀ x ∉ settled, ∀ c, out x c → ∃ e ≤ d + c, dist' x = some e
  old : ∀ entry ∈ queue, entry ∈ queue'
  filed : ∀ x e, dist' x = some e → dist x = some e ∨ (e, x) ∈ queue'
  new : ∀ e x, (e, x) ∈ queue' → (e, x) ∈ queue ∨ d ≤ e ∧ ∃ e' ≤ e, dist' x = some e'
  found : ∀ x e, dist' x = some e → dist x = some e ∨ ∃ c, out x c ∧ e = d + c

namespace Relaxed
variable {dist'' : V → Option ℕ} {queue'' : List (ℕ × V)} {out out' : V → ℕ → Prop}

/-- Nothing changes when no edge is an improvement. -/
theorem refl (kept : ∀ x ∉ settled, ∀ c, out x c → ∃ e ≤ d + c, dist x = some e) :
    Relaxed settled d out dist dist queue queue := by
  refine ⟨fun _ _ => rfl, ?_, kept, fun _ h => h, fun _ _ h => .inl h, fun _ _ h => .inl h,
    fun _ _ h => .inl h⟩
  exact fun x e h => ⟨e, Nat.le_refl _, h⟩

/-- An edge is an improvement. -/
theorem improve [DecidableEq V] (hx : x ∉ settled) (better : ∀ e, dist x = some e → d + c ≤ e) :
    Relaxed settled d (fun y a => y = x ∧ a = c) dist (Function.update dist x (some (d + c)))
      queue ((d + c, x) :: queue) := by
  have hself : Function.update dist x (some (d + c)) x = some (d + c) := Function.update_self ..
  refine ⟨?_, ?_, ?_, fun _ h => List.mem_cons_of_mem _ h, ?_, ?_, ?_⟩
  · intro y hy
    have hne : y ≠ x := fun h => hx (h ▸ hy)
    rw [Function.update_of_ne hne]
  · intro y e hy
    by_cases hsame : y = x
    · subst hsame
      exact ⟨d + c, better e hy, hself⟩
    · exact ⟨e, Nat.le_refl _, by rwa [Function.update_of_ne hsame]⟩
  · intro y _ a ⟨hsame, ha⟩
    exact ⟨d + c, Nat.le_of_eq (by rw [ha]), hsame ▸ hself⟩
  · intro y e hy
    by_cases hsame : y = x
    · subst hsame
      rw [hself, Option.some.injEq] at hy
      exact .inr (hy ▸ List.mem_cons_self)
    · rw [Function.update_of_ne hsame] at hy
      exact .inl hy
  · intro e y hqueued
    rcases List.mem_cons.mp hqueued with hnew | hold
    · obtain ⟨rfl, rfl⟩ := Prod.mk.inj hnew
      exact .inr ⟨Nat.le_add_right d c, d + c, Nat.le_refl _, hself⟩
    · exact .inl hold
  · intro y e hy
    by_cases hsame : y = x
    · subst hsame
      rw [hself, Option.some.injEq] at hy
      exact .inr ⟨c, ⟨rfl, rfl⟩, hy.symm⟩
    · rw [Function.update_of_ne hsame] at hy
      exact .inl hy

/-- The edges are the same ones. -/
theorem congr (r : Relaxed settled d out dist dist' queue queue')
    (same : ∀ x c, out x c ↔ out' x c) : Relaxed settled d out' dist dist' queue queue' := by
  have hsame : out = out' := by
    funext x c
    exact propext (same x c)
  exact hsame ▸ r

theorem trans (first : Relaxed settled d out dist dist' queue queue')
    (second : Relaxed settled d out' dist' dist'' queue' queue'') :
    Relaxed settled d (fun x c => out x c ∨ out' x c) dist dist'' queue queue'' := by
  refine ⟨?_, ?_, ?_, ?_, ?_, ?_, ?_⟩
  · exact fun x hx => (second.keeps x hx).trans (first.keeps x hx)
  · intro x e hx
    obtain ⟨a, ha, hx'⟩ := first.lower x e hx
    obtain ⟨b, hb, hx''⟩ := second.lower x a hx'
    exact ⟨b, hb.trans ha, hx''⟩
  · intro x hx c hout
    rcases hout with hout | hout
    · obtain ⟨a, ha, hx'⟩ := first.reaches x hx c hout
      obtain ⟨b, hb, hx''⟩ := second.lower x a hx'
      exact ⟨b, hb.trans ha, hx''⟩
    · exact second.reaches x hx c hout
  · exact fun entry h => second.old entry (first.old entry h)
  · intro x e hx
    rcases second.filed x e hx with hx' | hqueued
    · exact (first.filed x e hx').imp_right (second.old _)
    · exact .inr hqueued
  · intro e x hqueued
    rcases second.new e x hqueued with hold | hnew
    · refine (first.new e x hold).imp_right ?_
      intro ⟨hle, a, ha, hx'⟩
      obtain ⟨b, hb, hx''⟩ := second.lower x a hx'
      exact ⟨hle, b, hb.trans ha, hx''⟩
    · exact .inr hnew
  · intro x e hx
    rcases second.found x e hx with hx' | ⟨c, hout, he⟩
    · refine (first.found x e hx').imp_right ?_
      intro ⟨c, hout, he⟩
      exact ⟨c, .inl hout, he⟩
    · exact .inr ⟨c, .inr hout, he⟩

end Relaxed

namespace Searching

theorem initial (edge : V → V → ℕ → Prop) [DecidableEq V] (source : V) :
    Searching edge source (fun v => if v = source then some 0 else none) ∅ [(0, source)] := by
  refine ⟨if_pos rfl, ?_, ?_, ?_, ?_, ?_⟩
  · intro v d h
    split at h
    · rename_i hv
      obtain rfl := Option.some.inj h
      exact hv ▸ .nil
    · cases h
  · intro v d h
    split at h
    · rename_i hv
      obtain rfl := Option.some.inj h
      exact .inr (hv ▸ List.mem_singleton_self _)
    · cases h
  · intro d v h
    obtain ⟨rfl, rfl⟩ := Prod.mk.inj (List.mem_singleton.mp h)
    exact ⟨0, Nat.le_refl _, if_pos rfl⟩
  · exact fun u hu => absurd hu (Finset.notMem_empty u)
  · exact fun u hu => absurd hu (Finset.notMem_empty u)

/-- The search has not left a walk behind: it has reached its end, or a vertex on the way waits that
is no further than the walk is long. -/
theorem frontier (s : Searching edge source dist settled queue) (h : Walk edge source v d) :
    (v ∈ settled → ∃ e ≤ d, dist v = some e) ∧
      (v ∉ settled → ∃ x ∉ settled, ∃ e ≤ d, dist x = some e) := by
  induction h with
  | nil =>
    exact ⟨fun _ => ⟨0, Nat.le_refl _, s.start⟩, fun h => ⟨source, h, 0, Nat.le_refl _, s.start⟩⟩
  | @snoc u v d c _ last ih =>
    by_cases hu : u ∈ settled
    · obtain ⟨e, he, hdist⟩ := ih.1 hu
      obtain ⟨a, ha, hdist'⟩ := s.closed u hu e hdist v c last
      have hle : a ≤ d + c := ha.trans (Nat.add_le_add_right he c)
      exact ⟨fun _ => ⟨a, hle, hdist'⟩, fun h => ⟨v, h, a, hle, hdist'⟩⟩
    · obtain ⟨x, hx, e, he, hdist⟩ := ih.2 hu
      refine ⟨?_, fun _ => ⟨x, hx, e, he.trans (Nat.le_add_right d c), hdist⟩⟩
      -- What is settled is no further than `x`, which waits.
      intro hv
      obtain ⟨a, ha, hfirst⟩ := s.known v hv
      have hqueued := (s.pending x e hdist).resolve_left hx
      exact ⟨a, ((hfirst e x hqueued).trans he).trans (Nat.le_add_right d c), ha⟩

/-- The distance of the first entry is final, if its vertex is not settled yet. -/
theorem first_final (s : Searching edge source dist settled queue) (first : First d v queue)
    (hv : v ∉ settled) : dist v = some d ∧ IsDistance edge source v d := by
  obtain ⟨e, he, hdist⟩ := s.queued d v first.1
  have hle := first.2 e v ((s.pending v e hdist).resolve_left hv)
  obtain rfl : e = d := Nat.le_antisymm he hle
  refine ⟨hdist, s.walk v e hdist, ?_⟩
  intro a ha
  obtain ⟨x, hx, b, hb, hdist'⟩ := (s.frontier ha).2 hv
  exact (first.2 b x ((s.pending x b hdist').resolve_left hx)).trans hb

variable [DecidableEq V]

/-- An entry for a settled vertex is dropped. -/
theorem discard (s : Searching edge source dist settled queue) (hv : v ∈ settled) :
    Searching edge source dist settled (queue.erase (d, v)) := by
  refine ⟨s.start, s.walk, ?_, ?_, ?_, s.closed⟩
  · intro x e hdist
    rcases s.pending x e hdist with hx | hqueued
    · exact .inl hx
    · by_cases hx : x = v
      · exact .inl (hx ▸ hv)
      · have hne : (e, x) ≠ (d, v) := fun h => hx (Prod.mk.inj h).2
        exact .inr ((List.mem_erase_of_ne hne).mpr hqueued)
  · exact fun e x h => s.queued e x (List.mem_of_mem_erase h)
  · intro u hu
    obtain ⟨e, hdist, hle⟩ := s.known u hu
    exact ⟨e, hdist, fun a x h => hle a x (List.mem_of_mem_erase h)⟩

/-- The vertex of the first entry is settled and its edges are relaxed. -/
theorem settle (s : Searching edge source dist settled queue) (first : First d v queue)
    (hv : v ∉ settled)
    (r : Relaxed (insert v settled) d (edge v) dist dist' (queue.erase (d, v)) queue') :
    Searching edge source dist' (insert v settled) queue' := by
  obtain ⟨hdist, hdistance⟩ := s.first_final first hv
  have hkeep : dist' v = some d := (r.keeps v (Finset.mem_insert_self v settled)).trans hdist
  -- Whatever waits is no nearer than `d`.
  have hqueue : ∀ e x, (e, x) ∈ queue' → d ≤ e := by
    intro e x hqueued
    rcases r.new e x hqueued with hold | ⟨hle, _⟩
    · exact first.2 e x (List.mem_of_mem_erase hold)
    · exact hle
  refine ⟨?_, ?_, ?_, ?_, ?_, ?_⟩
  · obtain ⟨e, he, hsource⟩ := r.lower source 0 s.start
    rwa [Nat.le_zero.mp he] at hsource
  · intro x e hx
    rcases r.found x e hx with hold | ⟨c, hedge, rfl⟩
    · exact s.walk x e hold
    · exact hdistance.1.snoc hedge
  · intro x e hx
    rcases r.filed x e hx with hold | hqueued
    · rcases s.pending x e hold with hsettled | hqueued
      · exact .inl (Finset.mem_insert_of_mem hsettled)
      · by_cases hsame : x = v
        · exact .inl (hsame ▸ Finset.mem_insert_self v settled)
        · have hne : (e, x) ≠ (d, v) := fun h => hsame (Prod.mk.inj h).2
          exact .inr (r.old _ ((List.mem_erase_of_ne hne).mpr hqueued))
    · exact .inr hqueued
  · intro e x hqueued
    rcases r.new e x hqueued with hold | ⟨_, hnew⟩
    · obtain ⟨a, ha, hx⟩ := s.queued e x (List.mem_of_mem_erase hold)
      obtain ⟨b, hb, hx'⟩ := r.lower x a hx
      exact ⟨b, hb.trans ha, hx'⟩
    · exact hnew
  · intro u hu
    rw [r.keeps u hu]
    rcases Finset.mem_insert.mp hu with rfl | hu
    · exact ⟨d, hdist, hqueue⟩
    · obtain ⟨e, he, hle⟩ := s.known u hu
      exact ⟨e, he, fun a x h => (hle d v first.1).trans (hqueue a x h)⟩
  · intro u hu e he x c hedge
    rw [r.keeps u hu] at he
    rcases Finset.mem_insert.mp hu with rfl | hu
    · obtain rfl : d = e := Option.some.inj (hdist.symm.trans he)
      by_cases hx : x ∈ insert u settled
      · rcases Finset.mem_insert.mp hx with rfl | hsettled
        · exact ⟨d, Nat.le_add_right d c, hkeep⟩
        · obtain ⟨a, ha, hle⟩ := s.known x hsettled
          exact ⟨a, (hle d u first.1).trans (Nat.le_add_right d c), (r.keeps x hx).trans ha⟩
      · exact r.reaches x hx c hedge
    · obtain ⟨a, ha, hx⟩ := s.closed u hu e he x c hedge
      obtain ⟨b, hb, hx'⟩ := r.lower x a hx
      exact ⟨b, hb.trans ha, hx'⟩

/-- When nothing waits, what has been found are the distances. -/
theorem finished (s : Searching edge source dist settled []) :
    dist v = some d ↔ IsDistance edge source v d := by
  have hsettled : ∀ x e, dist x = some e → x ∈ settled :=
    fun x e hx => (s.pending x e hx).resolve_right List.not_mem_nil
  have hleast : ∀ a, Walk edge source v a → ∃ e ≤ a, dist v = some e := by
    intro a ha
    by_cases hv : v ∈ settled
    · exact (s.frontier ha).1 hv
    · obtain ⟨x, hx, e, _, hdist⟩ := (s.frontier ha).2 hv
      exact absurd (hsettled x e hdist) hx
  constructor
  · intro h
    refine ⟨s.walk v d h, ?_⟩
    intro a ha
    obtain ⟨e, he, hdist⟩ := hleast a ha
    obtain rfl : d = e := Option.some.inj (h.symm.trans hdist)
    exact he
  · intro h
    obtain ⟨e, he, hdist⟩ := hleast d h.1
    rwa [Nat.le_antisymm he (h.2 (s.walk v e hdist))] at hdist

end Searching
end Search

end GridServer.Library.ShortestPath
