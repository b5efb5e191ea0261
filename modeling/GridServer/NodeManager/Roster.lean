import GridServer.NodeManager.Handlers

namespace GridServer.NodeManager

/-- Who serves whom, in the four places the node manager keeps it: at the nodes, at the schedulers,
in their demands and among the unassigned. -/
structure Roster where
  duty : Id → Option (Platform × Option Id)
  assigned : Id → Option LinkedVecSet
  demand : Id → Option WorkersDemand
  unassigned : LinkedVecSet

namespace Roster
variable {r : Roster} {pending : List (Id × Id)} {loose : List Id} {w i : Id} {p : Platform}

/-- The four places agree, but for the workers in `pending`, which are promised to a scheduler and
not assigned to it yet, and those in `loose`, which a scheduler has given up and which are not
released yet. -/
structure Consistent (r : Roster) (pending : List (Id × Id)) (loose : List Id) : Prop where
  unassigned : ∀ w, w ∈ r.unassigned ↔
    (∃ p, r.duty w = some (p, none)) ∧ w ∉ pending.map Prod.snd
  assigned : ∀ i ws, r.assigned i = some ws → ∀ w, w ∈ ws ↔
    (∃ p, r.duty w = some (p, some i)) ∧ w ∉ loose
  served : ∀ w p i, r.duty w = some (p, some i) → (r.assigned i).isSome
  demanded : ∀ i ws w, r.assigned i = some ws → w ∈ ws → (r.demand i).isSome
  provided : ∀ i d, r.demand i = some d → ∃ ws, r.assigned i = some ws ∧
    d.providedWorkers = ws.len + (pending.map Prod.fst).count i
  required : ∀ i d n, r.demand i = some d → d.requiredWorkers = some n → d.providedWorkers ≤ n
  supported : ∀ i d ws w p, r.demand i = some d → r.assigned i = some ws → w ∈ ws →
    r.duty w = some (p, some i) → p ∈ d.supportedPlatforms
  promised : ∀ i w, (i, w) ∈ pending → ∃ p d, r.duty w = some (p, none) ∧
    r.demand i = some d ∧ p ∈ d.supportedPlatforms
  once : (pending.map Prod.snd).Nodup

theorem Consistent.perm {pending' : List (Id × Id)} (c : r.Consistent pending loose)
    (h : pending.Perm pending') : r.Consistent pending' loose := by
  have hfst := h.map Prod.fst
  have hsnd := h.map Prod.snd
  refine ⟨?_, c.assigned, c.served, c.demanded, ?_, c.required, c.supported, ?_, ?_⟩
  · intro w
    rw [← hsnd.mem_iff]
    exact c.unassigned w
  · intro i d hd
    rw [← hfst.count_eq]
    exact c.provided i d hd
  · intro i w hw
    exact c.promised i w (h.mem_iff.mpr hw)
  · exact hsnd.nodup_iff.mp c.once

/-- Nobody is connected. -/
def empty : Roster := ⟨fun _ => none, fun _ => none, fun _ => none, LinkedVecMap.new⟩

theorem consistent_empty : empty.Consistent [] [] := by
  constructor
  · simp [empty, LinkedVecSet.not_mem_new]
  all_goals simp [empty]

def release (r : Roster) (w : Id) : Roster :=
  { r with
    duty := Function.update r.duty w ((r.duty w).map fun d => (d.1, none))
    unassigned := r.unassigned.insert w }

/-- A worker that no scheduler has among its own stands idle: it is unassigned, and nobody else's
place changes. -/
theorem Consistent.idle {loose' : List Id} (c : r.Consistent [] loose')
    (hout : ∀ i ws, r.assigned i = some ws → w ∉ ws) (hloose : ∀ k, k ≠ w → (k ∈ loose' ↔ k ∈ loose))
    (p : Platform) :
    Consistent { r with
      duty := Function.update r.duty w (some (p, none))
      unassigned := r.unassigned.insert w } [] loose := by
  have hother : ∀ k, k ≠ w → Function.update r.duty w (some (p, none)) k = r.duty k :=
    fun k hk => Function.update_of_ne hk ..
  refine ⟨?_, ?_, ?_, c.demanded, c.provided, c.required, ?_, by simp, .nil⟩
  · intro k
    rw [LinkedVecSet.mem_insert, c.unassigned]
    by_cases hk : k = w
    · subst hk
      simp
    · simp [hk]
  · intro i ws hi k
    by_cases hk : k = w
    · subst hk
      simp [hout i ws hi]
    · rw [c.assigned i ws hi k, hloose k hk]
      simp only [hother k hk]
  · intro k p' i hd
    by_cases hk : k = w
    · subst hk
      simp at hd
    · exact c.served k p' i (hother k hk ▸ hd)
  · intro i d ws k p' hd hi hmem hduty
    by_cases hk : k = w
    · subst hk
      exact absurd hmem (hout i ws hi)
    · exact c.supported i d ws k p' hd hi hmem (hother k hk ▸ hduty)

theorem Consistent.release (c : r.Consistent [] (w :: loose)) (hw : (r.duty w).isSome) :
    (r.release w).Consistent [] loose := by
  obtain ⟨⟨p, _⟩, hp⟩ := Option.isSome_iff_exists.mp hw
  have hout : ∀ i ws, r.assigned i = some ws → w ∉ ws := by
    intro i ws hi hmem
    exact ((c.assigned i ws hi w).mp hmem).2 List.mem_cons_self
  rw [Roster.release, hp, Option.map_some]
  apply c.idle hout
  intro k hk
  simp [hk]

/-- The demand of a scheduler is set anew, or dropped, and its workers are given up. -/
def redemand (r : Roster) (i : Id) (demand : Option WorkersDemand) : Roster :=
  { r with
    assigned := Function.update r.assigned i (some LinkedVecMap.new)
    demand := Function.update r.demand i demand }

theorem Consistent.redemand (c : r.Consistent [] []) {ws : LinkedVecSet}
    (hi : r.assigned i = some ws) {demand : Option WorkersDemand}
    (hd : ∀ d, demand = some d → d.providedWorkers = 0) :
    (r.redemand i demand).Consistent [] ws.keys := by
  have hself : (r.redemand i demand).assigned i = some LinkedVecMap.new := by
    simp [Roster.redemand]
  have hother : ∀ j, j ≠ i → (r.redemand i demand).assigned j = r.assigned j := fun j hj => by
    simp [Roster.redemand, Function.update_of_ne hj]
  have hdself : (r.redemand i demand).demand i = demand := by simp [Roster.redemand]
  have hdother : ∀ j, j ≠ i → (r.redemand i demand).demand j = r.demand j := fun j hj => by
    simp [Roster.redemand, Function.update_of_ne hj]
  have hkeys : ∀ k, k ∈ ws.keys ↔ ∃ p, r.duty k = some (p, some i) := by
    intro k
    rw [LinkedVecSet.mem_keys, c.assigned i ws hi]
    simp
  refine ⟨c.unassigned, ?_, ?_, ?_, ?_, ?_, ?_, by simp, .nil⟩
  · intro j ws' hj k
    rw [hkeys]
    by_cases hji : j = i
    · subst hji
      rw [hself, Option.some.injEq] at hj
      subst hj
      constructor
      · intro hmem
        exact absurd hmem (LinkedVecSet.not_mem_new k)
      · rintro ⟨hduty, hnot⟩
        exact absurd hduty hnot
    · rw [hother j hji] at hj
      rw [c.assigned j ws' hj]
      constructor
      · rintro ⟨⟨p, hp⟩, _⟩
        refine ⟨⟨p, hp⟩, ?_⟩
        rintro ⟨p', hp'⟩
        have := hp.symm.trans hp'
        simp only [Option.some.injEq, Prod.mk.injEq] at this
        exact hji this.2
      · rintro ⟨hduty, _⟩
        exact ⟨hduty, by simp⟩
  · intro k p j hduty
    by_cases hji : j = i
    · subst hji
      rw [hself]
      rfl
    · rw [hother j hji]
      exact c.served k p j hduty
  · intro j ws' k hj hmem
    by_cases hji : j = i
    · subst hji
      rw [hself, Option.some.injEq] at hj
      subst hj
      exact absurd hmem (LinkedVecSet.not_mem_new k)
    · rw [hdother j hji]
      exact c.demanded j ws' k (hother j hji ▸ hj) hmem
  · intro j d hj
    by_cases hji : j = i
    · subst hji
      rw [hdself] at hj
      exact ⟨_, hself, by simp [hd d hj, LinkedVecMap.len, LinkedVecMap.new]⟩
    · rw [hother j hji]
      exact c.provided j d (hdother j hji ▸ hj)
  · intro j d n hj hn
    by_cases hji : j = i
    · subst hji
      rw [hdself] at hj
      rw [hd d hj]
      exact Nat.zero_le n
    · exact c.required j d n (hdother j hji ▸ hj) hn
  · intro j d ws' k p hdj hj hmem hduty
    by_cases hji : j = i
    · subst hji
      rw [hself, Option.some.injEq] at hj
      subst hj
      exact absurd hmem (LinkedVecSet.not_mem_new k)
    · exact c.supported j d ws' k p (hdother j hji ▸ hdj) (hother j hji ▸ hj) hmem hduty

/-- Without a demand the scheduler has no workers. -/
theorem Consistent.undemanded (c : r.Consistent [] []) {ws : LinkedVecSet}
    (hi : r.assigned i = some ws) (hd : r.demand i = none) : ws = LinkedVecMap.new := by
  have hempty : ws.entries = [] := by
    rw [List.eq_nil_iff_forall_not_mem]
    rintro ⟨k, u⟩ hk
    have hmem : k ∈ ws := LinkedVecSet.mem_keys.mp (List.mem_map.mpr ⟨_, hk, rfl⟩)
    have hsome := c.demanded i ws k hi hmem
    rw [hd] at hsome
    cases hsome
  obtain ⟨entries, distinct⟩ := ws
  subst hempty
  rfl

def join (r : Roster) (w : Id) (p : Platform) : Roster :=
  { r with
    duty := Function.update r.duty w (some (p, none))
    unassigned := r.unassigned.insert w }

theorem Consistent.join (c : r.Consistent [] []) (hw : r.duty w = none) (p : Platform) :
    (r.join w p).Consistent [] [] := by
  have hout : ∀ i ws, r.assigned i = some ws → w ∉ ws := by
    intro i ws hi hmem
    obtain ⟨⟨p', hp'⟩, _⟩ := (c.assigned i ws hi w).mp hmem
    rw [hw] at hp'
    cases hp'
  exact c.idle hout (fun _ _ => Iff.rfl) p

/-- A scheduler starts without workers. -/
theorem Consistent.enter (c : r.Consistent [] []) (hi : r.assigned i = none) :
    Consistent { r with assigned := Function.update r.assigned i (some LinkedVecMap.new) } [] [] := by
  have hdemand : r.demand i = none := by
    cases hd : r.demand i with
    | none => rfl
    | some d =>
      obtain ⟨ws, hws, _⟩ := c.provided i d hd
      rw [hi] at hws
      cases hws
  have hnobody : ∀ k, ¬∃ p, r.duty k = some (p, some i) := by
    rintro k ⟨p, hp⟩
    have := c.served k p i hp
    rw [hi] at this
    cases this
  refine ⟨c.unassigned, ?_, ?_, ?_, ?_, c.required, ?_, by simp, .nil⟩
  all_goals try dsimp only
  · intro j ws hj k
    by_cases hji : j = i
    · subst hji
      rw [Function.update_self, Option.some.injEq] at hj
      subst hj
      simp [LinkedVecSet.not_mem_new, hnobody k]
    · rw [Function.update_of_ne hji] at hj
      exact c.assigned j ws hj k
  · intro k p j hduty
    by_cases hji : j = i
    · subst hji
      simp
    · rw [Function.update_of_ne hji]
      exact c.served k p j hduty
  · intro j ws k hj hmem
    by_cases hji : j = i
    · subst hji
      rw [Function.update_self, Option.some.injEq] at hj
      subst hj
      exact absurd hmem (LinkedVecSet.not_mem_new k)
    · rw [Function.update_of_ne hji] at hj
      exact c.demanded j ws k hj hmem
  · intro j d hj
    have hji : j ≠ i := by
      rintro rfl
      rw [hdemand] at hj
      cases hj
    rw [Function.update_of_ne hji]
    exact c.provided j d hj
  · intro j d ws k p hdj hj hmem hduty
    have hji : j ≠ i := by
      rintro rfl
      rw [hdemand] at hdj
      cases hdj
    rw [Function.update_of_ne hji] at hj
    exact c.supported j d ws k p hdj hj hmem hduty

/-- An unassigned worker leaves. -/
theorem Consistent.quit (c : r.Consistent [] []) (hw : r.duty w = some (p, none)) :
    Consistent { r with
      duty := Function.update r.duty w none, unassigned := r.unassigned.remove w } [] [] := by
  refine ⟨?_, ?_, ?_, c.demanded, c.provided, c.required, ?_, by simp, .nil⟩
  all_goals try dsimp only
  · intro k
    rw [LinkedVecSet.mem_remove, c.unassigned]
    by_cases hk : k = w
    · simp [hk]
    · simp [hk]
  · intro i ws hi k
    rw [c.assigned i ws hi k]
    by_cases hk : k = w
    · subst hk
      simp [hw]
    · simp [Function.update_of_ne hk]
  · intro k p' i hd
    by_cases hk : k = w
    · simp [hk] at hd
    · rw [Function.update_of_ne hk] at hd
      exact c.served k p' i hd
  · intro i d ws k p' hd hi hmem hduty
    by_cases hk : k = w
    · simp [hk] at hduty
    · rw [Function.update_of_ne hk] at hduty
      exact c.supported i d ws k p' hd hi hmem hduty

/-- An assigned worker leaves its scheduler, whose demand has one worker less. -/
theorem Consistent.lose (c : r.Consistent [] []) (hw : r.duty w = some (p, some i))
    {ws : LinkedVecSet} (hi : r.assigned i = some ws) {d : WorkersDemand}
    (hd : r.demand i = some d) :
    Consistent { r with
      duty := Function.update r.duty w none
      assigned := Function.update r.assigned i (some (ws.remove w))
      demand := Function.update r.demand i
        (some { d with providedWorkers := d.providedWorkers - 1 }) } [] [] := by
  have hmem : w ∈ ws := (c.assigned i ws hi w).mpr ⟨⟨p, hw⟩, by simp⟩
  obtain ⟨ws', hws', hprovided⟩ := c.provided i d hd
  rw [hi, Option.some.injEq] at hws'
  subst hws'
  have hlen : (ws.remove w).len + 1 = ws.len := LinkedVecMap.len_remove hmem
  refine ⟨?_, ?_, ?_, ?_, ?_, ?_, ?_, by simp, .nil⟩
  all_goals try dsimp only
  · intro k
    rw [c.unassigned]
    by_cases hk : k = w
    · subst hk
      simp [hw]
    · simp [Function.update_of_ne hk]
  · intro j ws₁ hj k
    by_cases hji : j = i
    · subst hji
      rw [Function.update_self, Option.some.injEq] at hj
      subst hj
      rw [LinkedVecSet.mem_remove, c.assigned j ws hi]
      by_cases hk : k = w
      · simp [hk]
      · simp [hk]
    · rw [Function.update_of_ne hji] at hj
      rw [c.assigned j ws₁ hj]
      by_cases hk : k = w
      · subst hk
        simp [hw, Ne.symm hji]
      · simp [Function.update_of_ne hk]
  · intro k p' j hduty
    by_cases hk : k = w
    · simp [hk] at hduty
    · rw [Function.update_of_ne hk] at hduty
      by_cases hji : j = i
      · subst hji
        simp
      · rw [Function.update_of_ne hji]
        exact c.served k p' j hduty
  · intro j ws₁ k hj hk
    by_cases hji : j = i
    · subst hji
      simp
    · rw [Function.update_of_ne hji] at hj ⊢
      exact c.demanded j ws₁ k hj hk
  · intro j d₁ hj
    by_cases hji : j = i
    · subst hji
      rw [Function.update_self, Option.some.injEq] at hj
      subst hj
      refine ⟨_, Function.update_self .., ?_⟩
      simp only [List.map_nil, List.count_nil] at hprovided ⊢
      omega
    · rw [Function.update_of_ne hji] at hj ⊢
      exact c.provided j d₁ hj
  · intro j d₁ n hj hn
    by_cases hji : j = i
    · subst hji
      rw [Function.update_self, Option.some.injEq] at hj
      subst hj
      exact Nat.le_trans (Nat.sub_le _ _) (c.required j d n hd hn)
    · rw [Function.update_of_ne hji] at hj
      exact c.required j d₁ n hj hn
  · intro j d₁ ws₁ k p' hdj hj hk hduty
    have hkw : k ≠ w := by
      rintro rfl
      simp at hduty
    rw [Function.update_of_ne hkw] at hduty
    by_cases hji : j = i
    · subst hji
      rw [Function.update_self, Option.some.injEq] at hdj hj
      subst hdj hj
      exact c.supported j d ws k p' hd hi (LinkedVecSet.mem_remove.mp hk).2 hduty
    · rw [Function.update_of_ne hji] at hdj hj
      exact c.supported j d₁ ws₁ k p' hdj hj hk hduty

/-- The worker at the front is promised to a scheduler whose demand takes it. -/
theorem Consistent.promise (c : r.Consistent pending []) (hfront : r.unassigned.front = some (w, ()))
    (hw : r.duty w = some (p, none)) {d : WorkersDemand} (hd : r.demand i = some d)
    (htakes : d.takes p) :
    Consistent { r with
      unassigned := r.unassigned.popFront
      demand := Function.update r.demand i
        (some { d with providedWorkers := d.providedWorkers + 1 }) } (pending ++ [(i, w)]) [] := by
  simp only [WorkersDemand.takes, ne_eq, Bool.decide_and, Bool.and_eq_true, decide_eq_true_eq]
    at htakes
  have hmem : w ∈ r.unassigned := by
    rw [LinkedVecSet.mem_iff, Option.isSome_iff_exists]
    exact ⟨(), LinkedVecMap.get_eq_some.mpr
      (LinkedVecMap.entries_of_front hfront ▸ List.mem_cons_self)⟩
  have hnew : w ∉ pending.map Prod.snd := ((c.unassigned w).mp hmem).2
  refine ⟨?_, c.assigned, c.served, ?_, ?_, ?_, ?_, ?_, ?_⟩
  all_goals try dsimp only
  · intro k
    rw [LinkedVecSet.mem_popFront hfront, c.unassigned, List.map_append, List.mem_append]
    simp only [List.map_cons, List.map_nil, List.mem_singleton]
    constructor
    · rintro ⟨hne, hduty, hnot⟩
      exact ⟨hduty, by simp [hnot, hne]⟩
    · rintro ⟨hduty, hnot⟩
      rw [not_or] at hnot
      exact ⟨hnot.2, hduty, hnot.1⟩
  · intro j ws k hj hk
    by_cases hji : j = i
    · subst hji
      simp
    · rw [Function.update_of_ne hji]
      exact c.demanded j ws k hj hk
  · intro j d₁ hj
    rw [List.map_append, List.count_append]
    by_cases hji : j = i
    · subst hji
      rw [Function.update_self, Option.some.injEq] at hj
      subst hj
      obtain ⟨ws, hws, hprovided⟩ := c.provided j d hd
      exact ⟨ws, hws, by simp [hprovided]; omega⟩
    · rw [Function.update_of_ne hji] at hj
      obtain ⟨ws, hws, hprovided⟩ := c.provided j d₁ hj
      exact ⟨ws, hws, by simp [hprovided, Ne.symm hji]⟩
  · intro j d₁ n hj hn
    by_cases hji : j = i
    · subst hji
      rw [Function.update_self, Option.some.injEq] at hj
      subst hj
      have hle := c.required j d n hd hn
      have hne : n ≠ d.providedWorkers := fun he => htakes.1 (he ▸ hn)
      exact show d.providedWorkers + 1 ≤ n by omega
    · rw [Function.update_of_ne hji] at hj
      exact c.required j d₁ n hj hn
  · intro j d₁ ws k p' hdj hj hk hduty
    by_cases hji : j = i
    · subst hji
      rw [Function.update_self, Option.some.injEq] at hdj
      subst hdj
      exact c.supported j d ws k p' hd hj hk hduty
    · rw [Function.update_of_ne hji] at hdj
      exact c.supported j d₁ ws k p' hdj hj hk hduty
  · intro j k hjk
    cases List.mem_append.mp hjk with
    | inl hold =>
      obtain ⟨p', d₁, hduty, hd₁, hp⟩ := c.promised j k hold
      by_cases hji : j = i
      · subst hji
        rw [hd, Option.some.injEq] at hd₁
        subst hd₁
        exact ⟨p', _, hduty, Function.update_self .., hp⟩
      · exact ⟨p', d₁, hduty, by rw [Function.update_of_ne hji]; exact hd₁, hp⟩
    | inr hlast =>
      rw [List.mem_singleton, Prod.mk.injEq] at hlast
      obtain ⟨rfl, rfl⟩ := hlast
      exact ⟨p, _, hw, Function.update_self .., htakes.2⟩
  · rw [List.map_append, List.nodup_append]
    refine ⟨c.once, by simp, ?_⟩
    intro a ha b hb he
    simp only [List.map_cons, List.map_nil, List.mem_singleton] at hb
    exact hnew (hb ▸ he ▸ ha)

/-- A promised worker is assigned. -/
theorem Consistent.assign (c : r.Consistent ((i, w) :: pending) [])
    (hw : r.duty w = some (p, none)) {ws : LinkedVecSet} (hi : r.assigned i = some ws) :
    Consistent { r with
      duty := Function.update r.duty w (some (p, some i))
      assigned := Function.update r.assigned i (some (ws.insert w)) } pending [] := by
  obtain ⟨p₀, d, hduty₀, hd, hp⟩ := c.promised i w List.mem_cons_self
  rw [hw, Option.some.injEq, Prod.mk.injEq] at hduty₀
  obtain ⟨rfl, _⟩ := hduty₀
  have honce := c.once
  rw [List.map_cons, List.nodup_cons] at honce
  have hnot : w ∉ ws := by
    intro hmem
    obtain ⟨⟨p', hp'⟩, _⟩ := (c.assigned i ws hi w).mp hmem
    rw [hw] at hp'
    cases hp'
  have hnone : ws.get w = none := Option.not_isSome_iff_eq_none.mp hnot
  refine ⟨?_, ?_, ?_, ?_, ?_, c.required, ?_, ?_, honce.2⟩
  all_goals try dsimp only
  · intro k
    rw [c.unassigned, List.map_cons, List.mem_cons, not_or]
    by_cases hk : k = w
    · simp [hk]
    · simp [hk]
  · intro j ws₁ hj k
    by_cases hji : j = i
    · subst hji
      rw [Function.update_self, Option.some.injEq] at hj
      subst hj
      rw [LinkedVecSet.mem_insert, c.assigned j ws hi]
      by_cases hk : k = w
      · simp [hk]
      · simp [hk]
    · rw [Function.update_of_ne hji] at hj
      rw [c.assigned j ws₁ hj]
      by_cases hk : k = w
      · subst hk
        simp [hw, Ne.symm hji]
      · simp [Function.update_of_ne hk]
  · intro k p' j hduty
    by_cases hji : j = i
    · subst hji
      simp
    · rw [Function.update_of_ne hji]
      by_cases hk : k = w
      · subst hk
        rw [Function.update_self, Option.some.injEq, Prod.mk.injEq, Option.some.injEq] at hduty
        exact absurd hduty.2.symm hji
      · rw [Function.update_of_ne hk] at hduty
        exact c.served k p' j hduty
  · intro j ws₁ k hj hk
    by_cases hji : j = i
    · subst hji
      simp [hd]
    · rw [Function.update_of_ne hji] at hj
      exact c.demanded j ws₁ k hj hk
  · intro j d₁ hj
    obtain ⟨ws₁, hws₁, hprovided⟩ := c.provided j d₁ hj
    rw [List.map_cons, List.count_cons] at hprovided
    by_cases hji : j = i
    · subst hji
      rw [hi, Option.some.injEq] at hws₁
      subst hws₁
      refine ⟨_, Function.update_self .., ?_⟩
      have hlen : (ws.insert w).len = ws.len + 1 := LinkedVecMap.len_insert hnone ()
      simp only [beq_self_eq_true, ↓reduceIte] at hprovided
      omega
    · rw [Function.update_of_ne hji]
      refine ⟨ws₁, hws₁, ?_⟩
      simpa [Ne.symm hji] using hprovided
  · intro j d₁ ws₁ k p' hdj hj hk hduty
    by_cases hkw : k = w
    · subst hkw
      rw [Function.update_self, Option.some.injEq, Prod.mk.injEq, Option.some.injEq] at hduty
      obtain ⟨rfl, rfl⟩ := hduty
      rw [hd, Option.some.injEq] at hdj
      exact hdj ▸ hp
    · rw [Function.update_of_ne hkw] at hduty
      by_cases hji : j = i
      · subst hji
        rw [Function.update_self, Option.some.injEq] at hj
        subst hj
        cases LinkedVecSet.mem_insert.mp hk with
        | inl he => exact absurd he hkw
        | inr hk => exact c.supported j d₁ ws k p' hdj hi hk hduty
      · rw [Function.update_of_ne hji] at hj
        exact c.supported j d₁ ws₁ k p' hdj hj hk hduty
  · intro j k hjk
    obtain ⟨p', d₁, hduty, hd₁, hp'⟩ := c.promised j k (List.mem_cons_of_mem _ hjk)
    have hkw : k ≠ w := by
      rintro rfl
      exact honce.1 (List.mem_map.mpr ⟨_, hjk, rfl⟩)
    exact ⟨p', d₁, by rw [Function.update_of_ne hkw]; exact hduty, hd₁, hp'⟩

end Roster
end GridServer.NodeManager
