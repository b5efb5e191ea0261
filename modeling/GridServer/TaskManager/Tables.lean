import GridServer.TaskManager.Handlers

namespace GridServer.TaskManager
open Jobs Library

/-- The tables of a job with one level more than it has passengers. -/
structure Tables (taxies passengers : Nat) (parts : List (MultilevelVecMap Distance)) : Prop where
  length : parts.length = taxies
  shaped : ∀ part ∈ parts, part.Shaped ∧ part.levelsIdx = passengers

/-- What the table of a taxi has for a set of passengers. -/
def entry (parts : List (MultilevelVecMap Distance)) (taxi set : Nat) : Option Distance :=
  parts[taxi]?.bind fun part => part.find (split set)

section
variable {checks : Bool} {taxies passengers taxi set set' : Nat} {distance : Distance}
  {parts after : List (MultilevelVecMap Distance)}

theorem split_of_padded {levels : Nat} (h : Entry.padded (levels + 1) (split set) =
    Entry.padded (levels + 1) (split set')) : split set = split set' := by
  have hwords : ∀ a, Entry.padded (levels + 1) (split a) =
      a % 2 ^ 64 :: (a >>> 64) % 2 ^ 64 :: (Entry.padded (levels + 1) (split a)).tail.tail := by
    intro a
    cases levels with
    | zero => simp [Entry.padded, split, Entry.index]
    | succ levels => simp [Entry.padded, split, Entry.index]
  rw [hwords set, hwords set', List.cons.injEq, List.cons.injEq] at h
  unfold split
  rw [List.cons.injEq, List.cons.injEq, ← BitVec.toNat_inj, ← BitVec.toNat_inj]
  simp only [BitVec.toNat_ofNat]
  exact ⟨h.1, h.2.1, trivial⟩

theorem split_inj {levels : Nat} (h : Entry.padded (levels + 1) (split set) =
    Entry.padded (levels + 1) (split set')) (hset : set < 2 ^ 128) (hset' : set' < 2 ^ 128) :
    set = set' := by
  have hsplit := split_of_padded h
  unfold split at hsplit
  rw [List.cons.injEq, List.cons.injEq, ← BitVec.toNat_inj, ← BitVec.toNat_inj] at hsplit
  simp only [BitVec.toNat_ofNat, Nat.shiftRight_eq_div_pow] at hsplit
  omega

theorem parts_ok (checks : Bool) (taxies : Nat) (hlt : passengers < 64) :
    ∃ tables, TaskManager.parts checks taxies passengers = .ok tables ∧
      Tables taxies passengers tables ∧ ∀ taxi set, entry tables taxi set = none := by
  obtain ⟨part, hnew, hshaped, hlevels, hfind⟩ :=
    MultilevelVecMap.new_ok (T := Distance) checks passengers
  refine ⟨List.replicate taxies part, ?_, ⟨List.length_replicate .., ?_⟩, ?_⟩
  · rw [TaskManager.parts, Nat.mod_eq_of_lt hlt, hnew]
    rfl
  · intro p hp
    rw [List.eq_of_mem_replicate hp]
    exact ⟨hshaped, hlevels⟩
  · intro taxi set
    unfold entry
    rw [List.getElem?_replicate]
    split
    · exact hfind _
    · rfl

theorem parts_shaped {tables : List (MultilevelVecMap Distance)}
    (h : TaskManager.parts checks taxies passengers = .ok tables) :
    (∀ part ∈ tables, part.Shaped) ∧ ∀ taxi set, entry tables taxi set = none := by
  obtain ⟨part, hnew, hshaped, _, hfind⟩ :=
    MultilevelVecMap.new_ok (T := Distance) checks (passengers % 64)
  rw [TaskManager.parts, hnew] at h
  obtain rfl : List.replicate taxies part = tables := Except.ok.inj h
  refine ⟨?_, ?_⟩
  · intro p hp
    rw [List.eq_of_mem_replicate hp]
    exact hshaped
  · intro taxi set
    unfold entry
    rw [List.getElem?_replicate]
    split
    · exact hfind _
    · rfl

/-- Nothing is found in the tables but what was there and what has been filed. -/
theorem file_found {d : Distance} (shaped : ∀ part ∈ parts, part.Shaped)
    (h : TaskManager.file checks parts taxi (set, d) = .ok after) :
    (∀ part ∈ after, part.Shaped) ∧ ∀ taxi' set' distance,
      entry after taxi' set' = some distance → entry parts taxi' set' = some distance ∨
        taxi' = taxi ∧ split set = split set' ∧ d = distance := by
  unfold TaskManager.file at h
  split at h
  · cases h
  · rename_i part hpart
    obtain ⟨⟨part', old⟩, hinsert, h⟩ := bind_ok.mp h
    obtain rfl : parts.set taxi part' = after := Except.ok.inj h
    have hshaped := shaped part (List.mem_of_getElem? hpart)
    have hlt : taxi < parts.length := (List.getElem?_eq_some_iff.mp hpart).1
    obtain ⟨hshaped', hfind⟩ : part'.Shaped ∧ ∀ set' distance,
        part'.find (split set') = some distance →
          part.find (split set') = some distance ∨ split set = split set' ∧ d = distance := by
      by_cases hkey : (split set).length ≤ part.levelsIdx + 1
      · obtain ⟨part₁, hinsert₁, hshaped₁, _, hfind₁⟩ :=
          MultilevelVecMap.insert_ok checks hshaped
            (MultilevelVecMap.roomy_of_insert hshaped hkey hinsert) hkey d
        rw [hinsert₁, Except.ok.injEq, Prod.mk.injEq] at hinsert
        obtain rfl := hinsert.1
        refine ⟨hshaped₁, ?_⟩
        intro set' distance hfound
        rw [hfind₁] at hfound
        split at hfound
        · rename_i hpadded
          obtain ⟨levels, hlevels⟩ : ∃ levels, part.levelsIdx = levels + 1 := by
            have htwo : (split set).length = 2 := rfl
            exact ⟨part.levelsIdx - 1, by omega⟩
          rw [hlevels] at hpadded
          exact .inr ⟨(split_of_padded hpadded).symm, Option.some.inj hfound⟩
        · exact .inl hfound
      · rw [MultilevelVecMap.insert, if_pos (Nat.lt_of_not_le hkey), Except.ok.injEq,
          Prod.mk.injEq] at hinsert
        obtain rfl := hinsert.1
        exact ⟨hshaped, fun _ _ hfound => .inl hfound⟩
    refine ⟨?_, ?_⟩
    · intro p hp
      rcases List.mem_or_eq_of_mem_set hp with hp | hp
      · exact shaped p hp
      · exact hp ▸ hshaped'
    · intro taxi' set' distance hfound
      unfold entry at hfound ⊢
      by_cases htaxi' : taxi' = taxi
      · subst htaxi'
        rw [List.getElem?_set_self hlt, Option.bind_some] at hfound
        rw [hpart, Option.bind_some]
        rcases hfind set' distance hfound with hold | hnew
        · exact .inl hold
        · exact .inr ⟨rfl, hnew⟩
      · rw [List.getElem?_set_ne (Ne.symm htaxi')] at hfound
        exact .inl hfound

/-- There is room for a set of fewer than 127 passengers in a table of two levels, unless it is empty
and the set has all of the first 64. -/
theorem roomy_split {part : MultilevelVecMap Distance} (hset : set < 2 ^ 127)
    (hlevels : 1 ≤ part.levelsIdx) (hlow : 0 < part.vec.length ∨ set % 2 ^ 64 + 1 < 2 ^ 64) :
    part.Roomy (split set) := by
  obtain ⟨levels, hlevels⟩ : ∃ levels, part.levelsIdx = levels + 1 :=
    ⟨part.levelsIdx - 1, by omega⟩
  rw [MultilevelVecMap.Roomy, hlevels]
  refine ⟨hlow, .of_padded ?_⟩
  intro i hi
  rcases Entry.mem_padded hi with rfl | ⟨word, hword, rfl⟩
  · decide
  · rw [split, List.tail_cons, List.mem_singleton] at hword
    rw [hword, BitVec.toNat_ofNat, Nat.shiftRight_eq_div_pow]
    omega

/-- What has been filed for a set of passengers is found under it. -/
theorem Tables.file (checks : Bool) (t : Tables taxies passengers parts) (h : 1 ≤ passengers)
    (htaxi : taxi < taxies) (hset : set + 1 < 2 ^ 64) (distance : Distance) :
    ∃ after, TaskManager.file checks parts taxi (set, distance) = .ok after ∧
      Tables taxies passengers after ∧ ∀ taxi' set', set' < 2 ^ 128 →
        entry after taxi' set' = if taxi' = taxi ∧ set' = set then some distance
          else entry parts taxi' set' := by
  obtain ⟨levels, rfl⟩ : ∃ levels, passengers = levels + 1 := ⟨passengers - 1, by omega⟩
  have hlt : taxi < parts.length := t.length ▸ htaxi
  obtain ⟨part, hpart⟩ : ∃ part, parts[taxi]? = some part := ⟨_, List.getElem?_eq_getElem hlt⟩
  obtain ⟨hshaped, hlevels⟩ := t.shaped part (List.mem_of_getElem? hpart)
  obtain ⟨part', hinsert, hshaped', hlevels', hfind⟩ := MultilevelVecMap.insert_ok checks hshaped
    (roomy_split (by omega) (by omega) (.inr (by omega)))
    (by simp [split, hlevels] : (split set).length ≤ part.levelsIdx + 1) distance
  refine ⟨parts.set taxi part', ?_, ⟨?_, ?_⟩, ?_⟩
  · simp [TaskManager.file, hpart, hinsert]
  · rw [List.length_set, t.length]
  · intro p hp
    cases List.mem_or_eq_of_mem_set hp with
    | inl hp => exact t.shaped p hp
    | inr hp =>
      rw [hp]
      exact ⟨hshaped', hlevels'.trans hlevels⟩
  · intro taxi' set' hset'
    unfold entry
    by_cases htaxi' : taxi' = taxi
    · subst htaxi'
      rw [List.getElem?_set_self hlt, hpart, Option.bind_some, Option.bind_some, hfind, hlevels]
      by_cases hsame : set' = set
      · rw [if_pos (by rw [hsame]), if_pos ⟨rfl, hsame⟩]
      · have hpadded : Entry.padded (levels + 1) (split set') ≠
            Entry.padded (levels + 1) (split set) := fun heq => hsame (split_inj heq hset' (by omega))
        rw [if_neg hpadded, if_neg (fun hand => hsame hand.2)]
    · rw [List.getElem?_set_ne (Ne.symm htaxi'), if_neg (fun hand => htaxi' hand.1)]

/-- Two distances of a taxi are filed, and nothing else. -/
def Entered (parts after : List (MultilevelVecMap Distance)) (taxi : Nat)
    (result : (Nat × Distance) × (Nat × Distance)) : Prop :=
  ∀ taxi' set', set' < 2 ^ 128 → entry after taxi' set' =
    if taxi' = taxi ∧ set' = result.2.1 then some result.2.2
    else if taxi' = taxi ∧ set' = result.1.1 then some result.1.2 else entry parts taxi' set'

theorem Tables.fileBoth (checks : Bool) (t : Tables taxies passengers parts) (h : 1 ≤ passengers)
    (htaxi : taxi < taxies) (result : (Nat × Distance) × (Nat × Distance))
    (hset₁ : result.1.1 + 1 < 2 ^ 64) (hset₂ : result.2.1 + 1 < 2 ^ 64) :
    ∃ between after, TaskManager.file checks parts taxi result.1 = .ok between ∧
      TaskManager.file checks between taxi result.2 = .ok after ∧ Tables taxies passengers after ∧
        Entered parts after taxi result := by
  obtain ⟨between, hfile₁, htables₁, hentry₁⟩ := t.file checks h htaxi hset₁ result.1.2
  obtain ⟨after, hfile₂, htables₂, hentry₂⟩ := htables₁.file checks h htaxi hset₂ result.2.2
  refine ⟨between, after, hfile₁, hfile₂, htables₂, ?_⟩
  intro taxi' set' hset'
  rw [hentry₂ taxi' set' hset', hentry₁ taxi' set' hset']

/-- What was in the tables stays there, and what is filed is there. -/
theorem Entered.isSome {result : (Nat × Distance) × (Nat × Distance)}
    (e : Entered parts after taxi result) {taxi' set' : Nat} (hset' : set' < 2 ^ 128)
    (h : (entry parts taxi' set').isSome ∨ taxi' = taxi ∧ (set' = result.1.1 ∨ set' = result.2.1)) :
    (entry after taxi' set').isSome := by
  rw [e taxi' set' hset']
  split
  · rfl
  · split
    · rfl
    · rename_i h₂ h₁
      cases h with
      | inl h => exact h
      | inr h =>
        cases h.2 with
        | inl hset => exact absurd ⟨h.1, hset⟩ h₁
        | inr hset => exact absurd ⟨h.1, hset⟩ h₂

/-- What is in the tables was there or has just been filed. -/
theorem Entered.of_eq_some {result : (Nat × Distance) × (Nat × Distance)}
    (e : Entered parts after taxi result) {taxi' set' : Nat} {distance : Distance}
    (hset' : set' < 2 ^ 128) (h : entry after taxi' set' = some distance) :
    entry parts taxi' set' = some distance ∨
      taxi' = taxi ∧ (result.1 = (set', distance) ∨ result.2 = (set', distance)) := by
  rw [e taxi' set' hset'] at h
  split at h
  · rename_i hand
    exact .inr ⟨hand.1, .inr (Prod.ext hand.2.symm (Option.some.inj h))⟩
  · split at h
    · rename_i hand
      exact .inr ⟨hand.1, .inl (Prod.ext hand.2.symm (Option.some.inj h))⟩
    · exact .inl h

theorem Tables.get_split (t : Tables taxies passengers parts) (h : 1 ≤ passengers)
    (hentry : entry parts taxi set = some distance) :
    ∃ part, parts[taxi]? = some part ∧ part.get (split set) = .ok (some distance) := by
  obtain ⟨part, hpart, hfind⟩ := Option.bind_eq_some_iff.mp hentry
  obtain ⟨hshaped, hlevels⟩ := t.shaped part (List.mem_of_getElem? hpart)
  refine ⟨part, hpart, ?_⟩
  rw [MultilevelVecMap.get_eq hshaped (by simp [split, hlevels, h]), hfind]

/-- The distance of a set is found under its one word as well. -/
theorem Tables.get (t : Tables taxies passengers parts) (h : 1 ≤ passengers)
    (hset : set < 2 ^ 64) (hentry : entry parts taxi set = some distance) {word : BitVec 64}
    (hword : word.toNat = set) :
    ∃ part, parts[taxi]? = some part ∧ part.get [word] = .ok (some distance) := by
  obtain ⟨levels, rfl⟩ : ∃ levels, passengers = levels + 1 := ⟨passengers - 1, by omega⟩
  unfold entry at hentry
  obtain ⟨part, hpart, hfind⟩ := Option.bind_eq_some_iff.mp hentry
  obtain ⟨hshaped, hlevels⟩ := t.shaped part (List.mem_of_getElem? hpart)
  refine ⟨part, hpart, ?_⟩
  have hpadded : Entry.padded (levels + 1) [word] = Entry.padded (levels + 1) (split set) := by
    have hsplit : split set = [word, 0] := by
      have hhigh : set >>> 64 = 0 := by
        rw [Nat.shiftRight_eq_div_pow]
        exact Nat.div_eq_of_lt hset
      rw [split, hhigh, ← hword, BitVec.ofNat_toNat, BitVec.setWidth_eq]
      rfl
    rw [hsplit]
    cases levels with
    | zero => simp [Entry.padded, Entry.index]
    | succ levels => simp [Entry.padded, Entry.index]
  rw [MultilevelVecMap.get_eq hshaped (by simp)]
  unfold MultilevelVecMap.find at hfind ⊢
  rw [hlevels, Entry.find_congr hpadded, ← hlevels, hfind]

end

end GridServer.TaskManager
