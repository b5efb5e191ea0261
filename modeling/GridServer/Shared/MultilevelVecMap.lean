import GridServer.Shared.BitSet

namespace GridServer
open Library

inductive Entry (T : Type) where
  | empty
  | value (value : T)
  | level (entries : List (Entry T))
deriving Repr

/-- Values filed under keys of several words, one level of entries for each word. -/
structure MultilevelVecMap (T : Type) where
  n : Nat
  levelsIdx : Nat
  vec : List (Entry T)
deriving Repr

namespace Entry
variable {T : Type}

/-- The index of a key in a level. A key that ends early goes on with zeros. -/
def index (key : Words) : Nat := (key.headD 0).toNat

def select (key : Words) (vec : List (Entry T)) : Option (Entry T) := vec[index key]?

def get : Nat → Words → List (Entry T) → Except Fault (Option T)
  | 0, key, vec =>
    match select key vec with
    | none => .ok none
    | some .empty => .ok none
    | some (.value v) => .ok (some v)
    | some (.level _) => .error .undefinedBehaviour
  | levels + 1, key, vec =>
    match select key vec with
    | some (.level entries) => get levels key.tail entries
    | _ => .ok none

/-- `get_mut`, and what is then written through the reference. -/
def getMut : Nat → Words → (T → T) → List (Entry T) → Except Fault (List (Entry T) × Option T)
  | 0, key, write, vec =>
    match select key vec with
    | none => .ok (vec, none)
    | some .empty => .ok (vec, none)
    | some (.value v) => .ok (vec.set (index key) (.value (write v)), some v)
    | some (.level _) => .error .undefinedBehaviour
  | levels + 1, key, write, vec =>
    match select key vec with
    | some (.level entries) => do
      let (entries, found) ← getMut levels key.tail write entries
      return (vec.set (index key) (.level entries), found)
    | _ => .ok (vec, none)

/-- The entries after making room for `key`. -/
def extended (checks : Bool) (vec : List (Entry T)) (key : Nat) (entry : Entry T) :
    Except Fault (List (Entry T)) :=
  if vec.length ≤ key then do
    let added ← usizeAdd checks (key - vec.length) 1
    return vec ++ List.replicate added entry
  else .ok vec

/-- The accesses are unchecked: an entry that is not there or is of the wrong kind is undefined
behaviour. -/
def insert (checks : Bool) :
    Nat → Words → T → List (Entry T) → Except Fault (List (Entry T) × Option T)
  | 0, key, v, vec => do
    let vec ← extended checks vec (index key) .empty
    match select key vec with
    | some .empty => return (vec.set (index key) (.value v), none)
    | some (.value old) => return (vec.set (index key) (.value v), some old)
    | _ => .error .undefinedBehaviour
  | levels + 1, key, v, vec => do
    let vec ← extended checks vec (index key) (.level [])
    match select key vec with
    | some (.level entries) => do
      let (entries, old) ← insert checks levels key.tail v entries
      return (vec.set (index key) (.level entries), old)
    | _ => .error .undefinedBehaviour

def remove : Nat → Words → List (Entry T) → Except Fault (List (Entry T) × Option T)
  | 0, key, vec =>
    match select key vec with
    | none => .ok (vec, none)
    | some .empty => .ok (vec, none)
    | some (.value old) => .ok (vec.set (index key) .empty, some old)
    | some (.level _) => .error .undefinedBehaviour
  | levels + 1, key, vec =>
    match select key vec with
    | some (.level entries) => do
      let (entries, old) ← remove levels key.tail entries
      return (vec.set (index key) (.level entries), old)
    | _ => .ok (vec, none)

/-- Values stand in the last level, and levels in all others. -/
def Shaped : Nat → List (Entry T) → Prop
  | 0, vec => ∀ e ∈ vec, e = .empty ∨ ∃ v, e = .value v
  | levels + 1, vec => ∀ e ∈ vec, ∃ entries, e = .level entries ∧ Shaped levels entries

/-- The value that is filed under the key. -/
def find : Nat → Words → List (Entry T) → Option T
  | 0, key, vec =>
    match select key vec with
    | some (.value v) => some v
    | _ => none
  | levels + 1, key, vec =>
    match select key vec with
    | some (.level entries) => find levels key.tail entries
    | _ => none

/-- The indexes that a key stands for. -/
def padded : Nat → Words → List Nat
  | 0, key => [index key]
  | levels + 1, key => index key :: padded levels key.tail

/-- Room can be made for the index: the number of entries to add, one more than the index when there
are none, is a `usize`. -/
def Extensible (vec : List (Entry T)) (idx : Nat) : Prop := 0 < vec.length ∨ idx + 1 < 2 ^ 64

/-- The entries one level below. -/
def beneath (key : Words) (vec : List (Entry T)) : List (Entry T) :=
  match select key vec with
  | some (.level entries) => entries
  | _ => []

/-- Room can be made for the key in every level. -/
def Roomy : Nat → Words → List (Entry T) → Prop
  | 0, key, vec => Extensible vec (index key)
  | levels + 1, key, vec => Extensible vec (index key) ∧ Roomy levels key.tail (beneath key vec)

section
variable {checks : Bool} {levels idx : Nat} {key key' : Words} {vec after : List (Entry T)}
  {entry : Entry T} {v : T} {new : Option T}

theorem index_lt (key : Words) : index key < 2 ^ 64 := (key.headD 0).isLt

theorem mem_of_select (h : select key vec = some entry) : entry ∈ vec := List.mem_of_getElem? h

theorem lt_of_select (h : select key vec = some entry) : index key < vec.length :=
  (List.getElem?_eq_some_iff.mp h).1

theorem Shaped.leaf (shaped : Shaped 0 vec) (h : select key vec = some entry) :
    entry = .empty ∨ ∃ v, entry = .value v := shaped entry (mem_of_select h)

theorem Shaped.node (shaped : Shaped (levels + 1) vec) (h : select key vec = some entry) :
    ∃ entries, entry = .level entries ∧ Shaped levels entries := shaped entry (mem_of_select h)

theorem beneath_eq {entries : List (Entry T)} (h : select key vec = some (.level entries)) :
    beneath key vec = entries := by
  rw [beneath, h]

theorem shaped_nil (levels : Nat) : Shaped levels ([] : List (Entry T)) := by
  cases levels with
  | zero => simp [Shaped]
  | succ levels => simp [Shaped]

theorem get_eq (shaped : Shaped levels vec) : get levels key vec = .ok (find levels key vec) := by
  induction levels generalizing key vec with
  | zero =>
    unfold get find
    cases hs : select key vec with
    | none => rfl
    | some entry =>
      obtain rfl | ⟨v, rfl⟩ := shaped.leaf hs
      · rfl
      · rfl
  | succ levels ih =>
    unfold get find
    cases hs : select key vec with
    | none => rfl
    | some entry =>
      obtain ⟨entries, rfl, hentries⟩ := shaped.node hs
      exact ih hentries

theorem select_set (hidx : index key < vec.length) (entry : Entry T) (key' : Words) :
    select key' (vec.set (index key) entry) =
      if index key' = index key then some entry else select key' vec := by
  unfold select
  by_cases hk : index key' = index key
  · rw [if_pos hk, hk, List.getElem?_set_self hidx]
  · rw [if_neg hk, List.getElem?_set_ne (Ne.symm hk)]

theorem find_nil (levels : Nat) (key : Words) : find levels key ([] : List (Entry T)) = none := by
  cases levels with
  | zero => simp [find, select]
  | succ levels => simp [find, select]

/-- Only what a key stands for matters. -/
theorem find_congr (h : padded levels key = padded levels key') :
    find levels key vec = find levels key' vec := by
  induction levels generalizing key key' vec with
  | zero =>
    simp only [padded, List.cons.injEq, and_true] at h
    simp only [find, select, h]
  | succ levels ih =>
    simp only [padded, List.cons.injEq] at h
    simp only [find, select, h.1]
    split
    · exact ih h.2
    · rfl

/-- `after` is `vec` with another value for the key. -/
structure Updates (levels : Nat) (key : Words) (new : Option T) (vec after : List (Entry T)) :
    Prop where
  shaped : Shaped levels after
  find : ∀ key', find levels key' after =
    if padded levels key' = padded levels key then new else find levels key' vec

namespace Updates

theorem same (shaped : Shaped levels vec) (h : Entry.find levels key vec = new) :
    Updates levels key new vec vec := by
  refine ⟨shaped, ?_⟩
  intro key'
  split
  · rename_i hpadded
    rw [find_congr hpadded, h]
  · rfl

theorem leaf (shaped : Shaped 0 vec) (hidx : index key < vec.length)
    (h : entry = .empty ∧ new = none ∨ ∃ v, entry = .value v ∧ new = some v) :
    Updates 0 key new vec (vec.set (index key) entry) := by
  constructor
  · intro e he
    rcases List.mem_or_eq_of_mem_set he with he | rfl
    · exact shaped e he
    · rcases h with ⟨rfl, _⟩ | ⟨v, rfl, _⟩
      · exact .inl rfl
      · exact .inr ⟨v, rfl⟩
  · intro key'
    rw [Entry.find, select_set hidx]
    by_cases hk : index key' = index key
    · rw [if_pos hk, if_pos (by simp [padded, hk])]
      rcases h with ⟨rfl, rfl⟩ | ⟨v, rfl, rfl⟩
      · rfl
      · rfl
    · rw [if_neg hk, if_neg (by simp [padded, hk])]
      rfl

theorem node {entries : List (Entry T)} (shaped : Shaped (levels + 1) vec)
    (hselect : select key vec = some (.level entries))
    (u : Updates levels key.tail new entries after) :
    Updates (levels + 1) key new vec (vec.set (index key) (.level after)) := by
  constructor
  · intro e he
    rcases List.mem_or_eq_of_mem_set he with he | rfl
    · exact shaped e he
    · exact ⟨after, rfl, u.shaped⟩
  · intro key'
    rw [Entry.find, select_set (lt_of_select hselect)]
    by_cases hk : index key' = index key
    · have hsame : select key' vec = some (.level entries) := by
        rw [select, hk]
        exact hselect
      rw [if_pos hk, Entry.find, hsame]
      simp only [u.find, padded, hk, List.cons.injEq, true_and]
    · rw [if_neg hk, if_neg (by simp [padded, hk])]
      rfl

end Updates

/-- The entries with room for the index. -/
def grown (vec : List (Entry T)) (idx : Nat) (filler : Entry T) : List (Entry T) :=
  if vec.length ≤ idx then vec ++ List.replicate (idx - vec.length + 1) filler else vec

theorem extended_eq (checks : Bool) (h : Extensible vec idx) (small : idx < 2 ^ 64)
    (filler : Entry T) : extended checks vec idx filler = .ok (grown vec idx filler) := by
  unfold extended grown
  split
  · have hfits : idx - vec.length + 1 < 2 ^ 64 := by
      rcases h with h | h
      · omega
      · omega
    rw [usizeAdd, addBits_of_lt hfits]
    rfl
  · rfl

/-- Without room, a build with overflow checks panics, and one without them adds nothing. -/
theorem extended_full (h : ¬Extensible vec idx) (small : idx < 2 ^ 64) (filler : Entry T) :
    extended checks vec idx filler =
      if checks then .error (.addOverflow 64) else .ok [] := by
  unfold Extensible at h
  obtain ⟨hnil, hidx⟩ : vec = [] ∧ idx = 2 ^ 64 - 1 := by
    rw [not_or, Nat.not_lt, Nat.le_zero, List.length_eq_zero_iff] at h
    exact ⟨h.1, by omega⟩
  subst hnil hidx
  have hroom : ([] : List (Entry T)).length ≤ 2 ^ 64 - 1 := Nat.zero_le _
  rw [extended, if_pos hroom, List.length_nil]
  cases checks with
  | true => simp [usizeAdd, addBits]
  | false => simp [usizeAdd, addBits, wrappingAdd]

theorem lt_grown (vec : List (Entry T)) (idx : Nat) (filler : Entry T) :
    idx < (grown vec idx filler).length := by
  unfold grown
  split
  · rw [List.length_append, List.length_replicate]
    omega
  · omega

theorem mem_grown {filler : Entry T} (h : entry ∈ grown vec idx filler) :
    entry ∈ vec ∨ entry = filler := by
  unfold grown at h
  split at h
  · cases List.mem_append.mp h with
    | inl h => exact .inl h
    | inr h => exact .inr (List.eq_of_mem_replicate h)
  · exact .inl h

/-- Nothing but the filler is found where there was nothing. -/
theorem select_grown (key : Words) (vec : List (Entry T)) (idx : Nat) (filler : Entry T) :
    select key (grown vec idx filler) = select key vec ∨
      select key vec = none ∧ select key (grown vec idx filler) = some filler := by
  unfold select grown
  split
  · by_cases hi : index key < vec.length
    · exact .inl (List.getElem?_append_left hi)
    · have hle := Nat.le_of_not_lt hi
      rw [List.getElem?_append_right hle, List.getElem?_replicate, List.getElem?_eq_none_iff.mpr hle]
      split
      · exact .inr ⟨rfl, rfl⟩
      · exact .inl rfl
  · exact .inl rfl

theorem exists_select_grown (key : Words) (vec : List (Entry T)) (filler : Entry T) :
    ∃ entry, select key (grown vec (index key) filler) = some entry :=
  ⟨_, List.getElem?_eq_getElem (lt_grown vec (index key) filler)⟩

theorem grown_leaf (shaped : Shaped 0 vec) (idx : Nat) :
    Shaped 0 (grown vec idx .empty) ∧
      ∀ key, find 0 key (grown vec idx .empty) = find 0 key vec := by
  constructor
  · intro e he
    cases mem_grown he with
    | inl he => exact shaped e he
    | inr he => exact .inl he
  · intro key
    unfold find
    cases select_grown key vec idx .empty with
    | inl h => rw [h]
    | inr h => rw [h.1, h.2]

theorem grown_node (shaped : Shaped (levels + 1) vec) (idx : Nat) :
    Shaped (levels + 1) (grown vec idx (.level [])) ∧
      (∀ key, find (levels + 1) key (grown vec idx (.level [])) = find (levels + 1) key vec) ∧
      ∀ key, beneath key (grown vec idx (.level [])) = beneath key vec := by
  refine ⟨?_, ?_, ?_⟩
  · intro e he
    cases mem_grown he with
    | inl he => exact shaped e he
    | inr he => exact ⟨[], he, shaped_nil levels⟩
  · intro key
    unfold find
    cases select_grown key vec idx (.level []) with
    | inl h => rw [h]
    | inr h =>
      rw [h.1, h.2]
      exact find_nil levels _
  · intro key
    unfold beneath
    cases select_grown key vec idx (.level []) with
    | inl h => rw [h]
    | inr h => rw [h.1, h.2]

/-- `insert` files the value under the words that its key means, and returns what was there. -/
theorem insert_ok (checks : Bool) (shaped : Shaped levels vec) (roomy : Roomy levels key vec)
    (v : T) : ∃ after, insert checks levels key v vec = .ok (after, find levels key vec) ∧
      Updates levels key (some v) vec after := by
  induction levels generalizing key vec with
  | zero =>
    obtain ⟨hshaped, hfind⟩ := grown_leaf shaped (index key)
    obtain ⟨entry, hselect⟩ := exists_select_grown key vec .empty
    have hupdates : Updates 0 key (some v) (grown vec (index key) .empty)
        ((grown vec (index key) .empty).set (index key) (.value v)) :=
      .leaf hshaped (lt_of_select hselect) (.inr ⟨v, rfl, rfl⟩)
    refine ⟨_, ?_, hupdates.shaped, fun key' => (hupdates.find key').trans (by rw [hfind])⟩
    rw [insert, extended_eq checks roomy (index_lt key), ok_bind, ← hfind, find, hselect]
    obtain rfl | ⟨old, rfl⟩ := hshaped.leaf hselect
    · rfl
    · rfl
  | succ levels ih =>
    obtain ⟨hshaped, hfind, hbeneath⟩ := grown_node shaped (index key)
    obtain ⟨entry, hselect⟩ := exists_select_grown key vec (.level [])
    obtain ⟨entries, rfl, hentries⟩ := hshaped.node hselect
    have hroomy : Roomy levels key.tail entries := by
      rw [← beneath_eq hselect, hbeneath]
      exact roomy.2
    obtain ⟨after, hinsert, u⟩ := ih hentries hroomy
    have hupdates := Updates.node hshaped hselect u
    refine ⟨_, ?_, hupdates.shaped, fun key' => (hupdates.find key').trans (by rw [hfind])⟩
    rw [insert, extended_eq checks roomy.1 (index_lt key), ok_bind, ← hfind, find, hselect]
    simp only [hinsert, ok_bind, except_pure]

/-- Without room in some level the insertion fails. -/
theorem insert_fails (shaped : Shaped levels vec) (full : ¬Roomy levels key vec) (v : T) :
    ¬Succeeds (insert checks levels key v vec) := by
  have hfull : ∀ {vec : List (Entry T)} {key : Words} {filler : Entry T} {larger : List (Entry T)},
      ¬Extensible vec (index key) → extended checks vec (index key) filler = .ok larger →
        larger = [] := by
    intro vec key filler larger hroom h
    rw [extended_full hroom (index_lt key)] at h
    split at h
    · cases h
    · exact (Except.ok.inj h).symm
  induction levels generalizing key vec with
  | zero =>
    intro ⟨result, h⟩
    rw [insert, bind_ok] at h
    obtain ⟨larger, hextended, h⟩ := h
    rw [hfull full hextended] at h
    cases h
  | succ levels ih =>
    intro ⟨result, h⟩
    rw [insert, bind_ok] at h
    obtain ⟨larger, hextended, h⟩ := h
    by_cases hroom : Extensible vec (index key)
    · rw [extended_eq checks hroom (index_lt key), Except.ok.injEq] at hextended
      subst hextended
      obtain ⟨hshaped, _, hbeneath⟩ := grown_node shaped (index key)
      obtain ⟨entry, hselect⟩ := exists_select_grown key vec (.level [])
      obtain ⟨entries, rfl, hentries⟩ := hshaped.node hselect
      rw [hselect, bind_ok] at h
      obtain ⟨inserted, hinsert, _⟩ := h
      refine ih hentries ?_ ⟨inserted, hinsert⟩
      rw [← beneath_eq hselect, hbeneath]
      exact fun hrest => full ⟨hroom, hrest⟩
    · rw [hfull hroom hextended] at h
      cases h

theorem index_eq (key : Words) : index key = 0 ∨ ∃ word ∈ key, index key = word.toNat := by
  cases key with
  | nil => exact .inl rfl
  | cons word key => exact .inr ⟨word, List.mem_cons_self, rfl⟩

theorem mem_padded {i : Nat} (h : i ∈ padded levels key) :
    i = 0 ∨ ∃ word ∈ key, i = word.toNat := by
  induction levels generalizing key with
  | zero =>
    rw [List.mem_singleton.mp h]
    exact index_eq key
  | succ levels ih =>
    rcases List.mem_cons.mp h with rfl | h
    · exact index_eq key
    · rcases ih h with hzero | ⟨word, hword, hi⟩
      · exact .inl hzero
      · exact .inr ⟨word, List.mem_of_mem_tail hword, hi⟩

theorem padded_concat_zero (levels : Nat) (key : Words) :
    padded levels (key ++ [0]) = padded levels key := by
  have hindex : index (key ++ [0]) = index key := by
    cases key with
    | nil => rfl
    | cons word key => rfl
  induction levels generalizing key with
  | zero => rw [padded, padded, hindex]
  | succ levels ih =>
    cases key with
    | nil =>
      rw [padded, padded]
      rfl
    | cons word key =>
      have hrest := ih key (by
        cases key with
        | nil => rfl
        | cons word key => rfl)
      rw [padded, padded, hindex, List.cons_append, List.tail_cons, List.tail_cons, hrest]

/-- Room can always be made for words that are not the greatest of all. -/
theorem Roomy.of_padded (h : ∀ i ∈ padded levels key, i + 1 < 2 ^ 64) : Roomy levels key vec := by
  induction levels generalizing key vec with
  | zero => exact .inr (h _ List.mem_cons_self)
  | succ levels ih =>
    exact ⟨.inr (h _ List.mem_cons_self), ih fun i hi => h i (List.mem_cons_of_mem _ hi)⟩

theorem getMut_ok (shaped : Shaped levels vec) (key : Words) (write : T → T) :
    ∃ after, getMut levels key write vec = .ok (after, find levels key vec) ∧
      Updates levels key ((find levels key vec).map write) vec after := by
  induction levels generalizing key vec with
  | zero =>
    cases hselect : select key vec with
    | none =>
      have hfind : find 0 key vec = none := by rw [find, hselect]
      exact ⟨vec, by rw [getMut, hselect, hfind], .same shaped (by rw [hfind]; rfl)⟩
    | some entry =>
      obtain rfl | ⟨v, rfl⟩ := shaped.leaf hselect
      · have hfind : find 0 key vec = none := by rw [find, hselect]
        exact ⟨vec, by rw [getMut, hselect, hfind], .same shaped (by rw [hfind]; rfl)⟩
      · have hfind : find 0 key vec = some v := by rw [find, hselect]
        refine ⟨_, by rw [getMut, hselect, hfind], ?_⟩
        rw [hfind]
        exact .leaf shaped (lt_of_select hselect) (.inr ⟨_, rfl, rfl⟩)
  | succ levels ih =>
    cases hselect : select key vec with
    | none =>
      have hfind : find (levels + 1) key vec = none := by rw [find, hselect]
      exact ⟨vec, by rw [getMut, hselect, hfind], .same shaped (by rw [hfind]; rfl)⟩
    | some entry =>
      obtain ⟨entries, rfl, hentries⟩ := shaped.node hselect
      have hfind : find (levels + 1) key vec = find levels key.tail entries := by
        rw [find, hselect]
      obtain ⟨after, hget, u⟩ := ih hentries key.tail
      rw [hfind]
      refine ⟨_, ?_, .node shaped hselect u⟩
      simp only [getMut, hselect, hget, ok_bind, except_pure]

theorem remove_ok (shaped : Shaped levels vec) (key : Words) :
    ∃ after, remove levels key vec = .ok (after, find levels key vec) ∧
      Updates levels key none vec after := by
  induction levels generalizing key vec with
  | zero =>
    cases hselect : select key vec with
    | none =>
      have hfind : find 0 key vec = none := by rw [find, hselect]
      exact ⟨vec, by rw [remove, hselect, hfind], .same shaped hfind⟩
    | some entry =>
      obtain rfl | ⟨v, rfl⟩ := shaped.leaf hselect
      · have hfind : find 0 key vec = none := by rw [find, hselect]
        exact ⟨vec, by rw [remove, hselect, hfind], .same shaped hfind⟩
      · have hfind : find 0 key vec = some v := by rw [find, hselect]
        refine ⟨_, by rw [remove, hselect, hfind], ?_⟩
        exact .leaf shaped (lt_of_select hselect) (.inl ⟨rfl, rfl⟩)
  | succ levels ih =>
    cases hselect : select key vec with
    | none =>
      have hfind : find (levels + 1) key vec = none := by rw [find, hselect]
      exact ⟨vec, by rw [remove, hselect, hfind], .same shaped hfind⟩
    | some entry =>
      obtain ⟨entries, rfl, hentries⟩ := shaped.node hselect
      have hfind : find (levels + 1) key vec = find levels key.tail entries := by
        rw [find, hselect]
      obtain ⟨after, hremove, u⟩ := ih hentries key.tail
      refine ⟨_, ?_, .node shaped hselect u⟩
      simp only [remove, hselect, hremove, hfind, ok_bind, except_pure]

end

end Entry

namespace MultilevelVecMap
variable {T : Type} {checks : Bool} {m : MultilevelVecMap T} {key : Words}

/-- `with_capacity`. -/
def new (checks : Bool) (levels : Nat) : Except Fault (MultilevelVecMap T) := do
  let levelsIdx ← usizeSub checks levels 1
  return ⟨0, levelsIdx, []⟩

def len (m : MultilevelVecMap T) : Nat := m.n

def get (m : MultilevelVecMap T) (key : Words) : Except Fault (Option T) :=
  if m.levelsIdx + 1 < key.length then .ok none else Entry.get m.levelsIdx key m.vec

/-- `get_mut`, and what is then written through the reference. -/
def getMut (m : MultilevelVecMap T) (key : Words) (write : T → T) :
    Except Fault (MultilevelVecMap T × Option T) :=
  if m.levelsIdx + 1 < key.length then .ok (m, none)
  else do
    let (vec, found) ← Entry.getMut m.levelsIdx key write m.vec
    return ({ m with vec := vec }, found)

/-- The count is not more than there is memory for. -/
def insert (checks : Bool) (m : MultilevelVecMap T) (key : Words) (value : T) :
    Except Fault (MultilevelVecMap T × Option T) :=
  if m.levelsIdx + 1 < key.length then .ok (m, none)
  else do
    let (vec, old) ← Entry.insert checks m.levelsIdx key value m.vec
    return ({ m with n := if old.isNone then m.n + 1 else m.n, vec := vec }, old)

def remove (checks : Bool) (m : MultilevelVecMap T) (key : Words) :
    Except Fault (MultilevelVecMap T × Option T) :=
  if m.levelsIdx + 1 < key.length then .ok (m, none)
  else do
    let (vec, old) ← Entry.remove m.levelsIdx key m.vec
    let n ← if old.isSome then usizeSub checks m.n 1 else pure m.n
    return ({ m with n := n, vec := vec }, old)

def Shaped (m : MultilevelVecMap T) : Prop := Entry.Shaped m.levelsIdx m.vec

def find (m : MultilevelVecMap T) (key : Words) : Option T := Entry.find m.levelsIdx key m.vec

/-- Room can be made for the key. -/
def Roomy (m : MultilevelVecMap T) (key : Words) : Prop := Entry.Roomy m.levelsIdx key m.vec

theorem new_ok (checks : Bool) (levelsIdx : Nat) :
    ∃ m : MultilevelVecMap T, new checks (levelsIdx + 1) = .ok m ∧ m.Shaped ∧
      m.levelsIdx = levelsIdx ∧ ∀ key, m.find key = none := by
  refine ⟨⟨0, levelsIdx, []⟩, ?_, Entry.shaped_nil levelsIdx, rfl,
    fun key => Entry.find_nil levelsIdx key⟩
  rw [new, usizeSub, subBits_of_le (by omega)]
  rfl

theorem get_eq (shaped : m.Shaped) (hkey : key.length ≤ m.levelsIdx + 1) :
    m.get key = .ok (m.find key) := by
  rw [get, if_neg (Nat.not_lt_of_le hkey)]
  exact Entry.get_eq shaped

theorem insert_ok (checks : Bool) (shaped : m.Shaped) (roomy : m.Roomy key)
    (hkey : key.length ≤ m.levelsIdx + 1) (value : T) :
    ∃ after, m.insert checks key value = .ok (after, m.find key) ∧ after.Shaped ∧
      after.levelsIdx = m.levelsIdx ∧ ∀ key', after.find key' =
        if Entry.padded m.levelsIdx key' = Entry.padded m.levelsIdx key then some value
        else m.find key' := by
  obtain ⟨vec, hinsert, u⟩ := Entry.insert_ok checks shaped roomy value
  refine ⟨{ m with
    n := if (m.find key).isNone then m.n + 1 else m.n
    vec := vec }, ?_, u.shaped, rfl, u.find⟩
  rw [insert, if_neg (Nat.not_lt_of_le hkey), hinsert]
  rfl

theorem roomy_of_insert {value : T} {result : MultilevelVecMap T × Option T} (shaped : m.Shaped)
    (hkey : key.length ≤ m.levelsIdx + 1) (h : m.insert checks key value = .ok result) :
    m.Roomy key := by
  by_contra hfull
  rw [insert, if_neg (Nat.not_lt_of_le hkey), bind_ok] at h
  obtain ⟨inserted, hinsert, _⟩ := h
  exact Entry.insert_fails shaped hfull value ⟨inserted, hinsert⟩

end MultilevelVecMap
end GridServer
