import GridServer.Shared.VecMap

namespace GridServer
open Library

namespace VecMap
variable {V : Type}

def len (m : VecMap V) : Nat := m.n

def isEmpty (m : VecMap V) : Bool := m.n = 0

/-- The slots with room for `key`: `extend` adds `key - len + 1` empty ones if the slot is missing. -/
def extendTo (checks : Bool) (m : VecMap V) (key : Nat) : Except Fault (List (Option V)) :=
  if m.v.length ≤ key then do
    let added ← usizeAdd checks (key - m.v.length) 1
    return m.v ++ List.replicate added none
  else .ok m.v

/-- `insert`, with the faults of its arithmetic and of its index. -/
def insertAt (checks : Bool) (m : VecMap V) (key : Nat) (value : V) :
    Except Fault (VecMap V × Option V) := do
  let v ← m.extendTo checks key
  match v[key]? with
  | none => .error .indexOutOfBounds
  | some was => return (⟨if was.isNone then m.n + 1 else m.n, v.set key (some value)⟩, was)

/-- `get_or_insert` and `get_or_insert_with`, and a write through the reference that they return. -/
def getOrInsert (checks : Bool) (m : VecMap V) (key : Nat) (value : V) (write : V → V) :
    Except Fault (VecMap V × V) :=
  if m.v.length ≤ key then do
    let v ← m.extendTo checks key
    if key < v.length then return (⟨m.n + 1, v.set key (some (write value))⟩, value)
    else .error .undefinedBehaviour
  else
    match m.get key with
    | some old => .ok (⟨m.n, m.v.set key (some (write old))⟩, old)
    | none => .ok (⟨m.n + 1, m.v.set key (some (write value))⟩, value)

/-- `remove`, with the fault of its count. -/
def removeAt (checks : Bool) (m : VecMap V) (key : Nat) : Except Fault (VecMap V × Option V) :=
  match m.get key with
  | none => .ok (m, none)
  | some was => do
    let n ← usizeSub checks m.n 1
    return (⟨n, m.v.set key none⟩, some was)

/-- `remove_unchecked`: the caller promises that the slot exists and is occupied. -/
def removeUnchecked (checks : Bool) (m : VecMap V) (key : Nat) : Except Fault (VecMap V × V) := do
  let was ← m.getUnchecked key
  let n ← usizeSub checks m.n 1
  return (⟨n, m.v.set key none⟩, was)

/-- A write through the reference to the value of `key`, if there is one. -/
def modify (m : VecMap V) (key : Nat) (write : V → V) : VecMap V :=
  match m.get key with
  | some value => m.write key (write value)
  | none => m

def modifyMany (m : VecMap V) (keys : List Nat) (write : Nat → V → V) : VecMap V :=
  keys.foldl (fun m key => m.modify key (write key)) m

/-- `get_many_mut`: references to different slots, all of them occupied. -/
def getManyMut (m : VecMap V) (keys : List Nat) (write : Nat → V → V) :
    VecMap V × Option (List V) :=
  if keys.Nodup ∧ ∀ key ∈ keys, key < m.v.length then
    match keys.mapM m.get with
    | some values => (m.modifyMany keys write, some values)
    | none => (m, none)
  else (m, none)

/-- `get_many_unchecked_mut`: the caller promises that the slots differ and are occupied. -/
def getManyUncheckedMut (m : VecMap V) (keys : List Nat) (write : Nat → V → V) :
    Except Fault (VecMap V × List V) :=
  match m.getManyMut keys write with
  | (m, some values) => .ok (m, values)
  | (_, none) => .error .undefinedBehaviour

/-- `map[key]`, as a value or as a place. -/
def indexMut (m : VecMap V) (key : Nat) (write : V → V) : Except Fault (VecMap V × V) :=
  match m.get key with
  | some value => .ok (m.modify key write, value)
  | none => .error .unwrapNone

/-- `shrink_to_fit`: strips off the empty slots behind the last occupied one. -/
def shrinkToFit (m : VecMap V) : VecMap V :=
  match m.v.reverse.findIdx? Option.isSome with
  | some idx => { m with v := m.v.take (m.v.length - idx) }
  | none => { m with v := [] }

/-- `into_iter`, to its end. -/
def iter (m : VecMap V) : List V := m.v.filterMap id

/-- A call of one of the methods. -/
inductive Call (V : Type) where
  | get (key : Nat)
  | containsKey (key : Nat)
  | getMut (key : Nat) (write : V → V)
  | getUncheckedMut (key : Nat) (write : V → V)
  | getManyMut (keys : List Nat) (write : Nat → V → V)
  | getManyUncheckedMut (keys : List Nat) (write : Nat → V → V)
  | getOrInsert (key : Nat) (value : V) (write : V → V)
  | insert (key : Nat) (value : V)
  | remove (key : Nat)
  | removeUnchecked (key : Nat)
  | indexMut (key : Nat) (write : V → V)
  | iter
  | iterMut (write : V → V)
  | len
  | isEmpty
  | clear
  | shrinkToFit

/-- What a call returns. -/
inductive Reply (V : Type) where
  | value (value : Option V)
  | values (values : Option (List V))
  | count (n : Nat)
  | answer (yes : Bool)
  | done
deriving DecidableEq, Repr

def call (checks : Bool) (m : VecMap V) : Call V → Except Fault (VecMap V × List (Reply V))
  | .get key => return (m, [.value (m.get key)])
  | .containsKey key => return (m, [.answer (m.containsKey key)])
  | .getMut key write => return (m.modify key write, [.value (m.get key)])
  | .getUncheckedMut key write => do
    let value ← m.getUnchecked key
    return (m.modify key write, [.value (some value)])
  | .getManyMut keys write =>
    let (m, values) := m.getManyMut keys write
    return (m, [.values values])
  | .getManyUncheckedMut keys write => do
    let (m, values) ← m.getManyUncheckedMut keys write
    return (m, [.values (some values)])
  | .getOrInsert key value write => do
    let (m, value) ← m.getOrInsert checks key value write
    return (m, [.value (some value)])
  | .insert key value => do
    let (m, was) ← m.insertAt checks key value
    return (m, [.value was])
  | .remove key => do
    let (m, was) ← m.removeAt checks key
    return (m, [.value was])
  | .removeUnchecked key => do
    let (m, was) ← m.removeUnchecked checks key
    return (m, [.value (some was)])
  | .indexMut key write => do
    let (m, value) ← m.indexMut key write
    return (m, [.value (some value)])
  | .iter => return (m, [.values (some m.iter)])
  | .iterMut write => return (m.mapValues write, [.values (some m.iter)])
  | .len => return (m, [.count m.len])
  | .isEmpty => return (m, [.answer m.isEmpty])
  | .clear => return (m.clear, [.done])
  | .shrinkToFit => return (m.shrinkToFit, [.done])

/-- There are slots, or one can be added for the key. -/
def Extensible (m : VecMap V) (key : Nat) : Prop := 0 < m.v.length ∨ key + 1 < 2 ^ 64

/-- The key whose slot the call makes if it is missing. -/
def Call.slot? : Call V → Option Nat
  | .insert key _ => some key
  | .getOrInsert key .. => some key
  | _ => none

/-- The slot that a call makes can be added. -/
def Call.Fits (m : VecMap V) (op : Call V) : Prop := ∀ key ∈ op.slot?, m.Extensible key

/-- Keys are of type `usize`. -/
def Call.Typed (op : Call V) : Prop := ∀ key ∈ op.slot?, key < 2 ^ 64

instance (op : Call V) : Decidable op.Typed :=
  inferInstanceAs (Decidable (∀ key ∈ op.slot?, key < 2 ^ 64))

section
variable {m m' : VecMap V} {key : Nat} {write : V → V}

theorem extendTo_eq (checks : Bool) (room : m.Extensible key) (small : key < 2 ^ 64) :
    m.extendTo checks key = .ok (extended m.v key) := by
  unfold extendTo extended
  split
  · have hfits : key - m.v.length + 1 < 2 ^ 64 := by
      rcases room with room | room
      · omega
      · omega
    rw [usizeAdd, addBits_of_lt hfits]
    rfl
  · rfl

/-- Without room, a build with overflow checks panics, and one without them adds nothing. -/
theorem extendTo_full (checks : Bool) (h : ¬m.Extensible key) (small : key < 2 ^ 64) :
    m.v = [] ∧ m.extendTo checks key = if checks then .error (.addOverflow 64) else .ok [] := by
  obtain ⟨hnil, hkey⟩ : m.v = [] ∧ key = 2 ^ 64 - 1 := by
    rw [Extensible, not_or, Nat.not_lt, Nat.le_zero, List.length_eq_zero_iff] at h
    exact ⟨h.1, by omega⟩
  subst hkey
  refine ⟨hnil, ?_⟩
  have hroom : ([] : List (Option V)).length ≤ 2 ^ 64 - 1 := Nat.zero_le _
  rw [extendTo, hnil, if_pos hroom, List.length_nil]
  cases checks with
  | true => simp [usizeAdd, addBits]
  | false => simp [usizeAdd, addBits, wrappingAdd]

theorem insertAt_eq (checks : Bool) (room : m.Extensible key) (small : key < 2 ^ 64) (value : V) :
    m.insertAt checks key value = .ok (m.insert key value, m.get key) := by
  have hslot : (extended m.v key)[key]? = some (m.get key) := by
    rw [List.getElem?_eq_getElem (lt_extended m.v key), Option.some.injEq, get, ← extended_get]
    rw [List.getElem?_eq_getElem (lt_extended m.v key)]
    rfl
  rw [insertAt, extendTo_eq checks room small, ok_bind, hslot]
  rfl

theorem insertAt_full (checks : Bool) (h : ¬m.Extensible key) (small : key < 2 ^ 64) (value : V) :
    ∃ fault, m.insertAt checks key value = .error fault := by
  obtain ⟨_, hfull⟩ := extendTo_full checks h small
  rw [insertAt, hfull]
  cases checks with
  | true => exact ⟨_, rfl⟩
  | false => exact ⟨_, rfl⟩

theorem getOrInsert_eq (checks : Bool) (room : m.Extensible key) (small : key < 2 ^ 64) (value : V)
    (write : V → V) : m.getOrInsert checks key value write =
      .ok (m.insert key (write ((m.get key).getD value)), (m.get key).getD value) := by
  unfold getOrInsert
  split
  · rename_i hmissing
    have hnone : m.get key = none := by
      rw [get, List.getElem?_eq_none_iff.mpr hmissing]
      rfl
    rw [extendTo_eq checks room small, ok_bind, if_pos (lt_extended m.v key), insert, hnone]
    rfl
  · rename_i hslot
    have hslots : extended m.v key = m.v := if_neg hslot
    cases hfound : m.get key with
    | none => simp [insert, hfound, hslots]
    | some old => simp [insert, hfound, hslots]

theorem getOrInsert_full (checks : Bool) (h : ¬m.Extensible key) (small : key < 2 ^ 64) (value : V)
    (write : V → V) : ∃ fault, m.getOrInsert checks key value write = .error fault := by
  obtain ⟨hnil, hfull⟩ := extendTo_full checks h small
  have hmissing : m.v.length ≤ key := by simp [hnil]
  rw [getOrInsert, if_pos hmissing, hfull]
  cases checks with
  | true => exact ⟨_, rfl⟩
  | false => exact ⟨_, rfl⟩

theorem mapM_eq_none {f : Nat → Option V} {keys : List Nat} (hkey : key ∈ keys)
    (h : f key = none) : keys.mapM f = none := by
  induction keys with
  | nil => cases hkey
  | cons first keys ih =>
    rw [List.mapM_cons]
    rcases List.mem_cons.mp hkey with rfl | hkey
    · rw [h]
      rfl
    · rw [ih hkey]
      cases f first with
      | none => rfl
      | some value => rfl

/-- Where a slot is missing, no value is found. -/
theorem getManyMut_eq {keys : List Nat} {found : Option (List V)} (write : Nat → V → V)
    (h : (if keys.Nodup then keys.mapM m.get else none) = found) :
    m.getManyMut keys write = (if found.isSome then m.modifyMany keys write else m, found) := by
  have hnot : found = none →
      (m, none) = (if found.isSome then m.modifyMany keys write else m, found) := by
    rintro rfl
    rfl
  unfold getManyMut
  by_cases hdistinct : keys.Nodup
  · rw [if_pos hdistinct] at h
    by_cases hslots : ∀ key ∈ keys, key < m.v.length
    · rw [if_pos ⟨hdistinct, hslots⟩, h]
      cases found with
      | none => rfl
      | some values => rfl
    · rw [if_neg fun h => hslots h.2]
      simp only [not_forall, Nat.not_lt] at hslots
      obtain ⟨key, hkey, hmissing⟩ := hslots
      have hkeys : keys.mapM m.get = none := by
        refine mapM_eq_none hkey ?_
        rw [get, List.getElem?_eq_none_iff.mpr hmissing]
        rfl
      exact hnot (h.symm.trans hkeys)
  · rw [if_neg hdistinct] at h
    rw [if_neg fun h => hdistinct h.1]
    exact hnot h.symm

/-- Behind the last occupied slot there is nothing to be found. -/
theorem get_shrinkToFit (m : VecMap V) (key : Nat) : m.shrinkToFit.get key = m.get key := by
  unfold shrinkToFit
  split
  · rename_i idx hidx
    obtain ⟨hlt, _, hempty⟩ := List.findIdx?_eq_some_iff_getElem.mp hidx
    rw [List.length_reverse] at hlt
    by_cases hkey : key < m.v.length - idx
    · simp only [get, List.getElem?_take, hkey, ↓reduceIte]
    · by_cases hslot : key < m.v.length
      · have hnone := hempty (m.v.length - 1 - key) (by omega)
        rw [List.getElem_reverse] at hnone
        have hsame : m.v.length - 1 - (m.v.length - 1 - key) = key := by omega
        simp only [hsame, Bool.not_eq_true, Option.isSome_eq_false_iff, Option.isNone_iff_eq_none]
          at hnone
        simp [get, hkey, List.getElem?_eq_getElem hslot, hnone]
      · simp [get, hkey, List.getElem?_eq_none_iff.mpr (Nat.le_of_not_lt hslot)]
  · rename_i hnone
    rw [List.findIdx?_eq_none_iff] at hnone
    cases hslot : m.v[key]? with
    | none => simp [get, hslot]
    | some slot =>
      have hempty := hnone slot (List.mem_reverse.mpr (List.mem_of_getElem? hslot))
      rw [Option.isSome_eq_false_iff, Option.isNone_iff_eq_none] at hempty
      simp [get, hslot, hempty]

theorem shrinkToFit_n (m : VecMap V) : m.shrinkToFit.n = m.n := by
  unfold shrinkToFit
  split
  · rfl
  · rfl

/-- The slots in turn, each by its key. -/
theorem iter_eq (m : VecMap V) :
    m.iter = ((List.range m.v.length).filter fun key => (m.get key).isSome).filterMap m.get := by
  have hslots : m.v = (List.range m.v.length).map m.get := by
    refine List.ext_getElem (by simp) ?_
    intro key hkey _
    simp [get, List.getElem?_eq_getElem hkey]
  rw [iter]
  conv_lhs => rw [hslots]
  rw [List.filterMap_map, List.filterMap_filter]
  congr 1
  funext key
  cases hkey : m.get key with
  | none => simp [hkey]
  | some value => simp [hkey]

end

end VecMap
end GridServer
