import GridServer.Library.Run
import GridServer.Shared.BitArray
import Mathlib.Data.List.Induction
import Mathlib.Order.Interval.Finset.Nat

namespace GridServer
open Library

def usizeMul (checks : Bool) (a b : Nat) : Except Fault Nat := mulBits 64 checks a b

namespace BitSet

/-- The two storages, `Vec<u64>` and `[u64; n]`. -/
inductive Storage where
  | vec
  | array (n : Nat)
deriving DecidableEq, Repr

/-- The values that have a place in the storage. -/
def Storage.takes : Storage → Nat → Bool
  | .vec, _ => true
  | .array n, value => value < 64 * n

/-- `SIZE` is a `usize`. -/
def Storage.Fits : Storage → Prop
  | .vec => True
  | .array n => 64 * n < 2 ^ 64

/-- `default`. -/
def empty : Storage → BitSet
  | .vec => new
  | .array n => ⟨0, List.replicate n 0⟩

/-- `insert` on `[u64; n]`. -/
def insertArray (n : Nat) (checks : Bool) (s : BitSet) (value : Nat) :
    Except Fault (BitSet × Bool) := do
  if 64 * n ≤ value then return (s, false)
  else if ← s.inner.bitTest value then return (s, false)
  else
    let inner ← s.inner.bitSet value
    let len ← usizeAdd checks s.len 1
    return (⟨len, inner⟩, true)

/-- `remove` on `[u64; n]`. -/
def removeArray (n : Nat) (checks : Bool) (s : BitSet) (value : Nat) :
    Except Fault (BitSet × Bool) := do
  if 64 * n ≤ value then return (s, false)
  else if ← s.inner.bitTest value then
    let inner ← s.inner.bitReset value
    let len ← usizeSub checks s.len 1
    return (⟨len, inner⟩, true)
  else return (s, false)

/-- `iter` on `Vec<u64>`, whose bits are counted as a `usize`. -/
def iterVec (checks : Bool) (s : BitSet) : Except Fault (List Nat) := do
  let len ← usizeMul checks s.inner.length 64
  return (List.range len).filter s.inner.bit

section
variable (storage : Storage) (checks : Bool) (s : BitSet)

def insertIn (value : Nat) : Except Fault (BitSet × Bool) :=
  match storage with
  | .vec => s.insert checks value
  | .array n => s.insertArray n checks value

def removeIn (value : Nat) : Except Fault (BitSet × Bool) :=
  match storage with
  | .vec => s.remove checks value
  | .array n => s.removeArray n checks value

def containsIn (value : Nat) : Except Fault Bool :=
  match storage with
  | .vec => .ok (s.contains value)
  | .array _ => s.inner.bitTest value

def iterIn : Except Fault (List Nat) :=
  match storage with
  | .vec => s.iterVec checks
  | .array _ => .ok s.iter

def extend (values : List Nat) : Except Fault BitSet :=
  values.foldlM (fun s i => do
    let (s, _) ← s.insertIn storage checks i
    return s) s

/-- The values from `start` on, below `stop`. -/
def insertRange (start stop : Nat) : Except Fault BitSet :=
  s.extend storage checks (List.range' start (stop - start))

def fromIter (values : List Nat) : Except Fault BitSet := (empty storage).extend storage checks values

end

inductive Call where
  | insert (value : Nat)
  | remove (value : Nat)
  | insertRange (start stop : Nat)
  | extend (values : List Nat)
  | fromIter (values : List Nat)
  | exclude (value : Nat)
  | clear
  /-- `From<[u64; N]>`. -/
  | fromArray (words : Words)

namespace Call

/-- The values that a call inserts one by one. -/
def inserted : Call → List Nat
  | .insert value => [value]
  | .insertRange start stop => List.range' start (stop - start)
  | .extend values | .fromIter values => values
  | _ => []

/-- Whether there is such a call on the storage. -/
def On : Storage → Call → Prop
  | .vec, .exclude _ => False
  | .vec, .fromArray _ => False
  | .array n, .fromArray words => words.length = n
  | _, _ => True

/-- A vector that takes in one of the highest 64 values has more bits than a `usize` counts. -/
def Countable : Storage → Call → Prop
  | .vec, c => ∀ value ∈ c.inserted, value < 2 ^ 64 - 64
  | .array _, _ => True

end Call

/-- A call on the set, with what it returns. -/
def call (storage : Storage) (checks : Bool) (s : BitSet) :
    Call → Except Fault (BitSet × List Bool)
  | .insert value => do
    let (s, changed) ← s.insertIn storage checks value
    return (s, [changed])
  | .remove value => do
    let (s, changed) ← s.removeIn storage checks value
    return (s, [changed])
  | .insertRange start stop => do
    let s ← s.insertRange storage checks start stop
    return (s, [])
  | .extend values => do
    let s ← s.extend storage checks values
    return (s, [])
  | .fromIter values => do
    let s ← fromIter storage checks values
    return (s, [])
  | .exclude value => do
    let s ← s.exclude checks value
    return (s, [])
  | .clear => .ok (empty storage, [])
  | .fromArray words => .ok (ofWords words, [])

/-- The same call on a set of numbers, of which those without a place are left out. -/
def effect (storage : Storage) (members : Finset Nat) : Call → Except Fault (Finset Nat × List Bool)
  | .insert value =>
    if storage.takes value then .ok (Insert.insert value members, [decide (value ∉ members)])
    else .ok (members, [false])
  | .remove value => .ok (members.erase value, [decide (value ∈ members)])
  | .insertRange start stop =>
    .ok (members ∪ (Finset.Ico start stop).filter fun i => storage.takes i, [])
  | .extend values => .ok (members ∪ values.toFinset.filter fun i => storage.takes i, [])
  | .fromIter values => .ok (values.toFinset.filter fun i => storage.takes i, [])
  | .exclude value => .ok (members.erase value, [])
  | .clear => .ok (∅, [])
  | .fromArray words => .ok (words.members, [])

/-- What can be asked of the set is what is true of its members. -/
structure Agrees (storage : Storage) (checks : Bool) (s : BitSet) (members : Finset Nat) :
    Prop where
  contains : ∀ value, storage.takes value = true →
    s.containsIn storage value = .ok (decide (value ∈ members))
  iter : ∃ values, s.iterIn storage checks = .ok values ∧ values.Pairwise (· < ·) ∧
    ∀ i, i ∈ values ↔ i ∈ members
  len : s.len = members.card
  isEmpty : s.isEmpty = true ↔ ∀ i, s.inner.bit i = false
  takes : ∀ value ∈ members, storage.takes value = true

/-- The words that a storage can have where their bits are to be counted. -/
def Storage.Sized : Storage → Nat → Prop
  | .vec, words => words < 2 ^ 58
  | .array n, words => words = n

/-- The bits of the set are the members, and can be counted. -/
structure Sound (storage : Storage) (checks : Bool) (s : BitSet) (members : Finset Nat) :
    Prop where
  represents : s.Represents checks members
  sized : storage.Sized s.inner.length

variable {storage : Storage} {checks : Bool} {s t : BitSet} {members : Finset Nat}
  {value n : Nat} {changed : Bool}

theorem Storage.Sized.lt (fits : storage.Fits) {words : Nat} (h : storage.Sized words) :
    words < 2 ^ 58 := by
  cases storage with
  | vec => exact h
  | array n =>
    simp only [Storage.Fits] at fits
    simp only [Storage.Sized] at h
    omega

theorem Represents.card_le (r : s.Represents checks members) :
    members.card ≤ 64 * s.inner.length := by
  have hsub : members ⊆ Finset.range (64 * s.inner.length) := by
    intro i hi
    have hlt := r.lt_of_mem hi
    rw [Finset.mem_range]
    omega
  simpa using Finset.card_le_card hsub

theorem Sound.card_lt (fits : storage.Fits) (h : s.Sound storage checks members) :
    members.card + 1 < 2 ^ 64 := by
  have hlt := h.sized.lt fits
  have hle := h.represents.card_le
  omega

theorem length_extended (words : Words) (idx : Nat) :
    (words.extended idx).length = max words.length (idx + 1) := by
  unfold Words.extended
  split
  · rw [List.length_append, List.length_replicate]
    omega
  · omega

theorem insert_length (h : s.insert checks value = .ok (t, changed)) :
    t.inner.length = max s.inner.length (value / 64 + 1) := by
  rw [← length_extended]
  obtain ⟨after, hset, hlength, _⟩ := Words.bitSet_ok (s.inner.lt_extended (value / 64))
  simp only [BitSet.insert, Words.bitTest, s.inner.lt_extended, ↓reduceIte, ok_bind, hset] at h
  split at h
  · simp only [except_pure, Except.ok.injEq, Prod.mk.injEq] at h
    rw [← h.1]
  · simp only [bind_ok, except_pure, Except.ok.injEq, Prod.mk.injEq] at h
    obtain ⟨len, _, rfl, _⟩ := h
    exact hlength

/-- Where there is a place for the value, the two storages take it alike. -/
theorem insertArray_eq (hlength : s.inner.length = n) (h : value < 64 * n) :
    s.insertArray n checks value = s.insert checks value := by
  have hword : ¬s.inner.length ≤ value / 64 := by omega
  rw [insertArray, if_neg (Nat.not_le_of_lt h), BitSet.insert, Words.extended, if_neg hword]

theorem removeArray_eq (hlength : s.inner.length = n) :
    s.removeArray n checks value = s.remove checks value := by
  unfold removeArray BitSet.remove
  by_cases h : 64 * n ≤ value
  · have hword : ¬value / 64 < s.inner.length := by omega
    rw [if_pos h, if_neg hword]
  · have hword : value / 64 < s.inner.length := by omega
    rw [if_neg h, if_pos hword]

theorem represents_empty (storage : Storage) : (empty storage).Represents checks ∅ := by
  cases storage with
  | vec => exact represents_new
  | array n =>
    refine ⟨?_, rfl, fun _ => by decide⟩
    intro i
    have hbit : Words.bit ([] ++ List.replicate n 0) i = Words.bit [] i :=
      Words.bit_append_replicate n
    rw [empty, ← List.nil_append (List.replicate n 0), hbit, Words.bit_of_le (Nat.zero_le _)]
    simp

theorem sound_empty (storage : Storage) (checks : Bool) :
    (empty storage).Sound storage checks ∅ := by
  refine ⟨represents_empty storage, ?_⟩
  cases storage with
  | vec => exact Nat.two_pow_pos 58
  | array n => exact List.length_replicate

/-- The members with a value more, if it has a place. -/
def added (storage : Storage) (members : Finset Nat) (value : Nat) : Finset Nat :=
  if storage.takes value then Insert.insert value members else members

theorem Sound.insertIn (fits : storage.Fits) (h : s.Sound storage checks members)
    (countable : storage = .vec → value < 2 ^ 64 - 64) :
    ∃ t, s.insertIn storage checks value =
        .ok (t, storage.takes value && decide (value ∉ members)) ∧
      t.Sound storage checks (added storage members value) := by
  obtain ⟨⟨t, changed⟩, hinsert⟩ := h.represents.insert_total (fun _ => h.card_lt fits) value
  obtain ⟨ht, rfl⟩ := h.represents.insert hinsert
  have hlength := insert_length hinsert
  cases storage with
  | vec =>
    refine ⟨t, by simpa [BitSet.insertIn, Storage.takes] using hinsert, ht, ?_⟩
    have hlt := countable rfl
    have hwords := h.sized
    simp only [Storage.Sized] at hwords ⊢
    omega
  | array n =>
    have hn : s.inner.length = n := h.sized
    by_cases hv : value < 64 * n
    · have htakes : (Storage.array n).takes value = true := decide_eq_true hv
      refine ⟨t, ?_, ?_, ?_⟩
      · rw [BitSet.insertIn, insertArray_eq hn hv, hinsert, htakes, Bool.true_and]
      · rw [added, if_pos htakes]
        exact ht
      · simp only [Storage.Sized]
        omega
    · have htakes : (Storage.array n).takes value = false := decide_eq_false hv
      refine ⟨s, ?_, ?_, hn⟩
      · simp [BitSet.insertIn, insertArray, htakes, Nat.le_of_not_lt hv]
      · rw [added, if_neg (by simp [htakes])]
        exact h.represents

theorem Sound.removeIn (h : s.Sound storage checks members) (value : Nat) :
    ∃ t, s.removeIn storage checks value = .ok (t, decide (value ∈ members)) ∧
      t.Sound storage checks (members.erase value) := by
  obtain ⟨t, hremove, ht⟩ := h.represents.remove value
  have hlength := remove_length hremove
  refine ⟨t, ?_, ht, hlength ▸ h.sized⟩
  cases storage with
  | vec => exact hremove
  | array n =>
    have hn : s.inner.length = n := h.sized
    rw [BitSet.removeIn, removeArray_eq hn, hremove]

theorem foldl_added (values : List Nat) (members : Finset Nat) :
    values.foldl (added storage) members =
      members ∪ values.toFinset.filter fun i => storage.takes i := by
  induction values generalizing members with
  | nil => simp
  | cons value values ih =>
    rw [List.foldl_cons, ih, added]
    by_cases hv : storage.takes value = true
    · rw [if_pos hv, List.toFinset_cons, Finset.filter_insert, if_pos hv, Finset.insert_union,
        Finset.union_insert]
    · rw [if_neg hv, List.toFinset_cons, Finset.filter_insert, if_neg hv]

theorem Sound.extend (fits : storage.Fits) {values : List Nat}
    (h : s.Sound storage checks members)
    (countable : storage = .vec → ∀ value ∈ values, value < 2 ^ 64 - 64) :
    ∃ t, s.extend storage checks values = .ok t ∧
      t.Sound storage checks (members ∪ values.toFinset.filter fun i => storage.takes i) := by
  rw [← foldl_added]
  induction values generalizing s members with
  | nil => exact ⟨s, rfl, h⟩
  | cons value values ih =>
    obtain ⟨t, hinsert, ht⟩ :=
      h.insertIn fits fun hvec => countable hvec value List.mem_cons_self
    obtain ⟨u, hrest, hu⟩ :=
      ih ht fun hvec v hv => countable hvec v (List.mem_cons_of_mem _ hv)
    refine ⟨u, ?_, hu⟩
    rw [BitSet.extend, List.foldlM_cons, hinsert]
    exact hrest

theorem toFinset_range' (start stop : Nat) :
    (List.range' start (stop - start)).toFinset = Finset.Ico start stop := by
  ext i
  rw [List.mem_toFinset, List.mem_range'_1, Finset.mem_Ico]
  omega

/-- A call does to the set what it does to its members. -/
theorem Sound.call (fits : storage.Fits) (h : s.Sound storage checks members) {c : Call}
    (on : c.On storage) (countable : c.Countable storage) :
    ∃ t members' results, s.call storage checks c = .ok (t, results) ∧
      effect storage members c = .ok (members', results) ∧
      t.Sound storage checks members' := by
  have hinserted : storage = .vec → ∀ value ∈ c.inserted, value < 2 ^ 64 - 64 := by
    rintro rfl
    exact countable
  cases c with
  | insert value =>
    obtain ⟨t, hinsert, ht⟩ := h.insertIn fits fun hvec => hinserted hvec value List.mem_cons_self
    refine ⟨t, _, _, by rw [BitSet.call, hinsert]; rfl, ?_, ht⟩
    unfold effect added
    by_cases hv : storage.takes value = true
    · simp [hv]
    · simp [hv]
  | remove value =>
    obtain ⟨t, hremove, ht⟩ := h.removeIn value
    exact ⟨t, _, _, by rw [BitSet.call, hremove]; rfl, rfl, ht⟩
  | insertRange start stop =>
    obtain ⟨t, hextend, ht⟩ := h.extend fits hinserted
    rw [Call.inserted, toFinset_range'] at ht
    exact ⟨t, _, _, by rw [BitSet.call, BitSet.insertRange]; exact congrArg (· >>= _) hextend, rfl,
      ht⟩
  | extend values =>
    obtain ⟨t, hextend, ht⟩ := h.extend fits hinserted
    exact ⟨t, _, _, by rw [BitSet.call]; exact congrArg (· >>= _) hextend, rfl, ht⟩
  | fromIter values =>
    obtain ⟨t, hextend, ht⟩ := (sound_empty storage checks).extend fits hinserted
    rw [Finset.empty_union] at ht
    exact ⟨t, _, _, by rw [BitSet.call, BitSet.fromIter]; exact congrArg (· >>= _) hextend, rfl, ht⟩
  | exclude value =>
    obtain ⟨t, hexclude, ht, hlength⟩ := h.represents.exclude value
    exact ⟨t, _, _, by rw [BitSet.call, hexclude]; rfl, rfl, ht, hlength ▸ h.sized⟩
  | clear => exact ⟨_, _, _, rfl, rfl, sound_empty storage checks⟩
  | fromArray words =>
    cases storage with
    | vec => exact on.elim
    | array n =>
      have hn : words.length = n := on
      exact ⟨_, _, _, rfl, rfl, represents_ofWords checks (hn ▸ fits), hn⟩

theorem Sound.iterIn (fits : storage.Fits) (h : s.Sound storage checks members) :
    s.iterIn storage checks = .ok s.iter := by
  cases storage with
  | vec =>
    have hlt := h.sized.lt fits
    rw [BitSet.iterIn, iterVec, usizeMul, mulBits_of_lt (by omega)]
    rw [ok_bind, Nat.mul_comm]
    rfl
  | array n => rfl

theorem Sound.agrees (fits : storage.Fits) (h : s.Sound storage checks members) :
    s.Agrees storage checks members where
  contains := by
    intro value hv
    cases storage with
    | vec => rw [containsIn, h.represents.contains]
    | array n =>
      have hn : s.inner.length = n := h.sized
      have hlt : value < 64 * n := of_decide_eq_true hv
      rw [containsIn, Words.bitTest, if_pos (by omega), h.represents.bits]
  iter := by
    refine ⟨s.iter, h.iterIn fits, ?_, fun i => h.represents.mem_iter⟩
    exact List.pairwise_lt_range.filter _
  len := by
    have hcard := h.card_lt fits
    rw [h.represents.count, Nat.mod_eq_of_lt (by omega)]
  isEmpty := by
    have hcard := h.card_lt fits
    rw [h.represents.isEmpty (by omega), Finset.eq_empty_iff_forall_notMem]
    simp [h.represents.bits]
  takes := by
    intro value hv
    cases storage with
    | vec => rfl
    | array n =>
      have hn : s.inner.length = n := h.sized
      have hlt := h.represents.lt_of_mem hv
      exact decide_eq_true (by omega)

/-- The bits of so many words are more than a `usize` counts. -/
theorem iterVec_uncountable (h : 2 ^ 58 ≤ s.inner.length) :
    s.iterVec true = .error (.mulOverflow 64) := by
  have hover : 2 ^ 64 ≤ s.inner.length * 64 := by omega
  rw [iterVec, usizeMul, mulBits, if_pos ⟨rfl, hover⟩]
  rfl

end BitSet
end GridServer
