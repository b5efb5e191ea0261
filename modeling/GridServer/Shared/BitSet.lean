import GridServer.Shared.Fault
import Mathlib.Data.Finset.Insert
import Mathlib.Data.Finset.Card
import Mathlib.Data.List.GetD

namespace GridServer
open Library

/-- A string of bits in words of 64, counted from the lowest bit of the first word. -/
abbrev Words := List (BitVec 64)

namespace Words

def bit (words : Words) (i : Nat) : Bool := (words.getD (i / 64) 0).getLsbD (i % 64)

/-- `bit_test` on a slice. -/
def bitTest (words : Words) (i : Nat) : Except Fault Bool :=
  if i / 64 < words.length then .ok (words.bit i) else .error .indexOutOfBounds

def bitSet (words : Words) (i : Nat) : Except Fault Words :=
  if i / 64 < words.length then
    .ok (words.modify (i / 64) fun word => word ||| BitVec.twoPow 64 (i % 64))
  else .error .indexOutOfBounds

def bitReset (words : Words) (i : Nat) : Except Fault Words :=
  if i / 64 < words.length then
    .ok (words.modify (i / 64) fun word => word &&& ~~~BitVec.twoPow 64 (i % 64))
  else .error .indexOutOfBounds

/-- `bit_init(false)`. -/
def bitClear (words : Words) : Words := words.map fun _ => 0

/-- The words after making room for the word `idx`. -/
def extended (words : Words) (idx : Nat) : Words :=
  if words.length ≤ idx then words ++ List.replicate (idx - words.length + 1) 0 else words

def bitAny (words : Words) : Bool := words.any fun word => word ≠ 0

/-- The bits of a number in `size` words. -/
def ofNat (size n : Nat) : Words := (List.range size).map fun i => BitVec.ofNat 64 (n >>> (64 * i))

/-- The bits that are set. -/
def members (words : Words) : Finset Nat :=
  (Finset.range (64 * words.length)).filter fun i => words.bit i

variable {words : Words} {i j : Nat}

theorem bit_of_le (h : words.length ≤ i / 64) : words.bit i = false := by
  rw [bit, List.getD_eq_default _ _ h]
  exact BitVec.getLsbD_zero

theorem mem_members : i ∈ words.members ↔ words.bit i = true := by
  rw [members, Finset.mem_filter, Finset.mem_range, and_iff_right_iff_imp]
  intro hbit
  by_contra hge
  rw [bit_of_le (by omega)] at hbit
  cases hbit

theorem members_nonempty : words.members.Nonempty ↔ words.bitAny = true := by
  rw [bitAny, List.any_eq_true]
  constructor
  · intro ⟨i, hi⟩
    rw [mem_members] at hi
    have hlt : i / 64 < words.length := by
      by_contra hge
      rw [bit_of_le (Nat.le_of_not_lt hge)] at hi
      cases hi
    refine ⟨words[i / 64], List.getElem_mem hlt, ?_⟩
    rw [bit, List.getD_eq_getElem _ _ hlt] at hi
    rw [decide_eq_true_eq]
    intro hzero
    rw [hzero] at hi
    exact Bool.false_ne_true (BitVec.getLsbD_zero.symm.trans hi)
  · intro ⟨word, hword, hne⟩
    obtain ⟨k, hk, rfl⟩ := List.getElem_of_mem hword
    obtain ⟨j, hj⟩ : ∃ j, words[k].getLsbD j = true := by
      by_contra hnone
      refine of_decide_eq_true hne (BitVec.eq_of_getLsbD_eq ?_)
      intro j _
      have hclear : words[k].getLsbD j = false := Bool.eq_false_iff.mpr fun hj => hnone ⟨j, hj⟩
      exact hclear.trans BitVec.getLsbD_zero.symm
    have hlt : j < 64 := BitVec.lt_of_getLsbD hj
    have hplace : (64 * k + j) / 64 = k := by omega
    have hbit : (64 * k + j) % 64 = j := by omega
    refine ⟨64 * k + j, mem_members.mpr ?_⟩
    rw [bit, hplace, hbit, List.getD_eq_getElem _ _ hk]
    exact hj

theorem bitClear_eq (words : Words) : words.bitClear = List.replicate words.length 0 :=
  List.map_const' ..

theorem eq_replicate_of_bitAny (h : words.bitAny = false) :
    words = List.replicate words.length 0 := by
  rw [List.eq_replicate_iff]
  refine ⟨rfl, ?_⟩
  intro word hword
  have hzero := List.any_eq_false.mp h word hword
  rwa [decide_eq_true_eq, not_not] at hzero

theorem bit_append_replicate (n : Nat) : bit (words ++ List.replicate n 0) i = words.bit i := by
  by_cases hi : i / 64 < words.length
  · rw [bit, bit, List.getD_append _ _ _ _ hi]
  · rw [bit_of_le (Nat.le_of_not_lt hi), bit, List.getD_append_right _ _ _ _ (Nat.le_of_not_lt hi)]
    by_cases hn : i / 64 - words.length < n
    · rw [List.getD_replicate _ hn]
      exact BitVec.getLsbD_zero
    · rw [List.getD_eq_default _ _ (by simpa using hn)]
      exact BitVec.getLsbD_zero

theorem lt_extended (words : Words) (idx : Nat) : idx < (words.extended idx).length := by
  unfold extended
  split
  · rw [List.length_append, List.length_replicate]
    omega
  · omega

@[simp] theorem bit_extended (words : Words) (idx : Nat) : (words.extended idx).bit = words.bit := by
  funext i
  unfold extended
  split
  · exact bit_append_replicate _
  · rfl

/-- A change of one word of which only the bit `i` is concerned. -/
theorem bit_modify (hi : i / 64 < words.length) {f : BitVec 64 → BitVec 64} {b : Bool}
    (self : ∀ word, (f word).getLsbD (i % 64) = b)
    (others : ∀ word k, k ≠ i % 64 → (f word).getLsbD k = word.getLsbD k) :
    bit (words.modify (i / 64) f) = Function.update words.bit i b := by
  funext j
  by_cases hw : j / 64 = i / 64
  · by_cases hb : j % 64 = i % 64
    · obtain rfl : j = i := by omega
      simp [bit, List.getD_eq_getElem?_getD, hi, self]
    · have hj : j ≠ i := fun h => hb (h ▸ rfl)
      rw [Function.update_of_ne hj]
      simp [bit, List.getD_eq_getElem?_getD, hw, hi, others _ _ hb]
  · have hj : j ≠ i := fun h => hw (h ▸ rfl)
    rw [Function.update_of_ne hj]
    simp [bit, List.getD_eq_getElem?_getD, Ne.symm hw]

theorem bitSet_ok (hi : i / 64 < words.length) :
    ∃ after, words.bitSet i = .ok after ∧ after.length = words.length ∧
      after.bit = Function.update words.bit i true := by
  refine ⟨_, if_pos hi, List.length_modify _ _ _, bit_modify hi ?_ ?_⟩
  · intro word
    simp [Nat.mod_lt]
  · intro word k hk
    simp [BitVec.getLsbD_twoPow, Ne.symm hk]

theorem bitReset_ok (hi : i / 64 < words.length) :
    ∃ after, words.bitReset i = .ok after ∧ after.length = words.length ∧
      after.bit = Function.update words.bit i false := by
  refine ⟨_, if_pos hi, List.length_modify _ _ _, bit_modify hi ?_ ?_⟩
  · intro word
    simp [Nat.mod_lt]
  · intro word k hk
    by_cases hlt : k < 64
    · simp only [BitVec.getLsbD_and, BitVec.getLsbD_not, BitVec.getLsbD_twoPow]
      simp [Ne.symm hk, hlt]
    · simp [BitVec.getLsbD_of_ge word k (Nat.le_of_not_lt hlt)]

end Words

/-- `BitSet<Vec<u64>>`. -/
structure BitSet where
  len : Nat
  inner : Words
deriving DecidableEq, Repr

namespace BitSet

/-- `with_capacity`. -/
def new : BitSet := ⟨0, []⟩

def isEmpty (s : BitSet) : Bool := s.len = 0

def contains (s : BitSet) (value : Nat) : Bool :=
  value / 64 < s.inner.length && s.inner.bit value

def insert (checks : Bool) (s : BitSet) (value : Nat) : Except Fault (BitSet × Bool) := do
  let idx := value / 64
  let inner := s.inner.extended idx
  if ← inner.bitTest value then
    return ({ s with inner := inner }, false)
  else
    let inner ← inner.bitSet value
    let len ← usizeAdd checks s.len 1
    return (⟨len, inner⟩, true)

def remove (checks : Bool) (s : BitSet) (value : Nat) : Except Fault (BitSet × Bool) := do
  if value / 64 < s.inner.length then
    if ← s.inner.bitTest value then
      let inner ← s.inner.bitReset value
      let len ← usizeSub checks s.len 1
      return (⟨len, inner⟩, true)
    else return (s, false)
  else return (s, false)

/-- The set that the bits stand for, of which a build without overflow checks may lose count. -/
structure Represents (checks : Bool) (s : BitSet) (members : Finset Nat) : Prop where
  bits : ∀ i, s.inner.bit i = decide (i ∈ members)
  count : s.len = members.card % 2 ^ 64
  fits : checks = true → members.card < 2 ^ 64

variable {checks : Bool} {s t : BitSet} {members : Finset Nat} {value : Nat} {changed : Bool}

theorem represents_new : new.Represents checks ∅ := by
  refine ⟨?_, rfl, ?_⟩
  · simp [new, Words.bit]
  · simp

theorem Represents.isEmpty (r : s.Represents checks members) (fits : members.card < 2 ^ 64) :
    s.isEmpty = true ↔ members = ∅ := by
  rw [BitSet.isEmpty, r.count, Nat.mod_eq_of_lt fits, decide_eq_true_eq, Finset.card_eq_zero]

theorem Represents.contains (r : s.Represents checks members) (value : Nat) :
    s.contains value = decide (value ∈ members) := by
  rw [BitSet.contains, r.bits]
  by_cases hlt : value / 64 < s.inner.length
  · simp [hlt]
  · have hbit := r.bits value
    rw [Words.bit_of_le (Nat.le_of_not_lt hlt)] at hbit
    simp [← hbit]

theorem Represents.lt_of_mem (r : s.Represents checks members) (h : value ∈ members) :
    value / 64 < s.inner.length := by
  by_contra hn
  have hbit := r.bits value
  rw [Words.bit_of_le (Nat.le_of_not_lt hn)] at hbit
  simp [h] at hbit

theorem Represents.insert (r : s.Represents checks members)
    (h : s.insert checks value = .ok (t, changed)) :
    t.Represents checks (Insert.insert value members) ∧ changed = decide (value ∉ members) := by
  have hlt := s.inner.lt_extended (value / 64)
  obtain ⟨after, hset, _, hafter⟩ := Words.bitSet_ok hlt
  simp only [BitSet.insert, Words.bitTest, hlt, ↓reduceIte, ok_bind, Words.bit_extended, hset,
    r.bits value] at h
  by_cases hv : value ∈ members
  · simp only [hv, decide_true, ↓reduceIte, except_pure, Except.ok.injEq, Prod.mk.injEq] at h
    obtain ⟨rfl, rfl⟩ := h
    rw [Finset.insert_eq_of_mem hv]
    refine ⟨⟨?_, r.count, r.fits⟩, by simp [hv]⟩
    intro i
    rw [Words.bit_extended]
    exact r.bits i
  · simp only [hv, decide_false, Bool.false_eq_true, ↓reduceIte, bind_ok, except_pure,
      Except.ok.injEq, Prod.mk.injEq] at h
    obtain ⟨len, hlen, rfl, rfl⟩ := h
    have hcard := Finset.card_insert_of_notMem hv
    refine ⟨⟨?_, ?_, ?_⟩, by simp [hv]⟩
    · intro i
      rw [hafter, Words.bit_extended]
      by_cases hi : i = value
      · simp [hi]
      · rw [Function.update_of_ne hi, r.bits i]
        simp [hi]
    · have hwrap := addBits_ok hlen
      have hcount := r.count
      rw [hcard]
      unfold wrappingAdd at hwrap
      change len = _
      split at hwrap
      · omega
      · omega
    · intro hc
      subst hc
      have hfits := addBits_lt hlen
      have hcount := r.count
      rw [Nat.mod_eq_of_lt (r.fits rfl)] at hcount
      omega

theorem Represents.insert_total (r : s.Represents checks members)
    (fits : checks = true → members.card + 1 < 2 ^ 64) (value : Nat) :
    Succeeds (s.insert checks value) := by
  have hlt := s.inner.lt_extended (value / 64)
  obtain ⟨after, hset, _, _⟩ := Words.bitSet_ok hlt
  simp only [BitSet.insert, Words.bitTest, hlt, ↓reduceIte, ok_bind, hset]
  split
  · exact succeeds_pure _
  · have hcount := r.count
    cases checks with
    | true =>
      have hfits := fits rfl
      rw [Nat.mod_eq_of_lt (by omega)] at hcount
      rw [usizeAdd, addBits_of_lt (by omega)]
      exact succeeds_pure _
    | false => exact succeeds_pure _

/-- What is not in the set is not taken out of it. -/
theorem remove_absent (h : s.inner.bit value = false) : s.remove checks value = .ok (s, false) := by
  unfold BitSet.remove
  split
  · rename_i hlt
    simp [Words.bitTest, hlt, h]
  · rfl

theorem Represents.remove (r : s.Represents checks members) (value : Nat) :
    ∃ t, s.remove checks value = .ok (t, decide (value ∈ members)) ∧
      t.Represents checks (members.erase value) := by
  by_cases hv : value ∈ members
  · have hlt := r.lt_of_mem hv
    have hbit := r.bits value
    obtain ⟨after, hreset, _, hafter⟩ := Words.bitReset_ok hlt
    have hcard := Finset.card_erase_of_mem hv
    have hpos := Finset.card_pos.mpr ⟨value, hv⟩
    obtain ⟨len, hlen, hmod⟩ : ∃ len, usizeSub checks s.len 1 = .ok len ∧
        len = (members.erase value).card % 2 ^ 64 := by
      rw [hcard, r.count]
      cases checks with
      | true =>
        have hfits := r.fits rfl
        rw [Nat.mod_eq_of_lt hfits]
        exact ⟨_, subBits_of_le hpos _, by omega⟩
      | false =>
        refine ⟨wrappingSub 64 (members.card % 2 ^ 64) 1, by simp [usizeSub, subBits], ?_⟩
        unfold wrappingSub
        split
        · omega
        · omega
    refine ⟨⟨len, after⟩, ?_, ?_⟩
    · simp [BitSet.remove, Words.bitTest, hlt, hbit, hv, hreset, hlen]
    · refine ⟨?_, hmod, ?_⟩
      · intro i
        rw [hafter]
        by_cases hi : i = value
        · simp [hi]
        · rw [Function.update_of_ne hi, r.bits i]
          simp [hi]
      · intro hc
        have hfits := r.fits hc
        omega
  · refine ⟨s, ?_, ?_⟩
    · have hbit := r.bits value
      simp only [hv, decide_false] at hbit
      unfold BitSet.remove
      split
      · rename_i hlt
        simp [Words.bitTest, hlt, hbit, hv]
      · simp [hv]
    · rw [Finset.erase_eq_of_notMem hv]
      exact r

end BitSet
end GridServer
