import GridServer.Shared.BitArray

namespace GridServer
open Library

namespace Words

/-- The word of which the bits below `len` that are in it are set: the last one that `init` makes. -/
def partialWord (len : Nat) : BitVec 64 := BitVec.ofNat 64 (2 ^ (len % 64) - 1)

/-- Whether `init` sets a bit, by the words it makes: those before the last are full or clear as
the value says, the last has the bits below the length in either case. -/
def InitBit (value : Bool) (len i : Nat) : Prop :=
  if i / 64 < len / 64 then value = true else i < len

variable {words : Words} {value : Bool} {len i : Nat}

theorem getLsbD_partialWord (len i : Nat) :
    (partialWord len).getLsbD (i % 64) = decide (i % 64 < len % 64) := by
  rw [partialWord, BitVec.getLsbD_ofNat, Nat.testBit_two_pow_sub_one, Bool.and_eq_decide,
    decide_eq_decide]
  simp only [decide_eq_true_eq]
  omega

/-- The bits of words that are full or clear up to the one at `len / 64`, which is the last with
any bits. -/
theorem bit_init (h : ∀ k, words.getD k 0 =
      if k < len / 64 then if value then BitVec.allOnes 64 else 0
      else if k = len / 64 then partialWord len else 0) :
    words.bit i = true ↔ InitBit value len i := by
  rw [bit, h, InitBit]
  by_cases hfull : i / 64 < len / 64
  · rw [if_pos hfull, if_pos hfull]
    cases value with
    | false => simp
    | true =>
      rw [if_pos rfl, BitVec.getLsbD_allOnes]
      simp [Nat.mod_lt]
  · rw [if_neg hfull, if_neg hfull]
    by_cases hlast : i / 64 = len / 64
    · rw [if_pos hlast, getLsbD_partialWord, decide_eq_true_eq]
      omega
    · rw [if_neg hlast]
      have hge : ¬i < len := by omega
      simp [hge]

end Words

namespace BitSet

/-- `init` on `Vec<u64>`. -/
def initVec (value : Bool) (len : Nat) : BitSet :=
  let last := BitVec.ofNat 64 (2 ^ (len % 64) - 1)
  let size := len / 64 + 1
  let (initVal, len) := if value then (BitVec.allOnes 64, len) else (0, 0)
  ⟨len, (List.replicate size initVal).set (size - 1) last⟩

/-- The set has these members and counts them. -/
structure Holds (s : BitSet) (members : Finset Nat) : Prop where
  bits : ∀ i, s.inner.bit i = decide (i ∈ members)
  count : s.len = members.card

/-- What `init` is to make. -/
def initMembers (value : Bool) (len : Nat) : Finset Nat := if value then Finset.range len else ∅

variable {s : BitSet} {n len : Nat} {value : Bool}

/-- A set with the bits that `init` sets and the length that it stores. -/
theorem holds_init_iff (count : s.len = if value then len else 0)
    (bits : ∀ i, s.inner.bit i = true ↔ Words.InitBit value len i) :
    s.Holds (initMembers value len) ↔ value = true ∨ 64 ∣ len := by
  cases value with
  | true =>
    simp only [true_or, iff_true]
    refine ⟨?_, by simpa [initMembers] using count⟩
    intro i
    rw [Bool.eq_iff_iff, bits, decide_eq_true_eq, initMembers, if_pos rfl, Finset.mem_range,
      Words.InitBit]
    split
    · simp only [true_iff]
      omega
    · exact Iff.rfl
  | false =>
    simp only [Bool.false_eq_true, false_or]
    constructor
    · intro holds
      -- The first bit of the last word is set if the last word has any.
      have hbit := holds.bits (64 * (len / 64))
      rw [Bool.eq_iff_iff, bits, decide_eq_true_eq, Words.InitBit, if_neg (by omega)] at hbit
      simp only [initMembers, Bool.false_eq_true, ↓reduceIte, Finset.notMem_empty, iff_false] at hbit
      omega
    · intro hdvd
      refine ⟨?_, by simpa [initMembers] using count⟩
      intro i
      rw [Bool.eq_iff_iff, bits, decide_eq_true_eq, Words.InitBit]
      simp only [initMembers, Bool.false_eq_true, ↓reduceIte, Finset.notMem_empty, iff_false]
      split
      · exact not_false
      · omega

theorem initVec_bits (value : Bool) (len i : Nat) :
    (initVec value len).inner.bit i = true ↔ Words.InitBit value len i := by
  refine Words.bit_init ?_
  intro k
  have hinner : (initVec value len).inner =
      (List.replicate (len / 64 + 1) (if value then BitVec.allOnes 64 else 0)).set (len / 64)
        (Words.partialWord len) := by
    cases value <;> rfl
  rw [hinner, List.getD_eq_getElem?_getD, List.getElem?_set, List.getElem?_replicate,
    List.length_replicate]
  by_cases hfull : k < len / 64
  · have hne : ¬len / 64 = k := by omega
    have hlt : k < len / 64 + 1 := by omega
    simp [hfull, hne, hlt]
  · by_cases hlast : k = len / 64
    · simp [hlast]
    · have hne : ¬len / 64 = k := fun h => hlast h.symm
      have hlt : ¬k < len / 64 + 1 := by omega
      simp [hfull, hlast, hne, hlt]

theorem init_bits (h : len < 64 * n) (value : Bool) :
    ∃ s, init n value len = .ok s ∧ s.len = (if value then len else 0) ∧
      ∀ i, s.inner.bit i = true ↔ Words.InitBit value len i := by
  have hidx : len / 64 < n := by omega
  refine ⟨_, by rw [init, if_neg (by omega)]; exact if_pos hidx, by cases value <;> rfl, ?_⟩
  intro i
  refine Words.bit_init ?_
  intro k
  by_cases hk : k < n
  · rw [List.getD_eq_getElem _ _ (by simpa using hk), List.getElem_map, List.getElem_range]
    cases value <;> rfl
  · have hfull : ¬k < len / 64 := by omega
    have hlast : ¬k = len / 64 := by omega
    rw [List.getD_eq_default _ _ (by simpa using hk), if_neg hfull, if_neg hlast]

/-- The whole capacity has no word to put the rest in. -/
theorem init_full (n : Nat) (value : Bool) : init n value (64 * n) = .error .indexOutOfBounds := by
  rw [init, if_neg (Nat.lt_irrefl _)]
  have hidx : ¬64 * n / 64 < n := by omega
  cases value <;> exact if_neg hidx

/-- `init` makes the set it is asked for exactly when the length is not the whole capacity of an
array, and is a multiple of 64 where the bits are to be clear. -/
theorem init_iff (value : Bool) :
    (∀ n len, len ≤ 64 * n →
      ((∃ s, init n value len = .ok s ∧ s.Holds (initMembers value len)) ↔
        len < 64 * n ∧ (value = true ∨ 64 ∣ len))) ∧
    ∀ len, (initVec value len).Holds (initMembers value len) ↔ value = true ∨ 64 ∣ len := by
  constructor
  · intro n len hle
    by_cases hlt : len < 64 * n
    · obtain ⟨s, hs, hcount, hbits⟩ := init_bits hlt value
      rw [← holds_init_iff hcount hbits]
      simp [hs, hlt]
    · have hfull : len = 64 * n := by omega
      simp [hfull, init_full]
  · intro len
    exact holds_init_iff (by cases value <;> rfl) (initVec_bits value len)

/-- The whole capacity of `[u64; 1]` panics, and one clear bit comes out set. -/
theorem not_forall_init :
    (¬∀ value n len, len ≤ 64 * n →
      ∃ s, init n value len = .ok s ∧ s.Holds (initMembers value len)) ∧
    ¬∀ value len, (initVec value len).Holds (initMembers value len) := by
  constructor
  · intro h
    obtain ⟨s, hs, _⟩ := h true 1 64 (by decide)
    cases hs
  · intro h
    have hbit := (h false 1).bits 0
    revert hbit
    decide

/-- Five values in an array of one word. -/
theorem init_iff_five : (∃ s, init 1 true 5 = .ok s ∧ s.Holds (initMembers true 5)) ↔
    5 < 64 * 1 ∧ (true = true ∨ 64 ∣ 5) := (init_iff true).1 1 5 (by decide)

end BitSet
end GridServer
