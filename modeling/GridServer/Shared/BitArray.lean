import GridServer.Shared.BitSet

namespace GridServer
open Library

namespace BitSet

/-- `init` on `[u64; N]`. The last word is set whatever the value is. -/
def init (n : Nat) (value : Bool) (len : Nat) : Except Fault BitSet :=
  if 64 * n < len then .error .panicked
  else
    let last := BitVec.ofNat 64 (2 ^ (len % 64) - 1)
    let maxIdx := len / 64
    let (initVal, len) := if value then (BitVec.allOnes 64, len) else (0, 0)
    if maxIdx < n then
      .ok ⟨len, (List.range n).map fun idx =>
        if idx < maxIdx then initVal else if idx = maxIdx then last else 0⟩
    else .error .indexOutOfBounds

def iter (s : BitSet) : List Nat := (List.range (64 * s.inner.length)).filter s.inner.bit

/-- On `[u64; N]`, where `remove`'s guard on the value is the one on its word. -/
def exclude (checks : Bool) (s : BitSet) (value : Nat) : Except Fault BitSet := do
  let (s, _) ← s.remove checks value
  return s

/-- `From<[u64; N]>`. -/
def ofWords (words : Words) : BitSet :=
  ⟨(List.range (64 * words.length)).countP words.bit, words⟩

variable {checks : Bool} {s t : BitSet} {members : Finset Nat} {n len value : Nat} {words : Words}

/-- All values below the length are in the set. -/
theorem init_ok (checks : Bool) (h : len < 64 * n) (fits : len < 2 ^ 64) :
    ∃ s, init n true len = .ok s ∧ s.inner.length = n ∧
      s.Represents checks (Finset.range len) := by
  have hidx : len / 64 < n := by omega
  refine ⟨_, by rw [init, if_neg (by omega)]; exact if_pos hidx, ?_, ?_, ?_, ?_⟩
  · simp
  · intro i
    have hlast : 2 ^ (len % 64) - 1 < 2 ^ 64 := by
      have hpow : 2 ^ (len % 64) ≤ 2 ^ 63 := Nat.pow_le_pow_right (by decide) (by omega)
      omega
    have hmem : decide (i ∈ Finset.range len) = decide (i < len) := by
      rw [decide_eq_decide, Finset.mem_range]
    rw [hmem]
    by_cases hword : i / 64 < n
    · rw [Words.bit, List.getD_eq_getElem _ _ (by simpa using hword), List.getElem_map,
        List.getElem_range]
      by_cases hfull : i / 64 < len / 64
      · rw [if_pos hfull, BitVec.getLsbD_allOnes, decide_eq_decide]
        omega
      · rw [if_neg hfull]
        by_cases hlen : i / 64 = len / 64
        · rw [if_pos hlen, BitVec.getLsbD_ofNat, Nat.testBit_two_pow_sub_one, Bool.and_eq_decide,
            decide_eq_decide]
          simp only [decide_eq_true_eq]
          omega
        · rw [if_neg hlen]
          have hge : ¬i < len := by omega
          simp [hge]
    · have hge : ¬i < len := by omega
      rw [Words.bit_of_le (by simpa using hword)]
      simp [hge]
  · rw [Finset.card_range, Nat.mod_eq_of_lt fits]
  · intro _
    rwa [Finset.card_range]

theorem mem_iter : value ∈ s.iter ↔ value ∈ s.inner.members := by
  rw [iter, List.mem_filter, List.mem_range, Words.members, Finset.mem_filter, Finset.mem_range]

theorem Represents.members_eq (r : s.Represents checks members) : s.inner.members = members := by
  ext i
  rw [Words.mem_members, r.bits, decide_eq_true_eq]

theorem Represents.mem_iter (r : s.Represents checks members) :
    value ∈ s.iter ↔ value ∈ members := by
  rw [BitSet.mem_iter, r.members_eq]

theorem nodup_iter (s : BitSet) : s.iter.Nodup := List.nodup_range.filter _

theorem remove_length {changed : Bool} (h : s.remove checks value = .ok (t, changed)) :
    t.inner.length = s.inner.length := by
  unfold BitSet.remove at h
  split at h
  · rename_i hlt
    obtain ⟨bit, _, h⟩ := bind_ok.mp h
    cases bit with
    | true =>
      obtain ⟨after, hreset, hlength, _⟩ := Words.bitReset_ok hlt
      simp only [↓reduceIte, hreset, ok_bind] at h
      obtain ⟨len, _, h⟩ := bind_ok.mp h
      cases h
      exact hlength
    | false =>
      cases h
      rfl
  · cases h
    rfl

theorem Represents.exclude (r : s.Represents checks members) (value : Nat) :
    ∃ t, s.exclude checks value = .ok t ∧ t.Represents checks (members.erase value) ∧
      t.inner.length = s.inner.length := by
  obtain ⟨t, hremove, ht⟩ := r.remove value
  exact ⟨t, by rw [BitSet.exclude, hremove]; rfl, ht, remove_length hremove⟩

theorem represents_ofWords (checks : Bool) (h : 64 * words.length < 2 ^ 64) :
    (ofWords words).Represents checks words.members := by
  have hcount : (ofWords words).len = words.members.card := by
    have hset : words.members = ((List.range (64 * words.length)).filter words.bit).toFinset := by
      ext i
      simp [Words.members]
    rw [ofWords, List.countP_eq_length_filter, hset,
      List.toFinset_card_of_nodup (List.nodup_range.filter _)]
  have hcard : words.members.card < 2 ^ 64 := by
    have hle := Finset.card_filter_le (Finset.range (64 * words.length)) fun i => words.bit i
    rw [Finset.card_range] at hle
    exact Nat.lt_of_le_of_lt hle h
  refine ⟨?_, ?_, fun _ => hcard⟩
  · intro i
    rw [Bool.eq_iff_iff, decide_eq_true_eq, Words.mem_members]
    rfl
  · rw [hcount, Nat.mod_eq_of_lt hcard]

end BitSet
end GridServer
