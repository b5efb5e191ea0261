import GridServer.Library.Fallible
import Mathlib.Algebra.Order.Ring.Nat

namespace GridServer.Library

abbrev Bytes := List UInt8

/-- The lowest `width` bytes of a number, the highest of them first. -/
def beBytes : Nat → Nat → Bytes
  | 0, _ => []
  | width + 1, n => beBytes width (n / 256) ++ [UInt8.ofNat n]

def fromBe (bytes : Bytes) : Nat := bytes.foldl (fun n byte => 256 * n + byte.toNat) 0

@[simp] theorem length_beBytes (width n : Nat) : (beBytes width n).length = width := by
  induction width generalizing n with
  | zero => rfl
  | succ width ih => simp [beBytes, ih]

theorem fromBe_beBytes {width n : Nat} (h : n < 256 ^ width) : fromBe (beBytes width n) = n := by
  induction width generalizing n with
  | zero =>
    rw [Nat.pow_zero, Nat.lt_one_iff] at h
    exact h.symm
  | succ width ih =>
    have hhigh : n / 256 < 256 ^ width := by
      rw [Nat.div_lt_iff_lt_mul (by decide)]
      rwa [Nat.pow_succ] at h
    rw [beBytes, fromBe, List.foldl_append, List.foldl_cons, List.foldl_nil, ← fromBe, ih hhigh]
    simp only [UInt8.toNat_ofNat']
    omega

/-- A payload behind its length in eight bytes. -/
def frame (payload : Bytes) : Bytes := beBytes 8 payload.length ++ payload

def frames (payloads : List Bytes) : Bytes := (payloads.map frame).flatten

@[simp] theorem frames_nil : frames [] = [] := rfl

@[simp] theorem frames_cons (payload : Bytes) (payloads : List Bytes) :
    frames (payload :: payloads) = frame payload ++ frames payloads := rfl

@[simp] theorem frames_append (first second : List Bytes) :
    frames (first ++ second) = frames first ++ frames second := by simp [frames]

theorem length_frame (payload : Bytes) : (frame payload).length = 8 + payload.length := by
  simp [frame]

/-- The length in front of a payload can be read back. -/
theorem fromBe_length {payload : Bytes} (h : payload.length < 2 ^ 63) :
    fromBe (beBytes 8 payload.length) = payload.length := fromBe_beBytes (by omega)

/-- Read `n` bytes from what arrives in chunks. Each read gives what the next chunk has, up to
what is still asked for; the end of all chunks comes too early. -/
def readExact : List Bytes → Nat → Option (Bytes × List Bytes)
  | chunks, 0 => some ([], chunks)
  | [], _ + 1 => none
  | chunk :: chunks, n + 1 =>
    if n + 1 ≤ chunk.length then some (chunk.take (n + 1), chunk.drop (n + 1) :: chunks)
    else (readExact chunks (n + 1 - chunk.length)).map fun r => (chunk ++ r.1, r.2)

/-- How the bytes were split into chunks does not matter. -/
theorem readExact_append {chunks : List Bytes} {bytes rest : Bytes}
    (h : chunks.flatten = bytes ++ rest) :
    ∃ chunks', readExact chunks bytes.length = some (bytes, chunks') ∧
      chunks'.flatten = rest := by
  induction chunks generalizing bytes with
  | nil =>
    obtain ⟨rfl, rfl⟩ := List.append_eq_nil_iff.mp h.symm
    exact ⟨[], rfl, rfl⟩
  | cons chunk chunks ih =>
    rw [List.flatten_cons] at h
    cases hn : bytes.length with
    | zero =>
      rw [List.length_eq_zero_iff] at hn
      subst hn
      exact ⟨chunk :: chunks, by simp [readExact], h⟩
    | succ n =>
      rcases List.append_eq_append_iff.mp h with ⟨more, rfl, hrest⟩ | ⟨more, rfl, rfl⟩
      · -- The chunk ends before the bytes do.
        obtain ⟨chunks', hread, hflat⟩ := ih hrest
        rw [List.length_append] at hn
        by_cases hle : n + 1 ≤ chunk.length
        · have hmore : more = [] := List.eq_nil_of_length_eq_zero (by omega)
          subst hmore
          refine ⟨[] :: chunks, ?_, by simpa using hrest⟩
          rw [readExact, if_pos hle, List.take_of_length_le (by omega),
            List.drop_of_length_le (by omega), List.append_nil]
        · refine ⟨chunks', ?_, hflat⟩
          have hleft : n + 1 - chunk.length = more.length := by omega
          rw [readExact, if_neg hle, hleft, hread]
          rfl
      · refine ⟨more :: chunks, ?_, rfl⟩
        rw [readExact, if_pos (by rw [List.length_append]; omega), ← hn, List.take_left,
          List.drop_left]

end GridServer.Library
