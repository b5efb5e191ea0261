import GridServer.Library.Fallible
import Mathlib.Algebra.Order.Ring.Nat

namespace GridServer

/-- The ways a step of a service fails to reach a next state. -/
inductive Fault where
  /-- An addition on integers of `bits` bits left the type, in a build with overflow checks. -/
  | addOverflow (bits : Nat)
  /-- A subtraction on integers of `bits` bits went below zero, in a build with overflow checks. -/
  | subOverflow (bits : Nat)
  /-- A multiplication or a power on integers of `bits` bits left the type, in such a build. -/
  | mulOverflow (bits : Nat)
  /-- A division by zero. -/
  | divisionByZero
  /-- A bounds-checked access outside its collection. -/
  | indexOutOfBounds
  /-- `unwrap` of `None`. -/
  | unwrapNone
  /-- A `panic!` of the code's own. -/
  | panicked
  /-- An unchecked access that its contract forbids. -/
  | undefinedBehaviour
  /-- The event's `select!` branch is not ready. -/
  | notReady
  /-- The service's main loop returned an error. -/
  | stopped
  /-- The step allowance of a loop ran out. -/
  | diverged
deriving DecidableEq, Repr

/-- The value of `a - b` on unsigned integers of `bits` bits, modulo `2 ^ bits`. -/
def wrappingSub (bits a b : Nat) : Nat := if b ≤ a then a - b else a + 2 ^ bits - b

/-- The value of `a + b` on unsigned integers of `bits` bits, modulo `2 ^ bits`. -/
def wrappingAdd (bits a b : Nat) : Nat := if a + b < 2 ^ bits then a + b else a + b - 2 ^ bits

/-- `a - b`. A build with overflow checks panics below zero, one without them wraps. -/
def subBits (bits : Nat) (checks : Bool) (a b : Nat) : Except Fault Nat :=
  if checks = true ∧ a < b then .error (.subOverflow bits) else .ok (wrappingSub bits a b)

def addBits (bits : Nat) (checks : Bool) (a b : Nat) : Except Fault Nat :=
  if checks = true ∧ 2 ^ bits ≤ a + b then .error (.addOverflow bits)
  else .ok (wrappingAdd bits a b)

def mulBits (bits : Nat) (checks : Bool) (a b : Nat) : Except Fault Nat :=
  if checks = true ∧ 2 ^ bits ≤ a * b then .error (.mulOverflow bits)
  else .ok (a * b % 2 ^ bits)

def powBits (bits : Nat) (checks : Bool) (a b : Nat) : Except Fault Nat :=
  if checks = true ∧ 2 ^ bits ≤ a ^ b then .error (.mulOverflow bits)
  else .ok (a ^ b % 2 ^ bits)

def usizeAdd (checks : Bool) (a b : Nat) : Except Fault Nat := addBits 64 checks a b

def u64Add (checks : Bool) (a b : Nat) : Except Fault Nat := addBits 64 checks a b

def u128Mul (checks : Bool) (a b : Nat) : Except Fault Nat := mulBits 128 checks a b

/-- `a.pow(b)`, where the exponent is a `u32`. -/
def u128Pow (checks : Bool) (a b : Nat) : Except Fault Nat := powBits 128 checks a b

def usizeSub (checks : Bool) (a b : Nat) : Except Fault Nat := subBits 64 checks a b

def u16Add (checks : Bool) (a b : Nat) : Except Fault Nat := addBits 16 checks a b

def u128Sub (checks : Bool) (a b : Nat) : Except Fault Nat := subBits 128 checks a b

def u128Add (checks : Bool) (a b : Nat) : Except Fault Nat := addBits 128 checks a b

/-- `a / b`, which panics on a zero divisor in every build. -/
def u128Div (a b : Nat) : Except Fault Nat :=
  if b = 0 then .error .divisionByZero else .ok (a / b)

theorem wrappingSub_of_le {bits a b : Nat} (h : b ≤ a) : wrappingSub bits a b = a - b := by
  simp [wrappingSub, h]

theorem wrappingAdd_of_lt {bits a b : Nat} (h : a + b < 2 ^ bits) :
    wrappingAdd bits a b = a + b := by simp [wrappingAdd, h]

theorem subBits_ok {bits a b c : Nat} {checks : Bool} (h : subBits bits checks a b = .ok c) :
    c = wrappingSub bits a b := by
  unfold subBits at h
  split at h
  · cases h
  · exact (Except.ok.inj h).symm

theorem addBits_ok {bits a b c : Nat} {checks : Bool} (h : addBits bits checks a b = .ok c) :
    c = wrappingAdd bits a b := by
  unfold addBits at h
  split at h
  · cases h
  · exact (Except.ok.inj h).symm

theorem addBits_lt {bits a b c : Nat} (h : addBits bits true a b = .ok c) : a + b < 2 ^ bits := by
  unfold addBits at h
  split at h
  · cases h
  case isFalse hfits => exact Nat.lt_of_not_le fun hle => hfits ⟨rfl, hle⟩

/-- A sum that does not leave the type, or that the build checks. -/
theorem addBits_exact {bits a b c : Nat} {checks : Bool} (h : addBits bits checks a b = .ok c)
    (fits : checks = false → a + b < 2 ^ bits) : c = a + b := by
  have hlt : a + b < 2 ^ bits := by
    cases checks with
    | false => exact fits rfl
    | true => exact addBits_lt h
  rw [addBits_ok h, wrappingAdd_of_lt hlt]

theorem addBits_eq (bits a b : Nat) (checks : Bool) :
    addBits bits checks a b = .error (.addOverflow bits) ∨ ∃ c, addBits bits checks a b = .ok c := by
  unfold addBits
  split
  · exact .inl rfl
  · exact .inr ⟨_, rfl⟩

theorem subBits_of_le {bits a b : Nat} (h : b ≤ a) (checks : Bool) :
    subBits bits checks a b = .ok (a - b) := by
  rw [subBits, if_neg (by omega), wrappingSub_of_le h]

open Library in
theorem subBits_spares {bits bits' a b : Nat} (checks : Bool) (h : bits' = bits → b ≤ a) :
    Spares (.subOverflow bits') (subBits bits checks a b) := by
  unfold subBits
  split
  · rw [spares_error]
    rintro ⟨⟩
    have := h rfl
    omega
  · exact spares_ok _ _

open Library in
theorem addBits_spares (bits bits' a b : Nat) (checks : Bool) :
    Spares (.subOverflow bits') (addBits bits checks a b) := by
  unfold addBits
  split
  · rw [spares_error]
    rintro ⟨⟩
  · exact spares_ok _ _

theorem mulBits_of_lt {bits a b : Nat} (h : a * b < 2 ^ bits) (checks : Bool) :
    mulBits bits checks a b = .ok (a * b) := by
  rw [mulBits, if_neg (by omega), Nat.mod_eq_of_lt h]

theorem powBits_of_lt {bits a b : Nat} (h : a ^ b < 2 ^ bits) (checks : Bool) :
    powBits bits checks a b = .ok (a ^ b) := by
  rw [powBits, if_neg (by omega), Nat.mod_eq_of_lt h]

theorem addBits_of_lt {bits a b : Nat} (h : a + b < 2 ^ bits) (checks : Bool) :
    addBits bits checks a b = .ok (a + b) := by
  rw [addBits, if_neg (by omega), wrappingAdd_of_lt h]

end GridServer
