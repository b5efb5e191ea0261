import GridServer.Shared.Fault
import Mathlib.Logic.Function.Basic

namespace GridServer
open Library

/-- Values filed under small keys: slot `key` of `v` holds the value of `key`. -/
structure VecMap (V : Type) where
  n : Nat
  v : List (Option V)
deriving DecidableEq, Repr

namespace VecMap
variable {V : Type}

def new : VecMap V := ⟨0, []⟩

def clear (_ : VecMap V) : VecMap V := ⟨0, []⟩

def get (m : VecMap V) (key : Nat) : Option V :=
  m.v[key]?.join

def containsKey (m : VecMap V) (key : Nat) : Bool := (m.get key).isSome

/-- `get_unchecked`: the caller promises that the slot exists and is occupied. -/
def getUnchecked (m : VecMap V) (key : Nat) : Except Fault V :=
  match m.get key with
  | some value => .ok value
  | none => .error .undefinedBehaviour

/-- The slots after making room for `key`. -/
def extended (v : List (Option V)) (key : Nat) : List (Option V) :=
  if v.length ≤ key then v ++ List.replicate (key - v.length + 1) none else v

def insert (m : VecMap V) (key : Nat) (value : V) : VecMap V :=
  { n := if (m.get key).isNone then m.n + 1 else m.n
    v := (extended m.v key).set key (some value) }

def remove (m : VecMap V) (key : Nat) : VecMap V :=
  if (m.get key).isSome then { n := m.n - 1, v := m.v.set key none } else m

/-- What a write through the reference that `get_mut` returned leaves behind. -/
def write (m : VecMap V) (key : Nat) (value : V) : VecMap V :=
  if (m.get key).isSome then { m with v := m.v.set key (some value) } else m

/-- Apply `f` to every value in place. -/
def mapValues (m : VecMap V) (f : V → V) : VecMap V :=
  { m with v := m.v.map (Option.map f) }

@[simp] theorem get_new (key : Nat) : (new : VecMap V).get key = none := by simp [new, get]

@[simp] theorem get_clear (m : VecMap V) (key : Nat) : m.clear.get key = none := by
  simp [clear, get]

theorem getUnchecked_ok {m : VecMap V} {key : Nat} {value : V} :
    m.getUnchecked key = .ok value ↔ m.get key = some value := by
  unfold getUnchecked
  split <;> simp_all

theorem lt_of_get {m : VecMap V} {key : Nat} (h : (m.get key).isSome) : key < m.v.length := by
  by_contra hn
  simp [get, List.getElem?_eq_none_iff.mpr (Nat.le_of_not_lt hn)] at h

theorem extended_get (v : List (Option V)) (key k : Nat) :
    (extended v key)[k]?.join = v[k]?.join := by
  by_cases hl : v.length ≤ key
  · simp only [extended, hl, ↓reduceIte]
    by_cases hk : k < v.length
    · rw [List.getElem?_append_left hk]
    · rw [List.getElem?_append_right (Nat.le_of_not_lt hk), List.getElem?_replicate,
        List.getElem?_eq_none_iff.mpr (Nat.le_of_not_lt hk)]
      split <;> rfl
  · simp [extended, hl]

theorem lt_extended (v : List (Option V)) (key : Nat) : key < (extended v key).length := by
  unfold extended
  split
  · simp only [List.length_append, List.length_replicate]; omega
  · omega

@[simp] theorem get_insert (m : VecMap V) (key : Nat) (value : V) :
    (m.insert key value).get = Function.update m.get key (some value) := by
  funext k
  by_cases hk : k = key
  · subst hk
    simp [insert, get, lt_extended]
  · rw [Function.update_of_ne hk]
    have h := extended_get m.v key k
    simpa only [insert, get, List.getElem?_set_ne (Ne.symm hk)] using h

theorem get_remove (m : VecMap V) (key : Nat) :
    (m.remove key).get = Function.update m.get key none := by
  funext k
  by_cases h : (m.get key).isSome
  · have hlt := lt_of_get h
    by_cases hk : k = key
    · subst hk
      simp only [remove, h, ↓reduceIte, Function.update_self]
      simp [get, List.getElem?_set_self hlt]
    · rw [Function.update_of_ne hk]
      simp only [remove, h, ↓reduceIte]
      simp [get, List.getElem?_set_ne (Ne.symm hk)]
  · have hnone : m.get key = none := by simpa using h
    by_cases hk : k = key
    · subst hk; simp [remove, hnone]
    · simp [remove, h, Function.update_of_ne hk]

theorem get_write {m : VecMap V} {key : Nat} (h : (m.get key).isSome) (value : V) :
    (m.write key value).get = Function.update m.get key (some value) := by
  funext k
  have hlt := lt_of_get h
  by_cases hk : k = key
  · subst hk
    simp only [write, h, ↓reduceIte, Function.update_self]
    simp [get, List.getElem?_set_self hlt]
  · rw [Function.update_of_ne hk]
    simp only [write, h, ↓reduceIte]
    simp [get, List.getElem?_set_ne (Ne.symm hk)]

@[simp] theorem get_mapValues (m : VecMap V) (f : V → V) (key : Nat) :
    (m.mapValues f).get key = (m.get key).map f := by
  simp only [mapValues, get, List.getElem?_map]
  cases m.v[key]? <;> rfl

end VecMap
end GridServer
