import GridServer.Library.Chunk
import GridServer.Shared.Messages
import GridServer.Shared.MultilevelVecMap

namespace GridServer.TaskManager
open Library

abbrev Distance := Nat

/-- `Distance::MAX`. -/
def distanceMax : Distance := 2 ^ 64 - 1

structure Pair where
  taxi : Nat
  passenger : Nat
deriving DecidableEq, Repr

structure CombinationGenerator where
  n : Nat
  taxies : Nat
  passengers : Nat
deriving DecidableEq, Repr

namespace CombinationGenerator

def new (checks : Bool) (taxies passengers : Nat) : Except Fault CombinationGenerator := do
  let n ← u128Pow checks taxies (passengers % 2 ^ 32)
  return ⟨n, taxies, passengers⟩

/-- The digits of `num` to the base `taxies`, from the last passenger to the first. -/
def extractCombination (taxies : Nat) : Nat → Nat → Except Fault (List Pair)
  | 0, _ => .ok []
  | passenger + 1, num =>
    if taxies = 0 then .error .divisionByZero
    else do
      let rest ← extractCombination taxies passenger (num / taxies)
      return ⟨num % taxies, passenger⟩ :: rest

def next (generator : CombinationGenerator) :
    Except Fault (Option (List Pair) × CombinationGenerator) :=
  if generator.n = 0 then .ok (none, generator)
  else do
    let n := generator.n - 1
    let combination ← extractCombination generator.taxies generator.passengers n
    return (some combination, { generator with n := n })

end CombinationGenerator

structure TaskReducer where
  buf : List Words
  combinations : CombinationGenerator
  completedParts : List (MultilevelVecMap Distance)

namespace TaskReducer

def new (checks : Bool) (taxies passengers : Nat)
    (completedParts : List (MultilevelVecMap Distance)) : Except Fault TaskReducer := do
  let size := passengers / 64 + 1
  let combinations ← CombinationGenerator.new checks taxies passengers
  return ⟨List.replicate taxies (List.replicate size 0), combinations, completedParts⟩

/-- Put a passenger into the taxi that the combination has for it. -/
def board (buf : List Words) (pair : Pair) : Except Fault (List Words) :=
  match buf[pair.taxi]? with
  | none => .error .undefinedBehaviour
  | some words => do
    let words ← words.bitSet pair.passenger
    return buf.set pair.taxi words

/-- Add up the distances of the taxis from `taxi` on that have passengers, and empty them. -/
def collect (checks : Bool) (parts : List (MultilevelVecMap Distance)) :
    Nat → List Words → Distance → Except Fault (Distance × List Words)
  | _, [], distance => .ok (distance, [])
  | taxi, passengers :: buf, distance =>
    if passengers.bitAny then
      match parts[taxi]? with
      | none => .error .unwrapNone
      | some part => do
        match ← part.get passengers with
        | none => .error .unwrapNone
        | some value =>
          let distance ← u64Add checks distance value
          let (distance, buf) ← collect checks parts (taxi + 1) buf distance
          return (distance, passengers.bitClear :: buf)
    else do
      let (distance, buf) ← collect checks parts (taxi + 1) buf distance
      return (distance, passengers :: buf)

def next (checks : Bool) (reducer : TaskReducer) :
    Except Fault (Option Distance × TaskReducer) := do
  let (combination, combinations) ← reducer.combinations.next
  match combination with
  | none => return (none, { reducer with combinations := combinations })
  | some combination =>
    let buf ← combination.foldlM board reducer.buf
    let (distance, buf) ← collect checks reducer.completedParts 0 buf 0
    return (some distance, { reducer with combinations := combinations, buf := buf })

variable {checks : Bool} {reducer reducer' : TaskReducer} {item : Option Distance}

theorem new_parts {taxies passengers : Nat} {parts : List (MultilevelVecMap Distance)}
    (h : new checks taxies passengers parts = .ok reducer) : reducer.completedParts = parts := by
  obtain ⟨_, _, h⟩ := bind_ok.mp h
  cases h
  rfl

theorem next_parts (h : reducer.next checks = .ok (item, reducer')) :
    reducer'.completedParts = reducer.completedParts := by
  obtain ⟨⟨combination, combinations⟩, _, h⟩ := bind_ok.mp h
  cases combination with
  | none =>
    cases h
    rfl
  | some combination =>
    obtain ⟨_, _, h⟩ := bind_ok.mp h
    obtain ⟨⟨_, _⟩, _, h⟩ := bind_ok.mp h
    cases h
    rfl

end TaskReducer
end GridServer.TaskManager
