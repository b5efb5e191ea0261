import GridServer.Shared.VecMap
import GridServer.Library.BinaryHeap
import GridServer.Library.SwapRemove

namespace GridServer
open Library

/-- A binary heap of ids. `map` files each id's position in `heap` and its value. -/
structure PriorityQueue (V : Type) where
  map : VecMap (Nat × V)
  heap : List Nat
deriving DecidableEq, Repr

/-- A value borrowed from the queue. Dropping it puts the value back, and moves the entry only
if the value was reached through `deref_mut`. It stands for `RefMut` and `PeekMut`. -/
structure RefMut (V : Type) where
  key : Nat
  value : V
  modified : Bool
deriving DecidableEq, Repr

def RefMut.derefMut {V : Type} (r : RefMut V) (value : V) : RefMut V :=
  { r with value := value, modified := true }

namespace PriorityQueue
variable {V : Type}

def left (i : Nat) : Nat := i * 2 + 1

def right (i : Nat) : Nat := i * 2 + 2

def parent (i : Nat) : Nat := (i - 1) / 2

def new : PriorityQueue V := ⟨VecMap.new, []⟩

def clear (q : PriorityQueue V) : PriorityQueue V := ⟨q.map.clear, []⟩

def get (q : PriorityQueue V) (id : Nat) : Option V := (q.map.get id).map Prod.snd

/-- `heap.get_unchecked`. -/
def heapAt (q : PriorityQueue V) (position : Nat) : Except Fault Nat :=
  match q.heap[position]? with
  | some id => .ok id
  | none => .error .undefinedBehaviour

/-- `heap.get_many_unchecked_mut` followed by `map.get_many_unchecked_mut` on the two ids: both
positions and both ids must be distinct. -/
def getPair (q : PriorityQueue V) (a b : Nat) : Except Fault ((Nat × Nat × V) × (Nat × Nat × V)) := do
  let idA ← q.heapAt a
  let idB ← q.heapAt b
  let entryA ← q.map.getUnchecked idA
  let entryB ← q.map.getUnchecked idB
  if a = b ∨ idA = idB then .error .undefinedBehaviour
  else .ok ((idA, entryA), (idB, entryB))

def getPriorityFromPosition (q : PriorityQueue V) (position : Nat) : Except Fault V := do
  let id ← q.heapAt position
  let entry ← q.map.getUnchecked id
  return entry.2

def swap (q : PriorityQueue V) (a b : Nat) : Except Fault (PriorityQueue V) := do
  let ((idA, posA, valueA), (idB, posB, valueB)) ← q.getPair a b
  return { map := (q.map.write idA (posB, valueA)).write idB (posA, valueB)
           heap := BinaryHeap.exchange q.heap a b idA idB }

def peek (q : PriorityQueue V) : Except Fault (Option (Nat × V)) :=
  match q.heap[0]? with
  | none => .ok none
  | some id => do
    let entry ← q.map.getUnchecked id
    return some (id, entry.2)

/-- `iter().take(limit)`. -/
def firstValues (q : PriorityQueue V) (limit : Nat) : Except Fault (List V) :=
  (q.heap.take limit).mapM fun id => do
    let entry ← q.map.getUnchecked id
    return entry.2

section Order
-- `Order::cmp_priority(lower, larger)`: whether `larger` belongs above `lower`.
variable (cmp : V → V → Except Fault Bool)

/-- The position whose entry `heapify` moves up to `i`, or `i` itself. -/
def largestOf (q : PriorityQueue V) (i : Nat) : Except Fault Nat := do
  let top ← q.getPriorityFromPosition i
  if left i < q.heap.length then
    let child ← q.getPriorityFromPosition (left i)
    let above ← cmp top child
    let (largest, largestp) := if above then (left i, child) else (i, top)
    if right i < q.heap.length then
      let other ← q.getPriorityFromPosition (right i)
      let above ← cmp largestp other
      return if above then right i else largest
    else return largest
  else return i

def heapifyLoop : Nat → PriorityQueue V → Nat → Except Fault (PriorityQueue V)
  | 0, _, _ => .error .diverged
  | fuel + 1, q, i => do
    let largest ← q.largestOf cmp i
    if largest ≠ i then
      let q ← q.swap i largest
      heapifyLoop fuel q largest
    else return q

def heapify (q : PriorityQueue V) (i : Nat) : Except Fault (PriorityQueue V) :=
  if q.heap.length ≤ 1 then .ok q else heapifyLoop cmp q.heap.length q i

/-- The loop of `bubble_up`. It leaves the stored position of the entry it moves as it was. -/
def bubbleUpLoop : Nat → PriorityQueue V → Nat → Except Fault (PriorityQueue V × Nat)
  | 0, _, _ => .error .diverged
  | fuel + 1, q, position =>
    if 0 < position then do
      let ((idC, _, current), (idP, _, above)) ← q.getPair position (parent position)
      let moves ← cmp above current
      if moves then
        bubbleUpLoop fuel
          { map := q.map.write idP (position, above)
            heap := BinaryHeap.exchange q.heap position (parent position) idC idP }
          (parent position)
      else return (q, position)
    else return (q, position)

def bubbleUp (q : PriorityQueue V) (position : Nat) : Except Fault (PriorityQueue V × Nat) := do
  let (q, position) ← bubbleUpLoop cmp (position + 1) q position
  let id ← q.heapAt position
  let entry ← q.map.getUnchecked id
  return ({ q with map := q.map.write id (position, entry.2) }, position)

def upHeapify (q : PriorityQueue V) (i : Nat) : Except Fault (PriorityQueue V) := do
  let (q, pos) ← q.bubbleUp cmp i
  q.heapify cmp pos

/-- `push`, with the value it replaces. -/
def push (q : PriorityQueue V) (id : Nat) (priority : V) : Except Fault (PriorityQueue V × Option V) :=
  match q.map.get id with
  | some (pos, old) => do
    let q ← upHeapify cmp { q with map := q.map.write id (pos, priority) } pos
    return (q, some old)
  | none => do
    let i := q.heap.length
    let (q, _) ← bubbleUp cmp { map := q.map.insert id (i, priority), heap := q.heap ++ [id] } i
    return (q, none)

/-- The unsafe `swap_remove`: the last entry takes over `position`. -/
def swapRemoveAt (q : PriorityQueue V) (position : Nat) :
    Except Fault (PriorityQueue V × Nat × V) := do
  let last ← q.heapAt (q.heap.length - 1)
  let entry ← q.map.getUnchecked last
  let map := q.map.write last (position, entry.2)
  match q.heap[position]?, swapRemove q.heap position with
  | some head, some heap => do
    let removed ← map.getUnchecked head
    return ({ map := map.remove head, heap := heap }, head, removed.2)
  | _, _ => .error .indexOutOfBounds

def pop (q : PriorityQueue V) : Except Fault (PriorityQueue V × Option (Nat × V)) :=
  if q.heap.length = 0 then .ok (q, none)
  else do
    let (q, id, value) ← q.swapRemoveAt 0
    let q ← q.heapify cmp 0
    return (q, some (id, value))

def remove (q : PriorityQueue V) (id : Nat) : Except Fault (PriorityQueue V × Option (Nat × V)) :=
  match q.map.get id with
  | some (pos, _) => do
    let (q, id, value) ← q.swapRemoveAt pos
    if pos < q.heap.length then
      let q ← q.upHeapify cmp pos
      return (q, some (id, value))
    else return (q, some (id, value))
  | none => .ok (q, none)

/-- `change_priority`, with the value it replaces. -/
def changePriority (q : PriorityQueue V) (id : Nat) (newPriority : V) :
    Except Fault (PriorityQueue V × Option V) :=
  match q.map.get id with
  | some (position, priority) => do
    let q ← upHeapify cmp { q with map := q.map.write id (position, newPriority) } position
    return (q, some priority)
  | none => .ok (q, none)

def changePriorityBy (q : PriorityQueue V) (id : Nat) (prioritySetter : V → V) :
    Except Fault (PriorityQueue V × Bool) :=
  match q.map.get id with
  | some (position, priority) => do
    let q ← upHeapify cmp { q with map := q.map.write id (position, prioritySetter priority) }
      position
    return (q, true)
  | none => .ok (q, false)

/-- `map`: change every value, then sift each position in turn. -/
def mapValues (q : PriorityQueue V) (f : V → V) : Except Fault (PriorityQueue V) :=
  (List.range q.heap.length).foldlM (fun q i => q.upHeapify cmp i)
    { q with map := q.map.mapValues fun entry => (entry.1, f entry.2) }

/-- The value written back through a `RefMut` or a `PeekMut`. -/
def setValue (q : PriorityQueue V) (key : Nat) (value : V) : PriorityQueue V :=
  match q.map.get key with
  | some (pos, _) => { q with map := q.map.write key (pos, value) }
  | none => q

def getMut (q : PriorityQueue V) (id : Nat) : Option (RefMut V) :=
  (q.get id).map fun value => { key := id, value := value, modified := false }

/-- `Drop for RefMut`: a modified entry is sifted down from where it stands, never up. -/
def dropRefMut (q : PriorityQueue V) (r : RefMut V) : Except Fault (PriorityQueue V) :=
  if r.modified then
    match (q.setValue r.key r.value).map.get r.key with
    | some (pos, _) => (q.setValue r.key r.value).heapify cmp pos
    | none => .ok (q.setValue r.key r.value)
  else .ok q

def peekMut (q : PriorityQueue V) : Except Fault (Option (RefMut V)) :=
  match q.heap[0]? with
  | none => .ok none
  | some id => do
    let entry ← q.map.getUnchecked id
    return some { key := id, value := entry.2, modified := false }

/-- `Drop for PeekMut`. -/
def dropPeekMut (q : PriorityQueue V) (r : RefMut V) : Except Fault (PriorityQueue V) :=
  if r.modified then (q.setValue r.key r.value).heapify cmp 0 else .ok q

end Order
end PriorityQueue
end GridServer
