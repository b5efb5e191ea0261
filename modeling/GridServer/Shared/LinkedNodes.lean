import GridServer.Library.DoubleEnded
import GridServer.Library.Heap
import GridServer.Shared.LinkedVecMap
import GridServer.Shared.VecMap

namespace GridServer
open Library

namespace VecMap
variable {V : Type} (checks : Bool) (m : VecMap V) (key : Nat) (value : V)

/-- The slots after `extend` by the `key - len + 1` that `key` lacks. -/
def grow : Except Fault (List (Option V)) := do
  if m.v.length ≤ key then
    let gap ← usizeSub checks key m.v.length
    let lacking ← usizeAdd checks gap 1
    return m.v ++ List.replicate lacking none
  else return m.v

/-- `insert` as the build computes it, with the value that it replaces. -/
def insertChecked : Except Fault (VecMap V × Option V) := do
  let v ← m.grow checks key
  match v[key]? with
  | some was =>
    return ({ n := if was.isNone then m.n + 1 else m.n, v := v.set key (some value) }, was)
  | none => .error .indexOutOfBounds

/-- `get_or_insert`, with the value that the reference leads to. -/
def getOrInsertChecked : Except Fault (VecMap V × V) := do
  let v ← m.grow checks key
  if m.v.length ≤ key then
    match v[key]? with
    | some _ => return ({ n := m.n + 1, v := v.set key (some value) }, value)
    | none => .error .undefinedBehaviour
  else
    match v[key]? with
    | some (some was) => return (m, was)
    | some none => return ({ n := m.n + 1, v := v.set key (some value) }, value)
    | none => .error .undefinedBehaviour

end VecMap

namespace Pointers

/-- A raw pointer: null or an address. -/
abbrev Ptr := Option Nat

structure Node (V : Type) where
  next : Ptr
  prev : Ptr
  /-- The key and the value, from when they are written until they are moved out. -/
  entry : Option (Nat × V)

variable {V : Type}

section Access
variable (heap : Heap (Node V)) (p : Ptr)

def deref : Except Fault (Node V) :=
  match p.bind heap.cell with
  | some node => .ok node
  | none => .error .undefinedBehaviour

def assign (f : Node V → Node V) : Except Fault (Heap (Node V)) :=
  match p with
  | some a => if (heap.cell a).isSome then .ok (heap.modify a f) else .error .undefinedBehaviour
  | none => .error .undefinedBehaviour

def setNext (q : Ptr) : Except Fault (Heap (Node V)) := assign heap p fun n => { n with next := q }

def setPrev (q : Ptr) : Except Fault (Heap (Node V)) := assign heap p fun n => { n with prev := q }

def setEntry (e : Option (Nat × V)) : Except Fault (Heap (Node V)) :=
  assign heap p fun n => { n with entry := e }

/-- The key and the value of a node, which are read only once they are written. -/
def readEntry : Except Fault (Nat × V) := do
  let node ← deref heap p
  match node.entry with
  | some e => return e
  | none => .error .undefinedBehaviour

/-- `ptr::read` of the key and of the value, which leaves them uninitialised. -/
def moveOut : Except Fault (Heap (Node V) × (Nat × V)) := do
  let e ← readEntry heap p
  let heap ← setEntry heap p none
  return (heap, e)

/-- `ptr::replace` of the value. -/
def replaceValue (value : V) : Except Fault (Heap (Node V) × V) := do
  let e ← readEntry heap p
  let heap ← setEntry heap p (some (e.1, value))
  return (heap, e.2)

/-- `drop_empty_node`. -/
def dropEmptyNode : Except Fault (Heap (Node V)) := do
  let _ ← deref heap p
  return (p.elim heap heap.free)

/-- `*Box::from_raw(p)`. -/
def fromRaw : Except Fault (Heap (Node V) × (Nat × V)) := do
  let e ← readEntry heap p
  let heap ← dropEmptyNode heap p
  return (heap, e)

end Access

/-- The map with the memory that its nodes are in. -/
structure LinkedVecMap (V : Type) where
  heap : Heap (Node V)
  map : VecMap Ptr
  head : Ptr
  free : Ptr

/-- The loop of `drop_entries`, from `cur` on. -/
def dropFrom (head : Ptr) : Nat → Heap (Node V) → Ptr → Except Fault (Heap (Node V))
  | 0, _, _ => .error .diverged
  | fuel + 1, heap, cur =>
    if cur = head then .ok heap
    else do
      let node ← deref heap cur
      let (heap, _) ← fromRaw heap cur
      dropFrom head fuel heap node.next

/-- The loop of `clear_free_list`. -/
def dropFree : Nat → Heap (Node V) → Ptr → Except Fault (Heap (Node V))
  | 0, _, _ => .error .diverged
  | fuel + 1, heap, free =>
    if free = none then .ok heap
    else do
      let node ← deref heap free
      let heap ← dropEmptyNode heap free
      dropFree fuel heap node.next

/-- An iterator of `iter` and `iter_mut`. -/
structure Iter where
  head : Ptr
  tail : Ptr
  remaining : Nat

/-- `next` and `next_back`. -/
def Iter.step (checks : Bool) (heap : Heap (Node V)) :
    End → Iter → Except Fault (Iter × Option (Nat × V))
  | .front, it =>
    if it.head = it.tail then .ok (it, none)
    else do
      let remaining ← usizeSub checks it.remaining 1
      let r ← readEntry heap it.head
      let node ← deref heap it.head
      return ({ it with head := node.prev, remaining }, some r)
  | .back, it =>
    if it.head = it.tail then .ok (it, none)
    else do
      let remaining ← usizeSub checks it.remaining 1
      let node ← deref heap it.tail
      let r ← readEntry heap node.next
      return ({ it with tail := node.next, remaining }, some r)

/-- An iterator of `drain`, and one of `into_iter`. -/
structure Drain where
  head : Ptr
  tail : Ptr
  remaining : Nat

/-- `next` and `next_back`; `read` is how they get at the item of a node. -/
def Drain.stepBy (read : Heap (Node V) → Ptr → Except Fault (Heap (Node V) × (Nat × V))) :
    End → Heap (Node V) × Drain → Except Fault ((Heap (Node V) × Drain) × Option (Nat × V))
  | e, (heap, d) =>
    if d.remaining = 0 then .ok ((heap, d), none)
    else
      match e with
      | .front => do
        let node ← deref heap d.head
        let (heap, item) ← read heap d.head
        return ((heap, { d with head := node.prev, remaining := d.remaining - 1 }), some item)
      | .back => do
        let node ← deref heap d.tail
        let (heap, item) ← read heap d.tail
        return ((heap, { d with tail := node.next, remaining := d.remaining - 1 }), some item)

/-- `Drain` reads the items out of nodes that are in the free list. -/
def Drain.step : End → Heap (Node V) × Drain →
    Except Fault ((Heap (Node V) × Drain) × Option (Nat × V)) := Drain.stepBy moveOut

/-- `IntoIter` has the same fields, and frees the nodes. -/
def IntoIter.step : End → Heap (Node V) × Drain →
    Except Fault ((Heap (Node V) × Drain) × Option (Nat × V)) := Drain.stepBy fromRaw

namespace LinkedVecMap
variable (checks : Bool) (m : LinkedVecMap V)

def new : LinkedVecMap V := ⟨.empty, .new, none, none⟩

def detach (node : Ptr) : Except Fault (LinkedVecMap V) := do
  let n ← deref m.heap node
  let heap ← setNext m.heap n.prev n.next
  let n ← deref heap node
  let heap ← setPrev heap n.next n.prev
  return { m with heap }

def attach (node : Ptr) : Except Fault (LinkedVecMap V) := do
  let head ← deref m.heap m.head
  let heap ← setNext m.heap node head.next
  let heap ← setPrev heap node m.head
  let heap ← setNext heap m.head node
  let n ← deref heap node
  let heap ← setPrev heap n.next node
  return { m with heap }

def ensureGuardNode : Except Fault (LinkedVecMap V) := do
  if m.head = none then
    let (heap, a) := m.heap.alloc ⟨none, none, none⟩
    let heap ← setNext heap (some a) (some a)
    let heap ← setPrev heap (some a) (some a)
    return { m with heap, head := some a }
  else return m

/-- A node for a new key: a recycled one if there is any, else a new `Box`. -/
def newNode (k : Nat) (v : V) : Except Fault (LinkedVecMap V × Ptr) := do
  if m.free = none then
    let (heap, a) := m.heap.alloc ⟨none, none, some (k, v)⟩
    return ({ m with heap }, some a)
  else
    let node ← deref m.heap m.free
    let heap ← assign m.heap m.free fun _ => ⟨none, none, some (k, v)⟩
    return ({ m with heap, free := node.next }, m.free)

def len : Nat := m.map.n

def isEmpty : Bool := m.len = 0

def get (k : Nat) : Except Fault (Option V) :=
  match m.map.get k with
  | some node => do
    let e ← readEntry m.heap node
    return some e.2
  | none => .ok none

def insert (k : Nat) (v : V) : Except Fault (LinkedVecMap V × Option V) := do
  let m ← m.ensureGuardNode
  match m.map.get k with
  | some node =>
    let (heap, oldVal) ← replaceValue m.heap node v
    let m ← { m with heap }.detach node
    let m ← m.attach node
    return (m, some oldVal)
  | none =>
    let (m, node) ← m.newNode k v
    let (map, _) ← m.map.insertChecked checks k node
    let m ← { m with map }.attach node
    return (m, none)

/-- `OccupiedEntry::insert`. -/
def occupiedInsert (entry : Ptr) (value : V) : Except Fault (LinkedVecMap V × V) := do
  let m ← m.ensureGuardNode
  let (heap, oldVal) ← replaceValue m.heap entry value
  let m ← { m with heap }.detach entry
  let m ← m.attach entry
  return (m, oldVal)

/-- `VacantEntry::insert`, with what the reference leads to. -/
def vacantInsert (key : Nat) (value : V) : Except Fault (LinkedVecMap V × V) := do
  let m ← m.ensureGuardNode
  let (m, node) ← m.newNode key value
  let e ← readEntry m.heap node
  let m ← m.attach node
  let (map, ret) ← m.map.getOrInsertChecked checks e.1 node
  let e ← readEntry m.heap ret
  return ({ m with map }, e.2)

/-- `entry` and then `insert` on what it returns. -/
def entryInsert (k : Nat) (v : V) : Except Fault (LinkedVecMap V × V) :=
  match m.map.get k with
  | some entry => m.occupiedInsert entry v
  | none => m.vacantInsert checks k v

/-- `get_refresh`, with what the reference leads to. -/
def getRefresh (k : Nat) : Except Fault (LinkedVecMap V × Option V) := do
  match m.map.get k with
  | some node =>
    let e ← readEntry m.heap node
    let m ← m.detach node
    let m ← m.attach node
    return (m, some e.2)
  | none => return (m, none)

def remove (k : Nat) : Except Fault (LinkedVecMap V × Option V) := do
  match m.map.get k with
  | some node =>
    let m ← { m with map := m.map.remove k }.detach node
    let heap ← setNext m.heap node m.free
    let (heap, e) ← moveOut heap node
    return ({ m with heap, free := node }, some e.2)
  | none => return ({ m with map := m.map.remove k }, none)

/-- Take out the node at an end of the list, and free it. -/
def popNode (node : Ptr) : Except Fault (LinkedVecMap V × Option (Nat × V)) := do
  let m ← m.detach node
  let e ← readEntry m.heap node
  match m.map.get e.1 with
  | some node =>
    let (heap, e) ← fromRaw m.heap node
    return ({ m with heap, map := m.map.remove e.1 }, some e)
  | none => return ({ m with map := m.map.remove e.1 }, none)

def popFront : Except Fault (LinkedVecMap V × Option (Nat × V)) := do
  if m.isEmpty then return (m, none)
  let head ← deref m.heap m.head
  m.popNode head.prev

def popBack : Except Fault (LinkedVecMap V × Option (Nat × V)) := do
  if m.isEmpty then return (m, none)
  let head ← deref m.heap m.head
  m.popNode head.next

/-- The entry that the map has under the key of a node. -/
def peekNode (node : Ptr) : Except Fault (Option (Nat × V)) := do
  let e ← readEntry m.heap node
  match m.map.get e.1 with
  | some node =>
    let e ← readEntry m.heap node
    return some e
  | none => return none

def front : Except Fault (Option (Nat × V)) := do
  if m.isEmpty then return none
  let head ← deref m.heap m.head
  m.peekNode head.prev

def back : Except Fault (Option (Nat × V)) := do
  if m.isEmpty then return none
  let head ← deref m.heap m.head
  m.peekNode head.next

/-- `drop_entries`. The loop frees a node each time, so it takes no more steps than there are. -/
def dropEntries : Except Fault (Heap (Node V)) := do
  let head ← deref m.heap m.head
  dropFrom m.head (m.heap.top + 1) m.heap head.next

def clearFreeList : Except Fault (LinkedVecMap V) := do
  let heap ← dropFree (m.heap.top + 1) m.heap m.free
  return { m with heap, free := none }

def clear : Except Fault (LinkedVecMap V) := do
  let m := { m with map := m.map.clear }
  if m.head = none then return m
  else
    let heap ← m.dropEntries
    let heap ← setPrev heap m.head m.head
    let heap ← setNext heap m.head m.head
    return { m with heap }

/-- `debug_assert!`, which the builds with overflow checks have. -/
def debugAssert (p : Prop) [Decidable p] : Except Fault Unit :=
  if checks = true ∧ ¬p then .error .panicked else .ok ()

def drain : Except Fault (LinkedVecMap V × Drain) := do
  let len := m.len
  let m := { m with map := m.map.clear }
  if len ≠ 0 then
    debugAssert checks (m.head ≠ none)
    let guard ← deref m.heap m.head
    debugAssert checks (guard.prev ≠ none)
    debugAssert checks (guard.prev ≠ m.head)
    let heap ← setPrev m.heap m.head m.head
    let heap ← setNext heap m.head m.head
    let heap ← setNext heap guard.prev m.free
    let heap ← setPrev heap guard.next none
    return ({ m with heap, free := guard.next }, ⟨guard.prev, guard.next, len⟩)
  else return (m, ⟨none, none, len⟩)

/-- `iter`, and `iter_mut`. -/
def iter : Except Fault Iter := do
  if m.head = none then return ⟨none, m.head, m.len⟩
  else
    let head ← deref m.heap m.head
    return ⟨head.prev, m.head, m.len⟩

/-- `into_iter`, which keeps the nodes of the list only. -/
def intoIter : Except Fault (Heap (Node V) × Drain) := do
  let (head, tail) ← if m.head = none then pure (none, none) else do
    let head ← deref m.heap m.head
    pure (head.prev, head.next)
  let len := m.len
  let heap ← if m.head = none then pure m.heap else dropEmptyNode m.heap m.head
  let m ← { m with heap }.clearFreeList
  return (m.heap, ⟨head, tail, len⟩)

end LinkedVecMap

/-- `Drop` of `Drain`: `for _ in self {}`. -/
def Drain.drop : Nat → Heap (Node V) → Drain → Except Fault (Heap (Node V))
  | 0, _, _ => .error .diverged
  | fuel + 1, heap, d => do
    let ((heap, d), item) ← Drain.step .front (heap, d)
    match item with
    | some _ => Drain.drop fuel heap d
    | none => return heap

namespace LinkedVecMap
variable (checks : Bool) (m : LinkedVecMap V)

/-- `drain` and a mix of calls on the iterator, which is then dropped or forgotten. -/
def drainWith (ends : List End) (forgotten : Bool) :
    Except Fault (LinkedVecMap V × List (Option (Nat × V))) := do
  let (m, d) ← m.drain checks
  let ((heap, d), items) ← drive Drain.step ends (m.heap, d)
  let heap ← if forgotten then pure heap else d.drop (d.remaining + 1) heap
  return ({ m with heap }, items)

/-- `iter`, or `iter_mut`, and a mix of calls on the iterator. -/
def iterWith (ends : List End) : Except Fault (List (Option (Nat × V))) := do
  let it ← m.iter
  let (_, items) ← drive (Iter.step checks m.heap) ends it
  return items

def intoIterWith (ends : List End) : Except Fault (List (Option (Nat × V))) := do
  let d ← m.intoIter
  let (_, items) ← drive IntoIter.step ends d
  return items

end LinkedVecMap
end Pointers
end GridServer
