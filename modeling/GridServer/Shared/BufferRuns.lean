import GridServer.Library.Chunk
import GridServer.Shared.Buffer

namespace GridServer
open Library

/-- What `into_iter` makes of a buffer. -/
structure BufferIter (T : Type) where
  filled : Nat
  cursor : Nat
  data : List (Option T)

/-- The item at the cursor, which `next` leaves where it is. -/
def BufferIter.next {T : Type} (iter : BufferIter T) : Except Fault (Option T × BufferIter T) :=
  if iter.cursor < iter.filled then
    match iter.data[iter.cursor]? with
    | some (some item) => .ok (some item, iter)
    | _ => .error .undefinedBehaviour
  else .ok (none, iter)

namespace Buffer
variable {T : Type} {N : Nat}

def intoIter (b : Buffer T N) : BufferIter T := ⟨b.filled, 0, b.data⟩

/-- `From<[T; N]>`. -/
def ofArray (value : List T) (h : value.length = N) : Buffer T N :=
  { filled := N
    data := value.map some
    slots := by rw [List.length_map, h]
    written := by
      intro i hi
      rw [List.getElem?_map, List.getElem?_eq_getElem (h ▸ hi)]
      exact ⟨_, rfl⟩ }

/-- Push items one after another, with the batches that are handed over. -/
def pushAll (b : Buffer T N) : List T → Except Fault (Buffer T N × List (List T))
  | [] => .ok (b, [])
  | item :: items => do
    let (b, batch) ← b.push item
    let (b, batches) ← pushAll b items
    return (b, batch.toList ++ batches)

/-- The buffers that `new`, `From`, `push` and `clear` make. -/
inductive Reachable : Buffer T N → Prop where
  | new : Reachable new
  | ofArray (value : List T) (h : value.length = N) : Reachable (ofArray value h)
  | push {b b' : Buffer T N} {item : T} {batch : Option (List T)} (before : Reachable b)
      (pushed : b.push item = .ok (b', batch)) : Reachable b'
  | clear {b : Buffer T N} (before : Reachable b) : Reachable b.clear

@[simp] theorem contents_ofArray (value : List T) (h : value.length = N) :
    (ofArray value h).contents = value := by
  subst h
  simp only [contents, ofArray]
  rw [List.take_of_length_le (by simp), List.filterMap_map]
  exact List.filterMap_some

/-- An array is all written. -/
theorem filledSlice_ofArray (value : List T) (h : value.length = N) :
    (ofArray value h).filledSlice = .ok value := by rw [filledSlice_eq, contents_ofArray]

/-- A batch is handed over by a full buffer only, so each has `N` items, and what is handed over
and what stays are all that was pushed. -/
theorem pushAll_eq (b : Buffer T N) (items : List T) (hN : 0 < N) :
    ∃ b' batches, b.pushAll items = .ok (b', batches) ∧
      batches.flatten ++ b'.contents = b.contents ++ items ∧
      (∀ batch ∈ batches, batch.length = N) ∧
      (items ≠ [] → b'.contents.getLast? = items.getLast?) := by
  induction items generalizing b with
  | nil => exact ⟨b, [], rfl, by simp, by simp, fun h => absurd rfl h⟩
  | cons item items ih =>
    obtain ⟨b₁, hpush⟩ := b.push_eq item hN
    obtain ⟨b', batches, hrest, hcontents, hlength, hlast⟩ := ih b₁
    obtain ⟨batch, hpush, hall⟩ : ∃ batch, b.push item = .ok (b₁, batch) ∧
        ∀ full ∈ batch.toList, full.length = N := by
      rcases hpush with ⟨hfull, hpush, _⟩ | ⟨_, hpush, _⟩
      · exact ⟨_, hpush, by simp [hfull]⟩
      · exact ⟨_, hpush, by simp⟩
    obtain ⟨hkept, hitem⟩ := push_content hN hpush
    refine ⟨b', batch.toList ++ batches, by simp [pushAll, hpush, hrest], ?_, ?_, ?_⟩
    · calc
        (batch.toList ++ batches).flatten ++ b'.contents =
            batch.toList.flatten ++ (batches.flatten ++ b'.contents) := by simp
        _ = batch.toList.flatten ++ b₁.contents ++ items := by rw [hcontents, List.append_assoc]
        _ = b.contents ++ item :: items := by rw [hkept]; simp
    · intro full hfull
      rcases List.mem_append.mp hfull with hfull | hfull
      · exact hall full hfull
      · exact hlength full hfull
    · intro _
      cases items with
      | nil =>
        simp only [pushAll, Except.ok.injEq, Prod.mk.injEq] at hrest
        rw [← hrest.1, hitem]
        rfl
      | cons next items =>
        rw [hlast (List.cons_ne_nil _ _), List.getLast?_cons_cons]

/-- After a `clear`, no pushed item is lost, reordered or handed over twice, every batch is a full
one, and the last item stays behind. -/
theorem pushAll_clear (hN : 0 < N) (b : Buffer T N) (items : List T) :
    ∃ b' batches rest, b.clear.pushAll items = .ok (b', batches) ∧ b'.filledSlice = .ok rest ∧
      batches.flatten ++ rest = items ∧ (∀ batch ∈ batches, batch.length = N) ∧
      (items ≠ [] → rest ≠ [] ∧ rest.getLast? = items.getLast?) := by
  obtain ⟨b', batches, hpush, hcontents, hlength, hlast⟩ := b.clear.pushAll_eq items hN
  refine ⟨b', batches, b'.contents, hpush, filledSlice_eq b', by simpa using hcontents, hlength, ?_⟩
  intro hne
  refine ⟨?_, hlast hne⟩
  intro hnil
  have hl := hlast hne
  rw [hnil, List.getLast?_nil, eq_comm, List.getLast?_eq_none_iff] at hl
  exact hne hl

/-- Five pushes to a buffer of three slots. -/
theorem pushAll_clear_three : ∃ b' batches rest,
    (new : Buffer Nat 3).clear.pushAll [1, 2, 3, 4, 5] = .ok (b', batches) ∧
      b'.filledSlice = .ok rest ∧ batches.flatten ++ rest = [1, 2, 3, 4, 5] ∧
      (∀ batch ∈ batches, batch.length = 3) ∧
      ([1, 2, 3, 4, 5] ≠ ([] : List Nat) →
        rest ≠ [] ∧ rest.getLast? = [1, 2, 3, 4, 5].getLast?) :=
  pushAll_clear (by decide) new [1, 2, 3, 4, 5]

/-- `next` on an iterator over a buffer that holds something never comes to an end. -/
theorem intoIter_next {b : Buffer T N} (h : 0 < b.filled) :
    ∃ item, b.intoIter.next = .ok (some item, b.intoIter) := by
  obtain ⟨item, hitem⟩ := b.written 0 h
  exact ⟨item, by simp [BufferIter.next, intoIter, h, hitem]⟩

/-- The iterator over a buffer stays as it was made. -/
theorem intoIter_stays {b : Buffer T N} {items : List T} {iter : BufferIter T}
    (y : Yields BufferIter.next b.intoIter items iter) : iter = b.intoIter := by
  obtain ⟨start, hstart⟩ : ∃ start, start = b.intoIter := ⟨_, rfl⟩
  rw [← hstart] at y
  induction y with
  | nil => exact hstart
  | cons first rest ih =>
    subst hstart
    refine ih ?_
    unfold BufferIter.next at first
    split at first
    · split at first
      · exact (Prod.mk.inj (Except.ok.inj first)).2.symm
      · cases first
    · cases first

/-- Iteration ends with the items of `filled_slice`, in order and each once, exactly when there
are none. -/
theorem intoIter_yields_iff (b : Buffer T N) :
    (∃ items iter last, b.filledSlice = .ok items ∧ items.length = b.filled ∧
      Yields BufferIter.next b.intoIter items iter ∧ iter.next = .ok (none, last)) ↔
        b.filled = 0 := by
  constructor
  · intro ⟨items, iter, last, _, _, hyields, hend⟩
    rw [intoIter_stays hyields] at hend
    by_contra hne
    obtain ⟨item, hnext⟩ := intoIter_next (Nat.pos_of_ne_zero hne)
    rw [hnext] at hend
    cases hend
  · intro hzero
    refine ⟨[], b.intoIter, b.intoIter, ?_, hzero.symm, .nil _, ?_⟩
    · simp [filledSlice, hzero, assumeInit]
    · simp [BufferIter.next, intoIter, hzero]

/-- After one push the iterator gives that item for ever. -/
theorem intoIter_endless :
    ¬∀ b : Buffer Nat 3, Reachable b → ∃ items iter last, b.filledSlice = .ok items ∧
      items.length = b.filled ∧ Yields BufferIter.next b.intoIter items iter ∧
        iter.next = .ok (none, last) := by
  intro h
  obtain ⟨items, iter, last, _, _, hyields, hend⟩ := h _
    (.push .new (show (new : Buffer Nat 3).push 1 = _ from rfl))
  rw [intoIter_stays hyields] at hend
  cases hend

end Buffer
end GridServer
