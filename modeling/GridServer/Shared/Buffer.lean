import GridServer.Shared.Fault

namespace GridServer
open Library

/-- A buffer of `N` slots, of which the first `filled` have been written since the last `clear`.
An unwritten slot is `none`. -/
structure Buffer (T : Type) (N : Nat) where
  filled : Nat
  data : List (Option T)
  slots : data.length = N
  written : ∀ i < filled, ∃ item, data[i]? = some (some item)

/-- `array_assume_init` and `slice_assume_init_ref`: reading an unwritten slot is forbidden. -/
def assumeInit {T : Type} : List (Option T) → Except Fault (List T)
  | [] => .ok []
  | none :: _ => .error .undefinedBehaviour
  | some item :: rest => do
    let items ← assumeInit rest
    return item :: items

theorem assumeInit_map {T : Type} (items : List T) : assumeInit (items.map some) = .ok items := by
  induction items with
  | nil => rfl
  | cons item items ih => simp [assumeInit, ih]

namespace Buffer
variable {T : Type} {N : Nat}

/-- The slots that hold a result of `push`. -/
def contents (b : Buffer T N) : List T := (b.data.take b.filled).filterMap id

theorem filled_le (b : Buffer T N) : b.filled ≤ N := by
  by_contra h
  obtain ⟨_, hi⟩ := b.written N (by omega)
  have hlt := (List.getElem?_eq_some_iff.mp hi).1
  rw [b.slots] at hlt
  exact Nat.lt_irrefl _ hlt

/-- The written slots are the contents, in order. -/
theorem take_filled (b : Buffer T N) : b.data.take b.filled = b.contents.map some := by
  have hall : ∀ slot ∈ b.data.take b.filled, ∃ item, slot = some item := by
    intro slot hm
    obtain ⟨i, hi⟩ := List.getElem?_of_mem hm
    rw [List.getElem?_take] at hi
    split at hi
    · rename_i hlt
      obtain ⟨item, hw⟩ := b.written i hlt
      rw [hw, Option.some.injEq] at hi
      exact ⟨item, hi.symm⟩
    · cases hi
  unfold contents
  generalize b.data.take b.filled = slots at hall
  induction slots with
  | nil => rfl
  | cons slot slots ih =>
    obtain ⟨item, rfl⟩ := hall slot List.mem_cons_self
    rw [ih fun s hs => hall s (List.mem_cons_of_mem _ hs)]
    simp

theorem length_contents (b : Buffer T N) : b.contents.length = b.filled := by
  have h := congrArg List.length b.take_filled
  rw [List.length_take, List.length_map, b.slots] at h
  have := b.filled_le
  omega

def new : Buffer T N :=
  { filled := 0, data := List.replicate N none, slots := by simp, written := by simp }

/-- `data[i].write(item)` and `filled = i + 1`, for the first unwritten slot `i`. -/
def write (data : List (Option T)) (slots : data.length = N) (i : Nat) (item : T)
    (written : ∀ j < i, ∃ item, data[j]? = some (some item)) (h : i < N) : Buffer T N :=
  { filled := i + 1
    data := data.set i (some item)
    slots := by rw [List.length_set, slots]
    written := by
      intro j hj
      rw [List.getElem?_set]
      by_cases he : i = j
      · subst he
        exact ⟨item, by simp [slots, h]⟩
      · simp only [he, ↓reduceIte]
        exact written j (by omega) }

/-- A push to a full buffer hands over its contents first. Writing past the last slot of a
buffer with no slots at all panics. -/
def push (b : Buffer T N) (item : T) : Except Fault (Buffer T N × Option (List T)) :=
  if b.filled = N then do
    let filledBuf ← assumeInit b.data
    if h : 0 < N then
      return (write (List.replicate N none) (by simp) 0 item (by simp) h, some filledBuf)
    else .error .indexOutOfBounds
  else if h : b.filled < N then
    .ok (write b.data b.slots b.filled item b.written h, none)
  else .error .indexOutOfBounds

def filledSlice (b : Buffer T N) : Except Fault (List T) := assumeInit (b.data.take b.filled)

def clear (b : Buffer T N) : Buffer T N := { b with filled := 0, written := by simp }

@[simp] theorem contents_new : (new : Buffer T N).contents = [] := rfl

@[simp] theorem contents_clear (b : Buffer T N) : b.clear.contents = [] := rfl

/-- `filled_slice` never reads an unwritten slot. -/
theorem filledSlice_eq (b : Buffer T N) : b.filledSlice = .ok b.contents := by
  rw [filledSlice, take_filled, assumeInit_map]

/-- `push` never hands over an unwritten slot. A full buffer is handed over whole and starts
again with the one item; any other grows by it. -/
theorem push_eq (b : Buffer T N) (item : T) (h : 0 < N) :
    ∃ b', (b.contents.length = N ∧ b.push item = .ok (b', some b.contents) ∧
          b'.contents = [item]) ∨
        (b.contents.length < N ∧ b.push item = .ok (b', none) ∧
          b'.contents = b.contents ++ [item]) := by
  have hle := b.filled_le
  rw [length_contents]
  by_cases hf : b.filled = N
  · have hdata : b.data = b.contents.map some := by
      rw [← take_filled, List.take_of_length_le (Nat.le_of_eq (b.slots.trans hf.symm))]
    refine ⟨write (List.replicate N none) (by simp) 0 item (by simp) h, .inl ⟨hf, ?_, ?_⟩⟩
    · have hread : assumeInit b.data = .ok b.contents := by
        conv_lhs => rw [hdata]
        exact assumeInit_map _
      simp [push, hf, hread, h]
    · obtain ⟨n, rfl⟩ : ∃ n, N = n + 1 := ⟨N - 1, by omega⟩
      simp [contents, write, List.replicate_succ]
  · have hlt : b.filled < N := by omega
    refine ⟨write b.data b.slots b.filled item b.written hlt, .inr ⟨hlt, ?_, ?_⟩⟩
    · simp [push, hf, hlt]
    · have htake : (b.data.set b.filled (some item)).take (b.filled + 1) =
          b.data.take b.filled ++ [some item] := by
        rw [List.take_add_one, List.getElem?_set_self (by rw [b.slots]; exact hlt),
          List.take_set_of_le (Nat.le_refl _)]
        rfl
      simp only [contents, write, htake, List.filterMap_append]
      rfl

/-- What is handed over and what stays are what was there and the item, which comes last. -/
theorem push_content {b b' : Buffer T N} {item : T} {batch : Option (List T)} (hN : 0 < N)
    (h : b.push item = .ok (b', batch)) :
    batch.toList.flatten ++ b'.contents = b.contents ++ [item] ∧
      b'.contents.getLast? = some item := by
  obtain ⟨b₁, hb⟩ := b.push_eq item hN
  cases hb with
  | inl hb =>
    obtain ⟨_, hpush, hcontents⟩ := hb
    rw [hpush, Except.ok.injEq, Prod.mk.injEq] at h
    obtain ⟨rfl, rfl⟩ := h
    simp [hcontents]
  | inr hb =>
    obtain ⟨_, hpush, hcontents⟩ := hb
    rw [hpush, Except.ok.injEq, Prod.mk.injEq] at h
    obtain ⟨rfl, rfl⟩ := h
    simp [hcontents]

end Buffer
end GridServer
