import GridServer.Library.Fallible

namespace GridServer.Library

variable {ε σ α : Type}

/-- `Iterator::next_chunk`: the next `n` items, or else the fewer that are left. -/
def nextChunk (next : σ → Except ε (Option α × σ)) :
    Nat → σ → Except ε (Except (List α) (List α) × σ)
  | 0, s => .ok (.ok [], s)
  | n + 1, s => do
    let (item, s) ← next s
    match item with
    | none => return (.error [], s)
    | some a =>
      let (rest, s) ← nextChunk next n s
      match rest with
      | .ok as => return (.ok (a :: as), s)
      | .error as => return (.error (a :: as), s)

/-- The iterator gives the items one after another and comes from `s` to `t`. -/
inductive Yields (next : σ → Except ε (Option α × σ)) : σ → List α → σ → Prop where
  | nil (s : σ) : Yields next s [] s
  | cons {s t u : σ} {a : α} {as : List α} (first : next s = .ok (some a, t))
      (rest : Yields next t as u) : Yields next s (a :: as) u

variable {next : σ → Except ε (Option α × σ)} {n : Nat} {s t : σ} {as : List α}

/-- What every state keeps and says of its next item holds of all items. -/
theorem Yields.forall {I : σ → Prop} {P : α → Prop}
    (step : ∀ s a t, I s → next s = .ok (some a, t) → P a ∧ I t) (y : Yields next s as t)
    (start : I s) : ∀ a ∈ as, P a := by
  induction y with
  | nil => exact fun a ha => absurd ha List.not_mem_nil
  | @cons s t u a as first rest ih =>
    obtain ⟨ha, ht⟩ := step s a t start first
    intro b hb
    rcases List.mem_cons.mp hb with rfl | hb
    · exact ha
    · exact ih ht b hb

/-- A full chunk has the next `n` items. -/
theorem yields_of_full (h : nextChunk next n s = .ok (.ok as, t)) :
    Yields next s as t ∧ as.length = n := by
  induction n generalizing s as with
  | zero =>
    simp only [nextChunk, Except.ok.injEq, Prod.mk.injEq] at h
    obtain ⟨rfl, rfl⟩ := h
    exact ⟨.nil s, rfl⟩
  | succ n ih =>
    simp only [nextChunk, bind_ok] at h
    obtain ⟨⟨item, u⟩, hfirst, h⟩ := h
    cases item with
    | none => simp at h
    | some a =>
      obtain ⟨⟨rest, v⟩, hrest, h⟩ := bind_ok.mp h
      cases rest with
      | error as' => simp at h
      | ok as' =>
        simp only [except_pure, Except.ok.injEq, Prod.mk.injEq] at h
        obtain ⟨rfl, rfl⟩ := h
        obtain ⟨hyields, hlength⟩ := ih hrest
        exact ⟨.cons hfirst hyields, by simp [hlength]⟩

/-- A chunk that is not full has all items that were left. -/
theorem yields_of_left (h : nextChunk next n s = .ok (.error as, t)) :
    ∃ u, Yields next s as u ∧ next u = .ok (none, t) := by
  induction n generalizing s as with
  | zero => simp [nextChunk] at h
  | succ n ih =>
    simp only [nextChunk, bind_ok] at h
    obtain ⟨⟨item, u⟩, hfirst, h⟩ := h
    cases item with
    | none =>
      simp only [except_pure, Except.ok.injEq, Prod.mk.injEq, Except.error.injEq] at h
      obtain ⟨rfl, rfl⟩ := h
      exact ⟨s, .nil s, hfirst⟩
    | some a =>
      obtain ⟨⟨rest, v⟩, hrest, h⟩ := bind_ok.mp h
      cases rest with
      | ok as' => simp at h
      | error as' =>
        simp only [except_pure, Except.ok.injEq, Prod.mk.injEq, Except.error.injEq] at h
        obtain ⟨rfl, rfl⟩ := h
        obtain ⟨w, hyields, hend⟩ := ih hrest
        exact ⟨w, .cons hfirst hyields, hend⟩

/-- What every item keeps, a chunk keeps. -/
theorem nextChunk_keeps {I : σ → Prop} (keep : ∀ s item t, next s = .ok (item, t) → I s → I t)
    {chunk : Except (List α) (List α)} (h : nextChunk next n s = .ok (chunk, t)) (start : I s) :
    I t := by
  induction n generalizing s t chunk with
  | zero =>
    simp only [nextChunk, Except.ok.injEq, Prod.mk.injEq] at h
    exact h.2 ▸ start
  | succ n ih =>
    simp only [nextChunk, bind_ok] at h
    obtain ⟨⟨item, u⟩, hfirst, h⟩ := h
    have hkept := keep s item u hfirst start
    cases item with
    | none =>
      simp only [except_pure, Except.ok.injEq, Prod.mk.injEq] at h
      exact h.2 ▸ hkept
    | some a =>
      obtain ⟨⟨rest, v⟩, hrest, h⟩ := bind_ok.mp h
      have hv := ih hrest hkept
      cases rest with
      | ok as' =>
        simp only [except_pure, Except.ok.injEq, Prod.mk.injEq] at h
        exact h.2 ▸ hv
      | error as' =>
        simp only [except_pure, Except.ok.injEq, Prod.mk.injEq] at h
        exact h.2 ▸ hv

/-- Items that come one after another are the next chunk of their number. -/
theorem nextChunk_of_yields (y : Yields next s as t) :
    nextChunk next as.length s = .ok (.ok as, t) := by
  induction y with
  | nil s => rfl
  | cons first rest ih => simp [nextChunk, first, ih]

theorem nextChunk_of_end (h : next s = .ok (none, t)) (n : Nat) :
    nextChunk next (n + 1) s = .ok (.error [], t) := by
  simp [nextChunk, h]

theorem nextChunk_of_left {u : σ} (y : Yields next s as u) (short : as.length < n)
    (done : next u = .ok (none, t)) : nextChunk next n s = .ok (.error as, t) := by
  induction y generalizing n with
  | nil s =>
    obtain ⟨m, rfl⟩ : ∃ m, n = m + 1 := ⟨n - 1, by omega⟩
    exact nextChunk_of_end done m
  | cons first rest ih =>
    rw [List.length_cons] at short
    obtain ⟨m, rfl⟩ : ∃ m, n = m + 1 := ⟨n - 1, by omega⟩
    have hrest := ih (n := m) (by omega) done
    simp [nextChunk, first, hrest]

/-- The iterator goes through numbered states and gives one item in each but the last. -/
structure Enumerates (next : σ → Except ε (Option α × σ)) (state : ℕ → σ) (item : ℕ → α)
    (total : ℕ) : Prop where
  item : ∀ k < total, next (state k) = .ok (some (item k), state (k + 1))
  done : next (state total) = .ok (none, state total)

namespace Enumerates
variable {state : ℕ → σ} {item : ℕ → α} {total k : ℕ}

theorem yields (e : Enumerates next state item total) (h : k + n ≤ total) :
    Yields next (state k) ((List.range' k n).map item) (state (k + n)) := by
  induction n generalizing k with
  | zero => exact .nil _
  | succ n ih =>
    have hrest := ih (k := k + 1) (by omega)
    rw [Nat.add_right_comm, Nat.add_assoc] at hrest
    rw [List.range'_succ, List.map_cons]
    exact .cons (e.item k (by omega)) hrest

/-- Its next chunk, in a state that is not past the last. -/
theorem nextChunk (e : Enumerates next state item total) (h : k ≤ total) (n : ℕ) :
    (k + n ≤ total ∧ nextChunk next n (state k) =
        .ok (.ok ((List.range' k n).map item), state (k + n))) ∨
      (total < k + n ∧ nextChunk next n (state k) =
        .ok (.error ((List.range' k (total - k)).map item), state total)) := by
  by_cases hfull : k + n ≤ total
  · have hchunk := nextChunk_of_yields (e.yields hfull)
    rw [List.length_map, List.length_range'] at hchunk
    exact .inl ⟨hfull, hchunk⟩
  · have hyields := e.yields (k := k) (n := total - k) (by omega)
    rw [Nat.add_sub_cancel' h] at hyields
    have hshort : ((List.range' k (total - k)).map item).length < n := by
      rw [List.length_map, List.length_range']
      omega
    exact .inr ⟨by omega, nextChunk_of_left hyields hshort e.done⟩

end Enumerates

end GridServer.Library
