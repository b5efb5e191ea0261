import GridServer.Library.Fallible

namespace GridServer.Library

variable {ε σ α : Type}

/-- The end of a sequence that a double-ended iterator is asked for. -/
inductive End where
  /-- `next`. -/
  | front
  /-- `next_back`. -/
  | back
deriving DecidableEq, Repr

/-- What the end holds, and the sequence without it. -/
def End.take : End → List α → Option α × List α
  | .front, as => (as.head?, as.tail)
  | .back, as => (as.getLast?, as.dropLast)

/-- What a mix of calls on the two ends takes, and the items left between them. -/
def takes : List End → List α → List (Option α) × List α
  | [], as => ([], as)
  | e :: es, as => ((e.take as).1 :: (takes es (e.take as).2).1, (takes es (e.take as).2).2)

/-- The items that the calls on one end took, in the order of the calls. -/
def takenAt (e : End) (es : List End) (items : List (Option α)) : List α :=
  (es.zip items).filterMap fun p => if p.1 = e then p.2 else none

/-- Every item is taken once or left: those of the front in order, then those left, then those of
the back against the order. -/
theorem takes_parts (es : List End) (as : List α) :
    takenAt .front es (takes es as).1 ++ (takes es as).2 ++
      (takenAt .back es (takes es as).1).reverse = as := by
  induction es generalizing as with
  | nil => simp [takes, takenAt]
  | cons e es ih =>
    have hrest := ih (e.take as).2
    cases e with
    | front =>
      cases as with
      | nil => simpa [takes, takenAt, End.take] using hrest
      | cons a as =>
        simp only [takes, takenAt, End.take, List.head?_cons, List.tail_cons, List.zip_cons_cons,
          List.filterMap_cons, if_true, reduceCtorEq, if_false, List.cons_append] at hrest ⊢
        rw [hrest]
    | back =>
      rcases List.eq_nil_or_concat' as with rfl | ⟨init, a, rfl⟩
      · simpa [takes, takenAt, End.take] using hrest
      · simp only [takes, takenAt, End.take, List.getLast?_concat, List.dropLast_concat,
          List.zip_cons_cons, List.filterMap_cons, if_true, reduceCtorEq, if_false,
          List.reverse_cons] at hrest ⊢
        rw [← List.append_assoc, hrest]

/-- As many calls as there are items take them all. -/
theorem takes_rest (es : List End) (as : List α) :
    (takes es as).2.length = as.length - es.length := by
  induction es generalizing as with
  | nil => rfl
  | cons e es ih =>
    rw [takes, ih, List.length_cons]
    cases e with
    | front =>
      simp only [End.take, List.length_tail]
      omega
    | back =>
      simp only [End.take, List.length_dropLast]
      omega

/-- What a mix of calls took is what stands at the ends, each item once and in order. -/
def EachOnce (es : List End) (items : List (Option α)) (as : List α) : Prop :=
  items = (takes es as).1 ∧
    ∃ rest, takenAt .front es items ++ rest ++ (takenAt .back es items).reverse = as ∧
      rest.length = as.length - es.length

theorem eachOnce_takes (es : List End) (as : List α) : EachOnce es (takes es as).1 as :=
  ⟨rfl, (takes es as).2, takes_parts es as, takes_rest es as⟩

/-- Call an iterator on its ends, one call after another. -/
def drive (step : End → σ → Except ε (σ × Option α)) :
    List End → σ → Except ε (σ × List (Option α))
  | [], s => .ok (s, [])
  | e :: es, s => do
    let (s, item) ← step e s
    let (s, items) ← drive step es s
    return (s, item :: items)

/-- An iterator each of whose calls takes an item off the sequence takes what `takes` does. -/
theorem drive_takes {step : End → σ → Except ε (σ × Option α)} {R : σ → List α → Prop}
    (follows : ∀ e s as, R s as → ∃ s', step e s = .ok (s', (e.take as).1) ∧ R s' (e.take as).2)
    (es : List End) {s : σ} {as : List α} (start : R s as) :
    ∃ s', drive step es s = .ok (s', (takes es as).1) ∧ R s' (takes es as).2 := by
  induction es generalizing s as with
  | nil => exact ⟨s, rfl, start⟩
  | cons e es ih =>
    obtain ⟨t, first, kept⟩ := follows e s as start
    obtain ⟨s', rest, done⟩ := ih kept
    refine ⟨s', ?_, done⟩
    simp only [drive, first, ok_bind, rest, except_pure, takes]

end GridServer.Library
