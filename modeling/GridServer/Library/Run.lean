import GridServer.Library.Fallible

namespace GridServer.Library

variable {ε σ ι ο : Type}

/-- A run of a machine that takes events and puts out messages. It records the events in the
order they were taken and the messages in the order they were put out; every event meets
`meets` in the state that takes it. -/
inductive Run (step : σ → ι → Except ε (σ × List ο)) (meets : σ → ι → Prop) (s : σ) :
    List ι → List ο → σ → Prop where
  | nil : Run step meets s [] [] s
  | snoc {es : List ι} {out out' : List ο} {t u : σ} {e : ι} (before : Run step meets s es out t)
      (met : meets t e) (taken : step t e = .ok (u, out')) :
      Run step meets s (es ++ [e]) (out ++ out') u

variable {step : σ → ι → Except ε (σ × List ο)} {meets meets' : σ → ι → Prop}

/-- A property of the events, the messages and the state that every step keeps holds at the end
of every run. -/
theorem Run.invariant {s : σ} {I : List ι → List ο → σ → Prop} (start : I [] [] s)
    (keep : ∀ es out t e u out', I es out t → meets t e → step t e = .ok (u, out') →
      I (es ++ [e]) (out ++ out') u)
    {es : List ι} {out : List ο} {t : σ} (run : Run step meets s es out t) : I es out t := by
  induction run with
  | nil => exact start
  | snoc _ met taken ih => exact keep _ _ _ _ _ _ ih met taken

/-- The state part of `Run.invariant`. -/
theorem Run.preserves {s : σ} {I : σ → Prop} (start : I s)
    (keep : ∀ t e u out, I t → meets t e → step t e = .ok (u, out) → I u)
    {es : List ι} {out : List ο} {t : σ} (run : Run step meets s es out t) : I t :=
  run.invariant (I := fun _ _ t => I t) start (fun _ _ t e u out => keep t e u out)

theorem Run.weaken (h : ∀ t e, meets t e → meets' t e) {s t : σ} {es : List ι} {out : List ο}
    (run : Run step meets s es out t) : Run step meets' s es out t := by
  induction run with
  | nil => exact .nil
  | snoc _ met taken ih => exact .snoc ih (h _ _ met) taken

theorem Run.single {s t : σ} {e : ι} {out : List ο} (met : meets s e)
    (taken : step s e = .ok (t, out)) : Run step meets s [e] out t :=
  .snoc .nil met taken

theorem Run.of_nil {s t : σ} {out : List ο} (run : Run step meets s [] out t) :
    t = s ∧ out = [] := by
  obtain ⟨es, he⟩ : ∃ es : List ι, es = [] := ⟨_, rfl⟩
  rw [← he] at run
  cases run with
  | nil => exact ⟨rfl, rfl⟩
  | snoc before met taken => exact absurd he (List.append_ne_nil_of_right_ne_nil _ (by simp))

/-- A run of one event is its step. -/
theorem Run.of_single {s t : σ} {e : ι} {out : List ο} (run : Run step meets s [e] out t) :
    step s e = .ok (t, out) := by
  obtain ⟨es, he⟩ : ∃ es, es = [e] := ⟨_, rfl⟩
  rw [← he] at run
  cases run with
  | nil => cases he
  | snoc before met taken =>
    obtain ⟨rfl, hlast⟩ := List.append_inj' (he.trans (List.nil_append [e]).symm) rfl
    obtain ⟨rfl, rfl⟩ := before.of_nil
    cases hlast
    exact taken

theorem Run.append {s t u : σ} {es es' : List ι} {out out' : List ο}
    (first : Run step meets s es out t) (second : Run step meets t es' out' u) :
    Run step meets s (es ++ es') (out ++ out') u := by
  induction second with
  | nil => simpa using first
  | snoc _ met taken ih =>
    rw [← List.append_assoc, ← List.append_assoc]
    exact .snoc ih met taken

section History
variable {γ : Type} {note : γ → σ → ι → List ο → γ}

/-- What a history variable holds after the events: every step adds to it what it finds before
the step, with the messages it puts out. The steps themselves never see it. -/
def history (step : σ → ι → Except ε (σ × List ο)) (note : γ → σ → ι → List ο → γ) :
    γ → σ → List ι → γ
  | g, _, [] => g
  | g, s, e :: es =>
    match step s e with
    | .ok (t, out) => history step note (note g s e out) t es
    | .error _ => g

theorem history_append {s t : σ} {es : List ι} {out : List ο} (run : Run step meets s es out t)
    (g : γ) (later : List ι) :
    history step note g s (es ++ later) =
      history step note (history step note g s es) t later := by
  induction run generalizing later with
  | nil => rfl
  | snoc before met taken ih =>
    rw [List.append_assoc, ih, ih]
    simp only [List.cons_append, List.nil_append, history, taken]

theorem history_snoc {s t u : σ} {es : List ι} {out out' : List ο} {e : ι}
    (run : Run step meets s es out t) (taken : step t e = .ok (u, out')) (g : γ) :
    history step note g s (es ++ [e]) = note (history step note g s es) t e out' := by
  rw [history_append run]
  simp only [history, taken]

variable (note) in
/-- The rule of `Run.invariant` for an invariant that also speaks of a history variable. -/
theorem Run.invariant_history {s : σ} {I : γ → List ι → List ο → σ → Prop} {g : γ}
    (start : I g [] [] s)
    (keep : ∀ g es out t e u out', I g es out t → meets t e → step t e = .ok (u, out') →
      I (note g t e out') (es ++ [e]) (out ++ out') u)
    {es : List ι} {out : List ο} {t : σ} (run : Run step meets s es out t) :
    I (history step note g s es) es out t := by
  induction run with
  | nil => exact start
  | snoc before met taken ih =>
    rw [history_snoc before taken]
    exact keep _ _ _ _ _ _ _ ih met taken

/-- The machine with the history variable beside its state, for conditions that speak of both. -/
def noted (step : σ → ι → Except ε (σ × List ο)) (note : γ → σ → ι → List ο → γ) (p : σ × γ)
    (e : ι) : Except ε ((σ × γ) × List ο) := do
  let (t, out) ← step p.1 e
  return ((t, note p.2 p.1 e out), out)

theorem noted_ok {p q : σ × γ} {e : ι} {out : List ο} :
    noted step note p e = .ok (q, out) ↔ step p.1 e = .ok (q.1, out) ∧ q.2 = note p.2 p.1 e out := by
  obtain ⟨t, g⟩ := q
  simp only [noted, bind_ok, except_pure, Except.ok.injEq, Prod.mk.injEq]
  constructor
  · rintro ⟨⟨t', out'⟩, h, ⟨rfl, rfl⟩, rfl⟩
    exact ⟨h, rfl⟩
  · rintro ⟨h, rfl⟩
    exact ⟨(t, out), h, ⟨rfl, rfl⟩, rfl⟩

/-- The variable changes nothing about the runs, and holds what the history does. -/
theorem Run.of_noted {meets : σ × γ → ι → Prop} {p q : σ × γ} {es : List ι} {out : List ο}
    (run : Run (noted step note) meets p es out q) :
    Run step (fun _ _ => True) p.1 es out q.1 ∧ q.2 = history step note p.2 p.1 es := by
  induction run with
  | nil => exact ⟨.nil, rfl⟩
  | snoc before met taken ih =>
    obtain ⟨run, hg⟩ := ih
    obtain ⟨htaken, hnote⟩ := noted_ok.mp taken
    refine ⟨.snoc run trivial htaken, ?_⟩
    rw [history_snoc run htaken, hnote, hg]

end History

/-- Take a list of events one after another, as long as each meets `meets`. -/
def runWhile (step : σ → ι → Except ε (σ × List ο)) (meets : σ → ι → Prop)
    [∀ s e, Decidable (meets s e)] (s : σ) : List ι → Option (σ × List ο)
  | [] => some (s, [])
  | e :: es =>
    if meets s e then
      match step s e with
      | .ok (t, out) => (runWhile step meets t es).map fun r => (r.1, out ++ r.2)
      | .error _ => none
    else none

/-- What `runWhile` computes is a run. -/
theorem run_of_runWhile [∀ s e, Decidable (meets s e)] {s t : σ} {es : List ι} {out : List ο}
    (h : runWhile step meets s es = some (t, out)) : Run step meets s es out t := by
  induction es generalizing s out with
  | nil =>
    simp only [runWhile, Option.some.injEq, Prod.mk.injEq] at h
    obtain ⟨rfl, rfl⟩ := h
    exact .nil
  | cons e es ih =>
    unfold runWhile at h
    split at h
    · rename_i met
      split at h
      · rename_i u first taken
        obtain ⟨⟨v, rest⟩, later, he⟩ := Option.map_eq_some_iff.mp h
        obtain ⟨rfl, rfl⟩ := Prod.mk.inj he
        exact (Run.single met taken).append (ih later)
      · cases h
    · cases h

/-- A check of what `runWhile` computes is a statement about a run. -/
theorem exists_run (step : σ → ι → Except ε (σ × List ο)) (meets : σ → ι → Prop)
    [∀ s e, Decidable (meets s e)] (s : σ) (es : List ι) (p : σ × List ο → Bool)
    (h : (runWhile step meets s es).any p = true) :
    ∃ t out, Run step meets s es out t ∧ p (t, out) = true := by
  cases hr : runWhile step meets s es with
  | none =>
    rw [hr] at h
    cases h
  | some r =>
    rw [hr] at h
    exact ⟨r.1, r.2, run_of_runWhile hr, h⟩

end GridServer.Library
