import Mathlib.Tactic.Common
import Mathlib.Data.List.Basic

namespace GridServer.Library

variable {ε α β σ : Type}

@[simp] theorem except_pure (a : α) : (pure a : Except ε α) = .ok a := rfl

@[simp] theorem ok_bind (a : α) (f : α → Except ε β) : (Except.ok a >>= f) = f a := rfl

@[simp] theorem error_bind (e : ε) (f : α → Except ε β) :
    ((Except.error e : Except ε α) >>= f) = .error e := rfl

/-- A sequence succeeds exactly when both of its parts do. -/
theorem bind_ok {x : Except ε α} {f : α → Except ε β} {b : β} :
    (x >>= f) = .ok b ↔ ∃ a, x = .ok a ∧ f a = .ok b := by
  cases x <;> simp

theorem toOption_eq_some {x : Except ε α} {a : α} : x.toOption = some a ↔ x = .ok a := by
  cases x <;> simp [Except.toOption]

/-- `x` does not fail with `e`. -/
def Spares (e : ε) (x : Except ε α) : Prop := x ≠ .error e

@[simp] theorem spares_ok (e : ε) (a : α) : Spares e (.ok a : Except ε α) := by simp [Spares]

@[simp] theorem spares_pure (e : ε) (a : α) : Spares e (pure a : Except ε α) := spares_ok e a

@[simp] theorem spares_error {e e' : ε} : Spares e (.error e' : Except ε α) ↔ e' ≠ e := by
  simp [Spares]

instance [DecidableEq ε] (e : ε) (x : Except ε α) : Decidable (Spares e x) :=
  match x with
  | .ok a => .isTrue (spares_ok e a)
  | .error _ => decidable_of_iff _ spares_error.symm

/-- A sequence spares a fault when its first part does, and its second after every success. -/
theorem Spares.bind {e : ε} {x : Except ε α} {f : α → Except ε β} (first : Spares e x)
    (second : ∀ a, x = .ok a → Spares e (f a)) : Spares e (x >>= f) := by
  cases x with
  | ok a => exact second a rfl
  | error e' =>
    rw [error_bind, spares_error]
    exact spares_error.mp first

/-- `x` succeeds. -/
def Succeeds (x : Except ε α) : Prop := ∃ a, x = .ok a

theorem succeeds_ok (a : α) : Succeeds (.ok a : Except ε α) := ⟨a, rfl⟩

theorem succeeds_pure (a : α) : Succeeds (pure a : Except ε α) := succeeds_ok a

theorem Succeeds.bind {x : Except ε α} {f : α → Except ε β} (first : Succeeds x)
    (second : ∀ a, x = .ok a → Succeeds (f a)) : Succeeds (x >>= f) := by
  obtain ⟨a, rfl⟩ := first
  exact second a rfl

/-- All items succeed with the values of a function. -/
theorem mapM_ok {f : α → Except ε β} {g : α → β} {as : List α} (h : ∀ a ∈ as, f a = .ok (g a)) :
    as.mapM f = .ok (as.map g) := by
  induction as with
  | nil => rfl
  | cons a as ih =>
    rw [List.mapM_cons, h a List.mem_cons_self, ok_bind,
      ih fun b hb => h b (List.mem_cons_of_mem _ hb)]
    rfl

theorem Succeeds.of_mapM {f : α → Except ε β} {as : List α} (h : Succeeds (as.mapM f)) :
    ∀ a ∈ as, Succeeds (f a) := by
  induction as with
  | nil => exact fun a ha => absurd ha List.not_mem_nil
  | cons a as ih =>
    obtain ⟨bs, h⟩ := h
    rw [List.mapM_cons] at h
    obtain ⟨b, hfirst, h⟩ := bind_ok.mp h
    obtain ⟨rest, hrest, _⟩ := bind_ok.mp h
    intro c hc
    rcases List.mem_cons.mp hc with rfl | hc
    · exact ⟨b, hfirst⟩
    · exact ih ⟨rest, hrest⟩ c hc

/-- A loop spares a fault when every iteration does under its invariant. -/
theorem foldlM_spares {e : ε} {f : σ → α → Except ε σ} {I : List α → σ → Prop}
    (spares : ∀ a as s, I (a :: as) s → Spares e (f s a))
    (step : ∀ a as s s', I (a :: as) s → f s a = .ok s' → I as s')
    {as : List α} {s : σ} (start : I as s) : Spares e (as.foldlM f s) := by
  induction as generalizing s with
  | nil => exact spares_ok e s
  | cons a as ih =>
    rw [List.foldlM_cons]
    exact (spares a as s start).bind fun s' hs => ih (step a as s s' start hs)

/-- `P` holds of the accumulator and the item at every iteration that the loop reaches. -/
def Always (f : σ → α → Except ε σ) (P : σ → α → Prop) : σ → List α → Prop
  | _, [] => True
  | s, a :: as => P s a ∧ ∀ s', f s a = .ok s' → Always f P s' as

instance Always.decidable (f : σ → α → Except ε σ) (P : σ → α → Prop)
    [∀ s a, Decidable (P s a)] : ∀ (s : σ) (as : List α), Decidable (Always f P s as)
  | _, [] => .isTrue trivial
  | s, a :: as =>
    match h : f s a with
    | .ok s' =>
      have := Always.decidable f P s' as
      decidable_of_iff (P s a ∧ Always f P s' as) (by simp [Always, h])
    | .error _ => decidable_of_iff (P s a) (by simp [Always, h])

theorem always_true (f : σ → α → Except ε σ) (s : σ) (as : List α) :
    Always f (fun _ _ => True) s as := by
  induction as generalizing s with
  | nil => trivial
  | cons a as ih => exact ⟨trivial, fun s' _ => ih s'⟩

/-- The loop rule: an invariant over the items still to come, kept by every iteration that
meets `P`, holds with no items left when the loop ends. -/
theorem foldlM_always {f : σ → α → Except ε σ} {P : σ → α → Prop} {I : List α → σ → Prop}
    (step : ∀ a as s s', P s a → I (a :: as) s → f s a = .ok s' → I as s')
    {as : List α} {s s' : σ} (always : Always f P s as) (start : I as s)
    (run : as.foldlM f s = .ok s') : I [] s' := by
  induction as generalizing s with
  | nil =>
    simp only [List.foldlM_nil, except_pure, Except.ok.injEq] at run
    exact run ▸ start
  | cons a as ih =>
    rw [List.foldlM_cons, bind_ok] at run
    obtain ⟨t, first, rest⟩ := run
    exact ih (always.2 t first) (step a as s t always.1 start first) rest

theorem foldlM_invariant {f : σ → α → Except ε σ} {I : List α → σ → Prop}
    (step : ∀ a as s s', I (a :: as) s → f s a = .ok s' → I as s')
    {as : List α} {s s' : σ} (start : I as s) (run : as.foldlM f s = .ok s') : I [] s' :=
  foldlM_always (P := fun _ _ => True) (fun a as s s' _ => step a as s s')
    (always_true f s as) start run

section Folds
variable {τ γ : Type} {g : τ → γ → τ} {Q : τ → γ → Prop}

/-- `Q` holds of the accumulator and the item at every step of a fold. -/
def Along (g : τ → γ → τ) (Q : τ → γ → Prop) : τ → List γ → Prop
  | _, [] => True
  | t, c :: cs => Q t c ∧ Along g Q (g t c) cs

instance Along.decidable (g : τ → γ → τ) (Q : τ → γ → Prop) [∀ t c, Decidable (Q t c)] :
    ∀ (t : τ) (cs : List γ), Decidable (Along g Q t cs)
  | _, [] => .isTrue trivial
  | t, c :: cs => @instDecidableAnd _ _ _ (Along.decidable g Q (g t c) cs)

theorem along_append {t : τ} {cs cs' : List γ} :
    Along g Q t (cs ++ cs') ↔ Along g Q t cs ∧ Along g Q (cs.foldl g t) cs' := by
  induction cs generalizing t with
  | nil => simp [Along]
  | cons c cs ih => simp [Along, ih, and_assoc]

theorem along_of_forall {t : τ} {cs : List γ} (h : ∀ c ∈ cs, ∀ t, Q t c) : Along g Q t cs := by
  induction cs generalizing t with
  | nil => trivial
  | cons c cs ih =>
    exact ⟨h c List.mem_cons_self t, ih fun c hc => h c (List.mem_cons_of_mem _ hc)⟩

/-- What every step that meets `Q` keeps, a fold of such steps keeps. -/
theorem along_invariant {I : τ → Prop} (keep : ∀ t c, Q t c → I t → I (g t c)) {t : τ}
    {cs : List γ} (along : Along g Q t cs) (start : I t) : I (cs.foldl g t) := by
  induction cs generalizing t with
  | nil => exact start
  | cons c cs ih => exact ih along.2 (keep t c along.1 start)

/-- An invariant that every step keeps, and under which every step meets `Q`. -/
theorem along_of_invariant {I : τ → Prop} {cs : List γ} {t : τ}
    (keep : ∀ c ∈ cs, ∀ t, I t → Q t c ∧ I (g t c)) (start : I t) : Along g Q t cs := by
  induction cs generalizing t with
  | nil => trivial
  | cons c cs ih =>
    obtain ⟨met, kept⟩ := keep c List.mem_cons_self t start
    exact ⟨met, ih (fun c hc => keep c (List.mem_cons_of_mem _ hc)) kept⟩

/-- `Q` along a fold gives whatever it implies under an invariant that it keeps. -/
theorem along_imp {I : τ → Prop} {Q' : τ → γ → Prop} (keep : ∀ t c, Q t c → I t → I (g t c))
    (imp : ∀ t c, Q t c → I t → Q' t c) {cs : List γ} {t : τ} (along : Along g Q t cs)
    (start : I t) : Along g Q' t cs := by
  induction cs generalizing t with
  | nil => trivial
  | cons c cs ih => exact ⟨imp t c along.1 start, ih along.2 (keep t c along.1 start)⟩

variable {f : σ → α → Except ε σ} {R : σ → τ → Prop} {m : α → γ}

/-- A loop follows a fold when each iteration follows one step of it. -/
theorem foldlM_simulates (step : ∀ a s s' t, R s t → f s a = .ok s' → R s' (g t (m a)))
    {as : List α} {s s' : σ} {t : τ} (start : R s t) (run : as.foldlM f s = .ok s') :
    R s' ((as.map m).foldl g t) := by
  induction as generalizing s t with
  | nil =>
    simp only [List.foldlM_nil, except_pure, Except.ok.injEq] at run
    exact run ▸ start
  | cons a as ih =>
    rw [List.foldlM_cons, bind_ok] at run
    obtain ⟨u, first, rest⟩ := run
    exact ih (step a s u t start first) rest

/-- A loop that follows a fold spares a fault that no step of the fold allows. -/
theorem foldlM_spares_along {e : ε}
    (step : ∀ a s s' t, R s t → f s a = .ok s' → R s' (g t (m a)))
    (spares : ∀ a s t, R s t → Q t (m a) → Spares e (f s a))
    {as : List α} {s : σ} {t : τ} (along : Along g Q t (as.map m)) (start : R s t) :
    Spares e (as.foldlM f s) := by
  induction as generalizing s t with
  | nil => exact spares_ok e s
  | cons a as ih =>
    rw [List.foldlM_cons]
    exact (spares a s t start along.1).bind fun s' hs => ih along.2 (step a s s' t start hs)

end Folds

/-- A loop whose every iteration succeeds under its invariant ends. -/
theorem foldlM_total {f : σ → α → Except ε σ} {I : List α → σ → Prop}
    (step : ∀ a as s, I (a :: as) s → ∃ s', f s a = .ok s' ∧ I as s')
    {as : List α} {s : σ} (start : I as s) : ∃ s', as.foldlM f s = .ok s' ∧ I [] s' := by
  induction as generalizing s with
  | nil => exact ⟨s, rfl, start⟩
  | cons a as ih =>
    obtain ⟨t, first, kept⟩ := step a as s start
    obtain ⟨s', rest, done⟩ := ih kept
    exact ⟨s', by rw [List.foldlM_cons, first]; exact rest, done⟩

end GridServer.Library
