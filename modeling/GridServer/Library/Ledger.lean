import GridServer.Library.SwapRemove
import Mathlib.Logic.Function.Basic

namespace GridServer.Library

/-! Two lists for every pair: what each holder has, and who has each item. -/

variable {W T : Type} [DecidableEq W] [DecidableEq T]

/-- Both sides of the books record every pair equally often. -/
def TwoSided (holds : W → List T) (heldBy : T → List W) : Prop :=
  ∀ w t, (holds w).count t = (heldBy t).count w

namespace TwoSided
variable {holds : W → List T} {heldBy : T → List W}

theorem symm (h : TwoSided holds heldBy) : TwoSided heldBy holds := fun t w => (h w t).symm

/-- An item changes hands on both sides when each side changes by the same amount. -/
theorem update (h : TwoSided holds heldBy) {w : W} {t : T} {ts : List T} {ws : List W}
    (pair : ts.count t = ws.count w)
    (items : ∀ t', t' ≠ t → ts.count t' = (holds w).count t')
    (holders : ∀ w', w' ≠ w → ws.count w' = (heldBy t).count w') :
    TwoSided (Function.update holds w ts) (Function.update heldBy t ws) := by
  intro w' t'
  by_cases hw : w' = w
  · subst hw
    by_cases ht : t' = t
    · subst ht
      rw [Function.update_self, Function.update_self, pair]
    · rw [Function.update_self, Function.update_of_ne ht, items t' ht, h w' t']
  · by_cases ht : t' = t
    · subst ht
      rw [Function.update_self, Function.update_of_ne hw, holders w' hw, h w' t']
    · rw [Function.update_of_ne hw, Function.update_of_ne ht, h w' t']

theorem give (h : TwoSided holds heldBy) (w : W) (t : T) :
    TwoSided (Function.update holds w (holds w ++ [t]))
      (Function.update heldBy t (heldBy t ++ [w])) := by
  apply h.update
  · rw [List.count_append, List.count_append, List.count_singleton_self,
      List.count_singleton_self, h w t]
  · intro t' ht
    rw [List.count_append, List.count_singleton, if_neg (by simpa using Ne.symm ht), Nat.add_zero]
  · intro w' hw
    rw [List.count_append, List.count_singleton, if_neg (by simpa using Ne.symm hw), Nat.add_zero]

theorem release (h : TwoSided holds heldBy) (w : W) (t : T) :
    TwoSided (Function.update holds w (withdraw (holds w) t))
      (Function.update heldBy t (withdraw (heldBy t) w)) := by
  apply h.update
  · simp [count_withdraw, h w t]
  · exact fun t' ht => count_withdraw_of_ne _ ht
  · exact fun w' hw => count_withdraw_of_ne _ hw

/-- An item leaves the books when every holder has let go of it and of nothing else. -/
theorem settle (h : TwoSided holds heldBy) {holds' : W → List T} {t : T}
    (gone : ∀ w, (holds' w).count t = 0)
    (rest : ∀ w t', t' ≠ t → (holds' w).count t' = (holds w).count t') :
    TwoSided holds' (Function.update heldBy t []) := by
  intro w t'
  by_cases ht : t' = t
  · subst ht
    rw [Function.update_self, gone w, List.count_nil]
  · rw [Function.update_of_ne ht, rest w t' ht, h w t']

end TwoSided

/-- Every holder listed lets go of `t`, as often as it is listed. -/
def letGo (t : T) (holds : W → List T) (ws : List W) : W → List T :=
  ws.foldl (fun holds w => Function.update holds w (withdraw (holds w) t)) holds

@[simp] theorem letGo_nil (t : T) (holds : W → List T) : letGo t holds [] = holds := rfl

@[simp] theorem letGo_cons (t : T) (holds : W → List T) (w : W) (ws : List W) :
    letGo t holds (w :: ws) =
      letGo t (Function.update holds w (withdraw (holds w) t)) ws := rfl

theorem count_letGo (t : T) (holds : W → List T) (ws : List W) (w : W) :
    (letGo t holds ws w).count t = (holds w).count t - ws.count w := by
  induction ws generalizing holds with
  | nil => simp
  | cons v ws ih =>
    rw [letGo_cons, ih, List.count_cons]
    by_cases hw : w = v
    · subst hw
      rw [Function.update_self, count_withdraw]
      simp only [↓reduceIte, beq_self_eq_true]
      omega
    · rw [Function.update_of_ne hw]
      simp [Ne.symm hw]

theorem count_letGo_of_ne {t t' : T} (ht : t' ≠ t) (holds : W → List T) (ws : List W) (w : W) :
    (letGo t holds ws w).count t' = (holds w).count t' := by
  induction ws generalizing holds with
  | nil => rfl
  | cons v ws ih =>
    rw [letGo_cons, ih]
    by_cases hw : w = v
    · subst hw
      rw [Function.update_self, count_withdraw_of_ne _ ht]
    · rw [Function.update_of_ne hw]

/-- Everyone who is recorded as holding `t` lets go of it, and `t` leaves the books. -/
theorem TwoSided.letGo {holds : W → List T} {heldBy : T → List W} (h : TwoSided holds heldBy)
    (t : T) : TwoSided (letGo t holds (heldBy t)) (Function.update heldBy t []) := by
  apply h.settle
  · intro w
    rw [count_letGo, h w t, Nat.sub_self]
  · exact fun w t' ht => count_letGo_of_ne ht holds _ w

end GridServer.Library
