import GridServer.Library.Run
import GridServer.Shared.VecMapCalls
import Mathlib.Data.Finmap
import Mathlib.Data.Finset.Sort

namespace GridServer
open Library

namespace VecMap
variable {V : Type}

section Contents

/-- A finite map of values. -/
abbrev Contents (V : Type) := Finmap fun _ : Nat => V

namespace Contents

def modify (c : Contents V) (key : Nat) (write : V → V) : Contents V :=
  match c.lookup key with
  | some value => c.insert key (write value)
  | none => c

def modifyMany (c : Contents V) (keys : List Nat) (write : Nat → V → V) : Contents V :=
  keys.foldl (fun c key => c.modify key (write key)) c

/-- The keys in ascending order. -/
def order (c : Contents V) : List Nat := c.keys.sort

/-- The values in the order of their keys. -/
def values (c : Contents V) : List V := c.order.filterMap c.lookup

/-- The values of these keys, if they differ and all have one. -/
def many (c : Contents V) (keys : List Nat) : Option (List V) :=
  if keys.Nodup then keys.mapM c.lookup else none

/-- The value of a key, or the fault for a key that has none. -/
def demand (c : Contents V) (key : Nat) (fault : Fault) : Except Fault V :=
  match c.lookup key with
  | some value => .ok value
  | none => .error fault

/-- What a call means to the finite map. -/
def call (c : Contents V) : Call V → Except Fault (Contents V × List (Reply V))
  | .get key => return (c, [.value (c.lookup key)])
  | .containsKey key => return (c, [.answer (decide (key ∈ c.keys))])
  | .getMut key write => return (c.modify key write, [.value (c.lookup key)])
  | .getUncheckedMut key write => do
    let value ← c.demand key .undefinedBehaviour
    return (c.modify key write, [.value (some value)])
  | .getManyMut keys write =>
    match c.many keys with
    | some values => return (c.modifyMany keys write, [.values (some values)])
    | none => return (c, [.values none])
  | .getManyUncheckedMut keys write =>
    match c.many keys with
    | some values => return (c.modifyMany keys write, [.values (some values)])
    | none => .error .undefinedBehaviour
  | .getOrInsert key value write =>
    let found := (c.lookup key).getD value
    return (c.insert key (write found), [.value (some found)])
  | .insert key value => return (c.insert key value, [.value (c.lookup key)])
  | .remove key => return (c.erase key, [.value (c.lookup key)])
  | .removeUnchecked key => do
    let was ← c.demand key .undefinedBehaviour
    return (c.erase key, [.value (some was)])
  | .indexMut key write => do
    let value ← c.demand key .unwrapNone
    return (c.modify key write, [.value (some value)])
  | .iter => return (c, [.values (some c.values)])
  | .iterMut write => return (c.modifyMany c.order fun _ => write, [.values (some c.values)])
  | .len => return (c, [.count c.keys.card])
  | .isEmpty => return (c, [.answer (decide (c.keys = ∅))])
  | .clear => return (∅, [.done])
  | .shrinkToFit => return (c, [.done])

end Contents
end Contents

/-- The map has the contents. -/
structure Holds (m : VecMap V) (c : Contents V) : Prop where
  lookup : ∀ key, m.get key = c.lookup key
  count : m.n = c.keys.card

theorem new_holds : Holds (new : VecMap V) ∅ := by
  refine ⟨?_, ?_⟩
  · intro key
    rw [get_new, Finmap.lookup_empty]
  · rw [Finmap.keys_empty, Finset.card_empty]
    rfl

theorem isSome_lookup (c : Contents V) (key : Nat) : (c.lookup key).isSome ↔ key ∈ c.keys := by
  rw [Finmap.lookup_isSome, Finmap.mem_keys]

theorem keys_insert (c : Contents V) (key : Nat) (value : V) :
    (c.insert key value).keys = Insert.insert key c.keys := by
  ext key'
  rw [Finmap.mem_keys, Finmap.mem_insert, Finset.mem_insert, Finmap.mem_keys]

theorem Contents.keys_modify (c : Contents V) (key : Nat) (write : V → V) :
    (c.modify key write).keys = c.keys := by
  unfold modify
  cases hfound : c.lookup key with
  | none => rfl
  | some value =>
    have hpresent : key ∈ c.keys := by
      rw [← isSome_lookup, hfound]
      rfl
    rw [keys_insert, Finset.insert_eq_of_mem hpresent]

theorem Contents.lookup_modify (c : Contents V) (key : Nat) (write : V → V) (key' : Nat) :
    (c.modify key write).lookup key' =
      if key' = key then (c.lookup key').map write else c.lookup key' := by
  unfold modify
  split
  · rename_i value hfound
    split
    · rename_i hkey
      rw [hkey, Finmap.lookup_insert, hfound]
      rfl
    · rename_i hkey
      rw [Finmap.lookup_insert_of_ne _ hkey]
  · rename_i hnone
    split
    · rename_i hkey
      rw [hkey, hnone]
      rfl
    · rfl

theorem Contents.keys_modifyMany (c : Contents V) (keys : List Nat) (write : Nat → V → V) :
    (c.modifyMany keys write).keys = c.keys := by
  induction keys generalizing c with
  | nil => rfl
  | cons key keys ih => exact (ih _).trans (c.keys_modify key (write key))

theorem Contents.lookup_modifyMany {c : Contents V} {keys : List Nat} {write : Nat → V → V}
    (distinct : keys.Nodup) (key : Nat) : (c.modifyMany keys write).lookup key =
      if key ∈ keys then (c.lookup key).map (write key) else c.lookup key := by
  induction keys generalizing c with
  | nil => rfl
  | cons first keys ih =>
    obtain ⟨hfirst, hkeys⟩ := List.nodup_cons.mp distinct
    rw [modifyMany, List.foldl_cons]
    refine (ih hkeys).trans ?_
    rw [lookup_modify]
    by_cases hkey : key = first
    · subst hkey
      rw [if_neg hfirst, if_pos rfl, if_pos List.mem_cons_self]
    · simp only [List.mem_cons, hkey, ↓reduceIte, false_or]

namespace Holds
variable {m : VecMap V} {c : Contents V} {key : Nat}

theorem get_eq (holds : Holds m c) : m.get = fun key => c.lookup key := funext holds.lookup

theorem mem_keys (holds : Holds m c) : key ∈ c.keys ↔ (m.get key).isSome := by
  rw [holds.lookup, isSome_lookup]

theorem insert (holds : Holds m c) (key : Nat) (value : V) :
    Holds (m.insert key value) (c.insert key value) := by
  refine ⟨?_, ?_⟩
  · intro key'
    rw [get_insert]
    by_cases hkey : key' = key
    · subst hkey
      rw [Function.update_self, Finmap.lookup_insert]
    · rw [Function.update_of_ne hkey, Finmap.lookup_insert_of_ne _ hkey, holds.lookup]
  · rw [keys_insert, VecMap.insert]
    cases hfound : m.get key with
    | none =>
      have habsent : key ∉ c.keys := by simp [holds.mem_keys, hfound]
      rw [Finset.card_insert_of_notMem habsent, holds.count]
      rfl
    | some old =>
      have hpresent : key ∈ c.keys := by simp [holds.mem_keys, hfound]
      rw [Finset.insert_eq_of_mem hpresent, holds.count]
      rfl

theorem modify (holds : Holds m c) (key : Nat) (write : V → V) :
    Holds (m.modify key write) (c.modify key write) := by
  unfold VecMap.modify Contents.modify
  rw [holds.lookup]
  cases hfound : c.lookup key with
  | none => exact holds
  | some value =>
    have hpresent : (m.get key).isSome := by rw [holds.lookup, hfound]; rfl
    have hinsert := holds.insert key (write value)
    refine ⟨?_, ?_⟩
    · intro key'
      rw [← hinsert.lookup, get_write hpresent, get_insert]
    · rw [← hinsert.count]
      simp [VecMap.write, VecMap.insert, holds.lookup, hfound]

theorem modifyMany (holds : Holds m c) (keys : List Nat) (write : Nat → V → V) :
    Holds (m.modifyMany keys write) (c.modifyMany keys write) := by
  induction keys generalizing m c with
  | nil => exact holds
  | cons key keys ih => exact ih (holds.modify key (write key))

theorem values (holds : Holds m c) : m.iter = c.values := by
  have hfind : m.get = fun key => c.lookup key := holds.get_eq
  have horder : c.order = (List.range m.v.length).filter fun key => (m.get key).isSome := by
    have hkeys : c.keys =
        ((List.range m.v.length).filter fun key => (m.get key).isSome).toFinset := by
      ext key
      rw [List.mem_toFinset, List.mem_filter, List.mem_range, holds.mem_keys]
      exact (and_iff_right_of_imp lt_of_get).symm
    rw [Contents.order, hkeys, List.toFinset_sort _ (List.nodup_range.filter _)]
    exact (List.pairwise_lt_range.filter _).imp Nat.le_of_lt
  rw [iter_eq, Contents.values, horder, hfind]

theorem mapValues (holds : Holds m c) (write : V → V) :
    Holds (m.mapValues write) (c.modifyMany c.order fun _ => write) := by
  refine ⟨?_, ?_⟩
  · intro key
    have distinct : c.order.Nodup := Finset.sort_nodup _ _
    rw [get_mapValues, Contents.lookup_modifyMany distinct, holds.lookup]
    by_cases hkey : key ∈ c.order
    · rw [if_pos hkey]
    · have hnone : c.lookup key = none := by
        rw [Contents.order, Finset.mem_sort, ← isSome_lookup, Option.not_isSome_iff_eq_none] at hkey
        exact hkey
      rw [if_neg hkey, hnone]
      rfl
  · rw [Contents.keys_modifyMany]
    exact holds.count

theorem remove (holds : Holds m c) (key : Nat) : Holds (m.remove key) (c.erase key) := by
  refine ⟨?_, ?_⟩
  · intro key'
    rw [get_remove]
    by_cases hkey : key' = key
    · subst hkey
      rw [Function.update_self, Finmap.lookup_erase]
    · rw [Function.update_of_ne hkey, Finmap.lookup_erase_ne hkey, holds.lookup]
  · rw [Finmap.keys_erase, VecMap.remove]
    split
    · rename_i hpresent
      rw [Finset.card_erase_of_mem (holds.mem_keys.mpr hpresent), ← holds.count]
    · rename_i habsent
      rw [Finset.erase_eq_of_notMem (mt holds.mem_keys.mp habsent), holds.count]

/-- The count of a map that has something is not zero. -/
theorem removeAt_eq (checks : Bool) (holds : Holds m c) (key : Nat) :
    m.removeAt checks key = .ok (m.remove key, m.get key) := by
  unfold removeAt VecMap.remove
  cases hfound : m.get key with
  | none => rfl
  | some was =>
    have hpresent : key ∈ c.keys := by simp [holds.mem_keys, hfound]
    have hpos : 1 ≤ m.n := holds.count ▸ Finset.card_pos.mpr ⟨key, hpresent⟩
    dsimp only
    rw [usizeSub, subBits_of_le hpos]
    rfl

end Holds

/-- A call on the map and what it means to its contents return the same, or fail in the same way. -/
inductive Agree : Except Fault (VecMap V × List (Reply V)) →
    Except Fault (Contents V × List (Reply V)) → Prop where
  | ok {m : VecMap V} {c : Contents V} {out : List (Reply V)} (holds : Holds m c) :
      Agree (.ok (m, out)) (.ok (c, out))
  | error (fault : Fault) : Agree (.error fault) (.error fault)

section
variable {checks : Bool} {m : VecMap V} {c : Contents V}

theorem Holds.getUnchecked (holds : Holds m c) (key : Nat) :
    m.getUnchecked key = c.demand key .undefinedBehaviour := by
  unfold VecMap.getUnchecked Contents.demand
  have hlookup := holds.lookup key
  cases hfound : c.lookup key with
  | none => simp only [hlookup, hfound]
  | some value => simp only [hlookup, hfound]

theorem Holds.indexMut (holds : Holds m c) (key : Nat) (write : V → V) :
    m.indexMut key write =
      (c.demand key .unwrapNone).map fun value => (m.modify key write, value) := by
  unfold VecMap.indexMut Contents.demand
  rw [holds.lookup]
  cases c.lookup key with
  | none => rfl
  | some value => rfl

/-- A removal that relies on its caller is one that does not, where the caller keeps the promise. -/
theorem Holds.removeUnchecked (checks : Bool) (holds : Holds m c) (key : Nat) :
    m.removeUnchecked checks key =
      (c.demand key .undefinedBehaviour).map fun was => (m.remove key, was) := by
  have hremove := holds.removeAt_eq checks key
  rw [VecMap.removeUnchecked, holds.getUnchecked, Contents.demand]
  unfold removeAt at hremove
  rw [holds.lookup] at hremove
  cases hfound : c.lookup key with
  | none => rfl
  | some was =>
    simp only [hfound, bind_ok, except_pure, Except.ok.injEq, Prod.mk.injEq] at hremove
    obtain ⟨n, hn, hmap, _⟩ := hremove
    rw [ok_bind, hn, ← hmap]
    rfl

theorem Holds.many (holds : Holds m c) (keys : List Nat) (write : Nat → V → V) :
    m.getManyMut keys write =
      (if (c.many keys).isSome then m.modifyMany keys write else m, c.many keys) := by
  refine getManyMut_eq write ?_
  rw [Contents.many, holds.get_eq]

theorem Holds.call (checks : Bool) (holds : Holds m c) {op : Call V} (typed : op.Typed)
    (fits : op.Fits m) : Agree (m.call checks op) (c.call op) := by
  cases op with
  | get key =>
    have hvalue := holds.lookup key
    simp only [VecMap.call, Contents.call, hvalue]
    exact .ok holds
  | containsKey key =>
    have hanswer : m.containsKey key = decide (key ∈ c.keys) := by
      rw [containsKey, eq_comm, Bool.eq_iff_iff, decide_eq_true_eq, holds.mem_keys]
    simp only [VecMap.call, Contents.call, hanswer]
    exact .ok holds
  | getMut key write =>
    have hvalue := holds.lookup key
    simp only [VecMap.call, Contents.call, hvalue]
    exact .ok (holds.modify key write)
  | getUncheckedMut key write =>
    simp only [VecMap.call, Contents.call, holds.getUnchecked]
    cases c.demand key .undefinedBehaviour with
    | error fault => exact .error fault
    | ok value => exact .ok (holds.modify key write)
  | getManyMut keys write =>
    simp only [VecMap.call, Contents.call, holds.many]
    cases c.many keys with
    | none => exact .ok holds
    | some values => exact .ok (holds.modifyMany keys write)
  | getManyUncheckedMut keys write =>
    simp only [VecMap.call, Contents.call, getManyUncheckedMut, holds.many]
    cases c.many keys with
    | none => exact .error _
    | some values => exact .ok (holds.modifyMany keys write)
  | getOrInsert key value write =>
    have hvalue := holds.lookup key
    simp only [VecMap.call, Contents.call, getOrInsert_eq checks (fits key rfl) (typed key rfl),
      hvalue]
    exact .ok (holds.insert key _)
  | insert key value =>
    have hvalue := holds.lookup key
    simp only [VecMap.call, Contents.call, insertAt_eq checks (fits key rfl) (typed key rfl), hvalue]
    exact .ok (holds.insert key value)
  | remove key =>
    have hvalue := holds.lookup key
    simp only [VecMap.call, Contents.call, holds.removeAt_eq, hvalue]
    exact .ok (holds.remove key)
  | removeUnchecked key =>
    simp only [VecMap.call, Contents.call, holds.removeUnchecked]
    cases c.demand key .undefinedBehaviour with
    | error fault => exact .error fault
    | ok was => exact .ok (holds.remove key)
  | indexMut key write =>
    simp only [VecMap.call, Contents.call, holds.indexMut]
    cases c.demand key .unwrapNone with
    | error fault => exact .error fault
    | ok value => exact .ok (holds.modify key write)
  | iter =>
    simp only [VecMap.call, Contents.call, holds.values]
    exact .ok holds
  | iterMut write =>
    simp only [VecMap.call, Contents.call, holds.values]
    exact .ok (holds.mapValues write)
  | len =>
    simp only [VecMap.call, Contents.call, VecMap.len, holds.count]
    exact .ok holds
  | isEmpty =>
    have hempty : m.isEmpty = decide (c.keys = ∅) := by
      rw [isEmpty, holds.count, Bool.eq_iff_iff]
      simp
    simp only [VecMap.call, Contents.call, hempty]
    exact .ok holds
  | clear => exact .ok new_holds
  | shrinkToFit =>
    refine .ok ⟨?_, ?_⟩
    · intro key
      rw [get_shrinkToFit, holds.lookup]
    · rw [shrinkToFit_n, holds.count]

/-- A call that makes its slot fails without room for it. -/
theorem call_full (checks : Bool) (c : Contents V) {op : Call V} (typed : op.Typed)
    (full : ¬op.Fits m) :
    (∃ fault, m.call checks op = .error fault) ∧ ∃ r, c.call op = .ok r := by
  simp only [Call.Fits, not_forall] at full
  obtain ⟨key, hkey, full⟩ := full
  have small := typed key hkey
  cases op with
  | insert key' value =>
    cases hkey
    obtain ⟨fault, hfails⟩ := insertAt_full checks full small value
    refine ⟨⟨fault, ?_⟩, _, rfl⟩
    rw [call, hfails]
    rfl
  | getOrInsert key' value write =>
    cases hkey
    obtain ⟨fault, hfails⟩ := getOrInsert_full checks full small value write
    refine ⟨⟨fault, ?_⟩, _, rfl⟩
    rw [call, hfails]
    rfl
  | get | containsKey | getMut | getUncheckedMut | getManyMut | getManyUncheckedMut | remove
  | removeUnchecked | indexMut | iter | iterMut | len | isEmpty | clear | shrinkToFit =>
    cases hkey

theorem fits_of_call {op : Call V} (typed : op.Typed) {m' : VecMap V} {out : List (Reply V)}
    (h : m.call checks op = .ok (m', out)) : op.Fits m := by
  by_contra full
  obtain ⟨⟨fault, hfails⟩, _⟩ := call_full checks ∅ typed full
  rw [hfails] at h
  cases h

variable {calls : List (Call V)} {out : List (Reply V)}

theorem run_holds (run : Run (call checks) (fun _ op => op.Typed) (new : VecMap V) calls out m) :
    ∃ c, Run Contents.call (fun _ _ => True) (∅ : Contents V) calls out c ∧ Holds m c := by
  refine run.invariant (I := fun calls out m => ∃ c,
    Run Contents.call (fun _ _ => True) (∅ : Contents V) calls out c ∧ Holds m c)
    ⟨∅, .nil, new_holds⟩ ?_
  rintro calls out m op m' out' ⟨c, before, holds⟩ typed taken
  have hagree := holds.call checks typed (fits_of_call typed taken)
  rw [taken] at hagree
  generalize hmeant : c.call op = r at hagree
  cases hagree with
  | ok holds' => exact ⟨_, .snoc before trivial hmeant, holds'⟩

end

/-- A slot is made and emptied, and the empty slots are stripped off. -/
def smallCalls : List (Call Nat) :=
  [.insert 2 5, .getOrInsert 4 7 (· + 1), .getManyMut [4, 2] (· + ·), .remove 4, .shrinkToFit,
    .iter, .len]

end VecMap
end GridServer
