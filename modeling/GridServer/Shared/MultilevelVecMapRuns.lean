import GridServer.Library.Run
import GridServer.Shared.MultilevelVecMap
import Mathlib.Data.Finmap

namespace GridServer
open Library

namespace MultilevelVecMap

/-- A call of one of the methods. -/
inductive Call (T : Type) where
  | get (key : Words)
  | getMut (key : Words) (write : T → T)
  | insert (key : Words) (value : T)
  | remove (key : Words)
  | len

/-- What a call returns. -/
inductive Reply (T : Type) where
  | value (value : Option T)
  | count (n : Nat)
deriving DecidableEq, Repr

variable {T : Type} {checks : Bool} {m m' : MultilevelVecMap T} {key : Words} {levels : Nat}

def call (checks : Bool) (m : MultilevelVecMap T) :
    Call T → Except Fault (MultilevelVecMap T × List (Reply T))
  | .get key => do
    let value ← m.get key
    return (m, [.value value])
  | .getMut key write => do
    let (m, found) ← m.getMut key write
    return (m, [.value found])
  | .insert key value => do
    let (m, old) ← m.insert checks key value
    return (m, [.value old])
  | .remove key => do
    let (m, old) ← m.remove checks key
    return (m, [.value old])
  | .len => return (m, [.count m.len])

section Contents

/-- A finite map whose keys are lists of words. -/
abbrev Contents (T : Type) := Finmap fun _ : Words => T

/-- The key with zeros up to that many words. -/
def zeroPadded (levels : Nat) (key : Words) : Words :=
  key ++ List.replicate (levels - key.length) 0

/-- What a call means to the finite map: a key of too many words is rejected. -/
def Contents.call (levels : Nat) (c : Contents T) : Call T → Contents T × Reply T
  | .get key =>
    if levels < key.length then (c, .value none)
    else (c, .value (c.lookup (zeroPadded levels key)))
  | .getMut key write =>
    if levels < key.length then (c, .value none)
    else match c.lookup (zeroPadded levels key) with
      | some value => (c.insert (zeroPadded levels key) (write value), .value (some value))
      | none => (c, .value none)
  | .insert key value =>
    if levels < key.length then (c, .value none)
    else (c.insert (zeroPadded levels key) value, .value (c.lookup (zeroPadded levels key)))
  | .remove key =>
    if levels < key.length then (c, .value none)
    else (c.erase (zeroPadded levels key), .value (c.lookup (zeroPadded levels key)))
  | .len => (c, .count c.keys.card)

/-- The finite map after the calls. -/
def Contents.after (levels : Nat) (c : Contents T) (calls : List (Call T)) : Contents T :=
  calls.foldl (fun c call => (c.call levels call).1) c

/-- What the calls return, in that order. -/
def Contents.replies (levels : Nat) : Contents T → List (Call T) → List (Reply T)
  | _, [] => []
  | c, call :: calls => (c.call levels call).2 :: replies levels (c.call levels call).1 calls

theorem Contents.replies_snoc (levels : Nat) (c : Contents T) (calls : List (Call T))
    (call : Call T) : c.replies levels (calls ++ [call]) =
      c.replies levels calls ++ [((c.after levels calls).call levels call).2] := by
  induction calls generalizing c with
  | nil => rfl
  | cons first calls ih =>
    rw [List.cons_append, replies, ih, replies, List.cons_append]
    rfl

theorem Contents.after_snoc (levels : Nat) (c : Contents T) (calls : List (Call T))
    (call : Call T) :
    c.after levels (calls ++ [call]) = ((c.after levels calls).call levels call).1 := by
  simp [after]

end Contents

theorem padded_eq (h : key.length ≤ levels + 1) :
    Entry.padded levels key = (zeroPadded (levels + 1) key).map BitVec.toNat := by
  induction levels generalizing key with
  | zero =>
    cases key with
    | nil => rfl
    | cons word key =>
      obtain rfl : key = [] := List.length_eq_zero_iff.mp (by simpa using h)
      rfl
  | succ levels ih =>
    cases key with
    | nil =>
      have hrest : Entry.padded levels [] = _ := ih (by simp)
      simp only [Entry.padded, List.tail_nil, hrest]
      rfl
    | cons word key =>
      have hrest : Entry.padded levels key = _ := ih (by simpa using h)
      have hmissing : levels + 1 + 1 - (key.length + 1) = levels + 1 - key.length := by omega
      simp only [Entry.padded, List.tail_cons, hrest, zeroPadded, List.length_cons, hmissing]
      rfl

theorem padded_inj {key' : Words} (h : key.length ≤ levels + 1) (h' : key'.length ≤ levels + 1) :
    Entry.padded levels key = Entry.padded levels key' ↔
      zeroPadded (levels + 1) key = zeroPadded (levels + 1) key' := by
  rw [padded_eq h, padded_eq h']
  exact (List.map_injective_iff.mpr fun _ _ => BitVec.eq_of_toNat_eq).eq_iff

/-- The map has the contents. -/
structure Holds (levels : Nat) (m : MultilevelVecMap T) (c : Contents T) : Prop where
  shaped : m.Shaped
  depth : m.levelsIdx + 1 = levels
  lookup : ∀ key : Words, key.length ≤ levels → m.find key = c.lookup (zeroPadded levels key)
  count : m.n = c.keys.card

/-- There is room for the key of an insertion, unless it is rejected. -/
def Call.Fits (m : MultilevelVecMap T) : Call T → Prop
  | .insert key _ => key.length ≤ m.levelsIdx + 1 → m.Roomy key
  | .get _ | .getMut .. | .remove _ | .len => True

theorem new_holds {start : MultilevelVecMap T} (h : 1 ≤ levels)
    (hnew : new checks levels = .ok start) : Holds levels start ∅ := by
  obtain ⟨levelsIdx, rfl⟩ : ∃ levelsIdx, levels = levelsIdx + 1 := ⟨levels - 1, by omega⟩
  rw [new, usizeSub, subBits_of_le (by omega), ok_bind, except_pure, Except.ok.injEq] at hnew
  subst hnew
  refine ⟨Entry.shaped_nil levelsIdx, rfl, ?_, ?_⟩
  · intro key _
    rw [Finmap.lookup_empty]
    exact Entry.find_nil levelsIdx key
  · rw [Finmap.keys_empty, Finset.card_empty]

theorem keys_insert (c : Contents T) (key : Words) (value : T) :
    (c.insert key value).keys = Insert.insert key c.keys := by
  ext key'
  rw [Finmap.mem_keys, Finmap.mem_insert, Finset.mem_insert, Finmap.mem_keys]

/-- The count of the keys after an insertion. -/
theorem card_insert (c : Contents T) (key : Words) (value : T) :
    (c.insert key value).keys.card =
      if (c.lookup key).isNone then c.keys.card + 1 else c.keys.card := by
  rw [keys_insert]
  cases hlookup : c.lookup key with
  | none =>
    have habsent := mt Finmap.mem_keys.mp (Finmap.lookup_eq_none.mp hlookup)
    exact Finset.card_insert_of_notMem habsent
  | some value' =>
    have hpresent := Finmap.mem_keys.mpr (Finmap.mem_of_lookup_eq_some hlookup)
    rw [Finset.insert_eq_of_mem hpresent]
    rfl

namespace Holds
variable {c c' : Contents T}

/-- A change of the value of one key, with the count it leaves. -/
theorem update {new : Option T} {vec : List (Entry T)} {n : Nat} (holds : Holds levels m c)
    (hkey : key.length ≤ levels) (u : Entry.Updates m.levelsIdx key new m.vec vec)
    (hself : c'.lookup (zeroPadded levels key) = new)
    (hothers : ∀ key', key' ≠ zeroPadded levels key → c'.lookup key' = c.lookup key')
    (hcount : n = c'.keys.card) : Holds levels ⟨n, m.levelsIdx, vec⟩ c' := by
  obtain rfl := holds.depth
  refine ⟨u.shaped, rfl, ?_, hcount⟩
  intro key' hkey'
  rw [find, u.find]
  by_cases hsame : Entry.padded m.levelsIdx key' = Entry.padded m.levelsIdx key
  · rw [if_pos hsame, (padded_inj hkey' hkey).mp hsame, hself]
  · rw [if_neg hsame, hothers _ fun heq => hsame ((padded_inj hkey' hkey).mpr heq)]
    exact holds.lookup key' hkey'

theorem get (holds : Holds levels m c) (key : Words) :
    m.call checks (.get key) = .ok (m, [(c.call levels (.get key)).2]) := by
  obtain rfl := holds.depth
  rw [MultilevelVecMap.call, Contents.call]
  by_cases hlong : m.levelsIdx + 1 < key.length
  · rw [MultilevelVecMap.get, if_pos hlong, if_pos hlong]
    rfl
  · have hkey := Nat.le_of_not_lt hlong
    rw [get_eq holds.shaped hkey, holds.lookup key hkey, if_neg hlong]
    rfl

theorem insert (checks : Bool) (holds : Holds levels m c) {value : T}
    (fits : (Call.insert key value).Fits m) :
    ∃ m', m.call checks (.insert key value) =
        .ok (m', [(c.call levels (.insert key value)).2]) ∧
      Holds levels m' (c.call levels (.insert key value)).1 := by
  obtain rfl := holds.depth
  rw [MultilevelVecMap.call, Contents.call]
  by_cases hlong : m.levelsIdx + 1 < key.length
  · rw [if_pos hlong]
    refine ⟨m, ?_, holds⟩
    simp only [MultilevelVecMap.insert, if_pos hlong, ok_bind, except_pure]
  · rw [if_neg hlong]
    have hkey := Nat.le_of_not_lt hlong
    obtain ⟨vec, hinsert, u⟩ := Entry.insert_ok checks holds.shaped (fits hkey) value
    have hfind : Entry.find m.levelsIdx key m.vec = _ := holds.lookup key hkey
    refine ⟨⟨if (m.find key).isNone then m.n + 1 else m.n, m.levelsIdx, vec⟩, ?_, ?_⟩
    · simp only [MultilevelVecMap.insert, if_neg hlong, hinsert, hfind, find, ok_bind, except_pure]
    · refine holds.update hkey u (Finmap.lookup_insert _) ?_ ?_
      · intro key' hne
        exact Finmap.lookup_insert_of_ne _ hne
      · rw [card_insert, ← holds.lookup key hkey, holds.count]

theorem getMut (checks : Bool) (holds : Holds levels m c) (key : Words) (write : T → T) :
    ∃ m', m.call checks (.getMut key write) =
        .ok (m', [(c.call levels (.getMut key write)).2]) ∧
      Holds levels m' (c.call levels (.getMut key write)).1 := by
  obtain rfl := holds.depth
  rw [MultilevelVecMap.call, Contents.call]
  by_cases hlong : m.levelsIdx + 1 < key.length
  · rw [if_pos hlong]
    refine ⟨m, ?_, holds⟩
    simp only [MultilevelVecMap.getMut, if_pos hlong, ok_bind, except_pure]
  · rw [if_neg hlong]
    have hkey := Nat.le_of_not_lt hlong
    obtain ⟨vec, hget, u⟩ := Entry.getMut_ok holds.shaped key write
    have hfind : Entry.find m.levelsIdx key m.vec = _ := holds.lookup key hkey
    refine ⟨⟨m.n, m.levelsIdx, vec⟩, ?_, ?_⟩
    · simp only [MultilevelVecMap.getMut, if_neg hlong, hget, hfind, ok_bind, except_pure]
      cases c.lookup (zeroPadded (m.levelsIdx + 1) key) with
      | none => rfl
      | some value => rfl
    · rw [hfind] at u
      cases hlookup : c.lookup (zeroPadded (m.levelsIdx + 1) key) with
      | none =>
        rw [hlookup] at u
        exact holds.update hkey u hlookup (fun _ _ => rfl) holds.count
      | some value =>
        rw [hlookup] at u
        refine holds.update hkey u (Finmap.lookup_insert _) ?_ ?_
        · intro key' hne
          exact Finmap.lookup_insert_of_ne _ hne
        · rw [card_insert, hlookup, holds.count]
          rfl

theorem remove (checks : Bool) (holds : Holds levels m c) (key : Words) :
    ∃ m', m.call checks (.remove key) = .ok (m', [(c.call levels (.remove key)).2]) ∧
      Holds levels m' (c.call levels (.remove key)).1 := by
  obtain rfl := holds.depth
  rw [MultilevelVecMap.call, Contents.call]
  by_cases hlong : m.levelsIdx + 1 < key.length
  · rw [if_pos hlong]
    refine ⟨m, ?_, holds⟩
    simp only [MultilevelVecMap.remove, if_pos hlong, ok_bind, except_pure]
  · rw [if_neg hlong]
    have hkey := Nat.le_of_not_lt hlong
    obtain ⟨vec, hremove, u⟩ := Entry.remove_ok holds.shaped key
    have hfind : Entry.find m.levelsIdx key m.vec = _ := holds.lookup key hkey
    have hothers : ∀ key', key' ≠ zeroPadded (m.levelsIdx + 1) key →
        (c.erase (zeroPadded (m.levelsIdx + 1) key)).lookup key' = c.lookup key' :=
      fun key' hne => Finmap.lookup_erase_ne hne
    cases hlookup : c.lookup (zeroPadded (m.levelsIdx + 1) key) with
    | none =>
      have habsent := mt Finmap.mem_keys.mp (Finmap.lookup_eq_none.mp hlookup)
      refine ⟨⟨m.n, m.levelsIdx, vec⟩, ?_, ?_⟩
      · simp only [MultilevelVecMap.remove, if_neg hlong, hremove, hfind, hlookup, ok_bind,
          except_pure]
        rfl
      · refine holds.update hkey u (Finmap.lookup_erase _ _) hothers ?_
        rw [Finmap.keys_erase, Finset.erase_eq_of_notMem habsent, holds.count]
    | some value =>
      have hpresent := Finmap.mem_keys.mpr (Finmap.mem_of_lookup_eq_some hlookup)
      have hpos : 1 ≤ m.n := by
        rw [holds.count]
        exact Finset.card_pos.mpr ⟨_, hpresent⟩
      refine ⟨⟨m.n - 1, m.levelsIdx, vec⟩, ?_, ?_⟩
      · simp only [MultilevelVecMap.remove, if_neg hlong, hremove, hfind, hlookup, ok_bind,
          Option.isSome_some, ↓reduceIte, usizeSub, subBits_of_le hpos, except_pure]
      · refine holds.update hkey u (Finmap.lookup_erase _ _) hothers ?_
        rw [Finmap.keys_erase, Finset.card_erase_of_mem hpresent, holds.count]

/-- A call with room for its key means to the map what it means to the contents. -/
theorem call (checks : Bool) (holds : Holds levels m c) {op : Call T} (fits : op.Fits m) :
    ∃ m', m.call checks op = .ok (m', [(c.call levels op).2]) ∧
      Holds levels m' (c.call levels op).1 := by
  cases op with
  | get key =>
    refine ⟨m, holds.get key, ?_⟩
    rw [Contents.call]
    split
    · exact holds
    · exact holds
  | getMut key write => exact holds.getMut checks key write
  | insert key value => exact holds.insert checks fits
  | remove key => exact holds.remove checks key
  | len =>
    refine ⟨m, ?_, holds⟩
    rw [MultilevelVecMap.call, len, holds.count]
    rfl

end Holds

/-- A call that succeeds had room for its key. -/
theorem fits_of_call {op : Call T} {out : List (Reply T)} (shaped : m.Shaped)
    (h : m.call checks op = .ok (m', out)) : op.Fits m := by
  cases op with
  | insert key value =>
    intro hkey
    obtain ⟨inserted, hinsert, _⟩ := bind_ok.mp h
    exact roomy_of_insert shaped hkey hinsert
  | get | getMut | remove | len => trivial

theorem run_holds {start : MultilevelVecMap T} (h : 1 ≤ levels)
    (hnew : new checks levels = .ok start) {calls : List (Call T)} {out : List (Reply T)}
    (run : Run (call checks) (fun _ _ => True) start calls out m) :
    Holds levels m (.after levels ∅ calls) ∧ out = Contents.replies levels ∅ calls := by
  refine run.invariant
    (I := fun calls out m => Holds levels m (.after levels ∅ calls) ∧
      out = Contents.replies levels ∅ calls) ⟨new_holds h hnew, rfl⟩ ?_
  intro calls out m op m' out' hI _ taken
  obtain ⟨holds, hout⟩ := hI
  obtain ⟨after, hcall, hafter⟩ := holds.call checks (fits_of_call holds.shaped taken)
  rw [hcall, Except.ok.injEq, Prod.mk.injEq] at taken
  obtain ⟨rfl, rfl⟩ := taken
  rw [Contents.after_snoc, Contents.replies_snoc, hout]
  exact ⟨hafter, rfl⟩

end MultilevelVecMap
end GridServer
