import Mathlib.Data.List.AList
import Mathlib.Data.Finset.Card

namespace GridServer.Library

/-- A cache of at most `cap` entries, the most recently used first. -/
structure LruCache (α β : Type) where
  cap : Nat
  entries : AList fun _ : α => β
  pos : 0 < cap
  bounded : entries.keys.length ≤ cap

namespace LruCache
variable {α β γ : Type}

def new (cap : Nat) (pos : 0 < cap) : LruCache α β := ⟨cap, ∅, pos, Nat.zero_le _⟩

instance : Membership α (LruCache α β) := ⟨fun c key => key ∈ c.entries⟩

theorem mem_def {c : LruCache α β} {key : α} : key ∈ c ↔ key ∈ c.entries.keys := Iff.rfl

@[simp] theorem not_mem_new {cap : Nat} {pos : 0 < cap} (key : α) :
    key ∉ (new cap pos : LruCache α β) := List.not_mem_nil

/-- The entry that a full cache gives up. -/
def oldest (c : LruCache α β) : Option α := c.entries.keys.getLast?

/-- Two caches hold the same keys. -/
def Agree (c : LruCache α β) (d : LruCache α γ) : Prop := c.cap = d.cap ∧ ∀ key, key ∈ c ↔ key ∈ d

theorem Agree.length {c : LruCache α β} {d : LruCache α γ} (h : Agree c d) :
    c.entries.keys.length = d.entries.keys.length :=
  ((List.perm_ext_iff_of_nodup c.entries.keys_nodup d.entries.keys_nodup).mpr h.2).length_eq

/-- The entries without the least recent one. -/
def evicted (c : LruCache α β) : AList fun _ : α => β :=
  ⟨c.entries.entries.dropLast, c.entries.nodupKeys.sublist (List.dropLast_sublist _)⟩

theorem keys_evicted (c : LruCache α β) : c.evicted.keys = c.entries.keys.dropLast :=
  List.map_dropLast

variable [DecidableEq α]

theorem lookup_of_evicted {c : LruCache α β} {key : α} {value : β}
    (h : c.evicted.lookup key = some value) : c.entries.lookup key = some value := by
  rw [← Option.mem_def, AList.mem_lookup_iff] at h ⊢
  exact (List.dropLast_sublist _).subset h

instance (c : LruCache α β) (key : α) : Decidable (key ∈ c) :=
  List.instDecidableMemOfLawfulBEq key c.entries.keys

/-- Neither this nor `contains` makes an entry more recent. -/
def peek (c : LruCache α β) (key : α) : Option β := c.entries.lookup key

def contains (c : LruCache α β) (key : α) : Bool := (c.peek key).isSome

theorem contains_iff {c : LruCache α β} {key : α} : c.contains key = true ↔ key ∈ c :=
  AList.lookup_isSome

theorem insert_bounded (c : LruCache α β) (key : α) (value : β)
    (h : key ∈ c ∨ c.entries.keys.length < c.cap) :
    (c.entries.insert key value).keys.length ≤ c.cap := by
  have hc := c.bounded
  rw [AList.keys_insert, List.length_cons]
  rcases h with hmem | hroom
  · have hlen := List.length_erase_of_mem hmem
    have hpos := List.length_pos_of_mem hmem
    omega
  · have hlen := List.length_erase_le (a := key) (l := c.entries.keys)
    omega

/-- The entry becomes the most recent. -/
def get (c : LruCache α β) (key : α) : LruCache α β × Option β :=
  match h : c.entries.lookup key with
  | some value =>
    ({ c with entries := c.entries.insert key value
              bounded := c.insert_bounded key value
                (.inl (AList.lookup_isSome.mp (by rw [h]; rfl))) }, some value)
  | none => (c, none)

theorem evicted_bounded (c : LruCache α β) (key : α) (value : β) :
    (c.evicted.insert key value).keys.length ≤ c.cap := by
  have hc := c.bounded
  have hpos := c.pos
  have hlen := List.length_erase_le (a := key) (l := c.evicted.keys)
  rw [keys_evicted, List.length_dropLast] at hlen
  rw [AList.keys_insert, List.length_cons, keys_evicted]
  omega

/-- File an entry as the most recent, with what it takes the place of: the old value of the key, or
the least recent entry of a full cache. -/
def push (c : LruCache α β) (key : α) (value : β) : LruCache α β × Option (α × β) :=
  match h : c.entries.lookup key with
  | some old =>
    ({ c with entries := c.entries.insert key value
              bounded := c.insert_bounded key value
                (.inl (AList.lookup_isSome.mp (by rw [h]; rfl))) }, some (key, old))
  | none =>
    if room : c.entries.keys.length < c.cap then
      ({ c with entries := c.entries.insert key value
                bounded := c.insert_bounded key value (.inr room) }, none)
    else
      ({ c with entries := c.evicted.insert key value, bounded := c.evicted_bounded key value },
        c.entries.entries.getLast?.map fun entry => (entry.1, entry.2))

/-- A write through `peek_mut`. -/
def write (c : LruCache α β) (key : α) (value : β) : LruCache α β :=
  { c with entries := c.entries.replace key value
           bounded := by rw [AList.keys_replace]; exact c.bounded }

@[simp] theorem write_cap (c : LruCache α β) (key : α) (value : β) :
    (c.write key value).cap = c.cap := rfl

theorem keys_write (c : LruCache α β) (key : α) (value : β) :
    (c.write key value).entries.keys = c.entries.keys :=
  AList.keys_replace (β := fun _ => β) key value c.entries

/-- What is cached after a write was written, or was cached before. -/
theorem peek_write {c : LruCache α β} {key x : α} {value found : β}
    (h : (c.write key value).peek x = some found) :
    (x = key ∧ found = value) ∨ c.peek x = some found := by
  have hmem : ∀ l : List (Sigma fun _ : α => β), ⟨x, found⟩ ∈ l.kreplace key value →
      (x = key ∧ found = value) ∨ ⟨x, found⟩ ∈ l := by
    intro l
    induction l with
    | nil => exact fun h => .inr h
    | cons entry l ih =>
      intro h
      rw [List.kreplace, List.lookmap_cons] at h
      split at h
      · rcases List.mem_cons.mp h with heq | hrest
        · exact .inr (heq ▸ List.mem_cons_self)
        · exact (ih hrest).imp_right (List.mem_cons_of_mem _)
      · rename_i new hnew
        split at hnew
        · cases hnew
          rcases List.mem_cons.mp h with heq | hrest
          · cases heq
            exact .inl ⟨rfl, rfl⟩
          · exact .inr (List.mem_cons_of_mem _ hrest)
        · cases hnew
  unfold peek write at *
  rw [← Option.mem_def, AList.mem_lookup_iff] at h ⊢
  exact hmem _ h

theorem keys_get (c : LruCache α β) (key : α) :
    (c.get key).1.cap = c.cap ∧
      (c.get key).1.entries.keys =
        if key ∈ c then key :: c.entries.keys.erase key else c.entries.keys := by
  unfold get
  split
  · rename_i value h
    have hmem : key ∈ c := AList.lookup_isSome.mp (by rw [h]; rfl)
    rw [if_pos hmem]
    exact ⟨rfl, AList.keys_insert _⟩
  · rename_i h
    have hmem : key ∉ c := AList.lookup_eq_none.mp h
    rw [if_neg hmem]
    exact ⟨rfl, rfl⟩

theorem get_value (c : LruCache α β) (key : α) : (c.get key).2 = c.peek key := by
  unfold get peek
  split
  · rename_i value h
    exact h.symm
  · rename_i h
    exact h.symm

theorem peek_get (c : LruCache α β) (key x : α) : (c.get key).1.peek x = c.peek x := by
  unfold get peek
  split
  · rename_i value h
    by_cases he : x = key
    · rw [he, AList.lookup_insert, h]
    · exact AList.lookup_insert_ne he
  · rfl

theorem mem_get (c : LruCache α β) (key x : α) : x ∈ (c.get key).1 ↔ x ∈ c := by
  rw [← contains_iff, ← contains_iff, contains, contains, peek_get]

/-- What is cached after a push is the new entry, or was cached before. -/
theorem peek_push {c : LruCache α β} {key x : α} {value found : β}
    (h : (c.push key value).1.peek x = some found) :
    (x = key ∧ found = value) ∨ c.peek x = some found := by
  by_cases he : x = key
  · refine .inl ⟨he, ?_⟩
    subst he
    unfold push peek at h
    split at h
    · rw [AList.lookup_insert] at h
      exact (Option.some.inj h).symm
    · split at h
      · rw [AList.lookup_insert] at h
        exact (Option.some.inj h).symm
      · rw [AList.lookup_insert] at h
        exact (Option.some.inj h).symm
  · refine .inr ?_
    unfold push peek at h
    split at h
    · rwa [AList.lookup_insert_ne he] at h
    · split at h
      · rwa [AList.lookup_insert_ne he] at h
      · rw [AList.lookup_insert_ne he] at h
        exact lookup_of_evicted h

theorem push_of_not_mem {c : LruCache α β} {key : α} (h : key ∉ c) (value : β) :
    (c.push key value).1.cap = c.cap ∧ (c.push key value).1.entries.keys =
      key :: if c.entries.keys.length < c.cap then c.entries.keys else c.entries.keys.dropLast := by
  have hnone : c.entries.lookup key = none := AList.lookup_eq_none.mpr h
  have herase : c.entries.keys.erase key = c.entries.keys := List.erase_of_not_mem h
  have hdrop : c.entries.keys.dropLast.erase key = c.entries.keys.dropLast :=
    List.erase_of_not_mem fun hd => h ((List.dropLast_sublist _).subset hd)
  unfold push
  split
  · rename_i old hold
    rw [hnone] at hold
    cases hold
  · split
    · exact ⟨rfl, by rw [AList.keys_insert, herase]⟩
    · exact ⟨rfl, by rw [AList.keys_insert, keys_evicted, hdrop]⟩

/-- For a new key a full cache gives up its least recent one. -/
theorem push_gives {c : LruCache α β} {key : α} (h : key ∉ c) (value : β) :
    (c.push key value).2.map Prod.fst = if c.entries.keys.length < c.cap then none else c.oldest := by
  have hnone : c.entries.lookup key = none := AList.lookup_eq_none.mpr h
  unfold push
  split
  · rename_i old hold
    rw [hnone] at hold
    cases hold
  · split
    · rfl
    · rw [oldest, AList.keys, List.keys, List.getLast?_map, Option.map_map]
      rfl

/-- A new entry comes in; of a full cache the least recent one goes. -/
theorem mem_push {c : LruCache α β} {key : α} (h : key ∉ c) (value : β) (x : α) :
    x ∈ (c.push key value).1 ↔
      x = key ∨ (x ∈ c ∧ (c.cap ≤ c.entries.keys.length → c.oldest ≠ some x)) := by
  rw [mem_def, (push_of_not_mem h value).2, List.mem_cons]
  refine or_congr_right ?_
  by_cases room : c.entries.keys.length < c.cap
  · rw [if_pos room]
    exact ⟨fun hx => ⟨hx, fun full => absurd room (Nat.not_lt.mpr full)⟩, fun hx => hx.1⟩
  · rw [if_neg room]
    have hnodup := c.entries.keys_nodup
    rcases List.eq_nil_or_concat' c.entries.keys with hnil | ⟨front, last, hconcat⟩
    · simp [mem_def, hnil]
    · simp only [mem_def, oldest, hconcat, List.dropLast_concat, List.getLast?_concat]
        at hnodup room ⊢
      rw [List.nodup_append] at hnodup
      have hlast := hnodup.2.2
      constructor
      · intro hx
        refine ⟨List.mem_append_left _ hx, fun _ he => ?_⟩
        exact hlast x hx last (List.mem_singleton_self _) (Option.some.inj he).symm
      · intro ⟨hx, hne⟩
        rcases List.mem_append.mp hx with hfront | hsingle
        · exact hfront
        · rw [List.mem_singleton] at hsingle
          exact absurd (by rw [hsingle]) (hne (Nat.not_lt.mp room))

theorem mem_push_gives {c : LruCache α β} {key : α} (h : key ∉ c) (value : β) (x : α) :
    x ∈ (c.push key value).1 ↔ x = key ∨ x ∈ c ∧ (c.push key value).2.map Prod.fst ≠ some x := by
  rw [mem_push h, push_gives h]
  refine or_congr_right (and_congr_right fun _ => ?_)
  split
  · rename_i room
    simp [Nat.not_le.mpr room]
  · rename_i full
    simp [Nat.le_of_not_lt full]

/-- Filing a new key in two caches that agree leaves them in agreement if and only if they give up
the same entry for it. -/
theorem Agree.push_iff {c : LruCache α β} {d : LruCache α γ} (h : Agree c d) {key : α}
    (hkey : key ∉ c) (value : β) (value' : γ) :
    Agree (c.push key value).1 (d.push key value').1 ↔
      (c.cap ≤ c.entries.keys.length → c.oldest = d.oldest) := by
  have hkey' : key ∉ d := fun hd => hkey ((h.2 key).mpr hd)
  have hlen := h.length
  constructor
  · intro agree full
    -- The entry that one cache gives up is given up by the other.
    have gives : ∀ x, c.oldest = some x → d.oldest = some x := by
      intro x hx
      have hmem : x ∈ c := List.mem_of_getLast? hx
      by_contra hne
      have hd : x ∈ (d.push key value').1 :=
        (mem_push hkey' value' x).mpr (.inr ⟨(h.2 x).mp hmem, fun _ => hne⟩)
      rcases (mem_push hkey value x).mp ((agree.2 x).mpr hd) with rfl | ⟨_, hout⟩
      · exact hkey hmem
      · exact hout full hx
    have hpos := c.pos
    cases hold : c.oldest with
    | none =>
      have hnil : c.entries.keys = [] := List.getLast?_eq_none_iff.mp hold
      rw [hnil, List.length_nil] at full
      omega
    | some x => exact (gives x hold).symm
  · intro same
    refine ⟨?_, ?_⟩
    · rw [(push_of_not_mem hkey value).1, (push_of_not_mem hkey' value').1]
      exact h.1
    · intro x
      rw [mem_push hkey, mem_push hkey', h.2 x, ← h.1, ← hlen]
      refine or_congr_right (and_congr_right fun _ => forall_congr' fun full => ?_)
      rw [same full]

theorem Agree.write_left {c : LruCache α β} {d : LruCache α γ} (h : Agree c d) (key : α)
    (value : β) : Agree (c.write key value) d := by
  refine ⟨h.1, fun x => ?_⟩
  rw [mem_def, keys_write]
  exact h.2 x

end LruCache
end GridServer.Library
