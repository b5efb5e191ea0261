import GridServer.Library.Chunk
import GridServer.Shared.Messages
import GridServer.Shared.MultilevelVecMap

namespace GridServer.TaskManager
open Library

/-- A taxi, and two sets of passengers as the bits of a number. -/
structure TaskData where
  taxi : Nat
  combinations : Nat × Nat
deriving DecidableEq, Repr

/-- `combinations[i]`. -/
def TaskData.combination (task : TaskData) : Fin 2 → Nat
  | 0 => task.combinations.1
  | 1 => task.combinations.2

structure TaskSplitter where
  n : Nat
  taxies : Nat
  curTaxi : Nat
  max : Nat
  mid : Nat
  cur : Nat
deriving DecidableEq, Repr

namespace TaskSplitter

def new (checks : Bool) (taxies passengers : Nat) : Except Fault TaskSplitter := do
  let comb ← u128Pow checks 2 (passengers % 2 ^ 32)
  let max ← u128Sub checks comb 1
  let mid := comb / 2
  return { n := 0, curTaxi := 0, cur := mid, taxies := taxies, mid := mid, max := max }

def totalTasks (checks : Bool) (splitter : TaskSplitter) : Except Fault Nat :=
  u128Mul checks splitter.mid splitter.taxies

def next (checks : Bool) (splitter : TaskSplitter) :
    Except Fault (Option (TaskId × TaskData) × TaskSplitter) :=
  if splitter.curTaxi < splitter.taxies then do
    let data := (splitter.n,
      { taxi := splitter.curTaxi
        combinations := (splitter.cur, splitter.max ^^^ splitter.cur) : TaskData })
    let n ← usizeAdd checks splitter.n 1
    if splitter.cur = splitter.max then
      return (some data,
        { splitter with n := n, curTaxi := splitter.curTaxi + 1, cur := splitter.mid })
    else return (some data, { splitter with n := n, cur := splitter.cur + 1 })
  else return (none, splitter)

/-- A set of passengers and its complement. -/
theorem complement {passengers c : Nat} (h : c < 2 ^ passengers) :
    (2 ^ passengers - 1) ^^^ c = 2 ^ passengers - 1 - c := by
  apply Nat.eq_of_testBit_eq
  intro i
  rw [Nat.testBit_xor, Nat.testBit_two_pow_sub_one, Nat.sub_sub, Nat.add_comm 1 c,
    Nat.testBit_two_pow_sub_succ h]
  by_cases hi : i < passengers
  · simp [hi]
  · have hc : c < 2 ^ i := h.trans_le (Nat.pow_le_pow_right (by decide) (Nat.le_of_not_lt hi))
    simp [hi, Nat.testBit_lt_two_pow hc]

/-- How many tasks there are for each taxi: one for every set that the last passenger is in. -/
def half (passengers : Nat) : Nat := 2 ^ (passengers - 1)

/-- The task of number `k`. -/
def task (passengers k : Nat) : TaskData :=
  let set := half passengers + k % half passengers
  ⟨k / half passengers, (set, (2 ^ passengers - 1) ^^^ set)⟩

/-- The splitter after `k` tasks. -/
def after (taxies passengers k : Nat) : TaskSplitter :=
  { n := k % 2 ^ 64
    taxies := taxies
    curTaxi := k / half passengers
    max := 2 ^ passengers - 1
    mid := half passengers
    cur := half passengers + k % half passengers }

section
variable {checks : Bool} {taxies passengers k : Nat} {splitter : TaskSplitter}

theorem half_pos (passengers : Nat) : 0 < half passengers := Nat.two_pow_pos _

theorem two_half (h : 1 ≤ passengers) : 2 ^ passengers = half passengers + half passengers := by
  obtain ⟨q, rfl⟩ : ∃ q, passengers = q + 1 := ⟨passengers - 1, by omega⟩
  rw [half, Nat.add_sub_cancel, Nat.pow_succ]
  omega

theorem new_eq (h : 1 ≤ passengers) (hlt : passengers < 128) :
    new checks taxies passengers = .ok (after taxies passengers 0) := by
  have hpow : 2 ^ passengers < 2 ^ 128 := Nat.pow_lt_pow_right (by decide) hlt
  have hhalf := two_half h
  have hpos := half_pos passengers
  rw [new, Nat.mod_eq_of_lt (by omega : passengers < 2 ^ 32), u128Pow, powBits_of_lt hpow, ok_bind,
    u128Sub, subBits_of_le (by omega), ok_bind, except_pure]
  simp only [after, Nat.zero_mod, Nat.zero_div, Nat.add_zero, Except.ok.injEq,
    TaskSplitter.mk.injEq, true_and]
  omega

/-- The successor of a task is the next set for the same taxi or the first set for the next. -/
theorem next_slot (k : Nat) {h : Nat} (pos : 0 < h) :
    (k % h + 1 = h ∧ (k + 1) / h = k / h + 1 ∧ (k + 1) % h = 0) ∨
      (k % h + 1 < h ∧ (k + 1) / h = k / h ∧ (k + 1) % h = k % h + 1) := by
  have hk := Nat.div_add_mod k h
  have hlt := Nat.mod_lt k pos
  by_cases hlast : k % h + 1 = h
  · have hsucc : k + 1 = (k / h + 1) * h := by
      rw [Nat.add_mul, Nat.one_mul, Nat.mul_comm]
      omega
    refine .inl ⟨hlast, ?_, ?_⟩
    · rw [hsucc, Nat.mul_div_cancel _ pos]
    · rw [hsucc, Nat.mul_mod_left]
  · have hsucc : k + 1 = h * (k / h) + (k % h + 1) := by omega
    have hsmall : k % h + 1 < h := by omega
    refine .inr ⟨hsmall, ?_, ?_⟩
    · rw [hsucc, Nat.mul_add_div pos, Nat.div_eq_of_lt hsmall, Nat.add_zero]
    · rw [hsucc, Nat.mul_add_mod, Nat.mod_eq_of_lt hsmall]

theorem next_eq (h : 1 ≤ passengers) (hk : k < taxies * half passengers) :
    (after taxies passengers k).next checks = do
      let _ ← usizeAdd checks (k % 2 ^ 64) 1
      return (some (k % 2 ^ 64, task passengers k), after taxies passengers (k + 1)) := by
  have hpos := half_pos passengers
  have htaxi : (after taxies passengers k).curTaxi < (after taxies passengers k).taxies :=
    (Nat.div_lt_iff_lt_mul hpos).mpr hk
  have hmax := two_half h
  rw [next, if_pos htaxi]
  cases hn : usizeAdd checks (k % 2 ^ 64) 1 with
  | error fault => simp only [after, hn, error_bind]
  | ok n =>
    obtain rfl : n = (k + 1) % 2 ^ 64 := by
      have hwrap := addBits_ok hn
      unfold wrappingAdd at hwrap
      split at hwrap
      · omega
      · omega
    obtain ⟨hlast, hdiv, hmod⟩ | ⟨hsmall, hdiv, hmod⟩ := next_slot k hpos
    · have hcur : (after taxies passengers k).cur = (after taxies passengers k).max := by
        simp only [after]
        omega
      simp only [if_pos hcur]
      simp only [after, hn, ok_bind, hdiv, hmod]
      rfl
    · have hcur : (after taxies passengers k).cur ≠ (after taxies passengers k).max := by
        simp only [after]
        omega
      simp only [if_neg hcur]
      simp only [after, hn, ok_bind, hdiv, hmod]
      rfl

theorem next_end (hk : taxies * half passengers ≤ k) :
    (after taxies passengers k).next checks = .ok (none, after taxies passengers k) := by
  have htaxi : ¬k / half passengers < taxies := by
    rw [Nat.div_lt_iff_lt_mul (half_pos passengers)]
    exact Nat.not_lt_of_le hk
  exact if_neg htaxi

/-- The next task is emitted, if a build with overflow checks can count it. -/
theorem next_task (h : 1 ≤ passengers) (hk : k < taxies * half passengers)
    (fits : checks = true → k + 1 < 2 ^ 64) : (after taxies passengers k).next checks =
      .ok (some (k % 2 ^ 64, task passengers k), after taxies passengers (k + 1)) := by
  obtain ⟨m, hm⟩ : Succeeds (usizeAdd checks (k % 2 ^ 64) 1) := by
    cases checks with
    | true =>
      have hfits := fits rfl
      exact ⟨_, addBits_of_lt (by omega) _⟩
    | false => exact ⟨_, rfl⟩
  rw [next_eq h hk, hm]
  rfl

/-- The tasks come one after another under their numbers, as far as these can be counted. -/
theorem yields_range (h : 1 ≤ passengers) {n : Nat} (hk : k + n ≤ taxies * half passengers)
    (small : k + n ≤ 2 ^ 64) (fits : checks = true → k + n < 2 ^ 64) :
    Yields (next checks) (after taxies passengers k)
      ((List.range' k n).map fun id => (id, task passengers id))
      (after taxies passengers (k + n)) := by
  induction n generalizing k with
  | zero => exact .nil _
  | succ n ih =>
    have hsmall : k % 2 ^ 64 = k := Nat.mod_eq_of_lt (by omega)
    have hnext : (after taxies passengers k).next checks =
        .ok (some (k, task passengers k), after taxies passengers (k + 1)) := by
      rw [next_task h (by omega) fun hc => (fits hc).trans_le' (by omega), hsmall]
    have hrest := ih (k := k + 1) (by omega) (by omega) fun hc => by
      have hfits := fits hc
      omega
    rw [List.range'_succ, List.map_cons]
    rw [Nat.add_right_comm, Nat.add_assoc] at hrest
    exact .cons hnext hrest

/-- The splitter goes through the tasks. A build without overflow checks may lose count of them. -/
theorem enumerates_mod (h : 1 ≤ passengers)
    (fits : checks = true → taxies * half passengers < 2 ^ 64) :
    Enumerates (next checks) (after taxies passengers) (fun k => (k % 2 ^ 64, task passengers k))
      (taxies * half passengers) := by
  constructor
  · intro k hk
    exact next_task h hk fun hc => Nat.lt_of_le_of_lt hk (fits hc)
  · exact next_end (Nat.le_refl _)

/-- The splitter goes through the tasks under their numbers, if these can all be counted. -/
theorem enumerates (checks : Bool) (h : 1 ≤ passengers)
    (small : taxies * half passengers < 2 ^ 64) :
    Enumerates (next checks) (after taxies passengers) (fun id => (id, task passengers id))
      (taxies * half passengers) := by
  constructor
  · intro k hk
    have hsmall : k % 2 ^ 64 = k := Nat.mod_eq_of_lt (hk.trans small)
    rw [next_task h hk fun _ => Nat.lt_of_le_of_lt hk small, hsmall]
  · exact next_end (Nat.le_refl _)

/-- Every set of passengers is in one of the two places of a task for each taxi. -/
theorem task_covers (h : 1 ≤ passengers) {taxi set : Nat} (htaxi : taxi < taxies)
    (hset : set < 2 ^ passengers) :
    ∃ k < taxies * half passengers, (task passengers k).taxi = taxi ∧
      ((task passengers k).combinations.1 = set ∨ (task passengers k).combinations.2 = set) := by
  have hpos := half_pos passengers
  have hhalf := two_half h
  have hslot : ∀ r < half passengers, taxi * half passengers + r < taxies * half passengers ∧
      (taxi * half passengers + r) / half passengers = taxi ∧
        (taxi * half passengers + r) % half passengers = r := by
    intro r hr
    refine ⟨?_, ?_, ?_⟩
    · have hle : (taxi + 1) * half passengers ≤ taxies * half passengers :=
        Nat.mul_le_mul_right _ htaxi
      rw [Nat.add_mul] at hle
      omega
    · rw [Nat.mul_comm, Nat.mul_add_div hpos, Nat.div_eq_of_lt hr, Nat.add_zero]
    · rw [Nat.mul_comm, Nat.mul_add_mod, Nat.mod_eq_of_lt hr]
  by_cases hlow : set < half passengers
  · obtain ⟨hk, hdiv, hmod⟩ := hslot (half passengers - 1 - set) (by omega)
    refine ⟨_, hk, hdiv, .inr ?_⟩
    simp only [task, hmod]
    rw [complement (by omega)]
    omega
  · obtain ⟨hk, hdiv, hmod⟩ := hslot (set - half passengers) (by omega)
    refine ⟨_, hk, hdiv, .inl ?_⟩
    simp only [task, hmod]
    omega

/-- A set of passengers stands in one place of one task for each taxi. -/
theorem task_once (h : 1 ≤ passengers) {k' : Nat} {i i' : Fin 2}
    (htaxi : (task passengers k).taxi = (task passengers k').taxi)
    (hset : (task passengers k).combination i = (task passengers k').combination i') :
    k = k' ∧ i = i' := by
  have hpos := half_pos passengers
  have hhalf := two_half h
  have hmod := Nat.mod_lt k hpos
  have hmod' := Nat.mod_lt k' hpos
  have hdiv : k / half passengers = k' / half passengers := htaxi
  have hk := Nat.div_add_mod k (half passengers)
  have hk' := Nat.div_add_mod k' (half passengers)
  rw [hdiv] at hk
  have hhigh : ∀ k, (task passengers k).combination 0 = half passengers + k % half passengers :=
    fun _ => rfl
  have hlow : ∀ k, (task passengers k).combination 1 =
      half passengers - 1 - k % half passengers := by
    intro k
    have hmod := Nat.mod_lt k hpos
    have hset : half passengers + k % half passengers < 2 ^ passengers := by omega
    have hcomplement := complement hset
    exact hcomplement.trans (by omega)
  match i, i' with
  | 0, 0 =>
    rw [hhigh, hhigh] at hset
    exact ⟨by omega, rfl⟩
  | 1, 1 =>
    rw [hlow, hlow] at hset
    exact ⟨by omega, rfl⟩
  | 0, 1 =>
    rw [hhigh, hlow] at hset
    omega
  | 1, 0 =>
    rw [hlow, hhigh] at hset
    omega

/-- Iterating the splitter gives as many tasks as it announces, numbered in their order, and every
set of passengers of every taxi stands in one place of one of them. -/
theorem splits (checks : Bool) (h : 1 ≤ passengers) (few : passengers ≤ 127)
    (small : taxies * 2 ^ (passengers - 1) < 2 ^ 64) :
    ∃ start items last total, new checks taxies passengers = .ok start ∧
      start.totalTasks checks = .ok total ∧ Yields (next checks) start items last ∧
      last.next checks = .ok (none, last) ∧ items.length = total ∧
      items.map Prod.fst = List.range total ∧
      ∀ taxi < taxies, ∀ set < 2 ^ passengers, ∃! place : Nat × Fin 2,
        ∃ item, items[place.1]? = some item ∧ item.2.taxi = taxi ∧
          item.2.combination place.2 = set := by
  have enumerated := enumerates checks h small
  have htotal : (after taxies passengers 0).totalTasks checks = .ok (taxies * half passengers) := by
    have hcomm : half passengers * taxies = taxies * half passengers := Nat.mul_comm _ _
    have hlt : half passengers * taxies < 2 ^ 128 :=
      hcomm ▸ small.trans (Nat.pow_lt_pow_right (by decide) (by decide))
    have hmul := mulBits_of_lt hlt checks
    rw [hcomm] at hmul
    exact hmul
  have hyields := enumerated.yields (k := 0) (n := taxies * half passengers) (by omega)
  rw [Nat.zero_add] at hyields
  refine ⟨_, _, _, _, new_eq h (by omega), htotal, hyields, enumerated.done, ?_, ?_, ?_⟩
  · rw [List.length_map, List.length_range']
  · rw [List.map_map, List.range_eq_range']
    exact List.map_id _
  · intro taxi htaxi set hset
    have hitem : ∀ k item, ((List.range' 0 (taxies * half passengers)).map
        fun id => (id, task passengers id))[k]? = some item → item.2 = task passengers k := by
      intro k item hk
      rw [List.getElem?_map, Option.map_eq_some_iff] at hk
      obtain ⟨id, hid, rfl⟩ := hk
      obtain ⟨hlt, hid⟩ := List.getElem?_eq_some_iff.mp hid
      rw [List.getElem_range'] at hid
      rw [← hid, Nat.one_mul, Nat.zero_add]
    obtain ⟨k, hk, hktaxi, hplace⟩ := task_covers h htaxi hset
    obtain ⟨i, hi⟩ : ∃ i, (task passengers k).combination i = set := by
      cases hplace with
      | inl hfirst => exact ⟨0, hfirst⟩
      | inr hsecond => exact ⟨1, hsecond⟩
    refine ⟨(k, i), ⟨(k, task passengers k), ?_, hktaxi, hi⟩, ?_⟩
    · rw [List.getElem?_map, List.getElem?_range' hk, Option.map_some, Nat.one_mul, Nat.zero_add]
    · intro place hother
      obtain ⟨item, hget, htaxi', hset'⟩ := hother
      rw [hitem place.1 item hget] at htaxi' hset'
      obtain ⟨hk', hi'⟩ := task_once h (htaxi'.trans hktaxi.symm) (hset'.trans hi.symm)
      exact Prod.ext hk' hi'

/-- Two taxis and four passengers. -/
theorem splits_small : ∃ start items last total, new true 2 4 = .ok start ∧
    start.totalTasks true = .ok total ∧ Yields (next true) start items last ∧
    last.next true = .ok (none, last) ∧ items.length = total ∧
    items.map Prod.fst = List.range total ∧
    ∀ taxi < 2, ∀ set < 2 ^ 4, ∃! place : Nat × Fin 2,
      ∃ item, items[place.1]? = some item ∧ item.2.taxi = taxi ∧
        item.2.combination place.2 = set :=
  splits true (by decide) (by decide) (by decide)

end

end TaskSplitter
end GridServer.TaskManager
