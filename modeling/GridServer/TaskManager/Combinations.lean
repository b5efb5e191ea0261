import GridServer.Library.Allotment
import GridServer.TaskManager.Tables
import Mathlib.Tactic.IntervalCases

namespace GridServer.TaskManager
open Library Library.Allotment

namespace CombinationGenerator

/-- Which passenger goes by which taxi in the combination of that number. -/
def pairs (taxies : Nat) : Nat → Nat → List Pair
  | 0, _ => []
  | passenger + 1, num => ⟨num % taxies, passenger⟩ :: pairs taxies passenger (num / taxies)

variable {taxies passengers num : Nat}

theorem extractCombination_eq (pos : 0 < taxies) :
    extractCombination taxies passengers num = .ok (pairs taxies passengers num) := by
  induction passengers generalizing num with
  | zero => rfl
  | succ passengers ih =>
    rw [extractCombination, if_neg (Nat.ne_of_gt pos), ih]
    rfl

theorem mem_pairs {pair : Pair} : pair ∈ pairs taxies passengers num ↔
    pair.passenger < passengers ∧
      pair.taxi = num / taxies ^ (passengers - 1 - pair.passenger) % taxies := by
  induction passengers generalizing num with
  | zero => simp [pairs]
  | succ passengers ih =>
    obtain ⟨taxi, passenger⟩ := pair
    rw [pairs, List.mem_cons, ih, Pair.mk.injEq]
    dsimp only
    by_cases hlast : passenger = passengers
    · subst hlast
      simp
    · have hplace : passengers + 1 - 1 - passenger = passengers - passenger := by omega
      by_cases hlt : passenger < passengers
      · have hsucc : passengers - passenger = passengers - 1 - passenger + 1 := by omega
        rw [hplace, hsucc, Nat.pow_succ', ← Nat.div_div_eq_div_mul]
        simp only [hlast, and_false, false_or, hlt, true_and, Nat.lt_succ_of_lt]
      · have hgt : ¬passenger < passengers + 1 := by omega
        simp [hlast, hlt, hgt]

/-- The passengers of a taxi are those that the combination's function gives it. -/
theorem mem_pairs_iff_share (pos : 0 < taxies) {taxi passenger : Nat} (htaxi : taxi < taxies) :
    (⟨taxi, passenger⟩ : Pair) ∈ pairs taxies passengers num ↔
      passenger ∈ share (nth pos passengers num) ⟨taxi, htaxi⟩ := by
  rw [mem_pairs, mem_share]
  constructor
  · intro ⟨hlt, htaxi'⟩
    exact ⟨hlt, Fin.ext htaxi'.symm⟩
  · intro ⟨hlt, hnth⟩
    exact ⟨hlt, (congrArg Fin.val hnth).symm⟩

end CombinationGenerator

namespace TaskReducer

/-- A buffer that has these words for each taxi. -/
def bufOf (start taxies : Nat) (words : Nat → Words) : List Words :=
  (List.range' start taxies).map words

variable {checks : Bool} {taxies passengers size num : Nat} {words : Nat → Words}

theorem bufOf_get {start taxi : Nat} (h : taxi < taxies) :
    (bufOf start taxies words)[taxi]? = some (words (start + taxi)) := by
  simp [bufOf, h]

theorem bufOf_set {taxi : Nat} (after : Words) :
    (bufOf 0 taxies words).set taxi after = bufOf 0 taxies (Function.update words taxi after) := by
  apply List.ext_getElem?
  intro i
  by_cases hi : i < taxies
  · rw [bufOf_get hi, Nat.zero_add]
    by_cases hsame : i = taxi
    · subst hsame
      rw [List.getElem?_set_self (by simpa [bufOf] using hi), Function.update_self]
    · rw [List.getElem?_set_ne (Ne.symm hsame), bufOf_get hi, Nat.zero_add,
        Function.update_of_ne hsame]
  · rw [List.getElem?_eq_none_iff.mpr (by simpa [bufOf] using hi),
      List.getElem?_eq_none_iff.mpr (by simpa [bufOf] using hi)]

theorem bufOf_succ (start taxies : Nat) (words : Nat → Words) :
    bufOf start (taxies + 1) words = words start :: bufOf (start + 1) taxies words := by
  simp [bufOf, List.range'_succ]

theorem bufOf_replicate (taxies : Nat) (after : Words) :
    bufOf 0 taxies (fun _ => after) = List.replicate taxies after := by
  simp [bufOf, List.map_const']

/-- A passenger's bit goes into the words of its taxi, and nothing else changes. -/
theorem board_eq {pair : Pair} (htaxi : pair.taxi < taxies)
    (hroom : pair.passenger / 64 < (words pair.taxi).length) :
    ∃ after : Nat → Words, board (bufOf 0 taxies words) pair = .ok (bufOf 0 taxies after) ∧
      (∀ taxi, (after taxi).length = (words taxi).length) ∧
      ∀ taxi i, i ∈ (after taxi).members ↔
        i ∈ (words taxi).members ∨ (⟨taxi, i⟩ : Pair) = pair := by
  obtain ⟨boarded, hset, hlength, hbits⟩ := Words.bitSet_ok hroom
  refine ⟨Function.update words pair.taxi boarded, ?_, ?_, ?_⟩
  · simp only [board, bufOf_get htaxi, Nat.zero_add, hset, ok_bind, except_pure, bufOf_set]
  · intro taxi
    by_cases hsame : taxi = pair.taxi
    · rw [hsame, Function.update_self, hlength]
    · rw [Function.update_of_ne hsame]
  · intro taxi i
    obtain ⟨taxi', passenger⟩ := pair
    rw [Words.mem_members, Words.mem_members, Pair.mk.injEq]
    by_cases hsame : taxi = taxi'
    · subst hsame
      rw [Function.update_self, hbits]
      by_cases hi : i = passenger
      · simp [hi]
      · rw [Function.update_of_ne hi]
        simp [hi]
    · rw [Function.update_of_ne hsame]
      simp [hsame]

/-- A taxi's words have the bits of its passengers once all have boarded. -/
theorem board_all (words : Nat → Words) {pairs : List Pair}
    (htaxi : ∀ pair ∈ pairs, pair.taxi < taxies)
    (hroom : ∀ pair ∈ pairs, pair.passenger / 64 < size)
    (hlength : ∀ taxi, (words taxi).length = size) :
    ∃ after : Nat → Words,
      pairs.foldlM board (bufOf 0 taxies words) = .ok (bufOf 0 taxies after) ∧
      (∀ taxi, (after taxi).length = size) ∧
      ∀ taxi i, i ∈ (after taxi).members ↔
        i ∈ (words taxi).members ∨ (⟨taxi, i⟩ : Pair) ∈ pairs := by
  induction pairs generalizing words with
  | nil => exact ⟨words, rfl, hlength, by simp⟩
  | cons pair pairs ih =>
    obtain ⟨first, hfirst, hlength₁, hmem₁⟩ := board_eq (htaxi pair List.mem_cons_self)
      ((hlength pair.taxi).symm ▸ hroom pair List.mem_cons_self)
    obtain ⟨after, hrest, hlength₂, hmem₂⟩ := ih first
      (fun p hp => htaxi p (List.mem_cons_of_mem _ hp))
      (fun p hp => hroom p (List.mem_cons_of_mem _ hp))
      (fun taxi => (hlength₁ taxi).trans (hlength taxi))
    refine ⟨after, ?_, hlength₂, ?_⟩
    · rw [List.foldlM_cons, hfirst]
      exact hrest
    · intro taxi i
      rw [hmem₂, hmem₁, List.mem_cons, or_assoc]

/-- What the taxis from `start` on that have passengers cost. -/
def charged (start taxies : Nat) (words : Nat → Words) (value : Nat → Distance) : Distance :=
  ((List.range' start taxies).map fun taxi => if (words taxi).bitAny then value taxi else 0).sum

theorem charged_succ (start taxies : Nat) (words : Nat → Words) (value : Nat → Distance) :
    charged start (taxies + 1) words value =
      (if (words start).bitAny then value start else 0) +
        charged (start + 1) taxies words value := by
  simp [charged, List.range'_succ]

/-- All taxis are charged for and emptied. -/
theorem collect_eq {parts : List (MultilevelVecMap Distance)} {value : Nat → Distance}
    {start distance : Nat} (hlength : ∀ taxi, (words taxi).length = size)
    (known : ∀ taxi, start ≤ taxi → taxi < start + taxies → (words taxi).bitAny = true →
      ∃ part, parts[taxi]? = some part ∧ part.get (words taxi) = .ok (some (value taxi)))
    (fits : distance + charged start taxies words value < 2 ^ 64) :
    collect checks parts start (bufOf start taxies words) distance =
      .ok (distance + charged start taxies words value,
        bufOf start taxies fun _ => List.replicate size 0) := by
  induction taxies generalizing start distance with
  | zero => rfl
  | succ taxies ih =>
    have hrest : ∀ taxi, start + 1 ≤ taxi → taxi < start + 1 + taxies →
        (words taxi).bitAny = true →
        ∃ part, parts[taxi]? = some part ∧ part.get (words taxi) = .ok (some (value taxi)) :=
      fun taxi hle hlt => known taxi (by omega) (by omega)
    rw [charged_succ] at fits ⊢
    rw [bufOf_succ, bufOf_succ]
    cases hany : (words start).bitAny with
    | false =>
      simp only [hany, Bool.false_eq_true, ↓reduceIte, Nat.zero_add] at fits ⊢
      have hzero := Words.eq_replicate_of_bitAny hany
      rw [hlength] at hzero
      have hlast : collect checks parts (start + 1) (bufOf (start + 1) taxies words) distance = _ :=
        ih hrest fits
      simp only [collect, hany, Bool.false_eq_true, ↓reduceIte, hlast, ok_bind, except_pure,
        ← hzero]
    | true =>
      obtain ⟨part, hpart, hget⟩ := known start (Nat.le_refl _) (by omega) hany
      simp only [hany, ↓reduceIte] at fits ⊢
      have hclear := (words start).bitClear_eq
      rw [hlength] at hclear
      have hfirst : u64Add checks distance (value start) = .ok (distance + value start) :=
        addBits_of_lt (by omega) checks
      have hlast : collect checks parts (start + 1) (bufOf (start + 1) taxies words)
          (distance + value start) = _ := ih hrest (by omega)
      simp only [collect, hany, ↓reduceIte, hpart, hget, ok_bind, hfirst, hlast, except_pure,
        hclear, Nat.add_assoc]

end TaskReducer

/-- The tables have what every taxi charges for every set of passengers but the empty one, under the
words that the reducer asks for it with. -/
def Charges (charge : ℕ → Finset ℕ → ℕ) (taxies passengers : Nat)
    (parts : List (MultilevelVecMap Distance)) : Prop :=
  ∀ taxi < taxies, ∀ words : Words, words.length = passengers / 64 + 1 →
    words.members.Nonempty → words.members ⊆ Finset.range passengers →
      ∃ part, parts[taxi]? = some part ∧ part.get words = .ok (some (charge taxi words.members))

/-- The tables of one word have what every taxi charges for every set of passengers. -/
structure Priced (charge : ℕ → Finset ℕ → ℕ) (taxies passengers : Nat)
    (parts : List (MultilevelVecMap Distance)) : Prop where
  tables : Tables taxies passengers parts
  priced : ∀ taxi < taxies, ∀ set < 2 ^ passengers,
    entry parts taxi set = some (charge taxi (members set))

theorem members_singleton (word : BitVec 64) : Words.members [word] = members word.toNat := by
  ext i
  rw [Words.mem_members, mem_members, BitVec.testBit_toNat, Words.bit]
  by_cases hi : i < 64
  · rw [Nat.div_eq_of_lt hi, Nat.mod_eq_of_lt hi]
    rfl
  · rw [List.getD_eq_default _ _ (by simp; omega), BitVec.getLsbD_of_ge _ _ (Nat.le_of_not_lt hi)]
    simp

theorem toNat_lt_of_members {passengers : Nat} {word : BitVec 64}
    (h : members word.toNat ⊆ Finset.range passengers) : word.toNat < 2 ^ passengers := by
  apply Nat.lt_pow_two_of_testBit
  intro i hi
  by_contra hbit
  have hlt := h (mem_members.mpr (Bool.eq_true_of_not_eq_false hbit))
  rw [Finset.mem_range] at hlt
  omega

theorem Priced.charges {charge : ℕ → Finset ℕ → ℕ} {taxies passengers : Nat}
    {parts : List (MultilevelVecMap Distance)} (priced : Priced charge taxies passengers parts)
    (some_passenger : 1 ≤ passengers) (few_passengers : passengers ≤ 63) :
    Charges charge taxies passengers parts := by
  intro taxi htaxi words hlength _ hmembers
  have hsize : passengers / 64 + 1 = 1 := by omega
  rw [hsize, List.length_eq_one_iff] at hlength
  obtain ⟨word, rfl⟩ := hlength
  rw [members_singleton] at hmembers ⊢
  exact priced.tables.get some_passenger word.isLt
    (priced.priced taxi htaxi _ (toNat_lt_of_members hmembers)) rfl

namespace TaskReducer
variable {checks : Bool} {taxies passengers num : Nat} {charge : ℕ → Finset ℕ → ℕ}
  {parts : List (MultilevelVecMap Distance)} {words : Nat → Words}

/-- The reducer that has `num` combinations left. -/
def left (parts : List (MultilevelVecMap Distance)) (taxies passengers num : Nat) : TaskReducer :=
  ⟨List.replicate taxies (List.replicate (passengers / 64 + 1) 0), ⟨num, taxies, passengers⟩, parts⟩

theorem charged_eq_sum (taxies : Nat) (words : Nat → Words) (value : Nat → Distance) :
    charged 0 taxies words value =
      ∑ taxi ∈ Finset.range taxies, if (words taxi).bitAny then value taxi else 0 := by
  rw [charged, ← List.range_eq_range']
  induction taxies with
  | zero => rfl
  | succ taxies ih =>
    rw [List.range_succ, List.map_append, List.sum_append, ih, Finset.sum_range_succ]
    simp

/-- The words of a combination stand for the shares of the taxis, and cost what these do. -/
theorem charged_eq_cost (charge : ℕ → Finset ℕ → ℕ) {f : Fin passengers → Fin taxies}
    (hshare : ∀ taxi (h : taxi < taxies), (words taxi).members = share f ⟨taxi, h⟩) :
    charged 0 taxies words (fun taxi => charge taxi (words taxi).members) = cost charge f := by
  rw [charged_eq_sum, Finset.sum_range, cost, Finset.sum_filter]
  apply Finset.sum_congr rfl
  intro taxi _
  rw [hshare taxi taxi.isLt]
  refine if_congr ?_ rfl rfl
  rw [← Words.members_nonempty, hshare taxi taxi.isLt]

/-- A step gives what the next combination costs and leaves the buffers empty. -/
theorem next_eq (pos : 0 < taxies) (charges : Charges charge taxies passengers parts)
    (fits : cost charge (nth pos passengers num) < 2 ^ 64) :
    (left parts taxies passengers (num + 1)).next checks =
      .ok (some (cost charge (nth pos passengers num)), left parts taxies passengers num) := by
  have htaxi : ∀ pair ∈ CombinationGenerator.pairs taxies passengers num, pair.taxi < taxies :=
    fun pair hpair => (CombinationGenerator.mem_pairs.mp hpair).2 ▸ Nat.mod_lt _ pos
  have hroom : ∀ pair ∈ CombinationGenerator.pairs taxies passengers num,
      pair.passenger / 64 < passengers / 64 + 1 := by
    intro pair hpair
    have hlt := (CombinationGenerator.mem_pairs.mp hpair).1
    omega
  obtain ⟨words, hboard, hlength, hmembers⟩ :=
    board_all (fun _ => List.replicate (passengers / 64 + 1) 0) htaxi hroom
      (fun _ => List.length_replicate ..)
  have hempty : Words.members (List.replicate (passengers / 64 + 1) 0) = ∅ := by
    rw [← Finset.not_nonempty_iff_eq_empty, Words.members_nonempty]
    simp [Words.bitAny]
  have hshare : ∀ taxi (h : taxi < taxies),
      (words taxi).members = share (nth pos passengers num) ⟨taxi, h⟩ := by
    intro taxi htaxi
    ext i
    rw [hmembers, hempty, ← CombinationGenerator.mem_pairs_iff_share pos htaxi]
    simp
  have hcost := charged_eq_cost charge hshare
  have hknown : ∀ taxi, 0 ≤ taxi → taxi < 0 + taxies → (words taxi).bitAny = true → ∃ part,
      parts[taxi]? = some part ∧
        part.get (words taxi) = .ok (some (charge taxi (words taxi).members)) := by
    intro taxi _ htaxi hany
    rw [Nat.zero_add] at htaxi
    refine charges taxi htaxi (words taxi) (hlength taxi) (Words.members_nonempty.mpr hany) ?_
    intro i hi
    rw [hshare taxi htaxi, mem_share] at hi
    exact Finset.mem_range.mpr hi.1
  have hcollect : collect checks parts 0 (bufOf 0 taxies words) 0 = _ :=
    collect_eq hlength hknown (by rwa [hcost, Nat.zero_add])
  rw [hcost, Nat.zero_add, bufOf_replicate] at hcollect
  rw [bufOf_replicate] at hboard
  have hcombination : (left parts taxies passengers (num + 1)).combinations.next =
      .ok (some (CombinationGenerator.pairs taxies passengers num), ⟨num, taxies, passengers⟩) := by
    simp only [left, CombinationGenerator.next, Nat.add_one_ne_zero, ↓reduceIte,
      Nat.add_one_sub_one, CombinationGenerator.extractCombination_eq pos, ok_bind, except_pure]
  rw [next, hcombination]
  simp only [ok_bind, left, hboard, hcollect, except_pure]

theorem next_last : (left parts taxies passengers 0).next checks =
    .ok (none, left parts taxies passengers 0) := rfl

theorem new_eq (checks : Bool) (parts : List (MultilevelVecMap Distance)) (pos : 0 < taxies)
    (countable : taxies ^ passengers < 2 ^ 128) : new checks taxies passengers parts =
      .ok (left parts taxies passengers (taxies ^ passengers)) := by
  have hexponent : taxies ^ (passengers % 2 ^ 32) = taxies ^ passengers := by
    rcases Nat.lt_or_ge 1 taxies with hmany | hone
    · -- With two taxis or more, fewer than 128 passengers can be counted.
      have hfew : passengers < 128 := (Nat.pow_lt_pow_iff_right Nat.one_lt_two).mp
        ((Nat.pow_le_pow_left hmany passengers).trans_lt countable)
      rw [Nat.mod_eq_of_lt (by omega)]
    · obtain rfl : taxies = 1 := by omega
      rw [Nat.one_pow, Nat.one_pow]
  have hpow : u128Pow checks taxies (passengers % 2 ^ 32) = .ok (taxies ^ passengers) := by
    rw [← hexponent] at countable ⊢
    exact powBits_of_lt countable checks
  rw [new, CombinationGenerator.new, hpow]
  rfl

/-- A reducer with full tables goes through what the combinations cost. -/
theorem enumerates (pos : 0 < taxies) (charges : Charges charge taxies passengers parts)
    (fits : ∀ f : Fin passengers → Fin taxies, cost charge f < 2 ^ 64) :
    Enumerates (next checks) (fun k => left parts taxies passengers (taxies ^ passengers - k))
      (fun k => cost charge (nth pos passengers (taxies ^ passengers - 1 - k)))
      (taxies ^ passengers) := by
  constructor
  · intro k hk
    have hleft : taxies ^ passengers - k = taxies ^ passengers - 1 - k + 1 := by omega
    have hnext : taxies ^ passengers - (k + 1) = taxies ^ passengers - 1 - k := by omega
    rw [hleft, hnext]
    exact next_eq pos charges (fits _)
  · rw [Nat.sub_self]
    exact next_last

/-- A reducer gives what each function from the passengers to the taxis costs, once, and then ends.
Its buffers are empty after every step. -/
theorem new_enumerates (checks : Bool) (some_taxi : 1 ≤ taxies)
    (countable : taxies ^ passengers < 2 ^ 128) (charges : Charges charge taxies passengers parts)
    (fits : ∀ f : Fin passengers → Fin taxies, cost charge f < 2 ^ 64) :
    ∃ (state : ℕ → TaskReducer) (assigned : ℕ → Fin passengers → Fin taxies),
      new checks taxies passengers parts = .ok (state 0) ∧
      Enumerates (next checks) state (fun k => cost charge (assigned k)) (taxies ^ passengers) ∧
      Set.BijOn assigned (Set.Iio (taxies ^ passengers)) Set.univ ∧
      ∀ k, (state k).buf =
        List.replicate taxies (List.replicate (passengers / 64 + 1) 0) :=
  ⟨_, _, new_eq checks parts some_taxi countable, enumerates some_taxi charges fits,
    nth_bijOn_down some_taxi passengers, fun _ => rfl⟩

/-- Two taxis that ask for as much as they have passengers, and the second for one more. -/
theorem new_enumerates_two : ∃ (state : ℕ → TaskReducer) (assigned : ℕ → Fin 2 → Fin 2),
    new true 2 2 [⟨2, 0, [.empty, .value 1, .value 1, .value 2]⟩,
      ⟨2, 0, [.empty, .value 2, .value 2, .value 3]⟩] = .ok (state 0) ∧
    Enumerates (next true) state (fun k => cost (fun taxi set => taxi + set.card) (assigned k)) 4 ∧
    Set.BijOn assigned (Set.Iio 4) Set.univ ∧
    ∀ k, (state k).buf = [[0], [0]] := by
  refine new_enumerates true (by decide) (by decide) ?_ (by decide)
  intro taxi htaxi words hlength hsome hmembers
  obtain ⟨word, rfl⟩ := List.length_eq_one_iff.mp hlength
  rw [members_singleton] at hsome hmembers ⊢
  have hlt := toNat_lt_of_members hmembers
  rw [members_nonempty] at hsome
  obtain ⟨set, hset⟩ : ∃ set, set = word.toNat := ⟨_, rfl⟩
  obtain rfl : word = BitVec.ofNat 64 set := by rw [hset, BitVec.ofNat_toNat, BitVec.setWidth_eq]
  rw [← hset] at hlt hsome ⊢
  interval_cases taxi
  · interval_cases set
    · exact absurd rfl hsome
    · exact ⟨_, rfl, rfl⟩
    · exact ⟨_, rfl, rfl⟩
    · exact ⟨_, rfl, rfl⟩
  · interval_cases set
    · exact absurd rfl hsome
    · exact ⟨_, rfl, rfl⟩
    · exact ⟨_, rfl, rfl⟩
    · exact ⟨_, rfl, rfl⟩

end TaskReducer

end GridServer.TaskManager
