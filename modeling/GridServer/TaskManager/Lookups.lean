import GridServer.TaskManager.Tables

namespace GridServer.TaskManager
open Library

/-- A set of passengers with its distance, as a worker reports it for a taxi. -/
structure Report where
  taxi : Nat
  set : Nat
  distance : Distance
deriving DecidableEq, Repr

/-- File the reports one after another. -/
def fileAll (checks : Bool) (tables : List (MultilevelVecMap Distance)) (reports : List Report) :
    Except Fault (List (MultilevelVecMap Distance)) :=
  reports.foldlM (fun parts r => file checks parts r.taxi (r.set, r.distance)) tables

/-- What has been reported for the taxi, the last first. -/
def reportedFor (reports : List Report) (taxi : Nat) : List (Nat × Distance) :=
  (reports.reverse.filter fun r => r.taxi = taxi).map fun r => (r.set, r.distance)

/-- The tables of the job take all reports, and the last one for every set of passengers of a taxi
is what the reducer finds under the words of that set. -/
def Recovers (checks : Bool) (taxies passengers : Nat) (reports : List Report) : Prop :=
  ∃ tables after, parts checks taxies passengers = .ok tables ∧
    fileAll checks tables reports = .ok after ∧
    ∀ taxi < taxies, ∃ part, after[taxi]? = some part ∧ ∀ set < 2 ^ passengers,
      part.get (.ofNat (passengers / 64 + 1) set) = .ok ((reportedFor reports taxi).lookup set)

/-- The reports are of the job's taxis and passengers. -/
def Proper (taxies passengers : Nat) (reports : List Report) : Prop :=
  ∀ r ∈ reports, r.taxi < taxies ∧ r.set < 2 ^ passengers

/-- The first report for a taxi is not of a set with all of the first 64 passengers. -/
def Openable (reports : List Report) : Prop :=
  ∀ r ∈ reports, reports.find? (fun r' => r'.taxi = r.taxi) = some r → r.set % 2 ^ 64 + 1 < 2 ^ 64

section
variable {checks : Bool} {taxies passengers taxi set : Nat} {reports : List Report} {r : Report}
  {part : MultilevelVecMap Distance} {tables after : List (MultilevelVecMap Distance)}

theorem reportedFor_snoc (reports : List Report) (r : Report) (taxi : Nat) :
    reportedFor (reports ++ [r]) taxi =
      if r.taxi = taxi then (r.set, r.distance) :: reportedFor reports taxi
      else reportedFor reports taxi := by
  by_cases h : r.taxi = taxi
  · simp [reportedFor, h]
  · simp [reportedFor, h]

theorem fileAll_snoc : fileAll checks tables (reports ++ [r]) =
    fileAll checks tables reports >>= fun parts =>
      file checks parts r.taxi (r.set, r.distance) := by
  simp only [fileAll, List.foldlM_append, List.foldlM_cons, List.foldlM_nil, bind_pure]

/-- The table has what has been reported, the last first. -/
structure Has (levelsIdx : Nat) (part : MultilevelVecMap Distance) (found : List (Nat × Distance)) :
    Prop where
  shaped : part.Shaped
  depth : part.levelsIdx = levelsIdx
  find : ∀ set < 2 ^ 128, part.find (split set) = found.lookup set
  opened : 0 < part.vec.length ↔ found ≠ []

/-- The reducer's words of a set stand for the same entry as the words it is filed under. -/
theorem padded_ofNat (hlt : passengers ≤ 127) (hset : set < 2 ^ passengers) :
    Entry.padded (passengers % 64) (.ofNat (passengers / 64 + 1) set) =
      Entry.padded (passengers % 64) (split set) := by
  by_cases hsmall : passengers < 64
  · have hone : Words.ofNat (passengers / 64 + 1) set = [BitVec.ofNat 64 set] := by
      rw [Nat.div_eq_of_lt hsmall]
      rfl
    have hhigh : set >>> 64 = 0 := by
      rw [Nat.shiftRight_eq_div_pow]
      exact Nat.div_eq_of_lt (hset.trans_le (Nat.pow_le_pow_right (by decide) (by omega)))
    have hsplit : split set = Words.ofNat (passengers / 64 + 1) set ++ [0] := by
      rw [hone, split, hhigh]
      rfl
    rw [hsplit, Entry.padded_concat_zero]
  · have htwo : passengers / 64 + 1 = 2 := by omega
    rw [htwo]
    rfl

theorem length_ofNat (h : 1 ≤ passengers) (hne : passengers ≠ 64) (hlt : passengers ≤ 127) :
    (Words.ofNat (passengers / 64 + 1) set).length ≤ passengers % 64 + 1 := by
  rw [Words.ofNat, List.length_map, List.length_range]
  omega

theorem reportedFor_eq_nil :
    reportedFor reports taxi = [] ↔ reports.find? (fun r => r.taxi = taxi) = none := by
  rw [reportedFor, List.map_eq_nil_iff, List.filter_eq_nil_iff, List.find?_eq_none]
  simp only [List.mem_reverse]

theorem openable_snoc : Openable (reports ++ [r]) ↔
    Openable reports ∧ (reportedFor reports r.taxi = [] → r.set % 2 ^ 64 + 1 < 2 ^ 64) := by
  rw [reportedFor_eq_nil]
  constructor
  · intro openable
    refine ⟨?_, ?_⟩
    · intro r' hr' hfirst
      apply openable r' (List.mem_append_left _ hr')
      rw [List.find?_append, hfirst, Option.some_or]
    · intro hnone
      apply openable r (List.mem_append_right _ List.mem_cons_self)
      rw [List.find?_append, hnone, Option.none_or]
      simp
  · intro ⟨openable, hlast⟩ r' hr' hfirst
    rw [List.find?_append] at hfirst
    cases hfound : reports.find? (fun r'' => r''.taxi = r'.taxi) with
    | some first =>
      rw [hfound, Option.some_or, Option.some.injEq] at hfirst
      subst hfirst
      exact openable first (List.mem_of_find?_eq_some hfound) hfound
    | none =>
      rcases List.mem_append.mp hr' with hold | hnew
      · have hno := List.find?_eq_none.mp hfound r' hold
        simp at hno
      · obtain rfl := List.mem_singleton.mp hnew
        exact hlast hfound

/-- Every table has what has been reported for its taxi. -/
def Tabled (taxies levelsIdx : Nat) (reports : List Report)
    (after : List (MultilevelVecMap Distance)) : Prop :=
  ∀ taxi < taxies, ∃ part, after[taxi]? = some part ∧
    Has levelsIdx part (reportedFor reports taxi)

theorem tabled_parts (checks : Bool) (taxies passengers : Nat) :
    ∃ tables, parts checks taxies passengers = .ok tables ∧
      Tabled taxies (passengers % 64) [] tables := by
  have hnew : MultilevelVecMap.new (T := Distance) checks (passengers % 64 + 1) =
      .ok ⟨0, passengers % 64, []⟩ := by
    rw [MultilevelVecMap.new, usizeSub, subBits_of_le (by omega)]
    rfl
  refine ⟨List.replicate taxies ⟨0, passengers % 64, []⟩, ?_, ?_⟩
  · rw [parts, hnew]
    rfl
  · intro taxi htaxi
    refine ⟨⟨0, passengers % 64, []⟩, ?_, Entry.shaped_nil _, rfl, ?_, by simp [reportedFor]⟩
    · rw [List.getElem?_replicate, if_pos htaxi]
    · intro set _
      exact Entry.find_nil _ _

section Filing
variable {found : List (Nat × Distance)} {levelsIdx : Nat}

theorem Has.roomy_iff (has : Has levelsIdx part found) (hlevels : 1 ≤ levelsIdx)
    (hset : set < 2 ^ 127) :
    part.Roomy (split set) ↔ (found = [] → set % 2 ^ 64 + 1 < 2 ^ 64) := by
  obtain ⟨levels, hdepth⟩ : ∃ levels, part.levelsIdx = levels + 1 :=
    ⟨part.levelsIdx - 1, by have := has.depth; omega⟩
  constructor
  · intro roomy hnil
    rw [MultilevelVecMap.Roomy, hdepth] at roomy
    rcases roomy.1 with hopen | hlow
    · exact absurd hnil (has.opened.mp hopen)
    · exact hlow
  · intro hlow
    apply roomy_split hset (by omega)
    by_cases hnil : found = []
    · exact .inr (hlow hnil)
    · exact .inl (has.opened.mpr hnil)

theorem Has.insert (checks : Bool) (has : Has levelsIdx part found) (hlevels : 1 ≤ levelsIdx)
    (hset : set < 2 ^ 127) (hlow : found = [] → set % 2 ^ 64 + 1 < 2 ^ 64) (d : Distance) :
    ∃ after old, part.insert checks (split set) d = .ok (after, old) ∧
      Has levelsIdx after ((set, d) :: found) := by
  have hkey : (split set).length ≤ part.levelsIdx + 1 := by
    have hlength : (split set).length = 2 := rfl
    have hdepth := has.depth
    omega
  obtain ⟨after, hinsert, hshaped, hdepth, hfind⟩ := MultilevelVecMap.insert_ok checks has.shaped
    ((has.roomy_iff hlevels hset).mpr hlow) hkey d
  refine ⟨after, _, hinsert, hshaped, hdepth.trans has.depth, ?_, ?_⟩
  · intro set' hset'
    obtain ⟨levels, hlevels⟩ : ∃ levels, part.levelsIdx = levels + 1 :=
      ⟨part.levelsIdx - 1, by have := has.depth; omega⟩
    rw [hfind, hlevels, List.lookup_cons]
    by_cases hsame : set' = set
    · subst hsame
      simp
    · rw [if_neg fun hpadded => hsame (split_inj hpadded hset' (hset.trans (by decide))),
        has.find set' hset', beq_false_of_ne hsame]
  · refine iff_of_true (List.length_pos_iff.mpr ?_) (List.cons_ne_nil _ _)
    intro hnil
    have hnone : after.find (split set) = none := by
      rw [MultilevelVecMap.find, hnil]
      exact Entry.find_nil _ _
    rw [hfind, if_pos rfl] at hnone
    cases hnone

theorem Tabled.file (checks : Bool) {parts : List (MultilevelVecMap Distance)}
    (tabled : Tabled taxies levelsIdx reports parts) (hlevels : 1 ≤ levelsIdx)
    (htaxi : r.taxi < taxies) (hset : r.set < 2 ^ 127)
    (hlow : reportedFor reports r.taxi = [] → r.set % 2 ^ 64 + 1 < 2 ^ 64) :
    ∃ after, TaskManager.file checks parts r.taxi (r.set, r.distance) = .ok after ∧
      Tabled taxies levelsIdx (reports ++ [r]) after := by
  obtain ⟨part, hpart, has⟩ := tabled r.taxi htaxi
  obtain ⟨part', old, hinsert, has'⟩ := has.insert checks hlevels hset hlow r.distance
  have hlt := (List.getElem?_eq_some_iff.mp hpart).1
  refine ⟨parts.set r.taxi part', ?_, ?_⟩
  · simp only [TaskManager.file, hpart, hinsert, ok_bind, except_pure]
  · intro taxi htaxi'
    rw [reportedFor_snoc]
    by_cases hsame : r.taxi = taxi
    · subst hsame
      rw [if_pos rfl]
      exact ⟨part', List.getElem?_set_self hlt, has'⟩
    · rw [if_neg hsame]
      obtain ⟨other, hother, hhas⟩ := tabled taxi htaxi'
      exact ⟨other, (List.getElem?_set_ne hsame).trans hother, hhas⟩

theorem Tabled.low_of_file {parts : List (MultilevelVecMap Distance)}
    (tabled : Tabled taxies levelsIdx reports parts) (hlevels : 1 ≤ levelsIdx)
    (htaxi : r.taxi < taxies) (hset : r.set < 2 ^ 127)
    (h : TaskManager.file checks parts r.taxi (r.set, r.distance) = .ok after) :
    reportedFor reports r.taxi = [] → r.set % 2 ^ 64 + 1 < 2 ^ 64 := by
  obtain ⟨part, hpart, has⟩ := tabled r.taxi htaxi
  simp only [TaskManager.file, hpart, bind_ok] at h
  obtain ⟨inserted, hinsert, _⟩ := h
  have hkey : (split r.set).length ≤ part.levelsIdx + 1 := by
    have hlength : (split r.set).length = 2 := rfl
    have hdepth := has.depth
    omega
  exact (has.roomy_iff hlevels hset).mp (MultilevelVecMap.roomy_of_insert has.shaped hkey hinsert)

end Filing

theorem Proper.of_snoc (proper : Proper taxies passengers (reports ++ [r])) :
    Proper taxies passengers reports ∧ r.taxi < taxies ∧ r.set < 2 ^ passengers :=
  ⟨fun r' hr' => proper r' (List.mem_append_left _ hr'),
    proper r (List.mem_append_right _ List.mem_cons_self)⟩

/-- With more than one level the tables take the reports when they can be opened by them. -/
theorem fileAll_iff (checks : Bool) (h : 1 ≤ passengers % 64) (hlt : passengers ≤ 127)
    (htables : parts checks taxies passengers = .ok tables)
    (proper : Proper taxies passengers reports) :
    (Openable reports → ∃ after, fileAll checks tables reports = .ok after ∧
      Tabled taxies (passengers % 64) reports after) ∧
    (∀ after, fileAll checks tables reports = .ok after → Openable reports) := by
  induction reports using List.reverseRecOn with
  | nil =>
    obtain ⟨tables', htables', tabled⟩ := tabled_parts checks taxies passengers
    rw [htables, Except.ok.injEq] at htables'
    subst htables'
    exact ⟨fun _ => ⟨tables, rfl, tabled⟩, fun _ _ => by simp [Openable]⟩
  | append_singleton reports r ih =>
    obtain ⟨hbefore, htaxi, hset⟩ := proper.of_snoc
    obtain ⟨hopens, hopened⟩ := ih hbefore
    have hset : r.set < 2 ^ 127 := hset.trans_le (Nat.pow_le_pow_right (by decide) hlt)
    rw [openable_snoc, fileAll_snoc]
    refine ⟨?_, ?_⟩
    · intro ⟨openable, hlow⟩
      obtain ⟨between, hbetween, tabled⟩ := hopens openable
      obtain ⟨after, hafter, tabled'⟩ := tabled.file checks h htaxi hset hlow
      exact ⟨after, by rw [hbetween, ok_bind, hafter], tabled'⟩
    · intro after hafter
      obtain ⟨between, hbetween, hlast⟩ := bind_ok.mp hafter
      have openable := hopened between hbetween
      obtain ⟨between', hbetween', tabled⟩ := hopens openable
      rw [hbetween, Except.ok.injEq] at hbetween'
      subst hbetween'
      exact ⟨openable, tabled.low_of_file h htaxi hset hlast⟩

/-- A table of a single level takes no set of passengers, and says nothing. -/
theorem fileAll_rejects (htables : parts checks taxies 64 = .ok tables)
    (proper : Proper taxies 64 reports) (h : fileAll checks tables reports = .ok after) :
    ∀ taxi < taxies, after[taxi]? = some ⟨0, 0, []⟩ := by
  have hnew : MultilevelVecMap.new (T := Distance) checks (64 % 64 + 1) = .ok ⟨0, 0, []⟩ := by
    rw [MultilevelVecMap.new, usizeSub, subBits_of_le (by decide)]
    rfl
  rw [parts, hnew, ok_bind, except_pure, Except.ok.injEq] at htables
  subst htables
  induction reports using List.reverseRecOn generalizing after with
  | nil =>
    obtain rfl := Except.ok.inj h
    intro taxi htaxi
    rw [List.getElem?_replicate, if_pos htaxi]
  | append_singleton reports r ih =>
    obtain ⟨hbefore, htaxi, _⟩ := proper.of_snoc
    rw [fileAll_snoc] at h
    obtain ⟨between, hbetween, hlast⟩ := bind_ok.mp h
    have hnone := ih hbefore hbetween
    have hlong : 0 + 1 < (split r.set).length := Nat.lt_succ_self 1
    simp only [file, hnone r.taxi htaxi, MultilevelVecMap.insert, if_pos hlong, ok_bind, except_pure,
      Except.ok.injEq] at hlast
    intro taxi htaxi'
    rw [← hlast]
    by_cases hsame : r.taxi = taxi
    · subst hsame
      have hlt := (List.getElem?_eq_some_iff.mp (hnone r.taxi htaxi)).1
      exact List.getElem?_set_self hlt
    · rw [List.getElem?_set_ne hsame]
      exact hnone taxi htaxi'

theorem not_recovers (proper : Proper taxies 64 reports) (hr : r ∈ reports) :
    ¬Recovers checks taxies 64 reports := by
  intro ⟨tables, after, htables, hfile, hfound⟩
  obtain ⟨htaxi, hset⟩ := proper r hr
  obtain ⟨part, hpart, hget⟩ := hfound r.taxi htaxi
  rw [fileAll_rejects htables proper hfile r.taxi htaxi, Option.some.injEq] at hpart
  subst hpart
  have hlong : 0 + 1 < (Words.ofNat (64 / 64 + 1) r.set).length := by
    simp [Words.ofNat]
  have hnone := hget r.set hset
  rw [MultilevelVecMap.get, if_pos hlong, Except.ok.injEq, eq_comm, List.lookup_eq_none_iff] at hnone
  have hmem : (r.set, r.distance) ∈ reportedFor reports r.taxi := by
    refine List.mem_map.mpr ⟨r, List.mem_filter.mpr ⟨List.mem_reverse.mpr hr, ?_⟩, rfl⟩
    exact decide_eq_true rfl
  have hne := hnone _ hmem
  simp at hne

theorem recovers_nil (checks : Bool) (taxies : Nat) : Recovers checks taxies 64 [] := by
  obtain ⟨tables, htables, tabled⟩ := tabled_parts checks taxies 64
  refine ⟨tables, tables, htables, rfl, ?_⟩
  intro taxi htaxi
  obtain ⟨part, hpart, has⟩ := tabled taxi htaxi
  refine ⟨part, hpart, ?_⟩
  intro set _
  have hlong : part.levelsIdx + 1 < (Words.ofNat (64 / 64 + 1) set).length := by
    rw [has.depth]
    simp [Words.ofNat]
  rw [MultilevelVecMap.get, if_pos hlong]
  rfl

end
end GridServer.TaskManager
