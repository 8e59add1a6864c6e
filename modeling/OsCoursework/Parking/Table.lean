import OsCoursework.Lib.BoundedMap
import OsCoursework.Parking.Code

/-!
# The table is a bounded map

The occupied records are a map from plates to arrival times. Every command does to
it what the map does, whatever the slots are.
-/

open OsCoursework.Cstring OsCoursework.Transition

namespace OsCoursework.Parking

variable {n : Nat} {hourlyRate : ℚ} {table table' : List ParkingRecord} {plate : List CChar}

/-! ## The abstract car park -/

/-- Plates and arrival times, of at most `n` cars. -/
abbrev Lot (n : Nat) := BoundedMap (List CChar) Int n

def Lot.park (m : Lot n) (plate : List CChar) (arrival : Int) : Reply × Lot n :=
  if ¬ isValidPlate plate ∨ arrival ≤ 0 ∨ arrival > 86400 then (.invalidCommand, m)
  else if m.lookup (text plate) ≠ none then (.invalidCommand, m)
  else if h : m.keys.card < n then (.nothing, m.insert (text plate) arrival h)
  else (.full, m)

/-- The fee is for at most ten started hours. -/
def Lot.leave (hourlyRate : ℚ) (m : Lot n) (plate : List CChar) (leaveTime : Int) : Reply × Lot n :=
  if ¬ isValidPlate plate ∨ leaveTime ≤ 0 ∨ leaveTime > 86400 then (.invalidCommand, m)
  else
    match m.lookup (text plate) with
    | none => (.notFound (text plate), m)
    | some arrival =>
      if arrival ≤ leaveTime then
        (.fee (hourlyRate * min 10 ⌈((leaveTime - arrival : Int) : ℚ) / 3600⌉), m.erase (text plate))
      else (.invalidCommand, m)

/-! ## The table as slots -/

def ParkingRecord.entry (r : ParkingRecord) : Option (List CChar × Int) :=
  if r.occupied then some (text r.plate.toList, r.arrivalTime) else none

def entries (table : List ParkingRecord) : Slots (List CChar) Int := table.map ParkingRecord.entry

theorem entries_cons (r : ParkingRecord) (table : List ParkingRecord) :
    entries (r :: table) = r.entry :: entries table := rfl

theorem text_parkedRecord (h : isValidPlate plate = true) (arrival : Int) :
    text (parkedRecord plate arrival).plate.toList = text plate := by
  have hlen : strlen plate ≤ maxPlateLen - 1 := by
    by_contra hlen
    have hlong : strlen plate < 7 ∨ strlen plate > 8 := Or.inr (not_le.mp hlen)
    rw [isValidPlate, if_pos hlong] at h
    cases h
  rw [parkedRecord, text_push_zero, text_strncpy, List.take_of_length_le hlen]

theorem entry_parkedRecord (h : isValidPlate plate = true) (arrival : Int) :
    (parkedRecord plate arrival).entry = some (text plate, arrival) := by
  have hentry : (parkedRecord plate arrival).entry =
      some (text (parkedRecord plate arrival).plate.toList, arrival) := rfl
  rw [hentry, text_parkedRecord h]

theorem duplicate_iff (table : List ParkingRecord) (plate : List CChar) :
    duplicate table plate = true ↔ Slots.find (text plate) (entries table) ≠ none := by
  induction table with
  | nil => simp [duplicate, entries, Slots.find]
  | cons r table ih =>
    rw [duplicate, List.any_cons, Bool.or_eq_true, ← duplicate, ih, entries_cons]
    by_cases hr : r.occupied
    · rw [ParkingRecord.entry, if_pos hr, Slots.find]
      by_cases hp : text r.plate.toList = text plate
      · simp [hr, ParkingRecord.hasPlate, hp]
      · simp [hr, ParkingRecord.hasPlate, hp]
    · rw [ParkingRecord.entry, if_neg hr, Slots.find]
      simp [hr]

theorem parkLoop_spec (h : isValidPlate plate = true) (arrival : Int) (table : List ParkingRecord) :
    ((parkLoop plate arrival table).1 = true ↔ none ∈ entries table) ∧
    entries (parkLoop plate arrival table).2 = Slots.put (text plate, arrival) (entries table) ∧
    (none ∉ entries table → (parkLoop plate arrival table).2 = table) := by
  induction table with
  | nil => simp [parkLoop, entries, Slots.put]
  | cons r table ih =>
    obtain ⟨ih1, ih2, ih3⟩ := ih
    by_cases hr : r.occupied
    · have hentry : r.entry = some (text r.plate.toList, r.arrivalTime) := if_pos hr
      rw [parkLoop, if_neg (not_not.mpr hr), entries_cons, entries_cons, hentry, Slots.put, ih2]
      refine ⟨by simpa using ih1, rfl, fun hfull => ?_⟩
      rw [ih3 (by simpa using hfull)]
    · have hentry : r.entry = none := if_neg hr
      rw [parkLoop, if_pos hr, entries_cons, entries_cons, hentry, entry_parkedRecord h]
      simp [Slots.put]

theorem leaveLoop_pass (hourlyRate : ℚ) {r : ParkingRecord} (hr : ¬ (r.occupied = true ∧ r.hasPlate plate))
    (leaveTime : Int) (table : List ParkingRecord) : leaveLoop hourlyRate plate leaveTime (r :: table) =
      ((leaveLoop hourlyRate plate leaveTime table).1, r :: (leaveLoop hourlyRate plate leaveTime table).2) ∧
    Slots.find (text plate) (entries (r :: table)) = Slots.find (text plate) (entries table) ∧
    Slots.remove (text plate) (entries (r :: table)) = r.entry :: Slots.remove (text plate) (entries table) := by
  refine ⟨by rw [leaveLoop, if_neg hr], ?_⟩
  rw [entries_cons]
  by_cases ho : r.occupied
  · have hentry : r.entry = some (text r.plate.toList, r.arrivalTime) := if_pos ho
    have hp : ¬ text r.plate.toList = text plate := fun hp => hr ⟨ho, hp⟩
    rw [hentry, Slots.find, Slots.remove, if_neg hp, if_neg hp]
    exact ⟨rfl, rfl⟩
  · have hentry : r.entry = none := if_neg ho
    rw [hentry, Slots.find, Slots.remove]
    exact ⟨rfl, rfl⟩

theorem leaveLoop_spec (hourlyRate : ℚ) (plate : List CChar) (leaveTime : Int) (table : List ParkingRecord) :
    (Slots.find (text plate) (entries table) = none →
      leaveLoop hourlyRate plate leaveTime table = (none, table)) ∧
    ∀ arrival, Slots.find (text plate) (entries table) = some arrival →
      (leaveTime < arrival → leaveLoop hourlyRate plate leaveTime table = (some .invalidCommand, table)) ∧
      (¬ leaveTime < arrival → (leaveLoop hourlyRate plate leaveTime table).1 =
          some (.fee (parkingFee hourlyRate (leaveTime - arrival))) ∧
        entries (leaveLoop hourlyRate plate leaveTime table).2 = Slots.remove (text plate) (entries table)) := by
  induction table with
  | nil => simp [leaveLoop, entries, Slots.find]
  | cons r table ih =>
    obtain ⟨ihNone, ihSome⟩ := ih
    by_cases hr : r.occupied = true ∧ r.hasPlate plate
    · have hentry : r.entry = some (text r.plate.toList, r.arrivalTime) := if_pos hr.1
      have hplate : text r.plate.toList = text plate := hr.2
      have hfind : Slots.find (text plate) (entries (r :: table)) = some r.arrivalTime := by
        rw [entries_cons, hentry, Slots.find, if_pos hplate]
      rw [hfind]
      refine ⟨fun hnone => absurd hnone (Option.some_ne_none _), fun arrival hsome => ?_⟩
      obtain rfl : r.arrivalTime = arrival := Option.some.inj hsome
      refine ⟨fun hearly => ?_, fun hlate => ?_⟩
      · rw [leaveLoop, if_pos hr, if_pos hearly]
      · rw [leaveLoop, if_pos hr, if_neg hlate, entries_cons, entries_cons, hentry, Slots.remove, if_pos hplate]
        exact ⟨rfl, rfl⟩
    · obtain ⟨hpass, hfind, hremove⟩ := leaveLoop_pass hourlyRate hr leaveTime table
      rw [hpass, hfind, hremove]
      refine ⟨fun hnone => ?_, fun arrival hsome => ⟨fun hearly => ?_, fun hlate => ?_⟩⟩
      · rw [ihNone hnone]
      · rw [(ihSome arrival hsome).1 hearly]
      · obtain ⟨h1, h2⟩ := (ihSome arrival hsome).2 hlate
        rw [entries_cons, h2]
        exact ⟨h1, rfl⟩

/-! ## The fee -/

theorem parkingFee_eq {duration : Int} (h0 : 0 ≤ duration) (hr : 0 < hourlyRate) :
    parkingFee hourlyRate duration = hourlyRate * min 10 ⌈(duration : ℚ) / 3600⌉ := by
  have hhours : (duration + 3599).tdiv 3600 = ⌈(duration : ℚ) / 3600⌉ := by
    rw [Int.tdiv_eq_ediv_of_nonneg (by omega), eq_comm, Int.ceil_eq_iff, lt_div_iff₀ (by norm_num),
      div_le_iff₀ (by norm_num)]
    have hlow : ((duration + 3599) / 3600 - 1) * 3600 < duration := by omega
    have hhigh : duration ≤ (duration + 3599) / 3600 * 3600 := by omega
    exact ⟨by exact_mod_cast hlow, by exact_mod_cast hhigh⟩
  rw [parkingFee, hhours]
  have hiff : (⌈(duration : ℚ) / 3600⌉ : ℚ) * hourlyRate > hourlyRate * 10 ↔ 10 < ⌈(duration : ℚ) / 3600⌉ := by
    rw [gt_iff_lt, mul_comm _ hourlyRate, mul_lt_mul_iff_right₀ hr]
    norm_cast
  by_cases hten : 10 < ⌈(duration : ℚ) / 3600⌉
  · rw [if_pos (hiff.mpr hten), min_eq_left hten.le]
    norm_cast
  · rw [if_neg (mt hiff.mp hten), min_eq_right (not_lt.mp hten), mul_comm]

/-! ## The map -/

structure Represents (table : List ParkingRecord) (m : Lot n) : Prop where
  length : table.length = n
  distinct : Slots.Distinct (entries table)
  lookup : ∀ plate, m.lookup plate = Slots.find plate (entries table)
  valid : ∀ e, some e ∈ entries table → isValidPlate e.1 = true ∧ 0 < e.2 ∧ e.2 ≤ 86400

theorem Represents.length_entries {m : Lot n} (h : Represents table m) : (entries table).length = n :=
  (List.length_map _).trans h.length

theorem Represents.eq {m : Lot n} (h : Represents table m) : m = Slots.toMap (entries table) h.length_entries := by
  ext1
  funext plate
  exact h.lookup plate

theorem Represents.card {m : Lot n} (h : Represents table m) : m.keys.card = Slots.used (entries table) := by
  rw [h.eq]
  exact Slots.card_toMap _ h.distinct

theorem keys_entries (table : List ParkingRecord) : Slots.keys (entries table) =
    (table.filter (·.occupied)).map fun r => text r.plate.toList := by
  induction table with
  | nil => rfl
  | cons r table ih =>
    by_cases hr : r.occupied
    · have hentry : r.entry = some (text r.plate.toList, r.arrivalTime) := if_pos hr
      rw [entries_cons, hentry, Slots.keys_some, ih, List.filter_cons_of_pos hr, List.map_cons]
    · have hentry : r.entry = none := if_neg hr
      rw [entries_cons, hentry, Slots.keys_none, ih, List.filter_cons_of_neg hr]

theorem Represents.card_eq_countP {m : Lot n} (h : Represents table m) :
    m.keys.card = table.countP (·.occupied) := by
  rw [h.card, ← Slots.length_keys, keys_entries, List.length_map, List.countP_eq_length_filter]

theorem Represents.lookup_eq_some {m : Lot n} (h : Represents table m) {plate : List CChar} {arrival : Int} :
    m.lookup plate = some arrival ↔
      ∃ r ∈ table, r.occupied = true ∧ text r.plate.toList = plate ∧ r.arrivalTime = arrival := by
  rw [h.lookup, Slots.find_eq_some_iff h.distinct, entries, List.mem_map]
  refine exists_congr fun r => and_congr_right fun _ => ?_
  simp [ParkingRecord.entry]

theorem Represents.valid_record {m : Lot n} (h : Represents table m) {r : ParkingRecord} (hmem : r ∈ table)
    (hocc : r.occupied = true) :
    isValidPlate (text r.plate.toList) = true ∧ 0 < r.arrivalTime ∧ r.arrivalTime ≤ 86400 := by
  have hentry : r.entry = some (text r.plate.toList, r.arrivalTime) := if_pos hocc
  have hentries : r.entry ∈ entries table := List.mem_map_of_mem hmem
  rw [hentry] at hentries
  exact h.valid _ hentries

theorem isValidPlate_text (plate : List CChar) : isValidPlate (text plate) = isValidPlate plate := by
  simp [isValidPlate, strlen]

theorem Represents.put {m : Lot n} (h : Represents table m) {e : List CChar × Int}
    (hentries : entries table' = Slots.put e (entries table)) (hnew : Slots.find e.1 (entries table) = none)
    (hfree : none ∈ entries table) (hroom : m.keys.card < n)
    (hvalid : isValidPlate e.1 = true ∧ 0 < e.2 ∧ e.2 ≤ 86400) :
    Represents table' (m.insert e.1 e.2 hroom) where
  length := by
    rw [← List.length_map (f := ParkingRecord.entry), ← entries, hentries, Slots.length_put, h.length_entries]
  distinct := by
    rw [hentries]
    exact Slots.distinct_put h.distinct hnew hfree
  lookup q := by
    rw [BoundedMap.lookup_insert, hentries, Slots.find_put hnew hfree, h.lookup]
    simp only [eq_comm]
  valid e' he' := by
    rw [hentries] at he'
    rcases Slots.mem_put he' with rfl | hold
    · exact hvalid
    · exact h.valid e' hold

theorem Represents.remove {m : Lot n} (h : Represents table m) {k : List CChar}
    (hentries : entries table' = Slots.remove k (entries table)) : Represents table' (m.erase k) where
  length := by
    rw [← List.length_map (f := ParkingRecord.entry), ← entries, hentries, Slots.length_remove, h.length_entries]
  distinct := by
    rw [hentries]
    exact Slots.distinct_remove h.distinct k
  lookup q := by rw [BoundedMap.lookup_erase, hentries, Slots.find_remove h.distinct, h.lookup]
  valid e he := h.valid e (Slots.mem_remove (hentries ▸ he))

/-! ## The commands -/

theorem park_represents {m : Lot n} (h : Represents table m) (plate : List CChar) (arrival : Int) :
    (park table plate arrival).1 = (m.park plate arrival).1 ∧
    Represents (park table plate arrival).2 (m.park plate arrival).2 := by
  rw [park, Lot.park]
  by_cases hbad : ¬ isValidPlate plate = true ∨ arrival ≤ 0 ∨ arrival > 86400
  · rw [if_pos hbad, if_pos hbad]
    exact ⟨rfl, h⟩
  rw [if_neg hbad, if_neg hbad]
  obtain ⟨hvalid, h0, hmax⟩ : isValidPlate plate = true ∧ 0 < arrival ∧ arrival ≤ 86400 := by
    simpa only [not_or, not_not, not_le, gt_iff_lt, not_lt] using hbad
  have hdup := duplicate_iff table plate
  rw [← h.lookup] at hdup
  by_cases hnew : m.lookup (text plate) = none
  · obtain ⟨hparked, hentries, hfull⟩ := parkLoop_spec hvalid arrival table
    rw [if_neg (not_not.mpr hnew), if_neg (mt hdup.mp (not_not.mpr hnew))]
    have hfree : none ∈ entries table ↔ m.keys.card < n := by
      rw [Slots.mem_free_iff, h.card, h.length_entries]
    by_cases hroom : m.keys.card < n
    · have hnone := hfree.mpr hroom
      rw [dif_pos hroom]
      refine ⟨by simp [hparked.mpr hnone], h.put hentries ((h.lookup _).symm.trans hnew) hnone hroom ?_⟩
      exact ⟨(isValidPlate_text plate).trans hvalid, h0, hmax⟩
    · have hnone := mt hfree.mp hroom
      rw [dif_neg hroom, hfull hnone]
      exact ⟨by simp [mt hparked.mp hnone], h⟩
  · rw [if_pos hnew, if_pos (hdup.mpr hnew)]
    exact ⟨rfl, h⟩

theorem leave_represents {m : Lot n} (h : Represents table m) (hr : 0 < hourlyRate) (plate : List CChar)
    (leaveTime : Int) :
    (leave hourlyRate table plate leaveTime).1 = (m.leave hourlyRate plate leaveTime).1 ∧
    Represents (leave hourlyRate table plate leaveTime).2 (m.leave hourlyRate plate leaveTime).2 := by
  rw [leave, Lot.leave]
  by_cases hbad : ¬ isValidPlate plate = true ∨ leaveTime ≤ 0 ∨ leaveTime > 86400
  · rw [if_pos hbad, if_pos hbad]
    exact ⟨rfl, h⟩
  rw [if_neg hbad, if_neg hbad]
  obtain ⟨hnone, hsome⟩ := leaveLoop_spec hourlyRate plate leaveTime table
  rw [h.lookup]
  cases hfind : Slots.find (text plate) (entries table) with
  | none =>
    rw [hnone hfind]
    exact ⟨rfl, h⟩
  | some arrival =>
    obtain ⟨hearly, hlate⟩ := hsome arrival hfind
    by_cases ht : leaveTime < arrival
    · rw [hearly ht]
      simp only [not_le.mpr ht, if_false]
      exact ⟨rfl, h⟩
    · obtain ⟨hreply, hentries⟩ := hlate ht
      simp only [not_lt.mp ht, if_true]
      refine ⟨?_, h.remove hentries⟩
      rw [hreply, Option.getD_some, parkingFee_eq (by omega) hr]

/-! ## All runs -/

theorem represents_start (n : Nat) :
    Represents (List.replicate n blankRecord) (BoundedMap.empty : Lot n) := by
  have hentries : entries (List.replicate n blankRecord) = List.replicate n none := by
    rw [entries, List.map_replicate]
    rfl
  have hkeys : ∀ k : Nat, Slots.keys (List.replicate k (none : Option (List CChar × Int))) = [] := by
    intro k
    induction k with
    | zero => rfl
    | succ k ih => rw [List.replicate_succ, Slots.keys_none, ih]
  refine ⟨List.length_replicate, ?_, ?_, ?_⟩
  · rw [hentries, Slots.Distinct, hkeys]
    exact List.nodup_nil
  · intro plate
    rw [hentries]
    by_contra hne
    have hmem := (Slots.find_ne_none_iff plate _).mp (Ne.symm hne)
    rw [hkeys] at hmem
    exact absurd hmem List.not_mem_nil
  · intro e he
    rw [hentries, List.mem_replicate] at he
    cases he.2

theorem exec_represents {m : Lot n} (h : Represents table m) (hr : 0 < hourlyRate) (c : Command) :
    ∃ m' : Lot n, Represents (c.exec hourlyRate table).2 m' := by
  cases c with
  | park plate arrival => exact ⟨_, (park_represents h plate arrival).2⟩
  | leave plate leaveTime => exact ⟨_, (leave_represents h hr plate leaveTime).2⟩
  | showTable => exact ⟨m, h⟩

theorem reachable_represents (h : Reachable (server n hourlyRate) table) :
    0 < hourlyRate ∧ ∃ m : Lot n, Represents table m := by
  apply h.invariant
  · rintro table ⟨-, hr, rfl⟩
    exact ⟨hr, _, represents_start n⟩
  · rintro table ⟨client, c, reply⟩ table' - ⟨hr, m, hm⟩ hstep
    have htable : (c.exec hourlyRate table).2 = table' := congrArg Prod.snd hstep
    exact ⟨hr, htable ▸ exec_represents hm hr c⟩

/-- **The table is a bounded map.** Every reachable table holds valid records of at most `n` cars, each
plate once, and represents a map from plates to arrival times. Every other table that represents this
map, in whatever slots, answers `park` and `leave` as the map does, and then represents the map that
they lead to. `show` changes nothing. -/
theorem table_refines_map (h : Reachable (server n hourlyRate) table) :
    ((table.filter (·.occupied)).map fun r => text r.plate.toList).Nodup ∧
    (∀ r ∈ table, r.occupied = true → isValidPlate (text r.plate.toList) = true ∧
      0 < r.arrivalTime ∧ r.arrivalTime ≤ 86400) ∧
    table.countP (·.occupied) ≤ n ∧
    ∃ m : Lot n, m.keys.card = table.countP (·.occupied) ∧
      (∀ plate arrival, m.lookup plate = some arrival ↔
        ∃ r ∈ table, r.occupied = true ∧ text r.plate.toList = plate ∧ r.arrivalTime = arrival) ∧
      Represents table m ∧ ∀ table', Represents table' m →
        (∀ plate arrival, (park table' plate arrival).1 = (m.park plate arrival).1 ∧
          Represents (park table' plate arrival).2 (m.park plate arrival).2) ∧
        (∀ plate leaveTime, (leave hourlyRate table' plate leaveTime).1 = (m.leave hourlyRate plate leaveTime).1 ∧
          Represents (leave hourlyRate table' plate leaveTime).2 (m.leave hourlyRate plate leaveTime).2) ∧
        (Command.showTable.exec hourlyRate table').2 = table' := by
  obtain ⟨hr, m, hm⟩ := reachable_represents h
  refine ⟨?_, fun _ => hm.valid_record, ?_, m, hm.card_eq_countP, fun _ _ => hm.lookup_eq_some, hm, fun table' h' =>
    ⟨park_represents h', leave_represents h' hr, rfl⟩⟩
  · rw [← keys_entries]
    exact hm.distinct
  · rw [← hm.card_eq_countP]
    exact m.bound

def samplePlate : List CChar := ascii "ABC-1234"

/-- `park ABC-1234 100` in a car park with three spaces. -/
def sampleTable : List ParkingRecord := (park (List.replicate 3 blankRecord) samplePlate 100).2

theorem park_reachable (h : Reachable (server n hourlyRate) table) (plate : List CChar) (arrival : Int) :
    Reachable (server n hourlyRate) (park table plate arrival).2 :=
  h.step (e := (0, .park plate arrival, (park table plate arrival).1)) rfl

theorem sampleTable_reachable : Reachable (server 3 (3 / 2)) sampleTable :=
  park_reachable (Reachable.init ⟨by norm_num, by norm_num, rfl⟩) samplePlate 100

theorem table_refines_map_sample : ∃ m : Lot 3, Represents sampleTable m ∧ m.keys.card = 1 ∧
    (leave (3 / 2) sampleTable samplePlate 7301).1 = (m.leave (3 / 2) samplePlate 7301).1 := by
  obtain ⟨-, -, -, m, hcard, -, hm, hall⟩ := table_refines_map sampleTable_reachable
  exact ⟨m, hm, hcard.trans (by decide +kernel), ((hall sampleTable hm).2.1 _ _).1⟩

end OsCoursework.Parking
