import OsCoursework.Lib.ExchangeSort
import OsCoursework.Parking.Table

/-!
# What show prints

The copy of the occupied records is ordered by exchange sort. The times are printed
as HH:MM:SS, which `readTime` reads back.
-/

open OsCoursework.Cstring OsCoursework.ExchangeSort OsCoursework.Transition

namespace OsCoursework.Parking

/-! ## The text -/

/-- `%02d` -/
def twoDigits (n : Int) : List CChar :=
  let sign := if n < 0 then ascii "-" else []
  let digits := ascii (toString n.natAbs)
  sign ++ List.replicate (2 - (sign.length + digits.length)) 0x30 ++ digits

/-- The string that `snprintf` writes into 16 bytes. -/
def formatTime (seconds : Int) : List CChar :=
  let h := seconds.tdiv 3600
  let m := (seconds.tmod 3600).tdiv 60
  let s := seconds.tmod 60
  (twoDigits h ++ ascii ":" ++ twoDigits m ++ ascii ":" ++ twoDigits s).take 15

/-- `%-15s%s\n` -/
def recordLine (r : ParkingRecord) : List CChar :=
  let plate := text r.plate.toList
  plate ++ List.replicate (15 - plate.length) 0x20 ++ formatTime r.arrivalTime ++ ascii "\n"

def listingText (records : List ParkingRecord) : List CChar :=
  ascii "Plate Number    Time\n" ++ records.flatMap recordLine

/-! ## The order -/

theorem toList_swapLater (copy : Array ParkingRecord) (i j : Nat) :
    (swapLater copy i j).toList = exchange (·.arrivalTime) i copy.toList j := by
  unfold swapLater exchange
  simp only [Array.getElem?_toList]
  rcases hi : copy[i]? with _ | a
  · rfl
  · rcases hj : copy[j]? with _ | b
    · rfl
    · by_cases hlt : b.arrivalTime < a.arrivalTime
      · obtain ⟨hi', rfl⟩ := Array.getElem?_eq_some_iff.mp hi
        obtain ⟨hj', rfl⟩ := Array.getElem?_eq_some_iff.mp hj
        simp only [hlt, if_true, Array.toList_swapIfInBounds]
        exact List.swap_eq_of_lt hi' hj'
      · simp only [hlt, if_false]

theorem toList_sortCopy (copy : Array ParkingRecord) :
    (sortCopy copy).toList = exchangeSort (·.arrivalTime) copy.toList := by
  have hinner (i : Nat) (js : List Nat) (copy : Array ParkingRecord) :
      (js.foldl (fun copy j => swapLater copy i j) copy).toList = js.foldl (exchange (·.arrivalTime) i) copy.toList := by
    induction js generalizing copy with
    | nil => rfl
    | cons j js ih => rw [List.foldl_cons, ih, toList_swapLater, List.foldl_cons]
  have houter (is : List Nat) (copy : Array ParkingRecord) :
      (is.foldl (fun copy i => (List.range' (i + 1) (copy.size - (i + 1))).foldl
        (fun copy j => swapLater copy i j) copy) copy).toList = is.foldl (sweep (·.arrivalTime)) copy.toList := by
    induction is generalizing copy with
    | nil => rfl
    | cons i is ih => rw [List.foldl_cons, ih, hinner, List.foldl_cons, sweep, Array.length_toList]
  exact houter _ copy

theorem showTable_perm (table : List ParkingRecord) : (showTable table).Perm (table.filter (·.occupied)) := by
  rw [showTable, toList_sortCopy]
  exact exchangeSort_perm _ _

theorem showTable_sorted (table : List ParkingRecord) :
    (showTable table).Pairwise fun r r' => r.arrivalTime ≤ r'.arrivalTime := by
  rw [showTable, toList_sortCopy]
  exact exchangeSort_sorted _ _

/-! ## The times -/

def readTwo (tens ones : CChar) : Option Nat :=
  if isdigit tens ∧ isdigit ones then some (10 * (tens.toNat - 0x30) + (ones.toNat - 0x30)) else none

/-- The seconds of HH:MM:SS. -/
def readTime : List CChar → Option Int
  | [h1, h0, c1, m1, m0, c2, s1, s0] =>
    (readTwo h1 h0).bind fun h => (readTwo m1 m0).bind fun m => (readTwo s1 s0).bind fun s =>
      if c1 = 0x3a ∧ c2 = 0x3a ∧ m < 60 ∧ s < 60 then some (3600 * h + 60 * m + s) else none
  | _ => none

theorem twoDigits_read {n : Nat} (h : n < 100) : ∃ a b, twoDigits (n : Nat) = [a, b] ∧ readTwo a b = some n := by
  have hdigits : ∀ n < 100, twoDigits (n : Nat) = [BitVec.ofNat 8 (48 + n / 10), BitVec.ofNat 8 (48 + n % 10)] ∧
      readTwo (BitVec.ofNat 8 (48 + n / 10)) (BitVec.ofNat 8 (48 + n % 10)) = some n := by
    decide +kernel
  exact ⟨_, _, hdigits n h⟩

theorem formatTime_natCast (n : Nat) :
    formatTime n = (twoDigits (n / 3600 : Nat) ++ ascii ":" ++ twoDigits (n % 3600 / 60 : Nat) ++ ascii ":" ++
      twoDigits (n % 60 : Nat)).take 15 := by
  have hhour : (n : Int).tdiv 3600 = (n / 3600 : Nat) := Int.ofNat_tdiv n 3600
  have hminute : ((n : Int).tmod 3600).tdiv 60 = (n % 3600 / 60 : Nat) := Int.ofNat_tdiv (n % 3600) 60
  have hsecond : (n : Int).tmod 60 = (n % 60 : Nat) := Int.ofNat_tmod n 60
  rw [formatTime, hhour, hminute, hsecond]

theorem readTime_formatTime {n : Nat} (h : n < 360000) : readTime (formatTime n) = some (n : Int) := by
  have hhour : n / 3600 < 100 := by omega
  have hminute : n % 3600 / 60 < 60 := by omega
  have hsecond : n % 60 < 60 := by omega
  obtain ⟨h1, h0, hh, hreadh⟩ := twoDigits_read hhour
  obtain ⟨m1, m0, hm, hreadm⟩ := twoDigits_read (hminute.trans (by decide))
  obtain ⟨s1, s0, hs, hreads⟩ := twoDigits_read (hsecond.trans (by decide))
  have hcolon : ascii ":" = [0x3a] := rfl
  rw [formatTime_natCast, hh, hm, hs, hcolon]
  have hcond : (0x3a : CChar) = 0x3a ∧ (0x3a : CChar) = 0x3a ∧ n % 3600 / 60 < 60 ∧ n % 60 < 60 :=
    ⟨rfl, rfl, hminute, hsecond⟩
  have hread : readTime [h1, h0, 0x3a, m1, m0, 0x3a, s1, s0] =
      some ((3600 * (n / 3600 : Nat) + 60 * (n % 3600 / 60 : Nat) + (n % 60 : Nat) : Int)) := by
    rw [readTime, hreadh, hreadm, hreads, Option.bind_some, Option.bind_some, Option.bind_some, if_pos hcond]
  have hsum : (3600 * (n / 3600 : Nat) + 60 * (n % 3600 / 60 : Nat) + (n % 60 : Nat) : Int) = n := by omega
  exact hread.trans (congrArg some hsum)

/-! ## All runs -/

/-- What `show` prints. -/
def showOutput (table : List ParkingRecord) : List CChar := listingText (showTable table)

/-- **The listing.** In every reachable table, `show` prints a line for each occupied record, in the order
of the arrival times, and each time so that it reads back. -/
theorem show_lists_records {n : Nat} {hourlyRate : ℚ} {table : List ParkingRecord}
    (h : Reachable (server n hourlyRate) table) :
    Command.showTable.exec hourlyRate table = (.listing (showTable table), table) ∧
      showOutput table = ascii "Plate Number    Time\n" ++ (showTable table).flatMap recordLine ∧
      (showTable table).Perm (table.filter (·.occupied)) ∧
      (showTable table).Pairwise (fun r r' => r.arrivalTime ≤ r'.arrivalTime) ∧
      ∀ r ∈ showTable table, readTime (formatTime r.arrivalTime) = some r.arrivalTime := by
  obtain ⟨-, m, hm⟩ := reachable_represents h
  refine ⟨rfl, rfl, showTable_perm table, showTable_sorted table, fun r hr => ?_⟩
  obtain ⟨hmem, hocc⟩ := List.mem_filter.mp ((showTable_perm table).subset hr)
  obtain ⟨-, h0, hmax⟩ := hm.valid_record hmem hocc
  obtain ⟨t, ht⟩ := Int.eq_ofNat_of_zero_le h0.le
  rw [ht]
  exact readTime_formatTime (by omega)

/-- Three cars, of which the first one arrived last. -/
def mixedTable : List ParkingRecord :=
  (park (park sampleTable (ascii "BBB2222") 30).2 (ascii "CCC3333") 60).2

theorem mixedTable_reachable : Reachable (server 3 (3 / 2)) mixedTable :=
  park_reachable (park_reachable sampleTable_reachable (ascii "BBB2222") 30) (ascii "CCC3333") 60

theorem show_lists_records_sample :
    showOutput mixedTable =
      ascii "Plate Number    Time\nBBB2222        00:00:30\nCCC3333        00:01:00\nABC-1234       00:01:40\n" ∧
      (showTable mixedTable).Perm (mixedTable.filter (·.occupied)) := by
  obtain ⟨-, houtput, hperm, -⟩ := show_lists_records mixedTable_reachable
  exact ⟨houtput.trans (by decide +kernel), hperm⟩

end OsCoursework.Parking
