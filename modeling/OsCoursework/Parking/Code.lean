import OsCoursework.Lib.Cstring
import OsCoursework.Lib.Transition

/-!
# The parking table

The parts of `parkingServer.c` that check a command and run it under `tableLock`.
The rate is an exact number, where the code has a float. `isdigit` and `isupper`
are those of the C locale.
-/

open OsCoursework.Cstring OsCoursework.Transition

namespace OsCoursework.Parking

abbrev maxPlateLen : Nat := 9

structure ParkingRecord where
  plate : Vector CChar maxPlateLen
  arrivalTime : Int
  occupied : Bool

def isdigit (c : CChar) : Bool := 0x30 ≤ c ∧ c ≤ 0x39

def isupper (c : CChar) : Bool := 0x41 ≤ c ∧ c ≤ 0x5a

/-- The loop of `isValidPlate`, from some character on. -/
def plateLoop : List CChar → Nat → Bool
  | [], _ => true
  | c :: rest, dashCount =>
    if c = 0x2d then
      if dashCount + 1 > 1 then false else plateLoop rest (dashCount + 1)
    else if ¬ isdigit c ∧ ¬ isupper c then false
    else plateLoop rest dashCount

def isValidPlate (plate : List CChar) : Bool :=
  if strlen plate < 7 ∨ strlen plate > 8 then false else plateLoop (text plate) 0

/-- What a command prints, before the next prompt. -/
inductive Reply where
  | nothing
  | invalidCommand
  | full
  | fee (amount : ℚ)
  | notFound (plate : List CChar)
  | listing (records : List ParkingRecord)

/-- `strcmp( record.plate, plate ) == 0` -/
def ParkingRecord.hasPlate (r : ParkingRecord) (plate : List CChar) : Prop := text r.plate.toList = text plate

instance (r : ParkingRecord) (plate : List CChar) : Decidable (r.hasPlate plate) :=
  inferInstanceAs (Decidable (_ = _))

/-! ## park -/

def duplicate (table : List ParkingRecord) (plate : List CChar) : Bool :=
  table.any fun r => r.occupied ∧ r.hasPlate plate

def parkedRecord (plate : List CChar) (arrival : Int) : ParkingRecord where
  plate := (strncpy (maxPlateLen - 1) plate).push 0
  arrivalTime := arrival
  occupied := true

def parkLoop (plate : List CChar) (arrival : Int) : List ParkingRecord → Bool × List ParkingRecord
  | [] => (false, [])
  | r :: rest =>
    if ¬ r.occupied then (true, parkedRecord plate arrival :: rest)
    else ((parkLoop plate arrival rest).1, r :: (parkLoop plate arrival rest).2)

def park (table : List ParkingRecord) (plate : List CChar) (arrival : Int) : Reply × List ParkingRecord :=
  if ¬ isValidPlate plate ∨ arrival ≤ 0 ∨ arrival > 86400 then (.invalidCommand, table)
  else if duplicate table plate then (.invalidCommand, table)
  else
    let (parked, table) := parkLoop plate arrival table
    (if ¬ parked then .full else .nothing, table)

/-! ## leave -/

def parkingFee (hourlyRate : ℚ) (duration : Int) : ℚ :=
  let hours := (duration + 3599).tdiv 3600
  let fee := hours * hourlyRate
  let maxFee := hourlyRate * 10
  if fee > maxFee then maxFee else fee

def clearRecord (r : ParkingRecord) : ParkingRecord where
  occupied := false
  plate := r.plate.set 0 0
  arrivalTime := 0

/-- The loop over the table. `none` is a plate that was not found. -/
def leaveLoop (hourlyRate : ℚ) (plate : List CChar) (leaveTime : Int) :
    List ParkingRecord → Option Reply × List ParkingRecord
  | [] => (none, [])
  | r :: rest =>
    if r.occupied ∧ r.hasPlate plate then
      if leaveTime < r.arrivalTime then (some .invalidCommand, r :: rest)
      else (some (.fee (parkingFee hourlyRate (leaveTime - r.arrivalTime))), clearRecord r :: rest)
    else ((leaveLoop hourlyRate plate leaveTime rest).1, r :: (leaveLoop hourlyRate plate leaveTime rest).2)

def leave (hourlyRate : ℚ) (table : List ParkingRecord) (plate : List CChar) (leaveTime : Int) :
    Reply × List ParkingRecord :=
  if ¬ isValidPlate plate ∨ leaveTime ≤ 0 ∨ leaveTime > 86400 then (.invalidCommand, table)
  else
    let (found, table) := leaveLoop hourlyRate plate leaveTime table
    (found.getD (.notFound (text plate)), table)

/-! ## show -/

def swapLater (copy : Array ParkingRecord) (i j : Nat) : Array ParkingRecord :=
  match copy[i]?, copy[j]? with
  | some ri, some rj => if rj.arrivalTime < ri.arrivalTime then copy.swapIfInBounds i j else copy
  | _, _ => copy

/-- The two loops that order the copy. -/
def sortCopy (copy : Array ParkingRecord) : Array ParkingRecord :=
  (List.range (copy.size - 1)).foldl (fun copy i =>
    (List.range' (i + 1) (copy.size - (i + 1))).foldl (fun copy j => swapLater copy i j) copy) copy

def showTable (table : List ParkingRecord) : List ParkingRecord :=
  (sortCopy (table.filter (·.occupied)).toArray).toList

/-! ## Runs -/

inductive Command where
  | park (plate : List CChar) (arrival : Int)
  | leave (plate : List CChar) (leaveTime : Int)
  | showTable

def Command.exec (hourlyRate : ℚ) (table : List ParkingRecord) : Command → Reply × List ParkingRecord
  | .park plate arrival => Parking.park table plate arrival
  | .leave plate leaveTime => Parking.leave hourlyRate table plate leaveTime
  | .showTable => (.listing (Parking.showTable table), table)

/-- A record of the new table, which `calloc` clears. -/
def blankRecord : ParkingRecord := ⟨Vector.replicate maxPlateLen 0, 0, false⟩

/-- Clients run their commands one at a time, in any order. -/
def server (parkingCapacity : Nat) (hourlyRate : ℚ) : System (List ParkingRecord) (Nat × Command × Reply) where
  init table := 0 < parkingCapacity ∧ 0 < hourlyRate ∧ table = List.replicate parkingCapacity blankRecord
  step table e table' := e.2.1.exec hourlyRate table = (e.2.2, table')

end OsCoursework.Parking
