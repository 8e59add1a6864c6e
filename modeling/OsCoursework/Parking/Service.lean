import OsCoursework.Parking.Grammar

/-!
# The client threads

All of `handleClient`, in a thread for each connection, with `tableLock` around what a command does.
A client sends its input in segments, and takes all that is written to it. The arguments of a command
are places in a buffer. They are checked in one step, and under the lock the plate is read again, once
to look for it in the table and once more to park it or to name it. The table is changed in another step.
-/

open OsCoursework.Cstring OsCoursework.Transition

namespace OsCoursework.Parking

inductive Sent where
  /-- `"cmd> "` -/
  | prompt
  | reply (r : Reply)

/-- A command that was checked, with the place of its plate. -/
inductive Asked where
  | park (plate : Ptr) (arrival : Int)
  | leave (plate : Ptr) (leaveTime : Int)
  | showTable

/-- Where the thread of a connection is. -/
inductive Stage where
  /-- There is no connection yet. -/
  | absent
  /-- Before the first prompt. -/
  | accepted
  | reading
  /-- In the loop around `strtok`, where `Clients` has its place, or behind it. -/
  | parsing
  | locking (asked : Asked)
  | inside (asked : Asked)
  /-- There is no duplicate, and the plate is copied next. -/
  | parking (plate : Ptr) (arrival : Int)
  /-- There is no such plate, and the message is next. -/
  | missing (plate : Ptr)
  /-- The answer is there, and the table is changed next. -/
  | writing (reply : Reply) (table : List ParkingRecord)
  | unlocking
  | closed

def Stage.inLock : Stage → Bool
  | .inside _ | .parking _ _ | .missing _ | .writing _ _ | .unlocking => true
  | _ => false

structure Connection where
  stage : Stage
  stream : Stream
  out : List Sent

structure Service where
  clients : Clients
  conn : Nat → Connection
  parkingTable : List ParkingRecord
  tableLock : Option Nat

/-- The tests of the arguments, before the lock. -/
def Command.checked : Command → Bool
  | .park plate time | .leave plate time => ¬ (¬ isValidPlate plate ∨ time ≤ 0 ∨ time > 86400)
  | .showTable => true

def Connection.goto (c : Connection) (stage : Stage) : Connection := { c with stage }

def Connection.send (c : Connection) (sent : List Sent) : Connection :=
  { c with stream := fprintf c.stream, out := c.out ++ sent }

def Service.set (s : Service) (t : Nat) (c : Connection) : Service := { s with conn := Function.update s.conn t c }

/-- The thread is back in `fgets` after it has answered. -/
def Connection.answer (c : Connection) (reply : Reply) : Connection := (c.send [.reply reply, .prompt]).goto .reading

/-- `args[ 1 ]`. There are three arguments where it is used. -/
def plateArg (args : List Ptr) : Ptr := args.getD 1 ⟨0, 0⟩

def Command.asked (args : List Ptr) : Command → Asked
  | .park _ arrival => .park (plateArg args) arrival
  | .leave _ leaveTime => .leave (plateArg args) leaveTime
  | .showTable => .showTable

/-- Behind the loop around `strtok`, which found these arguments. -/
def Connection.dispatch (c : Connection) (clients : Clients) (args : List Ptr) : Connection :=
  match Parking.dispatch (args.map (argText clients)) with
  | .invalid => c.answer .invalidCommand
  | .quit => c.goto .closed
  | .run command => if command.checked then c.goto (.locking (command.asked args)) else c.answer .invalidCommand

/-- What a command does first under the lock. -/
def Asked.search (hourlyRate : ℚ) (clients : Clients) (table : List ParkingRecord) : Asked → Stage
  | .park plate arrival =>
    if duplicate table (argText clients plate) then .writing .invalidCommand table else .parking plate arrival
  | .leave plate leaveTime =>
    match leaveLoop hourlyRate (argText clients plate) leaveTime table with
    | (some reply, table) => .writing reply table
    | (none, _) => .missing plate
  | .showTable => .writing (.listing (Parking.showTable table)) table

def parkFree (table : List ParkingRecord) (plate : List CChar) (arrival : Int) : Reply × List ParkingRecord :=
  let (parked, table) := parkLoop plate arrival table
  (if ¬ parked then .full else .nothing, table)

/-- The next step of thread `t`. `none` is a wait for the lock, or a thread that has returned. -/
def Service.exec (hourlyRate : ℚ) (s : Service) (t : Nat) : Option Service :=
  let c := s.conn t
  match c.stage with
  | .absent => some (s.set t (c.goto .accepted))
  | .accepted => some (s.set t ((c.send [.prompt]).goto .reading))
  | .reading =>
    let (chunk, rest) := readChunk chunkSize c.stream
    if chunk = [] then some (s.set t (c.goto .closed))
    else
      let clients := receive s.clients t chunk
      let c := { c with stream := rest }
      some ({ s with clients }.set t
        (if strlen (clients.cmd t) = 0 then c.send [.prompt] else c.goto .parsing))
  | .parsing =>
    match s.clients.pc t with
    | .reading => none
    | .first => some { s with clients := callStrtok s.clients t ⟨t, 0⟩ [] }
    | .next args => s.clients.olds.map fun p => { s with clients := callStrtok s.clients t p args }
    | .parsed args => some (s.set t (c.dispatch s.clients args))
  | .locking asked =>
    if s.tableLock = none then some ({ s with tableLock := some t }.set t (c.goto (.inside asked))) else none
  | .inside asked => some (s.set t (c.goto (asked.search hourlyRate s.clients s.parkingTable)))
  | .parking plate arrival =>
    let (reply, table) := parkFree s.parkingTable (argText s.clients plate) arrival
    some (s.set t (c.goto (.writing reply table)))
  | .missing plate =>
    some (s.set t (c.goto (.writing (.notFound (text (argText s.clients plate))) s.parkingTable)))
  | .writing reply table => some ({ s with parkingTable := table }.set t ((c.send [.reply reply]).goto .unlocking))
  | .unlocking => some ({ s with tableLock := none }.set t ((c.send [.prompt]).goto .reading))
  | .closed => none

def service (parkingCapacity : Nat) (hourlyRate : ℚ) (input : Nat → List (List CChar)) : System Service Nat where
  init s := 0 < parkingCapacity ∧ 0 < hourlyRate ∧ parsing.init s.clients ∧
    s.conn = (fun t => ⟨.absent, fdopen (input t), []⟩) ∧ s.parkingTable = List.replicate parkingCapacity blankRecord ∧
    s.tableLock = none
  step s t s' := s.exec hourlyRate t = some s'

/-- A thread goes on with its line only if no other thread has called `strtok` since. -/
def Service.Undisturbed (s : Service) (t : Nat) : Prop :=
  ∀ args, s.clients.pc t = .next args → s.clients.lastCaller = some t

/-! ## One client at a time -/

/-- The records are the cars, each once, and no car comes before one that arrived earlier. -/
structure Lot.Lists {n : Nat} (m : Lot n) (records : List ParkingRecord) : Prop where
  nodup : (records.map fun r => text r.plate.toList).Nodup
  mem : ∀ plate arrival, m.lookup plate = some arrival ↔
    ∃ r ∈ records, text r.plate.toList = plate ∧ r.arrivalTime = arrival
  sorted : records.Pairwise fun r r' => r.arrivalTime ≤ r'.arrivalTime

inductive Lot.Answers {n : Nat} (hourlyRate : ℚ) (m : Lot n) : Command → Reply → Lot n → Prop
  | park (plate : List CChar) (arrival : Int) :
    Answers hourlyRate m (.park plate arrival) (m.park plate arrival).1 (m.park plate arrival).2
  | leave (plate : List CChar) (leaveTime : Int) :
    Answers hourlyRate m (.leave plate leaveTime) (m.leave hourlyRate plate leaveTime).1
      (m.leave hourlyRate plate leaveTime).2
  | showTable {records : List ParkingRecord} (h : m.Lists records) :
    Answers hourlyRate m .showTable (.listing records) m

inductive SessionState where
  | absent
  | opened
  | closed

structure Session where
  state : SessionState
  stream : Stream
  out : List Sent

def Session.send (c : Session) (stream : Stream) (sent : List Sent) : Session :=
  { c with stream := fprintf stream, out := c.out ++ sent }

structure CarPark (n : Nat) where
  lot : Lot n
  session : Nat → Session

def request (line : List CChar) : Action := dispatch ((tokens 0x20 line).take 3)

/-- A client is greeted, or its next line is answered, in one step. -/
inductive Session.Serves {n : Nat} (hourlyRate : ℚ) (m : Lot n) (c : Session) : Lot n → Session → Prop
  | greet (h : c.state = .absent) :
    Serves hourlyRate m c m { c.send c.stream [.prompt] with state := .opened }
  | finish (h : c.state = .opened) (hend : (readChunk chunkSize c.stream).1 = []) :
    Serves hourlyRate m c m { c with state := .closed }
  | blank {chunk : List CChar} {rest : Stream} (h : c.state = .opened)
      (hchunk : readChunk chunkSize c.stream = (chunk, rest)) (hne : chunk ≠ []) (hline : command [] chunk = []) :
    Serves hourlyRate m c m (c.send rest [.prompt])
  | invalid {chunk : List CChar} {rest : Stream} (h : c.state = .opened)
      (hchunk : readChunk chunkSize c.stream = (chunk, rest)) (hline : command [] chunk ≠ [])
      (hrequest : request (command [] chunk) = .invalid) :
    Serves hourlyRate m c m (c.send rest [.reply .invalidCommand, .prompt])
  | quit {chunk : List CChar} {rest : Stream} (h : c.state = .opened)
      (hchunk : readChunk chunkSize c.stream = (chunk, rest)) (hline : command [] chunk ≠ [])
      (hrequest : request (command [] chunk) = .quit) :
    Serves hourlyRate m c m { c with stream := rest, state := .closed }
  | run {chunk : List CChar} {rest : Stream} {asked : Command} {reply : Reply} {m' : Lot n} (h : c.state = .opened)
      (hchunk : readChunk chunkSize c.stream = (chunk, rest)) (hline : command [] chunk ≠ [])
      (hrequest : request (command [] chunk) = .run asked) (hanswer : m.Answers hourlyRate asked reply m') :
    Serves hourlyRate m c m' (c.send rest [.reply reply, .prompt])

def carPark (n : Nat) (hourlyRate : ℚ) (input : Nat → List (List CChar)) : System (CarPark n) Nat where
  init a := a.lot = BoundedMap.empty ∧ a.session = fun t => ⟨.absent, fdopen (input t), []⟩
  step a t a' := ∃ c', (a.session t).Serves hourlyRate a.lot a'.lot c' ∧ a'.session = Function.update a.session t c'

end OsCoursework.Parking
