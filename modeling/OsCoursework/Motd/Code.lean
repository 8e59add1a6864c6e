import OsCoursework.Lib.Cstring
import OsCoursework.Lib.Transition

/-!
# The message of the day

`ex17/motd_server.c` and `ex17/motd_client.c`. The server serves one request at a time, and
every client makes its requests one after the other. A step is one request with its answer,
or the end of the loop of a client. A printing client is given the server's history at its
first request and after every message that is added before its last one.
-/

open OsCoursework.Cstring OsCoursework.Transition

namespace OsCoursework.Motd

/-! ## The server -/

abbrev historyMax : Nat := 3

abbrev messageMax : Nat := 60

abbrev Row := Vector CChar (messageMax + 1)

structure Server where
  mList : Vector Row historyMax
  mCount : Nat

/-- All static memory is zero. -/
def Server.init : Server where
  mList := 0
  mCount := 0

def count1Svc (s : Server) : Nat := s.mCount

def get1Svc (s : Server) (arg : Int) : List CChar :=
  if arg < 0 ∨ arg ≥ s.mCount then ascii "error" else text (s.mList[arg.toNat]?.getD 0).toList

/-- The message is copied into the first row after the rows have moved. -/
def add1Svc (s : Server) (arg : List CChar) : Server :=
  let (mList, mCount) :=
    if s.mCount = historyMax then (memmove s.mList 1 0 (historyMax - 1), s.mCount)
    else (memmove s.mList 1 0 s.mCount, s.mCount + 1)
  { mList := mList.setIfInBounds 0 ((strncpy messageMax arg).push 0), mCount := mCount }

/-- The messages, newest first. -/
def Server.history (s : Server) : List (List CChar) := (s.mList.toList.take s.mCount).map fun row => text row.toList

/-! ## The clients -/

/-- What the second argument of the client makes of it. -/
inductive Client where
  | add (message : List CChar)
  | print

/-- Where a client is: `np` and `i` are those of its loop. -/
inductive Pc where
  | start
  | listing (np i : Nat)
  | finished
  deriving DecidableEq

/-- Some `get` is still to come. -/
def Pc.active : Pc → Bool
  | .listing np i => decide (i < np)
  | _ => false

structure State (χ : Type) where
  server : Server
  pc : χ → Pc
  /-- What a client has printed. -/
  lines : χ → List (List CChar)
  /-- The histories from the first request of a client to its last one. -/
  moments : χ → List (List (List CChar))
  /-- For each line the moment of its request. -/
  asked : χ → List Nat

def start (χ : Type) : State χ where
  server := .init
  pc _ := .start
  lines _ := []
  moments _ := []
  asked _ := []

variable {χ : Type} [DecidableEq χ]

def State.goto (s : State χ) (c : χ) (p : Pc) : State χ := { s with pc := Function.update s.pc c p }

/-- `add_1` -/
def State.add (s : State χ) (message : List CChar) : State χ :=
  let server := add1Svc s.server message
  { s with
    server := server
    moments := fun c => if (s.pc c).active then s.moments c ++ [server.history] else s.moments c }

/-- `count_1` -/
def State.count (s : State χ) (c : χ) : State χ :=
  { s with moments := Function.update s.moments c [s.server.history] }.goto c (.listing (count1Svc s.server) 0)

/-- `get_1` and the `printf` of its answer. -/
def State.get (s : State χ) (c : χ) (np i : Nat) : State χ :=
  { s with
    lines := Function.update s.lines c (s.lines c ++ [get1Svc s.server i])
    asked := Function.update s.asked c (s.asked c ++ [(s.moments c).length - 1]) }.goto c (.listing np (i + 1))

def exec (clients : χ → Client) (s : State χ) (c : χ) : Option (State χ) :=
  match s.pc c, clients c with
  | .start, .add message => some ((s.add message).goto c .finished)
  | .start, .print => some (s.count c)
  | .listing np i, _ => some (if i < np then s.get c np i else s.goto c .finished)
  | .finished, _ => none

def system (clients : χ → Client) : System (State χ) χ where
  init s := s = start χ
  step s c s' := exec clients s c = some s'

end OsCoursework.Motd
