import OsCoursework.Lib.Transition

/-!
# Ping and pong

`ex07/pingpong.c`, with two semaphores, and `ex06/pingpong.c`, where each thread spins until
`nextTurn` is its own. Both are for any number of iterations. A step is one semaphore call, or
one access of `nextTurn`: every test reads it from memory, in the order of the program, as code that
is not optimised does. `main` creates the threads and joins them. Beside the variables of the source
is kept the order of the passes.
-/

open OsCoursework.Transition

namespace OsCoursework.Pingpong

inductive Side where
  | ping | pong
  deriving DecidableEq

def Side.other : Side → Side
  | .ping => .pong
  | .pong => .ping

/-- Where a thread is, with its counter `i`. -/
inductive Pc where
  | uncreated
  | testing (i : Nat)
  | waiting (i : Nat)
  | passing (i : Nat)
  | returned
  deriving DecidableEq

/-- `ex07` destroys its semaphores when both are `joined`. -/
inductive MainPc where
  | creating (side : Side)
  | joining (side : Side)
  | joined
  | returned
  deriving DecidableEq

structure Threads where
  main : MainPc
  pc : Side → Pc
  passes : List Side

def Threads.start : Threads where
  main := .creating .ping
  pc _ := .uncreated
  passes := []

def Threads.goto (s : Threads) (side : Side) (p : Pc) : Threads := { s with pc := Function.update s.pc side p }

def Threads.pass (s : Threads) (side : Side) (i : Nat) : Threads :=
  { s with passes := s.passes ++ [side] }.goto side (.testing (i + 1))

/-- The next step of `main`. `none` is a wait in `pthread_join`. -/
def Threads.execMain (s : Threads) : Option Threads :=
  match s.main with
  | .creating .ping => some ({ s with main := .creating .pong }.goto .ping (.testing 0))
  | .creating .pong => some ({ s with main := .joining .ping }.goto .pong (.testing 0))
  | .joining side =>
    if s.pc side = .returned then
      some { s with main := match side with
        | .ping => .joining .pong
        | .pong => .joined }
    else none
  | .joined => some { s with main := .returned }
  | .returned => none

inductive Actor where
  | main
  | thread (side : Side)

/-! ## Semaphores -/

namespace Semaphores

/-- `next .ping` is the value of `pingNext`, and `next .pong` that of `pongNext`. -/
structure State where
  threads : Threads
  next : Side → Nat

def start : State where
  threads := .start
  next
    | .ping => 1
    | .pong => 0

def State.goto (s : State) (side : Side) (p : Pc) : State := { s with threads := s.threads.goto side p }

def State.wait (s : State) (side : Side) : Option State :=
  if s.next side = 0 then none else some { s with next := Function.update s.next side (s.next side - 1) }

def State.post (s : State) (side : Side) : State :=
  { s with next := Function.update s.next side (s.next side + 1) }

def execThread (iterations : Nat) (s : State) (side : Side) : Option State :=
  match s.threads.pc side with
  | .uncreated | .returned => none
  | .testing i => some (s.goto side (if i < iterations then .waiting i else .returned))
  | .waiting i => (s.wait side).map fun s => s.goto side (.passing i)
  | .passing i => some { s.post side.other with threads := s.threads.pass side i }

def exec (iterations : Nat) (s : State) : Actor → Option State
  | .main => s.threads.execMain.map fun threads => { s with threads }
  | .thread side => execThread iterations s side

def system (iterations : Nat) : System State Actor where
  init s := s = start
  step s actor s' := exec iterations s actor = some s'

end Semaphores

/-! ## Turns -/

namespace Turns

/-- The value of `nextTurn` that a thread waits for. -/
def number : Side → Int
  | .ping => 0
  | .pong => 1

structure State where
  threads : Threads
  nextTurn : Int

def start : State where
  threads := .start
  nextTurn := 0

def State.goto (s : State) (side : Side) (p : Pc) : State := { s with threads := s.threads.goto side p }

/-- A turn of the spin loop is a step that changes nothing. -/
def execThread (iterations : Nat) (s : State) (side : Side) : Option State :=
  match s.threads.pc side with
  | .uncreated | .returned => none
  | .testing i => some (s.goto side (if i < iterations then .waiting i else .returned))
  | .waiting i => some (if s.nextTurn ≠ number side then s else s.goto side (.passing i))
  | .passing i => some { nextTurn := number side.other, threads := s.threads.pass side i }

def exec (iterations : Nat) (s : State) : Actor → Option State
  | .main => s.threads.execMain.map fun threads => { s with threads }
  | .thread side => execThread iterations s side

def system (iterations : Nat) : System State Actor where
  init s := s = start
  step s actor s' := exec iterations s actor = some s'

end Turns

end OsCoursework.Pingpong
