import OsCoursework.Lib.Transition
import OsCoursework.Triangles.Code

/-!
# The worker processes

`hw2/triangles.c` after `readList`, for any number of workers. `main` forks the workers, adds up
what it reads from the pipe, and waits for them. A worker closes the reading end, prints a line for
each triangle in report mode, and writes its count to the pipe. The standard output is a terminal, so
a line is one write. The loops of a worker are in `countTriangles`, and `tallies` is what they give.
A count goes through the pipe in one piece, and `capacity` counts fit in it. `lockf` does nothing more.
-/

open OsCoursework.Transition

namespace OsCoursework.Triangles.Process

/-! ## What is printed -/

inductive Line where
  | triangle (pid count a b c : Int) (i j k : Nat)
  | total (totalTriangles : Int)
  deriving DecidableEq

def Line.text : Line → String
  | .triangle pid count a b c i j k =>
    s!"I’m process {pid}. Local count: {count}. Triangle ({a}, {b}, {c}) found at: {i}, {j} and {k}.\n"
  | .total totalTriangles => s!"Total count: {totalTriangles}\n"

/-- The line for a triangle that was found when the local count was `n`. -/
def reportLine (vList : List CInt) (pid : Int) (n : Nat) (t : Nat × Nat × Nat) : Line :=
  .triangle pid ((n + 1 : Nat) : CInt).toInt (value vList t.1).toInt (value vList t.2.1).toInt (value vList t.2.2).toInt
    t.1 t.2.1 t.2.2

structure Setting (workers : Nat) where
  vList : List CInt
  report : Bool
  tallies : Fin workers → Tally
  pid : Fin workers → Int
  capacity : Nat
  /-- What `count` holds before the first `read`. -/
  garbage : CInt

variable {workers : Nat}

/-- What the loops of a worker print. -/
def Setting.lines (P : Setting workers) (wid : Fin workers) : List Line :=
  if P.report then (P.tallies wid).found.mapIdx (reportLine P.vList (P.pid wid)) else []

/-! ## Steps -/

inductive WorkerPc where
  | unborn
  | born
  | printing (lines : List Line)
  | closing
  | exited
  | reaped
  /-- By `SIGPIPE`. -/
  | killed
  deriving DecidableEq

inductive MainPc where
  | forking (i : Nat)
  | closing
  | reading (i : Nat) (count total : CInt)
  | waiting (i : Nat) (total : CInt)
  | returned (total : CInt)
  deriving DecidableEq

/-- A worker there has the writing end of the pipe. -/
def WorkerPc.writes : WorkerPc → Bool
  | .born | .printing _ | .closing => true
  | _ => false

/-- `main` has the reading end there. -/
def MainPc.reads : MainPc → Bool
  | .forking _ | .closing | .reading _ _ _ => true
  | _ => false

structure State (workers : Nat) where
  main : MainPc
  worker : Fin workers → WorkerPc
  pipe : List CInt
  output : List Line

def start (workers : Nat) : State workers where
  main := .forking 0
  worker _ := .unborn
  pipe := []
  output := []

def State.goto (s : State workers) (wid : Fin workers) (p : WorkerPc) : State workers :=
  { s with worker := Function.update s.worker wid p }

/-- Somebody can read from the pipe: `main`, or a worker that has not closed the reading end yet. -/
def State.hasReader (s : State workers) : Prop := s.main.reads ∨ ∃ wid, s.worker wid = .born

instance (s : State workers) : Decidable s.hasReader := inferInstanceAs (Decidable (_ ∨ _))

def execWorker (P : Setting workers) (s : State workers) (wid : Fin workers) : Option (State workers) :=
  match s.worker wid with
  | .born => some (s.goto wid (.printing (P.lines wid)))
  | .printing (line :: lines) => some ({ s with output := s.output ++ [line] }.goto wid (.printing lines))
  | .printing [] =>
    if ¬ s.hasReader then some (s.goto wid .killed)
    else if s.pipe.length < P.capacity then
      some ({ s with pipe := s.pipe ++ [(P.tallies wid).count] }.goto wid .closing)
    else none
  | .closing => some (s.goto wid .exited)
  | .unborn | .exited | .reaped | .killed => none

/-- The next step of `main`. `none` is a wait, for the pipe or for a worker. -/
def execMain (P : Setting workers) (s : State workers) : Option (State workers) :=
  match s.main with
  | .forking i =>
    if h : i < workers then some ({ s with main := .forking (i + 1) }.goto ⟨i, h⟩ .born)
    else some { s with main := .closing }
  | .closing => some { s with main := .reading 0 P.garbage 0 }
  | .reading i count total =>
    if i < workers then
      match s.pipe with
      | next :: pipe => some { s with main := .reading (i + 1) next (total + next), pipe }
      | [] =>
        -- At the end of the file `read` leaves `count` as it was.
        if ∃ wid, (s.worker wid).writes then none else some { s with main := .reading (i + 1) count (total + count) }
    else some { s with main := .waiting 0 total }
  | .waiting i total =>
    if i < workers then
      -- `wait` fails at once when there is no child.
      if ∀ wid, s.worker wid = .reaped then some { s with main := .waiting (i + 1) total } else none
    else some { s with main := .returned total, output := s.output ++ [.total total.toInt] }
  | .returned _ => none

def execReap (s : State workers) (wid : Fin workers) : Option (State workers) :=
  match s.main with
  | .waiting i total =>
    if i < workers ∧ (s.worker wid = .exited ∨ s.worker wid = .killed) then
      some ({ s with main := .waiting (i + 1) total }.goto wid .reaped)
    else none
  | _ => none

inductive Actor (workers : Nat) where
  | main
  | reap (wid : Fin workers)
  | worker (wid : Fin workers)

def exec (P : Setting workers) (s : State workers) : Actor workers → Option (State workers)
  | .main => execMain P s
  | .reap wid => execReap s wid
  | .worker wid => execWorker P s wid

def system (P : Setting workers) : System (State workers) (Actor workers) where
  init s := s = start workers
  step s actor s' := exec P s actor = some s'

end OsCoursework.Triangles.Process
