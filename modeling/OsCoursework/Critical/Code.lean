import OsCoursework.Lib.Transition

/-!
# The list of ex08

`ex08/critical.c`, for any threads and any length of the list. One step of a thread is one
statement, or one access of the unprotected `node->counter++`. A step through a null pointer
is a crash, and an increment beyond the largest C `int` has no meaning: neither is a step here.
`main` makes the list, lets the threads run, clears `running` at any time, and scans the list
when they have returned. The nodes are numbered in the order they are made.
-/

open OsCoursework.Transition

namespace OsCoursework.Critical

/-- The pointers of the list. -/
structure Queue where
  head : Option Nat
  tail : Option Nat
  next : Nat → Option Nat

/-! ## Statements -/

/-- `head = head->next` -/
def Queue.moveHead (q : Queue) : Option Queue := q.head.map fun h => { q with head := q.next h }

/-- `tail->next = node` -/
def Queue.linkTail (q : Queue) (node : Option Nat) : Option Queue :=
  q.tail.map fun last => { q with next := Function.update q.next last node }

/-- `tail = node` -/
def Queue.moveTail (q : Queue) (node : Option Nat) : Option Queue := some { q with tail := node }

/-- `node->next = NULL` -/
def Queue.endTail (q : Queue) (node : Option Nat) : Option Queue :=
  node.map fun n => { q with next := Function.update q.next n none }

/-- The largest C `int`. -/
def intMax : Int := 2 ^ 31 - 1

/-! ## cycleList -/

/-- Where a thread is, with its variable `node` and the counter that it has read. -/
inductive Pc where
  | testing
  | lockDequeue
  | readHead
  | moveHead (node : Option Nat)
  | unlockDequeue (node : Option Nat)
  | readCounter (node : Option Nat)
  | writeCounter (node : Option Nat) (value : Int)
  | lockEnqueue (node : Option Nat)
  | linkTail (node : Option Nat)
  | moveTail (node : Option Nat)
  | endTail (node : Option Nat)
  | unlockEnqueue (node : Option Nat)
  | returned
  deriving DecidableEq

structure State (τ : Type) where
  lock : Nat
  queue : Queue
  counter : Nat → Int
  running : Bool
  pc : τ → Pc
  /-- The turns of the loop that are complete. -/
  cycles : Nat

variable {τ : Type} [DecidableEq τ]

def State.goto (s : State τ) (t : τ) (p : Pc) : State τ := { s with pc := Function.update s.pc t p }

/-- One turn of the spin loop. -/
def State.lockTestAndSet (s : State τ) (t : τ) (p : Pc) : State τ :=
  if s.lock ≠ 0 then { s with lock := 1 } else { s with lock := 1 }.goto t p

def State.withQueue (s : State τ) (q : Option Queue) (t : τ) (p : Pc) : Option (State τ) :=
  q.map fun q => { s with queue := q }.goto t p

def execThread (s : State τ) (t : τ) : Option (State τ) :=
  match s.pc t with
  | .testing => some (s.goto t (if s.running then .lockDequeue else .returned))
  | .lockDequeue => some (s.lockTestAndSet t .readHead)
  | .readHead => some (s.goto t (.moveHead s.queue.head))
  | .moveHead node => s.withQueue s.queue.moveHead t (.unlockDequeue node)
  | .unlockDequeue node => some ({ s with lock := 0 }.goto t (.readCounter node))
  | .readCounter node => node.map fun n => s.goto t (.writeCounter node (s.counter n))
  | .writeCounter node value =>
    if value = intMax then none
    else node.map fun n => { s with counter := Function.update s.counter n (value + 1) }.goto t (.lockEnqueue node)
  | .lockEnqueue node => some (s.lockTestAndSet t (.linkTail node))
  | .linkTail node => s.withQueue (s.queue.linkTail node) t (.moveTail node)
  | .moveTail node => s.withQueue (s.queue.moveTail node) t (.endTail node)
  | .endTail node => s.withQueue (s.queue.endTail node) t (.unlockEnqueue node)
  | .unlockEnqueue _ => some ({ s with lock := 0, cycles := s.cycles + 1 }.goto t .testing)
  | .returned => none

/-! ## main -/

/-- One turn of the loop that makes the nodes. -/
def addNode (q : Queue) (node : Nat) : Queue where
  head := some node
  tail := if q.tail = none then some node else q.tail
  next := Function.update q.next node q.head

def makeList (len : Nat) : Queue := (List.range len).foldl addNode { head := none, tail := none, next := fun _ => none }

def start (τ : Type) (len : Nat) : State τ where
  lock := 0
  queue := makeList len
  counter _ := 0
  running := true
  pc _ := .testing
  cycles := 0

inductive Actor (τ : Type) where
  /-- `running = false` in `main`. -/
  | stop
  | thread (t : τ)

def exec (s : State τ) : Actor τ → Option (State τ)
  | .stop => some { s with running := false }
  | .thread t => execThread s t

def system (τ : Type) [DecidableEq τ] (len : Nat) : System (State τ) (Actor τ) where
  init s := s = start τ len
  step s a s' := exec s a = some s'

/-- The last loop of `main`: the number of nodes and the sum of the counters. -/
def scan (s : State τ) : Nat → Option Nat → Nat → Int → Option (Nat × Int)
  | 0, _, _, _ => none
  | _ + 1, none, nodes, total => some (nodes, total)
  | fuel + 1, some p, nodes, total => scan s fuel (s.queue.next p) (nodes + 1) (total + s.counter p)

/-- The node of a thread from the end of `dequeueNode` to the lock of `enqueueNode`. -/
def Pc.held : Pc → Option Nat
  | .unlockDequeue node | .readCounter node | .writeCounter node _ | .lockEnqueue node => node
  | _ => none

end OsCoursework.Critical
