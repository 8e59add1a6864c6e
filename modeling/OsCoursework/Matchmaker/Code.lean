import OsCoursework.Lib.Cstring
import OsCoursework.Lib.Fuel
import OsCoursework.Lib.Transition

/-!
# The matchmaker

`matchmaker.c`. One step is one stretch that holds `monitor_mutex`: up to the return
of the call, or up to the next `pthread_cond_wait`. A sleeping call may go on at any
time, with or without a signal. Every `findMatch` call has a number, and the node
that it allocates has the same one. A walk over a list with a cycle never ends,
so it takes fuel, and a stretch that runs out of it is no step.
-/

open OsCoursework.Cstring OsCoursework.Fuel OsCoursework.Transition

namespace OsCoursework.Matchmaker

/-- `cond` is in the thread of the call. -/
structure Player where
  name : List CChar := []
  skill : Int := 0
  opponent : Option Nat := none
  matched : Bool := false
  done : Bool := false
  next : Option Nat := none

/-- Where a call is. A sleeping one knows whether its condition was signalled. -/
inductive Thread (ρ : Type) where
  | notStarted
  | asleep (signalled : Bool)
  | returned (result : ρ)
  deriving DecidableEq

structure Monitor where
  skillRange : Int
  skillGap : Int
  matchmakingStopped : Bool
  gameInProgress : Bool
  waitingList : Option Nat
  playingPair : Option Nat × Option Nat
  doneCount : Nat
  player : Nat → Player
  /-- The `Playing` lines. -/
  printed : List (List CChar × List CChar)
  calls : Nat
  findCall : Nat → Thread Bool
  doneCall : Nat → Thread Unit

def initMonitor (range gap : Int) : Monitor where
  skillRange := range
  skillGap := gap
  matchmakingStopped := false
  gameInProgress := false
  waitingList := none
  playingPair := (none, none)
  doneCount := 0
  player _ := {}
  printed := []
  calls := 0
  findCall _ := .notStarted
  doneCall _ := .notStarted

def Thread.isAsleep {ρ : Type} : Thread ρ → Bool
  | .asleep _ => true
  | _ => false

/-! ## Fields -/

def Monitor.set (s : Monitor) (i : Nat) (f : Player → Player) : Monitor :=
  { s with player := Function.update s.player i (f (s.player i)) }

def Monitor.setFind (s : Monitor) (i : Nat) (th : Thread Bool) : Monitor :=
  { s with findCall := Function.update s.findCall i th }

def Monitor.setDone (s : Monitor) (i : Nat) (th : Thread Unit) : Monitor :=
  { s with doneCall := Function.update s.doneCall i th }

/-- A signal wakes a sleeper, and is lost on anyone else. -/
def Thread.signal {ρ : Type} : Thread ρ → Thread ρ
  | .asleep _ => .asleep true
  | th => th

/-- `pthread_cond_signal( &curr->cond )` -/
def Monitor.signal (s : Monitor) (curr : Nat) : Monitor := s.setFind curr (s.findCall curr).signal

/-- `pthread_cond_broadcast( &waiting_cond )` -/
def Monitor.broadcast (s : Monitor) : Monitor := { s with doneCall := fun c => (s.doneCall c).signal }

/-! ## findMatch -/

/-- `abs( a - b )`, where both wrap around. -/
def skillDiff (a b : Int) : Int := |(a - b).bmod (2 ^ 32)|.bmod (2 ^ 32)

def compatible (s : Monitor) (a b : Nat) : Prop :=
  (s.player a).skill ≠ (s.player b).skill ∧ skillDiff (s.player a).skill (s.player b).skill ≤ s.skillGap

instance (s : Monitor) (a b : Nat) : Decidable (compatible s a b) := inferInstanceAs (Decidable (_ ∧ _))

/-- The inner loop: the first unmatched compatible player and the one before it. -/
def scan (s : Monitor) (self : Nat) : Nat → Option Nat → Option Nat → Option (Option (Option Nat × Nat))
  | 0, _, _ => none
  | _ + 1, _, none => some none
  | fuel + 1, prev, some curr =>
    if ¬ (s.player curr).matched ∧ compatible s self curr then some (some (prev, curr))
    else scan s self fuel (some curr) (s.player curr).next

def unlink (s : Monitor) (prev : Option Nat) (curr : Nat) : Monitor :=
  match prev with
  | none => { s with waitingList := (s.player curr).next }
  | some prev => s.set prev fun p => { p with next := (s.player curr).next }

def pairUp (s : Monitor) (self : Nat) (prev : Option Nat) (curr : Nat) : Monitor :=
  let s := s.set self fun p => { p with matched := true, opponent := some curr }
  let s := s.set curr fun p => { p with matched := true, opponent := some self }
  let s := unlink s prev curr
  Monitor.signal
    { s with
      playingPair := (some self, some curr)
      gameInProgress := true
      printed := s.printed ++ [((s.player self).name, (s.player curr).name)] } curr

/-- Put `self` on the list and wait. -/
def sleep (s : Monitor) (self : Nat) : Monitor :=
  let s := s.set self fun p => { p with next := s.waitingList }
  { s with waitingList := some self }.setFind self (.asleep false)

def ret (s : Monitor) (self : Nat) : Monitor := s.setFind self (.returned (s.player self).matched)

/-- The outer loop, up to the next wait. -/
def loop (fuel : Nat) (s : Monitor) (self : Nat) : Option Monitor :=
  if (s.player self).matched ∨ s.matchmakingStopped then some (ret s self)
  else
    (scan s self fuel none s.waitingList).map fun
      | some (prev, curr) => ret (pairUp s self prev curr) self
      | none => sleep s self

def findMatch (fuel : Nat) (s : Monitor) (name : List CChar) (skill : Int) : Option Monitor :=
  let self := s.calls
  let s := { s with calls := s.calls + 1 }
  if s.matchmakingStopped then some (s.setFind self (.returned false))
  else loop fuel (s.set self fun _ => { name := (text name).take 63, skill := skill }) self

/-! ## donePlaying and stopMatchmaking -/

/-- The loop that waits for the second player, up to the next wait. -/
def finish (s : Monitor) (c : Nat) : Monitor :=
  if s.doneCount < 2 then s.setDone c (.asleep false) else s.broadcast.setDone c (.returned ())

def countDone (s : Monitor) (self : Nat) : Monitor :=
  let s := s.set self fun p => { p with done := true }
  let s := { s with doneCount := s.doneCount + 1 }
  if s.doneCount < 2 then s else { s with gameInProgress := false }

/-- `none` is the crash when no game was played yet. -/
def donePlaying (s : Monitor) (c : Nat) : Option Monitor :=
  s.playingPair.1.bind fun first =>
    (if ¬ (s.player first).done then some first else s.playingPair.2).map fun self =>
      finish (countDone s self) c

def signalAll : Nat → Monitor → Option Nat → Option Monitor
  | 0, _, _ => none
  | _ + 1, s, none => some s
  | fuel + 1, s, some curr => signalAll fuel (s.signal curr) (s.player curr).next

def stopMatchmaking (fuel : Nat) (s : Monitor) : Option Monitor :=
  (signalAll fuel { s with matchmakingStopped := true } s.waitingList).map Monitor.broadcast

/-! ## Runs -/

inductive Event where
  | findMatch (name : List CChar) (skill : Int)
  /-- The wait of the `findMatch` call `i` returns. -/
  | wake (i : Nat)
  /-- `donePlaying`, as call number `c`. -/
  | donePlaying (c : Nat)
  /-- The wait of the `donePlaying` call `c` returns. -/
  | wakeDone (c : Nat)
  | stopMatchmaking

/-- One stretch. `none` is one that can not happen now, or needs more fuel. -/
def Event.exec (fuel : Nat) (s : Monitor) : Event → Option Monitor
  | .findMatch name skill => Matchmaker.findMatch fuel s name skill
  | .wake i => if (s.findCall i).isAsleep then loop fuel s i else none
  | .donePlaying c => if s.doneCall c = .notStarted then Matchmaker.donePlaying s c else none
  | .wakeDone c => if (s.doneCall c).isAsleep then some (finish s c) else none
  | .stopMatchmaking => Matchmaker.stopMatchmaking fuel s

def isInt (x : Int) : Prop := -2 ^ 31 ≤ x ∧ x < 2 ^ 31

def system (range gap : Int) : System Monitor Event where
  init s := isInt range ∧ isInt gap ∧ s = initMonitor range gap
  step s e t := ∃ fuel, e.exec fuel s = some t

instance (x : Int) : Decidable (isInt x) := inferInstanceAs (Decidable (_ ∧ _))

end OsCoursework.Matchmaker
