import OsCoursework.Lib.Transition
import OsCoursework.Triangles.Code

/-!
# The workers with semaphores

`hw4/triangles-sem.c`: `readList`, and the workers, which wait at `workAvailable` until it is
done. One step of a worker is one access to a shared variable, one semaphore or mutex
operation or one test of a loop.
-/

open OsCoursework.Transition

namespace OsCoursework.Triangles.Semaphores

def maxValues : Nat := 10000

/-! ## readList -/

/-- How `readList` ends. A store at a position outside the array has no meaning, and nothing is said about
what would follow. -/
inductive Outcome where
  | done (vList : Vector CInt maxValues) (vCount : Nat)
  /-- "Too many input values" -/
  | failed
  | stray (position : Nat)

def readLoop : List CInt → Vector CInt maxValues → Nat → Outcome
  | [], vList, vCount => .done vList vCount
  | v :: rest, vList, vCount =>
    if vCount > maxValues then .failed
    else if vCount < maxValues then readLoop rest (vList.setIfInBounds vCount v) (vCount + 1)
    else .stray vCount

def readList (input : List CInt) : Outcome := readLoop input (Vector.replicate maxValues 0) 0

/-! ## The workers -/

/-- Where a worker is, with its local variables. -/
inductive Pc where
  | waitAvailable
  | check
  | waitMutex
  | readNext
  | writeNext (index : Nat)
  | postMutex (index : Nat)
  | outer (index j : Nat)
  | inner (index j k : Nat)
  | lockCount (index j k : Nat)
  | readCount (index j k : Nat)
  | writeCount (index j k : Nat) (count : CInt)
  | unlockCount (index j k : Nat)
  | postAvailable
  | exited
  deriving DecidableEq

structure State (workers : Nat) where
  globalCount : CInt
  nextWorkIndex : Nat
  workAvailable : Nat
  workMutex : Nat
  /-- Somebody holds `countMutex`. -/
  countLocked : Bool
  /-- The posts that `main` has still to make. -/
  unposted : Nat
  pc : Fin workers → Pc
  /-- What `getWork` returned so far, and to whom. -/
  returned : List (Fin workers × Nat)

def start (workers : Nat) : State workers where
  globalCount := 0
  nextWorkIndex := 0
  workAvailable := 0
  workMutex := 1
  countLocked := false
  unposted := workers
  pc _ := .waitAvailable
  returned := []

variable {workers : Nat}

def State.goto (s : State workers) (t : Fin workers) (p : Pc) : State workers :=
  { s with pc := Function.update s.pc t p }

inductive Event (workers : Nat) where
  | main
  | worker (t : Fin workers)

/-- The next step of worker `t`. `none` is one that is blocked or has exited. -/
def workerStep (vList : List CInt) (s : State workers) (t : Fin workers) : Option (State workers) :=
  match s.pc t with
  | .waitAvailable =>
    if 0 < s.workAvailable then some ({ s with workAvailable := s.workAvailable - 1 }.goto t .check) else none
  | .check => if s.nextWorkIndex ≥ vList.length then some (s.goto t .exited) else some (s.goto t .waitMutex)
  | .waitMutex => if 0 < s.workMutex then some ({ s with workMutex := s.workMutex - 1 }.goto t .readNext) else none
  | .readNext => some (s.goto t (.writeNext s.nextWorkIndex))
  | .writeNext index => some ({ s with nextWorkIndex := index + 1 }.goto t (.postMutex index))
  | .postMutex index =>
    some ({ s with workMutex := s.workMutex + 1, returned := s.returned ++ [(t, index)] }.goto t (.outer index 0))
  | .outer index j => if j < index then some (s.goto t (.inner index j (j + 1))) else some (s.goto t .postAvailable)
  | .inner index j k =>
    if k < index then
      if checkTriangle (value vList j) (value vList k) (value vList index) then some (s.goto t (.lockCount index j k))
      else some (s.goto t (.inner index j (k + 1)))
    else some (s.goto t (.outer index (j + 1)))
  | .lockCount index j k =>
    if s.countLocked then none else some ({ s with countLocked := true }.goto t (.readCount index j k))
  | .readCount index j k => some (s.goto t (.writeCount index j k s.globalCount))
  | .writeCount index j k count => some ({ s with globalCount := count + 1 }.goto t (.unlockCount index j k))
  | .unlockCount index j k => some ({ s with countLocked := false }.goto t (.inner index j (k + 1)))
  | .postAvailable => some ({ s with workAvailable := s.workAvailable + 1 }.goto t .waitAvailable)
  | .exited => none

def exec (vList : List CInt) (s : State workers) : Event workers → Option (State workers)
  | .main =>
    if 0 < s.unposted then some { s with unposted := s.unposted - 1, workAvailable := s.workAvailable + 1 } else none
  | .worker t => workerStep vList s t

def system (vList : List CInt) (workers : Nat) : System (State workers) (Event workers) where
  init s := s = start workers
  step s e s' := exec vList s e = some s'

/-! ## The steps, one by one -/

inductive Move (vList : List CInt) (s : State workers) (t : Fin workers) : State workers → Prop
  | takeToken (hpc : s.pc t = .waitAvailable) (h : 0 < s.workAvailable) :
    Move vList s t ({ s with workAvailable := s.workAvailable - 1 }.goto t .check)
  | exit (hpc : s.pc t = .check) (h : vList.length ≤ s.nextWorkIndex) : Move vList s t (s.goto t .exited)
  | goOn (hpc : s.pc t = .check) (h : s.nextWorkIndex < vList.length) : Move vList s t (s.goto t .waitMutex)
  | takeMutex (hpc : s.pc t = .waitMutex) (h : 0 < s.workMutex) :
    Move vList s t ({ s with workMutex := s.workMutex - 1 }.goto t .readNext)
  | readNext (hpc : s.pc t = .readNext) : Move vList s t (s.goto t (.writeNext s.nextWorkIndex))
  | writeNext {index : Nat} (hpc : s.pc t = .writeNext index) :
    Move vList s t ({ s with nextWorkIndex := index + 1 }.goto t (.postMutex index))
  | postMutex {index : Nat} (hpc : s.pc t = .postMutex index) :
    Move vList s t
      ({ s with workMutex := s.workMutex + 1, returned := s.returned ++ [(t, index)] }.goto t (.outer index 0))
  | nextRow {index j : Nat} (hpc : s.pc t = .outer index j) (h : j < index) :
    Move vList s t (s.goto t (.inner index j (j + 1)))
  | lastRow {index j : Nat} (hpc : s.pc t = .outer index j) (h : index ≤ j) : Move vList s t (s.goto t .postAvailable)
  | found {index j k : Nat} (hpc : s.pc t = .inner index j k) (h : k < index)
      (hcheck : checkTriangle (value vList j) (value vList k) (value vList index) = true) :
    Move vList s t (s.goto t (.lockCount index j k))
  | skip {index j k : Nat} (hpc : s.pc t = .inner index j k) (h : k < index)
      (hcheck : checkTriangle (value vList j) (value vList k) (value vList index) = false) :
    Move vList s t (s.goto t (.inner index j (k + 1)))
  | endRow {index j k : Nat} (hpc : s.pc t = .inner index j k) (h : index ≤ k) :
    Move vList s t (s.goto t (.outer index (j + 1)))
  | lockCount {index j k : Nat} (hpc : s.pc t = .lockCount index j k) (h : s.countLocked = false) :
    Move vList s t ({ s with countLocked := true }.goto t (.readCount index j k))
  | readCount {index j k : Nat} (hpc : s.pc t = .readCount index j k) :
    Move vList s t (s.goto t (.writeCount index j k s.globalCount))
  | writeCount {index j k : Nat} {count : CInt} (hpc : s.pc t = .writeCount index j k count) :
    Move vList s t ({ s with globalCount := count + 1 }.goto t (.unlockCount index j k))
  | unlockCount {index j k : Nat} (hpc : s.pc t = .unlockCount index j k) :
    Move vList s t ({ s with countLocked := false }.goto t (.inner index j (k + 1)))
  | postAvailable (hpc : s.pc t = .postAvailable) :
    Move vList s t ({ s with workAvailable := s.workAvailable + 1 }.goto t .waitAvailable)

variable {vList : List CInt} {s s' : State workers} {t : Fin workers}

theorem move_of_workerStep (h : workerStep vList s t = some s') : Move vList s t s' := by
  unfold workerStep at h
  split at h
  case h_1 hpc =>
    split_ifs at h with h0
    cases h
    exact .takeToken hpc h0
  case h_2 hpc =>
    split_ifs at h with h0
    · cases h
      exact .exit hpc h0
    · cases h
      exact .goOn hpc (not_le.mp h0)
  case h_3 hpc =>
    split_ifs at h with h0
    cases h
    exact .takeMutex hpc h0
  case h_4 hpc =>
    cases h
    exact .readNext hpc
  case h_5 hpc =>
    cases h
    exact .writeNext hpc
  case h_6 hpc =>
    cases h
    exact .postMutex hpc
  case h_7 hpc =>
    split_ifs at h with h0
    · cases h
      exact .nextRow hpc h0
    · cases h
      exact .lastRow hpc (not_lt.mp h0)
  case h_8 hpc =>
    split_ifs at h with h0 hcheck
    · cases h
      exact .found hpc h0 hcheck
    · cases h
      exact .skip hpc h0 (Bool.eq_false_of_not_eq_true hcheck)
    · cases h
      exact .endRow hpc (not_lt.mp h0)
  case h_9 hpc =>
    split_ifs at h with h0
    cases h
    exact .lockCount hpc (Bool.eq_false_of_not_eq_true h0)
  case h_10 hpc =>
    cases h
    exact .readCount hpc
  case h_11 hpc =>
    cases h
    exact .writeCount hpc
  case h_12 hpc =>
    cases h
    exact .unlockCount hpc
  case h_13 hpc =>
    cases h
    exact .postAvailable hpc
  case h_14 => cases h

end OsCoursework.Triangles.Semaphores
