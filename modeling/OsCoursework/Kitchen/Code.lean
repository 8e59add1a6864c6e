import OsCoursework.Lib.ExchangeSort
import OsCoursework.Lib.Transition

/-!
# The kitchen

`hw5/ordered.c` and `hw5/takeAll.c`, for any chefs with any lists of appliances. A chef
rests as long as it likes. Beside the mutexes is kept what each chef has locked and not
yet unlocked.
-/

open OsCoursework.ExchangeSort OsCoursework.Transition

namespace OsCoursework.Kitchen

/-! ## One mutex for each appliance -/

namespace Ordered

inductive Appliance where
  | blender | griddle | fryer | grill | mixer | coffeemaker | oven | microwave
  deriving DecidableEq

/-- The value of the C `enum`. -/
def Appliance.value : Appliance → Nat
  | .blender => 0
  | .griddle => 1
  | .fryer => 2
  | .grill => 3
  | .mixer => 4
  | .coffeemaker => 5
  | .oven => 6
  | .microwave => 7

def numAppliances : Nat := 8

/-- Where a chef is. `locking i` locks `list[i]` next, `unlocking (i + 1)` unlocks it. -/
inductive Pc where
  | resting
  | locking (i : Nat)
  | cooking
  | unlocking (i : Nat)
  deriving DecidableEq

structure State (χ : Type) where
  locked : Appliance → Bool
  list : χ → List Appliance
  pc : χ → Pc
  held : χ → List Appliance

variable {χ : Type} [DecidableEq χ]

def start (needed : χ → List Appliance) : State χ where
  locked _ := false
  list := needed
  pc _ := .resting
  held _ := []

def State.goto (s : State χ) (c : χ) (p : Pc) : State χ := { s with pc := Function.update s.pc c p }

/-- `pthread_mutex_lock( &applianceLocks[a] )` -/
def State.lock (s : State χ) (c : χ) (a : Appliance) : State χ :=
  { s with locked := Function.update s.locked a true, held := Function.update s.held c (s.held c ++ [a]) }

/-- `pthread_mutex_unlock( &applianceLocks[a] )` -/
def State.unlock (s : State χ) (c : χ) (a : Appliance) : State χ :=
  { s with locked := Function.update s.locked a false, held := Function.update s.held c ((s.held c).erase a) }

/-- The next step of chef `c`. `none` is a wait for a mutex. -/
def exec (s : State χ) (c : χ) : Option (State χ) :=
  match s.pc c with
  | .resting =>
    some ({ s with list := Function.update s.list c (exchangeSort Appliance.value (s.list c)) }.goto c (.locking 0))
  | .locking i =>
    match (s.list c)[i]? with
    | none => some (s.goto c .cooking)
    | some a => if s.locked a then none else some ((s.lock c a).goto c (.locking (i + 1)))
  | .cooking => some (s.goto c (.unlocking (s.list c).length))
  | .unlocking 0 => some (s.goto c .resting)
  | .unlocking (i + 1) => (s.list c)[i]?.map fun a => (s.unlock c a).goto c (.unlocking i)

def system (needed : χ → List Appliance) : System (State χ) χ where
  init s := s = start needed
  step s c s' := exec s c = some s'

/-- Chef `c` is blocked in the lock of `a`. -/
def State.waits (s : State χ) (c : χ) (a : Appliance) : Prop :=
  ∃ i, s.pc c = .locking i ∧ (s.list c)[i]? = some a ∧ s.locked a = true

end Ordered

/-! ## All appliances at once -/

namespace TakeAll

inductive Appliance where
  | blender | coffeemaker | fryer | griddle | grill | microwave | mixer | oven
  deriving DecidableEq

/-- Where a chef is. A sleeping one knows whether a wakeup is pending. -/
inductive Pc where
  | resting
  | asleep (signalled : Bool)
  | cooking
  deriving DecidableEq

structure State (χ : Type) where
  inUse : Appliance → Bool
  pc : χ → Pc

def start (χ : Type) : State χ where
  inUse _ := false
  pc _ := .resting

variable {χ : Type} [DecidableEq χ]

def State.goto (s : State χ) (c : χ) (p : Pc) : State χ := { s with pc := Function.update s.pc c p }

/-- A loop over the list that sets every flag. -/
def State.mark (s : State χ) (list : List Appliance) (flag : Bool) : State χ :=
  { s with inUse := list.foldl (fun inUse a => Function.update inUse a flag) s.inUse }

def Pc.signal : Pc → Pc
  | .asleep _ => .asleep true
  | p => p

def State.broadcast (s : State χ) : State χ := { s with pc := fun c => (s.pc c).signal }

/-- One turn of the loop, up to the wait. -/
def acquire (list : List Appliance) (s : State χ) (c : χ) : State χ :=
  if list.any s.inUse then s.goto c (.asleep false) else (s.mark list true).goto c .cooking

def release (list : List Appliance) (s : State χ) (c : χ) : State χ := (s.mark list false).broadcast.goto c .resting

/-- The next stretch of chef `c` that has `applianceLock`. A sleeping one may go on at any time. -/
def exec (needed : χ → List Appliance) (s : State χ) (c : χ) : State χ :=
  match s.pc c with
  | .resting | .asleep _ => acquire (needed c) s c
  | .cooking => release (needed c) s c

def system (needed : χ → List Appliance) : System (State χ) χ where
  init s := s = start χ
  step s c s' := exec needed s c = s'

def State.holds (needed : χ → List Appliance) (s : State χ) (c : χ) (a : Appliance) : Prop :=
  s.pc c = .cooking ∧ a ∈ needed c

end TakeAll

end OsCoursework.Kitchen
