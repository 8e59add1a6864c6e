import OsCoursework.Kitchen.Code

/-!
# The kitchen programs

`hw5/kitchen.c`, `hw5/global.c` and `hw5/ordered.c` as whole programs: the ten start routines,
the record of each chef, and `main`. They differ in the mutexes that a chef locks, and
`ordered.c` sorts the list of them first. A dish takes as long as it likes, and a chef rests as
long as it likes.
-/

open OsCoursework.ExchangeSort OsCoursework.Transition

namespace OsCoursework.Kitchen

inductive Chef where
  | tad | merry | charles | merlin | lyn | marian | summer | sammy | lura | ginny
  deriving DecidableEq

def Chef.name : Chef → String
  | .tad => "Tad"
  | .merry => "Merry"
  | .charles => "Charles"
  | .merlin => "Merlin"
  | .lyn => "Lyn"
  | .marian => "Marian"
  | .summer => "Summer"
  | .sammy => "Sammy"
  | .lura => "Lura"
  | .ginny => "Ginny"

def chefList : List Chef := [.tad, .merry, .charles, .merlin, .lyn, .marian, .summer, .sammy, .lura, .ginny]

theorem chefList_nodup : chefList.Nodup := by decide

theorem mem_chefList (c : Chef) : c ∈ chefList := by
  cases c <;> decide

instance : Fintype Chef := ⟨⟨chefList, chefList_nodup⟩, mem_chefList⟩

/-- `needed` is the list of each chef, and `prepare` is what is done with it before the locks. -/
structure Program (μ : Type) where
  needed : Chef → List μ
  prepare : List μ → List μ

/-! ## The three programs -/

inductive Mutex where
  | mixer | blender | oven | grill | fryer | griddle | coffeeMaker | microwave
  deriving DecidableEq

/-- The locks of each start routine. The unlocks are in the other direction. -/
def kitchen : Program Mutex where
  needed
    | .tad => [.griddle, .grill, .microwave]
    | .merry => [.mixer, .oven, .blender]
    | .charles => [.coffeeMaker, .griddle]
    | .merlin => [.blender, .mixer]
    | .lyn => [.griddle, .fryer]
    | .marian => [.coffeeMaker, .microwave, .oven]
    | .summer => [.fryer, .blender, .coffeeMaker]
    | .sammy => [.grill, .fryer]
    | .lura => [.microwave, .mixer]
    | .ginny => [.grill, .oven]
  prepare list := list

/-- Every chef of `global.c` locks `kitchenLock`. -/
def global : Program Unit where
  needed _ := [()]
  prepare list := list

/-- `needed` of each start routine, and the loops of `lock_appliances`. -/
def ordered : Program Ordered.Appliance where
  needed
    | .tad => [.griddle, .grill, .microwave]
    | .merry => [.mixer, .oven, .blender]
    | .charles => [.coffeemaker, .griddle]
    | .merlin => [.blender, .mixer]
    | .lyn => [.griddle, .fryer]
    | .marian => [.coffeemaker, .microwave, .oven]
    | .summer => [.fryer, .blender, .coffeemaker]
    | .sammy => [.grill, .fryer]
    | .lura => [.microwave, .mixer]
    | .ginny => [.grill, .oven]
  prepare := exchangeSort Ordered.Appliance.value

/-! ## Chefs -/

inductive Line where
  | cooking (c : Chef)
  | resting (c : Chef)
  | cooked (c : Chef) (dishCount : Int)
  | total (dishes : Int)
  deriving DecidableEq

def Line.text : Line → String
  | .cooking c => c.name ++ " is cooking\n"
  | .resting c => c.name ++ " is resting\n"
  | .cooked c dishCount => c.name ++ " cooked " ++ toString dishCount ++ " dishes\n"
  | .total dishes => "Total dishes cooked: " ++ toString dishes ++ "\n"

/-- Where a chef is. `locking i` locks `list[i]` next, `unlocking (i + 1)` unlocks it. -/
inductive Pc where
  | uncreated
  | testing
  | locking (i : Nat)
  | cooking
  | counting
  | unlocking (i : Nat)
  | resting
  | returned
  deriving DecidableEq

/-- Where `main` is, with its counter `i` and its `total`. -/
inductive MainPc where
  | creating (i : Nat)
  | sleeping
  | joining (i : Nat) (total : BitVec 32)
  | returned (total : BitVec 32)
  deriving DecidableEq

structure State (μ : Type) where
  running : Bool
  main : MainPc
  locked : μ → Bool
  list : Chef → List μ
  dishCount : Chef → BitVec 32
  output : List Line
  pc : Chef → Pc
  /-- What a chef has locked and not yet unlocked. -/
  held : Chef → List μ

variable {μ : Type}

def State.stdout (s : State μ) : String := String.join (s.output.map Line.text)

def State.goto (s : State μ) (c : Chef) (p : Pc) : State μ := { s with pc := Function.update s.pc c p }

def State.printf (s : State μ) (line : Line) : State μ := { s with output := s.output ++ [line] }

def State.countDish (s : State μ) (c : Chef) : State μ :=
  { s with dishCount := Function.update s.dishCount c (s.dishCount c + 1) }

namespace Program

def start (P : Program μ) : State μ where
  running := true
  main := .creating 0
  locked _ := false
  list := P.needed
  dishCount _ := 0
  output := []
  pc _ := .uncreated
  held _ := []

/-- The next step of `main`. `none` is a wait in `pthread_join`. -/
def execMain (s : State μ) : Option (State μ) :=
  match s.main with
  | .creating i =>
    match chefList[i]? with
    | some c => some ({ s with main := .creating (i + 1) }.goto c .testing)
    | none => some { s with main := .sleeping }
  | .sleeping => some { s with running := false, main := .joining 0 0 }
  | .joining i total =>
    match chefList[i]? with
    | some c =>
      if s.pc c = .returned then
        some ({ s with main := .joining (i + 1) (total + s.dishCount c) }.printf (.cooked c (s.dishCount c).toInt))
      else none
    | none => some ({ s with main := .returned total }.printf (.total total.toInt))
  | .returned _ => none

variable [DecidableEq μ]

def lock (s : State μ) (c : Chef) (a : μ) : State μ :=
  { s with locked := Function.update s.locked a true, held := Function.update s.held c (s.held c ++ [a]) }

def unlock (s : State μ) (c : Chef) (a : μ) : State μ :=
  { s with locked := Function.update s.locked a false, held := Function.update s.held c ((s.held c).erase a) }

/-- The next step of chef `c`. `none` is a wait for a mutex, or a chef that is not there. -/
def execChef (P : Program μ) (s : State μ) (c : Chef) : Option (State μ) :=
  match s.pc c with
  | .uncreated | .returned => none
  | .testing =>
    if s.running then some ({ s with list := Function.update s.list c (P.prepare (s.list c)) }.goto c (.locking 0))
    else some (s.goto c .returned)
  | .locking i =>
    match (s.list c)[i]? with
    | none => some (s.goto c .cooking)
    | some a => if s.locked a then none else some ((lock s c a).goto c (.locking (i + 1)))
  | .cooking => some ((s.printf (.cooking c)).goto c .counting)
  | .counting => some ((s.countDish c).goto c (.unlocking (s.list c).length))
  | .unlocking 0 => some (s.goto c .resting)
  | .unlocking (i + 1) => (s.list c)[i]?.map fun a => (unlock s c a).goto c (.unlocking i)
  | .resting => some ((s.printf (.resting c)).goto c .testing)

inductive Actor where
  | main
  | chef (c : Chef)

def exec (P : Program μ) (s : State μ) : Actor → Option (State μ)
  | .main => execMain s
  | .chef c => P.execChef s c

def system (P : Program μ) : System (State μ) Actor where
  init s := s = P.start
  step s actor s' := P.exec s actor = some s'

end Program

/-- Chef `c` is blocked in the lock of `a`. -/
def State.waits (s : State μ) (c : Chef) (a : μ) : Prop :=
  ∃ i, s.pc c = .locking i ∧ (s.list c)[i]? = some a ∧ s.locked a = true

end OsCoursework.Kitchen
