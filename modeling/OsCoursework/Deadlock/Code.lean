import OsCoursework.Lib.Transition

/-!
# The ten threads of ex09

`ex09/deadlock.c`. Every thread repeats its waits, its line of output and its posts for as
long as `running` is set. `main` makes the threads one by one and clears `running` at any
later time. Beside the semaphores is kept what each thread has waited for and not yet posted.
-/

open OsCoursework.Transition

namespace OsCoursework.Deadlock

/-- One semaphore for each. -/
inductive Object where
  | hammer | rubberStamp | bookmark | shovel | bowtie | camera | spatula | tricorder | usbCable
  deriving DecidableEq

/-- The body of the loop of a start routine. -/
structure Routine where
  waits : List Object
  prints : String
  posts : List Object

def threadTamara : Routine where
  waits := [.bookmark, .shovel, .tricorder]
  prints := "Tamara\n"
  posts := [.bookmark, .shovel, .tricorder]

def threadAdolfo : Routine where
  waits := [.hammer, .bowtie, .camera, .usbCable]
  prints := "Adolfo\n"
  posts := [.hammer, .bowtie, .camera, .usbCable]

def threadTerrie : Routine where
  waits := [.hammer, .rubberStamp, .bookmark, .bowtie]
  prints := "Terrie\n"
  posts := [.hammer, .rubberStamp, .bookmark, .bowtie]

def threadDollie : Routine where
  waits := [.hammer, .shovel]
  prints := "Dollie\n"
  posts := [.hammer, .shovel]

def threadAlesha : Routine where
  waits := [.shovel, .camera, .usbCable]
  prints := "Alesha\n"
  posts := [.shovel, .camera, .usbCable]

def threadBenita : Routine where
  waits := [.hammer, .spatula]
  prints := "Benita\n"
  posts := [.hammer, .spatula]

def threadLaverne : Routine where
  waits := [.camera, .tricorder, .usbCable]
  prints := "Laverne\n"
  posts := [.camera, .tricorder, .usbCable]

def threadGrady : Routine where
  waits := [.hammer, .usbCable]
  prints := "Grady\n"
  posts := [.hammer, .usbCable]

def threadArnold : Routine where
  waits := [.rubberStamp, .camera, .spatula]
  prints := "Arnold\n"
  posts := [.rubberStamp, .camera, .spatula]

def threadGladys : Routine where
  waits := [.camera, .spatula]
  prints := "Gladys\n"
  posts := [.camera, .spatula]

inductive Thread where
  | tamara | adolfo | terrie | dollie | alesha | benita | laverne | grady | arnold | gladys
  deriving DecidableEq

def Thread.routine : Thread → Routine
  | .tamara => threadTamara
  | .adolfo => threadAdolfo
  | .terrie => threadTerrie
  | .dollie => threadDollie
  | .alesha => threadAlesha
  | .benita => threadBenita
  | .laverne => threadLaverne
  | .grady => threadGrady
  | .arnold => threadArnold
  | .gladys => threadGladys

/-- `thread[ 10 ]`, in the order `main` creates them. -/
def thread : List Thread :=
  [.tamara, .adolfo, .terrie, .dollie, .alesha, .benita, .laverne, .grady, .arnold, .gladys]

theorem thread_nodup : thread.Nodup := by decide

theorem mem_thread (t : Thread) : t ∈ thread := by
  cases t <;> decide

instance : Fintype Thread := ⟨⟨thread, thread_nodup⟩, mem_thread⟩

/-- Where a thread is. `waiting i` waits for `waits[i]` next, `posting i` posts `posts[i]`. -/
inductive Pc where
  | uncreated
  | testing
  | waiting (i : Nat)
  | printing
  | posting (i : Nat)
  | returned
  deriving DecidableEq

structure State where
  running : Bool
  created : Nat
  value : Object → Nat
  output : List String
  pc : Thread → Pc
  held : Thread → List Object

/-- After the `sem_init` calls. -/
def start : State where
  running := true
  created := 0
  value _ := 1
  output := []
  pc _ := .uncreated
  held _ := []

def State.goto (s : State) (t : Thread) (p : Pc) : State := { s with pc := Function.update s.pc t p }

/-- `sem_wait( &a )` that does not block. -/
def State.wait (s : State) (t : Thread) (a : Object) : State :=
  { s with value := Function.update s.value a (s.value a - 1), held := Function.update s.held t (s.held t ++ [a]) }

/-- `sem_post( &a )` -/
def State.post (s : State) (t : Thread) (a : Object) : State :=
  { s with value := Function.update s.value a (s.value a + 1), held := Function.update s.held t ((s.held t).erase a) }

/-- The next step of thread `t`. `none` is a wait at a semaphore, or a thread that is not there. -/
def execThread (s : State) (t : Thread) : Option State :=
  match s.pc t with
  | .uncreated => none
  | .testing => some (s.goto t (if s.running then .waiting 0 else .returned))
  | .waiting i =>
    match t.routine.waits[i]? with
    | none => some (s.goto t .printing)
    | some a => if s.value a = 0 then none else some ((s.wait t a).goto t (.waiting (i + 1)))
  | .printing => some ({ s with output := s.output ++ [t.routine.prints] }.goto t (.posting 0))
  | .posting i =>
    match t.routine.posts[i]? with
    | none => some (s.goto t .testing)
    | some a => some ((s.post t a).goto t (.posting (i + 1)))
  | .returned => none

/-- The next step of `main`, up to the joins. -/
def execMain (s : State) : Option State :=
  match thread[s.created]? with
  | some t => some ({ s with created := s.created + 1 }.goto t .testing)
  | none => if s.running then some { s with running := false } else none

inductive Actor where
  | main
  | thread (t : Thread)

def exec (s : State) : Actor → Option State
  | .main => execMain s
  | .thread t => execThread s t

def system : System State Actor where
  init s := s = start
  step s a s' := exec s a = some s'

/-- The threads between the wait and the post of `a`. -/
def State.holders (s : State) (a : Object) : Finset Thread := Finset.univ.filter fun t => a ∈ s.held t

def State.unfinished (s : State) (t : Thread) : Prop := s.pc t ≠ .uncreated ∧ s.pc t ≠ .returned

/-- Thread `t` is blocked in the wait for `a`. -/
def State.waits (s : State) (t : Thread) (a : Object) : Prop :=
  ∃ i, s.pc t = .waiting i ∧ t.routine.waits[i]? = some a ∧ s.value a = 0

end OsCoursework.Deadlock
