import OsCoursework.Lib.Descriptors

/-!
# A pipe between two programs

`ex03/pipe.c`, with `ps` and `grep` in their child processes. What `ps` puts out and what `grep`
makes of its input are arbitrary, and either program may be missing. `grep` puts out what it has found
when its input has ended. `fork` and `pipe` do not fail. A descriptor table is copied by `fork` and kept
by `execlp`, and it is gone when the process ends.
-/

open OsCoursework.Descriptors

namespace OsCoursework.Pipeline

variable {δ α : Type*}

inductive File where
  /-- It was open when the program started. -/
  | inherited
  | readEnd
  | writeEnd
  deriving DecidableEq

structure Setting (δ α : Type*) where
  stdin : δ
  stdout : δ
  pfd0 : δ
  pfd1 : δ
  inherited : δ → Bool
  /-- What `ps -ef` puts out. -/
  listing : List α
  /-- What `grep bash` puts out for an input. -/
  grep : List α → List α
  capacity : Nat
  psFound : Bool
  grepFound : Bool

/-- `pipe` takes descriptors that are not open, and the standard ones are. -/
structure Setting.Ok (P : Setting δ α) : Prop where
  std : P.stdin ≠ P.stdout
  ends : P.pfd0 ≠ P.pfd1
  stdin : P.inherited P.stdin = true
  stdout : P.inherited P.stdout = true
  pfd0 : P.inherited P.pfd0 = false
  pfd1 : P.inherited P.pfd1 = false
  capacity : 0 < P.capacity

inductive ParentPc where
  | pipe
  | forkPs
  | forkGrep
  | close0
  | close1
  | wait (i : Nat)
  | returned
  deriving DecidableEq

inductive PsPc (α : Type*) where
  | unborn
  | close0
  | dup
  | close1
  | exec
  | writing (rest : List α)
  | exited
  /-- By `SIGPIPE`. -/
  | killed
  | reaped
  deriving DecidableEq

inductive GrepPc (α : Type*) where
  | unborn
  | close1
  | dup
  | close0
  | exec
  | reading (got : List α)
  | printing (rest : List α)
  | exited
  | reaped
  deriving DecidableEq

inductive Child where
  | ps
  | grep
  deriving DecidableEq

structure State (δ α : Type*) where
  parent : ParentPc
  ps : PsPc α
  grep : GrepPc α
  parentTable : Table δ File
  psTable : Table δ File
  grepTable : Table δ File
  pipe : List α
  terminal : List α
  stderr : List String

def noFiles : Table δ File := fun _ => none

def start (P : Setting δ α) : State δ α where
  parent := .pipe
  ps := .unborn
  grep := .unborn
  parentTable fd := if P.inherited fd then some .inherited else none
  psTable := noFiles
  grepTable := noFiles
  pipe := []
  terminal := []
  stderr := []

variable [DecidableEq δ] [Fintype δ] [DecidableEq α]

def State.refers (s : State δ α) (e : File) : Prop :=
  s.parentTable.refers e ∨ s.psTable.refers e ∨ s.grepTable.refers e

instance (s : State δ α) (e : File) : Decidable (s.refers e) := inferInstanceAs (Decidable (_ ∨ _ ∨ _))

/-- `none` is a wait for a child. -/
def execParent (P : Setting δ α) (s : State δ α) : Option (State δ α) :=
  match s.parent with
  | .pipe =>
    some { s with parent := .forkPs, parentTable := (s.parentTable.open P.pfd0 .readEnd).open P.pfd1 .writeEnd }
  | .forkPs => some { s with parent := .forkGrep, ps := .close0, psTable := s.parentTable }
  | .forkGrep => some { s with parent := .close0, grep := .close1, grepTable := s.parentTable }
  | .close0 => some { s with parent := .close1, parentTable := s.parentTable.close P.pfd0 }
  | .close1 => some { s with parent := .wait 0, parentTable := s.parentTable.close P.pfd1 }
  | .wait i => if i < 2 then none else some { s with parent := .returned, parentTable := noFiles }
  | .returned => none

/-- `wait` returns for one of the children. -/
def execReap (s : State δ α) (c : Child) : Option (State δ α) :=
  match s.parent, c with
  | .wait i, .ps =>
    if i < 2 ∧ (s.ps = .exited ∨ s.ps = .killed) then some { s with parent := .wait (i + 1), ps := .reaped } else none
  | .wait i, .grep =>
    if i < 2 ∧ s.grep = .exited then some { s with parent := .wait (i + 1), grep := .reaped } else none
  | _, _ => none

/-- `none` is a wait for room in the pipe. -/
def execPs (P : Setting δ α) (s : State δ α) : Option (State δ α) :=
  match s.ps with
  | .close0 => some { s with ps := .dup, psTable := s.psTable.close P.pfd0 }
  | .dup => some { s with ps := .close1, psTable := s.psTable.dup2 P.pfd1 P.stdout }
  | .close1 => some { s with ps := .exec, psTable := s.psTable.close P.pfd1 }
  | .exec =>
    if P.psFound then some { s with ps := .writing P.listing }
    else some { s with ps := .exited, psTable := noFiles, stderr := s.stderr ++ ["Error: Can't run ps -ef\n"] }
  | .writing [] => some { s with ps := .exited, psTable := noFiles }
  | .writing (a :: rest) =>
    match s.psTable P.stdout with
    | some .writeEnd =>
      if ¬ s.refers .readEnd then some { s with ps := .killed, psTable := noFiles }
      else if s.pipe.length < P.capacity then some { s with ps := .writing rest, pipe := s.pipe ++ [a] }
      else none
    | some .inherited => some { s with ps := .writing rest, terminal := s.terminal ++ [a] }
    | _ => some { s with ps := .writing rest }
  | .unborn | .exited | .killed | .reaped => none

/-- `none` is a wait for input. That `grep` reads what the user types, or fills the pipe itself, is not modelled. -/
def execGrep (P : Setting δ α) (s : State δ α) : Option (State δ α) :=
  match s.grep with
  | .close1 => some { s with grep := .dup, grepTable := s.grepTable.close P.pfd1 }
  | .dup => some { s with grep := .close0, grepTable := s.grepTable.dup2 P.pfd0 P.stdin }
  | .close0 => some { s with grep := .exec, grepTable := s.grepTable.close P.pfd0 }
  | .exec =>
    if P.grepFound then some { s with grep := .reading [] }
    else some { s with grep := .exited, grepTable := noFiles, stderr := s.stderr ++ ["Error: Can't run grep bash\n"] }
  | .reading got =>
    match s.grepTable P.stdin, s.pipe with
    | some .readEnd, a :: pipe => some { s with grep := .reading (got ++ [a]), pipe }
    | some .readEnd, [] => if s.refers .writeEnd then none else some { s with grep := .printing (P.grep got) }
    | some .inherited, _ => none
    | _, _ => some { s with grep := .printing (P.grep got) }
  | .printing [] => some { s with grep := .exited, grepTable := noFiles }
  | .printing (a :: rest) =>
    match s.grepTable P.stdout with
    | some .inherited => some { s with grep := .printing rest, terminal := s.terminal ++ [a] }
    | some .writeEnd => none
    | _ => some { s with grep := .printing rest }
  | .unborn | .exited | .reaped => none

inductive Actor where
  | parent
  | reap (c : Child)
  | ps
  | grep

def exec (P : Setting δ α) (s : State δ α) : Actor → Option (State δ α)
  | .parent => execParent P s
  | .reap c => execReap s c
  | .ps => execPs P s
  | .grep => execGrep P s

end OsCoursework.Pipeline
