import OsCoursework.Lib.Cstring
import OsCoursework.Lib.Transition

/-!
# The shared-memory editor

`edit.c` and `reset.c`. Every command runs between `sem_wait` and `sem_post`, so a
run is a sequence of whole commands. A function that returns `bool` gives the new
state as well. The C `int` is `Int`: `len` and `num_undos` stay small, and `idx` is
only compared before it is known to be a place in the text.
-/

open OsCoursework.Cstring OsCoursework.Transition

namespace OsCoursework.Editor

abbrev stringLimit : Nat := 76

abbrev undoLimit : Nat := 3

abbrev Buffer := Vector CChar stringLimit

structure EditState where
  string : Buffer
  prev1 : Buffer
  prev2 : Buffer
  prev3 : Buffer
  len : Int
  numUndos : Int

def copy (src : Buffer) : Buffer := strncpy stringLimit src.toList

/-- What `insert` and `delete` share: shift the saved texts, save this one, and store the new one. -/
def EditState.edit (state : EditState) (string : Buffer) (len : Int) : EditState where
  prev3 := copy state.prev2
  prev2 := copy state.prev1
  prev1 := copy state.string
  string := string
  len := len
  numUndos := if state.numUndos < undoLimit then state.numUndos + 1 else state.numUndos

def insert (state : EditState) (idx : Int) (ch : CChar) : Bool × EditState :=
  if idx < 0 ∨ idx > state.len ∨ state.len ≥ stringLimit - 1 then (false, state)
  else
    let i := idx.toNat
    let moved := memmove state.string (i + 1) i (state.len - idx + 1).toNat
    (true, state.edit (moved.setIfInBounds i ch) (state.len + 1))

def delete (state : EditState) (idx : Int) : Bool × EditState :=
  if idx < 0 ∨ idx ≥ state.len then (false, state)
  else
    let i := idx.toNat
    let moved := memmove state.string i (i + 1) (state.len - idx).toNat
    (true, state.edit moved (state.len - 1))

def undo (state : EditState) : Bool × EditState :=
  if state.numUndos = 0 then (false, state)
  else
    (true, { state with
      string := copy state.prev1
      prev1 := copy state.prev2
      prev2 := copy state.prev3
      numUndos := state.numUndos - 1 })

/-- `reset`, on a segment with any contents. `none` is "Input string too long". -/
def reset (segment : EditState) (initialString : List CChar) : Option EditState :=
  if strlen initialString ≥ stringLimit then none
  else
    some { segment with
      string := (strncpy stringLimit initialString).setIfInBounds (stringLimit - 1) 0
      len := strlen initialString
      numUndos := 0 }

/-! ## Runs -/

inductive Command where
  | insert (idx : Int) (ch : CChar)
  | delete (idx : Int)
  | undo

def Command.exec (state : EditState) : Command → Bool × EditState
  | .insert idx ch => Editor.insert state idx ch
  | .delete idx => Editor.delete state idx
  | .undo => Editor.undo state

def run (state : EditState) (commands : List Command) : EditState :=
  commands.foldl (fun s c => (c.exec s).2) state

/-- All runs from a `reset`, with the reply of each command. -/
def editor : System EditState (Command × Bool) where
  init s := ∃ segment initialString, reset segment initialString = some s
  step s e t := e.1.exec s = (e.2, t)

theorem run_append (s : EditState) (cs : List Command) (c : Command) :
    run s (cs ++ [c]) = (c.exec (run s cs)).2 := by
  simp [run]

end OsCoursework.Editor
