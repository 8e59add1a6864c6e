import OsCoursework.Lib.Lines
import OsCoursework.Lib.Strtol

/-!
# Copying a file without one line

`exclude.c`, once both files are open. A store outside `wholeFile` and an `int` that is too large
have no meaning, and the fault says which of them came. `read` cuts the input into any chunks,
and `write` writes all it gets.
-/

open OsCoursework.Cstring OsCoursework.Lines

namespace OsCoursework.Exclude

def linesLimit : Nat := 1000

def lineLimit : Nat := 1000

def intMax : Int := 2 ^ 31 - 1

def newline : CChar := 0x0a

inductive Fault where
  /-- A store at `wholeFile[j][h]`. -/
  | store (j h : Nat)
  | overflow
  deriving DecidableEq

/-! ## The line number -/

/-- The loop of `string_to_int`. `none` is a call of `usage`. -/
def stringToIntLoop : List CChar → Int → Except Fault (Option Int)
  | [], out => .ok (some out)
  | c :: str, out =>
    if ¬ isDigit c then .ok none
    else
      let out := out * 10 + (c.toNat - 0x30)
      if out > intMax then .error .overflow else stringToIntLoop str out

def stringToInt (str : List CChar) : Except Fault (Option Int) := stringToIntLoop (text str) 0

/-! ## The copy loop -/

structure CopyState where
  wholeFile : Nat → Nat → CChar
  /-- The current line, and the place in it. -/
  j : Nat
  h : Nat
  /-- What `write` got so far. -/
  writes : List (List CChar)

/-- The first `h` bytes of `wholeFile[j]`. -/
def CopyState.line (s : CopyState) : List CChar := (List.range s.h).map (s.wholeFile s.j)

def CopyState.store (s : CopyState) (c : CChar) : CopyState :=
  { s with wholeFile := Function.update s.wholeFile s.j (Function.update (s.wholeFile s.j) s.h c), h := s.h + 1 }

/-- At a newline. -/
def CopyState.endLine (excludedLineIdx : Int) (s : CopyState) : CopyState :=
  { s with
    writes := if (s.j : Int) ≠ excludedLineIdx then s.writes ++ [s.line] else s.writes
    j := s.j + 1
    h := 0 }

/-- The body of the inner loop. -/
def copyByte (excludedLineIdx : Int) (s : CopyState) (c : CChar) : Except Fault CopyState :=
  if s.j < linesLimit ∧ s.h < lineLimit then
    .ok (if c = newline then (s.store c).endLine excludedLineIdx else s.store c)
  else .error (.store s.j s.h)

/-- The loop, with what each `read` delivers. -/
def copyLoop (excludedLineIdx : Int) (s : CopyState) (chunks : List (List CChar)) : Except Fault CopyState :=
  chunks.foldlM (fun s chunk => chunk.foldlM (copyByte excludedLineIdx) s) s

def start : CopyState where
  wholeFile _ _ := 0
  j := 0
  h := 0
  writes := []

/-! ## main -/

inductive Ending where
  | usage
  | finished (writes : List (List CChar))

/-- From the two open files on. -/
def main (arg : List CChar) (chunks : List (List CChar)) : Except Fault Ending :=
  (stringToInt arg).bind fun excludedLine =>
    match excludedLine with
    | none => .ok .usage
    | some excludedLine =>
      if excludedLine ≤ 0 then .ok .usage
      else (copyLoop (excludedLine - 1) start chunks).map fun s => .finished s.writes

/-! ## The output file -/

structure OutFile where
  contents : List CChar
  offset : Nat

/-- `open` with `O_RDWR | O_CREAT`. `none` is a file that is not there. -/
def openOut (old : Option (List CChar)) : OutFile := ⟨old.getD [], 0⟩

def OutFile.write (f : OutFile) (data : List CChar) : OutFile where
  contents := f.contents.take f.offset ++ data ++ f.contents.drop (f.offset + data.length)
  offset := f.offset + data.length

/-- The file after these writes. -/
def outContents (old : Option (List CChar)) (writes : List (List CChar)) : List CChar :=
  (writes.foldl OutFile.write (openOut old)).contents

/-! ## What it should do -/

/-- What `read` may make of the input. -/
def Delivers (chunks : List (List CChar)) (input : List CChar) : Prop :=
  chunks.flatten = input ∧ ∀ chunk ∈ chunks, chunk ≠ [] ∧ chunk.length ≤ 64

/-- An argument that says `n`. -/
def Says (arg : List CChar) (n : Nat) : Prop := (∀ c ∈ arg, isDigit c = true) ∧ numeral arg = n

def inputLines (input : List CChar) : List (List CChar) := lines newline input

/-- The input without its line `n`, which is counted from 1. -/
def excludeLine (n : Nat) (input : List CChar) : List CChar := ((inputLines input).eraseIdx (n - 1)).flatten

def WithinLimits (input : List CChar) : Prop :=
  (inputLines input).length ≤ linesLimit ∧ ∀ line ∈ inputLines input, line.length ≤ lineLimit

instance (chunks : List (List CChar)) (input : List CChar) : Decidable (Delivers chunks input) :=
  inferInstanceAs (Decidable (_ ∧ _))

instance (arg : List CChar) (n : Nat) : Decidable (Says arg n) := inferInstanceAs (Decidable (_ ∧ _))

instance (input : List CChar) : Decidable (WithinLimits input) := inferInstanceAs (Decidable (_ ∧ _))

end OsCoursework.Exclude
