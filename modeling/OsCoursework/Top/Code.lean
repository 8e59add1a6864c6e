import OsCoursework.Lib.Lines
import OsCoursework.Lib.Strtol
import OsCoursework.Lib.Words

/-!
# The largest processes

`top.c`, from the directory `/proc` to the last table it prints. `qsort` is not part of it. A number
that is no `long` is cut to one, and only its low 32 bits come into an `int`.
-/

open OsCoursework.Cstring OsCoursework.ForLoop OsCoursework.Lines OsCoursework.Words

namespace OsCoursework.Top

/-- `MAX_PROC_NUM` -/
def maxProcNum : Nat := 1024

/-- `MAX_LINE_LEN` -/
def maxLineLen : Nat := 256

@[ext] structure MyProcess where
  pid : Int
  pname : List CChar
  pstate : CChar
  ppid : Int
  memsize : Int
  deriving DecidableEq

/-- The difference of two ints, which wraps. -/
def compareProcMem (a b : MyProcess) : Int := int32 (b.memsize - a.memsize)

/-! ## /proc -/

/-- An entry of the directory, with its file `status` when it has one. -/
structure Entry where
  isDir : Bool
  name : List CChar
  status : Option (List CChar)

def isNumeric (s : List CChar) : Bool := if s = [] then false else s.all isDigit

/-- What `fgets` delivers, line by line. -/
def fgetsLines (status : List CChar) : List (List CChar) :=
  (pieces 0x0a (maxLineLen - 1) status.length status).map text

/-! ## One status file -/

/-- `%63s` -/
def scanWord (s : List CChar) : Option (List CChar) :=
  let word := (firstWord isSpace s).take 63
  if word = [] then none else some word

/-- A white space and `%c` -/
def scanChar (s : List CChar) : Option CChar := (s.dropWhile isSpace).head?

/-- `%d` -/
def scanInt (s : List CChar) : Option Int :=
  let number := s.dropWhile isSpace
  let signed := number.head? = some 0x2d ∨ number.head? = some 0x2b
  let digits := (if signed then number.tail else number).takeWhile isDigit
  if digits = [] then none else some (atoi s)

/-- `current_proc` and the four flags. -/
@[ext] structure Scan where
  proc : MyProcess
  foundName : Bool
  foundState : Bool
  foundPpid : Bool
  foundVmsize : Bool

def Scan.start (pid : Int) : Scan := ⟨⟨pid, [], 0, 0, 0⟩, false, false, false, false⟩

def Scan.done (s : Scan) : Bool := s.foundName && s.foundState && s.foundPpid && s.foundVmsize

def scanLine (s : Scan) (line : List CChar) : Scan :=
  if ascii "Name:" <+: line then
    { s with proc := { s.proc with pname := (scanWord (line.drop 5)).getD s.proc.pname }, foundName := true }
  else if ascii "State:" <+: line then
    { s with proc := { s.proc with pstate := (scanChar (line.drop 6)).getD s.proc.pstate }, foundState := true }
  else if ascii "PPid:" <+: line then
    { s with proc := { s.proc with ppid := (scanInt (line.drop 5)).getD s.proc.ppid }, foundPpid := true }
  else if ascii "VmSize:" <+: line then
    { s with proc := { s.proc with memsize := (scanInt (line.drop 7)).getD s.proc.memsize }, foundVmsize := true }
  else s

/-- The loop over the lines, which stops when there is nothing more to find. -/
def statusLoop : List (List CChar) → Scan → Scan
  | [], s => s
  | line :: lines, s =>
    let s := scanLine s line
    if s.done then s else statusLoop lines s

/-! ## The table -/

/-- `procs`, after the loop over the directory. -/
def getAllProcess : List Entry → List MyProcess → List MyProcess
  | [], procs => procs
  | entry :: entries, procs =>
    if procs.length < maxProcNum then
      if entry.isDir ∧ isNumeric entry.name then
        match entry.status with
        | none => getAllProcess entries procs
        | some status =>
          let s := statusLoop (fgetsLines status) (.start (atoi entry.name))
          if s.done ∧ s.proc.memsize > 0 then getAllProcess entries (procs ++ [s.proc]) else getAllProcess entries procs
      else getAllProcess entries procs
    else procs

def decimal (i : Int) : List CChar := ascii (toString i)

def padRight (width : Nat) (s : List CChar) : List CChar := s ++ List.replicate (width - s.length) 0x20

def padLeft (width : Nat) (s : List CChar) : List CChar := List.replicate (width - s.length) 0x20 ++ s

/-- `"%-7d (%-15s) %c %7d %10d\n"` -/
def printProc (p : MyProcess) : List CChar :=
  padRight 7 (decimal p.pid) ++ ascii " (" ++ padRight 15 p.pname ++ ascii ") " ++ [p.pstate] ++ ascii " " ++
    padLeft 7 (decimal p.ppid) ++ ascii " " ++ padLeft 10 (decimal p.memsize) ++ ascii "\n"

/-- `qsort` of an array of processes, with a comparison function. -/
abbrev Qsort := (MyProcess → MyProcess → Int) → List MyProcess → List MyProcess

def outputProc (qsort : Qsort) (procs : List MyProcess) : List (List CChar) :=
  let countToPrint := if procs.length < 10 then procs.length else 10
  ((qsort compareProcMem procs).take countToPrint).map printProc

def top (qsort : Qsort) (entries : List Entry) : List (List CChar) := outputProc qsort (getAllProcess entries [])

end OsCoursework.Top
