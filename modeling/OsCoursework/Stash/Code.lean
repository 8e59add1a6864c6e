import OsCoursework.Lib.Cstring
import OsCoursework.Lib.Transition

/-!
# The shell

`stash.c`, with all the processes that come from one start of it. A step is what a shell does
with one line, up to its wait for a child, or what happens to a process: `execvp` in a child,
the end of a wait, the end of a program, the end of the input. Any line may come next, and
`fork`, `execvp` and `chdir` may fail at any time. A process that follows a null pointer is killed.
To read a word that was never set or is freed, or to store past the array, has no meaning, and is
no step.
-/

open OsCoursework.Cstring OsCoursework.Transition

namespace OsCoursework.Stash

def maxCommandLen : Nat := 1024

def maxWords : Nat := 514

/-- What an entry of the array of words points to. -/
inductive Slot where
  | unset
  | null
  | freed
  | word (str : List CChar)
  deriving DecidableEq

abbrev Words := Nat → Slot

def Slot.str : Slot → Option (List CChar)
  | .word str => some str
  | _ => none

/-! ## parseCommand -/

def isspace (c : CChar) : Bool := c = 0x20 ∨ (0x09 ≤ c ∧ c ≤ 0x0d)

/-- `sscanf( line, "%99s%n", str, &offset )` -/
def sscanfWord (line : List CChar) : Option (List CChar × Nat) :=
  let blank := (line.takeWhile isspace).length
  let str := ((line.drop blank).takeWhile fun c => !isspace c).take 99
  if str = [] then none else some (str, blank + str.length)

/-- The loop, with the number of turns that `count < MAX_WORDS` leaves. -/
def parseLoop : Nat → List CChar → Nat → Words → Nat × Words
  | 0, _, count, words => (count, words)
  | turns + 1, line, count, words =>
    match sscanfWord line with
    | none => (count, words)
    | some (str, offset) => parseLoop turns (line.drop offset) (count + 1) (Function.update words count (.word str))

def parseCommand (line : List CChar) (words : Words) : Nat × Words := parseLoop maxWords (text line) 0 words

/-! ## Shells and other processes -/

/-- The memory of a shell. -/
structure Shell where
  words : Words
  olderSibling : Int

inductive Process where
  | absent
  /-- At the `fgets` of `main`. -/
  | reading (shell : Shell)
  /-- In the `waitpid` of `runCommand`, for one child or for any. -/
  | waiting (child : Option Nat) (shell : Shell) (args : Nat)
  /-- Between the `fork` and the `execvp` of `runCommand`. -/
  | child (shell : Shell) (args : Nat)
  | program
  /-- Over, and its parent has not waited for it yet. -/
  | exited
  | reaped

inductive Message where
  | prompt
  | invalid
  | done (pid : Int)
  | cantCreate
  | id (pid : Int)
  | cantRun (command : List CChar)

structure State where
  process : Nat → Process
  parent : Nat → Nat
  nextPid : Nat
  printed : List Message

/-- The first shell. -/
def firstPid : Nat := 1

def start : State where
  process := Function.update (fun _ => .absent) firstPid (.reading { words := fun _ => .unset, olderSibling := -1 })
  parent _ := 0
  nextPid := firstPid + 1
  printed := [.prompt]

def State.set (s : State) (pid : Nat) (process : Process) : State :=
  { s with process := Function.update s.process pid process }

def State.print (s : State) (message : Message) : State := { s with printed := s.printed ++ [message] }

def Slot.free : Slot → Slot
  | .word _ => .freed
  | slot => slot

/-- The loop that frees the words of a line. -/
def Shell.free (sh : Shell) (args : Nat) : Shell :=
  { sh with words := fun i => if i < args then (sh.words i).free else sh.words i }

/-- The end of the loop of `main`. -/
def State.again (s : State) (pid : Nat) (sh : Shell) (args : Nat) : State :=
  (s.print .prompt).set pid (.reading (sh.free args))

/-- Process `pid` follows the pointer to a word, and goes on with what it finds. -/
def State.follow (s : State) (pid : Nat) (slot : Slot) (next : List CChar → Option State) : Option State :=
  match slot with
  | .word str => next str
  | .null => some (s.set pid .exited)
  | .unset | .freed => none

/-! ## runExit, runCd and runCommand -/

/-- `sscanf( word, "%d", &status )` finds a number. -/
def scansInt (word : List CChar) : Bool :=
  match word.dropWhile isspace with
  | [] => false
  | c :: rest =>
    let digits := if c = 0x2b ∨ c = 0x2d then rest else c :: rest
    digits.head?.any fun d => 0x30 ≤ d ∧ d ≤ 0x39

def runExit (s : State) (pid : Nat) (sh : Shell) (args : Nat) : Option State :=
  s.follow pid (sh.words 1) fun word =>
    some (if ¬ scansInt word ∨ args ≠ 2 then (s.print .invalid).again pid sh args else s.set pid .exited)

/-- `found` is the answer of `chdir`. -/
def runCd (s : State) (pid : Nat) (sh : Shell) (args : Nat) (found : Bool) : Option State :=
  if args ≠ 2 then some ((s.print .invalid).again pid sh args)
  else (sh.words 1).str.map fun _ => (if found then s else s.print .invalid).again pid sh args

def Process.isExited : Process → Bool
  | .exited => true
  | _ => false

def Process.isReaped : Process → Bool
  | .reaped => true
  | _ => false

/-- `waitpid( older_sibling, NULL, WNOHANG )` returns `older_sibling`. -/
def siblingDone (s : State) (pid : Nat) (sh : Shell) : Bool :=
  0 < sh.olderSibling ∧ s.parent sh.olderSibling.toNat = pid ∧ (s.process sh.olderSibling.toNat).isExited

def checkSibling (s : State) (pid : Nat) (sh : Shell) : State × Shell :=
  if siblingDone s pid sh then
    ((s.print (.done sh.olderSibling)).set sh.olderSibling.toNat .reaped, { sh with olderSibling := -1 })
  else (s, sh)

/-- What the parent does with the `id` that `fork` gave. -/
def parentBranch (s : State) (pid : Nat) (sh : Shell) (args : Nat) (background : Bool) (id : Option Nat) : State :=
  let pidT : Int := (id.map fun c => (c : Int)).getD (-1)
  if background then (s.print (.id pidT)).again pid { sh with olderSibling := pidT } args
  else s.set pid (.waiting id sh args)

/-- `forks` is whether `fork` makes a child. -/
def runCommand (s : State) (pid : Nat) (sh : Shell) (args : Nat) (forks : Bool) : Option State :=
  (sh.words (args - 1)).str.bind fun last =>
    let background := decide (last.head? = some 0x26)
    let count := if background then args - 1 else args
    let (s, sh) := checkSibling s pid sh
    if count < maxWords then
      let sh := { sh with words := Function.update sh.words count .null }
      if forks then
        let c := s.nextPid
        let s := { s with parent := Function.update s.parent c pid, nextPid := c + 1 }
        some (parentBranch (s.set c (.child sh args)) pid sh args background (some c))
      else some (parentBranch (s.print .cantCreate) pid sh args background none)
    else none

/-! ## main -/

/-- The body of the loop of `main`, up to the wait for a child. -/
def mainLoop (s : State) (pid : Nat) (sh : Shell) (line : List CChar) (found forks : Bool) : Option State :=
  if line.head? = some 0x0a then some ((s.print .prompt).set pid (.reading sh))
  else
    let (args, words) := parseCommand line sh.words
    let sh := { sh with words := words }
    s.follow pid (words 0) fun command =>
      if command = ascii "cd" then runCd s pid sh args found
      else if command = ascii "exit" then runExit s pid sh args
      else runCommand s pid sh args forks

/-- `execvp` in a child, which looks at the name first. When it fails, the child goes on in `main`. -/
def execvp (s : State) (pid : Nat) (sh : Shell) (args : Nat) (found : Bool) : Option State :=
  s.follow pid (sh.words 0) fun command =>
    some (if found then s.set pid .program else (s.print (.cantRun command)).again pid sh args)

/-- The child that a wait has got. -/
def reap (s : State) (pid : Nat) : Option Nat → Option Nat → Option State
  | some c, _ => if (s.process c).isExited then some (s.set c .reaped) else none
  | none, some c => if s.parent c = pid ∧ (s.process c).isExited then some (s.set c .reaped) else none
  | none, none => if ∀ c < s.nextPid, s.parent c = pid → (s.process c).isReaped then some s else none

/-! ## Runs -/

inductive Event where
  /-- A shell reads a line. -/
  | line (pid : Nat) (line : List CChar) (found forks : Bool)
  | execvp (pid : Nat) (found : Bool)
  /-- A wait returns. One for any child may get `child`. -/
  | wake (pid : Nat) (child : Option Nat)
  /-- A program ends. -/
  | ends (pid : Nat)
  /-- `fgets` returns null. -/
  | eof (pid : Nat)

/-- What `fgets` can deliver. -/
def Delivered (line : List CChar) : Prop := line ≠ [] ∧ line.length < maxCommandLen ∧ 0x0a ∉ line.dropLast

instance (line : List CChar) : Decidable (Delivered line) := inferInstanceAs (Decidable (_ ∧ _ ∧ _))

def exec (s : State) : Event → Option State
  | .line pid line found forks =>
    match s.process pid with
    | .reading sh => if Delivered line then mainLoop s pid sh line found forks else none
    | _ => none
  | .execvp pid found =>
    match s.process pid with
    | .child sh args => Stash.execvp s pid sh args found
    | _ => none
  | .wake pid child =>
    match s.process pid with
    | .waiting id sh args => (reap s pid id child).map fun s => s.again pid sh args
    | _ => none
  | .ends pid =>
    match s.process pid with
    | .program => some (s.set pid .exited)
    | _ => none
  | .eof pid =>
    match s.process pid with
    | .reading _ => some (s.set pid .exited)
    | _ => none

def system : System State Event where
  init s := s = start
  step s e s' := exec s e = some s'

end OsCoursework.Stash
