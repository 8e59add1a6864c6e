import OsCoursework.Lib.Cstring
import OsCoursework.Lib.Transition

/-!
# The editing server

`hw2/server.c` with the requests of `hw2/client.c`. `none` is a read or a write beyond a
buffer.
-/

open OsCoursework.Cstring

namespace OsCoursework.Server

abbrev stringLimit : Nat := 76

abbrev undoLimit : Nat := 3

abbrev Buffer := Vector CChar stringLimit

def letter (c : Char) : CChar := BitVec.ofNat 8 c.toNat

structure ClientRequest where
  command : CChar
  index : Int
  character : CChar
  deriving DecidableEq

structure ServerResponse where
  status : Nat
  /-- Up to its zero. -/
  message : List CChar
  deriving DecidableEq

/-! ## The client -/

/-- The command line of a client, after its words were checked. -/
inductive ClientCommand where
  | insert (index : Int) (character : CChar)
  | delete (index : Int)
  | undo
  | report

/-- What the client sends. `none` is `fail`. -/
def clientRequest (command : ClientCommand) : Option ClientRequest :=
  let request : ClientRequest := match command with
    | .insert index character => ⟨letter 'i', index, character⟩
    | .delete index => ⟨letter 'd', index, 1⟩
    | .undo => ⟨letter 'u', 0, 0⟩
    | .report => ⟨letter 'r', 0, 0⟩
  if request.index < 0 then none else some request

/-! ## The server -/

structure EditingString where
  string : Buffer
  prev1 : Buffer
  prev2 : Buffer
  prev3 : Buffer
  len : Int
  numUndos : Int

/-- `strncpy` of the argument, and a zero in the last place. -/
def initialString (argv1 : List CChar) : Buffer := (strncpy stringLimit argv1).setIfInBounds (stringLimit - 1) 0

/-- The struct before the loop, on a stack with any contents. `none` is `usage`. -/
def start (argStr : EditingString) (argv1 : List CChar) : Option EditingString :=
  if letter '\n' ∈ text (initialString argv1).toList then none
  else some { argStr with string := initialString argv1, len := strlen argv1, numUndos := 0 }

/-- The top of the loop, up to the receive. -/
def ready (argStr : EditingString) : Option EditingString :=
  if 0 ∈ argStr.string.toList then
    some { argStr with
      numUndos := if argStr.numUndos > undoLimit then undoLimit else argStr.numUndos
      len := strlen argStr.string.toList }
  else none

/-- The three copies before an edit. -/
def pushHistory (argStr : EditingString) : Option EditingString :=
  (strcpy argStr.prev3 argStr.prev2).bind fun prev3 =>
    (strcpy argStr.prev2 argStr.prev1).bind fun prev2 =>
      (strcpy argStr.prev1 argStr.string).map fun prev1 => { argStr with prev1, prev2, prev3 }

/-- `for (i = ...; i > index; i--) string[i] = string[i - 1];` -/
def shiftRight (index : Nat) : Nat → Buffer → Buffer
  | 0, string => string
  | i + 1, string =>
    if i + 1 > index then shiftRight index i (string.setIfInBounds (i + 1) (string[i]?.getD 0)) else string

/-- `for (i = index; i < STRING_LIMIT - 1; i++) string[i] = string[i + 1];` -/
def shiftLeft (index : Nat) (string : Buffer) : Buffer :=
  (List.range' index (stringLimit - 1 - index)).foldl
    (fun string i => string.setIfInBounds i (string[i + 1]?.getD 0)) string

def insert (argStr : EditingString) (index : Int) (character : CChar) : Option (Nat × EditingString) :=
  if index > argStr.len then some (1, argStr)
  else
    (pushHistory argStr).bind fun argStr =>
      if index < 0 ∨ argStr.len ≥ stringLimit then none
      else
        let moved := shiftRight index.toNat argStr.len.toNat argStr.string
        some (0, { argStr with
          string := moved.setIfInBounds index.toNat character
          numUndos := argStr.numUndos + 1 })

def delete (argStr : EditingString) (index : Int) : Option (Nat × EditingString) :=
  if index > argStr.len then some (1, argStr)
  else
    (pushHistory argStr).bind fun argStr =>
      if index < 0 then none
      else some (0, { argStr with string := shiftLeft index.toNat argStr.string, numUndos := argStr.numUndos + 1 })

def undo (argStr : EditingString) : Option (Nat × EditingString) :=
  if argStr.numUndos > 0 then
    (strcpy argStr.string argStr.prev1).bind fun string =>
      (strcpy argStr.prev1 argStr.prev2).bind fun prev1 =>
        (strcpy argStr.prev2 argStr.prev3).map fun prev2 =>
          (0, { argStr with string, prev1, prev2, numUndos := argStr.numUndos - 1 })
  else some (1, argStr)

/-- The first `switch`, with the status that it leaves. -/
def dispatch (argStr : EditingString) (request : ClientRequest) : Option (Nat × EditingString) :=
  if request.command = letter 'i' then insert argStr request.index request.character
  else if request.command = letter 'd' then delete argStr request.index
  else if request.command = letter 'u' then undo argStr
  else if request.command = letter 'r' then some (2, argStr)
  else some (0, argStr)

/-- `"%s [%d]"`, cut to `strlen(string) + 4` characters in `temp` and to what the message holds. -/
def reportMessage (string : List CChar) (numUndos : Int) : List CChar :=
  ((string ++ ascii (" [" ++ toString numUndos ++ "]")).take (string.length + 4)).take (stringLimit - 1)

/-- How many bytes of `temp` the report fills, with its zero. -/
def tempFilled (string : List CChar) (numUndos : Int) : Nat :=
  ((string ++ ascii (" [" ++ toString numUndos ++ "]")).take (string.length + 4)).length + 1

/-- The second `switch`. -/
def respond (argStr : EditingString) (status : Nat) : Option ServerResponse :=
  match status with
  | 0 => some ⟨0, ascii "OK"⟩
  | 1 => some ⟨1, ascii "ERROR"⟩
  | status =>
    let string := text argStr.string.toList
    if 0 ∈ argStr.string.toList ∧ tempFilled string argStr.numUndos ≤ stringLimit then
      some ⟨status, reportMessage string argStr.numUndos⟩
    else none

/-- One turn of the loop after the receive. -/
def answer (argStr : EditingString) (request : ClientRequest) : Option (ServerResponse × EditingString) :=
  (dispatch argStr request).bind fun r => (respond r.2 r.1).map fun response => (response, r.2)

def turn (argStr : EditingString) (request : ClientRequest) : Option (ServerResponse × EditingString) :=
  (ready argStr).bind fun argStr => answer argStr request

/-- The requests that were received and answered, and the responses. -/
def serve : EditingString → List ClientRequest → Option (List ServerResponse × EditingString)
  | argStr, [] => some ([], argStr)
  | argStr, request :: requests =>
    (turn argStr request).bind fun r => (serve r.2 requests).map fun rest => (r.1 :: rest.1, rest.2)

/-- The text and the count that `main` prints at the end. -/
def finalPrint (argStr : EditingString) : Option (List CChar × Int) :=
  if 0 ∈ argStr.string.toList then some (text argStr.string.toList, argStr.numUndos) else none

/-- SIGINT in the receive, which leaves `request` as it was: the responses that are still sent, and what is
printed. -/
def shutdown (argStr : EditingString) (request : ClientRequest) : Option (List ServerResponse × List CChar × Int) :=
  (turn argStr request).bind fun r => (finalPrint r.2).map fun line => ([r.1], line)

end OsCoursework.Server
