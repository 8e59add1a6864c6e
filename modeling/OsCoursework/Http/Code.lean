import OsCoursework.Lib.Cstring

/-!
# The response loop of the HTTP client

`ex16/HTTPclient.c`. The socket gives the response in chunks, until `read` returns 0.
-/

open OsCoursework.Cstring

namespace OsCoursework.Http

/-- What one `read` leaves in `buffer`. -/
structure Chunk where
  bytes : List CChar
  nonempty : bytes ≠ []
  fits : bytes.length ≤ 1024

/-- The variables of the loop, and the two streams that it writes to. -/
structure State where
  inHeader : Bool
  last4 : Vector CChar 4
  stderr : List CChar
  stdout : List CChar

def State.start : State := ⟨true, Vector.replicate 4 0, [], []⟩

/-- CR LF CR LF -/
def blankLine : List CChar := [0x0d, 0x0a, 0x0d, 0x0a]

/-- The body of the inner loop. -/
def putByte (s : State) (c : CChar) : State :=
  if s.inHeader then
    let last4 := #v[s.last4[1], s.last4[2], s.last4[3], c]
    { s with
      stderr := s.stderr ++ [c]
      last4
      inHeader := !(last4[0] == 0x0d && last4[1] == 0x0a && last4[2] == 0x0d && last4[3] == 0x0a) }
  else { s with stdout := s.stdout ++ [c] }

theorem last4_toList (last4 : Vector CChar 4) : last4.toList = [last4[0], last4[1], last4[2], last4[3]] := by
  refine List.ext_getElem (by simp) fun i hi _ => ?_
  rw [Vector.length_toList] at hi
  rw [Vector.getElem_toList]
  interval_cases i <;> rfl

theorem blankLine_eq_iff (last4 : Vector CChar 4) :
    (last4[0] == 0x0d && last4[1] == 0x0a && last4[2] == 0x0d && last4[3] == 0x0a) = true ↔
      last4.toList = blankLine := by
  rw [last4_toList]
  simp [blankLine, and_assoc]

def respond (chunks : List Chunk) : State := chunks.foldl (fun s chunk => chunk.bytes.foldl putByte s) .start

end OsCoursework.Http
