import OsCoursework.Lib.ForLoop

/-!
# Points of interest, sorted in their file

`ex14/sort.c` maps the file into memory, so `plist[i]` is `sizeof(POI)` bytes of the file. A record
that is not below `numPOIs` has no meaning here. Counts and indices are `size_t`.
-/

open OsCoursework.ForLoop

namespace OsCoursework.Poi

abbrev Byte := BitVec 8

/-- `NAME_MAX`: maximum length of a name. -/
abbrev nameMax : Nat := 23

/-- `sizeof(POI)`: the name and two doubles. -/
abbrev poiSize : Nat := nameMax + 1 + 8 + 8

abbrev POI := Vector Byte poiSize

abbrev Double := Vector Byte 8

def POI.lat (p : POI) : Double := p.extract (nameMax + 1) (nameMax + 1 + 8)

def POI.lon (p : POI) : Double := p.extract (nameMax + 1 + 8) (nameMax + 1 + 8 + 8)

def numPOIs (file : List Byte) : Nat := file.length / poiSize

/-- `plist[i]` -/
def load (file : List Byte) (i : Nat) : Option POI :=
  if h : (i + 1) * poiSize ≤ file.length then
    some ⟨((file.drop (i * poiSize)).take poiSize).toArray, by rw [Nat.add_one_mul] at h; simp; omega⟩
  else none

/-- `plist[i] = p` -/
def store (file : List Byte) (i : Nat) (p : POI) : Option (List Byte) :=
  if (i + 1) * poiSize ≤ file.length then
    some (file.take (i * poiSize) ++ (p.toList ++ file.drop ((i + 1) * poiSize)))
  else none

variable {κ : Type} [LinearOrder κ]

/-- The body of the inner loop. -/
def compareStep (globalDistance : Double → Double → κ) (i j : Nat) (file : List Byte) : Option (List Byte) :=
  (load file i).bind fun a =>
    (load file j).bind fun b =>
      if globalDistance b.lat b.lon < globalDistance a.lat a.lon then
        (store file i b).bind fun file => store file j a
      else some file

/-- The two loops, and how often the outer one went round. -/
def sortFile (globalDistance : Double → Double → κ) (fuel : Nat) (file : List Byte) : Option (List Byte × Nat) :=
  let body (i : Nat) : List Byte × Nat → Option (List Byte × Nat)
    | (f, turns) =>
      (forSize (numPOIs file) (compareStep globalDistance i) fuel (size64 (i + 1)) f).map fun f => (f, turns + 1)
  forSize (size64 (numPOIs file - 1)) body fuel 0 (file, 0)

end OsCoursework.Poi
