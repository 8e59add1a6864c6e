import OsCoursework.Lib.Cstring
import OsCoursework.Lib.ForLoop

/-!
# Listing a floppy image

`floppyDir.c`. All reads share one file position, which the recursive calls and
`getFat12` move. The image is never written to, so only the position, the
end-of-file flag and the output are state. `fail` ends the program: the result is
then `Except.error` with the output. The source has the loop over the entries of a
sector twice, once for the root and once for the other directories.
-/

open OsCoursework.Cstring OsCoursework.ForLoop OsCoursework.Fuel

namespace OsCoursework.Floppy

/-! ## Constants -/

def sectorSize : Nat := 512

/-- Start of the (first) copy of the FAT on the disk. -/
def fatStart : Nat := 512

/-- Sector number where the root directory starts. -/
def rootDirStart : Int := -12

abbrev entrySize : Nat := 32

def numFats : Nat := 2

def sectorsPerFat : Nat := 9

def byteOffset : Nat := (1 + numFats * sectorsPerFat) * sectorSize

def rootSectors : Nat := 14

def badSector : Nat := 0xff7

def eocMarkerStart : Nat := 0xff8

/-- Byte offset for the start of the data region on the disk. -/
def dataStart : Nat := byteOffset + rootSectors * sectorSize

/-! ## The image file -/

abbrev Byte := BitVec 8

structure Image where
  size : Nat
  byte : Nat → Byte

structure State where
  pos : Nat
  eof : Bool
  out : List CChar

def State.start : State := ⟨0, false, []⟩

def fseek (s : State) (offset : Nat) : State := { s with pos := offset, eof := false }

/-- `fseek` to a C int. It fails when that is negative, and then the position stays. -/
def fseekInt (s : State) (offset : Int) : Option State :=
  if offset < 0 then none else some (fseek s offset.toNat)

def printf (s : State) (line : List CChar) : State := { s with out := s.out ++ line }

/-- The `n` bytes at an offset, when the file has them all. -/
def Image.bytes (img : Image) (offset n : Nat) : Option (Vector Byte n) :=
  if offset + n ≤ img.size then some (Vector.ofFn fun i => img.byte (offset + i)) else none

/-- `fread` of `n` bytes. A short one stops at the end of the file. -/
def fread (img : Image) (s : State) (n : Nat) : Option (Vector Byte n) × State :=
  match img.bytes s.pos n with
  | some b => (some b, { s with pos := s.pos + n })
  | none => (none, { s with pos := max s.pos img.size, eof := true })

abbrev Result (α : Type) := Option (Except (List CChar) α)

/-- One of the two FAT entries in three bytes, by the low bit of `idx`. -/
def fatEntry (idx : Nat) (b : Vector Byte 3) : Nat :=
  let pair := b[0].toNat ||| b[1].toNat <<< 8 ||| b[2].toNat <<< 16
  if idx % 2 = 1 then pair >>> 12 else pair &&& 0xfff

def fatError (idx : Nat) : List CChar := ascii s!"Can't read fat entry at: {idx}\n"

/-- The end of `getFat12`, after `fread`. -/
def fatResult (idx : Nat) : Option (Vector Byte 3) × State → Result (Nat × State)
  | (none, s) => some (.error (s.out ++ fatError idx))
  | (some b, s) => some (.ok (fatEntry idx b, s))

/-- The code does not look at the result of `fseek`. -/
def getFat12 (img : Image) (s : State) (idx : Nat) : Result (Nat × State) :=
  let offset := int32 (idx / 2 * 3)
  fatResult idx (fread img ((fseekInt s (int32 (fatStart + offset))).getD s) 3)

/-! ## One entry -/

abbrev Entry := Vector Byte entrySize

def Entry.firstByte (e : Entry) : Byte := e[0]

/-- Skipped: a deleted entry, a volume label or a long name, and the `.` entries. -/
def Entry.skipped (e : Entry) : Prop :=
  e.firstByte = 0xe5 ∨ e[11] &&& 0x08 ≠ 0 ∨ e[11] = 0x0f ∨ e.firstByte = 0x2e

instance (e : Entry) : Decidable e.skipped := inferInstanceAs (Decidable (_ ∨ _))

def Entry.isDir (e : Entry) : Prop := e[11] &&& 0x10 = 0x10

instance (e : Entry) : Decidable e.isDir := inferInstanceAs (Decidable (_ = _))

def Entry.startCluster (e : Entry) : Nat := e[26].toNat ||| e[27].toNat <<< 8

/-- The C int. -/
def Entry.size (e : Entry) : Int :=
  (e[28].setWidth 32 ||| e[29].setWidth 32 <<< 8 ||| e[30].setWidth 32 <<< 16 ||| e[31].setWidth 32 <<< 24).toInt

/-- The string in a field, after the spaces at the end of the field were cleared. -/
def trimmed {n : Nat} (field : Vector CChar n) : List CChar := text (field.toList.rdropWhile (· = 0x20))

/-- `snprintf` into 13 bytes. -/
def Entry.fullName (e : Entry) : List CChar :=
  let name := trimmed (strncpy 8 e.toList)
  let ext := trimmed (strncpy 3 (e.toList.drop 8))
  (if ext ≠ [] then name ++ ascii "." ++ ext else name).take 12

/-- The line for an entry: `%-12s %10s` or `%-12s %10d`, behind four spaces for each level. -/
def Entry.line (depth : Nat) (e : Entry) : List CChar :=
  let info := if e.isDir then ascii "DIR" else ascii (toString e.size)
  List.replicate (4 * depth) 0x20 ++ e.fullName ++ List.replicate (12 - e.fullName.length) 0x20 ++ ascii " " ++
    List.replicate (10 - info.length) 0x20 ++ info ++ ascii "\n"

/-- `reportDirectory` is called for this entry. -/
def Entry.descends (e : Entry) : Prop := e.isDir ∧ e.startCluster ≥ 2

instance (e : Entry) : Decidable e.descends := inferInstanceAs (Decidable (_ ∧ _))

/-! ## The loops -/

/-- The loop over the next `n` entries of a sector. The flag says that the directory ended. -/
def entryLoop (img : Image) (recurse : Nat → State → Result State) (depth : Nat) :
    Nat → State → Result (Bool × State)
  | 0, s => some (.ok (false, s))
  | n + 1, s =>
    match fread img s entrySize with
    -- The end of the file, so `feof` holds.
    | (none, s) => some (.ok (true, s))
    | (some (e : Entry), s) =>
      if e.firstByte = 0 then some (.ok (true, s))
      else if e.skipped then entryLoop img recurse depth n s
      else
        let s := printf s (e.line depth)
        if e.descends then
          let nextEntryPos := s.pos
          andThen (recurse e.startCluster s) fun s => entryLoop img recurse depth n (fseek s nextEntryPos)
        else entryLoop img recurse depth n s

/-- The loop over the sectors of the root directory. -/
def rootLoop (img : Image) (recurse : Nat → State → Result State) (depth : Nat) :
    List Nat → State → Result State
  | [], s => some (.ok s)
  | sectorIndex :: rest, s =>
    andThen (entryLoop img recurse depth (sectorSize / entrySize) (fseek s (byteOffset + sectorIndex * sectorSize)))
      fun (endOfDirectory, s) => if endOfDirectory then some (.ok s) else rootLoop img recurse depth rest s

/-- The loop over the clusters of a subdirectory goes on. -/
def isCluster (currentCluster : Nat) : Prop :=
  currentCluster < eocMarkerStart ∧ currentCluster ≥ 2 ∧ currentCluster ≠ badSector

instance (c : Nat) : Decidable (isCluster c) := inferInstanceAs (Decidable (_ ∧ _))

mutual

def reportDirectory (img : Image) : Nat → Nat → Int → State → Result State
  | 0, _, _, _ => none
  | fuel + 1, depth, sec, s =>
    if sec < 0 then
      rootLoop img (fun start s => reportDirectory img fuel (depth + 1) start s) depth (List.range rootSectors) s
    else if sec ≥ 2 then clusterLoop img fuel depth sec.toNat s
    else some (.ok s)

/-- The loop over the clusters of a subdirectory. -/
def clusterLoop (img : Image) : Nat → Nat → Nat → State → Result State
  | 0, _, _, _ => none
  | fuel + 1, depth, currentCluster, s =>
    if isCluster currentCluster then
      andThen (entryLoop img (fun start s => reportDirectory img fuel (depth + 1) start s) depth
          (sectorSize / entrySize) (fseek s (dataStart + (currentCluster - 2) * sectorSize)))
        fun (endOfDirectory, s) =>
          if endOfDirectory then some (.ok s)
          else andThen (getFat12 img s currentCluster) fun (next, s) => clusterLoop img fuel depth next s
    else some (.ok s)

end

end OsCoursework.Floppy
