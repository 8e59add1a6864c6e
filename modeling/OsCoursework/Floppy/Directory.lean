import OsCoursework.Floppy.Code

/-!
# Directories without a file position

The code reads every directory through one file position. Here a directory is a list
of entries, and `report` is the same program on such lists. `reportDirectory_printed`
says that the two print the same.
-/

open OsCoursework.Cstring OsCoursework.ForLoop OsCoursework.Fuel

namespace OsCoursework.Floppy

/-! ## The entries of a directory -/

/-- The entry at an offset. `none` ends a directory: the file is over, or the first byte is 0. -/
def entryAt (img : Image) (offset : Nat) : Option Entry :=
  (img.bytes offset entrySize).bind fun e => if Entry.firstByte e = 0 then none else some e

def entriesAt (img : Image) : Nat → Nat → List (Option Entry)
  | 0, _ => []
  | n + 1, offset => entryAt img offset :: entriesAt img n (offset + entrySize)

def sectorEntries (img : Image) (offset : Nat) : List (Option Entry) :=
  entriesAt img (sectorSize / entrySize) offset

def rootSector (img : Image) (sectorIndex : Nat) : List (Option Entry) :=
  sectorEntries img (byteOffset + sectorIndex * sectorSize)

def clusterEntries (img : Image) (cluster : Nat) : List (Option Entry) :=
  sectorEntries img (dataStart + (cluster - 2) * sectorSize)

def rootEntries (img : Image) : List (Option Entry) := (List.range rootSectors).flatMap (rootSector img)

/-- The entries up to the end of the directory, without those that are skipped. -/
def listed (es : List (Option Entry)) : List Entry :=
  (es.takeWhile Option.isSome).reduceOption.filter fun e => ¬ e.skipped

@[simp] theorem listed_nil : listed [] = [] := rfl

@[simp] theorem listed_none (es : List (Option Entry)) : listed (none :: es) = [] := rfl

@[simp] theorem listed_some (e : Entry) (es : List (Option Entry)) :
    listed (some e :: es) = if e.skipped then listed es else e :: listed es := by
  by_cases h : e.skipped <;> simp [listed, h]

theorem listed_append (es fs : List (Option Entry)) :
    listed (es ++ fs) = if none ∈ es then listed es else listed es ++ listed fs := by
  induction es with
  | nil => simp
  | cons e es ih =>
    rcases e with _ | e
    · simp
    · by_cases hs : e.skipped <;> by_cases hn : none ∈ es <;> simp [hs, hn, ih]

/-! ## The FAT -/

def fat (img : Image) (idx : Nat) : Option Nat := (img.bytes (fatStart + idx / 2 * 3) 3).map (fatEntry idx)

/-! ## The report -/

abbrev Output := List CChar

def reportEntries (recurse : Nat → Output → Result Output) (depth : Nat) : List Entry → Output → Result Output
  | [], out => some (.ok out)
  | e :: es, out =>
    if e.descends then
      andThen (recurse e.startCluster (out ++ e.line depth)) (reportEntries recurse depth es)
    else reportEntries recurse depth es (out ++ e.line depth)

/-- On to the next cluster. -/
def reportNext (img : Image) (c : Nat) (next : Nat → Output → Result Output) (out : Output) : Result Output :=
  match fat img c with
  | none => some (.error (out ++ fatError c))
  | some c' => next c' out

mutual

def report (img : Image) : Nat → Nat → Int → Output → Result Output
  | 0, _, _, _ => none
  | fuel + 1, depth, sec, out =>
    if sec < 0 then
      reportEntries (fun start out => report img fuel (depth + 1) start out) depth (listed (rootEntries img)) out
    else if sec ≥ 2 then reportChain img fuel depth sec.toNat out
    else some (.ok out)

def reportChain (img : Image) : Nat → Nat → Nat → Output → Result Output
  | 0, _, _, _ => none
  | fuel + 1, depth, c, out =>
    if isCluster c then
      andThen (reportEntries (fun start out => report img fuel (depth + 1) start out) depth
          (listed (clusterEntries img c)) out)
        fun out =>
          if none ∈ clusterEntries img c then some (.ok out)
          else reportNext img c (fun next out => reportChain img fuel depth next out) out
    else some (.ok out)

end

theorem report_root (img : Image) (k depth : Nat) (out : Output) :
    report img (k + 1) depth rootDirStart out =
      reportEntries (fun c out => report img k (depth + 1) c out) depth (listed (rootEntries img)) out := by
  have hroot : rootDirStart < 0 := by decide
  simp only [report, hroot, if_true]

theorem report_cluster {c : Nat} (hc : 2 ≤ c) (img : Image) (k depth : Nat) (out : Output) :
    report img (k + 1) depth c out = reportChain img k depth c out := by
  have hneg : ¬ (c : Int) < 0 := by omega
  have hsec : (c : Int) ≥ 2 := by omega
  simp only [report, hneg, hsec, if_false, if_true, Int.toNat_natCast]

theorem reportEntries_append (recurse : Nat → Output → Result Output) (depth : Nat) (es fs : List Entry)
    (out : Output) :
    reportEntries recurse depth (es ++ fs) out =
      andThen (reportEntries recurse depth es out) (reportEntries recurse depth fs) := by
  induction es generalizing out with
  | nil => rfl
  | cons e es ih =>
    by_cases h : e.descends
    · simp only [List.cons_append, reportEntries, h, if_true, andThen_assoc]
      congr 1
      funext out
      exact ih out
    · simp only [List.cons_append, reportEntries, h, if_false]
      exact ih _

/-! ## The code prints the report -/

/-- What a run prints. -/
def printed (r : Result State) : Result Output := mapOk State.out r

section EntryLoop

variable {img : Image} {recurse : Nat → State → Result State} {depth n : Nat} {s : State}

theorem entryLoop_none (recurse : Nat → State → Result State) (depth n : Nat) (h : entryAt img s.pos = none) :
    ∃ s', entryLoop img recurse depth (n + 1) s = some (.ok (true, s')) ∧ s'.out = s.out := by
  rw [entryAt] at h
  rw [entryLoop, fread]
  rcases hb : img.bytes s.pos entrySize with _ | e
  · exact ⟨_, rfl, rfl⟩
  · have h0 : Entry.firstByte e = 0 := by simpa [hb] using h
    exact ⟨_, if_pos h0, rfl⟩

theorem entryLoop_some {e : Entry} (h : entryAt img s.pos = some e) :
    entryLoop img recurse depth (n + 1) s =
      let next := { s with pos := s.pos + entrySize }
      if e.skipped then entryLoop img recurse depth n next
      else if e.descends then
        andThen (recurse e.startCluster (printf next (e.line depth))) fun s' =>
          entryLoop img recurse depth n (fseek s' next.pos)
      else entryLoop img recurse depth n (printf next (e.line depth)) := by
  rw [entryAt] at h
  rw [entryLoop, fread]
  rcases hb : img.bytes s.pos entrySize with _ | e'
  · simp [hb] at h
  · obtain ⟨h0, rfl⟩ : Entry.firstByte e' ≠ 0 ∧ e' = e := by simpa [hb] using h
    exact if_neg h0

/-- The position is back at the next entry whatever the recursive calls did with it. -/
theorem entryLoop_printed {recurse' : Nat → Output → Result Output}
    (h : ∀ c s, printed (recurse c s) = recurse' c s.out) :
    mapOk (fun r => (r.1, r.2.out)) (entryLoop img recurse depth n s) =
      mapOk (fun out => (decide (none ∈ entriesAt img n s.pos), out))
        (reportEntries recurse' depth (listed (entriesAt img n s.pos)) s.out) := by
  induction n generalizing s with
  | zero => rfl
  | succ n ih =>
    rw [entriesAt]
    rcases he : entryAt img s.pos with _ | e
    · obtain ⟨s', hs', hout⟩ := entryLoop_none recurse depth n he
      simp [hs', hout, reportEntries]
    · rw [entryLoop_some he, listed_some]
      by_cases hskip : e.skipped
      · simp [hskip, ih]
      · by_cases hdir : e.descends
        · -- The recursive call moves the position, and `fseek` sets it back.
          have hrec := h e.startCluster (printf { s with pos := s.pos + entrySize } (e.line depth))
          simp only [printed, printf] at hrec
          simp [hskip, hdir, reportEntries, mapOk_andThen, ← hrec, andThen_mapOk, ih, printf, fseek]
        · simp [hskip, hdir, ih, reportEntries, printf]

theorem sector_printed {recurse' : Nat → Output → Result Output} {rest : State → Result State}
    {rest' : Output → Result Output} (h : ∀ c s, printed (recurse c s) = recurse' c s.out)
    (hrest : ∀ s, printed (rest s) = rest' s.out) (offset : Nat) :
    printed (andThen (entryLoop img recurse depth (sectorSize / entrySize) (fseek s offset))
        fun (ended, s) => if ended then some (.ok s) else rest s) =
      andThen (reportEntries recurse' depth (listed (sectorEntries img offset)) s.out) fun out =>
        if none ∈ sectorEntries img offset then some (.ok out) else rest' out := by
  let next (r : Bool × Output) : Result Output := if r.1 then some (.ok r.2) else rest' r.2
  have hnext : ∀ r : Bool × State,
      printed (if r.1 then some (.ok r.2) else rest r.2) = next (r.1, r.2.out) := by
    intro r
    by_cases he : r.1 <;> simp [next, he, ← hrest, printed]
  have hloop : mapOk (fun r : Bool × State => (r.1, r.2.out))
      (entryLoop img recurse depth (sectorSize / entrySize) (fseek s offset)) =
        mapOk (fun out => (decide (none ∈ sectorEntries img offset), out))
          (reportEntries recurse' depth (listed (sectorEntries img offset)) s.out) := entryLoop_printed h
  have hthen := andThen_congr hloop next
  simp only [next, decide_eq_true_eq] at hthen
  rw [printed, mapOk_andThen]
  exact (congrArg _ (funext hnext)).trans hthen

theorem rootLoop_printed {recurse' : Nat → Output → Result Output}
    (h : ∀ c s, printed (recurse c s) = recurse' c s.out) (sectors : List Nat) :
    printed (rootLoop img recurse depth sectors s) =
      reportEntries recurse' depth (listed (sectors.flatMap (rootSector img))) s.out := by
  induction sectors generalizing s with
  | nil => rfl
  | cons i sectors ih =>
    rw [rootLoop, sector_printed h fun s => ih, List.flatMap_cons, listed_append, ← rootSector]
    by_cases hn : none ∈ rootSector img i
    · simp only [hn, if_true]
      exact andThen_some _
    · simp only [hn, if_false]
      exact (reportEntries_append _ _ _ _ _).symm

end EntryLoop

theorem fseekInt_fat {n : Nat} (h : fatStart + n < 2 ^ 31) (s : State) :
    fseekInt s (int32 (fatStart + int32 n)) = some (fseek s (fatStart + n)) := by
  have hn : int32 n = n := int32_of_fits (by omega) (by omega)
  have hsum : int32 (fatStart + n) = (fatStart + n : Nat) := int32_of_fits (by omega) (by omega)
  have hpos : ¬ ((fatStart + n : Nat) : Int) < 0 := by omega
  rw [fseekInt, hn, hsum, if_neg hpos, Int.toNat_natCast]

theorem fseekInt_pair {idx : Nat} (h : fatStart + idx / 2 * 3 < 2 ^ 31) (s : State) :
    fseekInt s (int32 (fatStart + int32 (idx / 2 * 3))) = some (fseek s (fatStart + idx / 2 * 3)) := by
  have hseek := fseekInt_fat h s
  push_cast at hseek
  exact hseek

theorem fat_fits {c : Nat} (h : isCluster c) : fatStart + c / 2 * 3 < 2 ^ 31 := by
  have hlt : c < 0xff8 := h.1
  have hstart : fatStart = 512 := rfl
  omega

theorem fread_none {img : Image} {s : State} {n : Nat} (h : img.bytes s.pos n = none) :
    fread img s n = (none, { s with pos := max s.pos img.size, eof := true }) := by
  simp only [fread, h]

theorem fread_some {img : Image} {s : State} {n : Nat} {b : Vector Byte n} (h : img.bytes s.pos n = some b) :
    fread img s n = (some b, { s with pos := s.pos + n }) := by
  simp only [fread, h]

theorem getFat12_of_fits {idx : Nat} (h : fatStart + idx / 2 * 3 < 2 ^ 31) (img : Image) (s : State) :
    getFat12 img s idx = fatResult idx (fread img (fseek s (fatStart + idx / 2 * 3)) 3) := by
  rw [getFat12, fseekInt_pair h, Option.getD_some]

theorem getFat12_none {img : Image} {idx : Nat} (hidx : isCluster idx) (h : fat img idx = none) (s : State) :
    getFat12 img s idx = some (.error (s.out ++ fatError idx)) := by
  have hb : img.bytes (fatStart + idx / 2 * 3) 3 = none := by simpa [fat] using h
  rw [getFat12_of_fits (fat_fits hidx), fread_none hb]
  rfl

theorem getFat12_some {img : Image} {idx next : Nat} (hidx : isCluster idx) (h : fat img idx = some next)
    (s : State) : ∃ s', getFat12 img s idx = some (.ok (next, s')) ∧ s'.out = s.out := by
  obtain ⟨b, hb, rfl⟩ : ∃ b, img.bytes (fatStart + idx / 2 * 3) 3 = some b ∧ fatEntry idx b = next := by
    simpa [fat] using h
  rw [getFat12_of_fits (fat_fits hidx), fread_some hb]
  exact ⟨_, rfl, rfl⟩

theorem report_refines (img : Image) (fuel depth : Nat) :
    (∀ sec s, printed (reportDirectory img fuel depth sec s) = report img fuel depth sec s.out) ∧
      ∀ c s, printed (clusterLoop img fuel depth c s) = reportChain img fuel depth c s.out := by
  induction fuel generalizing depth with
  | zero => exact ⟨fun _ _ => rfl, fun _ _ => rfl⟩
  | succ fuel ih =>
    have hrec : ∀ (c : Nat) s, printed (reportDirectory img fuel (depth + 1) c s) =
        report img fuel (depth + 1) c s.out := fun c => (ih (depth + 1)).1 c
    constructor
    · intro sec s
      rw [reportDirectory, report]
      by_cases hroot : sec < 0
      · simp only [hroot, if_true]
        exact rootLoop_printed hrec _
      · by_cases hsec : sec ≥ 2
        · simp only [hroot, hsec, if_true, if_false]
          exact (ih depth).2 _ s
        · simp only [hroot, hsec, if_false]
          rfl
    · intro c s
      rw [clusterLoop, reportChain]
      by_cases hc : isCluster c
      · rw [if_pos hc, if_pos hc]
        have hrest : ∀ s, printed (andThen (getFat12 img s c) fun r => clusterLoop img fuel depth r.1 r.2) =
            reportNext img c (reportChain img fuel depth) s.out := by
          intro s
          rcases hf : fat img c with _ | next
          · simp [reportNext, hf, getFat12_none hc hf, andThen_error, printed]
          · obtain ⟨s', hs', hout⟩ := getFat12_some hc hf s
            simp only [reportNext, hf, hs', ← hout, andThen_ok]
            exact (ih depth).2 next s'
        exact sector_printed hrec hrest _
      · rw [if_neg hc, if_neg hc]
        rfl

/-- **What the code prints depends on no file position.** -/
theorem reportDirectory_printed (img : Image) (fuel depth : Nat) (sec : Int) (s : State) :
    printed (reportDirectory img fuel depth sec s) = report img fuel depth sec s.out :=
  (report_refines img fuel depth).1 sec s

/-! ## A small disk -/

def shortEntry (name attributes cluster : Byte) : Entry :=
  Vector.ofFn fun i =>
    if i = 0 then name else if i < 11 then 0x20 else if i = 11 then attributes else if i = 26 then cluster else 0

/-- The root holds the directory `W`, whose only cluster is 2. Its first entry is `inside`. -/
def smallDisk (inside : Entry) : Image where
  size := dataStart + sectorSize
  byte i :=
    if i = 515 then 0xff
    else if i = 516 then 0x0f
    else if byteOffset ≤ i ∧ i < byteOffset + entrySize then (shortEntry 0x57 0x10 2).toList.getD (i - byteOffset) 0
    else if dataStart ≤ i then inside.toList.getD (i - dataStart) 0
    else 0

end OsCoursework.Floppy
