import OsCoursework.Floppy.Packing

/-!
# Entries that were written

A `Record` is what a directory entry stores. `encode_reported` says that the listing
shows what was stored: the name, and the size or the directory at the start cluster.
-/

open OsCoursework.Cstring OsCoursework.Fuel

namespace OsCoursework.Floppy

/-! ## Writing -/

structure Record where
  base : List CChar
  ext : List CChar
  attributes : Byte
  cluster : Nat
  size : Nat
  base_nonempty : base ≠ []
  base_length : base.length ≤ 8
  ext_length : ext.length ≤ 3
  base_nonzero : 0 ∉ base
  ext_nonzero : 0 ∉ ext
  base_last : base.getLast? ≠ some 0x20
  ext_last : ext.getLast? ≠ some 0x20
  not_deleted : base.head? ≠ some 0xe5
  not_dot : base.head? ≠ some 0x2e
  not_volume : attributes &&& 0x08 = 0
  cluster_lt : cluster < 2 ^ 16
  size_lt : size < 2 ^ 31

namespace Record

variable (r : Record)

/-- The base, and the extension behind a dot when there is one. -/
def name : List CChar := if r.ext = [] then r.base else r.base ++ ascii "." ++ r.ext

def isDir : Prop := r.attributes &&& 0x10 = 0x10

instance : Decidable r.isDir := inferInstanceAs (Decidable (_ = _))

/-- Base and extension end in spaces, the numbers are little-endian. `other` is in the fields that the
listing does not read. -/
def byte (other : Nat → Byte) (i : Nat) : Byte :=
  if i < 8 then r.base.getD i 0x20
  else if i < 11 then r.ext.getD (i - 8) 0x20
  else if i = 11 then r.attributes
  else if i < 26 then other i
  else if i < 28 then BitVec.ofNat 8 (r.cluster / 256 ^ (i - 26))
  else BitVec.ofNat 8 (r.size / 256 ^ (i - 28))

def encode (other : Nat → Byte) : Entry := Vector.ofFn fun i => r.byte other i

/-- The line for the record: its name in 12 columns, and DIR or its size in 10. -/
def line (depth : Nat) : List CChar :=
  let info := if r.isDir then ascii "DIR" else ascii (toString r.size)
  List.replicate (4 * depth) 0x20 ++ r.name ++ List.replicate (12 - r.name.length) 0x20 ++ ascii " " ++
    List.replicate (10 - info.length) 0x20 ++ info ++ ascii "\n"

end Record

/-! ## Fields -/

/-- A field of `n` bytes, filled up with spaces. -/
def padded (n : Nat) (l : List CChar) : List CChar := l ++ List.replicate (n - l.length) 0x20

theorem length_padded {n : Nat} {l : List CChar} (h : l.length ≤ n) : (padded n l).length = n := by
  simp [padded, h]

theorem zero_not_mem_padded {n : Nat} {l : List CChar} (h : 0 ∉ l) : 0 ∉ padded n l := by
  simp only [padded, List.mem_append, List.mem_replicate, not_or]
  exact ⟨h, fun h => absurd h.2 (by decide)⟩

theorem getElem?_padded {n : Nat} {l : List CChar} {i : Nat} (hi : i < n) :
    (padded n l)[i]? = some (l.getD i 0x20) := by
  rw [padded, List.getElem?_append]
  split_ifs with h
  · rw [List.getElem?_eq_getElem h, List.getD_eq_getElem _ _ h]
  · rw [List.getElem?_replicate, if_pos (by omega), List.getD_eq_default _ _ (not_lt.mp h)]

theorem rdropWhile_padded (n : Nat) {l : List CChar} (h : l.getLast? ≠ some 0x20) :
    (padded n l).rdropWhile (· = 0x20) = l := by
  rw [padded]
  induction n - l.length with
  | zero =>
    rw [List.replicate_zero, List.append_nil, List.rdropWhile_eq_self_iff]
    intro hl hspace
    rw [List.getLast?_eq_some_getLast hl] at h
    exact h (congrArg some (of_decide_eq_true hspace))
  | succ k ih => rw [List.replicate_succ', ← List.append_assoc, List.rdropWhile_concat_pos _ _ _ (by decide), ih]

theorem trimmed_padded {n : Nat} {l rest : List CChar} (hlen : l.length ≤ n) (h0 : 0 ∉ l)
    (hlast : l.getLast? ≠ some 0x20) : trimmed (strncpy n (padded n l ++ rest)) = l := by
  have hfield : (strncpy n (padded n l ++ rest)).toList = padded n l :=
    toList_strncpy_append (length_padded hlen) (zero_not_mem_padded h0) rest
  rw [trimmed, hfield, rdropWhile_padded n hlast, text_eq_self h0]

/-! ## Reading -/

section Reading

variable (r : Record) (other : Nat → Byte)

theorem getElem_encode (i : Nat) (hi : i < entrySize) : (r.encode other)[i] = r.byte other i :=
  Vector.getElem_ofFn hi

theorem getElem?_encode {i : Nat} (hi : i < entrySize) : (r.encode other).toList[i]? = some (r.byte other i) := by
  rw [Vector.getElem?_toList, Vector.getElem?_eq_getElem hi, getElem_encode]

theorem toList_encode :
    (r.encode other).toList = padded 8 r.base ++ (padded 3 r.ext ++ (r.encode other).toList.drop 11) := by
  have hbase := length_padded r.base_length
  have hext := length_padded r.ext_length
  have hsize : entrySize = 32 := rfl
  apply List.ext_getElem?
  intro i
  by_cases h8 : i < 8
  · rw [List.getElem?_append_left (h8.trans_eq hbase.symm), getElem?_padded h8, getElem?_encode _ _ (by omega),
      Record.byte, if_pos h8]
  · rw [List.getElem?_append_right (hbase.trans_le (not_lt.mp h8)), hbase]
    by_cases h11 : i < 11
    · have h3 : i - 8 < 3 := by omega
      rw [List.getElem?_append_left (h3.trans_eq hext.symm), getElem?_padded h3, getElem?_encode _ _ (by omega),
        Record.byte, if_neg h8, if_pos h11]
    · have h3 : 3 ≤ i - 8 := by omega
      rw [List.getElem?_append_right (hext.trans_le h3), hext, List.getElem?_drop]
      congr 1
      omega

theorem toList_drop_encode :
    (r.encode other).toList.drop 8 = padded 3 r.ext ++ (r.encode other).toList.drop 11 := by
  have happend := congrArg (List.drop 8) (toList_encode r other)
  rwa [List.drop_left' (length_padded r.base_length)] at happend

theorem length_name : r.name.length ≤ 12 := by
  have h8 := r.base_length
  have h3 := r.ext_length
  rw [Record.name]
  split_ifs
  · omega
  · have hdot : (ascii ".").length = 1 := rfl
    simp only [List.length_append, hdot]
    omega

theorem fullName_encode : (r.encode other).fullName = r.name := by
  have hbase : trimmed (strncpy 8 (r.encode other).toList) = r.base := by
    rw [toList_encode]
    exact trimmed_padded r.base_length r.base_nonzero r.base_last
  have hext : trimmed (strncpy 3 ((r.encode other).toList.drop 8)) = r.ext := by
    rw [toList_drop_encode]
    exact trimmed_padded r.ext_length r.ext_nonzero r.ext_last
  have hname : (if r.ext ≠ [] then r.base ++ ascii "." ++ r.ext else r.base) = r.name := by
    rw [Record.name, ite_not]
  simp only [Entry.fullName, hbase, hext]
  rw [hname, List.take_of_length_le (length_name r)]

theorem startCluster_encode : (r.encode other).startCluster = r.cluster := by
  have hlt := r.cluster_lt
  have hlow : (r.encode other)[26].toNat = r.cluster % 2 ^ 8 := by
    rw [getElem_encode _ _ _ (by decide)]
    simp [Record.byte]
  have hhigh : (r.encode other)[27].toNat = r.cluster / 2 ^ 8 := by
    rw [getElem_encode _ _ _ (by decide)]
    simp [Record.byte]
    omega
  rw [Entry.startCluster, hlow, hhigh, or_shiftLeft (Nat.mod_lt _ (by decide))]
  omega

theorem toNat_setWidth_shiftLeft (b : Byte) {k : Nat} (h : k ≤ 24) :
    (b.setWidth 32 <<< k).toNat = b.toNat <<< k := by
  have hb := b.isLt
  have hpow : 2 ^ k ≤ 2 ^ 24 := Nat.pow_le_pow_right (by decide) h
  have hlt : b.toNat * 2 ^ k < 2 ^ 32 := by nlinarith
  have hwidth : (b.setWidth 32).toNat = b.toNat := by
    rw [BitVec.toNat_setWidth, Nat.mod_eq_of_lt (by omega)]
  rw [BitVec.toNat_shiftLeft, hwidth, Nat.shiftLeft_eq, Nat.mod_eq_of_lt hlt]

theorem size_encode : (r.encode other).size = r.size := by
  have hlt := r.size_lt
  have hbyte : ∀ i (hi : i < entrySize), 28 ≤ i → (r.encode other)[i].toNat = r.size / 256 ^ (i - 28) % 2 ^ 8 := by
    intro i hi h28
    rw [getElem_encode, Record.byte, if_neg (by omega), if_neg (by omega), if_neg (by omega), if_neg (by omega),
      if_neg (by omega), BitVec.toNat_ofNat]
  have hbits : (r.encode other)[28].setWidth 32 ||| (r.encode other)[29].setWidth 32 <<< 8 |||
      (r.encode other)[30].setWidth 32 <<< 16 ||| (r.encode other)[31].setWidth 32 <<< 24 =
        BitVec.ofNat 32 r.size := by
    apply BitVec.eq_of_toNat_eq
    rw [BitVec.toNat_or, BitVec.toNat_or, BitVec.toNat_or, toNat_setWidth_shiftLeft _ (by decide),
      toNat_setWidth_shiftLeft _ (by decide), toNat_setWidth_shiftLeft _ (by decide), BitVec.toNat_setWidth,
      hbyte 28 (by decide) (by decide), hbyte 29 (by decide) (by decide), hbyte 30 (by decide) (by decide),
      hbyte 31 (by decide) (by decide), or_shiftLeft (k := 8) (by omega), or_shiftLeft (k := 16) (by omega),
      or_shiftLeft (k := 24) (by omega), BitVec.toNat_ofNat]
    omega
  rw [Entry.size, hbits, BitVec.toInt_ofNat', Int.bmod_eq_of_le (by omega) (by omega)]

theorem isDir_encode : (r.encode other).isDir ↔ r.isDir := by
  rw [Entry.isDir, getElem_encode _ _ _ (by decide)]
  rfl

theorem firstByte_encode : r.base.head? = some (r.encode other).firstByte := by
  rw [Entry.firstByte, getElem_encode _ _ _ (by decide), Record.byte, if_pos (by decide),
    List.head?_eq_getElem?, List.getD_eq_getElem?_getD]
  rcases hb : r.base with _ | ⟨c, l⟩
  · exact absurd hb r.base_nonempty
  · rfl

theorem not_skipped_encode : ¬ (r.encode other).skipped := by
  have hattr : (r.encode other)[11] = r.attributes := getElem_encode _ _ _ (by decide)
  have hfirst := firstByte_encode r other
  have hvolume := r.not_volume
  rw [Entry.skipped, hattr]
  rintro (h | h | h | h)
  · exact r.not_deleted (hfirst.trans (congrArg some h))
  · exact h hvolume
  · rw [h] at hvolume
    exact absurd hvolume (by decide)
  · exact r.not_dot (hfirst.trans (congrArg some h))

theorem line_encode (depth : Nat) : (r.encode other).line depth = r.line depth := by
  have hsize : toString (r.encode other).size = toString r.size := by
    rw [size_encode]
    rfl
  simp only [Entry.line, Record.line, fullName_encode, isDir_encode, hsize]

end Reading

/-! ## Names tell records apart -/

theorem ascii_dot : ascii "." = [0x2e] := rfl

theorem name_base {r : Record} (h : 0x2e ∉ r.base) : r.name.takeWhile (· ≠ 0x2e) = r.base := by
  have hbase : ∀ c ∈ r.base, decide (c ≠ 0x2e) = true := fun c hc => decide_eq_true fun h0 => h (h0 ▸ hc)
  rw [Record.name]
  split_ifs
  · exact List.takeWhile_eq_self_iff.mpr hbase
  · rw [List.append_assoc, List.takeWhile_append_of_pos hbase, ascii_dot]
    simp

theorem name_injective {r r' : Record} (h : 0x2e ∉ r.base) (h' : 0x2e ∉ r'.base) (hname : r.name = r'.name) :
    r.base = r'.base ∧ r.ext = r'.ext := by
  have hbase : r.base = r'.base := by rw [← name_base h, hname, name_base h']
  refine ⟨hbase, ?_⟩
  have hlen := congrArg List.length hname
  rw [Record.name, Record.name, hbase] at hname hlen
  split_ifs at hname hlen with h1 h2 h2
  · rw [h1, h2]
  · simp [ascii_dot] at hname
  · simp [ascii_dot] at hname
  · exact List.append_cancel_left hname

/-! ## The listing of a record -/

theorem entryAt_encode {img : Image} {pos : Nat} {r : Record} {other : Nat → Byte}
    (h : img.bytes pos entrySize = some (r.encode other)) : entryAt img pos = some (r.encode other) := by
  have hfirst := firstByte_encode r other
  have h0 : (r.encode other).firstByte ≠ 0 := by
    intro h0
    exact r.base_nonzero (List.mem_of_mem_head? (h0 ▸ hfirst))
  rw [entryAt, h, Option.bind_some, if_neg h0]

theorem reportDirectory_reserved {c : Nat} (hc : c < 2) (img : Image) (fuel depth : Nat) (s : State) :
    reportDirectory img (fuel + 1) depth c s = some (.ok s) := by
  have hneg : ¬ (c : Int) < 0 := by omega
  have hsec : ¬ (c : Int) ≥ 2 := by omega
  simp only [reportDirectory, hneg, hsec, if_false]

/-- **The listing shows what was stored.** -/
theorem encode_reported (r : Record) (other : Nat → Byte) :
    (r.encode other).fullName = r.name ∧
      (∀ (img : Image) (fuel depth n pos : Nat) (s : State), img.bytes pos entrySize = some (r.encode other) →
        let recurse := fun (start : Nat) s => reportDirectory img (fuel + 1) (depth + 1) start s
        let next := printf (fseek s (pos + entrySize)) (r.line depth)
        entryLoop img recurse depth (n + 1) (fseek s pos) =
          if r.isDir then andThen (recurse r.cluster next) fun s => entryLoop img recurse depth n (fseek s next.pos)
          else entryLoop img recurse depth n next) ∧
      ∀ (r' : Record) (other' : Nat → Byte), 0x2e ∉ r.base → 0x2e ∉ r'.base →
        (r.base, r.ext) ≠ (r'.base, r'.ext) → (r.encode other).fullName ≠ (r'.encode other').fullName := by
  refine ⟨fullName_encode r other, ?_, ?_⟩
  · intro img fuel depth n pos s hfile recurse next
    rw [entryLoop_some (s := fseek s pos) (entryAt_encode hfile), if_neg (not_skipped_encode r other)]
    simp only [line_encode, startCluster_encode, Entry.descends, isDir_encode]
    by_cases hdir : r.isDir
    · by_cases hc : 2 ≤ r.cluster
      · rw [if_pos ⟨hdir, hc⟩, if_pos hdir]
        rfl
      · have hskip : recurse r.cluster next = some (.ok next) := reportDirectory_reserved (by omega) _ _ _ _
        rw [if_neg (fun h => hc h.2), if_pos hdir, hskip, andThen_ok]
        rfl
    · rw [if_neg (fun h => hdir h.1), if_neg hdir]
      rfl
  · intro r' other' h h' hne hname
    rw [fullName_encode, fullName_encode] at hname
    obtain ⟨hbase, hext⟩ := name_injective h h' hname
    exact hne (Prod.ext hbase hext)

/-- The directory A B.C, with a space in its base. -/
def sampleRecord : Record where
  base := ascii "A B"
  ext := ascii "C"
  attributes := 0x10
  cluster := 3
  size := 0
  base_nonempty := by decide
  base_length := by decide
  ext_length := by decide
  base_nonzero := by decide
  ext_nonzero := by decide
  base_last := by decide
  ext_last := by decide
  not_deleted := by decide
  not_dot := by decide
  not_volume := by decide
  cluster_lt := by decide
  size_lt := by decide

/-- The directory AB.C. -/
def sampleRecord' : Record :=
  { sampleRecord with
    base := ascii "AB"
    base_nonempty := by decide
    base_length := by decide
    base_nonzero := by decide
    base_last := by decide
    not_deleted := by decide
    not_dot := by decide }

def recordDisk (r : Record) (other : Nat → Byte) : Image where
  size := byteOffset + entrySize
  byte i := r.byte other (i - byteOffset)

theorem recordDisk_bytes (r : Record) (other : Nat → Byte) :
    (recordDisk r other).bytes byteOffset entrySize = some (r.encode other) := by
  rw [Image.bytes_of_le le_rfl, Record.encode]
  simp [recordDisk]

theorem encode_reported_sample :
    (sampleRecord.encode 0).fullName = ascii "A B.C" ∧
      (entryLoop (recordDisk sampleRecord 0)
          (fun (start : Nat) s => reportDirectory (recordDisk sampleRecord 0) 1 1 start s) 0 1
          (fseek State.start byteOffset) =
        andThen (reportDirectory (recordDisk sampleRecord 0) 1 1 3
            (printf (fseek State.start (byteOffset + entrySize)) (sampleRecord.line 0)))
          fun s => some (.ok (false, fseek s (byteOffset + entrySize)))) ∧
      (sampleRecord.encode 0).fullName ≠ (sampleRecord'.encode 0).fullName := by
  obtain ⟨hname, hloop, hne⟩ := encode_reported sampleRecord 0
  refine ⟨hname, ?_, hne sampleRecord' 0 (by decide) (by decide) (by decide)⟩
  exact (hloop _ 0 0 0 _ State.start (recordDisk_bytes _ _)).trans (if_pos (by decide))

end OsCoursework.Floppy
