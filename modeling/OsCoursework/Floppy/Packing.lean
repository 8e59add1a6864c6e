import OsCoursework.Floppy.Directory

/-!
# The two readers of the FAT

Two values of 12 bits share three bytes. `getFat12` undoes `pack`, as long as the
offset fits an int. `floppyDirNew.c` has a reader of its own, which takes an odd
entry from one byte too far.
-/

open OsCoursework.Cstring OsCoursework.ForLoop OsCoursework.Fuel

namespace OsCoursework.Floppy

/-! ## Packing -/

abbrev Value := BitVec 12

/-- The 24 bits of a group: `a` at the bottom, `b` on top. -/
def groupBits (a b : Value) : BitVec 24 := b ++ a

/-- The bytes of a group, little-endian. -/
def groupBytes (a b : Value) : Vector Byte 3 :=
  Vector.ofFn fun i => (groupBits a b).extractLsb' (8 * i) 8

/-- Two values at a time. `pad` fills up the last group. -/
def pack (pad : Value) : List Value → List Byte
  | [] => []
  | [a] => (groupBytes a pad).toList
  | a :: b :: vals => (groupBytes a b).toList ++ pack pad vals

/-- The packed values are the bytes from the start of the FAT on, as far as the file goes. -/
def HoldsPacked (img : Image) (pad : Value) (vals : List Value) : Prop :=
  ∀ i (h : i < (pack pad vals).length), fatStart + i < img.size → img.byte (fatStart + i) = (pack pad vals)[i]

theorem length_pack (pad : Value) (vals : List Value) : (pack pad vals).length = (vals.length + 1) / 2 * 3 := by
  induction vals using pack.induct with
  | case1 => rfl
  | case2 a => simp [pack]
  | case3 a b vals ih =>
    simp only [pack, List.length_append, Vector.length_toList, List.length_cons, ih]
    omega

theorem getElem?_pack (pad : Value) {vals : List Value} {m : Nat} (hm : 2 * m < vals.length) {j : Nat} (hj : j < 3) :
    (pack pad vals)[m * 3 + j]? = (groupBytes (vals.getD (2 * m) pad) (vals.getD (2 * m + 1) pad))[j]? := by
  induction vals using pack.induct generalizing m with
  | case1 => simp at hm
  | case2 a =>
    have h0 : m = 0 := by
      simp only [List.length_singleton] at hm
      omega
    subst h0
    simp [pack]
  | case3 a b vals ih =>
    cases m with
    | zero =>
      rw [pack, List.getElem?_append_left (by simpa using hj)]
      simp
    | succ m =>
      have hlen : (groupBytes a b).toList.length ≤ (m + 1) * 3 + j := by
        rw [Vector.length_toList]
        omega
      have hplace : (m + 1) * 3 + j - (groupBytes a b).toList.length = m * 3 + j := by
        rw [Vector.length_toList]
        omega
      rw [pack, List.getElem?_append_right hlen, hplace, ih (by simp at hm; omega)]
      simp [Nat.mul_add]

/-! ## One group -/

theorem or_shiftLeft {x k : Nat} (h : x < 2 ^ k) (y : Nat) : x ||| y <<< k = x + 2 ^ k * y := by
  rw [Nat.or_comm, ← Nat.shiftLeft_add_eq_or_of_lt h, Nat.shiftLeft_eq, Nat.add_comm, Nat.mul_comm]

/-- The three bytes as one number. -/
def pairOf (b : Vector Byte 3) : Nat := (b.get 0).toNat + 2 ^ 8 * (b.get 1).toNat + 2 ^ 16 * (b.get 2).toNat

theorem pairOf_eq (b : Vector Byte 3) :
    (b.get 0).toNat ||| (b.get 1).toNat <<< 8 ||| (b.get 2).toNat <<< 16 = pairOf b := by
  have h0 := (b.get 0).isLt
  have h1 := (b.get 1).isLt
  rw [or_shiftLeft h0, or_shiftLeft (by omega), pairOf]

theorem fatEntry_eq (idx : Nat) (b : Vector Byte 3) :
    fatEntry idx b = if idx % 2 = 1 then pairOf b / 2 ^ 12 else pairOf b % 2 ^ 12 := by
  have hpair : fatEntry idx b = if idx % 2 = 1 then pairOf b >>> 12 else pairOf b &&& 0xfff := by
    rw [← pairOf_eq]
    rfl
  rw [hpair, Nat.shiftRight_eq_div_pow, ← Nat.and_two_pow_sub_one_eq_mod]

theorem toNat_groupBits (a b : Value) : (groupBits a b).toNat = b.toNat * 2 ^ 12 + a.toNat := by
  rw [groupBits, BitVec.toNat_append, ← Nat.shiftLeft_add_eq_or_of_lt a.isLt, Nat.shiftLeft_eq]

theorem pairOf_groupBytes (a b : Value) : pairOf (groupBytes a b) = b.toNat * 2 ^ 12 + a.toNat := by
  have hlt := (groupBits a b).isLt
  have hbytes : pairOf (groupBytes a b) = (groupBytes a b)[0].toNat + 2 ^ 8 * (groupBytes a b)[1].toNat +
      2 ^ 16 * (groupBytes a b)[2].toNat := rfl
  rw [hbytes]
  simp only [groupBytes, Vector.getElem_ofFn, BitVec.extractLsb'_toNat, Nat.shiftRight_eq_div_pow, ← toNat_groupBits]
  omega

theorem fatEntry_groupBytes (idx : Nat) (a b : Value) :
    fatEntry idx (groupBytes a b) = if idx % 2 = 1 then b.toNat else a.toNat := by
  have ha := a.isLt
  rw [fatEntry_eq, pairOf_groupBytes]
  split_ifs <;> omega

/-! ## Reading back -/

/-- What is returned. -/
def value (r : Result (Nat × State)) : Result Nat := mapOk Prod.fst r

variable {img : Image} {pad : Value} {vals : List Value} {idx : Nat} {s : State}

theorem Image.bytes_of_le {offset n : Nat} (h : offset + n ≤ img.size) :
    img.bytes offset n = some (Vector.ofFn fun i => img.byte (offset + i)) :=
  if_pos h

theorem bytes_of_packed (h : HoldsPacked img pad vals) {m : Nat} (hm : 2 * m < vals.length)
    (hfile : fatStart + m * 3 + 3 ≤ img.size) :
    img.bytes (fatStart + m * 3) 3 = some (groupBytes (vals.getD (2 * m) pad) (vals.getD (2 * m + 1) pad)) := by
  rw [Image.bytes_of_le hfile]
  congr 1
  apply Vector.ext
  intro j hj
  have hlen : m * 3 + j < (pack pad vals).length := by
    rw [length_pack]
    omega
  have hbyte := h (m * 3 + j) hlen (by omega)
  have hpack := getElem?_pack pad hm hj
  rw [List.getElem?_eq_getElem hlen, ← hbyte, Vector.getElem?_eq_getElem hj] at hpack
  rw [Vector.getElem_ofFn, Nat.add_assoc]
  exact Option.some.inj hpack

/-- **`getFat12` undoes the packing**, while its offset is an int. -/
theorem getFat12_packed (h : HoldsPacked img pad vals) (hidx : idx < vals.length)
    (hfile : fatStart + idx / 2 * 3 + 3 ≤ img.size) (hint : fatStart + idx / 2 * 3 < 2 ^ 31) (s : State) :
    value (getFat12 img s idx) = some (.ok vals[idx].toNat) := by
  have hbytes := bytes_of_packed h (m := idx / 2) (by omega) hfile
  have hentry : (if idx % 2 = 1 then (vals.getD (2 * (idx / 2) + 1) pad).toNat
      else (vals.getD (2 * (idx / 2)) pad).toNat) = vals[idx].toNat := by
    rcases Nat.mod_two_eq_zero_or_one idx with hpar | hpar
    · rw [if_neg (by omega), show 2 * (idx / 2) = idx by omega, List.getD_eq_getElem _ _ hidx]
    · rw [if_pos hpar, show 2 * (idx / 2) + 1 = idx by omega, List.getD_eq_getElem _ _ hidx]
  rw [getFat12_of_fits hint, fread_some hbytes, fatResult, fatEntry_groupBytes, hentry]
  rfl

/-- A chain from cluster 2 over 3 and 4. -/
def chainValues : List Value := [0xff0, 0xfff, 3, 4, 0xfff]

def chainDisk : Image where
  size := 1024
  byte i := if i < fatStart then 0 else (pack 0 chainValues).getD (i - fatStart) 0

theorem chainDisk_packed : HoldsPacked chainDisk 0 chainValues := by
  intro i hi _
  have hbyte : chainDisk.byte (fatStart + i) = (pack 0 chainValues).getD (fatStart + i - fatStart) 0 :=
    if_neg (by omega)
  rw [hbyte, Nat.add_sub_cancel_left, List.getD_eq_getElem _ _ hi]

theorem getFat12_packed_sample : value (getFat12 chainDisk State.start 3) = some (.ok 4) :=
  getFat12_packed chainDisk_packed (show 3 < chainValues.length by decide) (by decide) (by decide) State.start

/-- A file of 4 GiB. All values in it are ends of chains. -/
def longImage : Image where
  size := 2 ^ 32
  byte i := if i < fatStart then 0 else 0xff

theorem pack_ends {vals : List Value} (h : ∀ a ∈ vals, a = 0xfff) : ∀ x ∈ pack 0xfff vals, x = 0xff := by
  have hgroup : ∀ x ∈ (groupBytes 0xfff 0xfff).toList, x = 0xff := by decide
  induction vals using pack.induct with
  | case1 => simp [pack]
  | case2 a =>
    rw [h a (by simp)]
    exact hgroup
  | case3 a b vals ih =>
    have ha := h a (by simp)
    have hb := h b (by simp)
    simp only [pack, ha, hb, List.mem_append]
    rintro x (hx | hx)
    · exact hgroup x hx
    · exact ih (fun c hc => h c (by simp [hc])) x hx

/-- From this index on the offset is no int, and the code reads at the position it had before. -/
theorem getFat12_long :
    ¬ ∀ (img : Image) (pad : Value) (vals : List Value) (idx : Nat) (hidx : idx < vals.length) (s : State),
        idx < 2 ^ 31 → HoldsPacked img pad vals → fatStart + idx / 2 * 3 + 3 ≤ img.size →
        value (getFat12 img s idx) = some (.ok vals[idx].toNat) := by
  intro h
  obtain ⟨n, hn⟩ : ∃ n, n = 1431655767 := ⟨_, rfl⟩
  have hpacked : HoldsPacked longImage 0xfff (List.replicate n 0xfff) := by
    intro i hi _
    rw [pack_ends (fun a ha => List.eq_of_mem_replicate ha) _ (List.getElem_mem hi)]
    exact if_neg (by omega)
  have hidx : 1431655766 < (List.replicate n (0xfff : Value)).length := by
    rw [List.length_replicate, hn]
    decide
  have hvalue := h longImage 0xfff _ 1431655766 hidx State.start (by decide) hpacked (by decide)
  -- The position stays at the start of the file, where the bytes are zeros.
  have hseek : fseekInt State.start (int32 (fatStart + int32 ((1431655766 : Nat) / 2 * 3))) = none :=
    if_pos (by decide)
  have hbytes : longImage.bytes State.start.pos 3 = some (Vector.ofFn fun i => longImage.byte (0 + i)) :=
    Image.bytes_of_le (by decide)
  have hzero : fatEntry 1431655766 (Vector.ofFn fun i : Fin 3 => longImage.byte (0 + i)) = 0 := by decide
  rw [getFat12, hseek, Option.getD_none, fread_some hbytes, fatResult, hzero, List.getElem_replicate] at hvalue
  exact absurd hvalue (by decide)

/-! ## The reader of `floppyDirNew.c` -/

namespace New

def chainEnd : Nat := 0xfff

def seekWarning (idx : Nat) : List CChar := ascii s!"Warning: fseek failed in getFat12 for cluster {idx}\n"

def eofWarning (idx : Nat) : List CChar :=
  ascii s!"Warning: Unexpected EOF reading FAT entry for cluster {idx}\n"

def readError (idx : Nat) (offset : Int) : List CChar :=
  ascii s!"Can't read fat entry for cluster: {idx} at offset {offset}\n"

def fatEntry (idx : Nat) (fatPair : Vector Byte 3) : Nat :=
  let val1 := (fatPair.get 0).toNat
  let val2 := (fatPair.get 1).toNat
  let val3 := (fatPair.get 2).toNat
  if idx % 2 = 1 then (val2 &&& 0xf0) >>> 4 ||| val3 <<< 4 else val1 ||| (val2 &&& 0x0f) <<< 8

/-- The end of `getFat12`, after `fread`. The first `fseek` clears the end-of-file flag. -/
def fatResult (idx : Nat) (offset : Int) (currentPos : Nat) : Option (Vector Byte 3) × State → Result (Nat × State)
  | (none, s) =>
    let s := fseek s currentPos
    if s.eof then some (.ok (chainEnd, printf s (eofWarning idx)))
    else some (.error (s.out ++ readError idx (int32 (fatStart + offset))))
  | (some fatPair, s) => some (.ok (fatEntry idx fatPair, fseek s currentPos))

/-- The output is what goes to stderr. `ftell` knows the position of an open file, and `fseek` goes back
to it. -/
def getFat12 (img : Image) (s : State) (idx : Nat) : Result (Nat × State) :=
  let offset := int32 (idx + idx / 2)
  let currentPos := s.pos
  let failed : Result (Nat × State) := some (.ok (chainEnd, fseek (printf s (seekWarning idx)) currentPos))
  (fseekInt s (int32 (fatStart + offset))).elim failed fun s => fatResult idx offset currentPos (fread img s 3)

theorem fatEntry_eq (idx : Nat) (b : Vector Byte 3) :
    fatEntry idx b = if idx % 2 = 1 then (b.get 1).toNat / 2 ^ 4 + 2 ^ 4 * (b.get 2).toNat else pairOf b % 2 ^ 12 := by
  have h0 := (b.get 0).isLt
  have h1 := (b.get 1).isLt
  have hhigh : ((b.get 1).toNat &&& 0xf0) >>> 4 = (b.get 1).toNat / 2 ^ 4 := by
    rw [Nat.shiftRight_and_distrib, Nat.shiftRight_eq_div_pow, show 0xf0 >>> 4 = 2 ^ 4 - 1 by rfl,
      Nat.and_two_pow_sub_one_eq_mod]
    omega
  have hlow : (b.get 1).toNat &&& 0x0f = (b.get 1).toNat % 2 ^ 4 := Nat.and_two_pow_sub_one_eq_mod _ 4
  have hnibble : (b.get 1).toNat / 2 ^ 4 < 2 ^ 4 := by omega
  simp only [fatEntry, hhigh, hlow]
  rw [or_shiftLeft hnibble, or_shiftLeft h0, pairOf]
  split_ifs <;> omega

end New

/-! ## Where the two agree -/

/-- The byte at place `i` of the group of `idx`. -/
def fatByte (img : Image) (idx i : Nat) : Byte := img.byte (fatStart + idx / 2 * 3 + i)

/-- The 12 bits of an odd entry come twice, half a byte apart. -/
def Repeats (img : Image) (idx : Nat) : Prop :=
  fatByte img idx 3 = fatByte img idx 2 ∧
    (fatByte img idx 2).toNat / 2 ^ 4 = (fatByte img idx 1).toNat / 2 ^ 4

/-- The readers agree on `idx`. When the offset is no int, one of them takes what is at the position
of the file. -/
def Agrees (img : Image) (s : State) (idx : Nat) : Prop :=
  if fatStart + idx / 2 * 3 < 2 ^ 31 then idx % 2 = 0 ∨ Repeats img idx
  else ∃ b, img.bytes s.pos 3 = some b ∧ fatEntry idx b = New.chainEnd

theorem fseekInt_overflow {n : Nat} (h : 2 ^ 31 ≤ fatStart + n) (hn : n < 3 * 2 ^ 30) (s : State) :
    fseekInt s (int32 (fatStart + int32 n)) = none := by
  have hstart : fatStart = 512 := rfl
  apply if_pos
  by_cases hlt : n < 2 ^ 31
  · have hsmall : int32 n = n := int32_of_fits (by omega) (by omega)
    rw [hsmall, int32_of_wraps (by omega) (by omega)]
    omega
  · have hlarge : int32 n = n - 2 ^ 32 := int32_of_wraps (by omega) (by omega)
    rw [hlarge, int32_of_fits (by omega) (by omega)]
    omega

theorem New.getFat12_of_fits (h : fatStart + (idx + idx / 2) < 2 ^ 31) (img : Image) (s : State) :
    New.getFat12 img s idx =
      New.fatResult idx (int32 (idx + idx / 2)) s.pos (fread img (fseek s (fatStart + (idx + idx / 2))) 3) := by
  have hseek := fseekInt_fat h s
  push_cast at hseek
  rw [New.getFat12, hseek, Option.elim_some]

theorem getFat12_value (h : fatStart + idx / 2 * 3 < 2 ^ 31) (hfile : fatStart + idx / 2 * 3 + 3 ≤ img.size)
    (s : State) :
    value (getFat12 img s idx) = some (.ok (fatEntry idx (Vector.ofFn fun i => fatByte img idx i))) := by
  rw [getFat12_of_fits h, fread_some (Image.bytes_of_le hfile), fatResult]
  rfl

theorem New.getFat12_value (h : fatStart + (idx + idx / 2) < 2 ^ 31)
    (hfile : fatStart + (idx + idx / 2) + 3 ≤ img.size) (s : State) :
    value (New.getFat12 img s idx) =
      some (.ok (New.fatEntry idx (Vector.ofFn fun i => img.byte (fatStart + (idx + idx / 2) + i)))) := by
  rw [New.getFat12_of_fits h, fread_some (Image.bytes_of_le hfile), New.fatResult]
  rfl

theorem entries_agree_even (h : idx % 2 = 0) :
    New.fatEntry idx (Vector.ofFn fun i => img.byte (fatStart + (idx + idx / 2) + i)) =
      fatEntry idx (Vector.ofFn fun i => fatByte img idx i) := by
  have hpar : ¬ idx % 2 = 1 := by omega
  have hplace : idx + idx / 2 = idx / 2 * 3 := by omega
  rw [New.fatEntry_eq, fatEntry_eq, if_neg hpar, if_neg hpar, hplace]
  rfl

theorem entries_agree_odd (h : idx % 2 = 1) :
    New.fatEntry idx (Vector.ofFn fun i => img.byte (fatStart + (idx + idx / 2) + i)) =
      fatEntry idx (Vector.ofFn fun i => fatByte img idx i) ↔ Repeats img idx := by
  have hplace : idx + idx / 2 = idx / 2 * 3 + 1 := by omega
  have h1 := (fatByte img idx 1).isLt
  have h2 := (fatByte img idx 2).isLt
  have h0 := (fatByte img idx 0).isLt
  have hnew : New.fatEntry idx (Vector.ofFn fun i => img.byte (fatStart + (idx + idx / 2) + i)) =
      (fatByte img idx 2).toNat / 2 ^ 4 + 2 ^ 4 * (fatByte img idx 3).toNat := by
    rw [New.fatEntry_eq, if_pos h, hplace]
    simp [fatByte, Nat.add_assoc, Vector.get_eq_getElem]
  have hold : fatEntry idx (Vector.ofFn fun i => fatByte img idx i) =
      (fatByte img idx 1).toNat / 2 ^ 4 + 2 ^ 4 * (fatByte img idx 2).toNat := by
    rw [fatEntry_eq, if_pos h, pairOf]
    simp only [Vector.get_eq_getElem, Vector.getElem_ofFn, Fin.val_zero, Fin.val_one, Fin.val_two]
    omega
  rw [hnew, hold, Repeats, ← BitVec.toNat_inj]
  omega

/-- **Where the two readers agree.** -/
theorem getFat12_agree_iff (hidx : idx < 2 ^ 31)
    (hfile : fatStart + idx / 2 * 3 < 2 ^ 31 → fatStart + (idx + idx / 2) + 3 ≤ img.size) (s : State) :
    value (New.getFat12 img s idx) = value (getFat12 img s idx) ↔ Agrees img s idx := by
  have hstart : fatStart = 512 := rfl
  rw [Agrees]
  split_ifs with hint
  · have hnew : fatStart + (idx + idx / 2) < 2 ^ 31 := by omega
    have hsize := hfile hint
    rw [New.getFat12_value hnew hsize, getFat12_value hint (by omega)]
    simp only [Option.some.injEq, Except.ok.injEq]
    rcases Nat.mod_two_eq_zero_or_one idx with hpar | hpar
    · exact iff_of_true (entries_agree_even hpar) (.inl hpar)
    · rw [entries_agree_odd hpar]
      simp [hpar]
  · have hnew : fseekInt s (int32 (fatStart + int32 (idx + idx / 2))) = none := by
      have hseek := fseekInt_overflow (n := idx + idx / 2) (by omega) (by omega) s
      push_cast at hseek
      exact hseek
    have hold : fseekInt s (int32 (fatStart + int32 (idx / 2 * 3))) = none := by
      have hseek := fseekInt_overflow (n := idx / 2 * 3) (by omega) (by omega) s
      push_cast at hseek
      exact hseek
    rw [New.getFat12, getFat12, hnew, hold, Option.elim_none, Option.getD_none]
    rcases hb : img.bytes s.pos 3 with _ | b
    · rw [fread_none hb]
      simp [fatResult, value]
    · rw [fread_some hb]
      simp [fatResult, value, eq_comm]

theorem getFat12_agree_sample : value (New.getFat12 chainDisk State.start 2) = value (getFat12 chainDisk State.start 2) :=
  (getFat12_agree_iff (by decide) (fun _ => by decide) State.start).mpr (.inl rfl)

/-- The readers find different clusters behind cluster 3. -/
theorem getFat12_disagree :
    ¬ ∀ (img : Image) (idx : Nat) (s : State), idx < 2 ^ 31 →
        (fatStart + idx / 2 * 3 < 2 ^ 31 → fatStart + (idx + idx / 2) + 3 ≤ img.size) →
        value (New.getFat12 img s idx) = value (getFat12 img s idx) := by
  intro h
  have hsame := h chainDisk 3 State.start (by decide) (by decide)
  have hold : value (getFat12 chainDisk State.start 3) = some (.ok 4) := by rfl
  have hnew : value (New.getFat12 chainDisk State.start 3) = some (.ok 0xff0) := by rfl
  rw [hold, hnew] at hsame
  exact absurd hsame (by decide)

end OsCoursework.Floppy
