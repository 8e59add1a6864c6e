import Mathlib

/-!
# C strings in fixed buffers

A buffer holds the text before its first zero. The functions of `string.h` that
copy between buffers of a fixed size are whole-buffer functions here.
-/

namespace OsCoursework.Cstring

universe u

/-- A C `char`. -/
abbrev CChar := BitVec 8

def ascii (s : String) : List CChar := s.toList.map fun c => BitVec.ofNat 8 c.toNat

variable {α : Type u} [Zero α] {n : Nat}

/-- `memmove` inside one buffer. -/
def memmove (b : Vector α n) (dst src count : Nat) : Vector α n :=
  Vector.ofFn fun i =>
    if dst ≤ i.val ∧ i.val < dst + count then b[src + (i.val - dst)]?.getD 0 else b[i]

theorem getElem?_memmove (b : Vector α n) (dst src count i : Nat) :
    (memmove b dst src count)[i]? = if i < n then
      some (if dst ≤ i ∧ i < dst + count then b[src + (i - dst)]?.getD 0 else b[i]?.getD 0) else none := by
  rw [memmove, Vector.getElem?_ofFn]
  split_ifs <;> simp_all

@[simp] theorem memmove_zero (b : Vector α n) (dst src : Nat) : memmove b dst src 0 = b := by
  ext i hi
  rw [memmove, Vector.getElem_ofFn, if_neg (by omega)]
  rfl

/-! ## Terminated buffers -/

/-- The first zero of the buffer is at `k`. -/
structure Terminated (b : Vector α n) (k : Nat) : Prop where
  lt : k < n
  zero : b[k]?.getD 0 = 0
  before : ∀ i < k, b[i]?.getD 0 ≠ 0

theorem getElem?_setIfInBounds_getD (b : Vector α n) {i : Nat} (h : i < n) (a : α) (j : Nat) :
    (b.setIfInBounds i a)[j]?.getD 0 = if j = i then a else b[j]?.getD 0 := by
  by_cases hj : j = i
  · subst hj
    rw [if_pos rfl, Vector.getElem?_setIfInBounds_self_of_lt h, Option.getD_some]
  · rw [if_neg hj, Vector.getElem?_setIfInBounds_ne (Ne.symm hj)]

theorem ext_getD {b b' : Vector α n} (h : ∀ i < n, b[i]?.getD 0 = b'[i]?.getD 0) : b = b' := by
  ext i hi
  have hi' := h i hi
  rwa [Vector.getElem?_eq_getElem hi, Vector.getElem?_eq_getElem hi] at hi'

theorem Terminated.congr {b b' : Vector α n} {k : Nat} (h : Terminated b k)
    (hb : ∀ i ≤ k, b'[i]?.getD 0 = b[i]?.getD 0) : Terminated b' k := by
  refine ⟨h.lt, (hb k le_rfl).trans h.zero, fun i hi => ?_⟩
  rw [hb i hi.le]
  exact h.before i hi

theorem zero_mem_iff (b : Vector α n) : 0 ∈ b.toList ↔ ∃ i < n, b[i]?.getD 0 = 0 := by
  rw [List.mem_iff_getElem?]
  simp only [Vector.getElem?_toList]
  constructor
  · rintro ⟨i, hi⟩
    exact ⟨i, (Vector.getElem?_eq_some_iff.mp hi).1, by rw [hi, Option.getD_some]⟩
  · rintro ⟨i, hi, h⟩
    rw [Vector.getElem?_eq_getElem hi, Option.getD_some] at h
    exact ⟨i, by rw [Vector.getElem?_eq_getElem hi, h]⟩

theorem zero_mem_drop_iff (b : Vector α n) (k : Nat) :
    0 ∈ b.toList.drop k ↔ ∃ i < n, k ≤ i ∧ b[i]?.getD 0 = 0 := by
  rw [List.mem_iff_getElem?]
  simp only [List.getElem?_drop, Vector.getElem?_toList]
  constructor
  · rintro ⟨i, hi⟩
    exact ⟨k + i, (Vector.getElem?_eq_some_iff.mp hi).1, by omega, by rw [hi, Option.getD_some]⟩
  · rintro ⟨i, hi, hk, h⟩
    rw [Vector.getElem?_eq_getElem hi, Option.getD_some] at h
    exact ⟨i - k, by rw [Nat.add_sub_cancel' hk, Vector.getElem?_eq_getElem hi, h]⟩

theorem getElem?_inserted (b : Vector α n) {k i : Nat} (hi : i ≤ k) (hk : k + 1 < n) (a : α) {j : Nat} (hj : j < n) :
    ((memmove b (i + 1) i (k - i + 1)).setIfInBounds i a)[j]?.getD 0 =
      if j = i then a else if i < j ∧ j ≤ k + 1 then b[j - 1]?.getD 0 else b[j]?.getD 0 := by
  rw [getElem?_setIfInBounds_getD _ (by omega), getElem?_memmove, if_pos hj, Option.getD_some]
  congr 1
  by_cases hij : i < j ∧ j ≤ k + 1
  · rw [if_pos hij, if_pos (by omega), show i + (j - (i + 1)) = j - 1 by omega]
  · rw [if_neg hij, if_neg (by omega)]

theorem Terminated.insert {b : Vector α n} {k i : Nat} {a : α} (h : Terminated b k) (hi : i ≤ k)
    (hk : k + 1 < n) (ha : a ≠ 0) :
    Terminated ((memmove b (i + 1) i (k - i + 1)).setIfInBounds i a) (k + 1) := by
  refine ⟨hk, ?_, fun j hj => ?_⟩
  · rw [getElem?_inserted b hi hk a hk, if_neg (by omega), if_pos (by omega), Nat.add_sub_cancel]
    exact h.zero
  · rw [getElem?_inserted b hi hk a (by omega)]
    split_ifs with h1 h2
    · exact ha
    · exact h.before _ (by omega)
    · exact h.before _ (by omega)

theorem getElem?_deleted (b : Vector α n) {k i : Nat} (hi : i ≤ k) {j : Nat} (hj : j < n) (hjk : j ≤ k) :
    (memmove b i (i + 1) (k + 1 - i))[j]?.getD 0 = if i ≤ j then b[j + 1]?.getD 0 else b[j]?.getD 0 := by
  rw [getElem?_memmove, if_pos hj, Option.getD_some]
  by_cases hij : i ≤ j
  · rw [if_pos hij, if_pos (by omega), show i + 1 + (j - i) = j + 1 by omega]
  · rw [if_neg hij, if_neg (by omega)]

theorem Terminated.of_deleted {b b' : Vector α n} {k i : Nat} (h : Terminated b (k + 1)) (hi : i ≤ k)
    (hbytes : ∀ j ≤ k, b'[j]?.getD 0 = if i ≤ j then b[j + 1]?.getD 0 else b[j]?.getD 0) : Terminated b' k := by
  have hlt := h.lt
  refine ⟨by omega, ?_, fun j hj => ?_⟩
  · rw [hbytes k le_rfl, if_pos hi]
    exact h.zero
  · rw [hbytes j (by omega)]
    split_ifs
    · exact h.before _ (by omega)
    · exact h.before _ (by omega)

theorem Terminated.delete {b : Vector α n} {k i : Nat} (h : Terminated b (k + 1)) (hi : i ≤ k) :
    Terminated (memmove b i (i + 1) (k + 1 - i)) k := by
  have hlt := h.lt
  exact h.of_deleted hi fun j hj => getElem?_deleted b hi (by omega) hj

/-! ## Lists with one byte more or less -/

theorem getD_inserted {t : List α} {i : Nat} (hi : i ≤ t.length) (a : α) (j : Nat) :
    (t.take i ++ a :: t.drop i)[j]?.getD 0 =
      if j = i then a else if i < j then t[j - 1]?.getD 0 else t[j]?.getD 0 := by
  rw [List.getElem?_append, List.length_take, min_eq_left hi]
  by_cases hji : j < i
  · rw [if_pos hji, if_neg (by omega), if_neg (by omega), List.getElem?_take_of_lt hji]
  · rw [if_neg hji, List.getElem?_cons]
    by_cases hj : j = i
    · rw [if_pos (by omega), if_pos hj, Option.getD_some]
    · have hplace : i + (j - i - 1) = j - 1 := by omega
      rw [if_neg (by omega), if_neg hj, if_pos (by omega), List.getElem?_drop, hplace]

theorem getD_deleted {t : List α} {i : Nat} (hi : i ≤ t.length) (j : Nat) :
    (t.take i ++ t.drop (i + 1))[j]?.getD 0 = if i ≤ j then t[j + 1]?.getD 0 else t[j]?.getD 0 := by
  rw [List.getElem?_append, List.length_take, min_eq_left hi]
  by_cases hji : j < i
  · rw [if_pos hji, if_neg (by omega), List.getElem?_take_of_lt hji]
  · have hplace : i + 1 + (j - i) = j + 1 := by omega
    rw [if_neg hji, if_pos (by omega), List.getElem?_drop, hplace]

/-! ## Text -/

variable [DecidableEq α]

/-- What comes before the first zero, or everything. -/
def text (b : List α) : List α := b.takeWhile (· ≠ 0)

def strlen (b : List α) : Nat := (text b).length

/-- The buffer that `strncpy` fills: the text, then zeros. -/
def strncpy (n : Nat) (src : List α) : Vector α n := Vector.ofFn fun i => (text src).getD i 0

/-- The buffer that `strcpy` leaves: the text and its zero, then what was there. `none` is a text
with no zero in its buffer. -/
def strcpy (dst src : Vector α n) : Option (Vector α n) :=
  if 0 ∈ src.toList then
    some (Vector.ofFn fun i => if i.val ≤ strlen src.toList then src[i] else dst[i])
  else none

theorem text_cons_zero (b : List α) : text (0 :: b) = [] := by
  simp [text]

theorem text_cons_ne {a : α} (h : a ≠ 0) (b : List α) : text (a :: b) = a :: text b := by
  simp [text, h]

theorem zero_not_mem_text (b : List α) : 0 ∉ text b := by
  intro h
  have h0 := List.mem_takeWhile_imp h
  simp at h0

theorem text_eq_self {b : List α} (h : 0 ∉ b) : text b = b := by
  rw [text, List.takeWhile_eq_self_iff]
  intro a ha
  have hne : a ≠ 0 := fun h0 => h (h0 ▸ ha)
  simpa using hne

@[simp] theorem text_text (b : List α) : text (text b) = text b := text_eq_self (zero_not_mem_text b)

theorem text_append {t tail : List α} (ht : 0 ∉ t) (h : text tail = []) : text (t ++ tail) = t := by
  induction t with
  | nil => exact h
  | cons a t ih =>
    rw [List.mem_cons, not_or] at ht
    rw [List.cons_append, text_cons_ne (Ne.symm ht.1), ih ht.2]

theorem text_append_zeros {b : List α} (h : 0 ∉ b) (k : Nat) : text (b ++ List.replicate k 0) = b := by
  apply text_append h
  cases k with
  | zero => rfl
  | succ k => rw [List.replicate_succ, text_cons_zero]

theorem text_push_zero (b : Vector α n) : text (b.push 0).toList = text b.toList := by
  have happend : ∀ l : List α, text (l ++ [0]) = text l := by
    intro l
    induction l with
    | nil => exact text_cons_zero []
    | cons a l ih =>
      by_cases ha : a = 0
      · rw [ha, List.cons_append, text_cons_zero, text_cons_zero]
      · rw [List.cons_append, text_cons_ne ha, text_cons_ne ha, ih]
  rw [Vector.toList_push, happend]

theorem strlen_le_length (b : List α) : strlen b ≤ b.length :=
  (List.takeWhile_prefix _).length_le

theorem strlen_eq_iff (b : List α) (k : Nat) :
    0 ∈ b ∧ strlen b = k ↔ b[k]? = some 0 ∧ ∀ i < k, b[i]? ≠ some 0 := by
  induction b generalizing k with
  | nil => simp
  | cons a b ih =>
    by_cases ha : a = 0
    · subst ha
      cases k with
      | zero => simp [strlen, text_cons_zero]
      | succ k =>
        have hlen : strlen (0 :: b) = 0 := by simp [strlen, text_cons_zero]
        rw [hlen]
        constructor
        · rintro ⟨-, h⟩
          omega
        · rintro ⟨-, h⟩
          exact absurd rfl (h 0 (by omega))
    · have hlen : strlen (a :: b) = strlen b + 1 := by simp [strlen, text_cons_ne ha]
      rw [hlen]
      cases k with
      | zero => simp [ha]
      | succ k =>
        have hmem : 0 ∈ a :: b ↔ 0 ∈ b := by simp [Ne.symm ha]
        rw [hmem, Nat.add_right_cancel_iff, ih k, List.getElem?_cons_succ]
        refine and_congr_right fun _ => ⟨fun h i hi => ?_, fun h i hi => ?_⟩
        · cases i with
          | zero => simpa using ha
          | succ i => exact h i (by omega)
        · exact h (i + 1) (by omega)

theorem terminated_iff (b : Vector α n) (k : Nat) :
    Terminated b k ↔ 0 ∈ b.toList ∧ strlen b.toList = k := by
  rw [strlen_eq_iff, Vector.getElem?_toList]
  constructor
  · rintro ⟨hlt, hzero, hbefore⟩
    rw [Vector.getElem?_eq_getElem hlt] at hzero ⊢
    refine ⟨congrArg some hzero, fun i hi h => hbefore i hi ?_⟩
    rw [Vector.getElem?_toList] at h
    rw [h, Option.getD_some]
  · rintro ⟨hzero, hbefore⟩
    have hlt : k < n := (Vector.getElem?_eq_some_iff.mp hzero).1
    refine ⟨hlt, by rw [hzero, Option.getD_some], fun i hi h => hbefore i hi ?_⟩
    rw [Vector.getElem?_eq_getElem (hi.trans hlt), Option.getD_some] at h
    rw [Vector.getElem?_toList, Vector.getElem?_eq_getElem (hi.trans hlt), h]

/-! ## Copies -/

theorem toList_strncpy (n : Nat) (src : List α) :
    (strncpy n src).toList = (text src).take n ++ List.replicate (n - strlen src) 0 := by
  apply List.ext_getElem?
  intro i
  rw [List.getElem?_append, List.length_take, strncpy, Vector.toList_ofFn, List.getElem?_ofFn, ← strlen]
  by_cases hn : i < n
  · by_cases hl : i < strlen src
    · have hlen : i < (text src).length := hl
      simp [hn, hl, List.getElem?_eq_getElem hlen]
    · have hlen : (text src).length ≤ i := not_lt.mp hl
      have hmin : ¬ i < min n (strlen src) := by omega
      have hrep : i - min n (strlen src) < n - strlen src := by omega
      simp [hn, hmin, hrep, List.getElem?_eq_none hlen]
  · have hmin : ¬ i < min n (strlen src) := by omega
    have hrep : ¬ i - min n (strlen src) < n - strlen src := by omega
    simp [hn, hmin, hrep]

theorem toList_strncpy_append {l : List α} (hlen : l.length = n) (h : 0 ∉ l) (rest : List α) :
    (strncpy n (l ++ rest)).toList = l := by
  have htext : text (l ++ rest) = l ++ text rest := by
    refine List.takeWhile_append_of_pos fun a ha => ?_
    have hne : a ≠ 0 := fun h0 => h (h0 ▸ ha)
    simpa using hne
  have hfull : n - strlen (l ++ rest) = 0 := by
    rw [strlen, htext, List.length_append, hlen]
    omega
  rw [toList_strncpy, htext, hfull, ← hlen, List.take_left, List.replicate_zero, List.append_nil]

theorem getElem?_strncpy (src : List α) {i : Nat} (hi : i < n) :
    (strncpy n src)[i]? = some ((text src)[i]?.getD 0) := by
  rw [strncpy, Vector.getElem?_ofFn, dif_pos hi, List.getD_eq_getElem?_getD]

theorem strncpy_terminated {src : List α} (h : strlen src < n) :
    Terminated (strncpy n src) (strlen src) := by
  refine ⟨h, ?_, fun i hi => ?_⟩
  · have hnone : (text src)[strlen src]? = none := List.getElem?_eq_none le_rfl
    rw [getElem?_strncpy src h, Option.getD_some, hnone, Option.getD_none]
  · have hi' : i < (text src).length := hi
    rw [getElem?_strncpy src (hi.trans h), Option.getD_some, List.getElem?_eq_getElem hi', Option.getD_some]
    exact fun h0 => zero_not_mem_text src (h0 ▸ List.getElem_mem hi')

theorem strncpy_set_last {src : List α} (h : strlen src < n) :
    (strncpy n src).setIfInBounds (n - 1) 0 = strncpy n src := by
  ext i hi
  rw [Vector.getElem_setIfInBounds hi]
  split_ifs with heq
  · subst heq
    have hlast := getElem?_strncpy src hi
    have hnone : (text src)[n - 1]? = none := List.getElem?_eq_none (Nat.le_sub_one_of_lt h)
    rw [Vector.getElem?_eq_getElem hi, hnone] at hlast
    exact (Option.some.inj hlast).symm
  · rfl

@[simp] theorem text_strncpy (n : Nat) (src : List α) :
    text (strncpy n src).toList = (text src).take n := by
  rw [toList_strncpy, text_append_zeros]
  exact fun h => zero_not_mem_text src (List.mem_of_mem_take h)

theorem text_strncpy_vector (b : Vector α n) : text (strncpy n b.toList).toList = text b.toList := by
  rw [text_strncpy, List.take_of_length_le]
  exact (strlen_le_length b.toList).trans_eq b.length_toList

theorem zero_mem_of_strcpy {src dst b : Vector α n} (h : strcpy dst src = some b) : 0 ∈ src.toList := by
  unfold strcpy at h
  split_ifs at h with hzero
  exact hzero

theorem strcpy_eq_some {src : Vector α n} {k : Nat} (h : Terminated src k) (dst : Vector α n) :
    ∃ b, strcpy dst src = some b ∧
      ∀ i < n, b[i]?.getD 0 = if i ≤ k then src[i]?.getD 0 else dst[i]?.getD 0 := by
  obtain ⟨h0, hlen⟩ := (terminated_iff src k).mp h
  refine ⟨_, if_pos h0, fun i hi => ?_⟩
  rw [Vector.getElem?_ofFn, dif_pos hi, Option.getD_some, hlen]
  split_ifs <;> simp [hi]

theorem Terminated.text_eq {b : Vector α n} {k : Nat} (h : Terminated b k) : text b.toList = b.toList.take k := by
  obtain ⟨-, hlen⟩ := (terminated_iff b k).mp h
  have hprefix : text b.toList <+: b.toList := List.takeWhile_prefix _
  rw [List.prefix_iff_eq_take.mp hprefix]
  congr 1

theorem Terminated.length_text {b : Vector α n} {k : Nat} (h : Terminated b k) : (text b.toList).length = k :=
  ((terminated_iff b k).mp h).2

theorem Terminated.getD_text {b : Vector α n} {k : Nat} (h : Terminated b k) {j : Nat} (hj : j < k) :
    (text b.toList)[j]?.getD 0 = b[j]?.getD 0 := by
  rw [h.text_eq, List.getElem?_take_of_lt hj, Vector.getElem?_toList]

theorem Terminated.text_of_getD {b : Vector α n} {k : Nat} (h : Terminated b k) {t : List α} (ht : t.length = k)
    (hb : ∀ j < k, b[j]?.getD 0 = t[j]?.getD 0) : text b.toList = t := by
  apply List.ext_getElem
  · rw [h.length_text, ht]
  · intro j hj hj'
    have hbyte := h.getD_text (ht ▸ hj')
    rw [hb j (ht ▸ hj'), List.getElem?_eq_getElem hj, List.getElem?_eq_getElem hj'] at hbyte
    exact hbyte

theorem Terminated.text_insert {b : Vector α n} {k i : Nat} {a : α} (h : Terminated b k) (hi : i ≤ k)
    (hk : k + 1 < n) (ha : a ≠ 0) :
    text ((memmove b (i + 1) i (k - i + 1)).setIfInBounds i a).toList =
      (text b.toList).take i ++ a :: (text b.toList).drop i := by
  have hlen := h.length_text
  refine (h.insert hi hk ha).text_of_getD ?_ fun j hj => ?_
  · simp only [List.length_append, List.length_cons, List.length_take, List.length_drop]
    omega
  · rw [getElem?_inserted b hi hk a (by omega), getD_inserted (by omega)]
    split_ifs with h1 h2 h3 h3
    · rfl
    · exact (h.getD_text (by omega)).symm
    · omega
    · omega
    · exact (h.getD_text (by omega)).symm

theorem Terminated.text_of_deleted {b b' : Vector α n} {k i : Nat} (h : Terminated b (k + 1)) (hi : i ≤ k)
    (hbytes : ∀ j ≤ k, b'[j]?.getD 0 = if i ≤ j then b[j + 1]?.getD 0 else b[j]?.getD 0) :
    text b'.toList = (text b.toList).take i ++ (text b.toList).drop (i + 1) := by
  have hlen := h.length_text
  refine (h.of_deleted hi hbytes).text_of_getD ?_ fun j hj => ?_
  · simp only [List.length_append, List.length_take, List.length_drop]
    omega
  · rw [hbytes j hj.le, getD_deleted (by omega)]
    split_ifs
    · exact (h.getD_text (by omega)).symm
    · exact (h.getD_text (by omega)).symm

theorem Terminated.text_delete {b : Vector α n} {k i : Nat} (h : Terminated b (k + 1)) (hi : i ≤ k) :
    text (memmove b i (i + 1) (k + 1 - i)).toList = (text b.toList).take i ++ (text b.toList).drop (i + 1) := by
  have hlt := h.lt
  exact h.text_of_deleted hi fun j hj => getElem?_deleted b hi (by omega) hj

theorem strcpy_text {src : Vector α n} (h : 0 ∈ src.toList) (dst : Vector α n) :
    ∃ b, strcpy dst src = some b ∧ 0 ∈ b.toList ∧ text b.toList = text src.toList := by
  have ht := (terminated_iff src _).mpr ⟨h, rfl⟩
  obtain ⟨b, hb, hbytes⟩ := strcpy_eq_some ht dst
  have hsame : ∀ i ≤ strlen src.toList, b[i]?.getD 0 = src[i]?.getD 0 := by
    intro i hi
    rw [hbytes i (hi.trans_lt ht.lt), if_pos hi]
  have htb := ht.congr hsame
  refine ⟨b, hb, ((terminated_iff b _).mp htb).1, htb.text_of_getD rfl fun j hj => ?_⟩
  rw [hsame j hj.le, ht.getD_text hj]

end OsCoursework.Cstring
