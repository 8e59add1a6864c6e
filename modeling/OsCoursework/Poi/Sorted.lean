import OsCoursework.Lib.ExchangeSort
import OsCoursework.Poi.Code

/-!
# What the sort leaves in the file

The file is its records and fewer bytes than one more would take. The loops do to the bytes what an
exchange sort does to the list of the records. Without a record, the bound `numPOIs - 1` of the outer
loop is the largest `size_t`.
-/

open OsCoursework.ExchangeSort OsCoursework.ForLoop OsCoursework.Fuel

namespace OsCoursework.Poi

variable {κ : Type} [LinearOrder κ] {file rest rest' : List Byte} {pre mid post ps qs : List POI} {a b p : POI}
  {i n : Nat}

theorem poiSize_eq : poiSize = 40 := rfl

/-! ## The records of a file -/

def records (file : List Byte) : List POI := (List.range (numPOIs file)).filterMap (load file)

/-- What is left after them. -/
def trailing (file : List Byte) : List Byte := file.drop (numPOIs file * poiSize)

def bytes (ps : List POI) : List Byte := ps.flatMap Vector.toList

@[simp] theorem bytes_nil : bytes [] = [] := rfl

@[simp] theorem bytes_cons (p : POI) (ps : List POI) : bytes (p :: ps) = p.toList ++ bytes ps := rfl

@[simp] theorem bytes_append (ps qs : List POI) : bytes (ps ++ qs) = bytes ps ++ bytes qs := List.flatMap_append

@[simp] theorem length_bytes (ps : List POI) : (bytes ps).length = ps.length * poiSize := by
  induction ps with
  | nil => rfl
  | cons p ps ih =>
    rw [bytes_cons, List.length_append, ih, Vector.length_toList, List.length_cons]
    ring

theorem bytes_inj (h : bytes ps ++ rest = bytes qs ++ rest') (hlen : ps.length = qs.length) :
    ps = qs ∧ rest = rest' := by
  induction ps generalizing qs with
  | nil =>
    obtain rfl := List.length_eq_zero_iff.mp hlen.symm
    exact ⟨rfl, h⟩
  | cons p ps ih =>
    obtain ⟨q, qs, rfl⟩ := List.exists_cons_of_length_eq_add_one hlen.symm
    rw [bytes_cons, bytes_cons, List.append_assoc, List.append_assoc] at h
    obtain ⟨hhead, htail⟩ := List.append_inj h (by simp)
    obtain ⟨hps, hrest⟩ := ih htail (by simpa using hlen)
    exact ⟨by rw [Vector.toList_inj.mp hhead, hps], hrest⟩

theorem load_of_le (h : (i + 1) * poiSize ≤ file.length) :
    ∃ p, load file i = some p ∧ p.toList = (file.drop (i * poiSize)).take poiSize :=
  ⟨_, dif_pos h, by simp⟩

theorem bytes_records (h : n * poiSize ≤ file.length) :
    bytes ((List.range n).filterMap (load file)) = file.take (n * poiSize) ∧
      ((List.range n).filterMap (load file)).length = n := by
  induction n with
  | zero => simp
  | succ n ih =>
    obtain ⟨hbytes, hlength⟩ := ih ((Nat.mul_le_mul_right _ n.le_succ).trans h)
    obtain ⟨p, hload, hp⟩ := load_of_le h
    rw [List.range_succ, List.filterMap_append, List.filterMap_cons_some hload, List.filterMap_nil]
    constructor
    · rw [bytes_append, hbytes, bytes_cons, bytes_nil, List.append_nil, hp, Nat.succ_mul]
      exact List.take_add.symm
    · rw [List.length_append, hlength, List.length_singleton]

theorem numPOIs_mul_le (file : List Byte) : numPOIs file * poiSize ≤ file.length := Nat.div_mul_le_self _ _

theorem length_records (file : List Byte) : (records file).length = numPOIs file :=
  (bytes_records (numPOIs_mul_le file)).2

theorem bytes_records_append (file : List Byte) : bytes (records file) ++ trailing file = file := by
  unfold records trailing
  rw [(bytes_records (numPOIs_mul_le file)).1]
  exact List.take_append_drop _ _

theorem length_trailing (file : List Byte) : (trailing file).length < poiSize := by
  unfold trailing numPOIs
  rw [List.length_drop, poiSize_eq]
  omega

theorem numPOIs_bytes (hrest : rest.length < poiSize) : numPOIs (bytes ps ++ rest) = ps.length := by
  unfold numPOIs
  rw [List.length_append, length_bytes]
  rw [poiSize_eq] at *
  omega

theorem records_bytes (ps : List POI) (hrest : rest.length < poiSize) :
    records (bytes ps ++ rest) = ps ∧ trailing (bytes ps ++ rest) = rest := by
  refine bytes_inj (bytes_records_append _) ?_
  rw [length_records, numPOIs_bytes hrest]

/-! ## One comparison -/

theorem load_bytes (hi : i = pre.length) : load (bytes (pre ++ p :: post) ++ rest) i = some p := by
  have hle : (i + 1) * poiSize ≤ (bytes (pre ++ p :: post) ++ rest).length := by
    rw [List.length_append, length_bytes, List.length_append, List.length_cons, hi, poiSize_eq]
    omega
  obtain ⟨q, hload, hq⟩ := load_of_le hle
  rw [hload, ← Vector.toList_inj.mp (show q.toList = p.toList from ?_)]
  rw [hq, bytes_append, bytes_cons, List.append_assoc, List.drop_left' (by rw [length_bytes, hi]), List.append_assoc,
    List.take_left' (by simp)]

theorem store_bytes (hi : i = pre.length) :
    store (bytes (pre ++ a :: post) ++ rest) i p = some (bytes (pre ++ p :: post) ++ rest) := by
  unfold store
  have hle : (i + 1) * poiSize ≤ (bytes (pre ++ a :: post) ++ rest).length := by
    rw [List.length_append, length_bytes, List.length_append, List.length_cons, hi, poiSize_eq]
    omega
  have hsplit : bytes (pre ++ a :: post) ++ rest = (bytes pre ++ a.toList) ++ (bytes post ++ rest) := by simp
  rw [if_pos hle, hsplit, List.drop_left' (by simp [hi, Nat.add_one_mul]), List.append_assoc,
    List.take_left' (by simp [hi])]
  simp

def POI.distance (globalDistance : Double → Double → κ) (p : POI) : κ := globalDistance p.lat p.lon

variable {globalDistance : Double → Double → κ}

theorem compareStep_split (globalDistance : Double → Double → κ) (pre mid post : List POI) (a b : POI)
    (rest : List Byte) :
    compareStep globalDistance pre.length (pre.length + (mid.length + 1))
        (bytes (pre ++ a :: (mid ++ b :: post)) ++ rest) =
      some (bytes (exchange (POI.distance globalDistance) pre.length (pre ++ a :: (mid ++ b :: post))
        (pre.length + (mid.length + 1))) ++ rest) := by
  have hsplit : ∀ c d : POI, pre ++ c :: (mid ++ d :: post) = (pre ++ c :: mid) ++ d :: post := fun c d => by simp
  have hj : ∀ c : POI, pre.length + (mid.length + 1) = (pre ++ c :: mid).length := fun c => by simp
  unfold compareStep
  rw [load_bytes rfl, Option.bind_some, hsplit, load_bytes (hj a), Option.bind_some, ← hsplit, exchange_split]
  unfold POI.distance
  split_ifs with hlt
  · rw [store_bytes rfl, Option.bind_some, hsplit, store_bytes (hj b), ← hsplit]
  · rfl

theorem compareStep_eq {j : Nat} (hij : i < j) (hj : j < ps.length) :
    compareStep globalDistance i j (bytes ps ++ rest) =
      some (bytes (exchange (POI.distance globalDistance) i ps j) ++ rest) := by
  obtain ⟨pre, a, mid, b, post, rfl, rfl, rfl⟩ := exists_split hij hj
  exact compareStep_split ..

/-! ## The loops -/

/-- The file consists of `n` records and the rest. -/
def Holds (rest : List Byte) (n : Nat) (file : List Byte) (ps : List POI) : Prop :=
  file = bytes ps ++ rest ∧ ps.length = n

theorem inner_returns (globalDistance : Double → Double → κ) (hn : n < 2 ^ 64 - 1) (h : Holds rest n file ps)
    (hi : i < 2 ^ 64 - 1) : ∃ file',
    Returns (fun fuel => forSize n (compareStep globalDistance i) fuel (size64 (i + 1)) file) file' ∧
      Holds rest n file' (sweep (POI.distance globalDistance) ps i) := by
  have hnext := size64_of_lt (show i + 1 < 2 ^ 64 by omega)
  rw [Nat.cast_add, Nat.cast_one] at hnext
  have hbody : ∀ j, i + 1 ≤ j → j < n → ∀ f qs, Holds rest n f qs →
      ∃ f', Returns (fun _ => compareStep globalDistance i j f) f' ∧
        Holds rest n f' (exchange (POI.distance globalDistance) i qs j) := by
    rintro j hij hj f qs ⟨rfl, hqs⟩
    refine ⟨_, ⟨0, fun _ _ => compareStep_eq hij (by omega)⟩, rfl, ?_⟩
    exact (exchange_perm _ i j qs hij).length_eq.trans hqs
  obtain ⟨file', hreturns, hholds⟩ := forSize_returns (by omega : n < 2 ^ 64) hbody h
  rw [hnext]
  unfold sweep
  rw [h.2]
  exact ⟨file', hreturns, hholds⟩

theorem foldl_count {σ ι : Type} (f : σ → ι → σ) (l : List ι) (s : σ) (k : Nat) :
    l.foldl (fun (t : σ × Nat) i => (f t.1 i, t.2 + 1)) (s, k) = (l.foldl f s, k + l.length) := by
  induction l generalizing s k with
  | nil => rfl
  | cons i l ih =>
    rw [List.foldl_cons, List.foldl_cons, ih, List.length_cons]
    congr 1
    omega

/-- The loops end, with the records in order. The outer one went round as often as its bound says. -/
theorem sortFile_returns (globalDistance : Double → Double → κ) (hsize : file.length < 2 ^ 64) :
    ∃ ps file', Returns (fun fuel => sortFile globalDistance fuel file) (file', size64 (numPOIs file - 1)) ∧
      Holds (trailing file) (numPOIs file) file' ps ∧ ps.Perm (records file) ∧
        ps.Pairwise fun a b => a.distance globalDistance ≤ b.distance globalDistance := by
  have hfew : numPOIs file < 2 ^ 64 - 1 := by
    unfold numPOIs
    rw [poiSize_eq]
    omega
  have hbound : size64 (numPOIs file - 1) < 2 ^ 64 := by
    unfold size64
    omega
  have hstart : Holds (trailing file) (numPOIs file) file (records file) :=
    ⟨(bytes_records_append file).symm, length_records file⟩
  obtain ⟨⟨file', turns⟩, hreturns, hholds, hturns⟩ := forSize_returns
    (R := fun (s : List Byte × Nat) (t : List POI × Nat) => Holds (trailing file) (numPOIs file) s.1 t.1 ∧ s.2 = t.2)
    (g := fun t i => (sweep (POI.distance globalDistance) t.1 i, t.2 + 1)) (s := (file, 0))
    (t := (records file, 0)) hbound (fun i (_ : 0 ≤ i) hi s t h => by
      obtain ⟨f, hinner, hf⟩ := inner_returns globalDistance (i := i) hfew h.1 (by omega)
      exact ⟨(f, s.2 + 1), hinner.map fun f => (f, s.2 + 1), hf, by rw [h.2]⟩) ⟨hstart, rfl⟩
  rw [foldl_count] at hholds hturns
  simp only [Nat.sub_zero, List.length_range', zero_add] at hholds hturns
  refine ⟨_, file', ?_, hholds, ?_⟩
  · rw [← hturns]
    exact hreturns
  · obtain ⟨-, hlength⟩ := hholds
    rcases Nat.eq_zero_or_pos (numPOIs file) with hzero | hpos
    · -- There is nothing to sort, however long the loop runs.
      have hrecords : records file = [] := List.length_eq_zero_iff.mp ((length_records file).trans hzero)
      rw [List.length_eq_zero_iff.mp (hlength.trans hzero), hrecords]
      exact ⟨List.Perm.refl _, List.Pairwise.nil⟩
    · have hcast : (numPOIs file : Int) - 1 = (numPOIs file - 1 : Nat) := by omega
      have hcount : size64 (numPOIs file - 1) = (records file).length - 1 := by
        rw [hcast, size64_of_lt (by omega), length_records]
      rw [hcount, ← List.range_eq_range']
      exact ⟨exchangeSort_perm _ _, exchangeSort_sorted _ _⟩

/-! ## What the sort is for -/

/-- The sort ends in `numPOIs` iterations, with the records sorted and what is left unchanged. -/
structure Sorts (globalDistance : Double → Double → κ) (file file' : List Byte) (turns : Nat) : Prop where
  returns : Returns (fun fuel => sortFile globalDistance fuel file) (file', turns)
  turns_le : turns ≤ numPOIs file
  perm : (records file').Perm (records file)
  sorted : (records file').Pairwise fun a b => globalDistance a.lat a.lon ≤ globalDistance b.lat b.lon
  trailing : trailing file' = trailing file
  length : file'.length = file.length

/-- Too short for one record, and the loop goes round for every value of its counter. -/
theorem not_sorts (hshort : file.length < poiSize) : ¬ ∃ file' turns, Sorts globalDistance file file' turns := by
  rintro ⟨file', turns, h⟩
  rw [poiSize_eq] at hshort
  obtain ⟨ps, file'', hreturns, -⟩ := sortFile_returns globalDistance (by omega : file.length < 2 ^ 64)
  have hnone : numPOIs file = 0 := Nat.div_eq_of_lt hshort
  have hturns : turns = size64 (0 - 1) := by
    have heq := h.returns.unique hreturns
    rw [hnone] at heq
    exact (Prod.mk.inj heq).2
  have hle := h.turns_le
  rw [hnone, hturns] at hle
  unfold size64 at hle
  omega

/-- **The sort of a file is right when there is a record.** -/
theorem sorts_iff (globalDistance : Double → Double → κ) (file : List Byte) (hsize : file.length < 2 ^ 64) :
    (∃ file' turns, Sorts globalDistance file file' turns) ↔ poiSize ≤ file.length := by
  constructor
  · intro h
    by_contra hshort
    exact not_sorts (not_le.mp hshort) h
  · intro hle
    obtain ⟨ps, file', hreturns, ⟨hfile, hlength⟩, hperm, hsorted⟩ := sortFile_returns globalDistance hsize
    obtain ⟨hrecords, hrest⟩ := records_bytes ps (length_trailing file)
    rw [← hfile] at hrecords hrest
    refine ⟨file', _, hreturns, ?_, ?_, ?_, hrest, ?_⟩
    · have hpos : 1 ≤ numPOIs file := Nat.div_pos hle (by decide)
      unfold size64
      omega
    · rw [hrecords]
      exact hperm
    · rw [hrecords]
      exact hsorted
    · have hwhole := bytes_records_append file
      rw [hfile, ← hwhole, List.length_append, List.length_append, length_bytes, length_bytes, hlength, length_records,
        hwhole]

/-- The distance is the first byte of the latitude. -/
def sampleDistance (lat _lon : Double) : Nat := lat[0].toNat

/-- Three records at the distances 3, 1 and 2, and a byte. -/
def sampleFile : List Byte :=
  [3, 1, 2].flatMap (fun d => List.replicate (nameMax + 1) 0x61 ++ d :: List.replicate 15 0) ++ [0x7a]

theorem sorts_iff_three : ∃ file' turns, Sorts sampleDistance sampleFile file' turns ∧
    (records file').map (fun p => sampleDistance p.lat p.lon) = [1, 2, 3] := by
  obtain ⟨file', turns, h⟩ := (sorts_iff sampleDistance sampleFile (by decide)).mpr (by decide)
  refine ⟨file', turns, h, ?_⟩
  have hperm : ((records file').map fun p => sampleDistance p.lat p.lon).Perm [1, 2, 3] :=
    (h.perm.map _).trans (by decide +kernel)
  exact hperm.eq_of_pairwise (fun a b _ _ => le_antisymm) (List.pairwise_map.mpr h.sorted) (by decide)

theorem not_sorts_byte : ¬ ∃ file' turns, Sorts (fun _ _ => (0 : Nat)) [0] file' turns :=
  not_sorts (by rw [poiSize_eq, List.length_singleton]; norm_num)

end OsCoursework.Poi
