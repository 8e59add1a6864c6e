import OsCoursework.Triangles.Count

/-!
# The mathematical count

Which triples are triangles over the integers, and for which lists `hw2/triangles.c` and
`hw3/triangles-thread.c` print their number.
-/

open OsCoursework.ForLoop OsCoursework.Fuel

namespace OsCoursework.Triangles

/-! ## The list -/

/-- The last capacity, after which the doubled one wraps. -/
def maxRead : Nat := 5 * 2 ^ 28

theorem roomFor_eq {c : Nat} (h : c < 2 ^ 31) : roomFor (c : CInt) = c := by
  have hmsb : (BitVec.ofNat 32 c).msb = false := by
    rw [BitVec.msb_eq_false_iff_two_mul_lt, BitVec.toNat_ofNat]
    omega
  have hbytes : ((BitVec.ofNat 32 c).signExtend 64 * 4).toNat = c * 4 := by
    have hfour : (4 : BitVec 64).toNat = 4 := rfl
    rw [BitVec.signExtend_eq_setWidth_of_msb_false hmsb, BitVec.toNat_mul, BitVec.toNat_setWidth, BitVec.toNat_ofNat,
      hfour]
    omega
  unfold roomFor
  simp only [BitVec.natCast_eq_ofNat, hbytes]
  rw [if_pos (by omega)]
  omega

/-- The state after so many doublings. -/
structure Grown (s : Reading) (e : Nat) : Prop where
  le : e ≤ 28
  vCap : s.vCap = ((5 * 2 ^ e : Nat) : CInt)
  room : s.room = 5 * 2 ^ e
  length : s.values.length ≤ 5 * 2 ^ e

theorem pow_le_of_le {e : Nat} (h : e ≤ 28) : 2 ^ e ≤ 2 ^ 28 := Nat.pow_le_pow_right (by decide) h

theorem toInt_natCast {n : Nat} (h : n < 2 ^ 31) : (n : CInt).toInt = n := by
  rw [BitVec.natCast_eq_ofNat, BitVec.toInt_ofNat', Int.bmod_eq_of_le (by omega) (by omega)]

theorem toNat_natCast {n : Nat} (h : n < 2 ^ 31) : (n : CInt).toNat = n := by
  rw [BitVec.natCast_eq_ofNat, BitVec.toNat_ofNat]
  omega

theorem vCap_sle {s : Reading} {e : Nat} (h : Grown s e) :
    s.vCap.sle (s.values.length : CInt) = true ↔ s.values.length = 5 * 2 ^ e := by
  have hpow := pow_le_of_le h.le
  have hlen := h.length
  rw [BitVec.sle_iff_toInt_le, h.vCap, toInt_natCast (by omega), toInt_natCast (by omega)]
  omega

theorem readValue_grown {s : Reading} {e : Nat} (h : Grown s e) (v : CInt) (hlt : s.values.length < maxRead) :
    ∃ s' e', readValue s v = some s' ∧ Grown s' e' ∧ s'.values = s.values ++ [v] := by
  have hpow := pow_le_of_le h.le
  have hlen := h.length
  have hcount : (s.values.length : CInt).toNat = s.values.length := toNat_natCast (by omega)
  unfold maxRead at hlt
  by_cases hfull : s.values.length = 5 * 2 ^ e
  · have he : e < 28 := by
      refine lt_of_le_of_ne h.le ?_
      rintro rfl
      omega
    have hpos : 0 < 2 ^ e := Nat.two_pow_pos e
    have hpow' : 2 ^ (e + 1) ≤ 2 ^ 28 := pow_le_of_le he
    have hcap : s.vCap * 2 = ((5 * 2 ^ (e + 1) : Nat) : CInt) := by
      rw [h.vCap, Nat.pow_succ, ← Nat.mul_assoc]
      exact (Nat.cast_mul _ _).symm
    have hroom : roomFor (s.vCap * 2) = 5 * 2 ^ (e + 1) := by
      rw [hcap]
      exact roomFor_eq (by omega)
    refine ⟨⟨s.values ++ [v], s.vCap * 2, 5 * 2 ^ (e + 1)⟩, e + 1, ?_, ⟨by omega, hcap, rfl, ?_⟩, rfl⟩
    · simp only [readValue, (vCap_sle h).mpr hfull, if_true, hcount, hroom]
      rw [if_pos (by omega)]
    · simp only [List.length_append, List.length_singleton]
      omega
  · have hsle : s.vCap.sle (s.values.length : CInt) = false := by
      rw [← Bool.not_eq_true, vCap_sle h]
      exact hfull
    refine ⟨{ s with values := s.values ++ [v] }, e, ?_, ⟨h.le, h.vCap, h.room, ?_⟩, rfl⟩
    · simp only [readValue, hsle, Bool.false_eq_true, if_false, hcount, h.room]
      rw [if_pos (by omega)]
    · simp only [List.length_append, List.length_singleton]
      omega

/-- The doubled capacity is negative, and as a size it is too large. -/
theorem readValue_full {s : Reading} {e : Nat} (h : Grown s e) (v : CInt) (hlen : s.values.length = maxRead) :
    readValue s v = none := by
  have hpow := pow_le_of_le h.le
  have hle := h.length
  unfold maxRead at hlen
  have hcap : s.values.length = 5 * 2 ^ e := by omega
  have hmax : s.vCap * 2 = 0xa0000000 := by
    rw [h.vCap, ← hcap, hlen]
    decide
  have hroom : roomFor (s.vCap * 2) = 0 := by
    rw [hmax]
    decide
  simp only [readValue, (vCap_sle h).mpr hcap, if_true, hroom, Nat.not_lt_zero, if_false]

theorem foldlM_readValue {s : Reading} {e : Nat} (h : Grown s e) (input : List CInt) :
    (input.foldlM readValue s).map Reading.values =
      if s.values.length + input.length ≤ maxRead then some (s.values ++ input) else none := by
  induction input generalizing s e with
  | nil =>
    have hpow := pow_le_of_le h.le
    have hlen := h.length
    rw [if_pos (by simp only [List.length_nil, maxRead]; omega)]
    simp
  | cons v input ih =>
    rw [List.foldlM_cons, List.length_cons]
    by_cases hlt : s.values.length < maxRead
    · obtain ⟨s', e', hs', hgrown, hvalues⟩ := readValue_grown h v hlt
      rw [hs']
      refine (ih hgrown).trans ?_
      rw [hvalues, List.length_append, List.length_singleton, List.append_assoc, List.singleton_append, Nat.add_assoc,
        Nat.add_comm 1]
    · have hpow := pow_le_of_le h.le
      have hlen := h.length
      rw [readValue_full h v (by unfold maxRead at hlt ⊢; omega), if_neg (by omega)]
      rfl

theorem readList_eq (input : List CInt) : readList input = if input.length ≤ maxRead then some input else none := by
  have hstart : Grown ⟨[], 5, roomFor 5⟩ 0 := ⟨by decide, rfl, by decide, by decide⟩
  unfold readList
  rw [foldlM_readValue hstart, List.length_nil, Nat.zero_add, List.nil_append]

/-! ## Triangles over the integers -/

/-- The strict triangle inequality. -/
def Proper (a b c : Int) : Prop := c < a + b ∧ b < a + c ∧ a < b + c

/-- No sum of two sides wraps. -/
def SumsFit (a b c : Int) : Prop := a + b < 2 ^ 31 ∧ a + c < 2 ^ 31 ∧ b + c < 2 ^ 31

instance (a b c : Int) : Decidable (Proper a b c) := inferInstanceAs (Decidable (_ ∧ _ ∧ _))

instance (a b c : Int) : Decidable (SumsFit a b c) := inferInstanceAs (Decidable (_ ∧ _ ∧ _))

/-- `vList[i]` as an integer. -/
def side (vList : List CInt) (i : Nat) : Int := (value vList i).toInt

/-- The triples `i < j < k` that are triangles over the integers. -/
def properTriangles (vList : List CInt) : Finset (Nat × Nat × Nat) :=
  let places := Finset.range vList.length
  (places ×ˢ places ×ˢ places).filter fun t =>
    t.1 < t.2.1 ∧ t.2.1 < t.2.2 ∧ Proper (side vList t.1) (side vList t.2.1) (side vList t.2.2)

theorem slt_add_iff {a b c : CInt} (ha : 0 < a.toInt) (hb : 0 < b.toInt) (hc : 0 < c.toInt) :
    c.slt (a + b) = true ↔ c.toInt < a.toInt + b.toInt ∧ a.toInt + b.toInt < 2 ^ 31 := by
  have ha' : a.toInt < 2 ^ 31 := BitVec.toInt_lt
  have hb' : b.toInt < 2 ^ 31 := BitVec.toInt_lt
  have hadd : (a + b).toInt = int32 (a.toInt + b.toInt) := BitVec.toInt_add a b
  rw [BitVec.slt_iff_toInt_lt, hadd]
  by_cases hfit : a.toInt + b.toInt < 2 ^ 31
  · rw [int32_of_fits (by omega) hfit]
    omega
  · -- The sum is negative.
    rw [int32_of_wraps (by omega) (by omega)]
    omega

theorem checkTriangle_iff {a b c : CInt} (ha : 0 < a.toInt) (hb : 0 < b.toInt) (hc : 0 < c.toInt) :
    checkTriangle a b c = true ↔ Proper a.toInt b.toInt c.toInt ∧ SumsFit a.toInt b.toInt c.toInt := by
  unfold checkTriangle Proper SumsFit
  rw [Bool.and_eq_true, Bool.and_eq_true, slt_add_iff ha hb hc, slt_add_iff ha hc hb, slt_add_iff hb hc ha]
  constructor
  · rintro ⟨⟨⟨hab, hab'⟩, hac, hac'⟩, hbc, hbc'⟩
    exact ⟨⟨hab, hac, hbc⟩, hab', hac', hbc'⟩
  · rintro ⟨⟨hab, hac, hbc⟩, hab', hac', hbc'⟩
    exact ⟨⟨⟨hab, hab'⟩, hac, hac'⟩, hbc, hbc'⟩

variable {vList input : List CInt} {workers : Nat}

theorem side_pos (hpos : ∀ v ∈ vList, 0 < v.toInt) {i : Nat} (hi : i < vList.length) : 0 < side vList i := by
  unfold side value
  rw [Int.toNat_natCast, List.getD_eq_getElem _ _ hi]
  exact hpos _ (List.getElem_mem hi)

theorem mem_properTriangles {i j k : Nat} : (i, j, k) ∈ properTriangles vList ↔ i < j ∧ j < k ∧ k < vList.length ∧
    Proper (side vList i) (side vList j) (side vList k) := by
  simp only [properTriangles, Finset.mem_filter, Finset.mem_product, Finset.mem_range]
  constructor
  · rintro ⟨⟨-, -, hk⟩, hij, hjk, h⟩
    exact ⟨hij, hjk, hk, h⟩
  · rintro ⟨hij, hjk, hk, h⟩
    exact ⟨⟨by omega, by omega, hk⟩, hij, hjk, h⟩

/-- The sums of the sides of all triangles fit. -/
def AllFit (vList : List CInt) : Prop :=
  ∀ t ∈ properTriangles vList, SumsFit (side vList t.1) (side vList t.2.1) (side vList t.2.2)

instance (vList : List CInt) : Decidable (AllFit vList) := inferInstanceAs (Decidable (∀ t ∈ _, _))

theorem triangles_eq_filter (hpos : ∀ v ∈ vList, 0 < v.toInt) : triangles vList =
    (properTriangles vList).filter fun t => SumsFit (side vList t.1) (side vList t.2.1) (side vList t.2.2) := by
  ext ⟨i, j, k⟩
  rw [Finset.mem_filter, mem_triangles, mem_properTriangles]
  constructor
  · rintro ⟨hij, hjk, hk, h⟩
    obtain ⟨hproper, hfit⟩ := (checkTriangle_iff (side_pos hpos (by omega)) (side_pos hpos (by omega))
      (side_pos hpos hk)).mp h
    exact ⟨⟨hij, hjk, hk, hproper⟩, hfit⟩
  · rintro ⟨⟨hij, hjk, hk, hproper⟩, hfit⟩
    exact ⟨hij, hjk, hk, (checkTriangle_iff (side_pos hpos (by omega)) (side_pos hpos (by omega))
      (side_pos hpos hk)).mpr ⟨hproper, hfit⟩⟩

theorem card_eq_iff (hpos : ∀ v ∈ vList, 0 < v.toInt) :
    (triangles vList).card = (properTriangles vList).card ↔ AllFit vList := by
  rw [triangles_eq_filter hpos, Finset.card_filter_eq_iff]
  rfl

theorem card_le (hpos : ∀ v ∈ vList, 0 < v.toInt) : (triangles vList).card ≤ (properTriangles vList).card := by
  rw [triangles_eq_filter hpos]
  exact Finset.card_filter_le _ _

/-- A count that wraps is not the right one by accident. -/
theorem toInt_card_eq_iff (hpos : ∀ v ∈ vList, 0 < v.toInt) :
    ((triangles vList).card : CInt).toInt = (properTriangles vList).card ↔
      AllFit vList ∧ (properTriangles vList).card < 2 ^ 31 := by
  have hle := card_le hpos
  rw [← card_eq_iff hpos]
  constructor
  · intro h
    have hlt : (((triangles vList).card : CInt)).toInt < 2 ^ 31 := BitVec.toInt_lt
    have hfew : (triangles vList).card < 2 ^ 31 := by omega
    rw [toInt_natCast hfew] at h
    omega
  · rintro ⟨heq, hfew⟩
    rw [toInt_natCast (by omega), heq]

/-! ## The total -/

theorem total_foundBy {order : List Nat} (hw : 0 < workers) (horder : order.Perm (List.range workers)) :
    total (order.map fun wid : Nat => ((foundBy vList wid workers).length : CInt)) = (triangles vList).card := by
  rw [total_eq_sum, (horder.map _).sum_eq, ← sum_foundBy vList hw, Nat.cast_list_sum, List.map_map]
  rfl

theorem countTriangles_fits (hlen : vList.length < 2 ^ 31) (hw : 0 < workers)
    (hfit : vList.length + workers ≤ 2 ^ 31 + 2) (wid : Nat) :
    Returns (fun fuel => countTriangles fuel vList wid workers)
      ⟨(foundBy vList wid workers).length, foundBy vList wid workers⟩ := by
  have h : Returns (fun fuel => countTriangles fuel vList wid workers)
      (Tally.start.add (foundBy vList wid workers)) :=
    countTriangles_returns (by omega) (by omega) hlen (by omega)
  simpa [Tally.add, Tally.start] using h

theorem countTriangles_wraps (hlen : vList.length ≤ maxRead) (hw : 0 < workers) (hint : workers < 2 ^ 31)
    (hwrap : 2 ^ 31 + 2 < vList.length + workers) :
    ∃ wid < workers, ∀ fuel, countTriangles fuel vList wid workers = none := by
  unfold maxRead at hlen
  refine ⟨(vList.length - 3) % workers, Nat.mod_lt _ hw, fun fuel => ?_⟩
  have hle : (vList.length - 3) % workers ≤ vList.length - 3 := Nat.mod_le _ _
  have hdvd : workers ∣ vList.length - 3 - (vList.length - 3) % workers := Nat.dvd_sub_mod _
  unfold countTriangles
  refine forLoop_eq_none_of_wraps (by omega) (by omega) (by omega) (by omega) (fun i hi hi' s => ?_) fuel (by omega)
    (by omega) ?_ _
  · have hoff : ¬ Inside vList i := fun h => absurd h.1 (not_le.mpr hi)
    rw [int32_of_fits (by omega) (by omega)]
    refine forLoop_eq_none (by omega) (fun s => ?_) fuel s
    rw [int32_of_fits (by omega) (by omega)]
    refine forLoop_eq_none (by omega) (fun s => ?_) fuel s
    exact if_neg fun h => hoff h.1
  · have hdvd' : (workers : Int) ∣ ((vList.length - 3 - (vList.length - 3) % workers : Nat) : Int) :=
      Int.natCast_dvd_natCast.mpr hdvd
    have heq : ((vList.length - 3 - (vList.length - 3) % workers : Nat) : Int) =
        (vList.length : Int) - 2 - 1 - ((vList.length - 3) % workers : Nat) := by omega
    rwa [heq] at hdvd'

/-- The list can be read, no index and no sum of two sides wraps, and the number fits. -/
structure Exact (input : List CInt) (workers : Nat) : Prop where
  read : input.length ≤ maxRead
  steps : input.length + workers ≤ 2 ^ 31 + 2
  sums : AllFit input
  few : (properTriangles input).card < 2 ^ 31

theorem returns_iff {f : Nat → Option Int} (hpos : ∀ v ∈ input, 0 < v.toInt)
    (hlong : ¬ input.length ≤ maxRead → ∀ fuel, f fuel = none)
    (hwrap : input.length ≤ maxRead → 2 ^ 31 + 2 < input.length + workers → ∀ fuel, f fuel = none)
    (hfits : input.length ≤ maxRead → input.length + workers ≤ 2 ^ 31 + 2 →
      Returns f ((triangles input).card : CInt).toInt) :
    Returns f (properTriangles input).card ↔ Exact input workers := by
  by_cases hread : input.length ≤ maxRead
  · by_cases hsteps : input.length + workers ≤ 2 ^ 31 + 2
    · have hreturns := hfits hread hsteps
      constructor
      · intro h
        obtain ⟨hsums, hfew⟩ := (toInt_card_eq_iff hpos).mp (hreturns.unique h)
        exact ⟨hread, hsteps, hsums, hfew⟩
      · intro h
        rw [← (toInt_card_eq_iff hpos).mpr ⟨h.sums, h.few⟩]
        exact hreturns
    · have hnone : f = fun _ => none := funext (hwrap hread (not_le.mp hsteps))
      rw [hnone]
      exact ⟨fun h => absurd h (not_returns_none _), fun h => absurd h.steps hsteps⟩
  · have hnone : f = fun _ => none := funext (hlong hread)
    rw [hnone]
    exact ⟨fun h => absurd h (not_returns_none _), fun h => absurd h.read hread⟩

theorem process_returns {order : List Nat} (hw : 0 < workers) (horder : order.Perm (List.range workers))
    (hread : input.length ≤ maxRead) (hsteps : input.length + workers ≤ 2 ^ 31 + 2) :
    Returns (fun fuel => Process.mainTotal fuel input workers order) ((triangles input).card : CInt).toInt := by
  have hlen : input.length < 2 ^ 31 := hread.trans_lt (by decide)
  have hcounts := Returns.mapM (l := order) fun wid _ => (countTriangles_fits hlen hw hsteps wid).map Tally.count
  unfold Process.mainTotal
  simp only [readList_eq, if_pos hread, Option.bind_some]
  rw [← total_foundBy hw horder]
  exact hcounts.map fun counts => (total counts).toInt

theorem thread_returns (hw : 0 < workers) (hread : input.length ≤ maxRead)
    (hsteps : input.length + workers ≤ 2 ^ 31 + 2) :
    Returns (fun fuel => Thread.mainTotal fuel input workers) ((triangles input).card : CInt).toInt := by
  have hlen : input.length < 2 ^ 31 := hread.trans_lt (by decide)
  have hcounts := Returns.mapM (l := List.range workers) fun wid _ =>
    (countTriangles_fits hlen hw hsteps wid).map fun t => { Thread.threadArgs workers wid with localCount := t.count }
  unfold Thread.mainTotal
  simp only [readList_eq, if_pos hread, Option.bind_some]
  rw [← total_foundBy hw (List.Perm.refl _)]
  have htotal := hcounts.map fun tArgs => (total (tArgs.map Thread.ThreadInfo.localCount)).toInt
  rw [List.map_map] at htotal
  exact htotal

theorem process_wraps {order : List Nat} (hw : 0 < workers) (hint : workers < 2 ^ 31)
    (horder : order.Perm (List.range workers)) (hread : input.length ≤ maxRead)
    (hwrap : 2 ^ 31 + 2 < input.length + workers) (fuel : Nat) :
    Process.mainTotal fuel input workers order = none := by
  obtain ⟨wid, hwid, hnone⟩ := countTriangles_wraps hread hw hint hwrap
  have hmem : wid ∈ order := horder.mem_iff.mpr (List.mem_range.mpr hwid)
  unfold Process.mainTotal
  rw [readList_eq, if_pos hread, Option.bind_some, mapM_eq_none hmem, Option.map_none]
  rw [Process.findTriangles, hnone, Option.map_none]

theorem thread_wraps (hw : 0 < workers) (hint : workers < 2 ^ 31) (hread : input.length ≤ maxRead)
    (hwrap : 2 ^ 31 + 2 < input.length + workers) (fuel : Nat) : Thread.mainTotal fuel input workers = none := by
  obtain ⟨wid, hwid, hnone⟩ := countTriangles_wraps hread hw hint hwrap
  unfold Thread.mainTotal
  rw [readList_eq, if_pos hread, Option.bind_some, mapM_eq_none (List.mem_range.mpr hwid), Option.map_none]
  exact (congrArg (Option.map _) (hnone fuel)).trans (Option.map_none _)

/-- **When the total is the mathematical one.** For a list of positive values, both programs print the number of
triangles over the integers exactly when the list can be read, no index and no sum of two sides of a triangle
wraps, and the number is a C `int`. -/
theorem total_exact_iff (hpos : ∀ v ∈ input, 0 < v.toInt) (hw : 0 < workers) (hint : workers < 2 ^ 31) :
    (∀ order : List Nat, order.Perm (List.range workers) →
      (Returns (fun fuel => Process.mainTotal fuel input workers order) (properTriangles input).card ↔
        Exact input workers)) ∧
      (Returns (fun fuel => Thread.mainTotal fuel input workers) (properTriangles input).card ↔
        Exact input workers) := by
  constructor
  · intro order horder
    refine returns_iff hpos (fun hlong fuel => ?_) (process_wraps hw hint horder) (process_returns hw horder)
    unfold Process.mainTotal
    rw [readList_eq, if_neg hlong, Option.bind_none]
  · refine returns_iff hpos (fun hlong fuel => ?_) (thread_wraps hw hint) (thread_returns hw)
    unfold Thread.mainTotal
    rw [readList_eq, if_neg hlong, Option.bind_none]

theorem pos_of_all (h : (vList.all fun v => 0 < v.toInt) = true) : ∀ v ∈ vList, 0 < v.toInt := by
  simpa using h

theorem total_exact_sample : Returns (fun fuel => Thread.mainTotal fuel [3, 4, 5] 2) 1 := by
  have h := (@total_exact_iff [3, 4, 5] 2 (pos_of_all (by decide)) (by omega) (by omega)).2
  have hcard : (properTriangles [3, 4, 5]).card = 1 := by decide +kernel
  have hexact : Exact [3, 4, 5] 2 := {
    read := by simp [maxRead]
    steps := by simp
    sums := by decide +kernel
    few := by rw [hcard]; norm_num }
  rw [hcard] at h
  exact h.mpr hexact

/-- `2147483647 2147483647 1` -/
def wideTriangle : List CInt := [0x7fffffff, 0x7fffffff, 1]

/-- The sum of the long sides is -2. -/
theorem total_misses_wide : ¬ ∀ (input : List CInt) (workers : Nat), (∀ v ∈ input, 0 < v.toInt) → 0 < workers →
    workers < 2 ^ 31 →
      (∀ order : List Nat, order.Perm (List.range workers) →
        Returns (fun fuel => Process.mainTotal fuel input workers order) (properTriangles input).card) ∧
      Returns (fun fuel => Thread.mainTotal fuel input workers) (properTriangles input).card := by
  intro h
  have hone := (h wideTriangle 1 (pos_of_all (by decide)) (by omega) (by omega)).2
  have hzero : Returns (fun fuel => Thread.mainTotal fuel wideTriangle 1)
      ((triangles wideTriangle).card : CInt).toInt :=
    thread_returns (by omega) (by simp [wideTriangle, maxRead]) (by simp [wideTriangle])
  have hcode : (triangles wideTriangle).card = 0 := by decide +kernel
  have hproper : (properTriangles wideTriangle).card = 1 := by decide +kernel
  rw [hcode] at hzero
  rw [hproper] at hone
  cases hzero.unique hone

end OsCoursework.Triangles
