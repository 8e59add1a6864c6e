import OsCoursework.Triangles.Code

/-!
# All counters agree

A worker counts the triangles whose first index is its own modulo the number of workers,
a kernel thread those whose last index is its own. Either way every triangle is counted once.
-/

open OsCoursework.ForLoop OsCoursework.Fuel

namespace OsCoursework.Triangles

variable {vList : List CInt}

/-! ## The number of triangles -/

theorem triangles_card_le (vList : List CInt) : (triangles vList).card ≤ vList.length.choose 3 := by
  have hmaps : ∀ t ∈ triangles vList, {t.1, t.2.1, t.2.2} ∈ (Finset.range vList.length).powersetCard 3 := by
    rintro ⟨i, j, k⟩ h
    obtain ⟨hij, hjk, hk, -⟩ := mem_triangles.mp h
    rw [Finset.mem_powersetCard]
    refine ⟨?_, Finset.card_eq_three.mpr ⟨i, j, k, by omega, by omega, by omega, rfl⟩⟩
    intro x
    simp only [Finset.mem_insert, Finset.mem_singleton, Finset.mem_range]
    omega
  have hinj : ∀ t ∈ triangles vList, ∀ u ∈ triangles vList,
      ({t.1, t.2.1, t.2.2} : Finset Nat) = {u.1, u.2.1, u.2.2} → t = u := by
    rintro ⟨i, j, k⟩ h ⟨i', j', k'⟩ h' heq
    obtain ⟨hij, hjk, -, -⟩ := mem_triangles.mp h
    obtain ⟨hij', hjk', -, -⟩ := mem_triangles.mp h'
    have hmem : ∀ x, (x = i ∨ x = j ∨ x = k) ↔ (x = i' ∨ x = j' ∨ x = k') := by
      intro x
      simpa using congrArg (x ∈ ·) heq
    have hi : i = i' := by
      have := (hmem i).mp (by simp)
      have := (hmem i').mpr (by simp)
      omega
    have hk : k = k' := by
      have := (hmem k).mp (by simp)
      have := (hmem k').mpr (by simp)
      omega
    have hj : j = j' := by
      have := (hmem j).mp (by simp)
      omega
    rw [hi, hj, hk]
  exact (Finset.card_le_card_of_injOn _ hmaps hinj).trans_eq (by simp)

theorem choose_three (n : Nat) : n.choose 3 = n * (n - 1) * (n - 2) / 6 := by
  rw [Nat.choose_eq_descFactorial_div_factorial]
  congr 1
  simp only [Nat.descFactorial, Nat.sub_zero]
  ring

/-! ## Tallies -/

def Tally.add (s : Tally) (l : List (Nat × Nat × Nat)) : Tally := ⟨s.count + l.length, s.found ++ l⟩

@[simp] theorem Tally.add_nil (s : Tally) : s.add [] = s := by
  simp [Tally.add]

theorem Tally.add_add (s : Tally) (l m : List (Nat × Nat × Nat)) : (s.add l).add m = s.add (l ++ m) := by
  simp [Tally.add, add_assoc]

theorem foldl_add {α : Type} (f : α → List (Nat × Nat × Nat)) (l : List α) (s : Tally) :
    l.foldl (fun s a => s.add (f a)) s = s.add (l.flatMap f) := by
  induction l generalizing s with
  | nil => simp
  | cons a l ih => rw [List.foldl_cons, ih, Tally.add_add, List.flatMap_cons]

def foundAt (vList : List CInt) (i j k : Int) : List (Nat × Nat × Nat) :=
  if checkTriangle (value vList i) (value vList j) (value vList k) then [(i.toNat, j.toNat, k.toNat)] else []

theorem tally_eq {i j k : Int} (hi : 0 ≤ i) (hij : i < j) (hjk : j < k) (hk : k < vList.length) (s : Tally) :
    tally vList i j k s = some (s.add (foundAt vList i j k)) := by
  have hinside : Inside vList i ∧ Inside vList j ∧ Inside vList k :=
    ⟨⟨hi, by omega⟩, ⟨by omega, by omega⟩, by omega, hk⟩
  unfold tally foundAt
  rw [if_pos hinside]
  split_ifs
  · rfl
  · rw [Tally.add_nil]

/-! ## The workers -/

/-- What worker `wid` finds. -/
def foundBy (vList : List CInt) (wid workers : Int) : List (Nat × Nat × Nat) :=
  (indices wid (vList.length - 2) workers).flatMap fun i =>
    (indices (i + 1) (vList.length - 1) 1).flatMap fun j =>
      (indices (j + 1) vList.length 1).flatMap fun k => foundAt vList i j k

theorem countTriangles_returns {wid workers : Int} (h0 : 0 ≤ wid) (hw : 0 < workers)
    (hlen : vList.length < 2 ^ 31) (hfit : vList.length - 2 + workers ≤ 2 ^ 31) :
    Returns (fun fuel => countTriangles fuel vList wid workers)
      (Tally.start.add (foundBy vList wid workers)) := by
  unfold countTriangles foundBy
  rw [← foldl_add]
  refine forLoop_returns hw (by omega) (by omega) (fun i hi hin s => ?_) _
  rw [int32_of_fits (by omega) (by omega), ← foldl_add]
  refine forLoop_returns one_pos (by omega) (by omega) (fun j hj hjn s => ?_) _
  rw [int32_of_fits (by omega) (by omega), ← foldl_add]
  refine forLoop_returns one_pos (by omega) (by omega) (fun k hk hkn s => ?_) _
  rw [tally_eq (by omega) (by omega) (by omega) hkn]
  exact (returns_some _ _).mpr rfl

theorem mem_foundAt {x y z i j k : Nat} : (i, j, k) ∈ foundAt vList x y z ↔
    checkTriangle (value vList i) (value vList j) (value vList k) = true ∧ i = x ∧ j = y ∧ k = z := by
  unfold foundAt
  split_ifs with h
  · simp only [Int.toNat_natCast, List.mem_singleton, Prod.mk.injEq]
    exact ⟨fun ⟨hi, hj, hk⟩ => by subst hi hj hk; exact ⟨h, rfl, rfl, rfl⟩, fun h => h.2⟩
  · simp only [List.not_mem_nil, false_iff, not_and]
    rintro hcheck rfl rfl rfl
    exact h hcheck

theorem mem_foundBy {wid workers : Int} (h0 : 0 ≤ wid) (hw : 0 < workers) {i j k : Nat} :
    (i, j, k) ∈ foundBy vList wid workers ↔ (i, j, k) ∈ triangles vList ∧ wid ≤ i ∧ workers ∣ i - wid := by
  simp only [foundBy, List.mem_flatMap, mem_indices hw, mem_indices one_pos, mem_triangles]
  constructor
  · rintro ⟨x, ⟨hx, -, hdvd⟩, y, ⟨hy, -, -⟩, z, ⟨hz, hzn, -⟩, h⟩
    lift x to Nat using by omega
    lift y to Nat using by omega
    lift z to Nat using by omega
    obtain ⟨hcheck, rfl, rfl, rfl⟩ := mem_foundAt.mp h
    exact ⟨⟨by omega, by omega, by omega, hcheck⟩, hx, hdvd⟩
  · rintro ⟨⟨hij, hjk, hk, hcheck⟩, hi, hdvd⟩
    exact ⟨i, ⟨hi, by omega, hdvd⟩, j, ⟨by omega, by omega, one_dvd _⟩, k, ⟨by omega, by omega, one_dvd _⟩,
      mem_foundAt.mpr ⟨hcheck, rfl, rfl, rfl⟩⟩

theorem nodup_foundAt (i j k : Int) : (foundAt vList i j k).Nodup := by
  unfold foundAt
  split_ifs <;> simp

theorem nodup_rounds {lo hi step : Int} {f : Int → List (Nat × Nat × Nat)} (hs : 0 < step)
    (place : Nat × Nat × Nat → Nat) (hf : ∀ i, lo ≤ i → (f i).Nodup)
    (hplace : ∀ i, lo ≤ i → ∀ t ∈ f i, place t = i) : ((indices lo hi step).flatMap f).Nodup := by
  rw [List.nodup_flatMap]
  refine ⟨fun i hi => hf i ((mem_indices hs).mp hi).1, ?_⟩
  refine (nodup_indices hs).imp_of_mem fun {i i'} hi hi' hne => ?_
  intro t ht ht'
  have h1 := hplace i ((mem_indices hs).mp hi).1 t ht
  have h2 := hplace i' ((mem_indices hs).mp hi').1 t ht'
  exact hne (h1.symm.trans h2)

theorem foundAt_places {i j k : Int} (hi : 0 ≤ i) (hj : 0 ≤ j) (hk : 0 ≤ k) :
    ∀ t ∈ foundAt vList i j k, (t.1 : Int) = i ∧ (t.2.1 : Int) = j ∧ (t.2.2 : Int) = k := by
  intro t ht
  unfold foundAt at ht
  split_ifs at ht
  · obtain rfl := List.mem_singleton.mp ht
    simp [hi, hj, hk]
  · cases ht

theorem nodup_foundBy {wid workers : Int} (h0 : 0 ≤ wid) (hw : 0 < workers) :
    (foundBy vList wid workers).Nodup := by
  refine nodup_rounds hw (fun t => t.1) (fun i hi => ?_) (fun i hi t ht => ?_)
  · refine nodup_rounds one_pos (fun t => t.2.1) (fun j hj => ?_) (fun j hj t ht => ?_)
    · refine nodup_rounds one_pos (fun t => t.2.2) (fun k _ => nodup_foundAt i j k) (fun k hk t ht => ?_)
      exact (foundAt_places (by omega) (by omega) (by omega) t ht).2.2
    · obtain ⟨k, hk, ht⟩ := List.mem_flatMap.mp ht
      have hjk := (mem_indices one_pos).mp hk
      exact (foundAt_places (by omega) (by omega) (by omega) t ht).2.1
  · obtain ⟨j, hj, ht⟩ := List.mem_flatMap.mp ht
    obtain ⟨k, hk, ht⟩ := List.mem_flatMap.mp ht
    have hij := (mem_indices one_pos).mp hj
    have hjk := (mem_indices one_pos).mp hk
    exact (foundAt_places (by omega) (by omega) (by omega) t ht).1

/-! ## The kernel threads -/

/-- What the thread for `idx` finds. -/
def foundLast (vList : List CInt) (idx : Int) : List (Nat × Nat × Nat) :=
  (indices 0 (idx - 1) 1).flatMap fun i => (indices (i + 1) idx 1).flatMap fun j => foundAt vList i j idx

theorem mem_foundLast {idx i j k : Nat} (hidx : idx < vList.length) :
    (i, j, k) ∈ foundLast vList idx ↔ (i, j, k) ∈ triangles vList ∧ k = idx := by
  simp only [foundLast, List.mem_flatMap, mem_indices one_pos, mem_triangles]
  constructor
  · rintro ⟨x, ⟨hx, -, -⟩, y, ⟨hy, hyn, -⟩, h⟩
    have hy0 : 0 ≤ y := by omega
    lift x to Nat using hx
    lift y to Nat using hy0
    obtain ⟨hcheck, rfl, rfl, rfl⟩ := mem_foundAt.mp h
    exact ⟨⟨by omega, by omega, hidx, hcheck⟩, rfl⟩
  · rintro ⟨⟨hij, hjk, hk, hcheck⟩, rfl⟩
    exact ⟨i, ⟨by omega, by omega, one_dvd _⟩, j, ⟨by omega, by omega, one_dvd _⟩,
      mem_foundAt.mpr ⟨hcheck, rfl, rfl, rfl⟩⟩

theorem nodup_foundLast {idx : Int} (h0 : 0 ≤ idx) : (foundLast vList idx).Nodup := by
  refine nodup_rounds one_pos (fun t => t.1) (fun i hi => ?_) (fun i hi t ht => ?_)
  · refine nodup_rounds one_pos (fun t => t.2.1) (fun j _ => nodup_foundAt i j idx) (fun j hj t ht => ?_)
    exact (foundAt_places (by omega) (by omega) (by omega) t ht).2.1
  · obtain ⟨j, hj, ht⟩ := List.mem_flatMap.mp ht
    have hij := (mem_indices one_pos).mp hj
    exact (foundAt_places (by omega) (by omega) (by omega) t ht).1

/-! ## The parts and the whole -/

theorem mod_eq_iff {i wid workers : Nat} (hwid : wid < workers) :
    (wid : Int) ≤ i ∧ (workers : Int) ∣ i - wid ↔ i % workers = wid := by
  constructor
  · rintro ⟨hle, hdvd⟩
    have hle' : wid ≤ i := by omega
    rw [← Nat.cast_sub hle', Int.natCast_dvd_natCast] at hdvd
    rw [← Nat.mod_eq_of_lt hwid]
    exact ((Nat.modEq_iff_dvd' hle').mpr hdvd).symm
  · rintro rfl
    have hdiv : ((i % workers : Nat) : Int) + workers * (i / workers : Nat) = i := by
      exact_mod_cast Nat.mod_add_div i workers
    exact ⟨by exact_mod_cast Nat.mod_le i workers, ⟨(i / workers : Nat), by omega⟩⟩

theorem foundBy_card {workers : Nat} (hw : 0 < workers) {wid : Nat} (hwid : wid < workers) :
    (foundBy vList wid workers).length = ((triangles vList).filter fun t => t.1 % workers = wid).card := by
  rw [← List.toFinset_card_of_nodup (nodup_foundBy (by omega) (by omega))]
  congr 1
  ext ⟨i, j, k⟩
  rw [List.mem_toFinset, mem_foundBy (by omega) (by omega), Finset.mem_filter]
  exact and_congr_right fun _ => mod_eq_iff hwid

theorem foundLast_card {idx : Nat} (hidx : idx < vList.length) :
    (foundLast vList idx).length = ((triangles vList).filter fun t => t.2.2 = idx).card := by
  rw [← List.toFinset_card_of_nodup (nodup_foundLast (by omega))]
  congr 1
  ext ⟨i, j, k⟩
  rw [List.mem_toFinset, mem_foundLast hidx, Finset.mem_filter]

theorem sum_foundBy (vList : List CInt) {workers : Nat} (hw : 0 < workers) :
    ((List.range workers).map fun wid : Nat => (foundBy vList wid workers).length).sum = (triangles vList).card := by
  rw [Finset.card_eq_sum_card_fiberwise (f := fun t => t.1 % workers) (t := Finset.range workers)
    fun t _ => Finset.mem_coe.mpr (Finset.mem_range.mpr (Nat.mod_lt _ hw)), Finset.sum_eq_multiset_sum,
    Finset.range_val, Multiset.range, Multiset.map_coe, Multiset.sum_coe]
  congr 1
  exact List.map_congr_left fun wid hwid => foundBy_card hw (List.mem_range.mp hwid)

theorem sum_foundLast (vList : List CInt) :
    ((List.range vList.length).map fun idx : Nat => (foundLast vList idx).length).sum = (triangles vList).card := by
  rw [Finset.card_eq_sum_card_fiberwise (f := fun t => t.2.2) (t := Finset.range vList.length)
    fun t ht => Finset.mem_coe.mpr (Finset.mem_range.mpr (mem_triangles.mp ht).2.2.1), Finset.sum_eq_multiset_sum,
    Finset.range_val, Multiset.range, Multiset.map_coe, Multiset.sum_coe]
  congr 1
  exact List.map_congr_left fun idx hidx => foundLast_card (List.mem_range.mp hidx)

/-! ## Totals -/

theorem total_eq_sum (counts : List CInt) : total counts = counts.sum := by
  rw [total, List.sum_eq_foldl]

theorem total_toInt {counts : List CInt} {lengths : List Nat} (hperm : counts.Perm (lengths.map Nat.cast))
    (hfit : lengths.sum < 2 ^ 31) : (total counts).toInt = lengths.sum := by
  have hsum : total counts = (lengths.sum : CInt) := by
    rw [total_eq_sum, hperm.sum_eq, Nat.cast_list_sum]
  rw [hsum, BitVec.natCast_eq_ofNat, BitVec.toInt_ofNat', Int.bmod_eq_of_le (by omega) (by omega)]

/-! ## The launch -/

section Launch

open Cuda

def store (vList : List CInt) (results : List CInt) (t : Int × Int) : List CInt :=
  if 100 * t.1 + t.2 ≥ vList.length then results
  else results.set (100 * t.1 + t.2).toNat (foundLast vList (100 * t.1 + t.2)).length

theorem checkValid_returns {t : Int × Int} (h0 : 0 ≤ 100 * t.1 + t.2) (hfit : 100 * t.1 + t.2 < 2 ^ 31)
    (results : List CInt) :
    Returns (fun fuel => checkValid fuel vList threadsPerBlock t.1 t.2 results) (store vList results t) := by
  unfold checkValid store threadsPerBlock
  simp only [int32_of_fits (by omega : -2 ^ 31 ≤ 100 * t.1 + t.2) hfit]
  generalize 100 * t.1 + t.2 = idx at h0 hfit
  split_ifs with hidx
  · exact (returns_some _ _).mpr rfl
  · have hloop : Returns (fun fuel => forLoop (idx - 1) 1 (fun i => forLoop idx 1 (fun j s =>
        tally vList i j idx s) fuel (int32 (i + 1))) fuel 0 Tally.start)
        (Tally.start.add (foundLast vList idx)) := by
      unfold foundLast
      rw [← foldl_add]
      refine forLoop_returns one_pos (by omega) (by omega) (fun i hi hin s => ?_) _
      rw [int32_of_fits (by omega) (by omega), ← foldl_add]
      refine forLoop_returns one_pos (by omega) (by omega) (fun j hj hjn s => ?_) _
      rw [tally_eq (by omega) (by omega) (by omega) (by omega)]
      exact (returns_some _ _).mpr rfl
    have hslot := hloop.map fun t => results.set idx.toNat t.count
    simpa [Tally.add, Tally.start] using hslot

theorem length_store (results : List CInt) (t : Int × Int) : (store vList results t).length = results.length := by
  unfold store
  split_ifs
  · rfl
  · exact List.length_set

theorem length_stores (order : List (Int × Int)) (results : List CInt) :
    (order.foldl (store vList) results).length = results.length := by
  induction order generalizing results with
  | nil => rfl
  | cons t order ih => rw [List.foldl_cons, ih, length_store]

theorem getElem?_stores {order : List (Int × Int)} {idx : Nat} (hidx : idx < vList.length)
    (hpos : ∀ t ∈ order, 0 ≤ 100 * t.1 + t.2) (results : List CInt) (hlen : results.length = vList.length)
    (h : results[idx]? = some ((foundLast vList idx).length : CInt) ∨ ∃ t ∈ order, 100 * t.1 + t.2 = idx) :
    (order.foldl (store vList) results)[idx]? = some ((foundLast vList idx).length : CInt) := by
  induction order generalizing results with
  | nil => simpa using h
  | cons t order ih =>
    have ht0 := hpos t List.mem_cons_self
    rw [List.foldl_cons]
    refine ih (fun u hu => hpos u (List.mem_cons_of_mem t hu)) _ ((length_store _ _).trans hlen) ?_
    by_cases ht : 100 * t.1 + t.2 = idx
    · left
      have hin : ¬ (idx : Int) ≥ vList.length := by omega
      simp [store, ht, hin, hlen, hidx]
    · rcases h with h | ⟨u, hu, hu'⟩
      · left
        unfold store
        split_ifs with hge
        · exact h
        · rw [List.getElem?_set_ne (by omega), h]
      · right
        rcases List.mem_cons.mp hu with rfl | hu
        · exact absurd hu' ht
        · exact ⟨u, hu, hu'⟩

theorem stores_eq {order : List (Int × Int)} (hpos : ∀ t ∈ order, 0 ≤ 100 * t.1 + t.2)
    (hall : ∀ idx : Nat, idx < vList.length → ∃ t ∈ order, 100 * t.1 + t.2 = idx) :
    order.foldl (store vList) (List.replicate vList.length 0) =
      ((List.range vList.length).map fun idx : Nat => (foundLast vList idx).length).map Nat.cast := by
  refine List.ext_getElem? fun idx => ?_
  by_cases hidx : idx < vList.length
  · rw [getElem?_stores hidx hpos _ List.length_replicate (Or.inr (hall idx hidx))]
    simp [List.getElem?_range hidx]
  · rw [List.getElem?_eq_none, List.getElem?_eq_none]
    · simpa using hidx
    · simpa [length_stores] using hidx

theorem mem_grid {t : Int × Int} :
    t ∈ grid vList ↔ (0 ≤ t.1 ∧ t.1 < blocksPerGrid vList) ∧ 0 ≤ t.2 ∧ t.2 < 100 := by
  obtain ⟨block, thread⟩ := t
  simp [grid, threadsPerBlock, mem_indices one_pos]

theorem blocksPerGrid_eq (hfit : vList.length + 100 ≤ 2 ^ 31) :
    blocksPerGrid vList = ((vList.length : Int) + 99) / 100 := by
  unfold blocksPerGrid threadsPerBlock
  rw [int32_of_fits (by omega) (by omega), Int.tdiv_eq_ediv_of_nonneg (by omega)]
  congr 1
  omega

theorem launch_returns {order : List (Int × Int)} (horder : order.Perm (grid vList))
    (hfit : vList.length + 100 ≤ 2 ^ 31) :
    Returns (fun fuel => launch fuel vList order)
      (((List.range vList.length).map fun idx : Nat => (foundLast vList idx).length).map Nat.cast) := by
  have hblocks := blocksPerGrid_eq hfit
  have hmem : ∀ t, t ∈ order ↔ (0 ≤ t.1 ∧ t.1 < blocksPerGrid vList) ∧ 0 ≤ t.2 ∧ t.2 < 100 :=
    fun t => horder.mem_iff.trans mem_grid
  have hpos : ∀ t ∈ order, 0 ≤ 100 * t.1 + t.2 := by
    intro t ht
    have := (hmem t).mp ht
    omega
  have hall : ∀ idx : Nat, idx < vList.length → ∃ t ∈ order, 100 * t.1 + t.2 = idx := by
    intro idx hidx
    refine ⟨(idx / 100, idx % 100), (hmem _).mpr ?_, ?_⟩
    · dsimp only
      omega
    · dsimp only
      omega
  rw [← stores_eq hpos hall]
  refine Returns.foldlM (fun t ht results => ?_) _
  have := (hmem t).mp ht
  exact checkValid_returns (by omega) (by omega) results

end Launch

/-! ## Agreement -/

theorem forall₂_map {α β : Type} {r : α → β → Prop} {f : α → β} {l : List α} (h : ∀ a ∈ l, r a (f a)) :
    l.Forall₂ r (l.map f) := by
  induction l with
  | nil => exact List.Forall₂.nil
  | cons a l ih => exact (ih fun b hb => h b (List.mem_cons_of_mem a hb)).cons (h a List.mem_cons_self)

theorem length_fits {n : Nat} (h : n * (n - 1) * (n - 2) / 6 < 2 ^ 31) : n + 100 ≤ 2 ^ 31 := by
  by_contra hn
  have h1 : 2 ^ 20 * 2 ^ 20 ≤ n * (n - 1) := Nat.mul_le_mul (by omega) (by omega)
  have h2 : 2 ^ 20 * 2 ^ 20 * 2 ^ 20 ≤ n * (n - 1) * (n - 2) := Nat.mul_le_mul h1 (by omega)
  omega

/-- **The processes, the threads and the kernel count every triangle once.** -/
theorem counters_agree (vList : List CInt) (workers : Nat)
    (hcount : vList.length * (vList.length - 1) * (vList.length - 2) / 6 < 2 ^ 31) (hw : 0 < workers)
    (hfit : vList.length + workers < 2 ^ 31) :
    (∃ part : Nat → List (Nat × Nat × Nat),
      (∀ wid < workers, (part wid).Nodup ∧ (∀ t ∈ part wid, t ∈ triangles vList) ∧
        Returns (fun fuel => countTriangles fuel vList wid workers) ⟨(part wid).length, part wid⟩) ∧
      ∀ t ∈ triangles vList, ∃! wid, wid < workers ∧ t ∈ part wid) ∧
    (∀ order : List Nat, order.Perm (List.range workers) → ∃ counts : List CInt,
      order.Forall₂ (fun (wid : Nat) count => Returns (fun fuel => Process.findTriangles fuel vList wid workers) count)
        counts ∧
      (total counts).toInt = (triangles vList).card) ∧
    (∃ tArgs : List Thread.ThreadInfo,
      (List.range workers).Forall₂ (fun (wid : Nat) info =>
        Returns (fun fuel => Thread.findTriangles fuel vList (Thread.threadArgs workers wid)) info) tArgs ∧
      (total (tArgs.map Thread.ThreadInfo.localCount)).toInt = (triangles vList).card) ∧
    (0 < vList.length → ∀ order : List (Int × Int), order.Perm (Cuda.grid vList) → ∃ results : List CInt,
      Returns (fun fuel => Cuda.launch fuel vList order) results ∧ results.length = vList.length ∧
      (total results).toInt = (triangles vList).card) := by
  have hcard : (triangles vList).card < 2 ^ 31 :=
    (triangles_card_le vList).trans_lt ((choose_three _).trans_lt hcount)
  have hsum := sum_foundBy vList hw
  have hrun : ∀ wid : Nat, Returns (fun fuel => countTriangles fuel vList wid workers)
      ⟨(foundBy vList wid workers).length, foundBy vList wid workers⟩ := by
    intro wid
    have h : Returns (fun fuel => countTriangles fuel vList wid workers)
        (Tally.start.add (foundBy vList wid workers)) :=
      countTriangles_returns (by omega) (by omega) (by omega) (by omega)
    simpa [Tally.add, Tally.start] using h
  refine ⟨⟨fun wid => foundBy vList wid workers, fun wid _ => ⟨?_, ?_, hrun wid⟩, ?_⟩, ?_, ?_, ?_⟩
  · exact nodup_foundBy (by omega) (by omega)
  · rintro ⟨i, j, k⟩ ht
    exact ((mem_foundBy (by omega) (by omega)).mp ht).1
  · rintro ⟨i, j, k⟩ ht
    refine ⟨i % workers, ⟨Nat.mod_lt _ hw, ?_⟩, ?_⟩
    · exact (mem_foundBy (by omega) (by omega)).mpr ⟨ht, (mod_eq_iff (Nat.mod_lt _ hw)).mpr rfl⟩
    · rintro wid ⟨hwid, ht'⟩
      exact ((mod_eq_iff hwid).mp ((mem_foundBy (by omega) (by omega)).mp ht').2).symm
  · intro order horder
    refine ⟨order.map fun wid : Nat => ((foundBy vList wid workers).length : CInt), ?_, ?_⟩
    · exact forall₂_map fun wid _ => (hrun wid).map Tally.count
    · rw [← hsum]
      refine total_toInt ?_ (hsum.trans_lt hcard)
      rw [List.map_map]
      exact horder.map _
  · refine ⟨(List.range workers).map fun wid : Nat =>
      { Thread.threadArgs workers wid with localCount := (foundBy vList wid workers).length }, ?_, ?_⟩
    · refine forall₂_map fun wid _ => ?_
      exact (hrun wid).map fun t => { Thread.threadArgs workers wid with localCount := t.count }
    · rw [← hsum]
      refine total_toInt ?_ (hsum.trans_lt hcard)
      rw [List.map_map, List.map_map]
      rfl
  · intro _ order horder
    refine ⟨_, launch_returns horder (length_fits hcount), by simp, ?_⟩
    rw [← sum_foundLast]
    exact total_toInt (List.Perm.refl _) ((sum_foundLast vList).trans_lt hcard)

theorem counters_agree_three : ∃ counts : List CInt,
    [4, 0, 2, 1, 3].Forall₂ (fun (wid : Nat) count =>
      Returns (fun fuel => Process.findTriangles fuel [4, 3, 5] wid 5) count) counts ∧
    (total counts).toInt = 1 := by
  have h := counters_agree [4, 3, 5] 5 (by decide) (by decide) (by decide)
  have hcard : (triangles [4, 3, 5]).card = 1 := by decide
  rw [hcard] at h
  exact h.2.1 [4, 0, 2, 1, 3] (by decide)

end OsCoursework.Triangles
