import Mathlib

/-!
# Runs

A list of half-open intervals from left to right, with a gap after each. There is only one
such list for a set: it has one interval for each order-connected component of the set.
-/

namespace OsCoursework.Runs

variable {α : Type*} [LinearOrder α] {l l' : List (α × α)} {r r' : α × α}

/-- No interval is empty, and there is a gap after each. -/
structure Separated (l : List (α × α)) : Prop where
  nonempty : ∀ r ∈ l, r.1 < r.2
  gap : l.Pairwise fun r r' => r.2 < r'.1

def cover (l : List (α × α)) : Set α := ⋃ r ∈ l, Set.Ico r.1 r.2

theorem mem_cover {x : α} : x ∈ cover l ↔ ∃ r ∈ l, r.1 ≤ x ∧ x < r.2 := by
  unfold cover
  simp only [Set.mem_iUnion, Set.mem_Ico, exists_prop]

theorem start_mem (h : Separated l) (hr : r ∈ l) : r.1 ∈ cover l :=
  mem_cover.mpr ⟨r, hr, le_rfl, h.nonempty r hr⟩

theorem Separated.order (h : Separated l) (hr : r ∈ l) (hr' : r' ∈ l) (hne : r ≠ r') :
    r.2 < r'.1 ∨ r'.2 < r.1 := by
  have hsymm : Std.Symm fun r r' : α × α => r.2 < r'.1 ∨ r'.2 < r.1 := ⟨fun _ _ h => h.symm⟩
  have hor : l.Pairwise fun r r' => r.2 < r'.1 ∨ r'.2 < r.1 := h.gap.imp Or.inl
  exact hor.forall hr hr' hne

theorem Separated.sorted (h : Separated l) : l.Pairwise fun r r' => r.1 < r'.1 := by
  apply h.gap.imp_of_mem
  intro r r' hr _ hgap
  exact (h.nonempty r hr).trans hgap

theorem stop_notMem (h : Separated l) (hr : r ∈ l) : r.2 ∉ cover l := by
  intro hmem
  obtain ⟨r', hr', hle, hlt⟩ := mem_cover.mp hmem
  have hne : r ≠ r' := by
    rintro rfl
    exact lt_irrefl _ hlt
  rcases h.order hr hr' hne with hgap | hgap
  · exact absurd (hle.trans_lt hgap) (lt_irrefl _)
  · exact absurd ((hgap.trans (h.nonempty r hr)).trans hlt) (lt_irrefl _)

theorem Separated.component (h : Separated l) (hr : r ∈ l) {x : α} (hx : x ∈ Set.Ico r.1 r.2) :
    Set.ordConnectedComponent (cover l) x = Set.Ico r.1 r.2 := by
  apply Set.Subset.antisymm
  · intro y hy
    have hycover : y ∈ cover l := hy Set.right_mem_uIcc
    by_contra hout
    obtain ⟨r', hr', hle, hlt⟩ := mem_cover.mp hycover
    have hne : r ≠ r' := by
      rintro rfl
      exact hout ⟨hle, hlt⟩
    rcases h.order hr hr' hne with hgap | hgap
    · -- `y` is behind the gap after `r`.
      have hle' : r.2 ≤ y := hgap.le.trans hle
      exact stop_notMem h hr (hy (Set.mem_uIcc.mpr (Or.inl ⟨hx.2.le, hle'⟩)))
    · have hle' : r'.2 ≤ x := hgap.le.trans hx.1
      exact stop_notMem h hr' (hy (Set.mem_uIcc.mpr (Or.inr ⟨hlt.le, hle'⟩)))
  · apply Set.subset_ordConnectedComponent hx
    intro y hy
    exact mem_cover.mpr ⟨r, hr, hy⟩

theorem mem_of_cover_eq (h : Separated l) (h' : Separated l') (hcover : cover l = cover l') (hr : r ∈ l) :
    r ∈ l' := by
  have hstart := start_mem h hr
  rw [hcover] at hstart
  obtain ⟨r', hr', hle, hlt⟩ := mem_cover.mp hstart
  have hcomponent := h.component hr ⟨le_rfl, h.nonempty r hr⟩
  have hcomponent' := h'.component hr' ⟨hle, hlt⟩
  rw [hcover, hcomponent'] at hcomponent
  obtain ⟨h1, h2⟩ := (Set.Ico_subset_Ico_iff (h.nonempty r hr)).mp hcomponent.ge
  obtain ⟨h3, h4⟩ := (Set.Ico_subset_Ico_iff (h'.nonempty r' hr')).mp hcomponent.le
  have heq : r = r' := Prod.ext (le_antisymm h3 h1) (le_antisymm h2 h4)
  rwa [heq]

/-- The set determines the list. -/
theorem Separated.unique (h : Separated l) (h' : Separated l') (hcover : cover l = cover l') : l = l' := by
  have hnodup : l.Nodup := h.sorted.imp fun hlt heq => absurd hlt (by rw [heq]; exact lt_irrefl _)
  have hnodup' : l'.Nodup := h'.sorted.imp fun hlt heq => absurd hlt (by rw [heq]; exact lt_irrefl _)
  have hperm : l.Perm l' := by
    rw [List.perm_ext_iff_of_nodup hnodup hnodup']
    intro r
    exact ⟨mem_of_cover_eq h h' hcover, mem_of_cover_eq h' h hcover.symm⟩
  apply hperm.eq_of_pairwise _ h.sorted h'.sorted
  intro a b _ _ hab hba
  exact absurd hab hba.asymm

/-! ## Cells

Natural numbers in cells of `k`, each from one multiple of `k` to the next.
-/

section Cells

variable {k a b : Nat} {s t : Set Nat}

/-- The set holds all of a cell or nothing of it. -/
def OfCells (k : Nat) (s : Set Nat) : Prop := ∀ x y, x / k = y / k → x ∈ s → y ∈ s

theorem ofCells_Ico (ha : k ∣ a) (hb : k ∣ b) : OfCells k (Set.Ico a b) := by
  rcases Nat.eq_zero_or_pos k with rfl | hk
  · rw [Nat.eq_zero_of_zero_dvd ha, Nat.eq_zero_of_zero_dvd hb]
    rintro x y - ⟨-, hx⟩
    exact absurd hx (Nat.not_lt_zero x)
  · obtain ⟨i, rfl⟩ := ha
    obtain ⟨j, rfl⟩ := hb
    rintro x y heq ⟨hle, hlt⟩
    rw [mul_comm, ← Nat.le_div_iff_mul_le hk, heq, Nat.le_div_iff_mul_le hk, mul_comm] at hle
    rw [mul_comm, ← Nat.div_lt_iff_lt_mul hk, heq, Nat.div_lt_iff_lt_mul hk, mul_comm] at hlt
    exact ⟨hle, hlt⟩

theorem OfCells.sdiff (hs : OfCells k s) (ht : OfCells k t) : OfCells k (s \ t) := by
  rintro x y heq ⟨hx, hnot⟩
  exact ⟨hs x y heq hx, fun hy => hnot (ht y x heq.symm hy)⟩

theorem ofCells_biUnion {ι : Type*} {l : List ι} {f : ι → Set Nat} (h : ∀ i ∈ l, OfCells k (f i)) :
    OfCells k (⋃ i ∈ l, f i) := by
  intro x y heq hx
  simp only [Set.mem_iUnion, exists_prop] at hx ⊢
  obtain ⟨i, hi, hx⟩ := hx
  exact ⟨i, hi, h i hi x y heq hx⟩

theorem Separated.dvd {l : List (Nat × Nat)} (h : Separated l) (hcells : OfCells k (cover l)) {r : Nat × Nat}
    (hr : r ∈ l) : k ∣ r.1 ∧ k ∣ r.2 := by
  have hlt := h.nonempty r hr
  constructor
  · by_contra hnot
    obtain ⟨x, hx⟩ : ∃ x, r.1 = x + 1 := Nat.exists_eq_succ_of_ne_zero (fun h0 => hnot (h0 ▸ dvd_zero k))
    have hcell : r.1 / k = x / k := by
      rw [hx]
      exact Nat.succ_div_of_not_dvd (hx ▸ hnot)
    -- The number before the run is in its first cell.
    obtain ⟨r', hr', hle, hlt'⟩ := mem_cover.mp (hcells _ _ hcell (start_mem h hr))
    have hne : r ≠ r' := by
      rintro rfl
      omega
    rcases h.order hr hr' hne with hgap | hgap <;> omega
  · by_contra hnot
    obtain ⟨x, hx⟩ : ∃ x, r.2 = x + 1 := Nat.exists_eq_succ_of_ne_zero (fun h0 => hnot (h0 ▸ dvd_zero k))
    have hcell : x / k = r.2 / k := by
      rw [hx]
      exact (Nat.succ_div_of_not_dvd (hx ▸ hnot)).symm
    have hlast : x ∈ cover l := mem_cover.mpr ⟨r, hr, by omega, by omega⟩
    exact stop_notMem h hr (hcells _ _ hcell hlast)

end Cells

end OsCoursework.Runs
