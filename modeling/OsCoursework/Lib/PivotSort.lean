import Mathlib

/-!
# Sorting around a pivot

What a sort by a key has to do, and that a pivot between two sorted parts does it.
-/

namespace OsCoursework.PivotSort

variable {α β κ : Type*} [LinearOrder κ] {key : α → κ} {key' : β → κ} {l l' l₁ l₂ lesser greater : List α} {pivot : α}

/-- `l'` is `l` sorted by the key. -/
structure Sorts (key : α → κ) (l l' : List α) : Prop where
  perm : l'.Perm l
  sorted : l'.Pairwise fun a b => key a ≤ key b

/-- Elements with the same key keep their order. -/
structure StableSorts (key : α → κ) (l l' : List α) : Prop extends Sorts key l l' where
  stable : ∀ k, l'.filter (key · = k) = l.filter (key · = k)

theorem Sorts.of_length_le (h : l.length ≤ 1) : Sorts key l l := by
  refine ⟨List.Perm.refl l, ?_⟩
  match l, h with
  | [], _ => exact List.Pairwise.nil
  | [a], _ => exact List.pairwise_singleton _ a

theorem StableSorts.of_length_le (h : l.length ≤ 1) : StableSorts key l l :=
  ⟨.of_length_le h, fun _ => rfl⟩

/-- **Around a pivot.** Both parts are sorted, and each is on its side. -/
theorem Sorts.join (hlesser : Sorts key lesser l₁) (hgreater : Sorts key greater l₂)
    (hl : ∀ a ∈ lesser, key a ≤ key pivot) (hg : ∀ a ∈ greater, key pivot ≤ key a)
    (hperm : (lesser ++ greater).Perm l) : Sorts key (pivot :: l) (l₁ ++ pivot :: l₂) where
  perm := by
    refine List.perm_middle.trans (List.Perm.cons pivot ?_)
    exact (hlesser.perm.append hgreater.perm).trans hperm
  sorted := by
    have hl' : ∀ a ∈ l₁, key a ≤ key pivot := fun a ha => hl a (hlesser.perm.subset ha)
    have hg' : ∀ a ∈ l₂, key pivot ≤ key a := fun a ha => hg a (hgreater.perm.subset ha)
    rw [List.pairwise_append, List.pairwise_cons]
    refine ⟨hlesser.sorted, ⟨hg', hgreater.sorted⟩, fun a ha b hb => ?_⟩
    rcases List.mem_cons.mp hb with rfl | hb
    · exact hl' a ha
    · exact (hl' a ha).trans (hg' b hb)

theorem filter_key_lt (l : List α) (pivot : α) (k : κ) :
    (l.filter (key · < key pivot)).filter (key · = k) = if k < key pivot then l.filter (key · = k) else [] := by
  rw [List.filter_filter]
  split_ifs with hk
  · refine List.filter_congr fun a _ => ?_
    by_cases ha : key a = k <;> simp [ha, hk]
  · rw [List.filter_eq_nil_iff]
    intro a _
    simp only [Bool.and_eq_true, decide_eq_true_eq, not_and]
    rintro rfl
    exact hk

theorem filter_key_ge (l : List α) (pivot : α) (k : κ) :
    (l.filter (key pivot ≤ key ·)).filter (key · = k) = if k < key pivot then [] else l.filter (key · = k) := by
  rw [List.filter_filter]
  split_ifs with hk
  · rw [List.filter_eq_nil_iff]
    intro a _
    simp only [Bool.and_eq_true, decide_eq_true_eq, not_and, not_le]
    rintro rfl
    exact hk
  · refine List.filter_congr fun a _ => ?_
    by_cases ha : key a = k
    · simp [ha, not_lt.mp hk]
    · simp [ha]

theorem StableSorts.join (hlesser : StableSorts key (l.filter (key · < key pivot)) l₁)
    (hgreater : StableSorts key (l.filter (key pivot ≤ key ·)) l₂) :
    StableSorts key (pivot :: l) (l₁ ++ pivot :: l₂) where
  toSorts := by
    refine hlesser.toSorts.join hgreater.toSorts (fun a ha => ?_) (fun a ha => ?_) ?_
    · have hlt : key a < key pivot := by simpa using List.of_mem_filter ha
      exact hlt.le
    · simpa using List.of_mem_filter ha
    · have hsplit := List.filter_append_perm (key · < key pivot) l
      simp only [← decide_not, not_lt] at hsplit
      exact hsplit
  stable k := by
    rw [List.filter_append, List.filter_cons, List.filter_cons, hlesser.stable, hgreater.stable, filter_key_lt,
      filter_key_ge]
    by_cases hk : k < key pivot
    · have hne : ¬ decide (key pivot = k) = true := by simpa using hk.ne'
      rw [if_pos hk, if_pos hk, if_neg hne, if_neg hne, List.append_nil]
    · rw [if_neg hk, if_neg hk, List.nil_append]

theorem Sorts.map_key_eq {m m' : List β} (h : Sorts key l l') (h' : Sorts key' m m')
    (heq : l.map key = m.map key') : l'.map key = m'.map key' := by
  have hperm : (l'.map key).Perm (m'.map key') := by
    refine (h.perm.map key).trans ?_
    rw [heq]
    exact (h'.perm.map key').symm
  have hsorted : (l'.map key).Pairwise (· ≤ ·) := List.pairwise_map.mpr h.sorted
  have hsorted' : (m'.map key').Pairwise (· ≤ ·) := List.pairwise_map.mpr h'.sorted
  exact hperm.eq_of_pairwise (fun a b _ _ hab hba => le_antisymm hab hba) hsorted hsorted'

end OsCoursework.PivotSort
