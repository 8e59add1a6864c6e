import Mathlib

/-!
# Sums over threads

Every thread is at a place, and a quantity of the whole state is the sum of what the
places of the threads count. One thread moves at a time. With a semaphore that starts at
one, one thread at most is between `wait` and `post`.
-/

namespace OsCoursework.Threads

variable {ι κ M : Type*}

section Sums

variable [Fintype ι]

theorem sum_update [DecidableEq ι] [AddCommMonoid M] (f : κ → M) (place : ι → κ) (t : ι) (p : κ) :
    ∑ i, f (Function.update place t p i) + f (place t) = ∑ i, f (place i) + f p := by
  rw [Fintype.sum_eq_add_sum_compl t, Fintype.sum_eq_add_sum_compl t fun i => f (place i)]
  have hrest : ∑ i ∈ {t}ᶜ, f (Function.update place t p i) = ∑ i ∈ {t}ᶜ, f (place i) := by
    refine Finset.sum_congr rfl fun i hi => ?_
    rw [Function.update_of_ne (by simpa using hi)]
  rw [hrest, Function.update_self]
  abel

theorem sum_update_at [DecidableEq ι] [AddCommMonoid M] (f : ι → κ → M) (place : ι → κ) (t : ι) (p : κ) :
    ∑ i, f i (Function.update place t p i) + f t (place t) = ∑ i, f i (place i) + f t p := by
  have h := sum_update (fun q : ι × κ => f q.1 q.2) (fun i => (i, place i)) t (t, p)
  have hpair : ∀ i, Function.update (fun i => (i, place i)) t (t, p) i = (i, Function.update place t p i) := by
    intro i
    by_cases hi : i = t
    · subst hi
      simp
    · simp [hi]
  simpa only [hpair] using h

theorem sum_update_of_eq [DecidableEq ι] [AddCommMonoid M] (f : ι → κ → M) {place : ι → κ} {t : ι} {p : κ}
    (h : f t p = f t (place t)) : ∑ i, f i (Function.update place t p i) = ∑ i, f i (place i) := by
  refine Finset.sum_congr rfl fun i _ => ?_
  by_cases hi : i = t
  · subst hi
    rw [Function.update_self, h]
  · rw [Function.update_of_ne hi]

omit [Fintype ι] in
theorem update_eq_iff [DecidableEq ι] {place : ι → κ} {t i : ι} {p q : κ} (hp : p ≠ q) (hold : place t ≠ q) :
    Function.update place t p i = q ↔ place i = q := by
  by_cases hi : i = t
  · subst hi
    rw [Function.update_self]
    exact iff_of_false hp hold
  · rw [Function.update_of_ne hi]

theorem eq_of_sum_le_one [DecidableEq ι] {f : ι → Nat} (h : ∑ i, f i ≤ 1) {i j : ι} (hi : 0 < f i) (hj : 0 < f j) :
    i = j := by
  by_contra hij
  have hpair : ∑ k ∈ {i, j}, f k ≤ ∑ k, f k := Finset.sum_le_univ_sum_of_nonneg fun _ => Nat.zero_le _
  rw [Finset.sum_pair hij] at hpair
  omega

theorem sum_lt_card {f : ι → Nat} (h : ∀ i, f i ≤ 1) {i : ι} (hi : f i = 0) : ∑ i, f i < Fintype.card ι := by
  calc ∑ i, f i < ∑ _i : ι, 1 := Finset.sum_lt_sum (fun i _ => h i) ⟨i, Finset.mem_univ i, by omega⟩
    _ = Fintype.card ι := by simp

theorem eq_one_of_sum_eq_card {f : ι → Nat} (h : ∀ i, f i ≤ 1) (hsum : ∑ i, f i = Fintype.card ι) (i : ι) : f i = 1 := by
  have hle := h i
  have hne : f i ≠ 0 := fun hi => (sum_lt_card h hi).ne hsum
  omega

end Sums

/-! ## Mutual exclusion -/

/-- The threads that are `inside` have waited for `sem` and not posted it yet. -/
structure Exclusive (inside : ι → Bool) (sem : Nat) : Prop where
  sem_le : sem ≤ 1
  one : ∀ i j, inside i = true → inside j = true → i = j
  free : sem = 1 ↔ ∀ i, inside i = false

theorem exclusive_start : Exclusive (fun _ : ι => false) 1 where
  sem_le := le_rfl
  one i _ hi _ := by cases hi
  free := ⟨fun _ _ => rfl, fun _ => rfl⟩

variable {inside : ι → Bool} {sem : Nat} {i j : ι}

theorem Exclusive.others (h : Exclusive inside sem) (hi : inside i = true) (hj : j ≠ i) : inside j = false := by
  by_contra hin
  exact hj (h.one j i (by simpa using hin) hi)

theorem Exclusive.taken (h : Exclusive inside sem) (hi : inside i = true) : sem = 0 := by
  have hne : sem ≠ 1 := by
    intro hone
    rw [h.free.mp hone i] at hi
    cases hi
  have hle := h.sem_le
  omega

theorem Exclusive.one_of_pos (h : Exclusive inside sem) (hpos : 0 < sem) : sem = 1 :=
  le_antisymm h.sem_le hpos

variable [DecidableEq ι]

theorem Exclusive.wait (h : Exclusive inside sem) (hpos : 0 < sem) :
    Exclusive (Function.update inside i true) (sem - 1) := by
  have hnone := h.free.mp (h.one_of_pos hpos)
  have hthis : ∀ j, Function.update inside i true j = true → j = i := by
    intro j hj
    by_contra hne
    rw [Function.update_of_ne hne, hnone j] at hj
    cases hj
  have hle := h.sem_le
  refine ⟨by omega, ?_, ?_⟩
  · intro j k hj hk
    rw [hthis j hj, hthis k hk]
  · constructor
    · intro hone
      omega
    · intro hfree
      have hi := hfree i
      rw [Function.update_self] at hi
      cases hi

theorem Exclusive.post (h : Exclusive inside sem) (hi : inside i = true) :
    Exclusive (Function.update inside i false) (sem + 1) := by
  have hsem := h.taken hi
  have hnone : ∀ j, Function.update inside i false j = false := by
    intro j
    by_cases hj : j = i
    · rw [hj, Function.update_self]
    · rw [Function.update_of_ne hj, h.others hi hj]
  refine ⟨by omega, ?_, ?_⟩
  · intro j k hj
    rw [hnone j] at hj
    cases hj
  · exact ⟨fun _ => hnone, fun _ => by omega⟩

theorem Exclusive.stay (h : Exclusive inside sem) {b : Bool} (hb : b = inside i) :
    Exclusive (Function.update inside i b) sem := by
  rw [hb, Function.update_eq_self]
  exact h

end OsCoursework.Threads
