import OsCoursework.Lib.Fuel

/-!
# `for` loops over a C int

`for (i = lo; i < hi; i += step) body` with a 32-bit `i` that wraps. While the
counter fits, the loop ends, and the body ran once for each of the `indices`.
-/

open OsCoursework.Fuel

namespace OsCoursework.ForLoop

/-! ## 32-bit numbers -/

def int32 (x : Int) : Int := x.bmod (2 ^ 32)

theorem int32_of_fits {x : Int} (h0 : -2 ^ 31 ≤ x) (h1 : x < 2 ^ 31) : int32 x = x :=
  Int.bmod_eq_of_le (by omega) (by omega)

theorem int32_of_wraps {x : Int} (h0 : 2 ^ 31 ≤ x) (h1 : x < 3 * 2 ^ 31) : int32 x = x - 2 ^ 32 := by
  have hshift : int32 (x - 2 ^ 32) = int32 x := Int.sub_bmod_right x (2 ^ 32)
  rw [← hshift]
  exact int32_of_fits (by omega) (by omega)

/-! ## The indices of a loop -/

def indices (lo hi step : Int) : List Int :=
  (List.range ((hi - lo + (step - 1)) / step).toNat).map fun t : Nat => lo + step * t

theorem mem_indices {lo hi step i : Int} (hs : 0 < step) :
    i ∈ indices lo hi step ↔ lo ≤ i ∧ i < hi ∧ step ∣ i - lo := by
  simp only [indices, List.mem_map, List.mem_range]
  constructor
  · rintro ⟨t, ht, rfl⟩
    have hle : (t : Int) + 1 ≤ (hi - lo + (step - 1)) / step := by omega
    have hmul := (Int.le_ediv_iff_mul_le hs).mp hle
    have hpos : 0 ≤ step * (t : Int) := by positivity
    refine ⟨by omega, by linarith, ⟨t, by ring⟩⟩
  · rintro ⟨hlo, hhi, t, ht⟩
    have h0 : 0 ≤ t := by
      by_contra hneg
      have := mul_neg_of_pos_of_neg hs (not_le.mp hneg)
      omega
    refine ⟨t.toNat, ?_, by rw [Int.toNat_of_nonneg h0]; omega⟩
    have hle : t + 1 ≤ (hi - lo + (step - 1)) / step := by
      rw [Int.le_ediv_iff_mul_le hs]
      linarith
    omega

theorem nodup_indices {lo hi step : Int} (hs : 0 < step) : (indices lo hi step).Nodup := by
  refine List.Nodup.map (fun s t h => ?_) List.nodup_range
  have := mul_left_cancel₀ hs.ne' (add_left_cancel h)
  exact_mod_cast this

theorem indices_eq_nil {lo hi step : Int} (hs : 0 < step) (h : hi ≤ lo) : indices lo hi step = [] := by
  rw [List.eq_nil_iff_forall_not_mem]
  intro i hi'
  have := (mem_indices hs).mp hi'
  omega

theorem indices_eq_cons {lo hi step : Int} (hs : 0 < step) (h : lo < hi) :
    indices lo hi step = lo :: indices (lo + step) hi step := by
  have hn : ((hi - lo + (step - 1)) / step).toNat = ((hi - (lo + step) + (step - 1)) / step).toNat + 1 := by
    have hsplit : hi - lo + (step - 1) = hi - (lo + step) + (step - 1) + step := by ring
    rw [hsplit, Int.add_ediv_of_dvd_right (dvd_refl step), Int.ediv_self hs.ne']
    have : 0 ≤ (hi - (lo + step) + (step - 1)) / step := Int.ediv_nonneg (by omega) hs.le
    omega
  rw [indices, hn, List.range_succ_eq_map, List.map_cons, List.map_map, indices]
  congr 1
  · simp
  · apply List.map_congr_left
    intro t _
    simp only [Function.comp_apply, Nat.succ_eq_add_one, Nat.cast_add, Nat.cast_one]
    ring

/-! ## Running the loop -/

variable {σ : Type*}

def forLoop (hi step : Int) (body : Int → σ → Option σ) : Nat → Int → σ → Option σ
  | 0, _, _ => none
  | fuel + 1, i, s =>
    if i < hi then (body i s).bind (forLoop hi step body fuel (int32 (i + step))) else some s

theorem forLoop_eq {hi step : Int} {body : Nat → Int → σ → Option σ} {g : Int → σ → σ} (hs : 0 < step)
    (hfit : hi + step ≤ 2 ^ 31) (n : Nat) {lo : Int} (hn : hi - lo ≤ n) (hlo : -2 ^ 31 ≤ lo)
    (hbody : ∀ i, lo ≤ i → i < hi → ∀ s, Returns (fun k => body k i s) (g i s)) (s : σ) :
    ∃ K, ∀ k, K ≤ k → ∀ m, n < m →
      forLoop hi step (body k) m lo s = some ((indices lo hi step).foldl (fun s i => g i s) s) := by
  induction n generalizing lo s with
  | zero =>
    refine ⟨0, fun k _ m hm => ?_⟩
    obtain ⟨m, rfl⟩ : ∃ j, m = j + 1 := ⟨m - 1, by omega⟩
    rw [forLoop, if_neg (by omega), indices_eq_nil hs (by omega)]
    rfl
  | succ n ih =>
    by_cases hlt : lo < hi
    · obtain ⟨K, hK⟩ := hbody lo le_rfl hlt s
      have hnext : int32 (lo + step) = lo + step := int32_of_fits (by omega) (by omega)
      obtain ⟨L, hL⟩ := ih (by omega : hi - (lo + step) ≤ n) (by omega)
        (fun i h0 h1 => hbody i (by omega) h1) (g lo s)
      refine ⟨max K L, fun k hk m hm => ?_⟩
      obtain ⟨m, rfl⟩ : ∃ j, m = j + 1 := ⟨m - 1, by omega⟩
      have hround : body k lo s = some (g lo s) := hK k (by omega)
      rw [forLoop, if_pos hlt, hround, Option.bind_some, hnext, hL k (by omega) m (by omega),
        indices_eq_cons hs hlt, List.foldl_cons]
    · refine ⟨0, fun k _ m hm => ?_⟩
      obtain ⟨m, rfl⟩ : ∃ j, m = j + 1 := ⟨m - 1, by omega⟩
      rw [forLoop, if_neg hlt, indices_eq_nil hs (by omega)]
      rfl

/-- **The loop ends after one round for each index.** -/
theorem forLoop_returns {lo hi step : Int} {body : Nat → Int → σ → Option σ} {g : Int → σ → σ}
    (hs : 0 < step) (hlo : -2 ^ 31 ≤ lo) (hfit : hi + step ≤ 2 ^ 31)
    (hbody : ∀ i, lo ≤ i → i < hi → ∀ s, Returns (fun k => body k i s) (g i s)) (s : σ) :
    Returns (fun k => forLoop hi step (body k) k lo s) ((indices lo hi step).foldl (fun s i => g i s) s) := by
  obtain ⟨K, hK⟩ := forLoop_eq hs hfit (hi - lo).toNat (by omega) hlo hbody s
  exact ⟨max K ((hi - lo).toNat + 1), fun k hk => hK k (by omega) k (by omega)⟩

/-! ## A body without a meaning -/

variable {hi step lo : Int} {body : Int → σ → Option σ}

theorem forLoop_eq_none (hlo : lo < hi) (hbody : ∀ s, body lo s = none) (fuel : Nat) (s : σ) :
    forLoop hi step body fuel lo s = none := by
  cases fuel with
  | zero => rfl
  | succ fuel => rw [forLoop, if_pos hlo, hbody, Option.bind_none]

theorem forLoop_eq_none_of_wraps (hs : 0 < step) (hstep : step < 2 ^ 31) (hhi : hi ≤ 2 ^ 31)
    (hwrap : 2 ^ 31 ≤ hi - 1 + step) (hbody : ∀ i < 0, -2 ^ 31 ≤ i → ∀ s, body i s = none) (fuel : Nat)
    (h0 : 0 ≤ lo) (hlo : lo < hi) (hdvd : step ∣ hi - 1 - lo) (s : σ) : forLoop hi step body fuel lo s = none := by
  induction fuel generalizing lo s with
  | zero => rfl
  | succ fuel ih =>
    rw [forLoop, if_pos hlo]
    cases body lo s with
    | none => rfl
    | some s' =>
      rw [Option.bind_some]
      by_cases hlast : lo = hi - 1
      · rw [int32_of_wraps (by omega) (by omega)]
        exact forLoop_eq_none (by omega) (hbody _ (by omega) (by omega)) fuel s'
      · -- The last index is one or more steps away.
        have hle : step ≤ hi - 1 - lo := Int.le_of_dvd (by omega) hdvd
        rw [int32_of_fits (by omega) (by omega)]
        refine ih (by omega) (by omega) ?_ s'
        have hrest : hi - 1 - (lo + step) = hi - 1 - lo - step := by ring
        rw [hrest]
        exact hdvd.sub (dvd_refl step)

/-! ## Unsigned counters

A `size_t` of 64 bits. The bound of the loop is one too, so the counter does not wrap before it is there.
-/

def size64 (x : Int) : Nat := (x % 2 ^ 64).toNat

theorem size64_of_lt {n : Nat} (h : n < 2 ^ 64) : size64 n = n := by
  unfold size64
  omega

def forSize (hi : Nat) (body : Nat → σ → Option σ) : Nat → Nat → σ → Option σ
  | 0, _, _ => none
  | fuel + 1, i, s => if i < hi then (body i s).bind (forSize hi body fuel (size64 (i + 1))) else some s

/-- A loop follows a fold when each round follows one step of it. -/
theorem forSize_returns {τ : Type*} {R : σ → τ → Prop} {hi lo : Nat} {body : Nat → Nat → σ → Option σ} {g : τ → Nat → τ}
    (hhi : hi < 2 ^ 64)
    (hbody : ∀ i, lo ≤ i → i < hi → ∀ s t, R s t → ∃ s', Returns (fun k => body k i s) s' ∧ R s' (g t i))
    {s : σ} {t : τ} (h : R s t) :
    ∃ s', Returns (fun k => forSize hi (body k) k lo s) s' ∧ R s' ((List.range' lo (hi - lo)).foldl g t) := by
  suffices hloop : ∃ s', (∃ K, ∀ k, K ≤ k → ∀ m, hi - lo < m → forSize hi (body k) m lo s = some s') ∧
      R s' ((List.range' lo (hi - lo)).foldl g t) by
    obtain ⟨s', ⟨K, hK⟩, hrel⟩ := hloop
    exact ⟨s', ⟨max K (hi - lo + 1), fun k hk => hK k (by omega) k (by omega)⟩, hrel⟩
  induction hn : hi - lo generalizing lo s t with
  | zero =>
    refine ⟨s, ⟨0, fun k _ m hm => ?_⟩, h⟩
    obtain ⟨m, rfl⟩ : ∃ j, m = j + 1 := ⟨m - 1, by omega⟩
    rw [forSize, if_neg (by omega)]
  | succ n ih =>
    obtain ⟨s₁, ⟨K, hK⟩, hrel⟩ := hbody lo le_rfl (by omega) s t h
    obtain ⟨s', ⟨L, hL⟩, hrel'⟩ := ih (fun i hle hlt => hbody i (by omega) hlt) hrel (by omega : hi - (lo + 1) = n)
    refine ⟨s', ⟨max K L, fun k hk m hm => ?_⟩, ?_⟩
    · obtain ⟨m, rfl⟩ : ∃ j, m = j + 1 := ⟨m - 1, by omega⟩
      have hround : body k lo s = some s₁ := hK k (by omega)
      have hnext := size64_of_lt (show lo + 1 < 2 ^ 64 by omega)
      rw [Nat.cast_add, Nat.cast_one] at hnext
      rw [forSize, if_pos (by omega), hround, Option.bind_some, hnext]
      exact hL k (by omega) m (by omega)
    · rw [List.range'_succ, List.foldl_cons]
      exact hrel'

end OsCoursework.ForLoop
