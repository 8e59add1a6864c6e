import Mathlib

/-!
# Numerals

The text of a number in base `b`, with the most significant digit first.
-/

namespace OsCoursework.Numerals

variable {α : Type*} {b n n' k : Nat} {digit : Nat → α} {t : List α}

/-- The text consists of the digits of `n`. -/
def Denotes (b : Nat) (digit : Nat → α) (t : List α) (n : Nat) : Prop :=
  ∃ ds : List Nat, (∀ d ∈ ds, d < b) ∧ t = ds.map digit ∧ Nat.ofDigits b ds.reverse = n

/-- Different digits look different, so a text can be read back. -/
theorem Denotes.unique (hinj : ∀ c < b, ∀ d < b, digit c = digit d → c = d) (h : Denotes b digit t n)
    (h' : Denotes b digit t n') : n = n' := by
  obtain ⟨ds, hds, rfl, rfl⟩ := h
  obtain ⟨ds', hds', heq, rfl⟩ := h'
  suffices hsame : ds = ds' by rw [hsame]
  refine List.ext_getElem (by simpa using congrArg List.length heq) fun i hi hi' => ?_
  refine hinj _ (hds _ (List.getElem_mem hi)) _ (hds' _ (List.getElem_mem hi')) ?_
  have hdigit := congrArg (·[i]?) heq
  simpa [hi, hi'] using hdigit

theorem Denotes.mem {c : α} (h : Denotes b digit t n) (hc : c ∈ t) : ∃ d < b, c = digit d := by
  obtain ⟨ds, hds, rfl, -⟩ := h
  obtain ⟨d, hd, rfl⟩ := List.mem_map.mp hc
  exact ⟨d, hds d hd, rfl⟩

/-! ## A fixed number of digits -/

theorem ofDigits_range (b n k : Nat) : Nat.ofDigits b ((List.range k).map fun i => n / b ^ i % b) = n % b ^ k := by
  induction k with
  | zero =>
    rw [pow_zero, Nat.mod_one]
    rfl
  | succ k ih =>
    rw [List.range_succ, List.map_append, Nat.ofDigits_append, ih, List.map_singleton, Nat.ofDigits_singleton,
      List.length_map, List.length_range, Nat.mod_pow_succ]

theorem denotes_range (digit : Nat → α) (hb : 0 < b) (h : n < b ^ k) :
    Denotes b digit ((List.range k).map fun i => digit (n / b ^ (k - 1 - i) % b)) n := by
  refine ⟨(List.range k).map fun i => n / b ^ (k - 1 - i) % b, ?_, by simp, ?_⟩
  · intro d hd
    obtain ⟨i, -, rfl⟩ := List.mem_map.mp hd
    exact Nat.mod_lt _ hb
  · have hreverse : ((List.range k).map fun i => n / b ^ (k - 1 - i) % b).reverse =
        (List.range k).map fun i => n / b ^ i % b := by
      refine List.ext_getElem (by simp) fun i hi hi' => ?_
      have hk : i < k := by simpa using hi'
      have hback : k - 1 - (k - 1 - i) = i := by omega
      simp [List.getElem_reverse, hback]
    rw [hreverse, ofDigits_range, Nat.mod_eq_of_lt h]

/-! ## As many digits as it takes -/

/-- The digits of a number, the least significant one first. Zero has one too. -/
def digits (b n : Nat) : List Nat := if n = 0 then [0] else Nat.digits b n

theorem denotes_digits (digit : Nat → α) (hb : 1 < b) (n : Nat) :
    Denotes b digit ((digits b n).map digit).reverse n := by
  refine ⟨(digits b n).reverse, fun d hd => ?_, by rw [List.map_reverse], ?_⟩
  · rw [List.mem_reverse, digits] at hd
    split_ifs at hd
    · rw [List.mem_singleton.mp hd]
      omega
    · exact Nat.digits_lt_base hb hd
  · rw [List.reverse_reverse, digits]
    split_ifs with hzero
    · rw [hzero]
      exact Nat.ofDigits_singleton
    · exact Nat.ofDigits_digits b n

theorem head?_digits (hinj : ∀ c < b, ∀ d < b, digit c = digit d → c = d) (hb : 1 < b) (hn : n ≠ 0) :
    ∃ c, ((digits b n).map digit).reverse.head? = some c ∧ c ≠ digit 0 := by
  have hne : Nat.digits b n ≠ [] := Nat.digits_ne_nil_iff_ne_zero.mpr hn
  have hlast := Nat.getLast_digit_ne_zero b hn
  refine ⟨digit ((Nat.digits b n).getLast hne), ?_, ?_⟩
  · rw [digits, if_neg hn, List.head?_reverse, List.getLast?_map, List.getLast?_eq_some_getLast hne, Option.map_some]
  · exact fun heq => hlast (hinj _ (Nat.digits_lt_base hb (List.getLast_mem hne)) 0 (Nat.zero_lt_of_lt hb) heq)

end OsCoursework.Numerals
