import OsCoursework.Lib.Cstring
import OsCoursework.Lib.ForLoop

/-!
# strtol and atoi

`strtol` in base 10 reads white space, a sign and digits, and stops at the first
character that is none of these. `atoi` takes the low 32 bits of the long.
-/

open OsCoursework.ForLoop

namespace OsCoursework.Cstring

def isSpace (c : CChar) : Bool := c = 0x20 ∨ 0x09 ≤ c ∧ c ≤ 0x0d

def isDigit (c : CChar) : Bool := 0x30 ≤ c ∧ c ≤ 0x39

/-- The value of digits. -/
def numeral (s : List CChar) : Nat := s.foldl (fun v c => 10 * v + (c.toNat - 0x30)) 0

/-- Values outside the range of a long are cut to it. -/
def strtol (s : List CChar) : Int :=
  let s := s.dropWhile isSpace
  let signed := s.head? = some 0x2d ∨ s.head? = some 0x2b
  let digits := (if signed then s.tail else s).takeWhile isDigit
  let v : Int := if s.head? = some 0x2d then -numeral digits else numeral digits
  max (-2 ^ 63) (min v (2 ^ 63 - 1))

def atoi (s : List CChar) : Int := int32 (strtol s)

theorem not_isSpace_of_isDigit {c : CChar} (h : isDigit c = true) : isSpace c = false := by
  revert c
  decide

theorem not_sign_of_isDigit {c : CChar} (h : isDigit c = true) : c ≠ 0x2d ∧ c ≠ 0x2b := by
  revert c
  decide

section Number

/-! White space comes before the digits, and something else after them. -/

variable {blanks digits rest : List CChar}

theorem dropWhile_blanks (hblanks : ∀ c ∈ blanks, isSpace c = true) (hdigits : ∀ c ∈ digits, isDigit c = true)
    (hne : digits ≠ []) : (blanks ++ (digits ++ rest)).dropWhile isSpace = digits ++ rest := by
  obtain ⟨d, tail, rfl⟩ := List.exists_cons_of_ne_nil hne
  have hd := not_isSpace_of_isDigit (hdigits d List.mem_cons_self)
  rw [List.dropWhile_append_of_pos hblanks, List.cons_append, List.dropWhile_cons, hd, if_neg Bool.false_ne_true]

theorem takeWhile_digits (hdigits : ∀ c ∈ digits, isDigit c = true) (hrest : ∀ c ∈ rest.head?, isDigit c = false) :
    (digits ++ rest).takeWhile isDigit = digits := by
  rw [List.takeWhile_append_of_pos hdigits]
  cases rest with
  | nil => simp
  | cons c rest => simp [hrest c rfl]

theorem head?_digits_ne (hdigits : ∀ c ∈ digits, isDigit c = true) (hne : digits ≠ []) :
    (digits ++ rest).head? ≠ some 0x2d ∧ (digits ++ rest).head? ≠ some 0x2b := by
  obtain ⟨d, tail, rfl⟩ := List.exists_cons_of_ne_nil hne
  obtain ⟨hminus, hplus⟩ := not_sign_of_isDigit (hdigits d List.mem_cons_self)
  exact ⟨fun h => hminus (Option.some.inj h), fun h => hplus (Option.some.inj h)⟩

theorem strtol_append (hblanks : ∀ c ∈ blanks, isSpace c = true) (hdigits : ∀ c ∈ digits, isDigit c = true)
    (hne : digits ≠ []) (hrest : ∀ c ∈ rest.head?, isDigit c = false) :
    strtol (blanks ++ (digits ++ rest)) = min (numeral digits : Int) (2 ^ 63 - 1) := by
  obtain ⟨hminus, hplus⟩ := @head?_digits_ne digits rest hdigits hne
  simp only [strtol, dropWhile_blanks hblanks hdigits hne, hminus, hplus, or_self, if_false,
    takeWhile_digits hdigits hrest]
  exact max_eq_right (by omega)

end Number

theorem strtol_digits {s : List CChar} (h : ∀ c ∈ s, isDigit c = true) :
    strtol s = min (numeral s : Int) (2 ^ 63 - 1) := by
  by_cases hne : s = []
  · subst hne
    rfl
  · have hs := @strtol_append [] s [] (by simp) h hne (by simp)
    rwa [List.nil_append, List.append_nil] at hs

/-- `atoi` reads digits as the number that they stand for, when that is an int. -/
theorem atoi_digits {s : List CChar} (h : ∀ c ∈ s, isDigit c = true) (hint : numeral s < 2 ^ 31) :
    atoi s = numeral s := by
  have hlong : min (numeral s : Int) (2 ^ 63 - 1) = numeral s := min_eq_left (by omega)
  rw [atoi, strtol_digits h, hlong, int32_of_fits (by omega) (by omega)]

end OsCoursework.Cstring
