import Mathlib

/-!
# Lines

A list cut behind each separator. What comes after the last separator is an open line, when
it is not empty.
-/

namespace OsCoursework.Lines

universe u

variable {α : Type u} [DecidableEq α] {sep : α}

/-- The closed lines, with their separators, and what follows the last of them. -/
def cut (sep : α) : List α → List (List α) × List α
  | [] => ([], [])
  | a :: l =>
    let r := cut sep l
    if a = sep then ([a] :: r.1, r.2)
    else
      match r.1 with
      | [] => ([], a :: r.2)
      | line :: lines => ((a :: line) :: lines, r.2)

def closedLines (sep : α) (l : List α) : List (List α) := (cut sep l).1

def openLine (sep : α) (l : List α) : List α := (cut sep l).2

/-- All lines, the open one too. -/
def lines (sep : α) (l : List α) : List (List α) :=
  closedLines sep l ++ if openLine sep l = [] then [] else [openLine sep l]

theorem cut_open {l : List α} (h : sep ∉ l) : cut sep l = ([], l) := by
  induction l with
  | nil => rfl
  | cons a l ih =>
    rw [List.mem_cons, not_or] at h
    simp only [cut, ih h.2, if_neg (Ne.symm h.1)]

theorem cut_line {line : List α} (h : sep ∉ line) (rest : List α) :
    cut sep (line ++ sep :: rest) = ((line ++ [sep]) :: closedLines sep rest, openLine sep rest) := by
  induction line with
  | nil => simp only [List.nil_append, cut, if_true, closedLines, openLine]
  | cons a line ih =>
    rw [List.mem_cons, not_or] at h
    simp only [List.cons_append, cut, ih h.2, if_neg (Ne.symm h.1)]

@[simp] theorem closedLines_line {line : List α} (h : sep ∉ line) (rest : List α) :
    closedLines sep (line ++ sep :: rest) = (line ++ [sep]) :: closedLines sep rest := by
  rw [closedLines, cut_line h]

@[simp] theorem openLine_line {line : List α} (h : sep ∉ line) (rest : List α) :
    openLine sep (line ++ sep :: rest) = openLine sep rest := by
  rw [openLine, cut_line h]

@[simp] theorem closedLines_open {l : List α} (h : sep ∉ l) : closedLines sep l = [] := by
  rw [closedLines, cut_open h]

@[simp] theorem openLine_open {l : List α} (h : sep ∉ l) : openLine sep l = l := by
  rw [openLine, cut_open h]

theorem lines_line {line : List α} (h : sep ∉ line) (rest : List α) :
    lines sep (line ++ sep :: rest) = (line ++ [sep]) :: lines sep rest := by
  simp only [lines, closedLines_line h, openLine_line h, List.cons_append]

theorem lines_open {l : List α} (h : sep ∉ l) : lines sep l = if l = [] then [] else [l] := by
  simp only [lines, closedLines_open h, openLine_open h, List.nil_append]

theorem lines_induction (sep : α) {P : List α → Prop} (hopen : ∀ l, sep ∉ l → P l)
    (hline : ∀ line rest, sep ∉ line → P rest → P (line ++ sep :: rest)) (l : List α) : P l := by
  induction hn : l.length using Nat.strong_induction_on generalizing l with
  | _ n ih =>
    by_cases hsep : sep ∈ l
    · obtain ⟨line, rest, rfl, hfirst⟩ := List.eq_append_cons_of_mem hsep
      refine hline line rest hfirst (ih rest.length ?_ rest rfl)
      rw [← hn, List.length_append, List.length_cons]
      omega
    · exact hopen l hsep

/-! ## A buffer

A reader takes a line, or as much of it as there is room for.
-/

variable {room n : Nat} {l line : List α}

/-- What is taken, and what is left. -/
def fill (sep : α) : Nat → List α → List α × List α
  | 0, l => ([], l)
  | _ + 1, [] => ([], [])
  | room + 1, a :: l => if a = sep then ([a], l) else (a :: (fill sep room l).1, (fill sep room l).2)

/-- What is taken with at most `n` reads. -/
def pieces (sep : α) (room : Nat) : Nat → List α → List (List α)
  | 0, _ => []
  | n + 1, l =>
    let r := fill sep room l
    if r.1 = [] then [] else r.1 :: pieces sep room n r.2

theorem fill_line (h : sep ∉ line) (hroom : line.length < room) (rest : List α) :
    fill sep room (line ++ sep :: rest) = (line ++ [sep], rest) := by
  induction line generalizing room with
  | nil =>
    obtain ⟨room, rfl⟩ := Nat.exists_eq_succ_of_ne_zero (by omega : room ≠ 0)
    rw [List.nil_append, fill, if_pos rfl, List.nil_append]
  | cons a line ih =>
    obtain ⟨room, rfl⟩ := Nat.exists_eq_succ_of_ne_zero (by omega : room ≠ 0)
    obtain ⟨ha, h⟩ := not_or.mp (List.mem_cons.not.mp h)
    rw [List.cons_append, fill, if_neg (Ne.symm ha), ih h (by simpa using hroom), List.cons_append]

theorem fill_full (h : sep ∉ line) (hroom : room ≤ line.length) (rest : List α) :
    fill sep room (line ++ rest) = (line.take room, line.drop room ++ rest) := by
  induction room generalizing line with
  | zero => rfl
  | succ room ih =>
    cases line with
    | nil => simp at hroom
    | cons a line =>
      obtain ⟨ha, h⟩ := not_or.mp (List.mem_cons.not.mp h)
      rw [List.cons_append, fill, if_neg (Ne.symm ha), ih h (by simpa using hroom)]
      rfl

theorem fill_open (h : sep ∉ l) (hroom : l.length ≤ room) : fill sep room l = (l, []) := by
  induction l generalizing room with
  | nil => cases room <;> rfl
  | cons a l ih =>
    obtain ⟨room, rfl⟩ := Nat.exists_eq_succ_of_ne_zero (by simp at hroom; omega : room ≠ 0)
    obtain ⟨ha, h⟩ := not_or.mp (List.mem_cons.not.mp h)
    rw [fill, if_neg (Ne.symm ha), ih h (by simpa using hroom)]

theorem fill_append (sep : α) (room : Nat) (l : List α) : (fill sep room l).1 ++ (fill sep room l).2 = l := by
  induction room generalizing l with
  | zero => rfl
  | succ room ih =>
    cases l with
    | nil => rfl
    | cons a l =>
      rw [fill]
      split_ifs
      · rfl
      · exact congrArg (a :: ·) (ih l)

theorem fill_eq_nil (hroom : 0 < room) : (fill sep room l).1 = [] ↔ l = [] := by
  obtain ⟨room, rfl⟩ := Nat.exists_eq_succ_of_ne_zero hroom.ne'
  cases l with
  | nil => exact iff_of_true rfl rfl
  | cons a l =>
    have hne : (fill sep (room + 1) (a :: l)).1 ≠ [] := by
      rw [fill]
      split <;> exact List.cons_ne_nil _ _
    exact iff_of_false hne (List.cons_ne_nil _ _)

theorem pieces_eq_lines (h : ∀ line ∈ lines sep l, line.length ≤ room) (hn : l.length ≤ n) :
    pieces sep room n l = lines sep l := by
  revert n
  induction l using lines_induction sep with
  | hopen l hsep =>
    intro n hn
    cases n with
    | zero =>
      obtain rfl := List.length_eq_zero_iff.mp (Nat.le_zero.mp hn)
      rfl
    | succ n =>
      rw [lines_open hsep] at h ⊢
      by_cases hnil : l = []
      · subst hnil
        cases room <;> rfl
      · rw [if_neg hnil] at h ⊢
        have hread := fill_open hsep (h l List.mem_cons_self)
        rw [pieces, hread, if_neg hnil]
        cases n with
        | zero => rfl
        | succ n => cases room <;> rfl
  | hline line rest hsep ih =>
    intro n hn
    rw [List.length_append, List.length_cons] at hn
    obtain ⟨n, rfl⟩ := Nat.exists_eq_succ_of_ne_zero (by omega : n ≠ 0)
    rw [lines_line hsep] at h ⊢
    have hroom := h _ List.mem_cons_self
    rw [List.length_append, List.length_singleton] at hroom
    have hrest := ih (fun line' hline' => h line' (List.mem_cons_of_mem _ hline')) (n := n) (by omega)
    rw [pieces, fill_line hsep hroom]
    simp [hrest]

end OsCoursework.Lines
