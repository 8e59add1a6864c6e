import Mathlib

/-!
# Words

The longest runs of a list without a blank, first to last.
-/

namespace OsCoursework.Words

universe u

variable {α : Type u} {blank : α → Bool} {l : List α}

def words (blank : α → Bool) (l : List α) : List (List α) := (l.splitOnP blank).filter (· ≠ [])

def firstWord (blank : α → Bool) (l : List α) : List α := (l.dropWhile blank).takeWhile fun a => !blank a

def afterWord (blank : α → Bool) (l : List α) : List α := (l.dropWhile blank).dropWhile fun a => !blank a

@[simp] theorem words_nil : words blank ([] : List α) = [] := by
  simp [words]

theorem words_blank {a : α} (h : blank a = true) (l : List α) : words blank (a :: l) = words blank l := by
  unfold words
  rw [List.splitOnP_cons_eq_if_modifyHead, if_pos h]
  simp

theorem words_dropWhile (l : List α) : words blank (l.dropWhile blank) = words blank l := by
  induction l with
  | nil => rfl
  | cons a l ih =>
    rw [List.dropWhile_cons]
    split_ifs with ha
    · rw [ih, words_blank ha]
    · rfl

theorem words_word {w : List α} (hne : w ≠ []) (hw : ∀ a ∈ w, blank a = false) {rest : List α}
    (hrest : ∀ a ∈ rest.head?, blank a = true) : words blank (w ++ rest) = w :: words blank rest := by
  cases rest with
  | nil =>
    unfold words
    rw [List.append_nil, List.splitOnP_eq_singleton hw]
    simp [hne]
  | cons a rest =>
    have ha : blank a = true := hrest a rfl
    rw [words_blank ha]
    unfold words
    rw [List.splitOnP_append_cons_of_forall_mem hw a ha, List.filter_cons_of_pos (by simpa using hne)]

theorem head?_dropWhile_not (p : α → Bool) (l : List α) : ∀ a ∈ (l.dropWhile p).head?, p a = false := by
  intro a ha
  have h := List.head?_dropWhile_not p l
  rw [Option.mem_def.mp ha] at h
  simpa using h

theorem words_eq (l : List α) :
    words blank l = if firstWord blank l = [] then [] else firstWord blank l :: words blank (afterWord blank l) := by
  rw [← words_dropWhile l]
  unfold firstWord afterWord
  have hhead := head?_dropWhile_not blank l
  generalize l.dropWhile blank = l at hhead
  split_ifs with hne
  · cases l with
    | nil => exact words_nil
    | cons a l =>
      have ha : blank a = false := hhead a rfl
      simp [ha] at hne
  · have hw : ∀ a ∈ l.takeWhile fun a => !blank a, blank a = false := fun a ha => by
      simpa using List.mem_takeWhile_imp ha
    have hafter : ∀ a ∈ (l.dropWhile fun a => !blank a).head?, blank a = true := fun a ha => by
      simpa using head?_dropWhile_not (fun a => !blank a) l a ha
    rw [← words_word hne hw hafter, List.takeWhile_append_dropWhile]

/-- Two words have a blank between them. -/
theorem length_words_le (l : List α) : 2 * (words blank l).length ≤ l.length + 1 := by
  induction hn : l.length using Nat.strong_induction_on generalizing l with
  | _ n ih =>
    rw [words_eq]
    split_ifs with hne
    · simp
    · have hpos := List.length_pos_of_ne_nil hne
      have hsplit : (firstWord blank l).length + (afterWord blank l).length ≤ l.length := by
        unfold firstWord afterWord
        rw [← List.length_append, List.takeWhile_append_dropWhile]
        exact (List.dropWhile_sublist blank).length_le
      rw [List.length_cons]
      cases hafter : afterWord blank l with
      | nil =>
        rw [words_nil, List.length_nil]
        omega
      | cons a rest =>
        have ha : blank a = true := by
          have hhead := head?_dropWhile_not (fun a => !blank a) (l.dropWhile blank) a
          rw [show (l.dropWhile blank).dropWhile (fun a => !blank a) = a :: rest from hafter] at hhead
          simpa using hhead rfl
        rw [hafter, List.length_cons] at hsplit
        have hrest := ih rest.length (by omega) rest rfl
        rw [words_blank ha]
        omega

end OsCoursework.Words
