import OsCoursework.Lib.Words
import OsCoursework.Stash.Code

/-!
# Words of a line

`sscanf` reads no more than 99 characters of a word, and the loop of `parseCommand` takes the
rest for the next word.
-/

open OsCoursework.Cstring OsCoursework.Words

namespace OsCoursework.Stash

variable {line : List CChar} {count turns : Nat} {ws : Words}

def lineWords (line : List CChar) : List (List CChar) := words isspace line

/-- The count and the array are those of the words of the line. -/
def ParsesRight (line : List CChar) (ws : Words) : Prop :=
  (parseCommand line ws).1 = (lineWords line).length ∧
    ∀ i (h : i < (lineWords line).length), (parseCommand line ws).2 i = .word (lineWords line)[i]

/-! ## One word -/

theorem drop_takeWhile (p : CChar → Bool) (l : List CChar) : l.drop (l.takeWhile p).length = l.dropWhile p := by
  have h : (l.takeWhile p ++ l.dropWhile p).drop (l.takeWhile p).length = l.dropWhile p := List.drop_left
  rwa [List.takeWhile_append_dropWhile] at h

/-- What one `sscanf` leaves of the line. -/
def afterScan (line : List CChar) : List CChar :=
  line.drop ((line.takeWhile isspace).length + ((firstWord isspace line).take 99).length)

theorem sscanfWord_eq (line : List CChar) : sscanfWord line =
    if firstWord isspace line = [] then none
    else some ((firstWord isspace line).take 99,
      (line.takeWhile isspace).length + ((firstWord isspace line).take 99).length) := by
  unfold sscanfWord firstWord
  simp only [drop_takeWhile, List.take_eq_nil_iff]
  simp

theorem afterScan_short (h : (firstWord isspace line).length ≤ 99) : afterScan line = afterWord isspace line := by
  unfold afterScan
  rw [List.take_of_length_le h, ← List.drop_drop, drop_takeWhile]
  exact drop_takeWhile (fun c => !isspace c) (line.dropWhile isspace)

/-! ## The loop -/

theorem parseLoop_done (hnone : firstWord isspace line = []) : parseLoop (turns + 1) line count ws = (count, ws) := by
  rw [parseLoop, sscanfWord_eq, if_pos hnone]

theorem parseLoop_cut (hne : firstWord isspace line ≠ []) : parseLoop (turns + 1) line count ws =
    parseLoop turns (afterScan line) (count + 1)
      (Function.update ws count (.word ((firstWord isspace line).take 99))) := by
  rw [parseLoop, sscanfWord_eq, if_neg hne]
  rfl

theorem parseLoop_next (hne : firstWord isspace line ≠ []) (hlen : (firstWord isspace line).length ≤ 99) :
    parseLoop (turns + 1) line count ws = parseLoop turns (afterWord isspace line) (count + 1)
      (Function.update ws count (.word (firstWord isspace line))) := by
  rw [parseLoop_cut hne, afterScan_short hlen, List.take_of_length_le hlen]

theorem parseLoop_words (turns : Nat) (line : List CChar) (count : Nat) (ws : Words)
    (hshort : ∀ word ∈ lineWords line, word.length ≤ 99) (hturns : (lineWords line).length ≤ turns) :
    (parseLoop turns line count ws).1 = count + (lineWords line).length ∧
      (∀ i < count, (parseLoop turns line count ws).2 i = ws i) ∧
      ∀ i word, (lineWords line)[i]? = some word → (parseLoop turns line count ws).2 (count + i) = .word word := by
  induction turns generalizing line count ws with
  | zero =>
    have hnone : lineWords line = [] := List.eq_nil_of_length_eq_zero (Nat.le_zero.mp hturns)
    rw [parseLoop, hnone]
    exact ⟨rfl, fun _ _ => rfl, fun i word hword => by simp at hword⟩
  | succ turns ih =>
    have hwords : lineWords line = _ := words_eq line
    by_cases hnone : firstWord isspace line = []
    · rw [if_pos hnone] at hwords
      rw [parseLoop_done hnone, hwords]
      exact ⟨rfl, fun _ _ => rfl, fun i word hword => by simp at hword⟩
    · rw [if_neg hnone] at hwords
      rw [hwords] at hshort hturns ⊢
      rw [parseLoop_next hnone (hshort _ List.mem_cons_self)]
      obtain ⟨hcount, hkeep, hnew⟩ := ih (afterWord isspace line) (count + 1)
        (Function.update ws count (.word (firstWord isspace line)))
        (fun word hmem => hshort word (List.mem_cons_of_mem _ hmem)) (Nat.le_of_succ_le_succ hturns)
      refine ⟨?_, fun i hi => ?_, fun i word hword => ?_⟩
      · rw [hcount, List.length_cons]
        simp only [lineWords]
        omega
      · rw [hkeep i (by omega), Function.update_of_ne (by omega)]
      · cases i with
        | zero =>
          cases hword
          exact (hkeep count (by omega)).trans (Function.update_self _ _ _)
        | succ i =>
          rw [List.getElem?_cons_succ] at hword
          have hi : count + (i + 1) = count + 1 + i := by omega
          rw [hi]
          exact hnew i word hword

theorem parseLoop_short (turns : Nat) (line : List CChar) (count : Nat) (ws : Words) :
    (∀ i < count, (parseLoop turns line count ws).2 i = ws i) ∧
      ∀ i, count ≤ i → i < (parseLoop turns line count ws).1 →
        ∃ str, (parseLoop turns line count ws).2 i = .word str ∧ str.length ≤ 99 := by
  induction turns generalizing line count ws with
  | zero =>
    rw [parseLoop]
    exact ⟨fun _ _ => rfl, fun i hi hlt => by omega⟩
  | succ turns ih =>
    by_cases hnone : firstWord isspace line = []
    · rw [parseLoop_done hnone]
      exact ⟨fun _ _ => rfl, fun i hi hlt => by simp only at hlt; omega⟩
    · rw [parseLoop_cut hnone]
      generalize hstr : (firstWord isspace line).take 99 = str
      have hlen : str.length ≤ 99 := by
        rw [← hstr]
        exact List.length_take_le _ _
      obtain ⟨hkeep, hnew⟩ := ih (afterScan line) (count + 1)
        (Function.update ws count (.word str))
      refine ⟨fun i hi => ?_, fun i hi hlt => ?_⟩
      · exact (hkeep i (by omega)).trans (Function.update_of_ne (by omega) _ _)
      · by_cases hi' : i = count
        · subst hi'
          exact ⟨str, (hkeep i (by omega)).trans (Function.update_self _ _ _), hlen⟩
        · exact hnew i (by omega) hlt

/-- Two words have a blank between them, and what was cut from a long one is as good. -/
theorem parseLoop_count_le (turns : Nat) (line : List CChar) (count : Nat) (ws : Words) :
    2 * (parseLoop turns line count ws).1 ≤ 2 * count + line.length + 1 ∧
      ((∀ c ∈ line.head?, isspace c = true) → 2 * (parseLoop turns line count ws).1 ≤ 2 * count + line.length) := by
  induction turns generalizing line count ws with
  | zero =>
    simp only [parseLoop]
    omega
  | succ turns ih =>
    by_cases hnone : firstWord isspace line = []
    · rw [parseLoop_done hnone]
      omega
    · have hpos := List.length_pos_of_ne_nil hnone
      have hcut : ((firstWord isspace line).take 99).length = min 99 (firstWord isspace line).length := List.length_take
      have hblank : (∀ c ∈ line.head?, isspace c = true) → 0 < (line.takeWhile isspace).length := by
        intro hhead
        cases line with
        | nil => exact absurd rfl hnone
        | cons c line => simp [hhead c rfl]
      have hfits : (line.takeWhile isspace).length + (firstWord isspace line).length ≤ line.length := by
        have hsplit := congrArg List.length (List.takeWhile_append_dropWhile (p := isspace) (l := line))
        have hword : (firstWord isspace line).length ≤ (line.dropWhile isspace).length :=
          (List.takeWhile_sublist _).length_le
        rw [List.length_append] at hsplit
        omega
      have hrest : (afterScan line).length =
          line.length - ((line.takeWhile isspace).length + ((firstWord isspace line).take 99).length) :=
        List.length_drop
      obtain ⟨hany, hspace⟩ := ih (afterScan line) (count + 1)
        (Function.update ws count (.word ((firstWord isspace line).take 99)))
      rw [parseLoop_cut hnone]
      by_cases hlen : (firstWord isspace line).length ≤ 99
      · have hnext := hspace (by
          rw [afterScan_short hlen]
          intro c hc
          simpa using head?_dropWhile_not (fun c => !isspace c) (line.dropWhile isspace) c hc)
        refine ⟨by omega, fun hhead => ?_⟩
        have hfirst := hblank hhead
        omega
      · omega

theorem parsed_count_lt (hline : Delivered line) (ws : Words) : (parseCommand line ws).1 < maxWords := by
  have hcount := (parseLoop_count_le maxWords (text line) 0 ws).1
  have htext : (text line).length ≤ line.length := strlen_le_length line
  have hmax := hline.2.1
  unfold maxCommandLen at hmax
  unfold parseCommand
  unfold maxWords at *
  omega

/-! ## All lines -/

theorem parsed_words (hline : Delivered line) (hzero : 0 ∉ line) (hshort : ∀ word ∈ lineWords line, word.length ≤ 99)
    (ws : Words) : ParsesRight line ws := by
  have hlen : 2 * (lineWords line).length ≤ line.length + 1 := length_words_le line
  have hmax := hline.2.1
  have hturns : (lineWords line).length ≤ maxWords := by
    unfold maxCommandLen at hmax
    unfold maxWords
    omega
  obtain ⟨hcount, -, hwords⟩ := parseLoop_words maxWords line 0 ws hshort hturns
  unfold ParsesRight parseCommand
  rw [text_eq_self hzero]
  refine ⟨by omega, fun i hi => ?_⟩
  have hi' := hwords i _ (List.getElem?_eq_getElem hi)
  rwa [Nat.zero_add] at hi'

/-- **When a line is split into its words**: when none of them is longer than 99 characters. -/
theorem parses_right_iff (hline : Delivered line) (hzero : 0 ∉ line) (ws : Words) :
    ParsesRight line ws ↔ ∀ word ∈ lineWords line, word.length ≤ 99 := by
  refine ⟨fun h word hmem => ?_, fun hshort => parsed_words hline hzero hshort ws⟩
  obtain ⟨i, hi, rfl⟩ := List.getElem_of_mem hmem
  obtain ⟨str, hstr, hlen⟩ := (parseLoop_short maxWords (text line) 0 ws).2 i (Nat.zero_le i) (by
    have hcount := h.1
    unfold parseCommand at hcount
    omega)
  have hword := h.2 i hi
  unfold parseCommand at hword
  rw [hword] at hstr
  cases hstr
  exact hlen

theorem parses_right_sample : ParsesRight (ascii " ls  -l\n") fun _ => .unset := by
  have hline : Delivered (ascii " ls  -l\n") := by decide +kernel
  exact (parses_right_iff hline (by decide +kernel) _).mpr (by decide +kernel)

/-- 100 letters -/
def longWord : List CChar := List.replicate 100 0x61 ++ [0x0a]

/-- It becomes two words. -/
theorem long_word_cut : ¬ ∀ (line : List CChar) (ws : Words), Delivered line → 0 ∉ line → ParsesRight line ws := by
  intro h
  have hright := (h longWord (fun _ => .unset) (by decide +kernel) (by decide +kernel)).1
  exact absurd hright (by decide +kernel)

end OsCoursework.Stash
