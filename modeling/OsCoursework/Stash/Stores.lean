import OsCoursework.Stash.Accesses

/-!
# What is stored to the words

Every word but the last has a blank behind it or 99 characters, so no line has more than 512. The
array has room for them, for the null behind them, and for one more.
-/

open OsCoursework.Cstring OsCoursework.Words

namespace OsCoursework.Stash

variable {line : List CChar} {ws : Words} {count i : Nat}

/-- The indices that `parseLoop` stores to. -/
def loopStores : Nat → List CChar → Nat → List Nat
  | 0, _, _ => []
  | turns + 1, line, count =>
    match sscanfWord line with
    | none => []
    | some (_, offset) => count :: loopStores turns (line.drop offset) (count + 1)

def parseStores (line : List CChar) : List Nat := loopStores maxWords (text line) 0

/-- The index of `words[ count ] = NULL` in `runCommand`. -/
def terminator (words : Words) (args : Nat) : Nat := if isBackground words args then args - 1 else args

theorem loopStores_done {turns : Nat} (hnone : firstWord isspace line = []) :
    loopStores (turns + 1) line count = [] := by
  rw [loopStores, sscanfWord_eq, if_pos hnone]

theorem loopStores_cut {turns : Nat} (hne : firstWord isspace line ≠ []) :
    loopStores (turns + 1) line count = count :: loopStores turns (afterScan line) (count + 1) := by
  rw [loopStores, sscanfWord_eq, if_neg hne]
  rfl

theorem loopStores_eq (turns : Nat) (line : List CChar) (count : Nat) (ws : Words) :
    loopStores turns line count = List.range' count ((parseLoop turns line count ws).1 - count) ∧
      ∀ i ∉ loopStores turns line count, (parseLoop turns line count ws).2 i = ws i := by
  induction turns generalizing line count ws with
  | zero => simp [loopStores, parseLoop]
  | succ turns ih =>
    by_cases hnone : firstWord isspace line = []
    · rw [loopStores_done hnone, parseLoop_done hnone]
      simp
    · rw [loopStores_cut hnone, parseLoop_cut hnone]
      generalize hword : Function.update ws count (.word ((firstWord isspace line).take 99)) = ws'
      obtain ⟨hrest, hsame⟩ := ih (afterScan line) (count + 1) ws'
      have hle := parseLoop_count turns (afterScan line) (count + 1) ws'
      refine ⟨?_, fun i hi => ?_⟩
      · have hmore : (parseLoop turns (afterScan line) (count + 1) ws').1 - count =
            (parseLoop turns (afterScan line) (count + 1) ws').1 - (count + 1) + 1 := by omega
        rw [hmore, List.range'_succ, hrest]
      · rw [List.mem_cons, not_or] at hi
        rw [hsame i hi.2, ← hword, Function.update_of_ne hi.1]

theorem mem_parseStores (ws : Words) : i ∈ parseStores line ↔ i < (parseCommand line ws).1 := by
  unfold parseStores parseCommand
  rw [(loopStores_eq maxWords (text line) 0 ws).1, List.mem_range'_1]
  omega

theorem terminator_le (words : Words) (args : Nat) : terminator words args ≤ args := by
  unfold terminator
  split_ifs
  · exact Nat.sub_le args 1
  · exact le_rfl

/-- `runCommand` has no meaning when the array has no room for the null. -/
theorem runCommand_isSome {sh : Shell} {args : Nat} {str : List CChar} (hlast : sh.words (args - 1) = .word str)
    (hroom : args < maxWords) (s : State) (pid : Nat) (forks : Bool) : (runCommand s pid sh args forks).isSome := by
  have hcount : ∀ background : Bool, (if background then args - 1 else args) < maxWords := by
    intro background
    split_ifs <;> omega
  unfold runCommand
  rw [hlast]
  simp only [Slot.str, Option.bind_some, hcount, if_true]
  split_ifs <;> rfl

theorem parsed_count_le (hline : line.length ≤ 1023) (ws : Words) : (parseCommand line ws).1 ≤ 512 := by
  have hcount := (parseLoop_count_le maxWords (text line) 0 ws).1
  have htext : (text line).length ≤ line.length := strlen_le_length line
  unfold parseCommand
  omega

/-- **No store is past the array.** -/
theorem stores_in_bounds (hline : line.length ≤ 1023) (ws : Words) :
    (parseCommand line ws).1 ≤ 512 ∧ (∀ i ∈ parseStores line, i < maxWords) ∧
      (∀ i ∉ parseStores line, (parseCommand line ws).2 i = ws i) ∧
      terminator (parseCommand line ws).2 (parseCommand line ws).1 < maxWords ∧
      (0 < (parseCommand line ws).1 → ∀ (s : State) (pid : Nat) (sh : Shell) (forks : Bool),
        (runCommand s pid { sh with words := (parseCommand line ws).2 } (parseCommand line ws).1 forks).isSome) := by
  have hcount := parsed_count_le hline ws
  have hroom : 512 < maxWords := by decide
  refine ⟨hcount, fun i hi => ?_, (loopStores_eq maxWords (text line) 0 ws).2, ?_, fun hargs s pid sh forks => ?_⟩
  · exact (((mem_parseStores ws).mp hi).trans_le hcount).trans hroom
  · exact ((terminator_le _ _).trans hcount).trans_lt hroom
  · obtain ⟨str, hstr⟩ := parsed_word line ws (Nat.sub_one_lt_of_lt hargs)
    exact runCommand_isSome hstr (hcount.trans_lt hroom) s pid forks

theorem stores_in_bounds_long : parseStores (List.replicate 100 0x61 ++ [0x20, 0x26, 0x0a]) = [0, 1, 2] ∧
    terminator (parseCommand (List.replicate 100 0x61 ++ [0x20, 0x26, 0x0a]) fun _ => .unset).2 3 < maxWords := by
  have hline : (List.replicate 100 (0x61 : CChar) ++ [0x20, 0x26, 0x0a]).length ≤ 1023 := by decide
  obtain ⟨-, -, -, hterminator, -⟩ := stores_in_bounds hline fun _ => .unset
  have hargs : (parseCommand (List.replicate 100 0x61 ++ [0x20, 0x26, 0x0a]) fun _ => .unset).1 = 3 := by
    decide +kernel
  rw [hargs] at hterminator
  exact ⟨by decide +kernel, hterminator⟩

end OsCoursework.Stash
