import OsCoursework.Exclude.Copy
import OsCoursework.Lib.Descriptors

/-!
# A program between two files

`ex04/redirect.c`. The child puts two files in the places of its standard input and output before
`cat` runs. `open` gives the lowest descriptor that is not open, so what comes of it depends on the
descriptors that the program was started with. `fork` does not fail, and `output.txt` may be written.
-/

open OsCoursework.Cstring OsCoursework.Descriptors

namespace OsCoursework.Redirect

inductive File where
  /-- It was open when the program started. -/
  | inherited (fd : Nat)
  | input
  | output
  deriving DecidableEq

def stdin : Nat := 0

def stdout : Nat := 1

structure Setting where
  /-- No descriptor is as large. -/
  limit : Nat
  isOpen : Nat → Bool
  input : Option (List CChar)
  output : Option (List CChar)
  /-- What `cat` writes when it reads `input.txt`. -/
  blocks : List (List CChar)

def Setting.start (P : Setting) : Table Nat File := fun fd => if P.isOpen fd then some (.inherited fd) else none

def failText (msg : String) : String := "Error: " ++ msg ++ "\n"

/-- A file is opened, put in the place of `std`, and its other descriptor is closed. -/
def replace (limit : Nat) (t : Table Nat File) (e : File) (std : Nat) (opening replacing : String) :
    Except String (Table Nat File) :=
  match t.lowest limit with
  | none => .error (failText opening)
  | some fd =>
    -- `dup2` of an open descriptor fails only for a number that is too large.
    if std < limit then .ok (((t.open fd e).dup2 fd std).close fd) else .error (failText replacing)

def replaceInput (P : Setting) (t : Table Nat File) : Except String (Table Nat File) :=
  if P.input = none then .error (failText "Error opening input.txt")
  else replace P.limit t .input stdin "Error opening input.txt" "Error replacing standard input"

def replaceOutput (P : Setting) (t : Table Nat File) : Except String (Table Nat File) :=
  replace P.limit t .output stdout "Error opening output.txt" "Error replacing standard output"

/-- The table that `cat` gets, or what is printed instead. -/
def child (P : Setting) : Except String (Table Nat File) := (replaceInput P P.start).bind (replaceOutput P)

/-- `output.txt` when the child is gone. Without both of its descriptors `cat` leaves it alone. -/
def Setting.outputAfter (P : Setting) : List CChar :=
  match child P with
  | .ok t =>
    if t stdin = some .input ∧ t stdout = some .output then Exclude.outContents P.output P.blocks
    else P.output.getD []
  | .error _ => P.output.getD []

/-! ## One file -/

variable {P : Setting} {t t' : Table Nat File} {e : File} {limit std fd : Nat} {opening replacing : String}

/-- If `open` gives `std` itself, the file is closed again. -/
theorem replace_eq (hfd : t.lowest limit = some fd) (hstd : std < limit) :
    replace limit t e std opening replacing = .ok (if fd = std then t else t.open std e) := by
  obtain ⟨hfree, -, -⟩ := lowest_eq_some.mp hfd
  unfold replace
  rw [hfd]
  dsimp only
  rw [if_pos hstd]
  congr 1
  unfold Table.close Table.dup2 Table.open
  funext d
  by_cases hd : d = fd
  · subst hd
    rw [Function.update_self]
    split_ifs with heq
    · exact hfree.symm
    · rw [Function.update_of_ne heq]
      exact hfree.symm
  · rw [Function.update_of_ne hd]
    split_ifs with heq
    · subst heq
      rw [Function.update_of_ne hd, Function.update_of_ne hd]
    · by_cases hd' : d = std
      · subst hd'
        rw [Function.update_self, Function.update_self, Function.update_self]
      · rw [Function.update_of_ne hd', Function.update_of_ne hd, Function.update_of_ne hd']

theorem replace_low (hstd : limit ≤ std) : ∃ msg, replace limit t e std opening replacing = .error msg := by
  unfold replace
  cases t.lowest limit with
  | none => exact ⟨_, rfl⟩
  | some fd => exact ⟨_, if_neg (not_lt.mpr hstd)⟩

theorem replace_full (hfull : t.lowest limit = none) :
    replace limit t e std opening replacing = .error (failText opening) := by
  unfold replace
  rw [hfull]

/-! ## Both files -/

/-- The child can open its files, and both standard descriptors are open before. -/
structure Setting.Redirects (P : Setting) : Prop where
  there : P.input ≠ none
  free : ∃ fd, fd < P.limit ∧ P.isOpen fd = false
  stdin : P.isOpen stdin = true
  stdout : P.isOpen stdout = true

theorem start_eq_none_iff (d : Nat) : P.start d = none ↔ P.isOpen d = false := by
  unfold Setting.start
  split_ifs with h <;> simp [h]

theorem lowest_after (hfd : t.lowest limit = some fd) :
    ∃ fd', Table.lowest limit (if fd = stdin then t else t.open stdin e) = some fd' := by
  obtain ⟨hfree, hlt, -⟩ := lowest_eq_some.mp hfd
  apply Option.isSome_iff_exists.mp
  apply lowest_isSome_iff.mpr
  refine ⟨fd, hlt, ?_⟩
  split_ifs with hzero
  · exact hfree
  · unfold Table.open
    rw [Function.update_of_ne hzero]
    exact hfree

theorem child_eq (hlimit : 2 ≤ P.limit) (hthere : P.input ≠ none) (hfd : P.start.lowest P.limit = some fd) :
    ∃ t, child P = .ok t ∧ (t stdin = some .input ∧ t stdout = some .output ↔
      P.isOpen stdin = true ∧ P.isOpen stdout = true) ∧ ∀ d, 2 ≤ d → t d = P.start d := by
  obtain ⟨fd', hfd'⟩ := lowest_after (e := .input) hfd
  have hfirst : replaceInput P P.start = .ok (if fd = stdin then P.start else P.start.open stdin .input) := by
    unfold replaceInput
    rw [if_neg hthere]
    exact replace_eq hfd (show 0 < P.limit by omega)
  have hsecond : replaceOutput P (if fd = stdin then P.start else P.start.open stdin .input) =
      .ok (if fd' = stdout then if fd = stdin then P.start else P.start.open stdin .input
        else Table.open (if fd = stdin then P.start else P.start.open stdin .input) stdout .output) :=
    replace_eq hfd' (show 1 < P.limit by omega)
  refine ⟨_, (congrArg (Except.bind · (replaceOutput P)) hfirst).trans hsecond, ?_, fun d hd => ?_⟩
  · by_cases h0 : P.isOpen stdin = true
    · have hin : fd ≠ stdin := lowest_ne hfd (by simp [start_eq_none_iff, h0])
      rw [if_neg hin] at hfd' ⊢
      have hplace : (P.start.open stdin .input) stdout = P.start stdout := Function.update_of_ne (by decide) _ _
      have hput : (P.start.open stdin .input) stdin = some .input := Function.update_self ..
      by_cases h1 : P.isOpen stdout = true
      · have hout : fd' ≠ stdout := lowest_ne hfd' (by simp [hplace, start_eq_none_iff, h1])
        rw [if_neg hout]
        refine iff_of_true ⟨?_, Function.update_self ..⟩ ⟨h0, h1⟩
        exact (Function.update_of_ne (by decide) _ _).trans hput
      · have hclosed : P.start stdout = none := (start_eq_none_iff _).mpr (Bool.eq_false_iff.mpr h1)
        have hout : fd' = stdout := by
          have hpos : fd' ≠ stdin := lowest_ne hfd' (by simp [hput])
          rw [lowest_eq_iff hfd', hplace]
          exact ⟨Nat.one_le_iff_ne_zero.mpr hpos, hclosed⟩
        rw [if_pos hout, hplace, hclosed]
        exact iff_of_false (fun h => absurd h.2 (by simp)) fun h => h1 h.2
    · have hclosed : P.start stdin = none := (start_eq_none_iff _).mpr (Bool.eq_false_iff.mpr h0)
      have hin : fd = stdin := (lowest_eq_iff hfd _).mpr ⟨Nat.zero_le _, hclosed⟩
      refine iff_of_false (fun h => ?_) fun h => h0 h.1
      rw [if_pos hin] at h
      have hnone : (if fd' = stdout then P.start else P.start.open stdout .output) stdin = none := by
        split_ifs
        · exact hclosed
        · exact (Function.update_of_ne (by decide) _ _).trans hclosed
      exact absurd (h.1.symm.trans hnone) (by simp)
  · have hne0 : d ≠ stdin := by unfold stdin; omega
    have hne1 : d ≠ stdout := by unfold stdout; omega
    unfold Table.open
    split_ifs <;> simp [hne0, hne1]

theorem child_failed (h : P.limit ≤ stdout ∨ P.input = none ∨ P.start.lowest P.limit = none) :
    ∃ msg, child P = .error msg := by
  rcases h with hlow | h
  · unfold child
    cases replaceInput P P.start with
    | error msg => exact ⟨msg, rfl⟩
    | ok t => exact replace_low hlow
  · unfold child replaceInput
    split_ifs with hthere
    · exact ⟨_, rfl⟩
    · rw [replace_full (h.resolve_left hthere)]
      exact ⟨_, rfl⟩

theorem Setting.Redirects.two_le (h : P.Redirects) : 2 ≤ P.limit := by
  obtain ⟨fd, hfd, hclosed⟩ := h.free
  have hne : fd ≠ 0 := by
    rintro rfl
    exact absurd (h.stdin.symm.trans hclosed) (by decide)
  omega

/-- **The file is copied** over the start of the other one, as long as the program is started with both standard
descriptors. If it is not, `output.txt` stays as it was. Beside the two, no descriptor is changed. -/
theorem redirect_copies (P : Setting) (hcat : P.blocks.flatten = P.input.getD []) :
    (P.Redirects → P.outputAfter = P.input.getD [] ++ (P.output.getD []).drop (P.input.getD []).length) ∧
      (¬ P.Redirects → P.outputAfter = P.output.getD []) ∧
      ∀ t, child P = .ok t → ∀ d, 2 ≤ d → t d = P.start d := by
  by_cases hruns : 2 ≤ P.limit ∧ P.input ≠ none ∧ (P.start.lowest P.limit).isSome = true
  · obtain ⟨hlimit, hthere, hfree⟩ := hruns
    obtain ⟨fd, hfd⟩ := Option.isSome_iff_exists.mp hfree
    obtain ⟨t, hchild, hboth, hrest⟩ := child_eq hlimit hthere hfd
    have hafter : P.outputAfter = if t stdin = some .input ∧ t stdout = some .output then
        Exclude.outContents P.output P.blocks else P.output.getD [] := by
      unfold Setting.outputAfter
      rw [hchild]
    refine ⟨fun h => ?_, fun h => ?_, fun t' ht' => ?_⟩
    · rw [hafter, if_pos (hboth.mpr ⟨h.stdin, h.stdout⟩), Exclude.outContents_eq, hcat]
    · rw [hafter, if_neg]
      intro hopen
      obtain ⟨h0, h1⟩ := hboth.mp hopen
      obtain ⟨d, hd, hclosed⟩ := lowest_isSome_iff.mp hfree
      exact h ⟨hthere, ⟨d, hd, (start_eq_none_iff d).mp hclosed⟩, h0, h1⟩
    · obtain rfl := Except.ok.inj (hchild.symm.trans ht')
      exact hrest
  · have hfails : P.limit ≤ stdout ∨ P.input = none ∨ P.start.lowest P.limit = none := by
      by_contra hno
      obtain ⟨hlimit, hno⟩ := not_or.mp hno
      obtain ⟨hthere, hfree⟩ := not_or.mp hno
      exact hruns ⟨not_le.mp hlimit, hthere, Option.isSome_iff_ne_none.mpr hfree⟩
    obtain ⟨msg, hchild⟩ := child_failed hfails
    have hafter : P.outputAfter = P.output.getD [] := by
      unfold Setting.outputAfter
      rw [hchild]
    refine ⟨fun h => absurd ?_ hruns, fun _ => hafter, fun t ht => ?_⟩
    · obtain ⟨d, hd, hclosed⟩ := h.free
      exact ⟨h.two_le, h.there, lowest_isSome_iff.mpr ⟨d, hd, (start_eq_none_iff d).mpr hclosed⟩⟩
    · cases hchild.symm.trans ht

def sampleSetting : Setting where
  limit := 8
  isOpen fd := fd ≤ 2
  input := some (ascii "ab\n")
  output := some (ascii "xxxx\n")
  blocks := [ascii "a", ascii "b\n"]

theorem redirect_copies_sample : sampleSetting.outputAfter = ascii "ab\nx\n" :=
  ((redirect_copies sampleSetting (by decide)).1
    ⟨by decide, ⟨3, by decide, by decide⟩, by decide, by decide⟩).trans (by decide)

end OsCoursework.Redirect
