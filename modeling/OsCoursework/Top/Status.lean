import OsCoursework.Top.Code

/-!
# What is read of a status file

No line begins with two of the four keys. So each part of the record comes from the lines with its
own key, and the loop may stop when it has seen all four.
-/

open OsCoursework.Cstring OsCoursework.ForLoop OsCoursework.Lines OsCoursework.Words

namespace OsCoursework.Top

/-- What the lines of a status file say, behind the keys. The size is a number. -/
structure Fields where
  name : List CChar
  state : List CChar
  ppid : List CChar
  vmSize : Nat

/-- There is one line for each key. The others do not matter. -/
structure Gives (lines : List (List CChar)) (f : Fields) : Prop where
  name : lines.filter (ascii "Name:" <+: ·) = [ascii "Name:" ++ f.name]
  state : lines.filter (ascii "State:" <+: ·) = [ascii "State:" ++ f.state]
  ppid : lines.filter (ascii "PPid:" <+: ·) = [ascii "PPid:" ++ f.ppid]
  vmSize : ∃ blanks digits, (∀ c ∈ blanks, isSpace c = true) ∧ (∀ c ∈ digits, isDigit c = true) ∧ digits ≠ [] ∧
    numeral digits = f.vmSize ∧
    lines.filter (ascii "VmSize:" <+: ·) = [ascii "VmSize:" ++ (blanks ++ (digits ++ ascii " kB\n"))]

variable {lines pre post : List (List CChar)} {line : List CChar} {s : Scan} {f : Fields}

/-! ## The loop -/

theorem statusLoop_split (lines : List (List CChar)) (s : Scan) : ∃ pre post, lines = pre ++ post ∧
    statusLoop lines s = pre.foldl scanLine s ∧ (post = [] ∨ (pre.foldl scanLine s).done = true) := by
  induction lines generalizing s with
  | nil => exact ⟨[], [], rfl, rfl, Or.inl rfl⟩
  | cons line lines ih =>
    by_cases hdone : (scanLine s line).done = true
    · refine ⟨[line], lines, rfl, ?_, Or.inr hdone⟩
      simp only [statusLoop, if_pos hdone]
      rfl
    · obtain ⟨pre, post, rfl, hloop, hend⟩ := ih (scanLine s line)
      refine ⟨line :: pre, post, rfl, ?_, hend⟩
      simp only [statusLoop, if_neg hdone]
      exact hloop

theorem foldl_filter {σ τ ι : Type} (step : σ → ι → σ) (get : σ → τ) {p : ι → Bool} {put : τ → ι → τ}
    (hon : ∀ s i, p i = true → get (step s i) = put (get s) i) (hoff : ∀ s i, p i = false → get (step s i) = get s)
    (l : List ι) (s : σ) : get (l.foldl step s) = (l.filter p).foldl put (get s) := by
  induction l generalizing s with
  | nil => rfl
  | cons i l ih =>
    rw [List.foldl_cons, ih]
    cases hp : p i with
    | true => rw [List.filter_cons_of_pos hp, List.foldl_cons, hon s i hp]
    | false => rw [List.filter_cons_of_neg (by simp [hp]), hoff s i hp]

theorem other_key {key key' : List CChar} (h : key <+: line) (hhead : key.head? ≠ key'.head?) (hne : key ≠ [])
    (hne' : key' ≠ []) : ¬ key' <+: line := by
  intro h'
  obtain ⟨rest, hrest⟩ := h
  obtain ⟨rest', hrest'⟩ := h'
  have heq := congrArg List.head? (hrest.trans hrest'.symm)
  rw [List.head?_append_of_ne_nil _ hne, List.head?_append_of_ne_nil _ hne'] at heq
  exact hhead heq

/-! ## One line -/

theorem scanLine_name (h : ascii "Name:" <+: line) : scanLine s line =
    { s with proc := { s.proc with pname := (scanWord (line.drop 5)).getD s.proc.pname }, foundName := true } :=
  if_pos h

theorem scanLine_state (h : ascii "State:" <+: line) : scanLine s line =
    { s with proc := { s.proc with pstate := (scanChar (line.drop 6)).getD s.proc.pstate }, foundState := true } := by
  unfold scanLine
  rw [if_neg (other_key h (by decide) (by decide) (by decide)), if_pos h]

theorem scanLine_ppid (h : ascii "PPid:" <+: line) : scanLine s line =
    { s with proc := { s.proc with ppid := (scanInt (line.drop 5)).getD s.proc.ppid }, foundPpid := true } := by
  unfold scanLine
  rw [if_neg (other_key h (by decide) (by decide) (by decide)),
    if_neg (other_key h (by decide) (by decide) (by decide)), if_pos h]

theorem scanLine_vmSize (h : ascii "VmSize:" <+: line) : scanLine s line =
    { s with proc := { s.proc with memsize := (scanInt (line.drop 7)).getD s.proc.memsize }, foundVmsize := true } := by
  unfold scanLine
  rw [if_neg (other_key h (by decide) (by decide) (by decide)),
    if_neg (other_key h (by decide) (by decide) (by decide)),
    if_neg (other_key h (by decide) (by decide) (by decide)), if_pos h]

/-! ## All lines -/

theorem foldl_pid (lines : List (List CChar)) (s : Scan) : (lines.foldl scanLine s).proc.pid = s.proc.pid := by
  induction lines generalizing s with
  | nil => rfl
  | cons line lines ih =>
    rw [List.foldl_cons, ih]
    unfold scanLine
    split_ifs <;> rfl

theorem foldl_name (lines : List (List CChar)) (s : Scan) :
    ((lines.foldl scanLine s).proc.pname, (lines.foldl scanLine s).foundName) =
      (lines.filter (ascii "Name:" <+: ·)).foldl (fun t line => ((scanWord (line.drop 5)).getD t.1, true))
        (s.proc.pname, s.foundName) := by
  refine foldl_filter scanLine (fun s => (s.proc.pname, s.foundName)) ?_ ?_ lines s
  · intro s line h
    rw [scanLine_name (of_decide_eq_true h)]
  · intro s line h
    unfold scanLine
    rw [if_neg (of_decide_eq_false h)]
    split_ifs <;> rfl

theorem foldl_state (lines : List (List CChar)) (s : Scan) :
    ((lines.foldl scanLine s).proc.pstate, (lines.foldl scanLine s).foundState) =
      (lines.filter (ascii "State:" <+: ·)).foldl (fun t line => ((scanChar (line.drop 6)).getD t.1, true))
        (s.proc.pstate, s.foundState) := by
  refine foldl_filter scanLine (fun s => (s.proc.pstate, s.foundState)) ?_ ?_ lines s
  · intro s line h
    rw [scanLine_state (of_decide_eq_true h)]
  · intro s line h
    unfold scanLine
    rw [if_neg (of_decide_eq_false h)]
    split_ifs <;> rfl

theorem foldl_ppid (lines : List (List CChar)) (s : Scan) :
    ((lines.foldl scanLine s).proc.ppid, (lines.foldl scanLine s).foundPpid) =
      (lines.filter (ascii "PPid:" <+: ·)).foldl (fun t line => ((scanInt (line.drop 5)).getD t.1, true))
        (s.proc.ppid, s.foundPpid) := by
  refine foldl_filter scanLine (fun s => (s.proc.ppid, s.foundPpid)) ?_ ?_ lines s
  · intro s line h
    rw [scanLine_ppid (of_decide_eq_true h)]
  · intro s line h
    unfold scanLine
    rw [if_neg (of_decide_eq_false h)]
    split_ifs <;> rfl

theorem foldl_vmSize (lines : List (List CChar)) (s : Scan) :
    ((lines.foldl scanLine s).proc.memsize, (lines.foldl scanLine s).foundVmsize) =
      (lines.filter (ascii "VmSize:" <+: ·)).foldl (fun t line => ((scanInt (line.drop 7)).getD t.1, true))
        (s.proc.memsize, s.foundVmsize) := by
  refine foldl_filter scanLine (fun s => (s.proc.memsize, s.foundVmsize)) ?_ ?_ lines s
  · intro s line h
    rw [scanLine_vmSize (of_decide_eq_true h)]
  · intro s line h
    unfold scanLine
    rw [if_neg (of_decide_eq_false h)]
    split_ifs <;> rfl

/-! ## The record -/

theorem part_read {τ : Type} {p : List CChar → Bool} {scan : List CChar → Option τ} {t t₀ : τ} {found : Bool}
    (hpart : (t, found) = (pre.filter p).foldl (fun t line => ((scan line).getD t.1, true)) (t₀, false))
    (hone : (pre ++ post).filter p = [line]) (hread : post = [] ∨ found = true) :
    t = (scan line).getD t₀ ∧ found = true := by
  have hpre : pre.filter p = [line] := by
    rw [List.filter_append, List.append_eq_singleton_iff] at hone
    rcases hone with ⟨hnone, hpost⟩ | ⟨hpre, -⟩
    · rw [hnone] at hpart
      rcases hread with rfl | rfl
      · cases hpost
      · cases hpart
    · exact hpre
  rw [hpre] at hpart
  exact Prod.mk.inj hpart

theorem scanInt_digits {blanks digits : List CChar} (hblanks : ∀ c ∈ blanks, isSpace c = true)
    (hdigits : ∀ c ∈ digits, isDigit c = true) (hne : digits ≠ []) :
    scanInt (blanks ++ (digits ++ ascii " kB\n")) = some (int32 (min (numeral digits : Int) (2 ^ 63 - 1))) := by
  have hend : ∀ c ∈ (ascii " kB\n").head?, isDigit c = false := by decide
  obtain ⟨hminus, hplus⟩ := @head?_digits_ne digits (ascii " kB\n") hdigits hne
  unfold scanInt atoi
  simp only [dropWhile_blanks hblanks hdigits hne, hminus, hplus, or_self, if_false, takeWhile_digits hdigits hend, hne,
    strtol_append hblanks hdigits hne hend]

def record (pid : Int) (f : Fields) : MyProcess where
  pid
  pname := (scanWord f.name).getD []
  pstate := (scanChar f.state).getD 0
  ppid := (scanInt f.ppid).getD 0
  memsize := int32 (min (f.vmSize : Int) (2 ^ 63 - 1))

theorem statusLoop_gives (h : Gives lines f) (pid : Int) :
    statusLoop lines (.start pid) = ⟨record pid f, true, true, true, true⟩ := by
  obtain ⟨pre, post, rfl, hloop, hend⟩ := statusLoop_split lines (.start pid)
  obtain ⟨blanks, digits, hblanks, hdigits, hne, hsize, hvmSize⟩ := h.vmSize
  have hpid := foldl_pid pre (.start pid)
  have hname := foldl_name pre (.start pid)
  have hstate := foldl_state pre (.start pid)
  have hppid := foldl_ppid pre (.start pid)
  have hmemsize := foldl_vmSize pre (.start pid)
  rw [hloop]
  generalize pre.foldl scanLine (.start pid) = s at *
  simp only [Scan.done, Bool.and_eq_true] at hend
  obtain ⟨hname, hfoundName⟩ := part_read hname h.name (hend.imp_right fun hdone => hdone.1.1.1)
  obtain ⟨hstate, hfoundState⟩ := part_read hstate h.state (hend.imp_right fun hdone => hdone.1.1.2)
  obtain ⟨hppid, hfoundPpid⟩ := part_read hppid h.ppid (hend.imp_right fun hdone => hdone.1.2)
  obtain ⟨hmemsize, hfoundVmsize⟩ := part_read hmemsize hvmSize (hend.imp_right fun hdone => hdone.2)
  rw [List.drop_left' (by rfl)] at hname hstate hppid hmemsize
  rw [scanInt_digits hblanks hdigits hne, hsize, Option.getD_some] at hmemsize
  have hproc : s.proc = record pid f := MyProcess.ext hpid hname hstate hppid hmemsize
  exact Scan.ext hproc hfoundName hfoundState hfoundPpid hfoundVmsize

end OsCoursework.Top
