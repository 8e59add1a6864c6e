import OsCoursework.Exclude.Code

/-!
# What is copied

The loop goes through the input line by line, however it is cut into chunks. A line is written
at its newline, so the last line is lost when it has none.
-/

open OsCoursework.Cstring OsCoursework.Lines

namespace OsCoursework.Exclude

variable {s s' : CopyState} {idx : Int} {cur input arg : List CChar} {chunks : List (List CChar)} {n : Nat}

/-! ## Chunks -/

theorem copyLoop_flatten (idx : Int) (s : CopyState) (chunks : List (List CChar)) :
    copyLoop idx s chunks = chunks.flatten.foldlM (copyByte idx) s := by
  unfold copyLoop
  induction chunks generalizing s with
  | nil => rfl
  | cons chunk chunks ih =>
    rw [List.foldlM_cons, List.flatten_cons, List.foldlM_append]
    congr 1
    funext s
    exact ih s

theorem foldlM_ok {f : CopyState → CChar → Except Fault CopyState} {l m : List CChar} (hl : l.foldlM f s = .ok s') :
    (l ++ m).foldlM f s = m.foldlM f s' := by
  rw [List.foldlM_append, hl]
  rfl

theorem ok_of_append {f : CopyState → CChar → Except Fault CopyState} {l m : List CChar} {s₂ : CopyState}
    (h : (l ++ m).foldlM f s = .ok s₂) : ∃ s₁, l.foldlM f s = .ok s₁ ∧ m.foldlM f s₁ = .ok s₂ := by
  rw [List.foldlM_append] at h
  cases hl : l.foldlM f s with
  | error e =>
    rw [hl] at h
    cases h
  | ok s₁ =>
    rw [hl] at h
    exact ⟨s₁, rfl, h⟩

/-! ## Part of a line -/

theorem line_store (s : CopyState) (c : CChar) : (s.store c).line = s.line ++ [c] := by
  unfold CopyState.line CopyState.store
  simp only [Function.update_self, List.range_succ, List.map_append, List.map_singleton]
  congr 1
  refine List.map_congr_left fun i hi => ?_
  exact Function.update_of_ne (List.mem_range.mp hi).ne _ _

/-- The next stores are in the array. -/
def Fits (s : CopyState) (cur : List CChar) : Prop :=
  cur = [] ∨ s.j < linesLimit ∧ s.h + cur.length ≤ lineLimit

theorem copy_part (idx : Int) (hcur : newline ∉ cur) (hfits : Fits s cur) :
    ∃ s', cur.foldlM (copyByte idx) s = .ok s' ∧ s'.j = s.j ∧ s'.h = s.h + cur.length ∧ s'.line = s.line ++ cur ∧
      s'.writes = s.writes := by
  induction cur generalizing s with
  | nil => exact ⟨s, rfl, rfl, rfl, (List.append_nil _).symm, rfl⟩
  | cons c cur ih =>
    rw [List.mem_cons, not_or] at hcur
    obtain ⟨hj, hlen⟩ := hfits.resolve_left (List.cons_ne_nil _ _)
    rw [List.length_cons] at hlen
    have hbyte : copyByte idx s c = .ok (s.store c) := by
      rw [copyByte, if_pos ⟨hj, by omega⟩, if_neg (Ne.symm hcur.1)]
    have hlen' : (s.store c).h + cur.length ≤ lineLimit := by
      simp only [CopyState.store]
      omega
    obtain ⟨s', hs', hj', hh', hline', hwrites'⟩ := ih hcur.2 (s := s.store c) (Or.inr ⟨hj, hlen'⟩)
    refine ⟨s', ?_, hj', ?_, ?_, hwrites'⟩
    · rw [List.foldlM_cons, hbyte]
      exact hs'
    · rw [hh', List.length_cons]
      simp only [CopyState.store]
      omega
    · rw [hline', line_store, List.append_assoc, List.singleton_append]

theorem fits_of_ok (hcur : newline ∉ cur) (h : cur.foldlM (copyByte idx) s = .ok s') : Fits s cur := by
  induction cur generalizing s with
  | nil => exact Or.inl rfl
  | cons c cur ih =>
    rw [List.mem_cons, not_or] at hcur
    rw [List.foldlM_cons, copyByte, if_neg (Ne.symm hcur.1)] at h
    split_ifs at h with hin
    · have hrest := ih hcur.2 h
      right
      rw [List.length_cons]
      rcases hrest with rfl | ⟨-, hlen⟩
      · exact ⟨hin.1, hin.2⟩
      · simp only [CopyState.store] at hlen
        exact ⟨hin.1, by omega⟩
    · cases h

/-! ## Line by line -/

/-- The lines that are written, when the first of them is line `j`. -/
def keep (k j : Nat) (closed : List (List CChar)) : List (List CChar) :=
  if j ≤ k then closed.eraseIdx (k - j) else closed

theorem keep_cons (k j : Nat) (line : List CChar) (closed : List (List CChar)) :
    keep k j (line :: closed) = (if j = k then [] else [line]) ++ keep k (j + 1) closed := by
  unfold keep
  by_cases hjk : j = k
  · subst hjk
    simp
  · by_cases hlt : j < k
    · have hsub : k - j = k - (j + 1) + 1 := by omega
      rw [if_pos (by omega), if_neg hjk, if_pos (by omega), hsub, List.eraseIdx_cons_succ, List.singleton_append]
    · rw [if_neg (by omega), if_neg hjk, if_neg (by omega), List.singleton_append]

theorem copy_line {line : List CChar} (k : Nat) (h0 : s.h = 0) (hline : newline ∉ line) (hj : s.j < linesLimit)
    (hlen : line.length < lineLimit) (rest : List CChar) :
    ∃ s₁, (line ++ newline :: rest).foldlM (copyByte k) s = rest.foldlM (copyByte k) s₁ ∧ s₁.j = s.j + 1 ∧ s₁.h = 0 ∧
      s₁.writes = s.writes ++ if s.j = k then [] else [line ++ [newline]] := by
  obtain ⟨s', hs', hj', hh', hline', hwrites'⟩ := copy_part (s := s) k hline (Or.inr ⟨hj, by omega⟩)
  have hnewline : copyByte k s' newline = .ok ((s'.store newline).endLine k) := by
    rw [copyByte, if_pos ⟨by omega, by omega⟩, if_pos rfl]
  have hempty : s.line = [] := by simp [CopyState.line, h0]
  refine ⟨(s'.store newline).endLine k, ?_, congrArg (· + 1) hj', rfl, ?_⟩
  · rw [foldlM_ok hs', List.foldlM_cons, hnewline]
    rfl
  · have hj : (s'.store newline).j = s.j := hj'
    have hwrites : (s'.store newline).writes = s.writes := hwrites'
    simp only [CopyState.endLine, line_store, hline', hempty, List.nil_append, hj, hwrites]
    by_cases hk : s.j = k <;> simp [hk]

theorem copy_fits (k : Nat) (h0 : s.h = 0) (hlines : s.j + (inputLines input).length ≤ linesLimit)
    (hlen : ∀ line ∈ inputLines input, line.length ≤ lineLimit) :
    ∃ s', input.foldlM (copyByte k) s = .ok s' ∧
      s'.writes = s.writes ++ keep k s.j (closedLines newline input) := by
  induction input using lines_induction newline generalizing s with
  | hopen l hl =>
    unfold inputLines at hlines hlen
    rw [lines_open hl] at hlines hlen
    have hfits : Fits s l := by
      by_cases hnil : l = []
      · exact Or.inl hnil
      · rw [if_neg hnil] at hlines hlen
        have hlast := hlen l (List.mem_singleton_self l)
        rw [List.length_singleton] at hlines
        exact Or.inr ⟨by omega, by omega⟩
    obtain ⟨s', hs', -, -, -, hwrites⟩ := copy_part k hl hfits
    refine ⟨s', hs', ?_⟩
    rw [closedLines_open hl, hwrites, keep]
    simp
  | hline line rest hline ih =>
    unfold inputLines at hlines hlen ih
    rw [lines_line hline] at hlines hlen
    have hfirst := hlen _ List.mem_cons_self
    rw [List.length_append, List.length_singleton] at hfirst
    rw [List.length_cons] at hlines
    obtain ⟨s₁, hs₁, hj₁, hh₁, hwrites₁⟩ := copy_line k h0 hline (by omega) (by omega) rest
    obtain ⟨s', hs', hwrites'⟩ := ih hh₁ (by omega) fun line' hl' => hlen line' (List.mem_cons_of_mem _ hl')
    refine ⟨s', hs₁.trans hs', ?_⟩
    rw [hwrites', hwrites₁, hj₁, closedLines_line hline, keep_cons, List.append_assoc]

theorem limits_of_ok (h0 : s.h = 0) (h : input.foldlM (copyByte idx) s = .ok s') :
    (input ≠ [] → s.j + (inputLines input).length ≤ linesLimit) ∧
      ∀ line ∈ inputLines input, line.length ≤ lineLimit := by
  induction input using lines_induction newline generalizing s with
  | hopen l hl =>
    unfold inputLines
    rw [lines_open hl]
    rcases fits_of_ok hl h with rfl | ⟨hj, hlen⟩
    · exact ⟨fun hne => absurd rfl hne, by simp⟩
    · split_ifs with hnil
      · exact ⟨fun hne => absurd hnil hne, by simp⟩
      · refine ⟨fun _ => by rw [List.length_singleton]; omega, fun line hmem => ?_⟩
        rw [List.mem_singleton.mp hmem]
        omega
  | hline line rest hline ih =>
    obtain ⟨s₁, hs₁, hrest⟩ := ok_of_append h
    obtain ⟨s₁', hs₁', hj, hh, -⟩ := copy_part idx hline (fits_of_ok hline hs₁)
    cases hs₁.symm.trans hs₁'
    rw [List.foldlM_cons, copyByte, if_pos rfl] at hrest
    split_ifs at hrest with hin
    · obtain ⟨hlines, hlen⟩ := ih (s := (s₁.store newline).endLine idx) rfl hrest
      have hnext : ((s₁.store newline).endLine idx).j = s.j + 1 := congrArg (· + 1) hj
      rw [hnext] at hlines
      unfold inputLines at hlines hlen ⊢
      rw [lines_line hline]
      refine ⟨fun _ => ?_, fun line' hmem => ?_⟩
      · rw [List.length_cons]
        by_cases hnil : rest = []
        · rw [hnil, lines_open List.not_mem_nil, if_pos rfl, List.length_nil]
          omega
        · have hmore := hlines hnil
          omega
      · rcases List.mem_cons.mp hmem with rfl | hmem
        · rw [List.length_append, List.length_singleton]
          omega
        · exact hlen line' hmem
    · cases hrest

/-- A fault of the loop is a store outside the array. -/
theorem copy_error {e : Fault} (h : input.foldlM (copyByte idx) s = .error e) :
    ∃ j h, e = .store j h ∧ ¬ (j < linesLimit ∧ h < lineLimit) := by
  induction input generalizing s with
  | nil => cases h
  | cons c input ih =>
    rw [List.foldlM_cons, copyByte] at h
    split_ifs at h with hin hc
    · exact ih h
    · exact ih h
    · cases h
      exact ⟨s.j, s.h, rfl, hin⟩

/-! ## The line number -/

theorem le_foldl_digits (str : List CChar) (out : Nat) :
    out ≤ str.foldl (fun v c => 10 * v + (c.toNat - 0x30)) out := by
  induction str generalizing out with
  | nil => exact le_rfl
  | cons c str ih => exact le_trans (by omega) (ih (10 * out + (c.toNat - 0x30)))

theorem stringToIntLoop_digits (hdigits : ∀ c ∈ arg, isDigit c = true) (out : Nat) (hout : (out : Int) ≤ intMax) :
    stringToIntLoop arg out =
      let v := arg.foldl (fun v c => 10 * v + (c.toNat - 0x30)) out
      if (v : Int) ≤ intMax then .ok (some v) else .error .overflow := by
  induction arg generalizing out with
  | nil => simp [stringToIntLoop, hout]
  | cons c arg ih =>
    have hc : isDigit c = true := hdigits c List.mem_cons_self
    have hrest := fun c' hc' => hdigits c' (List.mem_cons_of_mem _ hc')
    have hlow : 0x30 ≤ c.toNat := by
      unfold isDigit at hc
      simp only [decide_eq_true_eq] at hc
      exact hc.1
    have hnext : (out : Int) * 10 + (c.toNat - 0x30) = ((10 * out + (c.toNat - 0x30) : Nat) : Int) := by omega
    rw [List.foldl_cons, stringToIntLoop, if_neg (by simp [hc])]
    simp only [hnext]
    by_cases hbig : ((10 * out + (c.toNat - 0x30) : Nat) : Int) > intMax
    · have hle := le_foldl_digits arg (10 * out + (c.toNat - 0x30))
      rw [if_pos hbig, if_neg (by omega)]
    · rw [if_neg hbig]
      exact ih hrest _ (by omega)

theorem stringToInt_eq (h : Says arg n) :
    stringToInt arg = if (n : Int) ≤ intMax then .ok (some (n : Int)) else .error .overflow := by
  obtain ⟨hdigits, rfl⟩ := h
  have hzero : (0 : CChar) ∉ arg := fun h0 => absurd (hdigits 0 h0) (by decide)
  unfold stringToInt
  rw [text_eq_self hzero]
  exact stringToIntLoop_digits hdigits 0 (by decide)

theorem main_overflow (harg : Says arg n) (hbig : ¬ (n : Int) ≤ intMax) (chunks : List (List CChar)) :
    main arg chunks = .error .overflow := by
  unfold main
  rw [stringToInt_eq harg, if_neg hbig]
  rfl

theorem main_loop (harg : Says arg n) (hn : 1 ≤ n) (hint : (n : Int) ≤ intMax) (chunks : List (List CChar)) :
    main arg chunks = (copyLoop ((n - 1 : Nat) : Int) start chunks).map fun s => .finished s.writes := by
  have hidx : (n : Int) - 1 = ((n - 1 : Nat) : Int) := by omega
  unfold main
  rw [stringToInt_eq harg, if_pos hint]
  simp only [Except.bind]
  rw [if_neg (by omega), hidx]

theorem main_fits (harg : Says arg n) (hn : 1 ≤ n) (hint : (n : Int) ≤ intMax) (hchunks : Delivers chunks input)
    (hlimits : WithinLimits input) :
    main arg chunks = .ok (.finished ((closedLines newline input).eraseIdx (n - 1))) := by
  obtain ⟨s', hs', hwrites⟩ := copy_fits (n - 1) (s := start) rfl (by simpa [start] using hlimits.1) hlimits.2
  have hkeep : s'.writes = (closedLines newline input).eraseIdx (n - 1) := hwrites
  rw [main_loop harg hn hint, copyLoop_flatten, hchunks.1, hs', ← hkeep]
  rfl

/-! ## What is written -/

theorem eraseIdx_open (closed : List (List CChar)) (last : List CChar) (k : Nat) :
    (closed.eraseIdx k).flatten = ((closed ++ if last = [] then [] else [last]).eraseIdx k).flatten ↔
      last = [] ∨ (closed ++ if last = [] then [] else [last]).length = k + 1 := by
  by_cases hlast : last = []
  · simp [hlast]
  · rw [if_neg hlast, List.length_append, List.length_singleton]
    rcases lt_trichotomy k closed.length with hk | rfl | hk
    · rw [List.eraseIdx_append_of_lt_length hk]
      simp [hlast]
      omega
    · rw [List.eraseIdx_append_of_length_le le_rfl, List.eraseIdx_of_length_le le_rfl]
      simp
    · rw [List.eraseIdx_append_of_length_le hk.le, List.eraseIdx_of_length_le hk.le,
        List.eraseIdx_of_length_le (l := [last]) (by rw [List.length_singleton]; omega)]
      simp [hlast]
      omega

/-- What is written is known when the number is an int, and otherwise nothing is. -/
theorem finished_iff (harg : Says arg n) (hn : 1 ≤ n) (hchunks : Delivers chunks input) (hlimits : WithinLimits input)
    (P : List (List CChar) → Prop) :
    (∃ writes, main arg chunks = .ok (.finished writes) ∧ P writes) ↔
      (n : Int) ≤ intMax ∧ P ((closedLines newline input).eraseIdx (n - 1)) := by
  by_cases hint : (n : Int) ≤ intMax
  · have hmain := main_fits harg hn hint hchunks hlimits
    constructor
    · rintro ⟨writes, hwrites, hP⟩
      cases hmain.symm.trans hwrites
      exact ⟨hint, hP⟩
    · rintro ⟨-, hP⟩
      exact ⟨_, hmain, hP⟩
  · rw [main_overflow harg hint]
    constructor
    · rintro ⟨writes, hwrites, -⟩
      cases hwrites
    · exact fun h => absurd h.1 hint

/-- **When the copy is right.** The line number is an `int`, and the last line has a newline or is the one to
exclude. -/
theorem copies_iff (harg : Says arg n) (hn : 1 ≤ n) (hchunks : Delivers chunks input) (hlimits : WithinLimits input) :
    (∃ writes, main arg chunks = .ok (.finished writes) ∧ writes.flatten = excludeLine n input) ↔
      (n : Int) ≤ intMax ∧ (openLine newline input = [] ∨ (inputLines input).length = n) := by
  have hopen := eraseIdx_open (closedLines newline input) (openLine newline input) (n - 1)
  rw [Nat.sub_add_cancel hn] at hopen
  rw [finished_iff harg hn hchunks hlimits]
  exact and_congr_right fun _ => hopen

theorem copies_sample : ∃ writes, main (ascii "2") [ascii "ab\nc", ascii "d\nef\n"] = .ok (.finished writes) ∧
    writes.flatten = excludeLine 2 (ascii "ab\ncd\nef\n") := by
  have harg : Says (ascii "2") 2 := by decide +kernel
  have hchunks : Delivers [ascii "ab\nc", ascii "d\nef\n"] (ascii "ab\ncd\nef\n") := by decide +kernel
  have hlimits : WithinLimits (ascii "ab\ncd\nef\n") := by decide +kernel
  exact (copies_iff harg (by decide) hchunks hlimits).mpr ⟨by decide, Or.inl (by decide +kernel)⟩

/-- The last line has no newline, and is lost. -/
theorem copies_lose_last : ¬ ∀ (arg : List CChar) (n : Nat) (chunks : List (List CChar)) (input : List CChar),
    Says arg n → 1 ≤ n → Delivers chunks input → WithinLimits input →
      ∃ writes, main arg chunks = .ok (.finished writes) ∧ writes.flatten = excludeLine n input := by
  intro h
  have harg : Says (ascii "2") 2 := by decide +kernel
  have hchunks : Delivers [ascii "a"] (ascii "a") := by decide +kernel
  have hlimits : WithinLimits (ascii "a") := by decide +kernel
  obtain ⟨writes, hwrites, hflatten⟩ := h (ascii "2") 2 [ascii "a"] (ascii "a") harg (by decide) hchunks hlimits
  have hmain := main_fits harg (by decide) (by decide) hchunks hlimits
  cases hmain.symm.trans hwrites
  exact absurd hflatten (by decide +kernel)

/-! ## The output file -/

theorem foldl_write (old done : List CChar) (writes : List (List CChar)) :
    writes.foldl OutFile.write ⟨done ++ old.drop done.length, done.length⟩ =
      ⟨done ++ writes.flatten ++ old.drop (done ++ writes.flatten).length, (done ++ writes.flatten).length⟩ := by
  induction writes generalizing done with
  | nil => simp
  | cons data writes ih =>
    have hwrite : OutFile.write ⟨done ++ old.drop done.length, done.length⟩ data =
        ⟨(done ++ data) ++ old.drop (done ++ data).length, (done ++ data).length⟩ := by
      simp [OutFile.write, List.drop_append, List.drop_drop]
    rw [List.foldl_cons, hwrite, ih, List.flatten_cons, List.append_assoc done data]

theorem outContents_eq (old : Option (List CChar)) (writes : List (List CChar)) :
    outContents old writes = writes.flatten ++ (old.getD []).drop writes.flatten.length := by
  have h := foldl_write (old.getD []) [] writes
  simp only [List.nil_append, List.length_nil, List.drop_zero] at h
  unfold outContents openOut
  rw [h]

/-- **When the output file is the copy.** It is, whatever the lines are, exactly when the old file was not
longer. -/
theorem output_iff (harg : Says arg n) (hn : 1 ≤ n) (hchunks : Delivers chunks input) (hlimits : WithinLimits input)
    (hclosed : openLine newline input = []) (old : Option (List CChar)) :
    (∃ writes, main arg chunks = .ok (.finished writes) ∧ outContents old writes = excludeLine n input) ↔
      (n : Int) ≤ intMax ∧ (old.getD []).length ≤ (excludeLine n input).length := by
  have hcopy : ((closedLines newline input).eraseIdx (n - 1)).flatten = excludeLine n input :=
    (eraseIdx_open _ _ _).mpr (Or.inl hclosed)
  have hout : outContents old ((closedLines newline input).eraseIdx (n - 1)) =
      excludeLine n input ++ (old.getD []).drop (excludeLine n input).length := by rw [outContents_eq, hcopy]
  rw [finished_iff harg hn hchunks hlimits, hout, List.append_right_eq_self, List.drop_eq_nil_iff]

theorem output_sample : ∃ writes, main (ascii "1") [ascii "ab\ncd\n"] = .ok (.finished writes) ∧
    outContents (some (ascii "x\n")) writes = excludeLine 1 (ascii "ab\ncd\n") := by
  have harg : Says (ascii "1") 1 := by decide +kernel
  have hchunks : Delivers [ascii "ab\ncd\n"] (ascii "ab\ncd\n") := by decide +kernel
  have hlimits : WithinLimits (ascii "ab\ncd\n") := by decide +kernel
  have hclosed : openLine newline (ascii "ab\ncd\n") = [] := by decide +kernel
  exact (output_iff harg le_rfl hchunks hlimits hclosed _).mpr ⟨by decide, by decide +kernel⟩

/-- A longer old file leaves its end. -/
theorem output_keeps_end : ¬ ∀ (arg : List CChar) (n : Nat) (chunks : List (List CChar)) (input : List CChar)
    (old old' : Option (List CChar)), Says arg n → 1 ≤ n → Delivers chunks input → WithinLimits input →
      openLine newline input = [] → ∃ writes, main arg chunks = .ok (.finished writes) ∧
        outContents old writes = excludeLine n input ∧ outContents old' writes = excludeLine n input := by
  intro h
  have harg : Says (ascii "1") 1 := by decide +kernel
  have hchunks : Delivers [ascii "ab\ncd\n"] (ascii "ab\ncd\n") := by decide +kernel
  have hlimits : WithinLimits (ascii "ab\ncd\n") := by decide +kernel
  obtain ⟨writes, hwrites, -, hcontents⟩ := h (ascii "1") 1 [ascii "ab\ncd\n"] (ascii "ab\ncd\n") none
    (some (ascii "output\n")) harg le_rfl hchunks hlimits (by decide +kernel)
  have hmain := main_fits harg le_rfl (by decide) hchunks hlimits
  cases hmain.symm.trans hwrites
  exact absurd hcontents (by decide +kernel)

/-! ## The array -/

/-- No store is outside `wholeFile`, when line `k + 1` is excluded. -/
def StaysInside (k : Nat) (chunks : List (List CChar)) : Prop := ∀ j h, copyLoop k start chunks ≠ .error (.store j h)

theorem within_of_stays {k : Nat} (hchunks : Delivers chunks input) (h : StaysInside k chunks) :
    WithinLimits input := by
  unfold StaysInside at h
  rw [copyLoop_flatten, hchunks.1] at h
  cases hend : input.foldlM (copyByte k) start with
  | error e =>
    obtain ⟨j, h', rfl, -⟩ := copy_error hend
    exact absurd hend (h j h')
  | ok s' =>
    obtain ⟨hlines, hlen⟩ := limits_of_ok rfl hend
    refine ⟨?_, hlen⟩
    by_cases hnil : input = []
    · rw [hnil]
      decide
    · simpa [start] using hlines hnil

/-- **When the loop stays in its array**: for files within the limits, and for no others. -/
theorem stays_inside_iff (k : Nat) (hchunks : Delivers chunks input) : StaysInside k chunks ↔ WithinLimits input := by
  refine ⟨within_of_stays hchunks, fun hlimits j h hstore => ?_⟩
  obtain ⟨s', hs', -⟩ := copy_fits k (s := start) rfl (by simpa [start] using hlimits.1) hlimits.2
  rw [copyLoop_flatten, hchunks.1, hs'] at hstore
  cases hstore

theorem stays_inside_sample : StaysInside 0 [ascii "ab\nc", ascii "d"] := by
  have hchunks : Delivers [ascii "ab\nc", ascii "d"] (ascii "ab\ncd") := by decide +kernel
  exact (stays_inside_iff 0 hchunks).mpr (by decide +kernel)

theorem delivers_bytes (input : List CChar) : Delivers (input.map fun c => [c]) input := by
  constructor
  · induction input with
    | nil => rfl
    | cons c input ih => rw [List.map_cons, List.flatten_cons, ih, List.singleton_append]
  · intro chunk hchunk
    obtain ⟨c, -, rfl⟩ := List.mem_map.mp hchunk
    exact ⟨List.cons_ne_nil _ _, by rw [List.length_singleton]; omega⟩

theorem long_line_outside : ¬ ∀ (k : Nat) (chunks : List (List CChar)) (input : List CChar),
    Delivers chunks input → StaysInside k chunks := by
  intro h
  obtain ⟨line, hopen, hlen⟩ : ∃ line : List CChar, newline ∉ line ∧ line.length = lineLimit + 1 := by
    refine ⟨List.replicate (lineLimit + 1) 0x61, fun hmem => ?_, List.length_replicate⟩
    exact absurd (List.eq_of_mem_replicate hmem) (by decide)
  have hlimits := within_of_stays (delivers_bytes line) (h 0 _ line (delivers_bytes line))
  have hne : line ≠ [] := List.ne_nil_of_length_pos (by omega)
  have hlast := hlimits.2 line (by rw [inputLines, lines_open hopen, if_neg hne]; exact List.mem_singleton_self _)
  omega

end OsCoursework.Exclude
