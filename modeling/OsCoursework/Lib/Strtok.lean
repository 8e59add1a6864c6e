import OsCoursework.Lib.Cstring

/-!
# strtok

One call on a buffer, from an offset: the offset of the token, the offset to resume
at, and the buffer with the separator behind the token overwritten. Calls that each
resume where the last one left off give the tokens of the string one by one.
-/

namespace OsCoursework.Cstring

universe u

variable {α : Type u} [Zero α] [DecidableEq α]

/-- The string at an offset. -/
def strAt (b : List α) (off : Nat) : List α := text (b.drop off)

def strtok (delim : α) (b : List α) (off : Nat) : Option Nat × Nat × List α :=
  let s := strAt b off
  let start := off + (s.takeWhile (· = delim)).length
  let rest := s.dropWhile (· = delim)
  let stop := start + (rest.takeWhile (· ≠ delim)).length
  if rest = [] then (none, start, b)
  else if rest.dropWhile (· ≠ delim) = [] then (some start, stop, b)
  else (some start, stop + 1, b.set stop 0)

/-- The nonempty pieces between separators. -/
def tokens (delim : α) (s : List α) : List (List α) := (s.splitOn delim).filter (· ≠ [])

/-! ## Tokens -/

omit [Zero α] in
@[simp] theorem tokens_nil (delim : α) : tokens delim ([] : List α) = [] := by simp [tokens]

omit [Zero α] in
theorem tokens_cons_delim (delim : α) (s : List α) : tokens delim (delim :: s) = tokens delim s := by
  have hsplit := List.splitOn_append_cons_self (a := delim) [] s
  rw [List.nil_append, List.splitOn_nil, List.singleton_append] at hsplit
  rw [tokens, hsplit, List.filter_cons_of_neg (by simp), tokens]

omit [Zero α] in
theorem tokens_dropWhile (delim : α) (s : List α) : tokens delim (s.dropWhile (· = delim)) = tokens delim s := by
  induction s with
  | nil => rfl
  | cons a s ih =>
    by_cases ha : a = delim
    · rw [List.dropWhile_cons_of_pos (by simpa using ha), ih, ha, tokens_cons_delim]
    · rw [List.dropWhile_cons_of_neg (by simpa using ha)]

omit [Zero α] in
theorem tokens_word {delim : α} {w : List α} (hw : delim ∉ w) (hne : w ≠ []) : tokens delim w = [w] := by
  rw [tokens, List.splitOn_eq_singleton hw, List.filter_cons_of_pos (by simpa using hne), List.filter_nil]

omit [Zero α] in
theorem tokens_word_append {delim : α} {w s : List α} (hw : delim ∉ w) (hne : w ≠ []) :
    tokens delim (w ++ delim :: s) = w :: tokens delim s := by
  rw [tokens, List.splitOn_append_cons_self_of_not_mem hw, List.filter_cons_of_pos (by simpa using hne), tokens]

omit [Zero α] in
theorem delim_not_mem_word (delim : α) (s : List α) : delim ∉ s.takeWhile (· ≠ delim) := by
  intro h
  have hne := List.mem_takeWhile_imp h
  simp at hne

omit [Zero α] in
theorem word_ne_nil {delim : α} {s : List α} (h : s.dropWhile (· = delim) ≠ []) :
    (s.dropWhile (· = delim)).takeWhile (· ≠ delim) ≠ [] := by
  obtain ⟨a, l, hal⟩ := List.exists_cons_of_ne_nil h
  have hhead := List.head?_dropWhile_not (· = delim) s
  rw [hal] at hhead
  have ha : a ≠ delim := by simpa using hhead
  rw [hal, List.takeWhile_cons_of_pos (by simpa using ha)]
  exact List.cons_ne_nil _ _

omit [Zero α] in
theorem tokens_last {delim : α} {s : List α} (h : s.dropWhile (· = delim) ≠ [])
    (hend : (s.dropWhile (· = delim)).dropWhile (· ≠ delim) = []) :
    tokens delim s = [(s.dropWhile (· = delim)).takeWhile (· ≠ delim)] := by
  have hsplit := List.takeWhile_append_dropWhile (p := (· ≠ delim)) (l := s.dropWhile (· = delim))
  rw [hend, List.append_nil] at hsplit
  calc tokens delim s = tokens delim (s.dropWhile (· = delim)) := (tokens_dropWhile delim s).symm
    _ = tokens delim ((s.dropWhile (· = delim)).takeWhile (· ≠ delim)) := by rw [hsplit]
    _ = _ := tokens_word (delim_not_mem_word _ _) (word_ne_nil h)

omit [Zero α] in
theorem tokens_next {delim c : α} {s s' : List α} (h : s.dropWhile (· = delim) ≠ [])
    (hnext : (s.dropWhile (· = delim)).dropWhile (· ≠ delim) = c :: s') :
    c = delim ∧ tokens delim s = (s.dropWhile (· = delim)).takeWhile (· ≠ delim) :: tokens delim s' := by
  have hhead := List.head?_dropWhile_not (· ≠ delim) (s.dropWhile (· = delim))
  rw [hnext] at hhead
  obtain rfl : c = delim := by simpa using hhead
  have hsplit := List.takeWhile_append_dropWhile (p := (· ≠ c)) (l := s.dropWhile (· = c))
  rw [hnext] at hsplit
  refine ⟨rfl, ?_⟩
  calc tokens c s = tokens c (s.dropWhile (· = c)) := (tokens_dropWhile c s).symm
    _ = tokens c ((s.dropWhile (· = c)).takeWhile (· ≠ c) ++ c :: s') := by rw [hsplit]
    _ = _ := tokens_word_append (delim_not_mem_word _ _) (word_ne_nil h)

omit [Zero α] in
theorem flatten_tokens (delim : α) (s : List α) : (tokens delim s).flatten = s.filter (· ≠ delim) := by
  rw [tokens, List.flatten_filter_ne_nil]
  induction s with
  | nil => rfl
  | cons a s ih =>
    rw [List.splitOn_cons_eq_if_modifyHead]
    by_cases ha : a = delim
    · rw [if_pos (beq_iff_eq.mpr ha), List.flatten_cons, List.nil_append, ih,
        List.filter_cons_of_neg (by simpa using ha)]
    · obtain ⟨w, ws, hsplit⟩ := List.exists_cons_of_ne_nil (List.splitOn_ne_nil delim s)
      rw [hsplit, List.flatten_cons] at ih
      rw [if_neg (mt beq_iff_eq.mp ha), hsplit, List.modifyHead_cons, List.flatten_cons, List.cons_append, ih,
        List.filter_cons_of_pos (by simpa using ha)]

omit [Zero α] in
theorem mem_tokens_iff {delim a : α} {s : List α} : (∃ w ∈ tokens delim s, a ∈ w) ↔ a ∈ s ∧ a ≠ delim := by
  rw [← List.mem_flatten, flatten_tokens, List.mem_filter, decide_eq_true_iff]

/-! ## Strings in a buffer -/

theorem text_of_head {tail : List α} (h : ∀ a, tail.head? = some a → a = 0) : text tail = [] := by
  cases tail with
  | nil => rfl
  | cons a tail => rw [h a rfl, text_cons_zero]

theorem strAt_append (b : List α) (off : Nat) : ∃ tail, b.drop off = strAt b off ++ tail ∧ text tail = [] := by
  refine ⟨(b.drop off).dropWhile (· ≠ 0), List.takeWhile_append_dropWhile.symm, text_of_head ?_⟩
  intro a ha
  have hhead := List.head?_dropWhile_not (· ≠ 0) (b.drop off)
  rw [ha] at hhead
  simpa using hhead

theorem strAt_of_drop {b t tail : List α} {off : Nat} (h : b.drop off = t ++ tail) (ht : 0 ∉ t)
    (htail : text tail = []) : strAt b off = t := by
  rw [strAt, h, text_append ht htail]

theorem strAt_end (b : List α) (off : Nat) : strAt b (off + (strAt b off).length) = [] := by
  obtain ⟨tail, hdrop, htail⟩ := strAt_append b off
  rw [strAt, ← List.drop_drop, hdrop, List.drop_left, htail]

theorem text_set {b : List α} {i : Nat} (h : strlen b < i) (a : α) : text (b.set i a) = text b := by
  induction b generalizing i with
  | nil => rfl
  | cons c b ih =>
    obtain ⟨i, rfl⟩ : ∃ j, i = j + 1 := ⟨i - 1, by omega⟩
    rw [List.set_cons_succ]
    by_cases hc : c = 0
    · rw [hc, text_cons_zero, text_cons_zero]
    · have hlen : strlen (c :: b) = strlen b + 1 := by simp [strlen, text_cons_ne hc]
      rw [text_cons_ne hc, text_cons_ne hc, ih (by omega)]

theorem strAt_set {b : List α} {q i : Nat} (h : q + (strAt b q).length < i) (a : α) :
    strAt (b.set i a) q = strAt b q := by
  rw [strAt, List.drop_set, if_neg (by omega)]
  exact text_set (by rw [strlen, ← strAt]; omega) a

/-! ## One call -/

theorem strtok_none {delim : α} {b : List α} {off : Nat} (h : tokens delim (strAt b off) = []) :
    ∃ off', strtok delim b off = (none, off', b) := by
  have hrest : (strAt b off).dropWhile (· = delim) = [] := by
    by_contra hne
    cases hnext : ((strAt b off).dropWhile (· = delim)).dropWhile (· ≠ delim) with
    | nil => rw [tokens_last hne hnext] at h; cases h
    | cons c s' => rw [(tokens_next hne hnext).2] at h; cases h
  exact ⟨_, if_pos hrest⟩

/-- The call gives the first token, leaves the others behind, and keeps the strings before. -/
theorem strtok_some {delim : α} {b : List α} {off : Nat} {w : List α} {ws : List (List α)}
    (h : tokens delim (strAt b off) = w :: ws) : ∃ start off' b',
      strtok delim b off = (some start, off', b') ∧ off ≤ start ∧ start + w.length ≤ off' ∧
      strAt b' start = w ∧ tokens delim (strAt b' off') = ws ∧
      ∀ q, q + (strAt b q).length ≤ off → strAt b' q = strAt b q := by
  obtain ⟨tail, hdrop, htail⟩ := strAt_append b off
  have hzero : 0 ∉ strAt b off := zero_not_mem_text _
  have hne : (strAt b off).dropWhile (· = delim) ≠ [] := by
    intro hrest
    rw [← tokens_dropWhile, hrest, tokens_nil] at h
    cases h
  -- The string is separators, a word and the rest.
  have hsep := List.takeWhile_append_dropWhile (p := (· = delim)) (l := strAt b off)
  have hword := List.takeWhile_append_dropWhile (p := (· ≠ delim)) (l := (strAt b off).dropWhile (· = delim))
  have hstring : strAt b off = (strAt b off).takeWhile (· = delim) ++
      (((strAt b off).dropWhile (· = delim)).takeWhile (· ≠ delim) ++
        ((strAt b off).dropWhile (· = delim)).dropWhile (· ≠ delim)) := by rw [hword, hsep]
  have hlast := tokens_last hne
  have hnext c s' (h : ((strAt b off).dropWhile (· = delim)).dropWhile (· ≠ delim) = c :: s') :=
    tokens_next hne h
  rw [strtok, if_neg hne]
  generalize (strAt b off).takeWhile (· = delim) = sep at hstring ⊢
  generalize ((strAt b off).dropWhile (· = delim)).takeWhile (· ≠ delim) = word at hstring hlast hnext ⊢
  generalize ((strAt b off).dropWhile (· = delim)).dropWhile (· ≠ delim) = rest at hstring hlast hnext ⊢
  have hzero' : 0 ∉ word ∧ 0 ∉ rest := by
    rw [hstring, List.mem_append, List.mem_append, not_or, not_or] at hzero
    exact hzero.2
  have hstart : b.drop (off + sep.length) = word ++ (rest ++ tail) := by
    rw [← List.drop_drop, hdrop, hstring, List.append_assoc, List.drop_left, List.append_assoc]
  cases rest with
  | nil =>
    rw [hlast rfl, List.cons.injEq] at h
    obtain ⟨rfl, rfl⟩ := h
    have hend : strAt b (off + sep.length + word.length) = [] := by
      rw [strAt, ← List.drop_drop, hstart, List.drop_left, List.nil_append, htail]
    refine ⟨_, _, _, if_pos rfl, Nat.le_add_right _ _, le_rfl, strAt_of_drop hstart hzero'.1 htail, ?_,
      fun _ _ => rfl⟩
    rw [hend, tokens_nil]
  | cons c s' =>
    obtain ⟨rfl, htokens⟩ := hnext c s' rfl
    rw [htokens, List.cons.injEq] at h
    obtain ⟨rfl, rfl⟩ := h
    refine ⟨_, _, _, if_neg (List.cons_ne_nil _ _), Nat.le_add_right _ _, Nat.le_succ _, ?_, ?_, ?_⟩
    · have hcut : (b.set (off + sep.length + word.length) 0).drop (off + sep.length) =
          word ++ 0 :: (s' ++ tail) := by
        rw [List.drop_set, if_neg (by omega), hstart, Nat.add_sub_cancel_left, List.cons_append,
          List.set_append_right _ _ le_rfl, Nat.sub_self, List.set_cons_zero]
      exact strAt_of_drop hcut hzero'.1 (text_cons_zero _)
    · have hbehind : (b.set (off + sep.length + word.length) 0).drop (off + sep.length + word.length + 1) =
          s' ++ tail := by
        rw [List.drop_set, if_pos (Nat.lt_succ_self _), Nat.add_assoc _ word.length 1, ← List.drop_drop, hstart]
        simp
      rw [strAt_of_drop hbehind (fun h0 => hzero'.2 (List.mem_cons_of_mem _ h0)) htail]
    · intro q hq
      rcases hq.lt_or_eq with hlt | heq
      · exact strAt_set (by omega) 0
      · -- A string that ends where this one starts would make it empty.
        have hend := strAt_end b q
        rw [heq, hstring] at hend
        simp at hend

end OsCoursework.Cstring
