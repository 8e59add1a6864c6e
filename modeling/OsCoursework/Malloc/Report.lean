import OsCoursework.Lib.Lines
import OsCoursework.Lib.Numerals
import OsCoursework.Malloc.Run

/-!
# The report of the free list

One line for each hole. The address has twelve digits, and the size as many as it takes. Both can be
read back, and a line ends with its first newline.
-/

open OsCoursework.ByteMem OsCoursework.Cstring OsCoursework.Fuel OsCoursework.Lines OsCoursework.Numerals

namespace OsCoursework.Malloc

variable {n addr size pos i : Nat} {t rest : List CChar} {b : Block} {l : List Block}

/-! ## Digits -/

theorem hexChar_inj : ∀ c < 16, ∀ d < 16, hexChar c = hexChar d → c = d := by decide

theorem hexChar_ne_zero : ∀ d < 16, hexChar d ≠ 0 := by decide

theorem hexChar_ne_newline : ∀ d < 16, hexChar d ≠ 0x0a := by decide

theorem and_fifteen (n : Nat) : n &&& 0xF = n % 16 := Nat.and_two_pow_sub_one_eq_mod n 4

/-- The digits of a hexadecimal numeral, the most significant one first. -/
abbrev Hex (t : List CChar) (n : Nat) : Prop := Denotes 16 hexChar t n

theorem Hex.notMem (h : Hex t n) {c : CChar} (hc : ∀ d < 16, hexChar d ≠ c) : c ∉ t := by
  intro hmem
  obtain ⟨d, hd, rfl⟩ := h.mem hmem
  exact hc d hd rfl

theorem reportString_text (ht : 0 ∉ t) : reportString (t ++ 0 :: rest) = some t := by
  have htext : text (t ++ 0 :: rest) = t := text_append ht (text_cons_zero rest)
  unfold reportString strlen
  rw [htext, if_pos (by simp)]

/-! ## The address -/

def addressDigits (addr : Nat) : List CChar := (List.range 12).map fun d => hexChar (addr / 16 ^ (12 - 1 - d) % 16)

theorem reportAddress_eq (addr : Nat) (h : addr < 2 ^ 48) :
    reportAddress addr = some (ascii "0x" ++ addressDigits addr) ∧ Hex (addressDigits addr) addr := by
  have hhex : Hex (addressDigits addr) addr := denotes_range hexChar (by norm_num) (by simpa using h)
  refine ⟨?_, hhex⟩
  have hdigit : (List.range 12).map (fun d => hexChar (addr >>> (44 - d * 4) &&& 0xF)) = addressDigits addr := by
    refine List.map_congr_left fun d hd => ?_
    have hlt : d < 12 := List.mem_range.mp hd
    have hshift : 44 - d * 4 = 4 * (12 - 1 - d) := by omega
    rw [and_fifteen, Nat.shiftRight_eq_div_pow, hshift, Nat.pow_mul]
  have hstores := Checked.foldlM_store (k := 2) (n := 12) (fun d => hexChar (addr >>> (44 - d * 4) &&& 0xF))
    (ascii "0x") (ascii "????????????") (List.replicate 6 0) rfl rfl
  have hstart : ascii "0x????????????" ++ List.replicate 6 0 =
      ascii "0x" ++ (ascii "????????????" ++ List.replicate 6 0) := by
    decide
  have hzero : (0 : CChar) ∉ ascii "0x" ++ addressDigits addr := by
    rw [List.mem_append, not_or]
    exact ⟨by decide, hhex.notMem hexChar_ne_zero⟩
  simp only [reportAddress, hstart, hstores, Option.bind_some]
  rw [hdigit, ← List.append_assoc]
  exact reportString_text hzero

/-! ## The size -/

theorem digitLoop_returns (s : Nat) (pre old : List CChar) (hold : (Nat.digits 16 s).length ≤ old.length) :
    Returns (fun fuel => digitLoop fuel (pre ++ old) pre.length s)
      (pre ++ ((Nat.digits 16 s).map hexChar ++ old.drop (Nat.digits 16 s).length),
        pre.length + (Nat.digits 16 s).length) := by
  induction s using Nat.strong_induction_on generalizing pre old with
  | _ s ih =>
    refine Returns.of_succ ?_
    rcases Nat.eq_zero_or_pos s with rfl | hpos
    · simp only [digitLoop, ne_eq, not_true_eq_false, if_false, Nat.digits_zero, List.map_nil, List.nil_append,
        List.length_nil, List.drop_zero, Nat.add_zero]
      exact (returns_some _ _).mpr rfl
    · rw [Nat.digits_def' (by norm_num) hpos] at hold ⊢
      obtain ⟨o, old, rfl⟩ := List.exists_cons_of_length_pos (Nat.zero_lt_of_lt hold)
      have hstore : Checked.store (pre ++ o :: old) pre.length (hexChar (s &&& 0xF)) =
          some ((pre ++ [hexChar (s % 16)]) ++ old) := by
        rw [Checked.store_split rfl, and_fifteen]
        simp
      have hrest := ih (s / 16) (Nat.div_lt_self hpos (by norm_num)) (pre ++ [hexChar (s % 16)]) old
        (by simpa using hold)
      simp only [digitLoop, ne_eq, hpos.ne', not_false_eq_true, if_true, hstore, Option.bind_some]
      rw [List.length_append, List.length_singleton, Nat.add_assoc, Nat.add_comm 1] at hrest
      rw [List.length_cons, List.drop_succ_cons, List.map_cons, List.cons_append,
        List.append_cons pre _ (List.map _ _ ++ _)]
      exact hrest

theorem digits_stored (str : Vector CChar 20) (hsize : size < 2 ^ 64) : ∃ rest : List CChar, rest ≠ [] ∧
    Returns (fun fuel => (digitLoop fuel str.toList 0 size).bind fun (str, pos) => zeroDigit str pos)
      ((digits 16 size).map hexChar ++ rest, (digits 16 size).length) := by
  have hfew : (Nat.digits 16 size).length ≤ 16 :=
    (Nat.digits_length_le_iff (by norm_num) size).mpr (by simpa using hsize)
  have hlen : str.toList.length = 20 := str.length_toList
  have hloop := digitLoop_returns size [] str.toList (by omega)
  rw [List.nil_append] at hloop
  rcases Nat.eq_zero_or_pos size with rfl | hpos
  · obtain ⟨c, rest, hcons⟩ := List.exists_cons_of_length_pos (l := str.toList) (by omega)
    refine ⟨rest, ?_, hloop.bind ⟨0, fun _ _ => ?_⟩⟩
    · rintro rfl
      rw [hcons] at hlen
      simp at hlen
    · rw [hcons]
      rfl
  · have hdigits : digits 16 size = Nat.digits 16 size := if_neg hpos.ne'
    refine ⟨str.toList.drop (Nat.digits 16 size).length, ?_, hloop.bind ⟨0, fun _ _ => ?_⟩⟩
    · rw [Ne, List.drop_eq_nil_iff]
      omega
    · have hne : Nat.digits 16 size ≠ [] := Nat.digits_ne_nil_iff_ne_zero.mpr hpos.ne'
      simp [zeroDigit, hdigits, hne]

theorem reverseLoop_returns (mid pre suf rest : List CChar) (hpre : i = pre.length) (hsuf : i = suf.length)
    (hpos : pos = 2 * i + mid.length) :
    Returns (fun fuel => reverseLoop pos fuel (pre ++ (mid ++ (suf ++ rest))) i)
      (pre ++ (mid.reverse ++ (suf ++ rest))) := by
  induction mid using List.bidirectionalRec generalizing pre suf i with
  | nil =>
    refine Returns.of_succ ?_
    simp only [List.length_nil] at hpos
    simp only [reverseLoop, if_neg (show ¬ (i : Int) < pos - i - 1 by omega)]
    exact (returns_some _ _).mpr rfl
  | singleton a =>
    refine Returns.of_succ ?_
    simp only [List.length_singleton] at hpos
    simp only [reverseLoop, if_neg (show ¬ (i : Int) < pos - i - 1 by omega)]
    exact (returns_some _ _).mpr rfl
  | cons_append a mid b ih =>
    refine Returns.of_succ ?_
    simp only [List.length_append, List.length_cons, List.length_nil] at hpos
    have hswap : Checked.swap (pre ++ (a :: (mid ++ [b]) ++ (suf ++ rest))) i (pos - i - 1) =
        some ((pre ++ [b]) ++ (mid ++ ((a :: suf) ++ rest))) := by
      have hsplit : pre ++ (a :: (mid ++ [b]) ++ (suf ++ rest)) = pre ++ a :: (mid ++ b :: (suf ++ rest)) := by simp
      rw [hsplit, Checked.swap_split hpre (by omega)]
      simp
    have hrest := ih (i := i + 1) (pre ++ [b]) (a :: suf) (by simp [hpre]) (by simp [hsuf]) (by omega)
    simp only [reverseLoop, if_pos (show (i : Int) < pos - i - 1 by omega), hswap, Option.bind_some]
    simpa using hrest

def sizeDigits (size : Nat) : List CChar := ((digits 16 size).map hexChar).reverse

theorem hex_sizeDigits (size : Nat) : Hex (sizeDigits size) size := denotes_digits hexChar (by norm_num) size

theorem reportSize_returns (str : Vector CChar 20) (hsize : size < 2 ^ 64) :
    Returns (fun fuel => reportSize fuel str size) (sizeDigits size) := by
  obtain ⟨rest, hne, hdigits⟩ := digits_stored str hsize
  obtain ⟨c, rest, rfl⟩ := List.exists_cons_of_ne_nil hne
  have hzero : 0 ∉ sizeDigits size := (hex_sizeDigits size).notMem hexChar_ne_zero
  have hlength : (digits 16 size).length = 2 * 0 + ((digits 16 size).map hexChar).length := by simp
  have hreverse := reverseLoop_returns ((digits 16 size).map hexChar) [] [] (c :: rest) rfl rfl hlength
  have hassoc : ∀ fuel, reportSize fuel str size =
      ((digitLoop fuel str.toList 0 size).bind fun (str, pos) => zeroDigit str pos).bind fun (str, pos) =>
        (reverseLoop pos fuel str 0).bind fun str => (Checked.store str pos 0).bind reportString := by
    intro fuel
    rw [Option.bind_assoc]
    rfl
  simp only [hassoc]
  refine hdigits.bind (hreverse.bind ⟨0, fun _ _ => ?_⟩)
  have hstore : Checked.store (sizeDigits size ++ c :: rest) (digits 16 size).length 0 =
      some (sizeDigits size ++ 0 :: rest) := Checked.store_split (by simp [sizeDigits])
  simp only [List.nil_append]
  change (Checked.store (sizeDigits size ++ c :: rest) _ 0).bind reportString = _
  rw [hstore, Option.bind_some]
  exact reportString_text hzero

/-! ## The lines -/

/-- A line that says where a hole is and how large it is. Zero is one digit, and no other size begins with that. -/
def Line (line : List CChar) (b : Block) : Prop :=
  ∃ address size, line = ascii "0x" ++ (address ++ (ascii " : " ++ (size ++ ascii "\n"))) ∧ address.length = 12 ∧
    Hex address b.addr ∧ Hex size b.size ∧ (size = ascii "0" ∨ ∃ c, size.head? = some c ∧ c ≠ 0x30)

def lineOf (b : Block) : List CChar :=
  ascii "0x" ++ (addressDigits b.addr ++ (ascii " : " ++ (sizeDigits b.size ++ ascii "\n")))

theorem line_lineOf (h : b.addr < 2 ^ 48) : Line (lineOf b) b := by
  refine ⟨_, _, rfl, by simp [addressDigits], (reportAddress_eq b.addr h).2, hex_sizeDigits b.size, ?_⟩
  rcases Nat.eq_zero_or_pos b.size with hzero | hpos
  · rw [hzero]
    exact Or.inl (by decide)
  · exact Or.inr (head?_digits hexChar_inj (by norm_num) hpos.ne')

theorem Line.unique {b' : Block} {line : List CChar} (h : Line line b) (h' : Line line b') : b = b' := by
  obtain ⟨address, size, rfl, hlength, haddress, hsize, -⟩ := h
  obtain ⟨address', size', heq, hlength', haddress', hsize', -⟩ := h'
  obtain ⟨rfl, hend⟩ := List.append_inj (List.append_cancel_left heq) (hlength.trans hlength'.symm)
  obtain rfl := List.append_cancel_right (List.append_cancel_left hend)
  have haddr := haddress.unique hexChar_inj haddress'
  have hsame := hsize.unique hexChar_inj hsize'
  cases b
  cases b'
  simp_all

theorem lines_report (l : List Block) (h : ∀ b ∈ l, b.addr < 2 ^ 48) :
    lines 0x0a (l.flatMap lineOf) = l.map lineOf := by
  induction l with
  | nil => rfl
  | cons b l ih =>
    have hline : lineOf b = (ascii "0x" ++ (addressDigits b.addr ++ (ascii " : " ++ sizeDigits b.size))) ++ [0x0a] := by
      simp [lineOf]
      rfl
    have hnewline : 0x0a ∉ ascii "0x" ++ (addressDigits b.addr ++ (ascii " : " ++ sizeDigits b.size)) := by
      have haddress := (reportAddress_eq b.addr (h b List.mem_cons_self)).2.notMem hexChar_ne_newline
      have hsize := (hex_sizeDigits b.size).notMem hexChar_ne_newline
      simp only [List.mem_append, not_or]
      exact ⟨by decide, haddress, by decide, hsize⟩
    rw [List.flatMap_cons, hline, List.append_assoc, List.singleton_append, lines_line hnewline, List.map_cons, hline,
      ih fun c hc => h c (List.mem_cons_of_mem b hc)]

theorem forall₂_line (h : ∀ b ∈ l, b.addr < 2 ^ 48) : List.Forall₂ Line (lines 0x0a (l.flatMap lineOf)) l := by
  rw [lines_report l h, List.forall₂_map_left_iff, List.forall₂_same]
  exact fun b hb => line_lineOf (h b hb)

/-! ## The report -/

theorem reportLoop_returns (str : Nat → Vector CChar 20) {m : Mem} {a : Nat} (hl : ListSeg m a l 0)
    (h : ∀ b ∈ l, b.addr < 2 ^ 48) : Returns (fun fuel => reportLoop str m fuel a) (l.flatMap lineOf) := by
  induction l generalizing a with
  | nil =>
    obtain rfl := (listSeg_nil m a 0).mp hl
    exact Returns.of_succ ((returns_some _ _).mpr rfl)
  | cons b l ih =>
    obtain ⟨rfl, hnull, hsize, hrest⟩ := hl
    have hword : b.size < 2 ^ 64 := by
      rw [← hsize]
      exact load_lt m b.addr 8
    have haddress := (reportAddress_eq b.addr (h b List.mem_cons_self)).1
    have hreport := ih hrest fun c hc => h c (List.mem_cons_of_mem b hc)
    refine Returns.of_succ ?_
    simp only [reportLoop, ne_eq, hnull, not_false_eq_true, if_true, haddress, Option.bind_some, hsize]
    refine (reportSize_returns (str b.addr) hword).bind ?_
    have hline := hreport.map fun rest =>
      ascii "0x" ++ addressDigits b.addr ++ (ascii " : " ++ (sizeDigits b.size ++ (ascii "\n" ++ rest)))
    rw [List.flatMap_cons]
    simpa [lineOf] using hline

/-- **The report of the free list is faithful.** There is one line for each hole, which says its address and its
size and nothing else could have printed. Another free list has another report. -/
theorem report_faithful (str : Nat → Vector CChar 20) {s : State} {holes : List Block}
    (hl : ListSeg s.mem s.freeList holes 0) (h : ∀ b ∈ holes, b.addr < 2 ^ 48) :
    ∃ report, Returns (fun fuel => reportFreeList str fuel s) report ∧ List.Forall₂ Line (lines 0x0a report) holes ∧
      (∀ line b b', Line line b → Line line b' → b = b') ∧
      ∀ (str' : Nat → Vector CChar 20) (s' : State) (holes' : List Block), ListSeg s'.mem s'.freeList holes' 0 →
        (∀ b ∈ holes', b.addr < 2 ^ 48) → Returns (fun fuel => reportFreeList str' fuel s') report →
          holes' = holes := by
  have hreport := reportLoop_returns str hl h
  refine ⟨holes.flatMap lineOf, hreport, forall₂_line h, fun line b b' => Line.unique, ?_⟩
  intro str' s' holes' hl' h' hreport'
  have heq := hreport'.unique (reportLoop_returns str' hl' h')
  have hlines' := forall₂_line h'
  rw [← heq] at hlines'
  have hunique : Relator.RightUnique Line := fun line b b' => Line.unique
  exact hunique.forall₂ hlines' (forall₂_line h)

theorem report_faithful_two : ∃ report,
    Returns (fun fuel => reportFreeList (fun _ => Vector.replicate 20 0) fuel blocksWorld.heap) report ∧
      List.Forall₂ Line (lines 0x0a report) [⟨0x600000000028, 52⟩, ⟨0x6000000000b0, 3912⟩] := by
  obtain ⟨report, hreturns, hlines, -⟩ :=
    report_faithful (fun _ => Vector.replicate 20 0) blocksWorld_holes (by decide)
  exact ⟨report, hreturns, hlines⟩

end OsCoursework.Malloc
