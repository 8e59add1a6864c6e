import OsCoursework.Lib.Fuel
import OsCoursework.Lib.Segments
import OsCoursework.Parking.Tokens

/-!
# Which commands a client gives

`handleClient` reads and writes through one stream. What came with a `read` and was not taken by
`fgets` is lost at the next `fprintf`, and a line longer than `cmd` is taken for several. With each
command is kept where in the input it begins.
-/

open OsCoursework.Cstring OsCoursework.Fuel OsCoursework.Segments

namespace OsCoursework.Parking

def newline : CChar := 0x0a

def carriageReturn : CChar := 0x0d

/-- The most that one `fgets` takes. -/
def chunkSize : Nat := commandSize - 1

theorem chunkSize_pos : 0 < chunkSize := by decide

/-- The input of a `FILE`, with what each `read` of the socket delivers. -/
abbrev Stream := Reader CChar

/-- `fdopen( sock, "a+" )` -/
def fdopen (segments : List (List CChar)) : Stream := ⟨[], segments⟩

/-- What `fgets` takes from the stream for a buffer with room for so many characters and a zero. -/
def readChunk (room : Nat) (stream : Stream) : List CChar × Stream := stream.fill newline room

/-- What `fprintf` does to the input: the one buffer of the stream is for output now. -/
def fprintf (stream : Stream) : Stream := stream.discard

/-- The text in the buffer `cmd` after a line was read and stripped. -/
def command (cmd chunk : List CChar) : List CChar := text (stripNewline (fgets cmd chunk))

def isQuit (command : List CChar) : Bool := decide ((tokens 0x20 command).head? = some (ascii "quit"))

/-- The loop of `handleClient`: the commands it acts on, until `quit` or the end of the stream. What `cmd`
held before makes no difference. Each turn but the last prints a prompt at least. -/
def handleClient : Nat → Nat → Stream → Option (List (Nat × List CChar))
  | 0, _, _ => none
  | fuel + 1, offset, stream =>
    let (chunk, rest) := readChunk chunkSize stream
    let cmd := command [] chunk
    let next := offset + chunk.length + rest.buffer.length
    if chunk = [] then some []
    else if cmd = [] then handleClient fuel next (fprintf rest)
    else if isQuit cmd then some [(offset, cmd)]
    else (handleClient fuel next (fprintf rest)).map fun commands => (offset, cmd) :: commands

/-! ## What a client means -/

/-- The bytes of a client that sends these lines. -/
def sent (lines : List (List CChar)) : List CChar := lines.flatMap fun line => line ++ [newline]

/-- A line up to its first carriage return. -/
def lineText (line : List CChar) : List CChar := line.takeWhile fun c => ¬ (c = carriageReturn ∨ c = newline)

/-- Empty commands are skipped and `quit` is the last one. -/
def session : List (Nat × List CChar) → List (Nat × List CChar)
  | [] => []
  | (offset, cmd) :: rest =>
    if cmd = [] then session rest else if isQuit cmd then [(offset, cmd)] else (offset, cmd) :: session rest

/-- The lines, each with the place of its first byte. -/
def placed : Nat → List (List CChar) → List (Nat × List CChar)
  | _, [] => []
  | offset, line :: lines => (offset, line) :: placed (offset + line.length + 1) lines

/-- One command for each line. -/
def onePerLine (lines : List (List CChar)) : List (Nat × List CChar) :=
  (placed 0 lines).map fun p => (p.1, lineText p.2)

/-- From the place where a segment begins, the first one that begins a whole buffer behind it, the first one
a whole buffer behind that, and so on. -/
def segmentAt (segments : List (List CChar)) (start k : Nat) : Nat :=
  (fun offset => endOf segments (offset + chunkSize))^[k] start

/-- The lines come in these segments. -/
structure Sends (segments lines : List (List CChar)) : Prop where
  sent : segments.flatten = sent lines
  lines : ∀ line ∈ lines, newline ∉ line ∧ 0 ∉ line
  segments : [] ∉ segments

/-- The line can be served as it is meant: when there is anything to it, a segment begins with it, and its text
fits. The segments that begin inside of it, each as far behind as the buffer reaches, begin with a carriage
return. -/
structure FitsLine (segments : List (List CChar)) (offset : Nat) (l : List CChar) : Prop where
  start : lineText l ≠ [] → endOf segments offset = offset
  short : (lineText l).length ≤ chunkSize
  inside : ¬ isQuit (lineText l) → ∀ k, offset < segmentAt segments (endOf segments offset) k →
    segmentAt segments (endOf segments offset) k < offset + l.length →
    l[segmentAt segments (endOf segments offset) k - offset]? = some carriageReturn

/-- Every line fits, up to the first `quit`. -/
def Fits (segments lines : List (List CChar)) : Prop :=
  ∀ offset line, (offset, line) ∈ placed 0 lines →
    (∀ offset' line', (offset', line') ∈ placed 0 lines → offset' < offset → ¬ isQuit (lineText line')) →
    FitsLine segments offset line

/-! ## Where each `fgets` begins -/

def chunkAt (segments : List (List CChar)) (offset : Nat) : List CChar :=
  (Lines.fill newline chunkSize (segments.flatten.drop offset)).1

theorem chunkAt_ne_nil {segments : List (List CChar)} {offset : Nat} :
    chunkAt segments offset ≠ [] ↔ offset < segments.flatten.length := by
  rw [Ne, chunkAt, Lines.fill_eq_nil chunkSize_pos, List.drop_eq_nil_iff, not_le]

/-- Behind the segment with the last byte that was taken. -/
def nextAt (segments : List (List CChar)) (offset : Nat) : Nat :=
  endOf segments (offset + (chunkAt segments offset).length)

theorem lt_nextAt {segments : List (List CChar)} {offset : Nat} (h : offset < segments.flatten.length) :
    offset < nextAt segments offset := by
  have hpos := List.length_pos_iff.mpr (chunkAt_ne_nil.mpr h)
  have hle := le_endOf segments (offset + (chunkAt segments offset).length)
  unfold nextAt
  omega

/-- The places of the input at which an `fgets` begins, from one of them on. -/
def fgetsFrom (segments : List (List CChar)) (offset : Nat) : List Nat :=
  if offset < segments.flatten.length then offset :: fgetsFrom segments (nextAt segments offset) else []
termination_by segments.flatten.length - offset
decreasing_by
  have hlt := lt_nextAt ‹_›
  omega

/-! ## The text of a chunk -/

theorem text_stripNewline {chunk : List CChar} (h : 0 ∉ chunk) (tail : List CChar) :
    text (stripNewline (chunk ++ 0 :: tail)) = lineText chunk := by
  induction chunk with
  | nil =>
    unfold stripNewline
    rw [List.nil_append, text_cons_zero]
    exact text_cons_zero tail
  | cons a chunk ih =>
    obtain ⟨ha, h⟩ := not_or.mp (List.mem_cons.not.mp h)
    have hrest := ih h
    unfold stripNewline at hrest ⊢
    unfold lineText at hrest ⊢
    rw [List.cons_append, text_cons_ne (Ne.symm ha), List.findIdx?_cons, List.takeWhile_cons]
    by_cases hstop : a = 0x0d ∨ a = 0x0a
    · have hstop' : a = carriageReturn ∨ a = newline := hstop
      rw [if_pos (by simpa using hstop), if_neg fun h => absurd hstop' (of_decide_eq_true h)]
      exact text_cons_zero _
    · have hstop' : ¬ (a = carriageReturn ∨ a = newline) := hstop
      rw [if_neg (by simpa using hstop), if_pos (decide_eq_true hstop')]
      cases hfind : (text (chunk ++ 0 :: tail)).findIdx? fun c => c = 0x0d ∨ c = 0x0a with
      | none =>
        rw [hfind] at hrest
        simp only [Option.map_none]
        rw [text_cons_ne (Ne.symm ha), hrest]
      | some i =>
        rw [hfind] at hrest
        simp only [Option.map_some, List.set_cons_succ]
        rw [text_cons_ne (Ne.symm ha), hrest]

theorem command_eq {chunk : List CChar} (h : 0 ∉ chunk) (cmd : List CChar) : command cmd chunk = lineText chunk :=
  text_stripNewline h _

theorem lineText_newline (line : List CChar) : lineText (line ++ [newline]) = lineText line := by
  unfold lineText
  induction line with
  | nil => rfl
  | cons a line ih => rw [List.cons_append, List.takeWhile_cons, List.takeWhile_cons, ih]

theorem lineText_take (line : List CChar) (k : Nat) : lineText (line.take k) = (lineText line).take k := by
  unfold lineText
  rw [List.take_takeWhile]

theorem lineText_eq_nil_iff {l : List CChar} (h : newline ∉ l) :
    lineText l = [] ↔ (l ≠ [] → l[0]? = some carriageReturn) := by
  cases l with
  | nil => simp [lineText]
  | cons c l =>
    have hc : c ≠ newline := fun hc => h (by rw [hc]; exact List.mem_cons_self)
    by_cases hcr : c = carriageReturn <;> simp [lineText, hc, hcr]

theorem isQuit_ne_nil {c : List CChar} (h : isQuit c = true) : c ≠ [] := by
  rintro rfl
  unfold isQuit at h
  rw [tokens_nil] at h
  cases h

/-! ## The loop -/

variable {segments lines : List (List CChar)} {offset : Nat}

/-- What each `fgets` leaves in `cmd`. -/
def reads (segments : List (List CChar)) (offset : Nat) : List (Nat × List CChar) :=
  (fgetsFrom segments offset).map fun o => (o, lineText (chunkAt segments o))

theorem readChunk_at {front rest : List (List CChar)} (hne : [] ∉ rest) :
    ∃ front' rest', (readChunk chunkSize (fdopen rest)).1 = chunkAt (front ++ rest) front.flatten.length ∧
      fprintf (readChunk chunkSize (fdopen rest)).2 = fdopen rest' ∧ front ++ rest = front' ++ rest' ∧
      front.flatten.length + (readChunk chunkSize (fdopen rest)).1.length +
        (readChunk chunkSize (fdopen rest)).2.buffer.length = front'.flatten.length ∧
      front'.flatten.length = nextAt (front ++ rest) front.flatten.length := by
  have hread := read_fill newline chunkSize (fdopen rest)
  have hchunk : (readChunk chunkSize (fdopen rest)).1 = chunkAt (front ++ rest) front.flatten.length := by
    rw [readChunk, fill_eq hne, chunkAt, List.flatten_append, List.drop_left]
    rfl
  obtain ⟨mid, hmid⟩ := hread.segments
  have hcontents := congrArg List.length hread.contents
  have hbuffer := hread.buffer
  unfold readChunk at hchunk ⊢
  generalize (fdopen rest).fill newline chunkSize = r at *
  have hrest : rest = mid ++ r.2.segments := hmid
  simp only [fdopen, List.length_nil, Nat.sub_zero, Nat.zero_add] at hbuffer
  simp only [fdopen, Reader.contents, List.nil_append, List.length_append] at hcontents
  rw [hrest, List.flatten_append, List.length_append] at hcontents
  refine ⟨front ++ mid, r.2.segments, hchunk, rfl, ?_, ?_, ?_⟩
  · rw [hrest, List.append_assoc]
  · rw [List.flatten_append, List.length_append]
    omega
  · rw [nextAt, endOf_append, ← hchunk, ← hbuffer, List.flatten_append, List.length_append]
    omega

theorem chunkAt_nonzero (h0 : 0 ∉ segments.flatten) (offset : Nat) : 0 ∉ chunkAt segments offset := by
  intro hmem
  have happend := Lines.fill_append newline chunkSize (segments.flatten.drop offset)
  refine h0 (List.mem_of_mem_drop (i := offset) ?_)
  rw [← happend]
  exact List.mem_append_left _ hmem

theorem handleClient_reads (hne : [] ∉ segments) (h0 : 0 ∉ segments.flatten) {front rest : List (List CChar)}
    (hsegments : segments = front ++ rest) (hoffset : front.flatten.length = offset) :
    Returns (fun fuel => handleClient fuel offset (fdopen rest)) (session (reads segments offset)) := by
  induction offset using fgetsFrom.induct segments generalizing front rest with
  | case1 offset hlt ih =>
    have hrest : [] ∉ rest := fun hmem => hne (hsegments ▸ List.mem_append_right _ hmem)
    obtain ⟨front', rest', hchunk, hprinted, hsplit, hnext, hnextAt⟩ := @readChunk_at front _ hrest
    rw [← hsegments, hoffset] at hchunk hnextAt
    rw [hoffset] at hnext
    rw [← hsegments] at hsplit
    have hlater := ih hsplit hnextAt
    rw [hnextAt, hchunk] at hnext
    refine Returns.of_succ ?_
    unfold handleClient
    rw [reads, fgetsFrom, if_pos hlt, List.map_cons, session]
    simp only [hprinted, hchunk, hnext, if_neg (chunkAt_ne_nil.mpr hlt), command_eq (chunkAt_nonzero h0 offset)]
    split_ifs
    · exact hlater
    · exact (returns_some _ _).mpr rfl
    · exact hlater.map _
  | case2 offset hend =>
    have hrest : [] ∉ rest := fun hmem => hne (hsegments ▸ List.mem_append_right _ hmem)
    obtain ⟨-, -, hchunk, -⟩ := @readChunk_at front _ hrest
    rw [← hsegments, hoffset, not_not.mp (mt chunkAt_ne_nil.mp hend)] at hchunk
    refine Returns.of_succ ?_
    unfold handleClient
    rw [reads, fgetsFrom, if_neg hend]
    simp only [hchunk, if_true]
    exact (returns_some _ _).mpr rfl

theorem handleClient_returns (h : Sends segments lines) :
    Returns (fun fuel => handleClient fuel 0 (fdopen segments)) (session (reads segments 0)) := by
  refine @handleClient_reads segments 0 h.segments ?_ [] segments rfl rfl
  rw [h.sent, sent, List.mem_flatMap]
  rintro ⟨line, hline, hmem⟩
  rcases List.mem_append.mp hmem with hmem | hmem
  · exact (h.lines line hline).2 hmem
  · cases List.mem_singleton.mp hmem

/-! ## The places of the lines -/

theorem placed_mem {start : Nat} {l : List CChar} (h : (offset, l) ∈ placed start lines) :
    start ≤ offset ∧ l ∈ lines ∧ ∃ rest, (sent lines).drop (offset - start) = l ++ newline :: rest := by
  induction lines generalizing start with
  | nil => cases h
  | cons line lines ih =>
    have hsent : sent (line :: lines) = line ++ newline :: sent lines := by simp [sent]
    rcases List.mem_cons.mp h with heq | h
    · obtain ⟨rfl, rfl⟩ := Prod.mk.inj heq
      refine ⟨le_rfl, List.mem_cons_self, sent lines, ?_⟩
      rw [Nat.sub_self, List.drop_zero, hsent]
    · obtain ⟨hle, hmem, rest, hdrop⟩ := ih h
      refine ⟨by omega, List.mem_cons_of_mem _ hmem, rest, ?_⟩
      have hoffset : offset - start = line.length + (1 + (offset - (start + line.length + 1))) := by omega
      rw [hsent, hoffset, ← List.drop_drop, List.drop_left, ← List.drop_drop, List.drop_one, List.tail_cons, hdrop]

theorem placed_cover {start : Nat} (hle : start ≤ offset) (hlt : offset < start + (sent lines).length) :
    ∃ o l, (o, l) ∈ placed start lines ∧ o ≤ offset ∧ offset ≤ o + l.length := by
  induction lines generalizing start with
  | nil => exact absurd hlt (not_lt.mpr hle)
  | cons line lines ih =>
    have hsent : (sent (line :: lines)).length = line.length + 1 + (sent lines).length := by
      rw [sent, List.flatMap_cons, List.length_append, List.length_append, List.length_singleton, sent]
    by_cases hin : offset ≤ start + line.length
    · exact ⟨start, line, List.mem_cons_self, hle, hin⟩
    · obtain ⟨o, l, hmem, hcover⟩ := @ih (start + line.length + 1) (by omega) (by omega)
      exact ⟨o, l, List.mem_cons_of_mem _ hmem, hcover⟩

theorem Sends.cover (h : Sends segments lines) (hlt : offset < segments.flatten.length) :
    ∃ o l, (o, l) ∈ placed 0 lines ∧ o ≤ offset ∧ offset ≤ o + l.length := by
  rw [h.sent] at hlt
  exact placed_cover (Nat.zero_le _) (by rwa [Nat.zero_add])

theorem placed_sorted (start : Nat) (lines : List (List CChar)) :
    (placed start lines).Pairwise fun a b => a.1 + a.2.length < b.1 := by
  induction lines generalizing start with
  | nil => exact List.Pairwise.nil
  | cons line lines ih =>
    refine List.Pairwise.cons (fun b hb => ?_) (ih _)
    exact Nat.lt_of_succ_le (placed_mem hb).1

theorem placed_apart {start : Nat} {a b : Nat × List CChar} (ha : a ∈ placed start lines) (hb : b ∈ placed start lines)
    (hne : a ≠ b) : a.1 + a.2.length < b.1 ∨ b.1 + b.2.length < a.1 := by
  have hapart : (placed start lines).Pairwise fun a b => a.1 + a.2.length < b.1 ∨ b.1 + b.2.length < a.1 :=
    (placed_sorted start lines).imp Or.inl
  have hsymm : Std.Symm fun a b : Nat × List CChar => a.1 + a.2.length < b.1 ∨ b.1 + b.2.length < a.1 :=
    ⟨fun _ _ => Or.symm⟩
  exact hapart.forall ha hb hne

theorem placed_inj {start : Nat} {l l' : List CChar} (h : (offset, l) ∈ placed start lines)
    (h' : (offset, l') ∈ placed start lines) : l = l' := by
  by_contra hne
  rcases placed_apart h h' fun heq => hne (Prod.mk.inj heq).2 with hlt | hlt
  · exact absurd hlt (by simp)
  · exact absurd hlt (by simp)

/-! ## The places where `fgets` begins -/

theorem fgetsFrom_mem {o : Nat} (h : o ∈ fgetsFrom segments offset) : offset ≤ o ∧ o < segments.flatten.length := by
  induction offset using fgetsFrom.induct segments with
  | case1 offset hlt ih =>
    rw [fgetsFrom, if_pos hlt] at h
    rcases List.mem_cons.mp h with rfl | h
    · exact ⟨le_rfl, hlt⟩
    · exact ⟨(lt_nextAt hlt).le.trans (ih h).1, (ih h).2⟩
  | case2 offset hend =>
    rw [fgetsFrom, if_neg hend] at h
    cases h

theorem fgetsFrom_sorted (segments : List (List CChar)) (offset : Nat) :
    (fgetsFrom segments offset).Pairwise (· < ·) := by
  induction offset using fgetsFrom.induct segments with
  | case1 offset hlt ih =>
    rw [fgetsFrom, if_pos hlt]
    exact List.Pairwise.cons (fun o ho => (lt_nextAt hlt).trans_le (fgetsFrom_mem ho).1) ih
  | case2 offset hend =>
    rw [fgetsFrom, if_neg hend]
    exact List.Pairwise.nil

theorem endOf_of_mem {o : Nat} (h : o ∈ fgetsFrom segments offset) (hstart : endOf segments offset = offset) :
    endOf segments o = o := by
  induction offset using fgetsFrom.induct segments with
  | case1 offset hlt ih =>
    rw [fgetsFrom, if_pos hlt] at h
    rcases List.mem_cons.mp h with rfl | h
    · exact hstart
    · exact ih h (endOf_endOf segments _)
  | case2 offset hend =>
    rw [fgetsFrom, if_neg hend] at h
    cases h

theorem Sends.chunkAt_line (h : Sends segments lines) {l : List CChar} (hl : (offset, l) ∈ placed 0 lines) {j : Nat}
    (hj : j ≤ l.length) :
    lineText (chunkAt segments (offset + j)) = (lineText (l.drop j)).take chunkSize ∧
      (chunkAt segments (offset + j)).length = min chunkSize (l.length + 1 - j) := by
  obtain ⟨-, hmem, rest, hdrop⟩ := placed_mem hl
  have hline : newline ∉ l.drop j := fun hin => (h.lines l hmem).1 (List.mem_of_mem_drop hin)
  have hbytes : segments.flatten.drop (offset + j) = l.drop j ++ newline :: rest := by
    rw [h.sent, ← List.drop_drop, ← Nat.sub_zero offset, hdrop, List.drop_append_of_le_length hj]
  have hlength := List.length_drop (i := j) (l := l)
  unfold chunkAt
  rw [hbytes]
  by_cases hroom : (l.drop j).length < chunkSize
  · rw [Lines.fill_line hline hroom]
    refine ⟨?_, ?_⟩
    · have htext : (lineText (l.drop j)).length ≤ chunkSize := (List.takeWhile_prefix _).length_le.trans hroom.le
      rw [lineText_newline, List.take_of_length_le htext]
    · rw [List.length_append, List.length_singleton]
      omega
  · rw [Lines.fill_full hline (not_lt.mp hroom)]
    refine ⟨lineText_take _ _, ?_⟩
    rw [List.length_take]
    omega

theorem Sends.chunkAt_eq_nil_iff (h : Sends segments lines) {l : List CChar} (hl : (offset, l) ∈ placed 0 lines) {j : Nat}
    (hj : j ≤ l.length) :
    lineText (chunkAt segments (offset + j)) = [] ↔ (j < l.length → l[j]? = some carriageReturn) := by
  obtain ⟨-, hmem, -⟩ := placed_mem hl
  have hline : newline ∉ l.drop j := fun hin => (h.lines l hmem).1 (List.mem_of_mem_drop hin)
  rw [(h.chunkAt_line hl hj).1, List.take_eq_nil_iff, or_iff_right chunkSize_pos.ne', lineText_eq_nil_iff hline, Ne,
    List.drop_eq_nil_iff, not_le, List.getElem?_drop, Nat.add_zero]

theorem Sends.lt_length (h : Sends segments lines) {l : List CChar} (hl : (offset, l) ∈ placed 0 lines) :
    offset + l.length < segments.flatten.length := by
  obtain ⟨-, -, rest, hdrop⟩ := placed_mem hl
  have hlength := congrArg List.length hdrop
  rw [Nat.sub_zero, List.length_drop, List.length_append, List.length_cons] at hlength
  rw [h.sent]
  omega

/-- From a line on it makes no difference what was before, but where the next segment begins. -/
theorem Sends.fgetsFrom_line (h : Sends segments lines) {o p : Nat} {l : List CChar} (hl : (o, l) ∈ placed 0 lines)
    (hp : o ≤ p) (hstart : endOf segments offset = offset) (hle : offset ≤ o) :
    p ∈ fgetsFrom segments offset ↔ p ∈ fgetsFrom segments (endOf segments o) := by
  have hlt := h.lt_length hl
  induction offset using fgetsFrom.induct segments with
  | case1 offset hin ih =>
    rcases Nat.eq_or_lt_of_le hle with rfl | hbefore
    · rw [hstart]
    · have hchunk : offset + (chunkAt segments offset).length ≤ o := by
        obtain ⟨o', l', hl', hle', hge'⟩ := h.cover hin
        have hne : (o', l') ≠ (o, l) := by
          rintro heq
          obtain ⟨rfl, -⟩ := Prod.mk.inj heq
          omega
        have hapart := placed_apart hl' hl hne
        dsimp only at hapart
        obtain ⟨j, rfl⟩ := Nat.exists_eq_add_of_le hle'
        have htaken := (h.chunkAt_line hl' (by omega : j ≤ l'.length)).2
        omega
      rw [fgetsFrom, if_pos hin, List.mem_cons, or_iff_right (by omega : p ≠ offset)]
      by_cases hnext : nextAt segments offset ≤ o
      · exact ih (endOf_endOf segments _) hnext
      · -- Then the line begins within the segment that was read last.
        have hsame : nextAt segments offset = endOf segments o := by
          refine le_antisymm (endOf_mono segments hchunk) ?_
          have hover := endOf_mono segments (not_le.mp hnext).le
          rwa [nextAt, endOf_endOf] at hover
        rw [hsame]
  | case2 offset hend => omega

theorem le_segmentAt (segments : List (List CChar)) (start k : Nat) : start ≤ segmentAt segments start k := by
  induction k generalizing start with
  | zero => exact le_rfl
  | succ k ih =>
    have hnext := ih (endOf segments (start + chunkSize))
    have hle := le_endOf segments (start + chunkSize)
    rw [segmentAt, Function.iterate_succ_apply]
    unfold segmentAt at hnext
    omega

theorem endOf_segmentAt {start : Nat} (hstart : endOf segments start = start) (k : Nat) :
    endOf segments (segmentAt segments start k) = segmentAt segments start k := by
  cases k with
  | zero => exact hstart
  | succ k => rw [segmentAt, Function.iterate_succ_apply', endOf_endOf]

theorem Sends.mem_fgetsFrom (h : Sends segments lines) {o p : Nat} {l : List CChar} (hl : (o, l) ∈ placed 0 lines)
    (hle : o ≤ offset) (hp : p ≤ o + l.length) :
    p ∈ fgetsFrom segments offset ↔ ∃ k, segmentAt segments offset k = p := by
  have hlt := h.lt_length hl
  induction offset using fgetsFrom.induct segments with
  | case1 offset hin ih =>
    have hiter : (∃ k, segmentAt segments offset k = p) ↔
        p = offset ∨ ∃ k, segmentAt segments (endOf segments (offset + chunkSize)) k = p := by
      constructor
      · rintro ⟨_ | k, hk⟩
        · exact Or.inl hk.symm
        · exact Or.inr ⟨k, hk⟩
      · rintro (rfl | ⟨k, hk⟩)
        · exact ⟨0, rfl⟩
        · exact ⟨k + 1, hk⟩
    rw [fgetsFrom, if_pos hin, List.mem_cons, hiter]
    refine or_congr_right ?_
    by_cases hfull : offset + chunkSize ≤ o + l.length + 1
    · obtain ⟨j, rfl⟩ := Nat.exists_eq_add_of_le hle
      have hj : j ≤ l.length := by
        have hpos := chunkSize_pos
        omega
      have hnext : nextAt segments (o + j) = endOf segments (o + j + chunkSize) := by
        rw [nextAt, (h.chunkAt_line hl hj).2, Nat.min_eq_left (by omega)]
      have hlater := ih (hle.trans (lt_nextAt hin).le)
      rw [hnext] at hlater ⊢
      exact hlater
    · -- The line ends before.
      refine iff_of_false (fun hmem => ?_) ?_
      · have hbehind : o + l.length < nextAt segments offset := by
          by_cases hj : offset ≤ o + l.length
          · obtain ⟨j, rfl⟩ := Nat.exists_eq_add_of_le hle
            have htaken := (h.chunkAt_line hl (by omega : j ≤ l.length)).2
            have hover := le_endOf segments (o + j + (chunkAt segments (o + j)).length)
            unfold nextAt
            omega
          · exact (not_le.mp hj).trans (lt_nextAt hin)
        exact absurd (fgetsFrom_mem hmem).1 (by omega)
      · rintro ⟨k, rfl⟩
        have hge := le_segmentAt segments (endOf segments (offset + chunkSize)) k
        have hover := le_endOf segments (offset + chunkSize)
        omega
  | case2 offset hend =>
    rw [fgetsFrom, if_neg hend]
    refine iff_of_false List.not_mem_nil ?_
    rintro ⟨k, rfl⟩
    have hge := le_segmentAt segments offset k
    omega

/-! ## Sessions -/

section Sessions

variable {X Y : List (Nat × List CChar)} {a : Nat × List CChar}

theorem session_sublist (X : List (Nat × List CChar)) : (session X).Sublist X := by
  induction X with
  | nil => exact List.Sublist.refl _
  | cons b X ih =>
    rw [session]
    split_ifs
    · exact ih.cons b
    · exact List.Sublist.cons_cons b (List.nil_sublist X)
    · exact ih.cons_cons b

theorem mem_session_iff (hX : X.Pairwise fun a b => a.1 < b.1) :
    a ∈ session X ↔ a ∈ X ∧ a.2 ≠ [] ∧ ∀ b ∈ X, b.1 < a.1 → ¬ isQuit b.2 := by
  induction X with
  | nil => simp [session]
  | cons c X ih =>
    obtain ⟨hc, hX⟩ := List.pairwise_cons.mp hX
    have hlater := ih hX
    rw [session]
    split_ifs with hempty hquit
    · rw [hlater]
      constructor
      · rintro ⟨hmem, hne, hfirst⟩
        refine ⟨List.mem_cons_of_mem _ hmem, hne, fun b hb hlt => ?_⟩
        rcases List.mem_cons.mp hb with rfl | hb
        · exact fun hq => isQuit_ne_nil hq hempty
        · exact hfirst b hb hlt
      · rintro ⟨hmem, hne, hfirst⟩
        rcases List.mem_cons.mp hmem with rfl | hmem
        · exact absurd hempty hne
        · exact ⟨hmem, hne, fun b hb => hfirst b (List.mem_cons_of_mem _ hb)⟩
    · rw [List.mem_singleton]
      constructor
      · rintro rfl
        refine ⟨List.mem_cons_self, hempty, fun b hb hlt => ?_⟩
        rcases List.mem_cons.mp hb with rfl | hb
        · exact absurd hlt (lt_irrefl _)
        · exact absurd (hc b hb) hlt.not_gt
      · rintro ⟨hmem, -, hfirst⟩
        rcases List.mem_cons.mp hmem with rfl | hmem
        · rfl
        · exact absurd hquit (hfirst c List.mem_cons_self (hc a hmem))
    · rw [List.mem_cons, hlater]
      constructor
      · rintro (rfl | ⟨hmem, hne, hfirst⟩)
        · refine ⟨List.mem_cons_self, hempty, fun b hb hlt => ?_⟩
          rcases List.mem_cons.mp hb with rfl | hb
          · exact absurd hlt (lt_irrefl _)
          · exact absurd (hc b hb) hlt.not_gt
        · refine ⟨List.mem_cons_of_mem _ hmem, hne, fun b hb hlt => ?_⟩
          rcases List.mem_cons.mp hb with rfl | hb
          · exact hquit
          · exact hfirst b hb hlt
      · rintro ⟨hmem, hne, hfirst⟩
        rcases List.mem_cons.mp hmem with rfl | hmem
        · exact Or.inl rfl
        · exact Or.inr ⟨hmem, hne, fun b hb => hfirst b (List.mem_cons_of_mem _ hb)⟩

theorem exists_quit (hX : X.Pairwise fun a b => a.1 < b.1) {k : Nat} (h : ∃ b ∈ X, b.1 < k ∧ isQuit b.2) :
    ∃ b ∈ session X, b.1 < k ∧ isQuit b.2 := by
  classical
  have hsome : ∃ n, ∃ b ∈ X, b.1 = n ∧ b.1 < k ∧ isQuit b.2 := by
    obtain ⟨b, hb, hquit⟩ := h
    exact ⟨b.1, b, hb, rfl, hquit⟩
  obtain ⟨b, hb, hfind, hlt, hquit⟩ := Nat.find_spec hsome
  refine ⟨b, (mem_session_iff hX).mpr ⟨hb, isQuit_ne_nil hquit, fun c hc hbefore hcquit => ?_⟩, hlt, hquit⟩
  exact Nat.find_min hsome (hfind ▸ hbefore) ⟨c, hc, rfl, hbefore.trans hlt, hcquit⟩

theorem session_ext (hX : X.Pairwise fun a b => a.1 < b.1) (hY : Y.Pairwise fun a b => a.1 < b.1)
    (h : ∀ a, a ∈ session X ↔ a ∈ session Y) : session X = session Y := by
  have hX' := hX.sublist (session_sublist X)
  have hY' := hY.sublist (session_sublist Y)
  have hnodup : ∀ Z : List (Nat × List CChar), (Z.Pairwise fun a b => a.1 < b.1) → Z.Nodup := by
    intro Z hZ
    refine hZ.imp fun hlt heq => ?_
    rw [heq] at hlt
    exact lt_irrefl _ hlt
  refine List.Perm.eq_of_pairwise (fun a b _ _ hab hba => absurd hba hab.not_gt) hX' hY' ?_
  exact (List.perm_ext_iff_of_nodup (hnodup _ hX') (hnodup _ hY')).mpr h

end Sessions

theorem onePerLine_sorted (lines : List (List CChar)) : (onePerLine lines).Pairwise fun a b => a.1 < b.1 := by
  refine List.pairwise_map.mpr ((placed_sorted 0 lines).imp fun hlt => ?_)
  dsimp only
  omega

theorem reads_sorted (segments : List (List CChar)) (offset : Nat) :
    (reads segments offset).Pairwise fun a b => a.1 < b.1 :=
  List.pairwise_map.mpr (fgetsFrom_sorted segments offset)

theorem mem_onePerLine {a : Nat × List CChar} :
    a ∈ onePerLine lines ↔ ∃ l, (a.1, l) ∈ placed 0 lines ∧ lineText l = a.2 := by
  unfold onePerLine
  rw [List.mem_map]
  constructor
  · rintro ⟨⟨o, l⟩, hl, rfl⟩
    exact ⟨l, hl, rfl⟩
  · rintro ⟨l, hl, htext⟩
    exact ⟨(a.1, l), hl, Prod.ext rfl htext⟩

theorem mem_reads {a : Nat × List CChar} :
    a ∈ reads segments offset ↔ a.1 ∈ fgetsFrom segments offset ∧ lineText (chunkAt segments a.1) = a.2 := by
  unfold reads
  rw [List.mem_map]
  constructor
  · rintro ⟨o, ho, rfl⟩
    exact ⟨ho, rfl⟩
  · rintro ⟨ho, htext⟩
    exact ⟨a.1, ho, Prod.ext rfl htext⟩

/-! ## When a session is what the client means -/

/-- No line before this place reads as `quit`. -/
def Open (lines : List (List CChar)) (offset : Nat) : Prop :=
  ∀ o l, (o, l) ∈ placed 0 lines → o < offset → ¬ isQuit (lineText l)

theorem open_iff : Open lines offset ↔ ∀ b ∈ onePerLine lines, b.1 < offset → ¬ isQuit b.2 := by
  constructor
  · intro h b hb hlt
    obtain ⟨l, hl, htext⟩ := mem_onePerLine.mp hb
    exact htext ▸ h b.1 l hl hlt
  · intro h o l hl hlt
    exact h (o, lineText l) (mem_onePerLine.mpr ⟨l, hl, rfl⟩) hlt

theorem chunkAt_inside (hsame : session (reads segments 0) = session (onePerLine lines)) {l : List CChar}
    (hl : (offset, l) ∈ placed 0 lines) (hopen : Open lines offset) (hquit : ¬ isQuit (lineText l))
    {j : Nat} (hpos : 0 < j) (hj : j < l.length) (hbegins : offset + j ∈ fgetsFrom segments 0) :
    lineText (chunkAt segments (offset + j)) = [] := by
  by_contra hne
  have hfirst : ∀ b ∈ reads segments 0, b.1 < offset + j → ¬ isQuit b.2 := by
    intro b hb hlt hbquit
    obtain ⟨c, hc, hclt, hcquit⟩ := exists_quit (reads_sorted segments 0) ⟨b, hb, hlt, hbquit⟩
    rw [hsame] at hc
    obtain ⟨l', hl', htext'⟩ := mem_onePerLine.mp ((session_sublist _).subset hc)
    rcases lt_trichotomy c.1 offset with hbefore | heq | hafter
    · exact hopen c.1 l' hl' hbefore (htext' ▸ hcquit)
    · rw [heq] at hl'
      exact hquit (placed_inj hl' hl ▸ htext' ▸ hcquit)
    · have hapart := placed_apart hl hl' fun heq => hafter.ne (Prod.mk.inj heq).1
      dsimp only at hapart
      omega
  -- What this `fgets` takes would be served, and it is no line.
  have hin : (offset + j, lineText (chunkAt segments (offset + j))) ∈ session (reads segments 0) :=
    (mem_session_iff (reads_sorted segments 0)).mpr ⟨mem_reads.mpr ⟨hbegins, rfl⟩, hne, hfirst⟩
  rw [hsame] at hin
  obtain ⟨l', hl', -⟩ := mem_onePerLine.mp ((session_sublist _).subset hin)
  have hapart := placed_apart hl hl' fun heq => absurd (Prod.mk.inj heq).1 (by dsimp only; omega)
  dsimp only at hapart
  omega

theorem Sends.fitsLine (h : Sends segments lines) (hsame : session (reads segments 0) = session (onePerLine lines))
    {l : List CChar} (hl : (offset, l) ∈ placed 0 lines) (hopen : Open lines offset) : FitsLine segments offset l := by
  have hserved : lineText l ≠ [] → (offset, lineText l) ∈ reads segments 0 := by
    intro hne
    have hin : (offset, lineText l) ∈ session (onePerLine lines) :=
      (mem_session_iff (onePerLine_sorted lines)).mpr ⟨mem_onePerLine.mpr ⟨l, hl, rfl⟩, hne, open_iff.mp hopen⟩
    rw [← hsame] at hin
    exact (session_sublist _).subset hin
  have hwhole := (h.chunkAt_line hl (Nat.zero_le _)).1
  rw [List.drop_zero, Nat.add_zero] at hwhole
  refine ⟨fun hne => ?_, ?_, fun hquit k hpos hj => ?_⟩
  · exact endOf_of_mem (mem_reads.mp (hserved hne)).1 (endOf_zero segments)
  · by_cases hne : lineText l = []
    · rw [hne]
      exact Nat.zero_le _
    · have htext := (mem_reads.mp (hserved hne)).2
      dsimp only at htext
      rw [← htext, hwhole]
      exact List.length_take_le _ _
  · have hbegins : segmentAt segments (endOf segments offset) k ∈ fgetsFrom segments 0 :=
      (h.fgetsFrom_line hl hpos.le (endOf_zero segments) (Nat.zero_le _)).mpr
        ((h.mem_fgetsFrom hl (le_endOf segments offset) hj.le).mpr ⟨k, rfl⟩)
    obtain ⟨j, hplace⟩ := Nat.exists_eq_add_of_le hpos.le
    rw [hplace] at hpos hj hbegins
    rw [hplace, Nat.add_sub_cancel_left]
    replace hpos : 0 < j := by omega
    replace hj : j < l.length := by omega
    exact (h.chunkAt_eq_nil_iff hl hj.le).mp (chunkAt_inside hsame hl hopen hquit hpos hj hbegins) hj

section Served

variable (h : Sends segments lines) (hfits : Fits segments lines)

include h hfits

theorem Fits.line_read {l : List CChar} (hl : (offset, l) ∈ placed 0 lines) (hopen : Open lines offset)
    (hne : lineText l ≠ []) : (offset, lineText l) ∈ reads segments 0 := by
  have hline := hfits offset l hl hopen
  have htext := (h.chunkAt_line hl (Nat.zero_le _)).1
  rw [List.drop_zero, Nat.add_zero, List.take_of_length_le hline.short] at htext
  refine mem_reads.mpr ⟨?_, htext⟩
  have hlt := h.lt_length hl
  rw [h.fgetsFrom_line hl le_rfl (endOf_zero segments) (Nat.zero_le _), hline.start hne, fgetsFrom, if_pos (by omega)]
  exact List.mem_cons_self

theorem Fits.read_line {a : Nat × List CChar} (ha : a ∈ reads segments 0) (hne : a.2 ≠ []) {l : List CChar}
    (hl : (offset, l) ∈ placed 0 lines) (hle : offset ≤ a.1) (hge : a.1 ≤ offset + l.length)
    (hopen : Open lines offset) : (a.1 = offset ∧ a.2 = lineText l) ∨ (offset < a.1 ∧ isQuit (lineText l)) := by
  have hline := hfits offset l hl hopen
  obtain ⟨hbegins, htext⟩ := mem_reads.mp ha
  obtain ⟨j, hj⟩ := Nat.exists_eq_add_of_le hle
  have hin : j ≤ l.length := by omega
  rw [hj] at htext
  rcases Nat.eq_zero_or_pos j with rfl | hpos
  · left
    rw [(h.chunkAt_line hl hin).1, List.drop_zero, List.take_of_length_le hline.short] at htext
    exact ⟨hj, htext.symm⟩
  · right
    refine ⟨by omega, ?_⟩
    by_contra hquit
    refine hne (htext ▸ (h.chunkAt_eq_nil_iff hl hin).mpr fun hlt => ?_)
    rw [h.fgetsFrom_line hl hle (endOf_zero segments) (Nat.zero_le _),
      h.mem_fgetsFrom hl (le_endOf segments offset) hge] at hbegins
    obtain ⟨k, hk⟩ := hbegins
    have hcr := hline.inside hquit k (by omega) (by omega)
    rwa [hk, hj, Nat.add_sub_cancel_left] at hcr

theorem Fits.session_eq : session (reads segments 0) = session (onePerLine lines) := by
  refine session_ext (reads_sorted segments 0) (onePerLine_sorted lines) fun a => ?_
  rw [mem_session_iff (reads_sorted segments 0), mem_session_iff (onePerLine_sorted lines)]
  constructor
  · rintro ⟨ha, hne, hfirst⟩
    obtain ⟨o, l, hl, hle, hge⟩ := h.cover (fgetsFrom_mem (mem_reads.mp ha).1).2
    have hopen : Open lines o := by
      rw [open_iff]
      intro b hb hlt hquit
      obtain ⟨c, hc, hclt, hcquit⟩ := exists_quit (onePerLine_sorted lines) ⟨b, hb, hlt, hquit⟩
      obtain ⟨hcmem, hcne, hcfirst⟩ := (mem_session_iff (onePerLine_sorted lines)).mp hc
      obtain ⟨l', hl', htext⟩ := mem_onePerLine.mp hcmem
      have hread := hfits.line_read h hl' (open_iff.mpr hcfirst) (htext ▸ hcne)
      exact hfirst _ hread (hclt.trans_le hle) (htext ▸ hcquit)
    rcases hfits.read_line h ha hne hl hle hge hopen with ⟨heq, htext⟩ | ⟨hlt, hquit⟩
    · exact ⟨mem_onePerLine.mpr ⟨l, heq ▸ hl, htext.symm⟩, hne, heq ▸ open_iff.mp hopen⟩
    · exact absurd hquit (hfirst _ (hfits.line_read h hl hopen (isQuit_ne_nil hquit)) hlt)
  · rintro ⟨ha, hne, hfirst⟩
    obtain ⟨l, hl, htext⟩ := mem_onePerLine.mp ha
    have hopen : Open lines a.1 := open_iff.mpr hfirst
    refine ⟨?_, hne, fun b hb hlt hquit => ?_⟩
    · have hread := hfits.line_read h hl hopen (htext ▸ hne)
      rwa [htext] at hread
    · obtain ⟨o, l', hl', hle, hge⟩ := h.cover (fgetsFrom_mem (mem_reads.mp hb).1).2
      have hopen' : Open lines o := fun o' l' hl' hlt' => hopen o' l' hl' (hlt'.trans (hle.trans_lt hlt))
      rcases hfits.read_line h hb (isQuit_ne_nil hquit) hl' hle hge hopen' with ⟨heq, htext'⟩ | ⟨-, hquit'⟩
      · exact hopen o l' hl' (hle.trans_lt hlt) (htext' ▸ hquit)
      · exact hopen o l' hl' (hle.trans_lt hlt) hquit'

end Served

/-- **When each line is one command.** -/
theorem commands_iff_fits (h : Sends segments lines) :
    Returns (fun fuel => handleClient fuel 0 (fdopen segments)) (session (onePerLine lines)) ↔ Fits segments lines := by
  have hreturns := handleClient_returns h
  constructor
  · intro hone offset l hl hopen
    exact h.fitsLine (hreturns.unique hone) hl hopen
  · intro hfits
    rwa [← hfits.session_eq h]

/-! ## A client that waits for the prompt -/

/-- Its lines come one by one. -/
def lineByLine (lines : List (List CChar)) : List (List CChar) := lines.map fun line => line ++ [newline]

theorem flatten_lineByLine (lines : List (List CChar)) : (lineByLine lines).flatten = sent lines := by
  rw [lineByLine, sent, List.flatMap_def]

theorem placed_split {start : Nat} {l : List CChar} (h : (offset, l) ∈ placed start lines) :
    ∃ front rest, lineByLine lines = front ++ (l ++ [newline]) :: rest ∧ start + front.flatten.length = offset := by
  induction lines generalizing start with
  | nil => cases h
  | cons line lines ih =>
    rcases List.mem_cons.mp h with heq | h
    · obtain ⟨rfl, rfl⟩ := Prod.mk.inj heq
      exact ⟨[], lineByLine lines, rfl, rfl⟩
    · obtain ⟨front, rest, hsplit, hoffset⟩ := ih h
      refine ⟨(line ++ [newline]) :: front, rest, congrArg ((line ++ [newline]) :: ·) hsplit, ?_⟩
      rw [List.flatten_cons, List.length_append, List.length_append, List.length_singleton]
      omega

/-- Short lines that come one by one are all served. -/
theorem fits_lineByLine (hshort : ∀ line ∈ lines, line.length ≤ chunkSize) : Fits (lineByLine lines) lines := by
  intro offset l hl _
  obtain ⟨-, hmem, -⟩ := placed_mem hl
  obtain ⟨front, rest, hsplit, hoffset⟩ := placed_split hl
  rw [Nat.zero_add] at hoffset
  have hend : ∀ j, endOf (lineByLine lines) (offset + j) = offset + endOf ((l ++ [newline]) :: rest) j := by
    intro j
    rw [hsplit, ← hoffset, endOf_append]
  refine ⟨fun _ => ?_, (List.takeWhile_prefix _).length_le.trans (hshort l hmem), fun _ k hpos hlt => ?_⟩
  · have hstart := hend 0
    rwa [endOf_zero] at hstart
  · have hstart := endOf_segmentAt (endOf_endOf (lineByLine lines) offset) k
    obtain ⟨j, hj⟩ := Nat.exists_eq_add_of_le hpos.le
    rw [hj] at hpos hlt hstart
    rw [hend, endOf_cons _ _ (by omega), List.length_append, List.length_singleton] at hstart
    omega

theorem commands_iff_fits_two :
    Returns (fun fuel => handleClient fuel 0 (fdopen (lineByLine [ascii "park ABC-123 9", ascii "show"])))
      [(0, ascii "park ABC-123 9"), (15, ascii "show")] := by
  have hsends : Sends (lineByLine [ascii "park ABC-123 9", ascii "show"]) [ascii "park ABC-123 9", ascii "show"] :=
    ⟨flatten_lineByLine _, by decide +kernel, by decide +kernel⟩
  have hsession : session (onePerLine [ascii "park ABC-123 9", ascii "show"]) =
      [(0, ascii "park ABC-123 9"), (15, ascii "show")] := by decide +kernel
  rw [← hsession]
  exact (commands_iff_fits hsends).mpr (fits_lineByLine (by decide +kernel))

theorem handleClient_stable (offset : Nat) (stream : Stream) : Stable fun fuel => handleClient fuel offset stream := by
  intro n commands h
  induction n generalizing offset stream commands with
  | zero => cases h
  | succ n ih =>
    unfold handleClient at h ⊢
    dsimp only at h ⊢
    split_ifs at h ⊢
    · exact h
    · exact ih _ _ _ h
    · exact h
    · obtain ⟨rest, hrest, heq⟩ := Option.map_eq_some_iff.mp h
      exact Option.map_eq_some_iff.mpr ⟨rest, ih _ _ _ hrest, heq⟩

/-- Both lines come with one `read`, and the second one is lost. -/
theorem second_line_lost :
    Returns (fun fuel => handleClient fuel 0 (fdopen [ascii "park ABC-123 9\nshow\n"])) [(0, ascii "park ABC-123 9")] ∧
      ¬ Returns (fun fuel => handleClient fuel 0 (fdopen [ascii "park ABC-123 9\nshow\n"]))
        (session (onePerLine [ascii "park ABC-123 9", ascii "show"])) := by
  have hreturns : Returns (fun fuel => handleClient fuel 0 (fdopen [ascii "park ABC-123 9\nshow\n"]))
      [(0, ascii "park ABC-123 9")] := (handleClient_stable _ _).returns (n := 2) (by decide +kernel)
  refine ⟨hreturns, fun hone => ?_⟩
  have heq := hreturns.unique hone
  revert heq
  decide +kernel

/-- 255 characters, and a command in the next segment: the line is taken for two. -/
example : handleClient 3 0 (fdopen [List.replicate chunkSize 0x61, ascii "quit\n"]) =
    some [(0, List.replicate chunkSize 0x61), (chunkSize, ascii "quit")] := by decide +kernel

end OsCoursework.Parking
