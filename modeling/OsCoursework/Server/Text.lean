import OsCoursework.Lib.BoundedStack
import OsCoursework.Server.Bounds

/-!
# The text of the server

An insert writes no terminator. It need not: behind the text there are only zeros. An undo
copies no more than the saved text and its zero, and what was there is at most one longer.
The buffer of a report holds a text of 71 characters.
-/

open OsCoursework.Cstring

namespace OsCoursework.Server

/-! ## The abstract editor -/

/-- A text, and the texts that undo can bring back. -/
structure Session where
  text : List CChar
  saved : BoundedStack (List CChar) undoLimit

def ok : ServerResponse := ⟨0, ascii "OK"⟩

def error : ServerResponse := ⟨1, ascii "ERROR"⟩

def Session.edit (d : Session) (text : List CChar) : Session := ⟨text, d.saved.push d.text⟩

def Session.exec (d : Session) (request : ClientRequest) : ServerResponse × Session :=
  let i := request.index.toNat
  if request.command = letter 'i' then
    if i ≤ d.text.length then (ok, d.edit (d.text.take i ++ [request.character] ++ d.text.drop i)) else (error, d)
  else if request.command = letter 'd' then
    if i < d.text.length then (ok, d.edit (d.text.take i ++ d.text.drop (i + 1))) else (error, d)
  else if request.command = letter 'u' then
    match d.saved.pop with
    | some (text, saved) => (ok, ⟨text, saved⟩)
    | none => (error, d)
  else if request.command = letter 'r' then (⟨2, reportMessage d.text d.saved.height⟩, d)
  else (ok, d)

def Session.run : Session → List ClientRequest → List ServerResponse × Session
  | d, [] => ([], d)
  | d, request :: requests =>
    let rest := (d.exec request).2.run requests
    ((d.exec request).1 :: rest.1, rest.2)

/-- Inserts come with a character and find room, and deletes are not at the end of the text. -/
def Session.Legal (d : Session) (request : ClientRequest) : Prop :=
  0 ≤ request.index ∧
  (request.command = letter 'i' → request.character ≠ 0 ∧ d.text.length ≠ 75) ∧
  (request.command = letter 'd' → request.index ≠ d.text.length)

def Session.LegalRun : Session → List ClientRequest → Prop
  | _, [] => True
  | d, request :: requests => d.Legal request ∧ (d.exec request).2.LegalRun requests

/-- No report is asked for while the text is longer than 71 characters. -/
def Session.ShortReports : Session → List ClientRequest → Prop
  | _, [] => True
  | d, request :: requests =>
    (request.command = letter 'r' → d.text.length ≤ 71) ∧ (d.exec request).2.ShortReports requests

instance (d : Session) (request : ClientRequest) : Decidable (d.Legal request) :=
  inferInstanceAs (Decidable (_ ∧ (_ → _ ∧ _) ∧ (_ → _)))

instance Session.decidableShortReports (d : Session) (requests : List ClientRequest) :
    Decidable (d.ShortReports requests) :=
  match requests with
  | [] => isTrue trivial
  | request :: requests =>
    have := Session.decidableShortReports (d.exec request).2 requests
    inferInstanceAs (Decidable ((_ → _) ∧ (d.exec request).2.ShortReports requests))

instance Session.decidableLegalRun (d : Session) (requests : List ClientRequest) : Decidable (d.LegalRun requests) :=
  match requests with
  | [] => isTrue trivial
  | request :: requests =>
    have := Session.decidableLegalRun (d.exec request).2 requests
    inferInstanceAs (Decidable (d.Legal request ∧ (d.exec request).2.LegalRun requests))

/-! ## Texts and zeros -/

section Buffers

variable {t : List CChar} {i : Nat}

theorem getElem?_padded (h0 : 0 ∉ t) (hlen : t.length < stringLimit) (i : Nat) :
    (strncpy stringLimit t)[i]?.getD 0 = t[i]?.getD 0 := by
  by_cases hi : i < stringLimit
  · rw [getElem?_strncpy t hi, Option.getD_some, text_eq_self h0]
  · rw [Vector.getElem?_eq_none (by omega), List.getElem?_eq_none (by omega)]

theorem padded_terminated (h0 : 0 ∉ t) (hlen : t.length < stringLimit) :
    Terminated (strncpy stringLimit t) t.length := by
  have hstrlen : strlen t = t.length := by rw [strlen, text_eq_self h0]
  have h : Terminated (strncpy stringLimit t) (strlen t) := strncpy_terminated (by rw [hstrlen]; exact hlen)
  rwa [hstrlen] at h

theorem text_padded (h0 : 0 ∉ t) (hlen : t.length < stringLimit) : text (strncpy stringLimit t).toList = t := by
  rw [text_strncpy, text_eq_self h0, List.take_of_length_le hlen.le]

theorem shiftRight_padded (h0 : 0 ∉ t) (hlen : t.length + 1 < stringLimit) (hi : i ≤ t.length) {a : CChar}
    (ha : a ≠ 0) :
    (shiftRight i t.length (strncpy stringLimit t)).setIfInBounds i a =
      strncpy stringLimit (t.take i ++ [a] ++ t.drop i) := by
  have h0' : 0 ∉ t.take i ++ [a] ++ t.drop i := by
    simp only [List.mem_append, List.mem_singleton, not_or]
    exact ⟨⟨fun h => h0 (List.mem_of_mem_take h), Ne.symm ha⟩, fun h => h0 (List.mem_of_mem_drop h)⟩
  have hlen' : (t.take i ++ [a] ++ t.drop i).length = t.length + 1 := by
    simp only [List.length_append, List.length_take, List.length_drop, List.length_singleton]
    omega
  rw [List.append_assoc, List.singleton_append] at h0' hlen' ⊢
  refine ext_getD fun j _ => ?_
  rw [getElem?_setIfInBounds_getD _ (by omega), getElem?_shiftRight (by omega), getElem?_padded h0 (by omega),
    getElem?_padded h0 (by omega), getElem?_padded h0' (by omega), getD_inserted hi]
  split_ifs
  · rfl
  · rfl
  · omega
  · rw [List.getElem?_eq_none (by omega), List.getElem?_eq_none (by omega)]
  · rfl

theorem shiftLeft_padded (h0 : 0 ∉ t) (hlen : t.length < stringLimit) (hi : i < t.length) :
    shiftLeft i (strncpy stringLimit t) = strncpy stringLimit (t.take i ++ t.drop (i + 1)) := by
  have h0' : 0 ∉ t.take i ++ t.drop (i + 1) := by
    rw [List.mem_append, not_or]
    exact ⟨fun h => h0 (List.mem_of_mem_take h), fun h => h0 (List.mem_of_mem_drop h)⟩
  have hlen' : (t.take i ++ t.drop (i + 1)).length = t.length - 1 := by
    simp only [List.length_append, List.length_take, List.length_drop]
    omega
  refine ext_getD fun j _ => ?_
  rw [getElem?_shiftLeft (by omega), getElem?_padded h0 hlen, getElem?_padded h0 hlen,
    getElem?_padded h0' (by omega), getD_deleted hi.le]
  split_ifs
  · rfl
  · omega
  · rw [List.getElem?_eq_none (by omega), List.getElem?_eq_none (by omega)]
  · rfl

/-- A copy of a saved text leaves only zeros behind it when the old text was at most one longer. -/
theorem strcpy_padded (h0 : 0 ∉ t) (hlen : t.length < stringLimit) {prev : Buffer} (hprev : 0 ∈ prev.toList)
    (hstep : t.length ≤ (text prev.toList).length + 1) :
    strcpy (strncpy stringLimit t) prev = some (strncpy stringLimit (text prev.toList)) := by
  have hterm := (terminated_iff prev _).mpr ⟨hprev, rfl⟩
  obtain ⟨b, hb, hbytes⟩ := strcpy_eq_some hterm (strncpy stringLimit t)
  rw [hb, Option.some.injEq]
  refine ext_getD fun j hj => ?_
  rw [hbytes j hj, getElem?_padded (zero_not_mem_text _) hterm.lt, getElem?_padded h0 hlen, hterm.text_eq,
    List.getElem?_take]
  have hlen' : (text prev.toList).length = strlen prev.toList := rfl
  split_ifs with hle hlt hlt
  · rw [Vector.getElem?_toList]
  · have hj' : j = strlen prev.toList := by omega
    rw [hj', hterm.zero, Option.getD_none]
  · omega
  · rw [List.getElem?_eq_none (by omega), Option.getD_none]

end Buffers

/-! ## The view of the state -/

def slots (s : EditingString) : List (List CChar) := [text s.prev1.toList, text s.prev2.toList, text s.prev3.toList]

/-- The buffers of the state hold the session. -/
structure View (s : EditingString) (d : Session) : Prop where
  short : d.text.length < stringLimit
  nonzero : 0 ∉ d.text
  string : s.string = strncpy stringLimit d.text
  prevs : Saved s
  nonneg : 0 ≤ s.numUndos
  items : d.saved.items = (slots s).take s.numUndos.toNat
  /-- Each text is at most one longer than the one before it. -/
  steps : (d.text :: d.saved.items).IsChain fun a b => a.length ≤ b.length + 1

theorem View.ready {s : EditingString} {d : Session} (h : View s d) :
    ∃ t, ready s = some t ∧ View t d ∧ Ready t ∧ t.numUndos ≤ undoLimit := by
  have hzero : 0 ∈ s.string.toList := by
    rw [h.string]
    exact ((terminated_iff _ _).mp (padded_terminated h.nonzero h.short)).1
  obtain ⟨t, hready, ht, hstring, h1, h2, h3, hcount⟩ := ready_eq h.prevs hzero
  have hslots : slots t = slots s := by rw [slots, slots, h1, h2, h3]
  have hnonneg := h.nonneg
  refine ⟨t, hready, { h with
    string := hstring.trans h.string
    prevs := ht.saved
    nonneg := ?_
    items := ?_ }, ht, ?_⟩
  · rw [hcount]
    split_ifs <;> omega
  · rw [h.items, hslots, hcount]
    split_ifs with hgt
    · have hlimit : undoLimit = 3 := rfl
      rw [List.take_of_length_le, List.take_of_length_le]
      · simp [slots]
      · simp only [slots, List.length_cons, List.length_nil]
        omega
    · rfl
  · rw [hcount]
    split_ifs <;> omega

theorem View.len {s : EditingString} {d : Session} (h : View s d) (hr : Ready s) : s.len = d.text.length := by
  rw [hr.len, h.string, strlen, text_padded h.nonzero h.short]

theorem View.height {s : EditingString} {d : Session} (h : View s d) (hle : s.numUndos ≤ undoLimit) :
    (d.saved.height : Int) = s.numUndos := by
  have hnonneg := h.nonneg
  have hlimit : undoLimit = 3 := rfl
  rw [BoundedStack.height, h.items, List.length_take, slots]
  simp only [List.length_cons, List.length_nil]
  omega

theorem View.edit {s t : EditingString} {d : Session} (h : View s d) (hle : s.numUndos ≤ undoLimit)
    {new : List CChar} (hshort : new.length < stringLimit) (hnonzero : 0 ∉ new)
    (hlong : new.length ≤ d.text.length + 1) (hstring : t.string = strncpy stringLimit new)
    (hpushed : Pushed s t.prev1 t.prev2 t.prev3) (hcount : t.numUndos = s.numUndos + 1) :
    View t (d.edit new) := by
  have hnonneg := h.nonneg
  have htext : text s.string.toList = d.text := by rw [h.string, text_padded h.nonzero h.short]
  have hitems : (d.edit new).saved.items = (slots t).take t.numUndos.toNat := by
    have hcases : s.numUndos = 0 ∨ s.numUndos = 1 ∨ s.numUndos = 2 ∨ s.numUndos = 3 := by
      simp only [undoLimit] at hle
      omega
    show (d.text :: d.saved.items).take undoLimit = _
    rw [h.items, slots, slots, hpushed.text1, hpushed.text2, hpushed.text3, htext, hcount]
    rcases hcases with hn | hn | hn | hn <;> simp [hn, undoLimit]
  refine ⟨hshort, hnonzero, hstring, hpushed.saved, by omega, hitems, ?_⟩
  have hchain : (new :: d.text :: d.saved.items).IsChain fun a b => a.length ≤ b.length + 1 :=
    List.isChain_cons_cons.mpr ⟨hlong, h.steps⟩
  have hcut := hchain.take (undoLimit + 1)
  rwa [List.take_succ_cons] at hcut

theorem View.insert {s : EditingString} {d : Session} (h : View s d) (hr : Ready s) (hle : s.numUndos ≤ undoLimit)
    {index : Int} (h0 : 0 ≤ index) {character : CChar} (hchar : character ≠ 0) (hroom : d.text.length ≠ 75) :
    ∃ t, insert s index character = some ((if index.toNat ≤ d.text.length then 0 else 1), t) ∧
      View t (if index.toNat ≤ d.text.length then
        d.edit (d.text.take index.toNat ++ [character] ++ d.text.drop index.toNat) else d) := by
  have hlen := h.len hr
  have hshort := h.short
  simp only [stringLimit] at hshort
  rcases insert_eq hr h0 character with ⟨hgt, heq⟩ | ⟨hin, prev1, prev2, prev3, heq, hpushed⟩
  · rw [if_neg (by omega), if_neg (by omega)]
    exact ⟨s, heq, h⟩
  · have hi : index.toNat ≤ d.text.length := by omega
    rw [if_pos hi, if_pos hi]
    refine ⟨_, heq, h.edit hle ?_ ?_ ?_ ?_ hpushed rfl⟩
    · simp only [List.length_append, List.length_take, List.length_drop, List.length_singleton, stringLimit]
      omega
    · simp only [List.mem_append, List.mem_singleton, not_or]
      exact ⟨⟨fun hm => h.nonzero (List.mem_of_mem_take hm), Ne.symm hchar⟩,
        fun hm => h.nonzero (List.mem_of_mem_drop hm)⟩
    · simp only [List.length_append, List.length_take, List.length_drop, List.length_singleton]
      omega
    · dsimp only
      rw [hlen, Int.toNat_natCast, h.string]
      exact shiftRight_padded h.nonzero (by simp only [stringLimit]; omega) hi hchar

theorem View.delete {s : EditingString} {d : Session} (h : View s d) (hr : Ready s) (hle : s.numUndos ≤ undoLimit)
    {index : Int} (h0 : 0 ≤ index) (hend : index ≠ d.text.length) :
    ∃ t, delete s index = some ((if index.toNat < d.text.length then 0 else 1), t) ∧
      View t (if index.toNat < d.text.length then
        d.edit (d.text.take index.toNat ++ d.text.drop (index.toNat + 1)) else d) := by
  have hlen := h.len hr
  have hshort := h.short
  simp only [stringLimit] at hshort
  rcases delete_eq hr h0 with ⟨hgt, heq⟩ | ⟨hin, prev1, prev2, prev3, heq, hpushed⟩
  · rw [if_neg (by omega), if_neg (by omega)]
    exact ⟨s, heq, h⟩
  · have hi : index.toNat < d.text.length := by omega
    rw [if_pos hi, if_pos hi]
    refine ⟨_, heq, h.edit hle ?_ ?_ ?_ ?_ hpushed rfl⟩
    · simp only [List.length_append, List.length_take, List.length_drop, stringLimit]
      omega
    · rw [List.mem_append, not_or]
      exact ⟨fun hm => h.nonzero (List.mem_of_mem_take hm), fun hm => h.nonzero (List.mem_of_mem_drop hm)⟩
    · simp only [List.length_append, List.length_take, List.length_drop]
      omega
    · dsimp only
      rw [h.string]
      exact shiftLeft_padded h.nonzero h.short hi

theorem View.undo {s : EditingString} {d : Session} (h : View s d) (hr : Ready s) (hle : s.numUndos ≤ undoLimit) :
    (d.saved.pop = none ∧ undo s = some (1, s)) ∨
    ∃ new saved t, d.saved.pop = some (new, saved) ∧ undo s = some (0, t) ∧ View t ⟨new, saved⟩ := by
  have hheight := h.height hle
  rcases undo_eq hr with ⟨hnone, heq⟩ | ⟨hpos, string, prev1, prev2, heq, hcopy, -, hprevs, h1, h2⟩
  · left
    have hnonneg := h.nonneg
    exact ⟨(BoundedStack.pop_eq_none_iff _).mpr (by omega), heq⟩
  · right
    cases hpop : d.saved.pop with
    | none =>
      have hzero := (BoundedStack.pop_eq_none_iff _).mp hpop
      omega
    | some top =>
      obtain ⟨new, saved⟩ := top
      have hitems := BoundedStack.pop_eq_some_iff.mp hpop
      have hslots := h.items
      have hsteps := h.steps
      rw [hitems] at hslots hsteps
      obtain ⟨k, hk⟩ : ∃ k, s.numUndos.toNat = k + 1 := ⟨s.numUndos.toNat - 1, by omega⟩
      rw [hk, slots, List.take_succ_cons, List.cons.injEq] at hslots
      obtain ⟨rfl, hrest⟩ := hslots
      obtain ⟨hstep, hsteps⟩ := List.isChain_cons_cons.mp hsteps
      rw [h.string, strcpy_padded h.nonzero h.short hr.saved.1 hstep, Option.some.injEq] at hcopy
      refine ⟨_, _, _, rfl, heq, ?_, zero_not_mem_text _, hcopy.symm, hprevs, ?_, ?_, hsteps⟩
      · exact ((terminated_iff s.prev1 _).mpr ⟨hr.saved.1, rfl⟩).lt
      · dsimp only
        omega
      · have hk' : (s.numUndos - 1).toNat = k := by omega
        simp only [slots]
        rw [hk', h1, h2, hrest]
        have hcases : k = 0 ∨ k = 1 ∨ k = 2 := by
          simp only [undoLimit] at hle
          omega
        rcases hcases with rfl | rfl | rfl <;> rfl

theorem respond_status {s : EditingString} {p : Prop} [Decidable p] :
    respond s (if p then 0 else 1) = some (if p then ok else error) := by
  split_ifs <;> rfl

theorem length_count {n : Int} (h0 : 0 ≤ n) (h3 : n ≤ undoLimit) :
    (ascii (" [" ++ toString n ++ "]")).length = 4 := by
  have hcases : n = 0 ∨ n = 1 ∨ n = 2 ∨ n = 3 := by
    simp only [undoLimit] at h3
    omega
  rcases hcases with rfl | rfl | rfl | rfl <;> decide

theorem take_report {t : List CChar} {n : Int} (h0 : 0 ≤ n) (h3 : n ≤ undoLimit) :
    (t ++ ascii (" [" ++ toString n ++ "]")).take (t.length + 4) = t ++ ascii (" [" ++ toString n ++ "]") := by
  apply List.take_of_length_le
  rw [List.length_append, length_count h0 h3]

theorem tempFilled_le_iff {t : List CChar} {n : Int} (h0 : 0 ≤ n) (h3 : n ≤ undoLimit) :
    tempFilled t n ≤ stringLimit ↔ t.length ≤ 71 := by
  have hcount := length_count h0 h3
  unfold tempFilled
  rw [take_report h0 h3, List.length_append, hcount]
  simp only [stringLimit]
  omega

/-- A report that does not fit runs over `temp`. -/
theorem respond_report {s : EditingString} (h : 0 ∈ s.string.toList) (h0 : 0 ≤ s.numUndos)
    (h3 : s.numUndos ≤ undoLimit) :
    respond s 2 = if strlen s.string.toList ≤ 71 then
      some ⟨2, reportMessage (text s.string.toList) s.numUndos⟩ else none := by
  have hfits : tempFilled (text s.string.toList) s.numUndos ≤ stringLimit ↔ strlen s.string.toList ≤ 71 :=
    tempFilled_le_iff h0 h3
  unfold respond
  simp only [h, hfits, true_and]

/-- **One turn of the loop is one step of the abstract editor.** -/
theorem View.turn {s : EditingString} {d : Session} (h : View s d) {request : ClientRequest} (hl : d.Legal request)
    (hshort : request.command = letter 'r' → d.text.length ≤ 71) :
    ∃ t, turn s request = some ((d.exec request).1, t) ∧ View t (d.exec request).2 := by
  obtain ⟨u, hready, hu, hr, hle⟩ := h.ready
  obtain ⟨h0, hinsert, hdelete⟩ := hl
  unfold Server.turn answer dispatch Session.exec
  rw [hready, Option.bind_some]
  dsimp only
  by_cases hi : request.command = letter 'i'
  · obtain ⟨t, heq, ht⟩ := hu.insert hr hle h0 (hinsert hi).1 (hinsert hi).2
    refine ⟨t, ?_, ?_⟩
    · rw [if_pos hi, if_pos hi, heq, Option.bind_some, respond_status, Option.map_some]
      split_ifs <;> rfl
    · rw [if_pos hi]
      split_ifs at ht ⊢ <;> exact ht
  · rw [if_neg hi, if_neg hi]
    by_cases hd : request.command = letter 'd'
    · obtain ⟨t, heq, ht⟩ := hu.delete hr hle h0 (hdelete hd)
      refine ⟨t, ?_, ?_⟩
      · rw [if_pos hd, if_pos hd, heq, Option.bind_some, respond_status, Option.map_some]
        split_ifs <;> rfl
      · rw [if_pos hd]
        split_ifs at ht ⊢ <;> exact ht
    · rw [if_neg hd, if_neg hd]
      by_cases hund : request.command = letter 'u'
      · rw [if_pos hund, if_pos hund]
        rcases hu.undo hr hle with ⟨hpop, heq⟩ | ⟨new, saved, t, hpop, heq, ht⟩
        · rw [heq, hpop]
          exact ⟨u, rfl, hu⟩
        · rw [heq, hpop]
          exact ⟨t, rfl, ht⟩
      · rw [if_neg hund, if_neg hund]
        by_cases hrep : request.command = letter 'r'
        · rw [if_pos hrep, if_pos hrep, hu.height hle]
          refine ⟨u, ?_, hu⟩
          have htext : text u.string.toList = d.text := by rw [hu.string, text_padded hu.nonzero hu.short]
          have hfits : strlen u.string.toList ≤ 71 := by
            rw [strlen, htext]
            exact hshort hrep
          rw [Option.bind_some, respond_report hr.zero hu.nonneg hle, if_pos hfits, htext, Option.map_some]
        · rw [if_neg hrep, if_neg hrep]
          exact ⟨u, rfl, hu⟩

theorem View.long_report {s : EditingString} {d : Session} (h : View s d) {request : ClientRequest}
    (hr : request.command = letter 'r') (hlong : ¬ d.text.length ≤ 71) : Server.turn s request = none := by
  obtain ⟨u, hready, hu, hu', hle⟩ := h.ready
  have hne := letters_ne
  have hoverrun : ¬ strlen u.string.toList ≤ 71 := by
    rwa [strlen, hu.string, text_padded hu.nonzero hu.short]
  unfold Server.turn answer dispatch
  rw [hready, Option.bind_some, if_neg (hr ▸ hne.2.2.2.1), if_neg (hr ▸ hne.2.2.2.2.1), if_neg (hr ▸ hne.2.2.2.2.2),
    if_pos hr, Option.bind_some, respond_report hu'.zero hu.nonneg hle, if_neg hoverrun, Option.map_none]

/-! ## Runs -/

theorem View.serve {s : EditingString} {d : Session} (h : View s d) {requests : List ClientRequest}
    (hl : d.LegalRun requests) (hshort : d.ShortReports requests) :
    ∃ t, serve s requests = some ((d.run requests).1, t) ∧ View t (d.run requests).2 := by
  induction requests generalizing s d with
  | nil => exact ⟨s, rfl, h⟩
  | cons request requests ih =>
    obtain ⟨t, hturn, ht⟩ := h.turn hl.1 hshort.1
    obtain ⟨u, hserve, hu⟩ := ih ht hl.2 hshort.2
    refine ⟨u, ?_, hu⟩
    rw [serve_cons hturn, hserve, Option.map_some]
    rfl

theorem View.serve_none {s : EditingString} {d : Session} (h : View s d) {requests : List ClientRequest}
    (hl : d.LegalRun requests) (hlong : ¬ d.ShortReports requests) : Server.serve s requests = none := by
  induction requests generalizing s d with
  | nil => exact absurd trivial hlong
  | cons request requests ih =>
    by_cases hshort : request.command = letter 'r' → d.text.length ≤ 71
    · obtain ⟨t, hturn, ht⟩ := h.turn hl.1 hshort
      rw [serve_cons hturn, ih ht hl.2 fun hrest => hlong ⟨hshort, hrest⟩, Option.map_none]
    · obtain ⟨hr, hlong⟩ := Classical.not_imp.mp hshort
      rw [Server.serve, h.long_report hr hlong, Option.bind_none]

theorem view_start {argStr s : EditingString} {argv1 : List CChar} (hprevs : Saved argStr)
    (hargv1 : strlen argv1 ≤ 75) (hs : start argStr argv1 = some s) : View s ⟨text argv1, .empty⟩ := by
  obtain ⟨hstring, -, -, -, hcount⟩ := start_eq hs
  have hshort : strlen argv1 < stringLimit := by
    simp only [stringLimit]
    omega
  have htext : strncpy stringLimit (text argv1) = strncpy stringLimit argv1 := by
    unfold strncpy
    rw [text_text]
  refine ⟨hshort, zero_not_mem_text argv1, ?_, start_saved hs hprevs, by omega, ?_, ?_⟩
  · rw [hstring, htext, initialString, strncpy_set_last hshort]
  · rw [hcount]
    rfl
  · exact List.isChain_singleton _

/-- **When the server edits text.** From any text of at most 75 bytes and through any legal requests the responses
and the text are those of the abstract editor, exactly while no text of more than 71 bytes is reported. -/
theorem server_edits_text {argStr s : EditingString} {argv1 : List CChar} (hprevs : Saved argStr)
    (hargv1 : strlen argv1 ≤ 75) (hs : start argStr argv1 = some s) {requests : List ClientRequest}
    (hl : Session.LegalRun ⟨text argv1, .empty⟩ requests) :
    (∃ t, serve s requests = some ((Session.run ⟨text argv1, .empty⟩ requests).1, t) ∧
      text t.string.toList = (Session.run ⟨text argv1, .empty⟩ requests).2.text) ↔
      Session.ShortReports ⟨text argv1, .empty⟩ requests := by
  have hview := view_start hprevs hargv1 hs
  constructor
  · rintro ⟨t, hserve, -⟩
    by_contra hlong
    rw [hview.serve_none hl hlong] at hserve
    cases hserve
  · intro hshort
    obtain ⟨t, hserve, ht⟩ := hview.serve hl hshort
    exact ⟨t, hserve, by rw [ht.string, text_padded ht.nonzero ht.short]⟩

theorem server_edits_text_abc : ∃ s, start blank (ascii "ac") = some s ∧
    ∃ t, serve s [⟨letter 'i', 1, letter 'b'⟩, ⟨letter 'd', 0, 1⟩, ⟨letter 'u', 0, 0⟩, ⟨letter 'r', 0, 0⟩] =
        some ([ok, ok, ok, ⟨2, ascii "abc [1]"⟩], t) ∧
      text t.string.toList = ascii "abc" := by
  have hs := start_blank (ascii "ac") (by decide +kernel)
  have hl : Session.LegalRun ⟨text (ascii "ac"), .empty⟩
      [⟨letter 'i', 1, letter 'b'⟩, ⟨letter 'd', 0, 1⟩, ⟨letter 'u', 0, 0⟩, ⟨letter 'r', 0, 0⟩] := by decide +kernel
  have hshort : Session.ShortReports ⟨text (ascii "ac"), .empty⟩
      [⟨letter 'i', 1, letter 'b'⟩, ⟨letter 'd', 0, 1⟩, ⟨letter 'u', 0, 0⟩, ⟨letter 'r', 0, 0⟩] := by decide +kernel
  exact ⟨_, hs, (server_edits_text saved_blank (by decide) hs hl).mpr hshort⟩

/-- The report of 72 characters fills 77 bytes. -/
theorem long_report_overruns : ∃ s, start blank (List.replicate 72 (letter 'a')) = some s ∧
    Session.LegalRun ⟨List.replicate 72 (letter 'a'), .empty⟩ [⟨letter 'r', 0, 0⟩] ∧
    tempFilled (List.replicate 72 (letter 'a')) 0 = 77 ∧ serve s [⟨letter 'r', 0, 0⟩] = none := by
  refine ⟨_, start_blank _ (by decide +kernel), by decide +kernel, by decide +kernel, ?_⟩
  exact Option.isNone_iff_eq_none.mp (by decide +kernel)

end OsCoursework.Server
