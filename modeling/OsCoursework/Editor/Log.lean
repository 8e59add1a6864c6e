import OsCoursework.Editor.Undo

/-!
# The editor with a log

`edit2.c` and `reset2.c`. The state keeps the last edits instead of old texts, and
undo does the opposite of an edit. The count of edits stops at three, and from then on
every edit is stored in the first place of the log, where undo does not look first.
-/

open OsCoursework.Cstring OsCoursework.Transition

namespace OsCoursework.Editor.Log

/-! ## The code -/

inductive CommandType where
  | insert
  | delete
  | none

structure UndoRecord where
  type : CommandType
  index : Nat
  character : CChar

structure EditState where
  string : Buffer
  history : Vector UndoRecord undoLimit
  undoCount : Nat

theorem mod_undoLimit_lt (count : Nat) : count % undoLimit < undoLimit := Nat.mod_lt count (by decide)

/-- The index `count % UNDO_LIMIT`. -/
def slotOf (count : Nat) : Fin undoLimit := ⟨count % undoLimit, mod_undoLimit_lt count⟩

theorem slotOf_val (count : Nat) : (slotOf count).val = count % undoLimit := rfl

/-- The place for the next edit. -/
def EditState.slot (state : EditState) : Fin undoLimit := slotOf state.undoCount

/-- What `insert` and `delete` share. -/
def EditState.store (state : EditState) (string : Buffer) (last : UndoRecord) : EditState where
  string := string
  history := state.history.set state.slot last
  undoCount := if state.undoCount < undoLimit then state.undoCount + 1 else state.undoCount

def insert (state : EditState) (idx : Int) (c : CChar) : Bool × EditState :=
  let len := strlen state.string.toList
  if idx < 0 ∨ idx > len ∨ len ≥ stringLimit - 1 then (false, state)
  else
    let i := idx.toNat
    let moved := memmove state.string (i + 1) i (len - i + 1)
    (true, state.store (moved.setIfInBounds i c) ⟨.insert, i, c⟩)

def delete (state : EditState) (idx : Int) : Bool × EditState :=
  let len := strlen state.string.toList
  if idx < 0 ∨ idx ≥ len then (false, state)
  else
    let i := idx.toNat
    let removed := state.string[i]?.getD 0
    (true, state.store (memmove state.string i (i + 1) (len - i)) ⟨.delete, i, removed⟩)

/-- The opposite of an edit. `none` is a move of bytes that are not in the buffer. -/
def revert (string : Buffer) (last : UndoRecord) : Option Buffer :=
  let len := strlen string.toList
  let i := last.index
  match last.type with
  | .insert => if i ≤ len then some (memmove string i (i + 1) (len - i)) else none
  | .delete =>
    if i ≤ len + 1 ∧ len + 1 < stringLimit then
      some ((memmove string (i + 1) i (len + 1 - i)).setIfInBounds i last.character)
    else none
  | .none => some string

def undo (state : EditState) : Option (Bool × EditState) :=
  if state.undoCount = 0 then some (false, state)
  else
    let undoCount := state.undoCount - 1
    let last := state.history[slotOf undoCount]
    (revert state.string last).map fun string => (true, { state with string := string, undoCount := undoCount })

/-- `reset2.c`, on a segment with any contents. `none` is "Initial string too long". -/
def reset (segment : EditState) (initialString : List CChar) : Option EditState :=
  if strlen initialString ≥ stringLimit then none
  else
    some { segment with
      string := (strncpy stringLimit initialString).setIfInBounds (stringLimit - 1) 0
      undoCount := 0 }

def exec (state : EditState) : Command → Option (Bool × EditState)
  | .insert idx c => some (insert state idx c)
  | .delete idx => some (delete state idx)
  | .undo => undo state

/-! ## Runs -/

/-- The state, and the edits that were not undone, with the texts before them, the newest first. The code
has no such list. -/
structure Session where
  state : EditState
  pending : List (UndoRecord × List CChar)

def Session.next (r : Session) (state : EditState) : Command × Bool → List (UndoRecord × List CChar)
  | (_, false) => r.pending
  | (.undo, true) => r.pending.tail
  | (_, true) =>
    (state.history[r.state.slot], bufferText r.state.string) :: r.pending

def editor : System Session (Command × Bool) where
  init r := (∃ segment initialString, reset segment initialString = some r.state) ∧ r.pending = []
  step r e r' := exec r.state e.1 = some (e.2, r'.state) ∧ r'.pending = r.next r'.state e

/-- The edit did not cut the text: a NUL was inserted at the end only. -/
def Restorable (edit : UndoRecord × List CChar) : Prop :=
  match edit.1.type with
  | .insert => edit.1.character = 0 → edit.1.index = edit.2.length
  | _ => True

/-- The log has room for all edits that were not undone, and the newest of them did not cut the text. -/
def Undoable (r : Session) : Command × Bool → Prop
  | (.undo, true) => r.pending.length ≤ undoLimit ∧ ∀ last ∈ r.pending.head?, Restorable last
  | _ => True

/-! ## An edit and its opposite -/

/-- What an edit makes of a text. -/
inductive Edited : UndoRecord → List CChar → List CChar → Prop
  | insert {i : Nat} {t : List CChar} (c : CChar) (hi : i ≤ t.length) (ht : t.length + 1 < stringLimit) :
    Edited ⟨.insert, i, c⟩ t (text (t.take i ++ c :: t.drop i))
  | delete {i : Nat} {t : List CChar} (hi : i < t.length) (ht : t.length < stringLimit) :
    Edited ⟨.delete, i, t[i]⟩ t (t.take i ++ t.drop (i + 1))

theorem text_inserted {t : List CChar} (h0 : 0 ∉ t) {c : CChar} (hc : c ≠ 0) (i : Nat) :
    text (t.take i ++ c :: t.drop i) = t.take i ++ c :: t.drop i := by
  apply text_eq_self
  simp only [List.mem_append, List.mem_cons, not_or]
  exact ⟨fun h => h0 (List.mem_of_mem_take h), Ne.symm hc, fun h => h0 (List.mem_of_mem_drop h)⟩

theorem delete_inserted {t : List CChar} {i : Nat} (hi : i ≤ t.length) (c : CChar) :
    (t.take i ++ c :: t.drop i).take i ++ (t.take i ++ c :: t.drop i).drop (i + 1) = t := by
  have htake : (t.take i).length = i := List.length_take_of_le hi
  rw [List.take_left' htake, ← List.drop_drop, List.drop_left' htake, List.drop_succ_cons, List.drop_zero,
    List.take_append_drop]

theorem insert_deleted {t : List CChar} {i : Nat} (hi : i < t.length) :
    (t.take i ++ t.drop (i + 1)).take i ++ t[i] :: (t.take i ++ t.drop (i + 1)).drop i = t := by
  have htake : (t.take i).length = i := List.length_take_of_le hi.le
  rw [List.take_left' htake, List.drop_left' htake, List.getElem_cons_drop, List.take_append_drop]

/-- The buffer holds the text. -/
def Holds (string : Buffer) (t : List CChar) : Prop := Terminated string t.length ∧ bufferText string = t

variable {string : Buffer} {t : List CChar}

theorem Holds.strlen_eq (h : Holds string t) : strlen string.toList = t.length := congrArg List.length h.2

theorem Holds.nonzero (h : Holds string t) : 0 ∉ t := h.2 ▸ zero_not_mem_text _

theorem Holds.lt (h : Holds string t) : t.length < stringLimit := h.1.lt

theorem holds_bufferText {k : Nat} (h : Terminated string k) : Holds string (bufferText string) :=
  ⟨by rwa [bufferText, h.length_text], rfl⟩

theorem Holds.insert (h : Holds string t) {i : Nat} (hi : i ≤ t.length) (ht : t.length + 1 < stringLimit) (c : CChar) :
    Holds ((memmove string (i + 1) i (t.length - i + 1)).setIfInBounds i c) (text (t.take i ++ c :: t.drop i)) := by
  by_cases hc : c = 0
  · -- The text is cut here.
    subst hc
    have hcut : text (t.take i ++ 0 :: t.drop i) = t.take i :=
      text_append (fun h0 => h.nonzero (List.mem_of_mem_take h0)) (text_cons_zero _)
    have hlen : (t.take i).length = i := List.length_take_of_le hi
    have hterm : Terminated ((memmove string (i + 1) i (t.length - i + 1)).setIfInBounds i 0) i := by
      refine ⟨by omega, ?_, fun j hj => ?_⟩
      · rw [getElem?_inserted string hi ht 0 (by omega), if_pos rfl]
      · rw [getElem?_inserted string hi ht 0 (by omega), if_neg (by omega), if_neg (by omega)]
        exact h.1.before j (by omega)
    rw [hcut, Holds, hlen]
    refine ⟨hterm, hterm.text_of_getD hlen fun j hj => ?_⟩
    rw [getElem?_inserted string hi ht 0 (by omega), if_neg (by omega), if_neg (by omega), ← h.1.getD_text (by omega),
      ← bufferText, h.2, List.getElem?_take_of_lt hj]
  · have hall := text_inserted h.nonzero hc i
    have htext := h.1.text_insert hi ht hc
    rw [← bufferText, ← bufferText, h.2] at htext
    have hterm := holds_bufferText (h.1.insert hi ht hc)
    rwa [htext, ← hall] at hterm

theorem Holds.delete (h : Holds string t) {i : Nat} (hi : i < t.length) :
    Holds (memmove string i (i + 1) (t.length - i)) (t.take i ++ t.drop (i + 1)) := by
  obtain ⟨k, hk⟩ : ∃ k, t.length = k + 1 := ⟨t.length - 1, by omega⟩
  have hstring : Terminated string (k + 1) := hk ▸ h.1
  have htext := hstring.text_delete (Nat.lt_succ_iff.mp (hk ▸ hi))
  rw [← bufferText, ← bufferText, h.2] at htext
  have hterm := holds_bufferText (hstring.delete (Nat.lt_succ_iff.mp (hk ▸ hi)))
  rwa [htext, ← hk] at hterm

theorem revert_edited {last : UndoRecord} {before after : List CChar} (hedit : Edited last before after)
    (h : Holds string after) (h0 : 0 ∉ before) (hrest : Restorable (last, before)) :
    ∃ b, revert string last = some b ∧ Holds b before := by
  have hlen := h.strlen_eq
  cases hedit with
  | @insert i _ c hi ht =>
    by_cases hc : c = 0
    · subst hc
      have hend : i = before.length := hrest rfl
      have hafter : text (before.take i ++ 0 :: before.drop i) = before := by
        rw [hend, List.take_length]
        exact text_append h0 (text_cons_zero _)
      rw [hafter] at h hlen
      refine ⟨string, ?_, h⟩
      simp only [revert, hlen, hend, le_refl, if_true, Nat.sub_self, memmove_zero]
    · rw [text_inserted h0 hc] at h hlen
      have hlt : i < (before.take i ++ c :: before.drop i).length := by
        simp only [List.length_append, List.length_cons, List.length_take, List.length_drop]
        omega
      have hback := h.delete hlt
      rw [delete_inserted hi] at hback
      refine ⟨_, ?_, hback⟩
      simp only [revert, hlen, hlt.le, if_true]
  | @delete i _ hi ht =>
    have hcount : (before.take i ++ before.drop (i + 1)).length + 1 = before.length := by
      simp only [List.length_append, List.length_take, List.length_drop]
      omega
    have hback := h.insert (i := i) (by omega) (by omega) before[i]
    rw [insert_deleted hi, text_eq_self h0] at hback
    have hroom : i ≤ (before.take i ++ before.drop (i + 1)).length + 1 ∧
        (before.take i ++ before.drop (i + 1)).length + 1 < stringLimit := by omega
    have hsub : (before.take i ++ before.drop (i + 1)).length + 1 - i =
        (before.take i ++ before.drop (i + 1)).length - i + 1 := by omega
    refine ⟨_, ?_, hback⟩
    simp only [revert, hlen, hroom, and_self, if_true, hsub]

/-! ## The log -/

/-- The edits are in the log, each in the place after those before it. -/
def Logged (history : Vector UndoRecord undoLimit) : List CChar → List (UndoRecord × List CChar) → Prop
  | _, [] => True
  | t, (last, before) :: rest =>
    history[slotOf rest.length] = last ∧ Edited last before t ∧ 0 ∉ before ∧
      Logged history before rest

theorem Logged.set {history : Vector UndoRecord undoLimit} {pending : List (UndoRecord × List CChar)}
    (h : Logged history t pending) {j : Nat} (hj : j < undoLimit) (hlen : pending.length ≤ j) (last : UndoRecord) :
    Logged (history.set j last hj) t pending := by
  induction pending generalizing t with
  | nil => trivial
  | cons edit rest ih =>
    obtain ⟨hslot, hedit, h0, hrest⟩ := h
    rw [List.length_cons] at hlen
    have hne : j ≠ slotOf rest.length := by
      rw [slotOf_val, Nat.mod_eq_of_lt (by omega)]
      omega
    refine ⟨?_, hedit, h0, ih hrest (by omega)⟩
    exact (Vector.getElem_set_ne _ _ hne).trans hslot

structure Inv (r : Session) : Prop where
  holds : Holds r.state.string (bufferText r.state.string)
  count : r.state.undoCount = min undoLimit r.pending.length
  logged : r.pending.length ≤ undoLimit → Logged r.state.history (bufferText r.state.string) r.pending

/-! ## Each command -/

variable {s s' : EditState} {r r' : Session} {c : Command} {ok : Bool}

theorem insert_spec (h : Holds s.string t) (idx : Int) (ch : CChar) : insert s idx ch = (false, s) ∨
    ∃ b last t', insert s idx ch = (true, s.store b last) ∧ Edited last t t' ∧ Holds b t' := by
  unfold insert
  simp only [h.strlen_eq]
  by_cases hbad : idx < 0 ∨ idx > t.length ∨ t.length ≥ stringLimit - 1
  · exact .inl (if_pos hbad)
  · have hi : idx.toNat ≤ t.length := by omega
    have ht : t.length + 1 < stringLimit := by omega
    exact .inr ⟨_, _, _, if_neg hbad, .insert ch hi ht, h.insert hi ht ch⟩

theorem delete_spec (h : Holds s.string t) (idx : Int) : delete s idx = (false, s) ∨
    ∃ b last t', delete s idx = (true, s.store b last) ∧ Edited last t t' ∧ Holds b t' := by
  unfold delete
  simp only [h.strlen_eq]
  by_cases hbad : idx < 0 ∨ idx ≥ t.length
  · exact .inl (if_pos hbad)
  · have hi : idx.toNat < t.length := by omega
    have hremoved : s.string[idx.toNat]?.getD 0 = t[idx.toNat] := by
      rw [← h.1.getD_text hi, ← bufferText, h.2, List.getElem?_eq_getElem hi, Option.getD_some]
    rw [hremoved]
    exact .inr ⟨_, _, _, if_neg hbad, .delete hi h.lt, h.delete hi⟩

theorem edit_spec (h : Holds s.string t) (hc : c ≠ .undo) (he : exec s c = some (ok, s')) :
    (ok = false ∧ s' = s) ∨ ok = true ∧ ∃ b last t', s' = s.store b last ∧ Edited last t t' ∧ Holds b t' := by
  cases c with
  | insert idx ch =>
    rcases insert_spec h idx ch with hi | ⟨b, last, t', hi, hedit⟩
    · rw [exec, hi] at he
      cases he
      exact .inl ⟨rfl, rfl⟩
    · rw [exec, hi] at he
      cases he
      exact .inr ⟨rfl, b, last, t', rfl, hedit⟩
  | delete idx =>
    rcases delete_spec h idx with hi | ⟨b, last, t', hi, hedit⟩
    · rw [exec, hi] at he
      cases he
      exact .inl ⟨rfl, rfl⟩
    · rw [exec, hi] at he
      cases he
      exact .inr ⟨rfl, b, last, t', rfl, hedit⟩
  | undo => exact absurd rfl hc

theorem next_edit (r : Session) (state : EditState) (hc : c ≠ .undo) : r.next state (c, true) =
    (state.history[r.state.slot], bufferText r.state.string) :: r.pending := by
  cases c with
  | insert idx ch => rfl
  | delete idx => rfl
  | undo => exact absurd rfl hc

theorem edit_inv (h : Inv r) (hc : c ≠ .undo) (hs : editor.step r (c, ok) r') : Inv r' := by
  obtain ⟨he, hp⟩ := hs
  have hlimit : undoLimit = 3 := rfl
  rcases edit_spec h.holds hc he with ⟨rfl, hsame⟩ | ⟨rfl, b, last, t', hstore, hedit, hholds⟩
  · obtain ⟨state', pending'⟩ := r'
    obtain rfl : state' = r.state := hsame
    obtain rfl : pending' = r.pending := hp
    exact ⟨h.holds, h.count, h.logged⟩
  · have hstring : r'.state.string = b := congrArg EditState.string hstore
    have hhistory : r'.state.history = r.state.history.set r.state.slot last :=
      congrArg EditState.history hstore
    have hcount : r'.state.undoCount = if r.state.undoCount < undoLimit then r.state.undoCount + 1
        else r.state.undoCount := congrArg EditState.undoCount hstore
    have hnew : r'.state.history[r.state.slot] = last := by
      simp only [hhistory]
      exact Vector.getElem_set_self _
    have hold := h.count
    rw [next_edit r _ hc, hnew] at hp
    refine ⟨?_, ?_, fun hlen => ?_⟩
    · rw [hstring, hholds.2]
      exact hholds
    · rw [hcount, hp, List.length_cons]
      split_ifs <;> omega
    · rw [hp, List.length_cons] at hlen
      have hslot : r.state.slot = slotOf r.pending.length := by
        rw [EditState.slot, hold, min_eq_right (by omega)]
      have hplace : r.pending.length ≤ r.state.slot := by rw [hslot, slotOf_val, Nat.mod_eq_of_lt (by omega)]
      rw [hp, hstring, hholds.2]
      refine ⟨?_, hedit, h.holds.nonzero, ?_⟩
      · simp only [← hslot]
        exact hnew
      · rw [hhistory]
        exact (h.logged (by omega)).set _ hplace last

theorem undo_edited (h : Inv r) {last : UndoRecord} {before : List CChar} {rest : List (UndoRecord × List CChar)}
    (hp : r.pending = (last, before) :: rest) (hlen : r.pending.length ≤ undoLimit) (hrest : Restorable (last, before)) :
    ∃ b, undo r.state = some (true, { r.state with string := b, undoCount := rest.length }) ∧ Holds b before ∧
      Logged r.state.history before rest := by
  have hlogged := h.logged hlen
  have hcount := h.count
  rw [hp, List.length_cons] at hlen hcount
  rw [hp] at hlogged
  obtain ⟨hslot, hedit, h0, hlater⟩ := hlogged
  obtain ⟨b, hrevert, hb⟩ := revert_edited hedit h.holds h0 hrest
  have hpred : r.state.undoCount - 1 = rest.length := by omega
  refine ⟨b, ?_, hb, hlater⟩
  rw [undo, if_neg (by omega)]
  simp only [hpred, hslot, hrevert, Option.map_some]

theorem undo_fails (h : undo s = some (false, s')) : s' = s := by
  rw [undo] at h
  split_ifs at h
  · exact (Prod.mk.inj (Option.some.inj h)).2.symm
  · obtain ⟨b, -, hb⟩ := Option.map_eq_some_iff.mp h
    cases hb

theorem undo_step (h : Inv r) (hgood : Undoable r (.undo, true)) (hs : editor.step r (.undo, true) r') :
    ∃ last before, r.pending = (last, before) :: r'.pending ∧ r'.pending.length ≤ undoLimit ∧
      Holds r'.state.string before ∧ r'.state.undoCount = r'.pending.length ∧
      Logged r'.state.history before r'.pending := by
  obtain ⟨he, hp⟩ := hs
  obtain ⟨hlen, hrestorable⟩ := hgood
  cases hpending : r.pending with
  | nil =>
    have hzero : r.state.undoCount = 0 := by rw [h.count, hpending, List.length_nil, Nat.min_zero]
    rw [exec, undo, if_pos hzero] at he
    cases he
  | cons edit rest =>
    obtain ⟨last, before⟩ := edit
    obtain ⟨b, hundo, hb, hlogged⟩ := undo_edited h hpending hlen (hrestorable _ (by rw [hpending]; rfl))
    have hstate : { r.state with string := b, undoCount := rest.length } = r'.state :=
      (Prod.mk.inj (Option.some.inj (hundo.symm.trans he))).2
    have hrest : r'.pending = rest := hp.trans (congrArg List.tail hpending)
    rw [hpending, List.length_cons] at hlen
    rw [hrest, ← hstate]
    exact ⟨last, before, rfl, by omega, hb, rfl, hlogged⟩

theorem undo_inv (h : Inv r) (hgood : Undoable r (.undo, ok)) (hs : editor.step r (.undo, ok) r') : Inv r' := by
  cases ok with
  | false =>
    obtain ⟨state', pending'⟩ := r'
    obtain rfl : state' = r.state := undo_fails hs.1
    obtain rfl : pending' = r.pending := hs.2
    exact ⟨h.holds, h.count, h.logged⟩
  | true =>
    obtain ⟨last, before, -, hlen, hb, hcount, hlogged⟩ := undo_step h hgood hs
    refine ⟨hb.2.symm ▸ hb, ?_, fun _ => hb.2.symm ▸ hlogged⟩
    rw [hcount, min_eq_right hlen]

/-! ## All runs -/

theorem reset_inv {segment s : EditState} {initialString : List CChar} (h : reset segment initialString = some s) :
    Inv ⟨s, []⟩ := by
  rw [reset, Option.ite_none_left_eq_some] at h
  obtain ⟨hlen, h⟩ := h
  have hlt : strlen initialString < stringLimit := not_le.mp hlen
  rw [strncpy_set_last hlt] at h
  obtain rfl := Option.some.inj h
  exact ⟨holds_bufferText (strncpy_terminated hlt), rfl, fun _ => trivial⟩

theorem step_inv {e : Command × Bool} (h : Inv r) (hgood : Undoable r e) (hs : editor.step r e r') : Inv r' := by
  obtain ⟨c, ok⟩ := e
  by_cases hc : c = .undo
  · subst hc
    exact undo_inv h hgood hs
  · exact edit_inv h hc hs

theorem reachable_inv (h : Reachable (editor.restrict Undoable) r) : Inv r := by
  apply h.invariant
  · rintro ⟨state, pending⟩ ⟨⟨segment, initialString, hreset⟩, rfl⟩
    exact reset_inv hreset
  · rintro r e r' - hinv ⟨hgood, hs⟩
    exact step_inv hinv hgood hs

/-- Accepted edits, one after the other. -/
inductive Edits (r : Session) : Nat → Session → Prop
  | none : Edits r 0 r
  | more {k : Nat} {r' r'' : Session} {c : Command} (h : Edits r k r') (hc : c ≠ .undo)
      (hs : editor.step r' (c, true) r'') : Edits r (k + 1) r''

theorem Edits.inv {k : Nat} (h : Edits r k r') (hr : Inv r) : Inv r' ∧ r'.pending.length = r.pending.length + k := by
  induction h with
  | none => exact ⟨hr, rfl⟩
  | more _ hc hs ih =>
    refine ⟨edit_inv ih.1 hc hs, ?_⟩
    rw [hs.2, next_edit _ _ hc, List.length_cons, ih.2, Nat.add_assoc]

/-- So many undos in a row, all of them with the reply OK. -/
def undoTimes : Nat → EditState → Option EditState
  | 0, s => some s
  | k + 1, s => (undo s).bind fun r => if r.1 then undoTimes k r.2 else none

theorem undoTimes_edited {k : Nat} (h : Inv r) (hlen : r.pending.length ≤ undoLimit) (hk : k < r.pending.length)
    (hrest : ∀ edit ∈ r.pending.take (k + 1), Restorable edit) :
    ∃ s', undoTimes (k + 1) r.state = some s' ∧ bufferText s'.string = r.pending[k].2 := by
  induction k generalizing r with
  | zero =>
    obtain ⟨⟨last, before⟩, rest, hp⟩ := List.exists_cons_of_length_pos hk
    obtain ⟨b, hundo, hb, -⟩ := undo_edited h hp hlen (hrest _ (by simp [hp]))
    refine ⟨{ r.state with string := b, undoCount := rest.length }, ?_, ?_⟩
    · rw [undoTimes, hundo]
      rfl
    · simp only [hp, List.getElem_cons_zero]
      exact hb.2
  | succ k ih =>
    obtain ⟨⟨last, before⟩, rest, hp⟩ := List.exists_cons_of_length_pos (Nat.zero_lt_of_lt hk)
    obtain ⟨b, hundo, hb, hlogged⟩ := undo_edited h hp hlen (hrest _ (by simp [hp]))
    have hrestlen : rest.length ≤ undoLimit := by
      rw [hp, List.length_cons] at hlen
      omega
    have hinv : Inv ⟨{ r.state with string := b, undoCount := rest.length }, rest⟩ :=
      ⟨hb.2 ▸ hb, (min_eq_right hrestlen).symm, fun _ => hb.2 ▸ hlogged⟩
    have hk' : k < rest.length := by simpa [hp] using hk
    obtain ⟨s', hs', htext⟩ := ih hinv hrestlen hk' fun edit hmem => hrest edit (by
      rw [hp, List.take_succ_cons]
      exact List.mem_cons_of_mem _ hmem)
    refine ⟨s', ?_, ?_⟩
    · rw [undoTimes, hundo]
      exact hs'
    · simpa only [hp, List.getElem_cons_succ] using htext

/-- **When undo restores the text.** In a run where no undo comes when more than three edits are not undone,
and none comes for an edit that cut the text, each undo gives back the text before the newest of these
edits. After `k` edits the count is at least three or `k`, and while they all are in the log, each of them
can be undone. -/
theorem undo_restores (h : Reachable (editor.restrict Undoable) r) :
    (∀ r', Undoable r (.undo, true) → editor.step r (.undo, true) r' →
      ∃ last, r.pending = (last, bufferText r'.state.string) :: r'.pending) ∧
    ∀ k r', Edits r k r' → min 3 k ≤ r'.state.undoCount ∧
      (r'.pending.length ≤ 3 → ∀ j < k, (∀ edit ∈ r'.pending.take (j + 1), Restorable edit) →
        ∃ s', undoTimes (j + 1) r'.state = some s' ∧ r'.pending[j]?.map Prod.snd = some (bufferText s'.string)) := by
  have hinv := reachable_inv h
  refine ⟨fun r' hgood hs => ?_, fun k r' hedits => ?_⟩
  · obtain ⟨last, before, hp, -, hb, -⟩ := undo_step hinv hgood hs
    exact ⟨last, by rw [hp, hb.2]⟩
  · obtain ⟨hinv', hlen'⟩ := hedits.inv hinv
    have hcount := hinv'.count
    have hlimit : undoLimit = 3 := rfl
    refine ⟨by omega, fun hlen j hj hrest => ?_⟩
    have hj' : j < r'.pending.length := by omega
    obtain ⟨s', hs', htext⟩ := undoTimes_edited hinv' hlen hj' hrest
    refine ⟨s', hs', ?_⟩
    rw [List.getElem?_eq_getElem hj', htext]
    rfl

/-! ## A full log -/

def stepSession (r : Session) (e : Command × Bool) : Option Session :=
  (exec r.state e.1).bind fun (ok, state) => if ok = e.2 then some ⟨state, r.next state e⟩ else none

theorem stepSession_step {e : Command × Bool} (h : stepSession r e = some r') : editor.step r e r' := by
  obtain ⟨⟨ok, state⟩, he, h⟩ := Option.bind_eq_some_iff.mp h
  obtain ⟨hok, h⟩ := Option.ite_none_right_eq_some.mp h
  obtain rfl := Option.some.inj h
  exact ⟨hok ▸ he, rfl⟩

/-- `reset ""` -/
def emptySession : Session :=
  ⟨⟨(strncpy stringLimit []).setIfInBounds 75 0, Vector.replicate undoLimit ⟨.none, 0, 0⟩, 0⟩, []⟩

theorem emptySession_init : editor.init emptySession := ⟨⟨emptySession.state, [], rfl⟩, rfl⟩

def typed : List CChar → List (Command × Bool) := fun cs => cs.mapIdx fun i c => (.insert i c, true)

theorem restorable_of_ne {edit : UndoRecord × List CChar} (h : edit.1.character ≠ 0) : Restorable edit := by
  unfold Restorable
  split
  · exact fun h0 => absurd h0 h
  · trivial

theorem undo_restores_sample : ∃ r s', Edits emptySession 2 r ∧ undoTimes 2 r.state = some s' ∧ bufferText s'.string = [] := by
  have hrun : ((stepSession emptySession (.insert 0 0x61, true)).bind fun r =>
      (stepSession r (.insert 1 0x62, true)).map fun r' => r'.pending.map fun edit => (edit.1.character, edit.2)) =
        some [(0x62, [0x61]), (0x61, [])] := by decide +kernel
  obtain ⟨r, hr, hrun⟩ := Option.bind_eq_some_iff.mp hrun
  obtain ⟨r', hr', hpending⟩ := Option.map_eq_some_iff.mp hrun
  have hone : Edits emptySession 1 r := Edits.none.more (c := .insert 0 0x61) nofun (stepSession_step hr)
  have hedits : Edits emptySession 2 r' := hone.more (c := .insert 1 0x62) nofun (stepSession_step hr')
  have hlen : r'.pending.length = 2 := by simpa using congrArg List.length hpending
  have hrest : ∀ edit ∈ r'.pending.take 2, Restorable edit := by
    intro edit hedit
    have hmem := List.mem_map_of_mem (f := fun edit => (edit.1.character, edit.2)) (List.mem_of_mem_take hedit)
    rw [hpending] at hmem
    apply restorable_of_ne
    intro h0
    simp [h0] at hmem
  obtain ⟨s', hs', htext⟩ := ((undo_restores (Reachable.init emptySession_init)).2 2 r' hedits).2 (by omega) 1
    (by decide) hrest
  have hfirst : r'.pending[1]?.map Prod.snd = some [] := by
    have hget := congrArg (fun l => l[1]?.map Prod.snd) hpending
    simpa [Function.comp_def] using hget
  exact ⟨r', s', hedits, hs', Option.some.inj (htext.symm.trans hfirst)⟩

/-- The third edit is undone instead of the fourth. -/
theorem fourth_edit_stays :
    ¬ ∀ r r', Reachable editor r → editor.step r (.undo, true) r' →
        ∃ last, r.pending = (last, bufferText r'.state.string) :: r'.pending := by
  intro h
  have hrun : ((runSteps stepSession emptySession (typed (ascii "abcd"))).bind fun r =>
      (stepSession r (.undo, true)).map fun r' => (r.pending.head?.map Prod.snd, bufferText r'.state.string)) =
        some (some (ascii "abc"), ascii "abd") := by decide +kernel
  obtain ⟨r, hr, hrun⟩ := Option.bind_eq_some_iff.mp hrun
  obtain ⟨r', hr', htexts⟩ := Option.map_eq_some_iff.mp hrun
  have hreach : Reachable editor r :=
    Reachable.runSteps (fun _ _ _ _ => stepSession_step) (Reachable.init emptySession_init) hr
  obtain ⟨last, hpending⟩ := h r r' hreach (stepSession_step hr')
  rw [hpending] at htexts
  obtain ⟨hbefore, hafter⟩ := Prod.mk.inj htexts
  rw [hafter] at hbefore
  have hsame : ascii "abd" = ascii "abc" := Option.some.inj hbefore
  exact absurd hsame (by decide +kernel)

end OsCoursework.Editor.Log
