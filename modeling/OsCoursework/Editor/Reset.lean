import OsCoursework.Editor.Report
import OsCoursework.Editor.Undo
import OsCoursework.Lib.TwoRuns

/-!
# A reset hides the past

`reset` leaves the three saved buffers as they are. The count of undo operations says how
many of them hold texts of this session, and the others are never copied into the text.
-/

open OsCoursework.Cstring OsCoursework.Transition OsCoursework.TwoRuns

namespace OsCoursework.Editor

inductive Operation where
  | command (command : Command)
  | report

inductive Answer where
  | reply (ok : Bool)
  | printed (text : List CChar) (count : Int)

def Operation.perform (state : EditState) : Operation → Answer × EditState
  | .command c => (.reply (c.exec state).1, (c.exec state).2)
  | .report => (.printed (Report.shown state).1 (Report.shown state).2, state)

/-- The moves read and write the text only, and not the saved buffer behind it. -/
theorem moves_inside {s : EditState} (h : Reachable editor s) {idx : Int} (h0 : 0 ≤ idx) :
    (idx ≤ s.len → s.len < stringLimit - 1 → idx.toNat + 1 + (s.len - idx + 1).toNat ≤ stringLimit) ∧
      (idx < s.len → idx.toNat + 1 + (s.len - idx).toNat ≤ stringLimit) := by
  have hlen := len_bounded h
  constructor
  · intro hle hlt
    omega
  · intro hlt
    omega

/-! ## What is left of a session -/

/-- The saved buffers that undo can reach. -/
def EditState.reach (s : EditState) : List Buffer := [s.prev1, s.prev2, s.prev3].take s.numUndos.toNat

variable {s t : EditState}

theorem reach_edit (h : Counted s) (string : Buffer) (len : Int) :
    (s.edit string len).reach = (copy s.string :: s.reach.map copy).take undoLimit := by
  unfold EditState.reach EditState.edit
  rcases h.cases with hn | hn | hn | hn <;> simp [hn, undoLimit]

theorem reach_undo (h : Counted s) (hn : s.numUndos ≠ 0) :
    (undo s).2.reach = s.reach.tail.map copy ∧ s.reach.head?.map copy = some (undo s).2.string := by
  unfold Editor.undo EditState.reach
  rcases h.cases with hn' | hn' | hn' | hn'
  · exact absurd hn' hn
  · simp [hn']
  · simp [hn']
  · simp [hn']

/-- All that a session can show. -/
structure Alike (s t : EditState) : Prop where
  string : s.string = t.string
  len : s.len = t.len
  numUndos : s.numUndos = t.numUndos
  counted : Counted s
  reach : s.reach = t.reach

theorem Alike.counted_right (h : Alike s t) : Counted t := by
  unfold Counted
  rw [← h.numUndos]
  exact h.counted

theorem Alike.edit (h : Alike s t) (string : Buffer) (len : Int) : Alike (s.edit string len) (t.edit string len) where
  string := rfl
  len := rfl
  numUndos := by
    unfold EditState.edit
    simp only [h.numUndos]
  counted := (edit_step h.counted string len (c := .delete 0) nofun).2
  reach := by rw [reach_edit h.counted, reach_edit h.counted_right, h.string, h.reach]

theorem Alike.undo (h : Alike s t) (hs : s.numUndos ≠ 0) : Alike (undo s).2 (undo t).2 := by
  have ht : t.numUndos ≠ 0 := h.numUndos ▸ hs
  obtain ⟨hreach, hstring⟩ := reach_undo h.counted hs
  obtain ⟨hreach', hstring'⟩ := reach_undo h.counted_right ht
  rw [h.reach, hstring'] at hstring
  refine ⟨(Option.some.inj hstring).symm, ?_, ?_, (undo_step h.counted hs).2, ?_⟩
  · simpa [Editor.undo, hs, ht] using h.len
  · simpa [Editor.undo, hs, ht] using h.numUndos
  · rw [hreach, hreach', h.reach]

theorem exec_alike (h : Alike s t) (c : Command) :
    (c.exec s).1 = (c.exec t).1 ∧ Alike (c.exec s).2 (c.exec t).2 := by
  cases c with
  | insert idx ch =>
    simp only [Command.exec, insert, ← h.len, ← h.string]
    split_ifs with hbad
    · exact ⟨rfl, h⟩
    · exact ⟨rfl, h.edit _ _⟩
  | delete idx =>
    simp only [Command.exec, delete, ← h.len, ← h.string]
    split_ifs with hbad
    · exact ⟨rfl, h⟩
    · exact ⟨rfl, h.edit _ _⟩
  | undo =>
    by_cases hn : s.numUndos = 0
    · have hn' : t.numUndos = 0 := h.numUndos ▸ hn
      simpa [Command.exec, Editor.undo, hn, hn'] using h
    · have hn' : t.numUndos ≠ 0 := h.numUndos ▸ hn
      exact ⟨by simp [Command.exec, Editor.undo, hn, hn'], h.undo hn⟩

theorem perform_hides : Hides Operation.perform Alike where
  answer s t op h := by
    cases op with
    | command c => exact congrArg Answer.reply (exec_alike h c).1
    | report =>
      unfold Operation.perform Report.shown
      rw [h.string, h.numUndos]
  next s t op h := by
    cases op with
    | command c => exact (exec_alike h c).2
    | report => exact h

/-! ## Two segments -/

theorem reset_some {initialString : List CChar} (h : strlen initialString < stringLimit) (segment : EditState) :
    ∃ s, reset segment initialString = some s := ⟨_, if_neg (not_le.mpr h)⟩

theorem reset_alike {segment segment' : EditState} {initialString : List CChar}
    (hs : reset segment initialString = some s) (ht : reset segment' initialString = some t) : Alike s t := by
  have hcounted := (reset_document hs).2
  obtain ⟨-, rfl⟩ := reset_cases hs
  obtain ⟨-, rfl⟩ := reset_cases ht
  exact ⟨rfl, rfl, rfl, hcounted, rfl⟩

/-- **A reset hides the previous session.** After it, no sequence of operations tells what was in the
segment before. -/
theorem reset_hides {initialString : List CChar} (h : strlen initialString < stringLimit)
    (segment segment' : EditState) :
    ∃ s t, reset segment initialString = some s ∧ reset segment' initialString = some t ∧
      ∀ operations, answers Operation.perform s operations = answers Operation.perform t operations := by
  obtain ⟨s, hs⟩ := reset_some h segment
  obtain ⟨t, ht⟩ := reset_some h segment'
  exact ⟨s, t, hs, ht, fun operations => perform_hides.answers_eq (reset_alike hs ht) operations⟩

/-- A segment with another history. -/
def usedSegment : EditState :=
  { blankSegment with prev1 := strncpy stringLimit (ascii "secret"), len := 6, numUndos := 3 }

theorem reset_hides_sample : ∃ s t, reset blankSegment (ascii "abc") = some s ∧
    reset usedSegment (ascii "abc") = some t ∧ s.prev1 ≠ t.prev1 ∧
      answers Operation.perform s [.command .undo, .report] =
        answers Operation.perform t [.command .undo, .report] := by
  have hlen : strlen (ascii "abc") < stringLimit := by decide +kernel
  obtain ⟨s, t, hs, ht, h⟩ := reset_hides hlen blankSegment usedSegment
  obtain ⟨-, rfl⟩ := reset_cases hs
  obtain ⟨-, rfl⟩ := reset_cases ht
  refine ⟨_, _, hs, ht, ?_, h _⟩
  decide +kernel

end OsCoursework.Editor
