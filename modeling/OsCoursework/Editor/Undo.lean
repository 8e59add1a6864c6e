import OsCoursework.Lib.BoundedStack
import OsCoursework.Editor.Length

/-!
# The undo history

The three saved buffers and `num_undos` are a stack of at most three texts. What
`insert` and `delete` do to the text does not matter here, and neither does a wrong
`len`: it stays below the size of the buffer, so the moves stay inside it.
-/

open OsCoursework.Cstring OsCoursework.Transition

namespace OsCoursework.Editor

/-! ## The abstract editor -/

/-- A text and the texts that undo can bring back. -/
@[ext] structure Document where
  text : List CChar
  saved : BoundedStack (List CChar) undoLimit

inductive Document.Step : Document → Command × Bool → Document → Prop
  | edit {d : Document} {c : Command} {t : List CChar} (hc : c ≠ .undo) :
      Step d (c, true) ⟨t, d.saved.push d.text⟩
  | undo {d : Document} {t : List CChar} {rest : BoundedStack (List CChar) undoLimit}
      (hp : d.saved.pop = some (t, rest)) : Step d (.undo, true) ⟨t, rest⟩
  | fail {d : Document} {c : Command} (hc : c = .undo → d.saved.pop = none) : Step d (c, false) d

/-- Starts with any text that fits, and nothing saved. -/
def document : System Document (Command × Bool) where
  init d := d.text.length < stringLimit ∧ d.saved = .empty
  step := Document.Step

/-! ## The view of the state -/

def bufferText (b : Buffer) : List CChar := text b.toList

@[simp] theorem bufferText_copy (b : Buffer) : bufferText (copy b) = bufferText b :=
  text_strncpy_vector b

def EditState.saved (s : EditState) : BoundedStack (List CChar) undoLimit :=
  .ofSlots [bufferText s.prev1, bufferText s.prev2, bufferText s.prev3] (by simp) s.numUndos.toNat

def EditState.document (s : EditState) : Document := ⟨bufferText s.string, s.saved⟩

/-- `num_undos` counts the saved texts. -/
def Counted (s : EditState) : Prop := 0 ≤ s.numUndos ∧ s.numUndos ≤ undoLimit

theorem Counted.height {s : EditState} (h : Counted s) : s.numUndos = s.saved.height := by
  obtain ⟨h0, h3⟩ := h
  simp only [undoLimit] at h3
  simp only [EditState.saved, BoundedStack.ofSlots, BoundedStack.height, List.length_take,
    List.length_cons, List.length_nil]
  omega

theorem Counted.cases {s : EditState} (h : Counted s) :
    s.numUndos = 0 ∨ s.numUndos = 1 ∨ s.numUndos = 2 ∨ s.numUndos = 3 := by
  obtain ⟨h0, h3⟩ := h
  simp only [undoLimit] at h3
  omega

/-! ## Each command -/

theorem edit_step {s : EditState} (h : Counted s) (string : Buffer) (len : Int) {c : Command}
    (hc : c ≠ .undo) :
    Document.Step s.document (c, true) (s.edit string len).document ∧ Counted (s.edit string len) := by
  have hpush : (s.edit string len).saved = s.saved.push (bufferText s.string) := by
    ext1
    rcases h.cases with hn | hn | hn | hn <;>
      simp [EditState.edit, EditState.saved, BoundedStack.ofSlots, BoundedStack.push, hn, undoLimit]
  constructor
  · rw [EditState.document, EditState.document, hpush]
    exact .edit hc
  · obtain ⟨h0, h3⟩ := h
    simp only [Counted, EditState.edit]
    split_ifs <;> omega

theorem undo_step {s : EditState} (h : Counted s) (hn : s.numUndos ≠ 0) :
    Document.Step s.document (.undo, true) (undo s).2.document ∧ Counted (undo s).2 := by
  rcases undo_cases s with ⟨h0, -⟩ | ⟨-, he⟩
  · exact absurd h0 hn
  have hpop : s.saved.pop = some (bufferText s.prev1, (undo s).2.saved) := by
    rw [he, BoundedStack.pop_eq_some_iff]
    rcases h.cases with hn' | hn' | hn' | hn'
    · exact absurd hn' hn
    · simp [EditState.saved, BoundedStack.ofSlots, hn']
    · simp [EditState.saved, BoundedStack.ofSlots, hn']
    · simp [EditState.saved, BoundedStack.ofSlots, hn']
  have htext : bufferText (undo s).2.string = bufferText s.prev1 := by rw [he, bufferText_copy]
  constructor
  · have hd : (undo s).2.document = ⟨bufferText s.prev1, (undo s).2.saved⟩ :=
      congrArg (Document.mk · _) htext
    rw [hd]
    exact .undo hpop
  · rw [he]
    obtain ⟨h0, h3⟩ := h
    exact ⟨show 0 ≤ s.numUndos - 1 by omega, show s.numUndos - 1 ≤ _ by omega⟩

theorem exec_step {s t : EditState} (h : Counted s) {c : Command} {r : Bool}
    (he : c.exec s = (r, t)) : Document.Step s.document (c, r) t.document ∧ Counted t := by
  cases c with
  | insert idx ch =>
    rcases insert_cases s idx ch with hi | ⟨-, -, -, hi⟩ <;>
      obtain ⟨rfl, rfl⟩ := Prod.mk.inj (hi.symm.trans he)
    · exact ⟨.fail nofun, h⟩
    · exact edit_step h _ _ nofun
  | delete idx =>
    rcases delete_cases s idx with hi | ⟨-, -, hi⟩ <;>
      obtain ⟨rfl, rfl⟩ := Prod.mk.inj (hi.symm.trans he)
    · exact ⟨.fail nofun, h⟩
    · exact edit_step h _ _ nofun
  | undo =>
    rcases undo_cases s with ⟨hn, hi⟩ | ⟨hn, hi⟩
    · obtain ⟨rfl, rfl⟩ := Prod.mk.inj (hi.symm.trans he)
      refine ⟨.fail fun _ => ?_, h⟩
      rw [BoundedStack.pop_eq_none_iff]
      have hheight := h.height
      rw [hn] at hheight
      exact_mod_cast hheight.symm
    · have hstep := undo_step h hn
      rw [hi] at hstep
      obtain ⟨rfl, rfl⟩ := Prod.mk.inj (hi.symm.trans he)
      exact hstep

/-! ## All runs -/

theorem reset_document {segment s : EditState} {initialString : List CChar}
    (h : reset segment initialString = some s) :
    s.document = ⟨text initialString, .empty⟩ ∧ Counted s := by
  obtain ⟨hlt, hs⟩ := reset_cases h
  have hn : s.numUndos = 0 := by rw [hs]
  have htext : bufferText s.string = text initialString := by
    rw [hs, bufferText, text_strncpy, List.take_of_length_le hlt.le]
  have hsaved : s.saved = .empty := by
    rw [EditState.saved, hn, Int.toNat_zero, BoundedStack.ofSlots_zero]
  refine ⟨?_, ?_⟩
  · rw [EditState.document, htext, hsaved]
  · rw [Counted, hn]
    exact ⟨le_rfl, Int.natCast_nonneg _⟩

theorem editor_simulates :
    Simulation editor document fun s d => s.document = d ∧ Counted s := by
  constructor
  · rintro s ⟨segment, initialString, h⟩
    obtain ⟨hd, hc⟩ := reset_document h
    refine ⟨_, ⟨?_, ?_⟩, rfl, hc⟩
    · rw [hd]
      exact (reset_cases h).1
    · rw [hd]
  · rintro s ⟨c, r⟩ t d ⟨rfl, hc⟩ he
    obtain ⟨hstep, hcount⟩ := exec_step hc he
    exact ⟨_, hstep, rfl, hcount⟩

/-- **The undo history is a bounded stack.** A reset gives its text and an empty stack. In every
reachable state `num_undos` is the height, at most three, and every command and its reply is a step
of the abstract editor. -/
theorem undo_is_bounded_stack :
    (∀ segment initialString s, reset segment initialString = some s →
      s.document = ⟨text initialString, .empty⟩) ∧
    ∀ s, Reachable editor s → s.numUndos = s.document.saved.height ∧ s.numUndos ≤ 3 ∧
      ∀ c r t, c.exec s = (r, t) → Document.Step s.document (c, r) t.document := by
  refine ⟨fun _ _ _ h => (reset_document h).1, fun s hs => ?_⟩
  obtain ⟨_, -, -, hc⟩ := editor_simulates.reachable hs
  exact ⟨hc.height, hc.2, fun c r t he => (exec_step hc he).1⟩

theorem undo_is_bounded_stack_sample :
    (run sampleState [.insert 0 0x78, .delete 1, .insert 9 0x79]).numUndos =
      (run sampleState [.insert 0 0x78, .delete 1, .insert 9 0x79]).document.saved.height := by
  have hstep : ∀ s (c : Command), Reachable editor s → Reachable editor (c.exec s).2 :=
    fun s c h => Reachable.step (e := (c, (c.exec s).1)) h rfl
  exact (undo_is_bounded_stack.2 _ (hstep _ _ (hstep _ _ (hstep _ _
    (Reachable.init ⟨_, _, sampleState_reset⟩))))).1

end OsCoursework.Editor
