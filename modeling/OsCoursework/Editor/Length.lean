import OsCoursework.Editor.Code

/-!
# The cached length

`insert` and `delete` keep `len` equal to the length of the text. `undo` puts the
old text back but not the old `len`, so from the first undo that takes effect the
two differ.
-/

open OsCoursework.Cstring OsCoursework.Transition

namespace OsCoursework.Editor

/-- The text has a NUL within the buffer, and `len` is its length. -/
def LenOk (s : EditState) : Prop := 0 ∈ s.string.toList ∧ s.len = strlen s.string.toList

instance (s : EditState) : Decidable (LenOk s) := inferInstanceAs (Decidable (_ ∧ _))

theorem lenOk_iff (s : EditState) : LenOk s ↔ ∃ k : Nat, s.len = k ∧ Terminated s.string k := by
  constructor
  · rintro ⟨h0, hlen⟩
    exact ⟨_, hlen, (terminated_iff _ _).mpr ⟨h0, rfl⟩⟩
  · rintro ⟨k, hlen, ht⟩
    obtain ⟨h0, rfl⟩ := (terminated_iff _ _).mp ht
    exact ⟨h0, hlen⟩

/-- What `insert` is promised: the character is not NUL. -/
def Command.Typed : Command → Prop
  | .insert _ ch => ch ≠ 0
  | _ => True

/-! ## What each command does -/

theorem insert_cases (s : EditState) (idx : Int) (ch : CChar) :
    (insert s idx ch = (false, s)) ∨
    (0 ≤ idx ∧ idx ≤ s.len ∧ s.len < stringLimit - 1 ∧ insert s idx ch = (true, s.edit
      ((memmove s.string (idx.toNat + 1) idx.toNat (s.len - idx + 1).toNat).setIfInBounds idx.toNat ch)
      (s.len + 1))) := by
  by_cases h : idx < 0 ∨ idx > s.len ∨ s.len ≥ stringLimit - 1
  · exact Or.inl (if_pos h)
  · simp only [not_or, not_lt, gt_iff_lt, ge_iff_le, not_le] at h
    refine Or.inr ⟨h.1, h.2.1, h.2.2, if_neg ?_⟩
    omega

theorem delete_cases (s : EditState) (idx : Int) :
    (delete s idx = (false, s)) ∨
    (0 ≤ idx ∧ idx < s.len ∧ delete s idx = (true, s.edit
      (memmove s.string idx.toNat (idx.toNat + 1) (s.len - idx).toNat) (s.len - 1))) := by
  by_cases h : idx < 0 ∨ idx ≥ s.len
  · exact Or.inl (if_pos h)
  · exact Or.inr ⟨by omega, by omega, if_neg h⟩

theorem undo_cases (s : EditState) :
    (s.numUndos = 0 ∧ undo s = (false, s)) ∨
    (s.numUndos ≠ 0 ∧ undo s = (true, { s with
      string := copy s.prev1, prev1 := copy s.prev2, prev2 := copy s.prev3, numUndos := s.numUndos - 1 })) := by
  by_cases h : s.numUndos = 0
  · exact Or.inl ⟨h, if_pos h⟩
  · exact Or.inr ⟨h, if_neg h⟩

theorem strlen_copy (b : Buffer) : strlen (copy b).toList = strlen b.toList := by
  rw [strlen, copy, text_strncpy_vector, ← strlen]

/-! ## The length of the text -/

/-- Before any undo took effect: `len` is right, and undoing the last edit would make it wrong. -/
structure Fresh (s : EditState) : Prop where
  lenOk : LenOk s
  nonneg : 0 ≤ s.numUndos
  drift : s.numUndos ≠ 0 → s.len ≠ strlen s.prev1.toList

theorem fresh_edit {s : EditState} (h : Fresh s) {string : Buffer} {k : Nat}
    (ht : Terminated string k) (hk : (k : Int) ≠ s.len) : Fresh (s.edit string k) := by
  refine ⟨(lenOk_iff _).mpr ⟨k, rfl, ht⟩, ?_, fun _ => ?_⟩
  · have hn := h.nonneg
    simp only [EditState.edit]
    split_ifs <;> omega
  · -- The saved text is the old one.
    have hsaved : strlen (s.edit string k).prev1.toList = strlen s.string.toList := strlen_copy s.string
    rw [hsaved, ← h.lenOk.2]
    exact hk

theorem fresh_insert {s : EditState} (h : Fresh s) (idx : Int) {ch : CChar} (hch : ch ≠ 0) :
    Fresh (insert s idx ch).2 := by
  rcases insert_cases s idx ch with he | ⟨h0, hle, hlt, he⟩
  · rwa [he]
  obtain ⟨k, hk, ht⟩ := (lenOk_iff s).mp h.lenOk
  have hlen : s.len + 1 = ((k + 1 : Nat) : Int) := by rw [hk, Nat.cast_succ]
  have hcount : (s.len - idx + 1).toNat = k - idx.toNat + 1 := by omega
  have hi : idx.toNat ≤ k := by omega
  have hmax : k + 1 < stringLimit := by
    rw [hk] at hlt
    omega
  rw [he, hlen, hcount]
  exact fresh_edit h (ht.insert hi hmax hch) (by omega)

theorem fresh_delete {s : EditState} (h : Fresh s) (idx : Int) : Fresh (delete s idx).2 := by
  rcases delete_cases s idx with he | ⟨h0, hlt, he⟩
  · rwa [he]
  obtain ⟨k, hk, ht⟩ := (lenOk_iff s).mp h.lenOk
  obtain ⟨k, rfl⟩ : ∃ k', k = k' + 1 := ⟨k - 1, by omega⟩
  have hlen : s.len - 1 = (k : Int) := by rw [hk, Nat.cast_succ, add_sub_cancel_right]
  have hcount : (s.len - idx).toNat = k + 1 - idx.toNat := by omega
  have hi : idx.toNat ≤ k := by omega
  rw [he, hlen, hcount]
  exact fresh_edit h (ht.delete hi) (by omega)

theorem undo_breaks {s : EditState} (h : Fresh s) (hn : s.numUndos ≠ 0) : ¬ LenOk (undo s).2 := by
  rcases undo_cases s with ⟨h0, -⟩ | ⟨-, he⟩
  · exact absurd h0 hn
  · rw [he]
    rintro ⟨-, hlen⟩
    change s.len = strlen (copy s.prev1).toList at hlen
    rw [strlen_copy] at hlen
    exact h.drift hn hlen

theorem exec_lenOk_iff {s : EditState} (h : Fresh s) {c : Command} (hc : c.Typed) :
    (LenOk (c.exec s).2 ↔ (c = .undo → s.numUndos = 0)) ∧ (LenOk (c.exec s).2 → Fresh (c.exec s).2) := by
  cases c with
  | insert idx ch =>
    have hfresh := fresh_insert h idx hc
    exact ⟨⟨fun _ he => (nomatch he), fun _ => hfresh.lenOk⟩, fun _ => hfresh⟩
  | delete idx =>
    have hfresh := fresh_delete h idx
    exact ⟨⟨fun _ he => (nomatch he), fun _ => hfresh.lenOk⟩, fun _ => hfresh⟩
  | undo =>
    by_cases hn : s.numUndos = 0
    · have he : Command.exec s .undo = (false, s) := if_pos hn
      rw [he]
      exact ⟨⟨fun _ _ => hn, fun _ => h.lenOk⟩, fun _ => h⟩
    · have hbad := undo_breaks h hn
      exact ⟨⟨fun hok => absurd hok hbad, fun hz => absurd (hz rfl) hn⟩, fun hok => absurd hok hbad⟩

theorem reset_cases {segment s : EditState} {initialString : List CChar}
    (h : reset segment initialString = some s) : strlen initialString < stringLimit ∧
      s = { segment with string := strncpy stringLimit initialString, len := strlen initialString, numUndos := 0 } := by
  rw [reset, Option.ite_none_left_eq_some] at h
  obtain ⟨hlen, h⟩ := h
  have hlt : strlen initialString < stringLimit := not_le.mp hlen
  rw [strncpy_set_last hlt] at h
  exact ⟨hlt, (Option.some.inj h).symm⟩

theorem fresh_reset {segment s : EditState} {initialString : List CChar}
    (h : reset segment initialString = some s) : Fresh s := by
  obtain ⟨hlt, rfl⟩ := reset_cases h
  exact ⟨(lenOk_iff _).mpr ⟨_, rfl, strncpy_terminated hlt⟩, le_rfl, fun hn => absurd rfl hn⟩

/-! ## All runs -/

theorem fresh_run {s : EditState} (hs : Fresh s) {cs : List Command} (hc : ∀ c ∈ cs, c.Typed)
    (hok : ∀ done, done <+: cs → LenOk (run s done)) : Fresh (run s cs) := by
  induction cs using List.reverseRecOn with
  | nil => exact hs
  | append_singleton cs c ih =>
    have hfresh := ih (fun c' h' => hc c' (by simp [h']))
      (fun done hd => hok done (hd.trans (List.prefix_append _ _)))
    have hlast := hok _ List.prefix_rfl
    rw [run_append] at hlast ⊢
    exact (exec_lenOk_iff hfresh (hc c (by simp))).2 hlast

theorem run_lenOk {s : EditState} (hs : Fresh s) {cs : List Command} (hc : ∀ c ∈ cs, c.Typed)
    (hundo : ∀ done, done ++ [.undo] <+: cs → (run s done).numUndos = 0) : Fresh (run s cs) := by
  induction cs using List.reverseRecOn with
  | nil => exact hs
  | append_singleton cs c ih =>
    have hfresh := ih (fun c' h' => hc c' (by simp [h']))
      (fun done hd => hundo done (hd.trans (List.prefix_append _ _)))
    obtain ⟨hiff, hnext⟩ := exec_lenOk_iff hfresh (hc c (by simp))
    rw [run_append]
    refine hnext (hiff.mpr ?_)
    rintro rfl
    exact hundo cs List.prefix_rfl

/-- **When `len` is kept.** After every command of a run the text is terminated and `len` is its
length, exactly when no undo of the run has anything to undo. -/
theorem length_kept_iff {segment s : EditState} {initialString : List CChar}
    (h : reset segment initialString = some s) {cs : List Command} (hc : ∀ c ∈ cs, c.Typed) :
    (∀ done, done <+: cs → LenOk (run s done)) ↔
      ∀ done, done ++ [.undo] <+: cs → (run s done).numUndos = 0 := by
  have hs := fresh_reset h
  constructor
  · intro hok done hd
    have hdone : done <+: cs := (List.prefix_append _ _).trans hd
    have hfresh := fresh_run hs (fun c hm => hc c (hdone.subset hm)) fun d h' => hok d (h'.trans hdone)
    have hnext := hok _ hd
    rw [run_append] at hnext
    exact (exec_lenOk_iff hfresh (c := .undo) trivial).1.mp hnext rfl
  · intro hundo done hd
    exact (run_lenOk hs (fun c hm => hc c (hd.subset hm)) fun d h' => hundo d (h'.trans hd)).lenOk

def blankSegment : EditState :=
  ⟨Vector.replicate _ 0, Vector.replicate _ 0, Vector.replicate _ 0, Vector.replicate _ 0, 0, 0⟩

/-- `reset abc` -/
def sampleState : EditState :=
  { blankSegment with string := (strncpy stringLimit [0x61, 0x62, 0x63]).setIfInBounds 75 0, len := 3 }

theorem sampleState_reset : reset blankSegment [0x61, 0x62, 0x63] = some sampleState := rfl

theorem length_kept_sample : LenOk (run sampleState [.undo, .insert 0 0x78]) := by
  refine (length_kept_iff sampleState_reset (by simp [Command.Typed])).mpr ?_ _ List.prefix_rfl
  intro done hd
  obtain ⟨rest, hd⟩ := hd
  cases done with
  | nil => rfl
  | cons c done => cases done <;> simp at hd

/-- `insert 0 x` and `undo` give the text back, with one too many in `len`. -/
theorem undo_keeps_new_len :
    reset blankSegment [0x61, 0x62, 0x63] = some sampleState ∧ sampleState.len = 3 ∧
      (run sampleState [.insert 0 0x78, .undo]).string = sampleState.string ∧
      (run sampleState [.insert 0 0x78, .undo]).len = 4 ∧
      ¬ LenOk (run sampleState [.insert 0 0x78, .undo]) := by
  refine ⟨rfl, ?_⟩
  decide +kernel

/-! ## Bounds

Right or wrong, `len` never leads a move out of the buffer.
-/

theorem len_bounded {s : EditState} (h : Reachable editor s) : 0 ≤ s.len ∧ s.len < stringLimit := by
  apply h.invariant
  · rintro s ⟨segment, initialString, hr⟩
    obtain ⟨hlt, rfl⟩ := reset_cases hr
    exact ⟨Int.natCast_nonneg _, Int.ofNat_lt.mpr hlt⟩
  · rintro s ⟨c, r⟩ t - ⟨h0, hlt⟩ he
    obtain rfl : (c.exec s).2 = t := congrArg Prod.snd he
    cases c with
    | insert idx ch =>
      rcases insert_cases s idx ch with hi | ⟨-, -, hmax, hi⟩
      · rw [Command.exec, hi]
        exact ⟨h0, hlt⟩
      · rw [Command.exec, hi]
        exact ⟨show 0 ≤ s.len + 1 by omega, show s.len + 1 < stringLimit by omega⟩
    | delete idx =>
      rcases delete_cases s idx with hi | ⟨hpos, hidx, hi⟩
      · rw [Command.exec, hi]
        exact ⟨h0, hlt⟩
      · rw [Command.exec, hi]
        exact ⟨show 0 ≤ s.len - 1 by omega, show s.len - 1 < stringLimit by omega⟩
    | undo =>
      rcases undo_cases s with ⟨-, hi⟩ | ⟨-, hi⟩ <;> rw [Command.exec, hi] <;> exact ⟨h0, hlt⟩

end OsCoursework.Editor
