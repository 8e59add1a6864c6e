import OsCoursework.Http.Code
import OsCoursework.Lib.FirstMatch

/-!
# Header and body

All that was read until the first blank line is in `stderr`, and `last4` is the end of it. The chunks
play no part: the loop is a loop over the bytes.
-/

open OsCoursework.Cstring OsCoursework.FirstMatch

namespace OsCoursework.Http

variable {s : State} {stream : List CChar}

/-- The state after the bytes of `stream`. -/
structure Header (stream : List CChar) (s : State) : Prop where
  inHeader : s.inHeader = true
  stderr : s.stderr = stream
  stdout : s.stdout = []
  last4 : s.last4.toList <:+ List.replicate 4 0 ++ stream
  absent : ¬ blankLine <:+: stream

structure Body (stream : List CChar) (s : State) : Prop where
  inHeader : s.inHeader = false
  cuts : CutsAfter blankLine stream s.stderr s.stdout

theorem header_start : Header [] .start := ⟨rfl, rfl, rfl, List.suffix_refl _, by decide⟩

theorem Header.putByte (h : Header stream s) (c : CChar) :
    Header (stream ++ [c]) (putByte s c) ∨ Body (stream ++ [c]) (putByte s c) := by
  have hlast4 := h.last4
  rw [last4_toList] at hlast4
  have hwindow : (#v[s.last4[1], s.last4[2], s.last4[3], c] : Vector CChar 4).toList <:+
      List.replicate 4 0 ++ (stream ++ [c]) := window_concat hlast4
  have hends : _ = blankLine ↔ blankLine <:+ stream ++ [c] := window_eq_iff (by decide) hwindow rfl
  unfold Http.putByte
  rw [if_pos h.inHeader]
  by_cases hmatch : (#v[s.last4[1], s.last4[2], s.last4[3], c] : Vector CChar 4).toList = blankLine
  · refine Or.inr ⟨?_, ?_⟩
    · simpa using (blankLine_eq_iff _).mpr hmatch
    · simp only [h.stderr, h.stdout]
      exact cutsAfter_concat h.absent (hends.mp hmatch)
  · refine Or.inl ⟨?_, by simp only [h.stderr], h.stdout, hwindow, ?_⟩
    · have hfalse := mt (blankLine_eq_iff _).mp hmatch
      rw [Bool.not_eq_true] at hfalse
      exact Bool.not_eq_true' _ |>.mpr hfalse
    · rw [List.infix_concat_iff, not_or]
      exact ⟨mt hends.mpr hmatch, h.absent⟩

theorem Body.putByte (h : Body stream s) (c : CChar) : Body (stream ++ [c]) (putByte s c) := by
  unfold Http.putByte
  rw [if_neg (by simp [h.inHeader])]
  exact ⟨h.inHeader, h.cuts.append [c]⟩

theorem foldl_putByte (bytes : List CChar) (h : Header stream s ∨ Body stream s) :
    Header (stream ++ bytes) (bytes.foldl putByte s) ∨ Body (stream ++ bytes) (bytes.foldl putByte s) := by
  induction bytes generalizing stream s with
  | nil => simpa using h
  | cons c bytes ih =>
    rw [List.foldl_cons, List.append_cons]
    apply ih
    rcases h with h | h
    · exact h.putByte c
    · exact Or.inr (h.putByte c)

theorem respond_eq (chunks : List Chunk) : respond chunks = (chunks.flatMap Chunk.bytes).foldl putByte .start :=
  (List.foldl_flatMap ..).symm

/-- **The response is split at the first blank line.** Up to its end everything goes to `stderr`, and all that comes
after it to `stdout`. Without one, everything goes to `stderr`. -/
theorem respond_split (chunks : List Chunk) :
    (blankLine <:+: chunks.flatMap Chunk.bytes →
      CutsAfter blankLine (chunks.flatMap Chunk.bytes) (respond chunks).stderr (respond chunks).stdout) ∧
    (¬ blankLine <:+: chunks.flatMap Chunk.bytes →
      (respond chunks).stderr = chunks.flatMap Chunk.bytes ∧ (respond chunks).stdout = []) := by
  rw [respond_eq]
  have h := foldl_putByte (chunks.flatMap Chunk.bytes) (Or.inl header_start)
  rw [List.nil_append] at h
  rcases h with h | h
  · exact ⟨fun hblank => absurd hblank h.absent, fun _ => ⟨h.stderr, h.stdout⟩⟩
  · refine ⟨fun _ => h.cuts, fun hnone => absurd ?_ hnone⟩
    exact h.cuts.ends.isInfix.trans (List.IsPrefix.isInfix ⟨_, h.cuts.whole⟩)

end OsCoursework.Http
