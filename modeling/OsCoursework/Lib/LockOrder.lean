import Mathlib

/-!
# Locks taken in order

When everybody who waits holds only locks of lower levels, the levels waited for would rise
for ever along a circle of waiting.
-/

namespace OsCoursework.LockOrder

variable {χ ι : Type*}

theorem rel_of_mem_take {R : ι → ι → Prop} {l : List ι} (h : l.Pairwise R) {i : Nat} {a b : ι} (ha : a ∈ l.take i)
    (hb : l[i]? = some b) : R a b := by
  have hsplit : l = l.take i ++ b :: l.drop (i + 1) := by
    obtain ⟨hi, rfl⟩ := List.getElem?_eq_some_iff.mp hb
    rw [List.getElem_cons_drop, List.take_append_drop]
  rw [hsplit] at h
  exact (List.pairwise_append.mp h).2.2 a ha b List.mem_cons_self

/-- Each of them waits for a lock that one of them holds. -/
def Circle (waits holds : χ → ι → Prop) (S : Set χ) : Prop := ∀ c ∈ S, ∃ a, waits c a ∧ ∃ d ∈ S, holds d a

variable {waits holds : χ → ι → Prop} {level : ι → Nat} {S : Set χ}

theorem Circle.exists_level (hcircle : Circle waits holds S) (hne : S.Nonempty)
    (horder : ∀ c a b, holds c a → waits c b → level a < level b) (n : Nat) :
    ∃ a, n ≤ level a ∧ ∃ d ∈ S, holds d a := by
  induction n with
  | zero =>
    obtain ⟨c, hc⟩ := hne
    obtain ⟨a, -, hheld⟩ := hcircle c hc
    exact ⟨a, Nat.zero_le _, hheld⟩
  | succ n ih =>
    obtain ⟨a, hn, d, hd, hhold⟩ := ih
    obtain ⟨b, hwait, hheld⟩ := hcircle d hd
    have hup := horder d a b hhold hwait
    exact ⟨b, by omega, hheld⟩

/-- **No deadlock.** -/
theorem not_circle {bound : Nat} (hbound : ∀ a, level a < bound)
    (horder : ∀ c a b, holds c a → waits c b → level a < level b) (hne : S.Nonempty) :
    ¬ Circle waits holds S := by
  intro hcircle
  obtain ⟨a, ha, -⟩ := hcircle.exists_level hne horder bound
  exact absurd ha (not_le.mpr (hbound a))

/-! ## Who holds what -/

/-- A lock is taken when somebody holds it, and nobody else does then. -/
structure Owned (locked : ι → Bool) (held : χ → List ι) : Prop where
  locked_iff : ∀ a, locked a = true ↔ ∃ c, a ∈ held c
  one : ∀ a c d, a ∈ held c → a ∈ held d → c = d

theorem owned_start : Owned (fun _ : ι => false) (fun _ : χ => []) where
  locked_iff a := by simp
  one a c d h := by cases h

variable {locked : ι → Bool} {held : χ → List ι} {a b : ι} {c d : χ}

theorem Owned.notMem (h : Owned locked held) (ha : locked a = false) (c : χ) : a ∉ held c := by
  intro hmem
  rw [(h.locked_iff a).mpr ⟨c, hmem⟩] at ha
  cases ha

variable [DecidableEq χ]

theorem mem_update_append :
    b ∈ Function.update held c (held c ++ [a]) d ↔ b ∈ held d ∨ (d = c ∧ b = a) := by
  by_cases hd : d = c
  · subst hd
    simp
  · simp [hd]

variable [DecidableEq ι]

theorem mem_update_erase (hnodup : (held c).Nodup) :
    b ∈ Function.update held c ((held c).erase a) d ↔ b ∈ held d ∧ ¬ (d = c ∧ b = a) := by
  by_cases hd : d = c
  · subst hd
    simp [hnodup.mem_erase_iff, and_comm]
  · simp [hd]

theorem Owned.lock (h : Owned locked held) (hfree : locked a = false) :
    Owned (Function.update locked a true) (Function.update held c (held c ++ [a])) where
  locked_iff b := by
    simp only [mem_update_append]
    by_cases hb : b = a
    · subst hb
      exact iff_of_true (Function.update_self ..) ⟨c, .inr ⟨rfl, rfl⟩⟩
    · simp [hb, h.locked_iff]
  one b d e hd he := by
    have hnone := h.notMem hfree
    rcases mem_update_append.mp hd with hd | ⟨hd, hb⟩ <;> rcases mem_update_append.mp he with he | ⟨he, hb'⟩
    · exact h.one b d e hd he
    · exact absurd (hb' ▸ hd) (hnone d)
    · exact absurd (hb ▸ he) (hnone e)
    · exact hd.trans he.symm

theorem Owned.unlock (h : Owned locked held) (hnodup : (held c).Nodup) (ha : a ∈ held c) :
    Owned (Function.update locked a false) (Function.update held c ((held c).erase a)) where
  locked_iff b := by
    simp only [mem_update_erase hnodup]
    by_cases hb : b = a
    · subst hb
      rw [Function.update_self]
      exact iff_of_false Bool.false_ne_true fun ⟨d, hd, hne⟩ => hne ⟨h.one b d c hd ha, rfl⟩
    · simp [hb, h.locked_iff]
  one b d e hd he := h.one b d e ((mem_update_erase hnodup).mp hd).1 ((mem_update_erase hnodup).mp he).1

end OsCoursework.LockOrder
