import Mathlib

/-!
# The first occurrence of a pattern

A list is cut after the first occurrence. Whoever reads the list from the left finds the place with
a window on what was read last.
-/

namespace OsCoursework.FirstMatch

variable {α : Type*} {pattern pad window l pre post : List α} {a : α}

/-- `pre` ends with the first occurrence, and `post` is what comes after it. -/
structure CutsAfter (pattern l pre post : List α) : Prop where
  whole : pre ++ post = l
  ends : pattern <:+ pre
  first : ∀ before, before ++ pattern <+: l → pre.length ≤ before.length + pattern.length

theorem CutsAfter.append (h : CutsAfter pattern l pre post) (more : List α) :
    CutsAfter pattern (l ++ more) pre (post ++ more) where
  whole := by rw [← List.append_assoc, h.whole]
  ends := h.ends
  first before hbefore := by
    by_contra hlt
    -- An occurrence that ends before `pre` does lies in `l` already.
    have hle : (before ++ pattern).length ≤ l.length := by
      rw [← h.whole, List.length_append, List.length_append]
      omega
    exact hlt (h.first before (List.prefix_of_prefix_length_le hbefore (List.prefix_append l more) hle))

theorem cutsAfter_concat (hnone : ¬ pattern <:+: l) (hends : pattern <:+ l ++ [a]) :
    CutsAfter pattern (l ++ [a]) (l ++ [a]) [] where
  whole := List.append_nil _
  ends := hends
  first before hbefore := by
    by_contra hlt
    have hle : (before ++ pattern).length ≤ l.length := by
      rw [List.length_append, List.length_singleton] at hlt
      rw [List.length_append]
      omega
    have hl := List.prefix_of_prefix_length_le hbefore (List.prefix_append l [a]) hle
    exact hnone ((List.suffix_append before pattern).isInfix.trans hl.isInfix)

/-! ## The window -/

theorem window_concat {b : α} (h : b :: window <:+ pad ++ l) : window ++ [a] <:+ pad ++ (l ++ [a]) := by
  rw [← List.append_assoc]
  have hwindow : window <:+ pad ++ l := (List.suffix_cons b window).trans h
  obtain ⟨before, hbefore⟩ := hwindow
  exact ⟨before, by rw [← List.append_assoc, hbefore]⟩

theorem window_eq_iff (hpad : ∀ x ∈ pad, x ∉ pattern) (h : window <:+ pad ++ l)
    (hlen : window.length = pattern.length) : window = pattern ↔ pattern <:+ l := by
  constructor
  · rintro rfl
    rcases List.suffix_or_suffix_of_suffix h (List.suffix_append pad l) with hsuffix | ⟨x, hx⟩
    · exact hsuffix
    · -- All of `l` is in the window, and nothing before it.
      obtain ⟨y, hy⟩ := h
      rw [← hx, ← List.append_assoc] at hy
      have hpad' : y ++ x = pad := List.append_cancel_right hy
      have hnil : x = [] := by
        rw [List.eq_nil_iff_forall_not_mem]
        intro b hb
        refine hpad b ?_ ?_
        · rw [← hpad']
          exact List.mem_append_right y hb
        · rw [← hx]
          exact List.mem_append_left l hb
      rw [← hx, hnil]
      exact List.suffix_refl l
  · intro hends
    have hpattern : pattern <:+ pad ++ l := hends.trans (List.suffix_append pad l)
    exact (List.suffix_of_suffix_length_le h hpattern hlen.le).eq_of_length hlen

end OsCoursework.FirstMatch
