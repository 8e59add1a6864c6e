import Mathlib

/-!
# Walks along a relation

Where only finitely many points lead on, every walk from a point ends exactly when
no cycle can be reached from it.
-/

open Relation

namespace OsCoursework.Cycle

variable {α : Type*} {r : α → α → Prop} {a b : α}

/-- No walk along `r` from `a` goes on forever. -/
def WalksEnd (r : α → α → Prop) (a : α) : Prop := Acc (fun y x => r x y) a

def ReachesCycle (r : α → α → Prop) (a : α) : Prop := ∃ b, ReflTransGen r a b ∧ TransGen r b b

theorem WalksEnd.step (h : WalksEnd r a) (hab : r a b) : WalksEnd r b := h.inv hab

theorem WalksEnd.reach (h : WalksEnd r a) (hab : ReflTransGen r a b) : WalksEnd r b := by
  induction hab with
  | refl => exact h
  | tail _ hbc ih => exact ih.step hbc

theorem WalksEnd.irrefl (h : WalksEnd r a) : ¬ TransGen r a a := by
  induction h with
  | intro a _ ih =>
    intro hcycle
    obtain ⟨b, hab, hba⟩ := TransGen.head'_iff.mp hcycle
    exact ih b hab (TransGen.tail' hba hab)

theorem WalksEnd.not_reachesCycle (h : WalksEnd r a) : ¬ ReachesCycle r a := by
  rintro ⟨b, hab, hcycle⟩
  exact (h.reach hab).irrefl hcycle

theorem reflTransGen_of_le {f : Nat → α} (hf : ∀ n, r (f n) (f (n + 1))) {i j : Nat} (hij : i ≤ j) :
    ReflTransGen r (f i) (f j) := by
  induction j, hij using Nat.le_induction with
  | base => exact .refl
  | succ j _ ih => exact ih.tail (hf j)

/-- A walk that never ends comes to some point twice. -/
theorem walksEnd_of_not_reachesCycle (hfin : {x | ∃ y, r x y}.Finite) (h : ¬ ReachesCycle r a) : WalksEnd r a := by
  by_contra hacc
  obtain ⟨f, rfl, hf⟩ := not_acc_iff_exists_descending_chain.mp hacc
  have hmem : ∀ n, f n ∈ {x | ∃ y, r x y} := fun n => ⟨f (n + 1), hf n⟩
  obtain ⟨i, j, hlt, heq⟩ := hfin.exists_lt_map_eq_of_forall_mem hmem
  refine h ⟨f i, reflTransGen_of_le hf (Nat.zero_le i), ?_⟩
  have hcycle : TransGen r (f i) (f j) := TransGen.head' (hf i) (reflTransGen_of_le hf hlt)
  rwa [← heq] at hcycle

end OsCoursework.Cycle
