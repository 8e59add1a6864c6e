import Mathlib

/-!
# Arrays with bounds

A load or a store outside the array has no meaning.
-/

namespace OsCoursework.Checked

variable {α : Type*} {pre mid post old : List α} {i j k n : Nat} {v w : α}

def load (l : List α) (i : Nat) : Option α := l[i]?

def store (l : List α) (i : Nat) (v : α) : Option (List α) := if i < l.length then some (l.set i v) else none

def swap (l : List α) (i j : Nat) : Option (List α) :=
  (load l i).bind fun temp => (load l j).bind fun v => (store l i v).bind fun l => store l j temp

theorem load_split (hi : i = pre.length) : load (pre ++ v :: post) i = some v := by
  unfold load
  rw [hi, List.getElem?_append_right le_rfl, Nat.sub_self]
  rfl

theorem store_split (hi : i = pre.length) : store (pre ++ v :: post) i w = some (pre ++ w :: post) := by
  unfold store
  rw [if_pos (by simp [hi]), hi, List.set_append_right _ _ le_rfl, Nat.sub_self]
  rfl

theorem swap_split (hi : i = pre.length) (hj : j = pre.length + (mid.length + 1)) :
    swap (pre ++ v :: (mid ++ w :: post)) i j = some (pre ++ w :: (mid ++ v :: post)) := by
  have hsplit : ∀ u, pre ++ u :: (mid ++ w :: post) = (pre ++ u :: mid) ++ w :: post := fun u => by simp
  have hlen : ∀ u, j = (pre ++ u :: mid).length := fun u => by simpa using hj
  unfold swap
  rw [load_split hi, Option.bind_some, hsplit, load_split (hlen v), Option.bind_some, ← hsplit, store_split hi,
    Option.bind_some, hsplit, store_split (hlen w)]
  simp

theorem swap_self (hi : i = pre.length) : swap (pre ++ v :: post) i i = some (pre ++ v :: post) := by
  unfold swap
  rw [load_split hi, Option.bind_some, Option.bind_some, store_split hi, Option.bind_some, store_split hi]

theorem foldlM_store (f : Nat → α) (pre old post : List α) (hk : k = pre.length) (hn : n = old.length) :
    (List.range n).foldlM (fun l d => store l (d + k) (f d)) (pre ++ (old ++ post)) =
      some (pre ++ ((List.range n).map f ++ post)) := by
  induction n generalizing old post with
  | zero =>
    obtain rfl := List.length_eq_zero_iff.mp hn.symm
    rfl
  | succ n ih =>
    rcases List.eq_nil_or_concat old with rfl | ⟨init, t, rfl⟩
    · simp at hn
    · rw [List.concat_eq_append, List.append_assoc, List.range_succ, List.foldlM_append,
        ih init ([t] ++ post) (by simpa using hn)]
      have hplace : n + k = (pre ++ (List.range n).map f).length := by
        simp [hk, Nat.add_comm]
      have hstore : store ((pre ++ (List.range n).map f) ++ t :: post) (n + k) (f n) =
          some ((pre ++ (List.range n).map f) ++ f n :: post) := store_split hplace
      rw [List.append_assoc, List.append_assoc] at hstore
      simp only [Option.bind_eq_bind, Option.bind_some, List.foldlM_cons, List.foldlM_nil, List.singleton_append,
        hstore]
      simp

end OsCoursework.Checked
