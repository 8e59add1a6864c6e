import Mathlib

/-!
# A stack that forgets its oldest items

At most `d` items fit. A push onto a full stack drops the item at the bottom.
-/

namespace OsCoursework

universe u

structure BoundedStack (α : Type u) (d : Nat) where
  items : List α
  bound : items.length ≤ d

namespace BoundedStack

variable {α : Type u} {d : Nat}

@[ext] theorem ext {s t : BoundedStack α d} (h : s.items = t.items) : s = t := by
  cases s
  cases t
  congr

def empty : BoundedStack α d := ⟨[], Nat.zero_le d⟩

def height (s : BoundedStack α d) : Nat := s.items.length

def push (s : BoundedStack α d) (a : α) : BoundedStack α d :=
  ⟨(a :: s.items).take d, List.length_take_le _ _⟩

def pop (s : BoundedStack α d) : Option (α × BoundedStack α d) :=
  match s with
  | ⟨[], _⟩ => none
  | ⟨a :: rest, h⟩ => some (a, ⟨rest, Nat.le_of_succ_le h⟩)

/-- The newest `k` of `d` slots, which hold the newest item first. -/
def ofSlots (slots : List α) (h : slots.length ≤ d) (k : Nat) : BoundedStack α d :=
  ⟨slots.take k, (List.length_take_le' k slots).trans h⟩

@[simp] theorem ofSlots_zero (slots : List α) (h : slots.length ≤ d) : ofSlots slots h 0 = empty := rfl

theorem pop_eq_none_iff (s : BoundedStack α d) : s.pop = none ↔ s.height = 0 := by
  obtain ⟨items, h⟩ := s
  cases items <;> simp [pop, height]

theorem pop_eq_some_iff {s t : BoundedStack α d} {a : α} :
    s.pop = some (a, t) ↔ s.items = a :: t.items := by
  obtain ⟨items, h⟩ := s
  cases items with
  | nil => simp [pop]
  | cons b rest =>
    simp only [pop, Option.some.injEq, Prod.mk.injEq, List.cons.injEq]
    refine and_congr_right fun _ => ⟨fun h => h ▸ rfl, fun h => ?_⟩
    ext1
    exact h

theorem items_foldl_push (l : List α) (s : BoundedStack α d) :
    (l.foldl push s).items = (l.reverse ++ s.items).take d := by
  induction l generalizing s with
  | nil =>
    rw [List.foldl_nil, List.reverse_nil, List.nil_append]
    exact (List.take_of_length_le s.bound).symm
  | cons a l ih =>
    rw [List.foldl_cons, ih, List.reverse_cons, List.append_assoc, List.singleton_append, List.take_append,
      List.take_append]
    congr 1
    simp only [push]
    rw [List.take_take, min_eq_left (Nat.sub_le _ _)]

end BoundedStack

end OsCoursework
