import Mathlib

/-!
# Linked lists

The nodes met on the way along `next` from one pointer to another. A way that comes to the
null pointer meets every node once, and there is only one.
-/

namespace OsCoursework.LinkedList

variable {ν : Type*}

/-- From `p` along `next`, over the nodes of the list, to `q`. -/
def Path (next : ν → Option ν) : Option ν → List ν → Option ν → Prop
  | p, [], q => p = q
  | p, a :: l, q => p = some a ∧ Path next (next a) l q

variable {next next' : ν → Option ν} {p q h : Option ν} {l m : List ν} {a b : ν}

@[simp] theorem path_nil : Path next p [] q ↔ p = q := Iff.rfl

@[simp] theorem path_cons : Path next p (a :: l) q ↔ p = some a ∧ Path next (next a) l q := Iff.rfl

theorem path_append : Path next p (l ++ m) q ↔ ∃ r, Path next p l r ∧ Path next r m q := by
  induction l generalizing p with
  | nil => simp
  | cons a l ih => simp [ih, and_assoc]

theorem Path.congr (hp : Path next p l q) (hnext : ∀ a ∈ l, next' a = next a) : Path next' p l q := by
  induction l generalizing p with
  | nil => exact hp
  | cons a l ih =>
    obtain ⟨rfl, hp⟩ := hp
    refine ⟨rfl, ?_⟩
    rw [hnext a List.mem_cons_self]
    exact ih hp fun b hb => hnext b (List.mem_cons_of_mem _ hb)

/-! ## Lists that end -/

theorem Path.unique (hp : Path next p l none) (hp' : Path next p m none) : l = m := by
  induction l generalizing p m with
  | nil =>
    cases m with
    | nil => rfl
    | cons b m => cases hp.symm.trans hp'.1
  | cons a l ih =>
    cases m with
    | nil => cases hp'.symm.trans hp.1
    | cons b m =>
      obtain ⟨rfl, hp⟩ := hp
      obtain ⟨⟨⟩, hp'⟩ := hp'
      rw [ih hp hp']

/-- A way back to where it started, met before the end, would make the list longer than itself. -/
theorem not_path_of_cycle (hp : Path next (next a) l (some a)) : ¬ Path next (some a) m none := by
  intro hm
  cases m with
  | nil => cases hm
  | cons b m =>
    obtain ⟨⟨⟩, hm⟩ := hm
    have hround : Path next (next a) (l ++ a :: m) none := path_append.mpr ⟨some a, hp, rfl, hm⟩
    have heq := congrArg List.length (hround.unique hm)
    simp at heq
    omega

theorem Path.nodup (hp : Path next p l none) : l.Nodup := by
  induction l generalizing p with
  | nil => exact List.nodup_nil
  | cons a l ih =>
    obtain ⟨rfl, hp⟩ := hp
    refine List.nodup_cons.mpr ⟨fun hmem => ?_, ih hp⟩
    obtain ⟨l₁, l₂, rfl⟩ := List.append_of_mem hmem
    obtain ⟨r, hfirst, hr, -⟩ := path_append.mp hp
    subst hr
    exact not_path_of_cycle hfirst (path_cons.mpr ⟨rfl, hp⟩)

/-! ## Edits -/

variable [DecidableEq ν]

theorem Path.update (hp : Path next p l q) (ha : a ∉ l) (r : Option ν) : Path (Function.update next a r) p l q := by
  refine hp.congr fun b hb => Function.update_of_ne ?_ _ _
  rintro rfl
  exact ha hb

theorem Path.push (hp : Path next p l q) (ha : a ∉ l) : Path (Function.update next a p) (some a) (a :: l) q := by
  refine ⟨rfl, ?_⟩
  rw [Function.update_self]
  exact hp.update ha p

theorem Path.unlink (hp : Path next p (l ++ a :: b :: m) q) (hnodup : (l ++ a :: b :: m).Nodup) :
    Path (Function.update next a (next b)) p (l ++ a :: m) q := by
  obtain ⟨r, hl, hr, hb, hm⟩ := path_append.mp hp
  obtain ⟨-, htail, hdisjoint⟩ := List.nodup_append.mp hnodup
  have hal : a ∉ l := fun hmem => hdisjoint a hmem a List.mem_cons_self rfl
  have ham : a ∉ m := fun hmem => (List.nodup_cons.mp htail).1 (List.mem_cons_of_mem _ hmem)
  refine path_append.mpr ⟨r, hl.update hal _, hr, ?_⟩
  rw [Function.update_self]
  exact hm.update ham _

theorem Path.redirect (hp : Path next p (l ++ [a]) q) (ha : a ∉ l) (r : Option ν) :
    Path (Function.update next a r) p (l ++ [a]) r := by
  obtain ⟨r', hl, hr', -⟩ := path_append.mp hp
  refine path_append.mpr ⟨r', hl.update ha r, hr', ?_⟩
  rw [Function.update_self]
  rfl

theorem Path.snoc (hp : Path next p (l ++ [a]) none) (hb : b ∉ l ++ [a]) :
    Path (Function.update (Function.update next a (some b)) b none) p (l ++ [a] ++ [b]) none := by
  have hal : a ∉ l := fun hmem => (List.nodup_append.mp hp.nodup).2.2 a hmem a List.mem_cons_self rfl
  refine path_append.mpr ⟨some b, (hp.redirect hal (some b)).update hb none, rfl, ?_⟩
  rw [Function.update_self]
  rfl

theorem Path.relink (hp : Path next p l none) (ha : a ∈ l) : ¬ Path (Function.update next a p) (some a) m none := by
  obtain ⟨l₁, l₂, rfl⟩ := List.append_of_mem ha
  have hnodup := hp.nodup
  obtain ⟨r, hfirst, hr, -⟩ := path_append.mp hp
  subst hr
  have hal : a ∉ l₁ := by
    intro hmem
    exact (List.nodup_append.mp hnodup).2.2 a hmem a List.mem_cons_self rfl
  refine not_path_of_cycle (l := l₁) ?_
  rw [Function.update_self]
  exact hfirst.update hal p

end OsCoursework.LinkedList
