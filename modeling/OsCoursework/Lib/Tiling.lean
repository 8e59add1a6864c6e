import Mathlib

/-!
# Tilings

`Tiles f l c` says that the pieces `f i` of the list `l` are pairwise disjoint
and that together they are exactly `c`. The order of the list does not matter,
and a piece can be cut in two, two pieces glued into one, or a new piece laid
next to the others.
-/

namespace OsCoursework.Tiling

variable {ι α : Type*} {f : ι → Set α} {i j k : ι} {l l' : List ι} {c : Set α}

/-- The pieces are pairwise disjoint and cover exactly `c`. -/
structure Tiles (f : ι → Set α) (l : List ι) (c : Set α) : Prop where
  disjoint : l.Pairwise fun i j => Disjoint (f i) (f j)
  cover : ⋃ i ∈ l, f i = c

theorem Tiles.nil : Tiles f [] ∅ := ⟨List.Pairwise.nil, by simp⟩

theorem Tiles.mem_iff (h : Tiles f l c) (x : α) : x ∈ c ↔ ∃ i ∈ l, x ∈ f i := by
  rw [← h.cover]
  simp

theorem Tiles.subset (h : Tiles f l c) (hi : i ∈ l) : f i ⊆ c :=
  fun x hx => (h.mem_iff x).mpr ⟨i, hi, hx⟩

theorem Tiles.perm (h : Tiles f l c) (hp : l.Perm l') : Tiles f l' c := by
  refine ⟨(hp.pairwise_iff fun hd => hd.symm).mp h.disjoint, ?_⟩
  rw [← h.cover]
  ext x
  simp [hp.mem_iff]

theorem Tiles.head_disjoint (h : Tiles f (i :: l) c) : ∀ j ∈ l, Disjoint (f i) (f j) :=
  (List.pairwise_cons.mp h.disjoint).1

theorem Tiles.append_disjoint (h : Tiles f (l ++ l') c) (hi : i ∈ l) (hj : j ∈ l') :
    Disjoint (f i) (f j) :=
  (List.pairwise_append.mp h.disjoint).2.2 i hi j hj

theorem Tiles.disjoint_of_ne (h : Tiles f l c) (hi : i ∈ l) (hj : j ∈ l) (hne : i ≠ j) :
    Disjoint (f i) (f j) := by
  have : Std.Symm fun i j => Disjoint (f i) (f j) := ⟨fun _ _ hd => hd.symm⟩
  exact h.disjoint.forall hi hj hne

theorem Tiles.insert (h : Tiles f l c) (hd : Disjoint (f i) c) : Tiles f (i :: l) (f i ∪ c) := by
  refine ⟨List.pairwise_cons.mpr ⟨fun j hj => hd.mono_right (h.subset hj), h.disjoint⟩, ?_⟩
  rw [← h.cover]
  ext x
  simp

/-- One piece cut in two, or two pieces glued into one. -/
theorem tiles_cut (hu : f i = f j ∪ f k) (hd : Disjoint (f j) (f k)) :
    Tiles f (i :: l) c ↔ Tiles f (j :: k :: l) c := by
  have hcover : (⋃ a ∈ i :: l, f a) = ⋃ a ∈ j :: k :: l, f a := by
    ext x
    simp [hu, or_assoc]
  have hpair : (i :: l).Pairwise (fun a b => Disjoint (f a) (f b)) ↔
      (j :: k :: l).Pairwise fun a b => Disjoint (f a) (f b) := by
    simp only [List.pairwise_cons, List.mem_cons, forall_eq_or_imp, hu, Set.disjoint_union_left]
    constructor
    · rintro ⟨h, hl⟩
      exact ⟨⟨hd, fun a ha => (h a ha).1⟩, fun a ha => (h a ha).2, hl⟩
    · rintro ⟨⟨_, hj⟩, hk, hl⟩
      exact ⟨fun a ha => ⟨hj a ha, hk a ha⟩, hl⟩
  constructor
  · rintro ⟨h1, h2⟩
    exact ⟨hpair.mp h1, hcover ▸ h2⟩
  · rintro ⟨h1, h2⟩
    exact ⟨hpair.mpr h1, hcover ▸ h2⟩

end OsCoursework.Tiling
