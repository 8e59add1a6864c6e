import OsCoursework.Malloc.Code

/-!
# The free list in memory

A `Block` is a hole or a block that a client holds: a size field and the bytes
after it. `ListSeg m a l e` reads the blocks `l` off the memory, from the node at
`a` up to the pointer `e`.
-/

open OsCoursework.ByteMem OsCoursework.Fuel

namespace OsCoursework.Malloc

@[simp] theorem wrap_of_lt {n : Nat} (h : n < 2 ^ 64) : wrap n = n := Nat.mod_eq_of_lt h

theorem wrapSub_of_le {a b : Nat} (hb : b ≤ a) (ha : a < 2 ^ 64) : wrapSub a b = a - b := by
  unfold wrapSub
  omega

structure Block where
  addr : Nat
  size : Nat
  deriving DecidableEq

/-- The first address after the block. -/
def Block.stop (b : Block) : Nat := b.addr + 8 + b.size

/-- The size field and the bytes after it. -/
def Block.bytes (b : Block) : Set Nat := Set.Ico b.addr b.stop

/-- The bytes of the block that a hole uses for its two fields. -/
def Block.node (b : Block) : Set Nat := Set.Ico b.addr (b.addr + 16)

theorem Block.node_subset {b : Block} (h : 8 ≤ b.size) : b.node ⊆ b.bytes := by
  intro x hx
  simp only [Block.node, Block.bytes, Block.stop, Set.mem_Ico] at *
  omega

theorem Block.disjoint_iff {b c : Block} :
    Disjoint b.bytes c.bytes ↔ b.stop ≤ c.addr ∨ c.stop ≤ b.addr := by
  rw [Block.bytes, Block.bytes, Set.Ico_disjoint_Ico]
  simp only [Block.stop]
  omega

/-! ## Fields and stores -/

@[simp] theorem sizeOf_setSize (m : Mem) (h v : Nat) : sizeOf (setSize m h v) h = wrap v :=
  load_store_same m h v 8

@[simp] theorem next_setNext (m : Mem) (h v : Nat) : next (setNext m h v) h = wrap v :=
  load_store_same m (h + 8) v 8

@[simp] theorem sizeOf_setNext (m : Mem) (h v : Nat) : sizeOf (setNext m h v) h = sizeOf m h :=
  load_store_ne m (h + 8) v 8 h 8 (Or.inl le_rfl)

theorem next_lt (m : Mem) (h : Nat) : next m h < 2 ^ 64 := load_lt m (h + 8) 8

theorem setSize_sameOutside (m : Mem) (b : Block) (v : Nat) :
    SameOutside b.node m (setSize m b.addr v) := by
  apply (store_sameOutside m b.addr v 8).mono
  exact Set.Ico_subset_Ico_right (by omega)

theorem setNext_sameOutside (m : Mem) (b : Block) (v : Nat) :
    SameOutside b.node m (setNext m b.addr v) := by
  apply (store_sameOutside m (b.addr + 8) v 8).mono
  exact Set.Ico_subset_Ico_left (by omega)

section Frame

variable {m m' : Mem} {w : Set Nat} {b : Block}

theorem sizeOf_frame (h : SameOutside w m m') (hd : Disjoint b.node w) :
    sizeOf m' b.addr = sizeOf m b.addr := by
  apply h.load_eq
  exact hd.mono_left (Set.Ico_subset_Ico_right (by omega))

theorem next_frame (h : SameOutside w m m') (hd : Disjoint b.node w) :
    next m' b.addr = next m b.addr := by
  apply h.load_eq
  exact hd.mono_left (Set.Ico_subset_Ico_left (by omega))

end Frame

/-! ## List segments -/

/-- Following `next` from `a` gives exactly the blocks `l`, and then `e`. -/
def ListSeg (m : Mem) : Nat → List Block → Nat → Prop
  | a, [], e => a = e
  | a, b :: l, e => a = b.addr ∧ a ≠ 0 ∧ sizeOf m a = b.size ∧ ListSeg m (next m a) l e

@[simp] theorem listSeg_nil (m : Mem) (a e : Nat) : ListSeg m a [] e ↔ a = e := Iff.rfl

@[simp] theorem listSeg_cons (m : Mem) (a e : Nat) (b : Block) (l : List Block) :
    ListSeg m a (b :: l) e ↔
      a = b.addr ∧ a ≠ 0 ∧ sizeOf m a = b.size ∧ ListSeg m (next m a) l e := Iff.rfl

theorem listSeg_append {m : Mem} {a e : Nat} {l l' : List Block} :
    ListSeg m a (l ++ l') e ↔ ∃ c, ListSeg m a l c ∧ ListSeg m c l' e := by
  induction l generalizing a with
  | nil => simp
  | cons b l ih =>
    simp only [List.cons_append, listSeg_cons, ih]
    constructor
    · rintro ⟨h1, h2, h3, c, h4, h5⟩
      exact ⟨c, ⟨h1, h2, h3, h4⟩, h5⟩
    · rintro ⟨c, ⟨h1, h2, h3, h4⟩, h5⟩
      exact ⟨h1, h2, h3, c, h4, h5⟩

theorem ListSeg.frame {m m' : Mem} {w : Set Nat} {a e : Nat} {l : List Block}
    (h : ListSeg m a l e) (hw : SameOutside w m m') (hd : ∀ b ∈ l, Disjoint b.node w) :
    ListSeg m' a l e := by
  induction l generalizing a with
  | nil => exact h
  | cons b l ih =>
    obtain ⟨rfl, h0, hs, hn⟩ := h
    have hb := hd b List.mem_cons_self
    refine ⟨rfl, h0, ?_, ?_⟩
    · rw [sizeOf_frame hw hb, hs]
    · rw [next_frame hw hb]
      exact ih hn fun c hc => hd c (List.mem_cons_of_mem _ hc)

/-- The address of the last block, or `d`. -/
def lastAddr : Nat → List Block → Nat
  | d, [] => d
  | _, b :: l => lastAddr b.addr l

@[simp] theorem lastAddr_append_one (d : Nat) (l : List Block) (b : Block) :
    lastAddr d (l ++ [b]) = b.addr := by
  induction l generalizing d with
  | nil => rfl
  | cons c l ih => exact ih c.addr

/-- The pointer that a list segment is reached through: `freeList`, or the
`next` of the last block before it. -/
def setLink (s : State) (pred v : Nat) : State :=
  if pred = 0 then { s with freeList := v } else { s with mem := setNext s.mem pred v }

def bytesOf (l : List Block) : Set Nat := ⋃ b ∈ l, b.bytes

theorem mem_bytesOf {l : List Block} {x : Nat} : x ∈ bytesOf l ↔ ∃ b ∈ l, x ∈ b.bytes := by
  simp [bytesOf]

theorem bytes_subset {l : List Block} {b : Block} (hb : b ∈ l) : b.bytes ⊆ bytesOf l :=
  fun _ hx => mem_bytesOf.mpr ⟨b, hb, hx⟩

def Apart (l : List Block) : Prop := l.Pairwise fun b c => Disjoint b.node c.node

theorem setLink_spec {s : State} {l : List Block} {e v : Nat} (h : ListSeg s.mem s.freeList l e)
    (ha : Apart l) (hv : v < 2 ^ 64) :
    ListSeg (setLink s (lastAddr 0 l) v).mem (setLink s (lastAddr 0 l) v).freeList l v ∧
      SameOutside (⋃ b ∈ l, b.node) s.mem (setLink s (lastAddr 0 l) v).mem := by
  rcases List.eq_nil_or_concat l with rfl | ⟨l, b, rfl⟩
  · exact ⟨rfl, SameOutside.refl _ _⟩
  · rw [List.concat_eq_append] at *
    obtain ⟨c, hl, rfl, hb0, hbs, -⟩ := listSeg_append.mp h
    have hw := setNext_sameOutside s.mem b v
    have hlb : ∀ d ∈ l, Disjoint d.node b.node := fun d hd =>
      (List.pairwise_append.mp ha).2.2 d hd b (by simp)
    rw [lastAddr_append_one, setLink, if_neg hb0]
    refine ⟨listSeg_append.mpr ⟨b.addr, hl.frame hw hlb, rfl, hb0, ?_, ?_⟩, ?_⟩
    · rw [sizeOf_setNext, hbs]
    · rw [listSeg_nil, next_setNext, wrap_of_lt hv]
    · apply hw.mono
      intro x hx
      simp only [Set.mem_iUnion]
      exact ⟨b, by simp, hx⟩

theorem apart_append {l l' : List Block} :
    Apart (l ++ l') ↔ Apart l ∧ Apart l' ∧ ∀ b ∈ l, ∀ c ∈ l', Disjoint b.node c.node :=
  List.pairwise_append

/-- A segment is kept by stores into the nodes of other blocks. -/
theorem ListSeg.frame_nodes {m m' : Mem} {a e : Nat} {l l' : List Block} (h : ListSeg m a l e)
    (hw : SameOutside (⋃ b ∈ l', b.node) m m') (hd : ∀ b ∈ l, ∀ c ∈ l', Disjoint b.node c.node) :
    ListSeg m' a l e := by
  apply h.frame hw
  intro b hb
  simp only [Set.disjoint_iUnion_right]
  exact hd b hb

/-! ## `getBlock` -/

theorem getBlockLoop_pass {s : State} {n : Nat} {l : List Block} {pred curr stop : Nat} {r : Nat × State}
    (h : ListSeg s.mem curr l stop) (hl : ∀ c ∈ l, c.size < n)
    (hstop : Returns (fun k => getBlockLoop n k s (lastAddr pred l) stop) r) :
    Returns (fun k => getBlockLoop n k s pred curr) r := by
  induction l generalizing pred curr with
  | nil =>
    obtain rfl := h
    exact hstop
  | cons c l ih =>
    obtain ⟨rfl, h0, hs, hn⟩ := h
    have hc : ¬ n ≤ c.size := not_le.mpr (hl c List.mem_cons_self)
    apply Returns.of_succ
    simp only [getBlockLoop, if_neg h0, hs, if_neg hc]
    exact ih hn (fun d hd => hl d (List.mem_cons_of_mem _ hd)) hstop

theorem getBlockLoop_found {s : State} {n : Nat} {l r : List Block} {b : Block} {pred curr : Nat}
    (h : ListSeg s.mem curr (l ++ b :: r) 0) (hl : ∀ c ∈ l, c.size < n) (hb : n ≤ b.size) :
    Returns (fun k => getBlockLoop n k s pred curr)
      (b.addr, setLink s (lastAddr pred l) (next s.mem b.addr)) := by
  obtain ⟨_, hfirst, rfl, h0, hs, -⟩ := listSeg_append.mp h
  apply getBlockLoop_pass hfirst hl
  apply Returns.of_succ
  by_cases hp : lastAddr pred l = 0 <;> simp [getBlockLoop, h0, hs, hb, setLink, hp]

theorem getBlockLoop_none {s : State} {n : Nat} {l : List Block} {pred curr : Nat}
    (h : ListSeg s.mem curr l 0) (hl : ∀ c ∈ l, c.size < n) :
    Returns (fun k => getBlockLoop n k s pred curr) (0, s) := by
  apply getBlockLoop_pass h hl
  apply Returns.of_succ
  simp [getBlockLoop]

theorem first_fit (n : Nat) (l : List Block) :
    (∀ c ∈ l, c.size < n) ∨
      ∃ l₁ b l₂, l = l₁ ++ b :: l₂ ∧ (∀ c ∈ l₁, c.size < n) ∧ n ≤ b.size := by
  induction l with
  | nil => simp
  | cons a l ih =>
    by_cases ha : n ≤ a.size
    · exact Or.inr ⟨[], a, l, rfl, by simp, ha⟩
    · rcases ih with h | ⟨l₁, b, l₂, rfl, h, hb⟩
      · left
        simpa [not_le.mp ha] using h
      · right
        exact ⟨a :: l₁, b, l₂, rfl, by simpa [not_le.mp ha] using h, hb⟩

theorem unlink_spec {s : State} {l r : List Block} {b : Block}
    (h : ListSeg s.mem s.freeList (l ++ b :: r) 0) (ha : Apart (l ++ b :: r)) :
    let s' := setLink s (lastAddr 0 l) (next s.mem b.addr)
    ListSeg s'.mem s'.freeList (l ++ r) 0 ∧ SameOutside (⋃ c ∈ l, c.node) s.mem s'.mem := by
  intro s'
  obtain ⟨c, hl, rfl, -, -, hr⟩ := listSeg_append.mp h
  obtain ⟨hal, har, hd⟩ := apart_append.mp ha
  obtain ⟨h1, h2⟩ := setLink_spec hl hal (next_lt s.mem b.addr)
  refine ⟨listSeg_append.mpr ⟨_, h1, ?_⟩, h2⟩
  apply hr.frame_nodes h2
  exact fun c hc d hd' => (hd d hd' c (List.mem_cons_of_mem _ hc)).symm

/-! ## `returnBlock` -/

theorem findPred_spec {m : Mem} {h : Nat} {l r : List Block} {pred node : Nat}
    (hs : ListSeg m node (l ++ r) 0) (hl : ∀ b ∈ l, b.addr < h) (hr : ∀ b ∈ r, h ≤ b.addr) :
    Returns (fun k => findPred m h k pred node) (lastAddr pred l) := by
  induction l generalizing pred node with
  | nil =>
    apply Returns.of_succ
    have hstop : ¬ (node ≠ 0 ∧ node < h) := by
      cases r with
      | nil => simp [listSeg_nil] at hs; simp [hs]
      | cons b r =>
        obtain ⟨rfl, -⟩ := hs
        have := hr b List.mem_cons_self
        omega
    simp [findPred, hstop, lastAddr]
  | cons c l ih =>
    obtain ⟨rfl, h0, -, hn⟩ := hs
    apply Returns.of_succ
    simp only [findPred, if_pos (And.intro h0 (hl c List.mem_cons_self))]
    exact ih hn fun d hd => hl d (List.mem_cons_of_mem _ hd)

theorem split_at (h : Nat) (l : List Block) (hl : l.Pairwise fun b c => b.addr < c.addr) :
    ∃ l₁ l₂, l = l₁ ++ l₂ ∧ (∀ b ∈ l₁, b.addr < h) ∧ ∀ b ∈ l₂, h ≤ b.addr := by
  induction l with
  | nil => exact ⟨[], [], rfl, by simp, by simp⟩
  | cons a l ih =>
    obtain ⟨ha, hl⟩ := List.pairwise_cons.mp hl
    by_cases hah : a.addr < h
    · obtain ⟨l₁, l₂, rfl, h1, h2⟩ := ih hl
      exact ⟨a :: l₁, l₂, rfl, by simpa [hah] using h1, h2⟩
    · refine ⟨[], a :: l, rfl, by simp, ?_⟩
      intro b hb
      rcases List.mem_cons.mp hb with rfl | hb
      · omega
      · have := ha b hb
        omega

theorem link_eq (s : State) (pred h : Nat) :
    link s pred h =
      setLink { s with mem := setNext s.mem h (if pred = 0 then s.freeList else next s.mem pred) } pred h := by
  unfold link setLink
  split_ifs <;> first | rfl | contradiction

theorem ListSeg.end_eq {s : State} {l : List Block} {e : Nat} (h : ListSeg s.mem s.freeList l e) :
    (if lastAddr 0 l = 0 then s.freeList else next s.mem (lastAddr 0 l)) = e := by
  rcases List.eq_nil_or_concat l with rfl | ⟨l, p, rfl⟩
  · exact h
  · rw [List.concat_eq_append] at *
    obtain ⟨d, -, rfl, hp0, -, hn⟩ := listSeg_append.mp h
    rw [lastAddr_append_one, if_neg hp0]
    exact hn

/-- `link` puts a block between the blocks `l` and the blocks `r`. -/
theorem link_spec {s : State} {l r : List Block} {b : Block}
    (h : ListSeg s.mem s.freeList (l ++ r) 0) (ha : Apart (l ++ b :: r)) (hb0 : b.addr ≠ 0)
    (hlt : ∀ c ∈ b :: r, c.addr < 2 ^ 64) (hs : sizeOf s.mem b.addr = b.size) :
    let s' := link s (lastAddr 0 l) b.addr
    ListSeg s'.mem s'.freeList (l ++ b :: r) 0 ∧
      SameOutside (⋃ c ∈ l ++ [b], c.node) s.mem s'.mem := by
  intro s'
  obtain ⟨e, hl, hr⟩ := listSeg_append.mp h
  obtain ⟨hal, har, hd⟩ := apart_append.mp ha
  obtain ⟨hbr, -⟩ := List.pairwise_cons.mp har
  have he : e < 2 ^ 64 := by
    cases r with
    | nil => obtain rfl := hr; norm_num
    | cons c r => obtain ⟨rfl, -⟩ := hr; exact hlt c (by simp)
  -- The new node first gets the pointer to `r`, and then the pointer before it is redirected.
  let s₁ : State := { s with mem := setNext s.mem b.addr e }
  have hs' : s' = setLink s₁ (lastAddr 0 l) b.addr := by
    rw [show s₁ = { s with mem := setNext s.mem b.addr _ } from rfl, ← hl.end_eq]
    exact link_eq s _ _
  have hw₁ : SameOutside b.node s.mem s₁.mem := setNext_sameOutside s.mem b e
  have hl₁ : ListSeg s₁.mem s₁.freeList l e := hl.frame hw₁ fun c hc => hd c hc b (by simp)
  have hr₁ : ListSeg s₁.mem e r 0 := hr.frame hw₁ fun c hc => (hbr c hc).symm
  obtain ⟨h1, h2⟩ := setLink_spec hl₁ hal (hlt b (by simp))
  rw [← hs'] at h1 h2
  have hbr₁ : ListSeg s₁.mem b.addr (b :: r) 0 := by
    refine ⟨rfl, hb0, ?_, ?_⟩
    · exact (sizeOf_setNext s.mem b.addr e).trans hs
    · rw [show next s₁.mem b.addr = e from (next_setNext s.mem b.addr e).trans (wrap_of_lt he)]
      exact hr₁
  refine ⟨listSeg_append.mpr ⟨b.addr, h1, ?_⟩, ?_⟩
  · exact hbr₁.frame_nodes h2 fun c hc d hd' => (hd d hd' c hc).symm
  · intro x hx
    simp only [List.mem_append, List.mem_singleton, Set.mem_iUnion, not_exists] at hx
    rw [h2 x (by simpa using fun c hc => hx c (Or.inl hc)), hw₁ x (hx b (Or.inr rfl))]

/-- The hole that `b` and the hole after it become. -/
def Block.merge (b c : Block) : Block := ⟨b.addr, b.size + (c.size + 8)⟩

theorem absorb_spec {m : Mem} {a : Nat} {l r : List Block} {b c : Block}
    (h : ListSeg m a (l ++ b :: c :: r) 0) (ha : Apart (l ++ b :: c :: r))
    (hlt : b.size + (c.size + 8) < 2 ^ 64) :
    ListSeg (absorb m b.addr c.addr) a (l ++ b.merge c :: r) 0 ∧
      SameOutside b.node m (absorb m b.addr c.addr) := by
  obtain ⟨e, hl, rfl, hb0, hbs, hbn, -, hcs, hr⟩ := listSeg_append.mp h
  obtain ⟨hal, har, hd⟩ := apart_append.mp ha
  obtain ⟨hbr, -⟩ := List.pairwise_cons.mp har
  rw [hbn] at hcs hr
  let m₁ := setSize m b.addr (b.merge c).size
  have hw₁ : SameOutside b.node m m₁ := setSize_sameOutside m b _
  have hnc : next m₁ c.addr = next m c.addr := next_frame hw₁ (hbr c (by simp)).symm
  have habs : absorb m b.addr c.addr = setNext m₁ b.addr (next m c.addr) := by
    rw [absorb, hbs, hcs, wrap_of_lt hlt, ← hnc]
    rfl
  have hw : SameOutside b.node m (absorb m b.addr c.addr) := by
    rw [habs]
    exact hw₁.trans (setNext_sameOutside m₁ b _)
  refine ⟨listSeg_append.mpr ⟨b.addr, ?_, rfl, hb0, ?_, ?_⟩, hw⟩
  · exact hl.frame hw fun d hd' => hd d hd' b (by simp)
  · rw [habs, sizeOf_setNext, sizeOf_setSize]
    exact wrap_of_lt hlt
  · rw [habs, next_setNext, wrap_of_lt (next_lt m c.addr), ← habs]
    exact hr.frame hw fun d hd' => (hbr d (List.mem_cons_of_mem _ hd')).symm

end OsCoursework.Malloc
