import OsCoursework.Malloc.Heap

/-!
# `malloc`, `free`, `calloc` and `realloc` keep the heap

One specification for each function: it returns, its result is a heap again, and
the bytes of the blocks that it was not given are as before.
-/

open OsCoursework.ByteMem OsCoursework.Fuel OsCoursework.Tiling

namespace OsCoursework.Malloc

/-- A positive `long`, as `sysconf` returns it, and a multiple of `sizeof(Hole)`. -/
structure PageSize where
  bytes : Nat
  pos : 0 < bytes
  aligned : 16 ∣ bytes
  lt : bytes < 2 ^ 63

/-- What `mmap` promises of a region: page-aligned, not at `NULL`, inside the address
space, and apart from every region it has returned. -/
structure FreshRegion (ps : PageSize) (s : State) (a len : Nat) : Prop where
  aligned : ps.bytes ∣ a
  nonnull : 0 < a
  bound : a + len ≤ 2 ^ 64
  fresh : Disjoint (Set.Ico a (a + len)) s.mappedBytes

def Honest (ps : PageSize) (s : State) (mmap : Mmap) : Prop :=
  ∀ hint len a, mmap hint len = some a → FreshRegion ps s a len

def Keeps (l : List Block) (s s' : State) : Prop := ∀ x ∈ bytesOf l, s'.mem x = s.mem x

theorem Keeps.trans {l : List Block} {s s' s'' : State} (h : Keeps l s s') (h' : Keeps l s' s'') :
    Keeps l s s'' := fun x hx => (h' x hx).trans (h x hx)

theorem Keeps.tail {l : List Block} {b : Block} {s s' : State} (h : Keeps (b :: l) s s') :
    Keeps l s s' := by
  intro x hx
  obtain ⟨c, hc, hx⟩ := mem_bytesOf.mp hx
  exact h x (bytes_subset (List.mem_cons_of_mem _ hc) hx)

theorem SameOutside.keeps {w : Set Nat} {s s' : State} {l : List Block}
    (h : SameOutside w s.mem s'.mem) (hd : ∀ b ∈ l, Disjoint b.bytes w) : Keeps l s s' := by
  intro x hx
  obtain ⟨b, hb, hx⟩ := mem_bytesOf.mp hx
  exact h x (Set.disjoint_left.mp (hd b hb) hx)

theorem Heap.keeps {s s' : State} {holes used : List Block} {b : Block} (H : Heap s holes (b :: used))
    (he : Edits (bytesOf (b :: holes)) s s') : Keeps used s s' := by
  apply SameOutside.keeps he.mem
  intro c hc
  simp only [bytesOf, Set.disjoint_iUnion_right]
  intro d hd
  rcases List.mem_cons.mp hd with rfl | hd
  · exact ((H.tiles.perm List.perm_middle).head_disjoint c (by simp [hc])).symm
  · exact (H.tiles.append_disjoint hd (List.mem_cons_of_mem _ hc)).symm

/-! ## Sizes -/

section Sizes

variable {size : Nat}

theorem roundSize_eq (h : size ≤ 2 ^ 64 - 8) : roundSize size = (max size 8 + 3) / 4 * 4 := by
  simp only [roundSize, wrap]
  split <;> omega

theorem le_roundSize (h : size ≤ 2 ^ 64 - 8) : size ≤ roundSize size ∧ 8 ≤ roundSize size := by
  rw [roundSize_eq h]
  omega

theorem roundSize_le {limit : Nat} (h : size ≤ limit) (h8 : 8 ≤ limit) (h4 : 4 ∣ limit)
    (hlimit : limit ≤ 2 ^ 64 - 8) : roundSize size ≤ limit := by
  obtain ⟨k, rfl⟩ := h4
  rw [roundSize_eq (h.trans hlimit)]
  omega

theorem mmapLength_eq (ps : PageSize) (size : Nat) :
    mmapLength ps.bytes size = (size + 8 + ps.bytes - 1) % 2 ^ 64 / ps.bytes * ps.bytes := by
  have hp := ps.lt
  have hpos := ps.pos
  have hw : wrapSub (wrap (wrap (size + 8) + ps.bytes)) 1 = (size + 8 + ps.bytes - 1) % 2 ^ 64 := by
    unfold wrapSub wrap
    omega
  have hle : (size + 8 + ps.bytes - 1) % 2 ^ 64 / ps.bytes * ps.bytes ≤ (size + 8 + ps.bytes - 1) % 2 ^ 64 :=
    Nat.div_mul_le_self _ _
  rw [mmapLength, hw]
  exact wrap_of_lt (by omega)

theorem mmapLength_spec (ps : PageSize) (h : size ≤ 2 ^ 64 - 8) :
    mmapLength ps.bytes size < 2 ^ 64 ∧ (mmapLength ps.bytes size = 0 ∨ size + 8 ≤ mmapLength ps.bytes size) := by
  rw [mmapLength_eq]
  have hpos := ps.pos
  have hmod := Nat.mod_add_div ((size + 8 + ps.bytes - 1) % 2 ^ 64) ps.bytes
  have hlt := Nat.mod_lt ((size + 8 + ps.bytes - 1) % 2 ^ 64) hpos
  rw [mul_comm] at hmod
  refine ⟨by omega, ?_⟩
  by_cases hfits : size + 8 + ps.bytes - 1 < 2 ^ 64
  · rw [Nat.mod_eq_of_lt hfits] at *
    exact Or.inr (by omega)
  · have hp := ps.lt
    have hsmall : (size + 8 + ps.bytes - 1) % 2 ^ 64 < ps.bytes := by omega
    rw [Nat.div_eq_of_lt hsmall, Nat.zero_mul]
    exact Or.inl rfl

theorem mmapLength_pos (ps : PageSize) (h : size ≤ 2 ^ 63) : 0 < mmapLength ps.bytes size := by
  rw [mmapLength_eq]
  have hp := ps.lt
  have hpos := ps.pos
  obtain ⟨k, hk⟩ := ps.aligned
  have hfits : size + 8 + ps.bytes - 1 < 2 ^ 64 := by omega
  rw [Nat.mod_eq_of_lt hfits]
  exact Nat.mul_pos (Nat.div_pos (by omega) hpos) hpos

end Sizes

/-! ## Where a block comes from -/

/-- The bytes of the size field. -/
def Block.header (b : Block) : Set Nat := Set.Ico b.addr (b.addr + 8)

theorem Block.header_subset (b : Block) : b.header ⊆ b.bytes :=
  Set.Ico_subset_Ico_right (by unfold Block.stop; omega)

/-- The bytes of a block that its owner may use. -/
def Block.data (b : Block) : Set Nat := Set.Ico (b.addr + 8) b.stop

theorem Block.data_subset (b : Block) : b.data ⊆ b.bytes := Set.Ico_subset_Ico_left (by omega)

theorem Block.data_disjoint_header (b : Block) : Disjoint b.data b.header := by
  unfold Block.data Block.header
  rw [Set.Ico_disjoint_Ico]
  omega

/-- The block in a region that the OS gives. -/
def region (psize : Nat) (mmap : Mmap) (s : State) (n : Nat) : Option Block :=
  (mmap s.nextBlock (mmapLength psize n)).map fun a => ⟨a, mmapLength psize n - 8⟩

/-- Where `n` bytes come from: the first hole that is large enough, or a new region. -/
def source (psize : Nat) (mmap : Mmap) (s : State) (holes : List Block) (n : Nat) : Option Block :=
  (holes.find? fun c => n ≤ c.size).or (region psize mmap s n)

/-- `n` bytes of the block if a hole fits behind them, or else the whole block. -/
def Block.cut (b : Block) (n : Nat) : Block := ⟨b.addr, if n + 16 ≤ b.size then n else b.size⟩

theorem Block.cut_data_subset (b : Block) (n : Nat) : (b.cut n).data ⊆ b.data := by
  apply Set.Ico_subset_Ico_right
  unfold Block.cut Block.stop
  dsimp only
  split_ifs <;> omega

/-- The block that a request gets. -/
def served (psize : Nat) (mmap : Mmap) (s : State) (holes : List Block) (size : Nat) : Option Block :=
  (source psize mmap s holes (roundSize size)).map fun b => b.cut (roundSize size)

/-! ## The parts of `malloc` -/

/-- **`getBlock`** finds nothing, or turns a large enough hole into a used block. -/
theorem getBlock_spec {s : State} {holes used : List Block} (H : Heap s holes used) (n : Nat) :
    (Returns (fun k => getBlock k s n) (0, s) ∧ ∀ c ∈ holes, c.size < n) ∨
      ∃ b s' holes', Returns (fun k => getBlock k s n) (b.addr, s') ∧ n ≤ b.size ∧
        holes.Perm (b :: holes') ∧ Heap s' holes' (b :: used) ∧ Edits (bytesOf holes') s s' ∧
        holes.find? (fun c => n ≤ c.size) = some b := by
  rcases first_fit n holes with hsmall | ⟨l, b, r, rfl, hl, hb⟩
  · exact Or.inl ⟨getBlockLoop_none H.chain hsmall, hsmall⟩
  · right
    have hbs : sizeOf s.mem b.addr = b.size := by
      obtain ⟨e, -, rfl, -, hs, -⟩ := listSeg_append.mp H.chain
      exact hs
    have hfound : Returns (fun k => getBlockLoop n k s 0 s.freeList)
        (b.addr, setLink s (lastAddr 0 l) (next s.mem b.addr)) := getBlockLoop_found H.chain hl hb
    obtain ⟨hc, hw⟩ := unlink_spec H.chain H.apart
    have hmap : (setLink s (lastAddr 0 l) (next s.mem b.addr)).mapped = s.mapped := by
      unfold setLink
      split <;> rfl
    generalize setLink s (lastAddr 0 l) (next s.mem b.addr) = s' at hfound hc hw hmap
    have hperm : (l ++ b :: r).Perm (b :: (l ++ r)) := List.perm_middle
    have hpermu : (l ++ b :: r ++ used).Perm (l ++ r ++ b :: used) := by
      simp only [List.append_assoc, List.cons_append]
      exact List.perm_middle.symm.append_left l
    have hok : ∀ x ∈ l ++ r ++ b :: used, x.Ok := fun x hx => H.ok x (hpermu.mem_iff.mpr hx)
    have ht := H.tiles.perm hpermu
    -- Only the nodes before `b` were written.
    have hwl : SameOutside (bytesOf l) s.mem s'.mem := hw.mono <| nodes_subset fun c hc =>
      ⟨hok c (by simp [hc]), bytes_subset hc⟩
    refine ⟨b, s', l ++ r, hfound, hb, hperm, ⟨hc, ?_, ?_, hok, ?_⟩, ⟨?_, hmap⟩, ?_⟩
    · exact H.gapped.sublist (List.Sublist.append_left (List.sublist_cons_self b r) l)
    · apply header_frame hwl
      · intro x hx
        rcases List.mem_cons.mp hx with rfl | hx
        · exact hbs
        · exact H.header x hx
      · intro x hx
        refine ⟨hok x (List.mem_append_right _ hx), ?_⟩
        simp only [bytesOf, Set.disjoint_iUnion_right]
        exact fun c hc => (ht.append_disjoint (List.mem_append_left _ hc) hx).symm
    · rwa [State.mappedBytes, hmap]
    · apply hwl.mono
      intro x hx
      obtain ⟨c, hc, hx⟩ := mem_bytesOf.mp hx
      exact bytes_subset (List.mem_append_left _ hc) hx
    · refine List.find?_eq_some_iff_append.mpr ⟨by simpa using hb, l, r, rfl, ?_⟩
      intro c hc
      simpa using hl c hc

/-- **`growHeap`** adds a used block that is a whole mapped region. -/
theorem growHeap_spec {ps : PageSize} {mmap : Mmap} {s s' : State} {holes used : List Block}
    {size h : Nat} (H : Heap s holes used) (hm : Honest ps s mmap) (hs : size ≤ 2 ^ 64 - 8)
    (h8 : 8 ≤ size) (hempty : mmapLength ps.bytes size = 0 → mmap s.nextBlock 0 = none)
    (hg : growHeap ps.bytes mmap s size = some (h, s')) :
    ∃ b : Block, h = b.addr ∧ size ≤ b.size ∧ 16 ≤ b.addr ∧ Heap s' holes (b :: used) ∧
      SameOutside b.header s.mem s'.mem ∧ Disjoint b.bytes s.mappedBytes ∧
      region ps.bytes mmap s size = some b := by
  obtain ⟨hlt, hlen⟩ := mmapLength_spec ps hs
  unfold growHeap at hg
  unfold region
  generalize mmapLength ps.bytes size = req at hg hempty hlen hlt ⊢
  obtain ⟨a, ha, heq⟩ := Option.map_eq_some_iff.mp hg
  obtain ⟨rfl, rfl⟩ := Prod.mk.inj heq
  have hreq : req ≠ 0 := by
    rintro rfl
    rw [hempty rfl] at ha
    cases ha
  have hlen := hlen.resolve_left hreq
  obtain ⟨hpage, h0, hb, hf⟩ := hm _ _ _ ha
  have h16 : 16 ≤ a := Nat.le_of_dvd h0 (ps.aligned.trans hpage)
  let b : Block := ⟨a, req - 8⟩
  have hbytes : b.bytes = Set.Ico a (a + req) := by
    simp only [Block.bytes, Block.stop, b]
    congr 1
    omega
  have hbok : b.Ok := ⟨by simp only [b]; omega, h0, by simp only [Block.stop, b]; omega⟩
  have hheader : SameOutside b.header s.mem (setSize s.mem a (wrapSub req 8)) := store_sameOutside s.mem a _ 8
  have hw := hheader.mono b.header_subset
  have hd : Disjoint b.bytes s.mappedBytes := hbytes ▸ hf
  refine ⟨b, rfl, by simp only [b]; omega, h16, ⟨?_, H.gapped, ?_, ?_, ?_⟩, hheader, hd, by rw [ha]; rfl⟩
  · apply H.chain.frame hw
    intro c hc
    have hcm : c.bytes ⊆ s.mappedBytes := H.tiles.subset (List.mem_append_left _ hc)
    exact (hd.mono_right hcm).symm.mono_left (Block.node_subset (H.ok c (by simp [hc])).size)
  · intro x hx
    rcases List.mem_cons.mp hx with rfl | hx
    · rw [wrapSub_of_le (by omega) hlt]
      exact (sizeOf_setSize s.mem a _).trans (wrap_of_lt (by omega))
    · refine header_frame hw H.header (fun c hc => ⟨H.ok c (by simp [hc]), ?_⟩) x hx
      exact (hd.mono_right (H.tiles.subset (List.mem_append_right _ hc))).symm
  · intro x hx
    simp only [List.mem_append, List.mem_cons] at hx
    rcases hx with hx | rfl | hx
    · exact H.ok x (by simp [hx])
    · exact hbok
    · exact H.ok x (by simp [hx])
  · have hnew : State.mappedBytes { s with mapped := (a, req) :: s.mapped } = b.bytes ∪ s.mappedBytes := by
      ext x
      simp [State.mappedBytes, hbytes]
    exact (hnew ▸ H.tiles.insert hd).perm List.perm_middle.symm

theorem Heap.outside {s : State} {holes used : List Block} {b : Block} {m : Mem} (H : Heap s holes (b :: used))
    (hw : SameOutside b.bytes s.mem m) :
    ListSeg m s.freeList holes 0 ∧ ∀ c ∈ used, sizeOf m c.addr = c.size := by
  have ht := H.tiles.perm List.perm_middle
  have hdis : ∀ c ∈ holes ++ used, Disjoint c.bytes b.bytes := fun c hc => (ht.head_disjoint c hc).symm
  constructor
  · apply H.chain.frame hw
    intro c hc
    exact (hdis c (by simp [hc])).mono_left (Block.node_subset (H.ok c (by simp [hc])).size)
  · apply header_frame hw fun c hc => H.header c (List.mem_cons_of_mem _ hc)
    intro c hc
    exact ⟨H.ok c (by simp [hc]), hdis c (by simp [hc])⟩

theorem cut_spec {s : State} {holes used : List Block} {b : Block} {n : Nat}
    (H : Heap s holes (b :: used)) (h8 : 8 ≤ n) (hn : n + 16 ≤ b.size) :
    let h2 : Block := ⟨b.addr + 8 + n, b.size - n - 8⟩
    let s' : State := { s with mem := setSize (setSize s.mem h2.addr h2.size) b.addr n }
    Heap s' holes (h2 :: ⟨b.addr, n⟩ :: used) ∧ SameOutside b.bytes s.mem s'.mem ∧
      ∀ x ∈ Block.data ⟨b.addr, n⟩, s'.mem x = s.mem x := by
  intro h2 s'
  let b' : Block := ⟨b.addr, n⟩
  have hb := H.ok b (by simp)
  have hstop := hb.stop
  have hb' : b'.Ok := ⟨h8, hb.addr, by simp only [Block.stop, b'] at *; omega⟩
  have hh2 : h2.Ok := by
    refine ⟨?_, ?_, ?_⟩ <;> simp only [Block.stop, h2] at * <;> omega
  have hd : Disjoint b'.bytes h2.bytes := Block.disjoint_iff.mpr (Or.inl le_rfl)
  have hu : b.bytes = b'.bytes ∪ h2.bytes := by
    ext x
    simp only [Block.bytes, Block.stop, Set.mem_union, Set.mem_Ico, b', h2]
    omega
  have hw₁ : SameOutside h2.bytes s.mem (setSize s.mem h2.addr h2.size) :=
    (setSize_sameOutside s.mem h2 _).mono (Block.node_subset hh2.size)
  have hw₂ : SameOutside b'.node (setSize s.mem h2.addr h2.size) s'.mem := setSize_sameOutside _ b' _
  have hw : SameOutside b.bytes s.mem s'.mem := by
    rw [hu]
    exact (hw₁.mono Set.subset_union_right).trans
      (hw₂.mono ((Block.node_subset hb'.size).trans Set.subset_union_left))
  -- `b` in front of the list, then its two parts.
  have hpb : (holes ++ b :: used).Perm (b :: (holes ++ used)) := List.perm_middle
  have hp2 : (b' :: h2 :: (holes ++ used)).Perm (holes ++ h2 :: b' :: used) :=
    ((List.Perm.swap _ _ _).trans (List.perm_middle.symm.cons h2)).trans List.perm_middle.symm
  have ht := H.tiles.perm hpb
  obtain ⟨hchain, hheader⟩ := H.outside hw
  have hdata : ∀ x ∈ b'.data, s'.mem x = s.mem x := by
    intro x hx
    have hx₂ : x ∉ b'.header := Set.disjoint_left.mp b'.data_disjoint_header hx
    exact (store_sameOutside _ b'.addr n 8 x hx₂).trans (hw₁ x (Set.disjoint_left.mp hd (b'.data_subset hx)))
  refine ⟨⟨hchain, H.gapped, ?_, ?_, ?_⟩, hw, hdata⟩
  · intro x hx
    simp only [List.mem_cons] at hx
    rcases hx with rfl | rfl | hx
    · rw [sizeOf_frame hw₂ (hd.symm.mono (Block.node_subset hh2.size) (Block.node_subset hb'.size)),
        sizeOf_setSize]
      exact wrap_of_lt (by simp only [Block.stop, h2] at *; omega)
    · exact (sizeOf_setSize _ _ _).trans (wrap_of_lt (by simp only [Block.stop] at *; omega))
    · exact hheader x hx
  · intro x hx
    simp only [List.mem_append, List.mem_cons] at hx
    rcases hx with hx | rfl | rfl | hx
    · exact H.ok x (by simp [hx])
    · exact hh2
    · exact hb'
    · exact H.ok x (by simp [hx])
  · exact ((tiles_cut hu hd).mp ht).perm hp2

/-- **`split`** keeps a large enough part of the used block and returns the rest to the list. -/
theorem split_spec {s : State} {holes used : List Block} {b : Block} {n : Nat}
    (H : Heap s holes (b :: used)) (h8 : 8 ≤ n) (h16 : n + 16 < 2 ^ 64) (hn : n ≤ b.size) :
    ∃ s' holes', Returns (fun k => split k s b.addr n) (b.addr + 8, s') ∧ n ≤ (b.cut n).size ∧
      Heap s' holes' (b.cut n :: used) ∧ Edits (bytesOf (b :: holes)) s s' ∧
      ∀ x ∈ (b.cut n).data, s'.mem x = s.mem x := by
  have hb := H.ok b (by simp)
  have hmem := hb.memOf_eq
  have hstop := hb.stop
  have hsize := H.header b (by simp)
  simp only [Block.stop] at hstop
  have hwrap : wrap (n + 16) = n + 16 := wrap_of_lt h16
  unfold Block.cut
  by_cases hcut : n + 16 ≤ b.size
  · rw [if_pos hcut]
    obtain ⟨Hc, hw, hdata⟩ := cut_spec H h8 hcut
    obtain ⟨s', holes', hr, H', he⟩ := returnBlock_spec Hc
    have h2 : wrap (b.addr + 8 + n) = b.addr + 8 + n := wrap_of_lt (by omega)
    have hs2 : wrapSub (wrapSub b.size n) 8 = b.size - n - 8 := by
      rw [wrapSub_of_le (by omega : n ≤ b.size) (by omega), wrapSub_of_le (by omega) (by omega)]
    refine ⟨s', holes', ?_, le_rfl, H', ⟨?_, he.mapped⟩, ?_⟩
    · obtain ⟨k, hk⟩ := hr
      refine ⟨k, fun j hj => ?_⟩
      simp only [split, hwrap, hsize, if_pos hcut, hmem, h2, hs2]
      exact congrArg (Option.map fun s => (b.addr + 8, s)) (hk j hj)
    · apply (hw.mono (bytes_subset (by simp))).trans
      apply he.mem.mono
      intro x hx
      simp only [mem_bytesOf, List.mem_cons, exists_eq_or_imp] at hx ⊢
      rcases hx with hx | hx
      · left
        simp only [Block.bytes, Block.stop, Set.mem_Ico] at *
        omega
      · exact Or.inr hx
    · intro x hx
      exact (Hc.keeps he x (bytes_subset (by simp) (Block.data_subset _ hx))).trans (hdata x hx)
  · rw [if_neg hcut]
    refine ⟨s, holes, ?_, hn, H, ⟨SameOutside.refl _ _, rfl⟩, fun _ _ => rfl⟩
    refine ⟨0, fun j _ => ?_⟩
    simp only [split, hwrap, hsize, if_neg hcut, hmem]

/-! ## The calls -/

/-- The arithmetic of `malloc` does not wrap on this request, or `mmap` refuses the length 0 that it gets. -/
structure Fits (ps : PageSize) (mmap : Mmap) (s : State) (holes : List Block) (size : Nat) : Prop where
  bound : size ≤ 2 ^ 64 - 8
  cut : ∀ b ∈ holes, roundSize size ≤ b.size → roundSize size + 16 < 2 ^ 64
  empty : mmapLength ps.bytes (roundSize size) = 0 → mmap s.nextBlock 0 = none

theorem fits_of_le {size : Nat} (hs : size ≤ 2 ^ 63) (ps : PageSize) (mmap : Mmap) (s : State) (holes : List Block) :
    Fits ps mmap s holes size := by
  have h63 : roundSize size ≤ 2 ^ 63 := roundSize_le hs (by norm_num) (by norm_num) (by norm_num)
  have hlen := mmapLength_pos ps h63
  exact ⟨by omega, fun _ _ _ => by omega, fun h0 => by omega⟩

section Malloc

variable {psize : Nat} {mmap : Mmap} {s s₁ : State} {size a : Nat} {r : Nat × State}

theorem malloc_found (hget : Returns (fun k => getBlock k s (roundSize size)) (a, s₁)) (ha : a ≠ 0)
    (hsplit : Returns (fun k => split k s₁ a (roundSize size)) r) :
    Returns (fun k => malloc psize mmap k s size) r := by
  unfold malloc
  exact hget.bind (by simpa [ha] using hsplit)

theorem malloc_grown (hget : Returns (fun k => getBlock k s (roundSize size)) (0, s))
    (hgrow : growHeap psize mmap s (roundSize size) = some (a, s₁))
    (hsplit : Returns (fun k => split k s₁ a (roundSize size)) r) :
    Returns (fun k => malloc psize mmap k s size) r := by
  unfold malloc
  exact hget.bind (by simpa [hgrow] using hsplit)

theorem malloc_failed (hget : Returns (fun k => getBlock k s (roundSize size)) (0, s))
    (hgrow : growHeap psize mmap s (roundSize size) = none) :
    Returns (fun k => malloc psize mmap k s size) (0, s) := by
  unfold malloc
  exact hget.bind (by simp [hgrow])

end Malloc

/-- **`malloc`** fails and changes nothing, or gives a new used block of at least the size asked for, with
the bytes that were there. -/
theorem malloc_spec {ps : PageSize} {mmap : Mmap} {s : State} {holes used : List Block} {size : Nat}
    (H : Heap s holes used) (hm : Honest ps s mmap) (hf : Fits ps mmap s holes size) :
    ∃ p s', Returns (fun k => malloc ps.bytes mmap k s size) (p, s') ∧
      ((p = 0 ∧ s' = s ∧ served ps.bytes mmap s holes size = none) ∨
        ∃ b holes', p = b.addr + 8 ∧ size ≤ b.size ∧ Heap s' holes' (b :: used) ∧ Keeps used s s' ∧
          served ps.bytes mmap s holes size = some b ∧ ∀ x ∈ b.data, s'.mem x = s.mem x) := by
  obtain ⟨hs, hcut, hempty⟩ := hf
  obtain ⟨hle, h8⟩ := le_roundSize hs
  have hs' := roundSize_le hs (by norm_num) (by norm_num) (by norm_num)
  unfold served source
  rcases getBlock_spec H (roundSize size) with ⟨hget, hsmall⟩ | ⟨b, s₁, holes₁, hget, hb, hperm, H₁, he₁, hfind⟩
  · have hnone : holes.find? (fun c => roundSize size ≤ c.size) = none := by
      rw [List.find?_eq_none]
      intro c hc
      simpa using hsmall c hc
    rw [hnone, Option.none_or]
    cases hgrow : growHeap ps.bytes mmap s (roundSize size) with
    | none =>
      have hregion : region ps.bytes mmap s (roundSize size) = none :=
        Option.map_eq_none_iff.mpr (Option.map_eq_none_iff.mp hgrow)
      exact ⟨0, s, malloc_failed hget hgrow, Or.inl ⟨rfl, rfl, by rw [hregion]; rfl⟩⟩
    | some r =>
      obtain ⟨h, s₁⟩ := r
      obtain ⟨b, rfl, hb, h16, H₁, hw₁, hd, hregion⟩ := growHeap_spec H hm hs' h8 hempty hgrow
      have hstop := (H₁.ok b (by simp)).stop
      unfold Block.stop at hstop
      obtain ⟨s', holes', hsplit, hb', H', he, hdata⟩ := split_spec H₁ h8 (by omega) hb
      have hk₁ : Keeps used s s₁ := SameOutside.keeps hw₁ fun c hc =>
        ((hd.mono_left b.header_subset).mono_right (H.tiles.subset (List.mem_append_right _ hc))).symm
      refine ⟨_, s', malloc_grown hget hgrow hsplit,
        Or.inr ⟨b.cut (roundSize size), holes', rfl, hle.trans hb', H', hk₁.trans (H₁.keeps he), ?_, ?_⟩⟩
      · rw [hregion]
        rfl
      · intro x hx
        have hx₁ : x ∉ b.header := Set.disjoint_left.mp b.data_disjoint_header (b.cut_data_subset _ hx)
        exact (hdata x hx).trans (hw₁ x hx₁)
  · have h16 := hcut b (hperm.mem_iff.mpr List.mem_cons_self) hb
    have hb0 : b.addr ≠ 0 := (H₁.ok b (by simp)).addr.ne'
    obtain ⟨s', holes', hsplit, hb', H', he, hdata⟩ := split_spec H₁ h8 h16 hb
    have hk₁ : Keeps (b :: used) s s₁ := SameOutside.keeps he₁.mem fun c hc => H₁.used_disjoint hc
    refine ⟨_, s', malloc_found hget hb0 hsplit,
      Or.inr ⟨b.cut (roundSize size), holes', rfl, hle.trans hb', H', hk₁.tail.trans (H₁.keeps he), ?_, ?_⟩⟩
    · rw [hfind]
      rfl
    · intro x hx
      have hx₁ : x ∈ b.bytes := b.data_subset (b.cut_data_subset _ hx)
      exact (hdata x hx).trans (hk₁ x (bytes_subset (by simp) hx₁))

theorem Block.Ok.sub_ptr {b : Block} (h : b.Ok) : wrapSub (b.addr + 8) 8 = b.addr := by
  have hstop := h.stop
  have hsize := h.size
  unfold Block.stop at hstop
  rw [wrapSub_of_le (by omega) (by omega)]
  omega

/-- **`free`** gives a used block back to the list. -/
theorem free_spec {s : State} {holes used : List Block} {b : Block} (H : Heap s holes (b :: used)) :
    ∃ s' holes', Returns (fun k => free k s (b.addr + 8)) s' ∧ Heap s' holes' used ∧
      Keeps used s s' := by
  have hb := H.ok b (by simp)
  obtain ⟨s', holes', hr, H', he⟩ := returnBlock_spec H
  refine ⟨s', holes', ?_, H', H.keeps he⟩
  simpa [free, hb.sub_ptr] using hr

/-! ## The loops of `calloc` and `realloc` -/

theorem clearLoop_eq {m : Mem} {p n : Nat} (h : p + n ≤ 2 ^ 64) : clearLoop m p n = fill m p 0 n := by
  induction n with
  | zero => rfl
  | succ n ih => rw [clearLoop, fill, ih (by omega), wrap_of_lt (by omega)]

/-- How many bytes the `int` counter of `realloc` gets through. -/
def copied (sz : Nat) : Nat := min sz (2 ^ 31)

/-- The memory after the bytes below `k` have been copied from `p1` to `p2`. -/
def copyTo (m : Mem) (p2 p1 k : Nat) : Mem := fun x =>
  if p2 ≤ x ∧ x < p2 + k then m (p1 + (x - p2)) else m x

theorem copyTo_sameOutside (m : Mem) (p2 p1 k : Nat) :
    SameOutside (Set.Ico p2 (p2 + k)) m (copyTo m p2 p1 k) := fun _ hx => if_neg hx

theorem copyTo_succ {m : Mem} {p2 p1 k : Nat} (hd : Disjoint (Set.Ico p2 (p2 + k)) {p1 + k}) :
    Function.update (copyTo m p2 p1 k) (p2 + k) (copyTo m p2 p1 k (p1 + k)) = copyTo m p2 p1 (k + 1) := by
  have hsrc : copyTo m p2 p1 k (p1 + k) = m (p1 + k) :=
    copyTo_sameOutside m p2 p1 k _ (fun h => Set.disjoint_left.mp hd h rfl)
  rw [hsrc]
  funext x
  by_cases hx : x = p2 + k
  · subst hx
    simp [copyTo]
  · rw [Function.update_of_ne hx, copyTo, copyTo]
    split_ifs <;> first | rfl | omega

theorem counter_index {k : Nat} (h : k ≤ 2 ^ 31) :
    ((BitVec.ofNat 32 k).signExtend 64).toNat = if k < 2 ^ 31 then k else 2 ^ 64 - 2 ^ 31 := by
  rw [BitVec.toNat_signExtend, BitVec.toNat_setWidth, BitVec.toNat_ofNat, BitVec.msb_eq_decide,
    BitVec.toNat_ofNat]
  simp only [decide_eq_true_eq]
  split_ifs <;> omega

theorem copyLoop_returns {m : Mem} {sz p2 p1 : Nat} (hsz : sz ≤ 2 ^ 63) (h1 : p1 + sz ≤ 2 ^ 64)
    (h2 : p2 + sz ≤ 2 ^ 64) (hd : Disjoint (Set.Ico p2 (p2 + sz)) (Set.Ico p1 (p1 + sz))) {j k : Nat}
    (hk : k + j = copied sz) :
    Returns (fun f => copyLoop sz p2 p1 f (copyTo m p2 p1 k) (BitVec.ofNat 32 k))
      (copyTo m p2 p1 (copied sz)) := by
  have hmin : copied sz ≤ sz ∧ copied sz ≤ 2 ^ 31 := ⟨min_le_left _ _, min_le_right _ _⟩
  have hidx := counter_index (k := k) (by omega)
  induction j generalizing k with
  | zero =>
    have hstop : ¬ (if k < 2 ^ 31 then k else 2 ^ 64 - 2 ^ 31) < sz := by
      unfold copied at hk
      split <;> omega
    apply Returns.of_succ
    simp only [copyLoop, hidx, if_neg hstop]
    rw [returns_some, ← hk]
    rfl
  | succ j ih =>
    have hlt : k < 2 ^ 31 := by omega
    apply Returns.of_succ
    simp only [copyLoop, hidx, if_pos hlt, if_pos (show k < sz by omega)]
    have hp : Disjoint (Set.Ico p2 (p2 + k)) {p1 + k} := by
      rw [Set.disjoint_singleton_right]
      intro hx
      exact Set.disjoint_left.mp hd ⟨hx.1, by have := hx.2; omega⟩ ⟨by omega, by omega⟩
    rw [wrap_of_lt (by omega), wrap_of_lt (by omega), copyTo_succ hp,
      show BitVec.ofNat 32 k + 1 = BitVec.ofNat 32 (k + 1) from BitVec.ofNat_add_ofNat ..]
    exact ih (by omega) (counter_index (by omega))

/-! ## Writes into a block -/

theorem Heap.write {s : State} {holes used : List Block} {b : Block} {m : Mem} (H : Heap s holes used)
    (hb : b ∈ used) (hw : SameOutside b.data s.mem m) : Heap { s with mem := m } holes used := by
  refine ⟨?_, H.gapped, ?_, H.ok, H.tiles⟩
  · apply H.chain.frame hw
    intro c hc
    have hnode := Block.node_subset (H.ok c (by simp [hc])).size
    exact (H.tiles.append_disjoint hc hb).mono hnode b.data_subset
  · intro c hc
    rw [← H.header c hc]
    apply hw.load_eq
    by_cases hcb : c = b
    · rw [hcb, Block.data, Set.Ico_disjoint_Ico]
      omega
    · have hsub : Set.Ico c.addr (c.addr + 8) ⊆ c.bytes :=
        Set.Ico_subset_Ico_right (by unfold Block.stop; omega)
      exact (H.tiles.disjoint_of_ne (by simp [hc]) (by simp [hb]) hcb).mono hsub b.data_subset

theorem Heap.write_keeps {s : State} {holes used : List Block} {b : Block} {m : Mem}
    (H : Heap s holes (b :: used)) (hw : SameOutside b.data s.mem m) :
    Keeps used s { s with mem := m } :=
  H.keeps ⟨hw.mono (b.data_subset.trans (bytes_subset (by simp))), rfl⟩

theorem Block.Ok.data_run {b : Block} (h : b.Ok) {n : Nat} (hn : n ≤ b.size) :
    b.addr + 8 + n ≤ 2 ^ 64 ∧ Set.Ico (b.addr + 8) (b.addr + 8 + n) ⊆ b.data := by
  have hstop := h.stop
  simp only [Block.stop] at hstop
  exact ⟨by omega, Set.Ico_subset_Ico_right (by unfold Block.stop; omega)⟩

/-- **`calloc`** is a `malloc` whose bytes are zero. -/
theorem calloc_spec {ps : PageSize} {mmap : Mmap} {s : State} {holes used : List Block}
    {count size : Nat} (H : Heap s holes used) (hm : Honest ps s mmap) (hf : Fits ps mmap s holes (count * size)) :
    ∃ p s', Returns (fun k => calloc ps.bytes mmap k s count size) (p, s') ∧
      ((p = 0 ∧ s' = s ∧ served ps.bytes mmap s holes (count * size) = none) ∨
        ∃ b holes', p = b.addr + 8 ∧ count * size ≤ b.size ∧ Heap s' holes' (b :: used) ∧ Keeps used s s' ∧
          served ps.bytes mmap s holes (count * size) = some b ∧ ∀ i < count * size, s'.mem (p + i) = 0) := by
  have hn : wrap (count * size) = count * size := wrap_of_lt (hf.bound.trans_lt (by norm_num))
  obtain ⟨p, s₁, hmal, ⟨rfl, rfl, hnone⟩ | ⟨b, holes', rfl, hb, H₁, hk₁, hserved, -⟩⟩ := malloc_spec H hm hf
  · refine ⟨0, s₁, ?_, Or.inl ⟨rfl, rfl, hnone⟩⟩
    simp only [calloc, hn]
    exact hmal.bind (by simp)
  · obtain ⟨h64, hrun⟩ := (H₁.ok b (by simp)).data_run hb
    have hw : SameOutside b.data s₁.mem (fill s₁.mem (b.addr + 8) 0 (count * size)) :=
      (fill_sameOutside s₁.mem (b.addr + 8) 0 (count * size)).mono hrun
    refine ⟨b.addr + 8, { s₁ with mem := fill s₁.mem (b.addr + 8) 0 (count * size) }, ?_,
      Or.inr ⟨b, holes', rfl, hb, H₁.write (by simp) hw, hk₁.trans (H₁.write_keeps hw), hserved, ?_⟩⟩
    · simp only [calloc, hn]
      exact hmal.bind (by simp [clearLoop_eq h64])
    · intro i hi
      exact (fill_apply _ _ _ _ _).trans (if_pos (by omega))

/-- **`realloc`** of a used block to a positive size: it fails and changes nothing, or moves
the bytes that its counter gets through to a new block and frees the old one. Behind them the new
block keeps what was there. -/
theorem realloc_spec {ps : PageSize} {mmap : Mmap} {s : State} {holes used : List Block} {b : Block}
    {size : Nat} (H : Heap s holes (b :: used)) (hm : Honest ps s mmap) (hf : Fits ps mmap s holes size)
    (hpos : size ≠ 0) :
    ∃ p s', Returns (fun k => realloc ps.bytes mmap k s (b.addr + 8) size) (p, s') ∧
      ((p = 0 ∧ s' = s ∧ served ps.bytes mmap s holes size = none) ∨
        ∃ b' holes', p = b'.addr + 8 ∧ size ≤ b'.size ∧ Heap s' holes' (b' :: used) ∧ Keeps used s s' ∧
          served ps.bytes mmap s holes size = some b' ∧
          ∀ i < min b.size size, s'.mem (p + i) =
            if i < 2 ^ 31 then s.mem (b.addr + 8 + i) else s.mem (p + i)) := by
  have hptr : b.addr + 8 ≠ 0 := by omega
  obtain ⟨p, s₁, hmal, ⟨rfl, rfl, hnone⟩ | ⟨b', holes₁, rfl, hb', H₁, hk₁, hserved, hdata⟩⟩ := malloc_spec H hm hf
  · refine ⟨0, s₁, ?_, Or.inl ⟨rfl, rfl, hnone⟩⟩
    simp only [realloc, if_neg hptr, if_neg hpos]
    exact hmal.bind (by simp)
  · have hbok := H₁.ok b (by simp)
    have hsz : (if b.size < size then b.size else size) = min b.size size := by
      rw [min_def]
      split_ifs <;> omega
    have hle : min b.size size ≤ b.size ∧ min b.size size ≤ b'.size := by omega
    have hcop : copied (min b.size size) ≤ min b.size size := min_le_left _ _
    obtain ⟨h1, hrun⟩ := hbok.data_run hle.1
    obtain ⟨h2, hrun'⟩ := (H₁.ok b' (by simp)).data_run hle.2
    have hdis : Disjoint b'.bytes b.bytes :=
      (H₁.tiles.perm List.perm_middle).head_disjoint b (by simp)
    have hd := hdis.mono (hrun'.trans b'.data_subset) (hrun.trans b.data_subset)
    -- The two blocks share the address space.
    have h63 : min b.size size ≤ 2 ^ 63 := by
      have hstop := hbok.stop
      have hstop' := (H₁.ok b' (by simp)).stop
      have hside := Block.disjoint_iff.mp hdis
      unfold Block.stop at *
      omega
    -- The copy writes only bytes of the new block.
    let m := copyTo s₁.mem (b'.addr + 8) (b.addr + 8) (copied (min b.size size))
    have hw : SameOutside b'.data s₁.mem m := by
      apply (copyTo_sameOutside _ _ _ _).mono
      exact (Set.Ico_subset_Ico_right (by omega)).trans hrun'
    have hloop := copyLoop_returns (m := s₁.mem) (j := copied (min b.size size)) (k := 0)
      h63 h1 h2 hd (by omega)
    have H₂ := (H₁.write (by simp) hw).perm (List.Perm.swap b b' used)
    have hk₂ := H₁.write_keeps hw
    obtain ⟨s', holes', hfree, H', hk'⟩ := free_spec H₂
    refine ⟨b'.addr + 8, s', ?_, Or.inr ⟨b', holes', rfl, hb', H', ?_, hserved, ?_⟩⟩
    · have hstart : copyTo s₁.mem (b'.addr + 8) (b.addr + 8) 0 = s₁.mem := by
        funext x
        exact if_neg (by omega)
      rw [hstart] at hloop
      simp only [realloc, if_neg hptr, if_neg hpos]
      apply hmal.bind
      simp only [if_neg (show b'.addr + 8 ≠ 0 by omega), hbok.sub_ptr, H₁.header b (by simp), hsz]
      apply hloop.bind
      obtain ⟨k, hk⟩ := hfree
      exact ⟨k, fun n hn => congrArg (Option.map fun s => (b'.addr + 8, s)) (hk n hn)⟩
    · exact (hk₁.tail.trans hk₂.tail).trans hk'.tail
    · intro i hi
      have hin : b'.addr + 8 + i ∈ b'.data := hrun' ⟨by omega, by omega⟩
      have hold : b.addr + 8 + i ∈ b.bytes := b.data_subset (hrun ⟨by omega, by omega⟩)
      have hkept : s'.mem (b'.addr + 8 + i) = m (b'.addr + 8 + i) :=
        hk' _ (bytes_subset (by simp) (b'.data_subset hin))
      have hcopied : copied (min b.size size) = min (min b.size size) (2 ^ 31) := rfl
      rw [hkept]
      by_cases hlow : i < 2 ^ 31
      · rw [if_pos hlow]
        calc m (b'.addr + 8 + i) = s₁.mem (b.addr + 8 + i) := by
              refine (if_pos (by omega)).trans ?_
              congr 1
              omega
          _ = s.mem (b.addr + 8 + i) := hk₁ _ (bytes_subset (by simp) hold)
      · rw [if_neg hlow]
        exact (if_neg (by omega)).trans (hdata _ hin)

end OsCoursework.Malloc
