import OsCoursework.Lib.Runs
import OsCoursework.Malloc.Run

/-!
# The free list is canonical

The mapped bytes and the blocks in use determine the free list.
-/

open OsCoursework.ByteMem OsCoursework.Fuel OsCoursework.Tiling OsCoursework.Runs OsCoursework.Transition

namespace OsCoursework.Malloc

/-- Calls of `free` one after the other. -/
def freeAll (fuel : Nat) : State → List Nat → Option State
  | s, [] => some s
  | s, p :: ps => (free fuel s p).bind fun s => freeAll fuel s ps

/-- The mapped bytes that are not in a live block. -/
def World.freeBytes (w : World) : Set Nat := w.heap.mappedBytes \ bytesOf w.blocks

/-- The list of the free holes, one for each maximal run of free bytes. -/
structure Canonical (holes : List Block) (free : Set Nat) : Prop where
  cover : bytesOf holes = free
  sorted : holes.Pairwise fun b c => b.addr < c.addr
  run : ∀ b ∈ holes, ∀ x ∈ b.bytes, Set.ordConnectedComponent free x = b.bytes

/-! ## The holes of a heap -/

section Holes

variable {s s' : State} {holes holes' used : List Block}

def Block.range (b : Block) : Nat × Nat := (b.addr, b.stop)

theorem range_injective : Function.Injective Block.range := by
  intro b c h
  obtain ⟨haddr, hstop⟩ := Prod.mk.inj h
  unfold Block.stop at hstop
  cases b
  cases c
  simp only at haddr hstop
  rw [haddr, Block.mk.injEq]
  exact ⟨rfl, by omega⟩

theorem cover_range (l : List Block) : cover (l.map Block.range) = bytesOf l := by
  ext x
  rw [mem_cover, mem_bytesOf]
  simp [Block.range, Block.bytes]

theorem Gapped.separated (h : Gapped holes) : Separated (holes.map Block.range) := by
  constructor
  · intro r hr
    obtain ⟨b, -, rfl⟩ := List.mem_map.mp hr
    simp only [Block.range, Block.stop]
    omega
  · exact List.pairwise_map.mpr h

theorem Heap.hole_bytes (H : Heap s holes used) : bytesOf holes = s.mappedBytes \ bytesOf used := by
  ext x
  rw [Set.mem_sdiff, H.tiles.mem_iff, mem_bytesOf, mem_bytesOf]
  constructor
  · rintro ⟨b, hb, hx⟩
    refine ⟨⟨b, List.mem_append_left _ hb, hx⟩, ?_⟩
    rintro ⟨c, hc, hxc⟩
    exact Set.disjoint_left.mp (H.tiles.append_disjoint hb hc) hx hxc
  · rintro ⟨⟨b, hb, hx⟩, hnot⟩
    rcases List.mem_append.mp hb with hb | hb
    · exact ⟨b, hb, hx⟩
    · exact absurd ⟨b, hb, hx⟩ hnot

theorem Heap.canonical (H : Heap s holes used) : Canonical holes (s.mappedBytes \ bytesOf used) where
  cover := H.hole_bytes
  sorted := H.gapped.addr_lt
  run b hb x hx := by
    rw [← H.hole_bytes, ← cover_range]
    exact H.gapped.separated.component (List.mem_map_of_mem hb) hx

/-- Two heaps with the same mapped bytes and the same used blocks have the same holes. -/
theorem Heap.holes_unique (H : Heap s holes used) (H' : Heap s' holes' used)
    (hmapped : s'.mapped = s.mapped) : holes' = holes := by
  apply range_injective.list_map
  apply H'.gapped.separated.unique H.gapped.separated
  rw [cover_range, cover_range, H.hole_bytes, H'.hole_bytes, State.mappedBytes, State.mappedBytes, hmapped]

theorem ListSeg.unique {m : Mem} {a : Nat} {l l' : List Block} (h : ListSeg m a l 0) (h' : ListSeg m a l' 0) :
    l = l' := by
  induction l generalizing a l' with
  | nil =>
    cases l' with
    | nil => rfl
    | cons b l' => exact absurd h h'.2.1
  | cons b l ih =>
    obtain ⟨haddr, h0, hsize, hnext⟩ := h
    cases l' with
    | nil => exact absurd h' h0
    | cons c l' =>
      obtain ⟨haddr', -, hsize', hnext'⟩ := h'
      have hbc : b = c := by
        cases b
        cases c
        exact Block.mk.injEq .. ▸ ⟨haddr.symm.trans haddr', hsize.symm.trans hsize'⟩
      rw [hbc, ih hnext hnext']

end Holes

/-! ## What `free` leaves alone -/

theorem returnBlock_mapped {fuel : Nat} {s s' : State} {h : Nat} (hret : returnBlock fuel s h = some s') :
    s'.mapped = s.mapped := by
  obtain ⟨pred, -, heq⟩ := Option.bind_eq_some_iff.mp hret
  obtain rfl := Option.some.inj heq
  exact link_mapped s pred h

theorem free_mapped {fuel : Nat} {s s' : State} {p : Nat} (hret : free fuel s p = some s') :
    s'.mapped = s.mapped := by
  unfold free at hret
  split_ifs at hret
  · rw [Option.some.inj hret]
  · exact returnBlock_mapped hret

theorem split_mapped {fuel : Nat} {s : State} {h n : Nat} {r : Nat × State} (hret : split fuel s h n = some r) :
    r.2.mapped = s.mapped := by
  unfold split at hret
  split_ifs at hret
  · obtain ⟨s', hback, rfl⟩ := Option.map_eq_some_iff.mp hret
    have hkept := returnBlock_mapped hback
    exact hkept
  · rw [← Option.some.inj hret]

/-! ## Any order -/

theorem freeAll_ok {w : World} (h : Inv w) {l : List Nat} (hnodup : l.Nodup) (hlive : ∀ p ∈ l, p ∈ w.live) :
    ∃ s', Returns (fun k => freeAll k w.heap l) s' ∧ s'.mapped = w.heap.mapped ∧ Inv ⟨s', w.live.diff l⟩ ∧
      (w.live.diff l).map (blockAt s'.mem) = (w.live.diff l).map (blockAt w.heap.mem) := by
  induction l generalizing w with
  | nil => exact ⟨w.heap, (returns_some _ _).mpr rfl, rfl, h, rfl⟩
  | cons p l ih =>
    obtain ⟨hp, hnodup⟩ := List.nodup_cons.mp hnodup
    obtain ⟨s₁, hfree, h₁, hk₁⟩ := free_ok h (Or.inr (hlive p List.mem_cons_self))
    have hlive₁ : ∀ q ∈ l, q ∈ w.live.erase p := by
      intro q hq
      have hne : q ≠ p := fun heq => hp (heq ▸ hq)
      exact (List.mem_erase_of_ne hne).mpr (hlive q (List.mem_cons_of_mem _ hq))
    obtain ⟨s', hret, hmapped, h', hblocks⟩ := ih h₁ hnodup hlive₁
    have hmapped₁ : s₁.mapped = w.heap.mapped := by
      obtain ⟨k, hk⟩ := hfree
      exact free_mapped (hk k le_rfl)
    rw [List.diff_cons]
    refine ⟨s', hfree.bind hret, hmapped.trans hmapped₁, h', hblocks.trans ?_⟩
    -- The blocks that are left were not touched by the first call either.
    apply List.map_congr_left
    intro q hq
    have hq' : q ∈ w.live.erase p := List.diff_subset _ _ hq
    exact List.map_inj_left.mp (blocks_kept hk₁) q hq'

/-! ## There and back -/

theorem malloc_free {psize : Nat} {mmap : Mmap} {s s' : State} {holes used : List Block} {size p : Nat}
    (H : Heap s holes used) (hs : size ≤ 2 ^ 63)
    (hret : Returns (fun k => malloc psize mmap k s size) (p, s')) (hp : p ≠ 0) (hmapped : s'.mapped = s.mapped) :
    ∃ s'', Returns (fun k => free k s' p) s'' ∧ ListSeg s''.mem s''.freeList holes 0 := by
  have h63 : roundSize size ≤ 2 ^ 63 := roundSize_le hs (by norm_num) (by norm_num) (by norm_num)
  have hle : size ≤ 2 ^ 64 - 8 := hs.trans (by norm_num)
  obtain ⟨-, h8⟩ := le_roundSize hle
  rcases getBlock_spec H (roundSize size) with ⟨hget, -⟩ | ⟨b, s₁, holes₁, hget, hb, -, H₁, -⟩
  · obtain ⟨k, hk⟩ := hret
    obtain ⟨j, hj⟩ := hget
    have hmal := hk (max k j) (le_max_left _ _)
    have hnone := hj (max k j) (le_max_right _ _)
    simp only [malloc, hnone, Option.bind_some, if_pos] at hmal
    cases hgrow : growHeap psize mmap s (roundSize size) with
    | none =>
      simp only [hgrow, Option.some.injEq, Prod.mk.injEq] at hmal
      exact absurd hmal.1.symm hp
    | some r =>
      -- The new region is on record.
      simp only [hgrow] at hmal
      have hsplit := split_mapped hmal
      obtain ⟨a, -, rfl⟩ := Option.map_eq_some_iff.mp hgrow
      rw [hmapped] at hsplit
      exact absurd hsplit (List.ne_cons_self)
  · obtain ⟨s₂, holes₂, hsplit, -, H₂, -⟩ := split_spec H₁ h8 (by omega) hb
    have hb0 : b.addr ≠ 0 := (H₁.ok b (by simp)).addr.ne'
    have hmal : Returns (fun k => malloc psize mmap k s size) (b.addr + 8, s₂) := malloc_found hget hb0 hsplit
    obtain ⟨rfl, rfl⟩ := Prod.mk.inj (hret.unique hmal)
    obtain ⟨s'', holes', hfree, H', -⟩ := free_spec H₂
    have hmapped' : s''.mapped = s.mapped := by
      obtain ⟨k, hk⟩ := hfree
      exact (free_mapped (hk k le_rfl)).trans hmapped
    have hholes := H.holes_unique H' hmapped'
    exact ⟨s'', hfree, hholes ▸ H'.chain⟩

/-- **The free list is canonical.** Freed in any two orders, the same blocks leave the same holes, one for
each maximal run of free bytes. A block that came from the free list leaves the holes that were there. -/
theorem free_list_canonical (ps : PageSize) {w : World} (h : Reachable (system ps (2 ^ 63)) w) :
    (∀ l l' : List Nat, l.Nodup → (∀ p ∈ l, p ∈ w.live) → l'.Perm l →
      ∃ s s' holes, Returns (fun k => freeAll k w.heap l) s ∧ Returns (fun k => freeAll k w.heap l') s' ∧
        ListSeg s.mem s.freeList holes 0 ∧ ListSeg s'.mem s'.freeList holes 0 ∧
        Canonical holes (World.freeBytes ⟨w.heap, w.live.diff l⟩)) ∧
    ∀ (mmap : Mmap) (n p : Nat) (s' : State), n ≤ 2 ^ 63 →
      Returns (fun k => malloc ps.bytes mmap k w.heap n) (p, s') → p ≠ 0 → s'.mapped = w.heap.mapped →
      ∀ holes, ListSeg w.heap.mem w.heap.freeList holes 0 →
        ∃ s'', Returns (fun k => free k s' p) s'' ∧ ListSeg s''.mem s''.freeList holes 0 := by
  have hinv := reachable_inv le_rfl h
  constructor
  · intro l l' hnodup hlive hperm
    obtain ⟨s, hret, hmapped, ⟨-, holes, H⟩, hblocks⟩ := freeAll_ok hinv hnodup hlive
    obtain ⟨s', hret', hmapped', ⟨-, holes', H'⟩, hblocks'⟩ :=
      freeAll_ok hinv (hperm.nodup_iff.mpr hnodup) fun p hp => hlive p (hperm.mem_iff.mp hp)
    simp only [World.blocks] at H H'
    rw [hblocks] at H
    rw [hblocks', hperm.diff_left] at H'
    have hholes := H.holes_unique H' (hmapped'.trans hmapped.symm)
    refine ⟨s, s', holes, hret, hret', H.chain, hholes ▸ H'.chain, ?_⟩
    have hcanonical := H.canonical
    rwa [State.mappedBytes, hmapped] at hcanonical
  · intro mmap n p s' hn hret hp hmapped holes hlist
    obtain ⟨holes', H⟩ := hinv.heap
    have hholes := hlist.unique H.chain
    rw [hholes]
    exact malloc_free H hn hret hp hmapped

/-- The first hole is large enough. -/
def sampleSecond : Option (Nat × State) :=
  malloc samplePage.bytes (fun _ _ => none) 4 blocksWorld.heap 16

theorem sampleSecond_ends : sampleSecond.isSome := by decide +kernel

theorem sampleSecond_served :
    (sampleSecond.get sampleSecond_ends).1 ≠ 0 ∧
      (sampleSecond.get sampleSecond_ends).2.mapped = blocksWorld.heap.mapped := by decide +kernel

/-- Two of three blocks are given back in either order, and a block that was split off a hole is merged again. -/
theorem free_list_canonical_sample :
    (∃ s s' holes, Returns (fun k => freeAll k blocksWorld.heap [0x600000000008, 0x600000000088]) s ∧
      Returns (fun k => freeAll k blocksWorld.heap [0x600000000088, 0x600000000008]) s' ∧
      ListSeg s.mem s.freeList holes 0 ∧ ListSeg s'.mem s'.freeList holes 0) ∧
    ∃ s, Returns (fun k =>
        free k (sampleSecond.get sampleSecond_ends).2 (sampleSecond.get sampleSecond_ends).1) s ∧
      ListSeg s.mem s.freeList [⟨0x600000000028, 52⟩, ⟨0x6000000000b0, 3912⟩] 0 := by
  obtain ⟨horders, hback⟩ := free_list_canonical samplePage (blocks_reachable (by decide))
  obtain ⟨hnonnull, hmapped⟩ := sampleSecond_served
  constructor
  · obtain ⟨s, s', holes, hret, hret', hlist, hlist', -⟩ :=
      horders [0x600000000008, 0x600000000088] [0x600000000088, 0x600000000008] (by decide)
        (by rw [blocksWorld_live]; decide) (List.Perm.swap _ _ _)
    exact ⟨s, s', holes, hret, hret', hlist, hlist'⟩
  · have hret := (malloc_stable samplePage.bytes (fun _ _ => none) blocksWorld.heap 16).returns
      (Option.some_get sampleSecond_ends).symm
    exact hback _ 16 _ _ (by decide) hret hnonnull hmapped _ blocksWorld_holes

end OsCoursework.Malloc
