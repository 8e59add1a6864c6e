import OsCoursework.Lib.Tiling
import OsCoursework.Malloc.FreeList

/-!
# The heap invariant

`Heap s holes used`: the free list of `s` holds exactly `holes`, in order and with
a gap after each, and together with the blocks `used` they tile the mapped bytes.
A block between two operations (just unlinked, just mapped or just split off)
counts as used.
-/

open OsCoursework.ByteMem OsCoursework.Fuel OsCoursework.Tiling

namespace OsCoursework.Malloc

def Gapped (l : List Block) : Prop := l.Pairwise fun b c => b.stop < c.addr

def State.mappedBytes (s : State) : Set Nat := ⋃ r ∈ s.mapped, Set.Ico r.1 (r.1 + r.2)

/-- Room for the pointer of a hole, inside the address space and away from `NULL`. -/
structure Block.Ok (b : Block) : Prop where
  size : 8 ≤ b.size
  addr : 0 < b.addr
  stop : b.stop ≤ 2 ^ 64

structure Heap (s : State) (holes used : List Block) : Prop where
  chain : ListSeg s.mem s.freeList holes 0
  gapped : Gapped holes
  header : ∀ b ∈ used, sizeOf s.mem b.addr = b.size
  ok : ∀ b ∈ holes ++ used, b.Ok
  tiles : Tiles Block.bytes (holes ++ used) s.mappedBytes

theorem Block.Ok.addr_lt {b : Block} (h : b.Ok) : b.addr < 2 ^ 64 := by
  have := h.stop
  unfold Block.stop at this
  omega

theorem Block.Ok.memOf_eq {b : Block} (h : b.Ok) : memOf b.addr = b.addr + 8 := by
  have h1 := h.stop
  have h2 := h.size
  unfold Block.stop at h1
  exact wrap_of_lt (by omega)

theorem Gapped.addr_lt {l : List Block} (h : Gapped l) : l.Pairwise fun b c => b.addr < c.addr := by
  apply h.imp
  intro b c hbc
  simp only [Block.stop] at hbc
  omega

theorem Gapped.stop_ne {l : List Block} (h : Gapped l) {b c : Block} (hb : b ∈ l) (hc : c ∈ l) :
    b.stop ≠ c.addr := by
  have hsymm : Std.Symm fun b c : Block => b.stop < c.addr ∨ c.stop < b.addr := ⟨fun _ _ h => h.symm⟩
  have hor : l.Pairwise fun b c => b.stop < c.addr ∨ c.stop < b.addr := h.imp fun h => Or.inl h
  by_cases hbc : b = c
  · subst hbc
    simp only [Block.stop]
    omega
  · have := hor.forall hb hc hbc
    simp only [Block.stop] at *
    omega

theorem stop_le_of_disjoint {b c : Block} (hd : Disjoint b.bytes c.bytes) (h : b.addr ≤ c.addr) :
    b.stop ≤ c.addr := by
  rcases Block.disjoint_iff.mp hd with h' | h'
  · exact h'
  · simp only [Block.stop] at h'
    omega

theorem apart_of_tiles {l : List Block} {c : Set Nat} (h : Tiles Block.bytes l c)
    (hok : ∀ b ∈ l, b.Ok) : Apart l := by
  apply h.disjoint.imp_of_mem
  intro a b ha hb hd
  exact hd.mono (Block.node_subset (hok a ha).size) (Block.node_subset (hok b hb).size)

/-! ## Two neighbours that touch become one -/

/-- The list with `b` in front, after `b` has absorbed its neighbour if they touch. -/
def mergeNext (b : Block) : List Block → List Block
  | [] => [b]
  | c :: r => if b.stop = c.addr then b.merge c :: r else b :: c :: r

theorem merge_stop {b c : Block} (h : b.stop = c.addr) : (b.merge c).stop = c.stop := by
  simp only [Block.stop, Block.merge] at *
  omega

theorem merge_ok {b c : Block} (hb : b.Ok) (hc : c.Ok) (h : b.stop = c.addr) : (b.merge c).Ok := by
  refine ⟨?_, hb.addr, ?_⟩
  · have := hb.size
    simp only [Block.merge]
    omega
  · rw [merge_stop h]
    exact hc.stop

theorem merge_bytes {b c : Block} (h : b.stop = c.addr) : (b.merge c).bytes = b.bytes ∪ c.bytes := by
  ext x
  simp only [Block.bytes, Block.stop, Set.mem_union, Set.mem_Ico, Block.merge] at *
  omega

theorem mergeNext_cases (b : Block) (r : List Block) :
    (mergeNext b r = b :: r ∧ ∀ c ∈ r.head?, b.stop ≠ c.addr) ∨
      ∃ c r', r = c :: r' ∧ b.stop = c.addr ∧ mergeNext b r = b.merge c :: r' := by
  cases r with
  | nil => exact Or.inl ⟨rfl, by simp⟩
  | cons c r =>
    by_cases h : b.stop = c.addr
    · exact Or.inr ⟨c, r, rfl, h, if_pos h⟩
    · exact Or.inl ⟨if_neg h, by simpa using h⟩

theorem mergeNext_ok {b : Block} {l r : List Block} (h : ∀ x ∈ l ++ b :: r, x.Ok) :
    ∀ x ∈ l ++ mergeNext b r, x.Ok := by
  rcases mergeNext_cases b r with ⟨heq, -⟩ | ⟨c, r', rfl, ht, heq⟩
  · rwa [heq]
  · rw [heq]
    intro x hx
    simp only [List.mem_append, List.mem_cons] at hx h
    rcases hx with hx | rfl | hx
    · exact h x (Or.inl hx)
    · exact merge_ok (h b (by simp)) (h c (by simp)) ht
    · exact h x (by simp [hx])

theorem mergeNext_tiles {b : Block} {l r u : List Block} {m : Set Nat}
    (h : Tiles Block.bytes (l ++ b :: r ++ u) m) : Tiles Block.bytes (l ++ mergeNext b r ++ u) m := by
  rcases mergeNext_cases b r with ⟨heq, -⟩ | ⟨c, r', rfl, ht, heq⟩
  · rwa [heq]
  · rw [heq]
    have hp : (l ++ b :: c :: r' ++ u).Perm (b :: c :: (l ++ r' ++ u)) := by
      simp only [List.append_assoc, List.cons_append]
      exact List.perm_middle.trans (List.perm_middle.cons b)
    have hp' : (b.merge c :: (l ++ r' ++ u)).Perm (l ++ b.merge c :: r' ++ u) := by
      simp only [List.append_assoc, List.cons_append]
      exact List.perm_middle.symm
    have hd := (h.perm hp).head_disjoint c (by simp)
    exact ((tiles_cut (merge_bytes ht) hd).mpr (h.perm hp)).perm hp'

theorem mergeNext_addr {b : Block} {r : List Block} (h : ∀ c ∈ r, b.addr ≤ c.addr) :
    ∀ x ∈ mergeNext b r, b.addr ≤ x.addr := by
  rcases mergeNext_cases b r with ⟨heq, -⟩ | ⟨c, r', rfl, -, heq⟩
  · rw [heq]
    simpa using h
  · rw [heq]
    intro x hx
    rcases List.mem_cons.mp hx with rfl | hx
    · exact le_rfl
    · exact h x (by simp [hx])

theorem mergeNext_gapped {b : Block} {r : List Block} (hr : Gapped r) (h : ∀ c ∈ r, b.stop ≤ c.addr) :
    Gapped (mergeNext b r) := by
  rcases mergeNext_cases b r with ⟨heq, hne⟩ | ⟨c, r', rfl, ht, heq⟩
  · rw [heq]
    refine List.pairwise_cons.mpr ⟨fun c hc => ?_, hr⟩
    cases r with
    | nil => simp at hc
    | cons d r =>
      have hd := h d (by simp)
      have hbd : b.stop ≠ d.addr := hne d (by simp)
      rcases List.mem_cons.mp hc with rfl | hc
      · omega
      · have := (List.pairwise_cons.mp hr.addr_lt).1 c hc
        omega
  · rw [heq]
    obtain ⟨hc, hr'⟩ := List.pairwise_cons.mp hr
    refine List.pairwise_cons.mpr ⟨fun d hd => ?_, hr'⟩
    rw [merge_stop ht]
    exact hc d hd

/-! ## `absorbNext` and `absorbInto` -/

theorem absorbNext_spec {m : Mem} {a : Nat} {l r : List Block} {b : Block}
    (h : ListSeg m a (l ++ b :: r) 0) (ha : Apart (l ++ b :: r)) (hok : ∀ x ∈ l ++ b :: r, x.Ok) :
    ListSeg (absorbNext m b.addr) a (l ++ mergeNext b r) 0 ∧
      SameOutside b.node m (absorbNext m b.addr) := by
  have hb := hok b (by simp)
  obtain ⟨e, -, rfl, -, hbs, hr⟩ := listSeg_append.mp h
  have hend : memOf b.addr + sizeOf m b.addr = b.stop := by rw [hb.memOf_eq, hbs]; rfl
  rw [absorbNext, hend]
  cases r with
  | nil =>
    rw [if_neg fun hc => hc.1 hr]
    exact ⟨h, SameOutside.refl _ _⟩
  | cons c r =>
    obtain ⟨hn, hc0, -⟩ := hr
    have hc := hok c (by simp)
    rw [hn] at hc0 ⊢
    -- The sum can only wrap to 0, and 0 is not the address of a hole.
    have hiff : wrap b.stop = c.addr ↔ b.stop = c.addr := by
      have h1 := hb.stop
      have h2 := hc.addr_lt
      unfold wrap
      omega
    by_cases ht : b.stop = c.addr
    · rw [if_pos ⟨hc0, hiff.mpr ht⟩, mergeNext, if_pos ht]
      apply absorb_spec h ha
      have := (merge_ok hb hc ht).stop
      simp only [Block.stop, Block.merge] at this
      omega
    · rw [if_neg fun hc => ht (hiff.mp hc.2), mergeNext, if_neg ht]
      exact ⟨h, SameOutside.refl _ _⟩

theorem absorbInto_eq {m : Mem} {pred h : Nat} (hp : pred ≠ 0) (hh : h ≠ 0) (hn : next m pred = h) :
    absorbInto m pred h = absorbNext m pred := by
  simp [absorbInto, absorbNext, hp, hn, hh]

theorem absorbInto_null (m : Mem) (h : Nat) : absorbInto m 0 h = m := by
  simp [absorbInto]

theorem ListSeg.head_eq {m : Mem} {a e : Nat} {b : Block} {r : List Block}
    (h : ListSeg m a (mergeNext b r) e) : a = b.addr := by
  rcases mergeNext_cases b r with ⟨heq, -⟩ | ⟨c, r', rfl, -, heq⟩ <;>
  · rw [heq] at h
    exact h.1

/-! ## The heap after an edit -/

theorem Heap.perm {s : State} {holes used used' : List Block} (H : Heap s holes used)
    (hp : used.Perm used') : Heap s holes used' where
  chain := H.chain
  gapped := H.gapped
  header b hb := H.header b (hp.mem_iff.mpr hb)
  ok b hb := H.ok b (by simpa [hp.mem_iff] using hb)
  tiles := H.tiles.perm (hp.append_left holes)

theorem Heap.apart {s : State} {holes used : List Block} (H : Heap s holes used) : Apart holes :=
  (apart_append.mp (apart_of_tiles H.tiles H.ok)).1

theorem Heap.used_disjoint {s : State} {holes used : List Block} (H : Heap s holes used) {b : Block}
    (hb : b ∈ used) : Disjoint b.bytes (bytesOf holes) := by
  simp only [bytesOf, Set.disjoint_iUnion_right]
  exact fun c hc => (H.tiles.append_disjoint hc hb).symm

theorem header_frame {m m' : Mem} {w : Set Nat} {l : List Block} (hw : SameOutside w m m')
    (hl : ∀ b ∈ l, sizeOf m b.addr = b.size) (hd : ∀ b ∈ l, b.Ok ∧ Disjoint b.bytes w) :
    ∀ b ∈ l, sizeOf m' b.addr = b.size := by
  intro b hb
  obtain ⟨hok, hdis⟩ := hd b hb
  rw [sizeOf_frame hw (hdis.mono_left (Block.node_subset hok.size))]
  exact hl b hb

/-- What an operation of the allocator leaves alone. -/
structure Edits (w : Set Nat) (s s' : State) : Prop where
  mem : SameOutside w s.mem s'.mem
  mapped : s'.mapped = s.mapped

theorem nodes_subset {l : List Block} {w : Set Nat} (h : ∀ b ∈ l, b.Ok ∧ b.bytes ⊆ w) :
    ⋃ b ∈ l, b.node ⊆ w := by
  simp only [Set.iUnion_subset_iff]
  exact fun b hb => (Block.node_subset (h b hb).1.size).trans (h b hb).2

/-- The last step of `returnBlock`, for a list that is already a heap but for the one
place between `l` and the block `b`. -/
theorem absorbInto_spec {m : Mem} {a : Nat} {l r used : List Block} {b : Block} {c : Set Nat}
    (h : ListSeg m a (l ++ mergeNext b r) 0) (hb : b.addr ≠ 0)
    (ht : Tiles Block.bytes (l ++ mergeNext b r ++ used) c)
    (hok : ∀ x ∈ l ++ mergeNext b r ++ used, x.Ok) (hl : Gapped l) (hr : Gapped (mergeNext b r))
    (hlr : ∀ p ∈ l, ∀ x ∈ mergeNext b r, p.stop ≤ x.addr) :
    ∃ holes, ListSeg (absorbInto m (lastAddr 0 l) b.addr) a holes 0 ∧ Gapped holes ∧
      (∀ x ∈ holes ++ used, x.Ok) ∧ Tiles Block.bytes (holes ++ used) c ∧
      SameOutside (bytesOf l) m (absorbInto m (lastAddr 0 l) b.addr) := by
  rcases List.eq_nil_or_concat l with rfl | ⟨l, p, rfl⟩
  · rw [lastAddr, absorbInto_null]
    exact ⟨mergeNext b r, h, hr, hok, ht, SameOutside.refl _ _⟩
  · simp only [List.concat_eq_append, List.append_assoc, List.cons_append, List.nil_append] at *
    obtain ⟨e, -, rfl, hp0, -, hn⟩ := listSeg_append.mp h
    have hok' : ∀ x ∈ l ++ p :: mergeNext b r, x.Ok := fun x hx => hok x (by
      simp only [List.mem_append, List.mem_cons] at *
      tauto)
    have hap : Apart (l ++ p :: mergeNext b r) := by
      have hall := apart_of_tiles ht hok
      rw [← List.cons_append, ← List.append_assoc] at hall
      exact (apart_append.mp hall).1
    obtain ⟨hgl, -, hgp⟩ := List.pairwise_append.mp hl
    have hpx : ∀ x ∈ mergeNext b r, p.stop ≤ x.addr := hlr p (by simp)
    have hpa : ∀ x ∈ mergeNext b r, p.addr ≤ x.addr := fun x hx => by
      have := hpx x hx
      simp only [Block.stop] at this
      omega
    obtain ⟨hc, hw⟩ := absorbNext_spec h hap hok'
    rw [lastAddr_append_one, absorbInto_eq hp0 hb hn.head_eq]
    refine ⟨l ++ mergeNext p (mergeNext b r), hc, ?_, ?_, ?_, ?_⟩
    · refine List.pairwise_append.mpr ⟨hgl, mergeNext_gapped hr hpx, fun x hx y hy => ?_⟩
      exact (hgp x hx p (by simp)).trans_le (mergeNext_addr hpa y hy)
    · intro x hx
      rcases List.mem_append.mp hx with hx | hx
      · exact mergeNext_ok hok' x hx
      · exact hok x (by simp [hx])
    · apply mergeNext_tiles
      simpa using ht
    · apply hw.mono
      exact (Block.node_subset (hok' p (by simp)).size).trans (bytes_subset (by simp))

theorem link_mapped (s : State) (pred h : Nat) : (link s pred h).mapped = s.mapped := by
  unfold link
  split <;> rfl

theorem returnBlock_returns {s : State} {h pred : Nat}
    (hp : Returns (fun k => findPred s.mem h k 0 s.freeList) pred) :
    Returns (fun k => returnBlock k s h)
      { link s pred h with mem := absorbInto (absorbNext (link s pred h).mem h) pred h } := by
  obtain ⟨k, hk⟩ := hp
  exact ⟨k, fun n hn => by simp only [returnBlock, hk n hn, Option.bind_some]⟩

/-- **`returnBlock`** turns a used block into part of a hole. -/
theorem returnBlock_spec {s : State} {holes used : List Block} {b : Block}
    (H : Heap s holes (b :: used)) :
    ∃ s' holes', Returns (fun k => returnBlock k s b.addr) s' ∧ Heap s' holes' used ∧
      Edits (bytesOf (b :: holes)) s s' := by
  obtain ⟨l, r, rfl, hl, hr⟩ := split_at b.addr holes H.gapped.addr_lt
  have hperm : (l ++ r ++ b :: used).Perm (l ++ b :: r ++ used) := by
    simp only [List.append_assoc, List.cons_append]
    exact List.perm_middle.append_left l
  have ht := H.tiles.perm hperm
  have hok : ∀ x ∈ l ++ b :: r ++ used, x.Ok := fun x hx => H.ok x (hperm.mem_iff.mpr hx)
  have hokl : ∀ x ∈ l ++ b :: r, x.Ok := fun x hx => hok x (List.mem_append_left _ hx)
  have hap : Apart (l ++ b :: r) := (apart_append.mp (apart_of_tiles ht hok)).1
  have hb := hokl b (by simp)
  obtain ⟨hgl, hgr, -⟩ := List.pairwise_append.mp H.gapped
  have hsub : ∀ x ∈ l ++ b :: r, x.bytes ⊆ bytesOf (b :: (l ++ r)) := by
    intro x hx
    apply bytes_subset
    simpa [or_left_comm] using hx
  -- The block is linked between the holes before it and the holes after it.
  have hpred : Returns (fun k => findPred s.mem b.addr k 0 s.freeList) (lastAddr 0 l) :=
    findPred_spec H.chain hl hr
  obtain ⟨hc₁, hw₁⟩ := link_spec H.chain hap hb.addr.ne'
    (fun c hc => (hokl c (List.mem_append_right _ hc)).addr_lt) (H.header b (by simp))
  have hret := returnBlock_returns hpred
  have hmap := link_mapped s (lastAddr 0 l) b.addr
  generalize link s (lastAddr 0 l) b.addr = s₁ at hc₁ hw₁ hret hmap
  -- It absorbs its successor if they touch.
  obtain ⟨hc₂, hw₂⟩ := absorbNext_spec hc₁ hap hokl
  generalize absorbNext s₁.mem b.addr = m₂ at hc₂ hw₂ hret
  have hpair := (List.pairwise_append.mp ht.disjoint).1
  have hbr : ∀ c ∈ r, b.stop ≤ c.addr := fun c hc =>
    stop_le_of_disjoint ((List.pairwise_cons.mp (List.pairwise_append.mp hpair).2.1).1 c hc) (hr c hc)
  have hlb : ∀ p ∈ l, ∀ x ∈ mergeNext b r, p.stop ≤ x.addr := fun p hp x hx =>
    (stop_le_of_disjoint ((List.pairwise_append.mp hpair).2.2 p hp b (by simp)) (hl p hp).le).trans
      (mergeNext_addr hr x hx)
  have hok₂ : ∀ x ∈ l ++ mergeNext b r ++ used, x.Ok := by
    intro x hx
    rcases List.mem_append.mp hx with hx | hx
    · exact mergeNext_ok hokl x hx
    · exact hok x (List.mem_append_right _ hx)
  -- Its predecessor absorbs it if they touch.
  obtain ⟨holes', hc₃, hg₃, hok₃, ht₃, hw₃⟩ := absorbInto_spec hc₂ hb.addr.ne' (mergeNext_tiles ht)
    hok₂ hgl (mergeNext_gapped hgr hbr) hlb
  have hw : SameOutside (bytesOf (b :: (l ++ r))) s.mem (absorbInto m₂ (lastAddr 0 l) b.addr) := by
    refine ((hw₁.mono ?_).trans (hw₂.mono ?_)).trans (hw₃.mono ?_)
    · apply nodes_subset
      intro x hx
      have hx' : x ∈ l ++ b :: r := by simp only [List.mem_append, List.mem_cons] at *; tauto
      exact ⟨hokl x hx', hsub x hx'⟩
    · exact (Block.node_subset hb.size).trans (hsub b (by simp))
    · intro x hx
      obtain ⟨c, hc, hx⟩ := mem_bytesOf.mp hx
      exact hsub c (List.mem_append_left _ hc) hx
  refine ⟨_, holes', hret, ⟨hc₃, hg₃, ?_, hok₃, ?_⟩, hw, hmap⟩
  · apply header_frame hw fun x hx => H.header x (List.mem_cons_of_mem _ hx)
    intro x hx
    refine ⟨hok₃ x (List.mem_append_right _ hx), ?_⟩
    simp only [bytesOf, Set.disjoint_iUnion_right]
    intro c hc
    apply (ht.append_disjoint _ hx).symm
    simp only [List.mem_append, List.mem_cons] at *
    tauto
  · rwa [State.mappedBytes, hmap]

end OsCoursework.Malloc
