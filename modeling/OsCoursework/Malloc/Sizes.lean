import OsCoursework.Malloc.Canonical

/-!
# Sizes near 2^64

Clients may ask for any 64-bit size here. The sums in `malloc` wrap above 2^64 - 8, and so does the
product in `calloc`.
-/

open OsCoursework.ByteMem OsCoursework.Fuel OsCoursework.Tiling OsCoursework.Transition

namespace OsCoursework.Malloc

/-- The sizes are `size_t`. -/
def Call.Word : Call → Prop
  | .malloc size => size < 2 ^ 64
  | .free _ => True
  | .calloc count size => count < 2 ^ 64 ∧ size < 2 ^ 64
  | .realloc _ size => size < 2 ^ 64

/-- An honest `mmap` that fails for the length 0. -/
structure Os (ps : PageSize) (s : State) (mmap : Mmap) : Prop where
  honest : Honest ps s mmap
  empty : ∀ hint, mmap hint 0 = none

inductive SizedEvent where
  | call (c : Call) (mmap : Mmap) (r : Nat)
  | write (p i : Nat) (v : Byte)

inductive SizedStep (ps : PageSize) : World → SizedEvent → World → Prop
  | call {w : World} {c : Call} {mmap : Mmap} {r : Nat} {s' : State} (harg : c.arg = 0 ∨ c.arg ∈ w.live)
      (hword : c.Word) (hos : Os ps w.heap mmap)
      (hr : Returns (fun k => c.exec ps.bytes mmap k w.heap) (r, s')) :
      SizedStep ps w (.call c mmap r) ⟨s', c.held r w.live⟩
  | write {w : World} {p i : Nat} {v : Byte} (hp : p ∈ w.live) (hi : i < w.sizeAt p) :
      SizedStep ps w (.write p i v)
        { w with heap := { w.heap with mem := Function.update w.heap.mem (p + i) v } }

/-- All runs, with requests of any size. -/
def anySize (ps : PageSize) : System World SizedEvent where
  init w := ∃ m, w = ⟨State.start m, []⟩
  step := SizedStep ps

/-- No hole is large enough, and `mmap` fails. -/
def Refused (ps : PageSize) (mmap : Mmap) (s : State) (n : Nat) : Prop :=
  (∀ holes, ListSeg s.mem s.freeList holes 0 → ∀ b ∈ holes, b.size < roundSize n) ∧
    mmap s.nextBlock (mmapLength ps.bytes (roundSize n)) = none

/-- The request is at most 2^64 - 8, or what it wraps to is refused. -/
def Bounded (ps : PageSize) (mmap : Mmap) (s : State) (request : Nat) : Prop :=
  request ≤ 2 ^ 64 - 8 ∨ Refused ps mmap s (wrap request)

def BoundedStep (ps : PageSize) (w : World) : SizedEvent → Prop
  | .call c mmap _ => Bounded ps mmap w.heap c.request
  | .write _ _ _ => True

/-- The size that the block at `r` has on record. -/
def recorded (s : State) (r : Nat) : Nat := sizeOf s.mem (wrapSub r 8)

/-- The call returns `NULL` or a block with at least so many bytes on record. -/
def Enough (call : Nat → Option (Nat × State)) (n : Nat) : Prop :=
  ∃ r s', Returns call (r, s') ∧ (r = 0 ∨ n ≤ recorded s' r)

/-- If the call returns a block at all, it has fewer bytes on record. -/
def TooSmall (call : Nat → Option (Nat × State)) (n : Nat) : Prop :=
  ∀ r s', Returns call (r, s') → r ≠ 0 → recorded s' r < n

/-! ## No block in the first 16 bytes -/

/-- The regions begin behind the first 16 bytes, as no page begins before. -/
def Low (s : State) : Prop := ∀ x ∈ s.mappedBytes, 16 ≤ x

section Low

variable {ps : PageSize} {psize : Nat} {mmap : Mmap} {s s' s'' : State} {fuel : Nat}

theorem getBlockLoop_mapped {n pred curr : Nat} {r : Nat × State} (hret : getBlockLoop n fuel s pred curr = some r) :
    r.2.mapped = s.mapped := by
  induction fuel generalizing pred curr with
  | zero => cases hret
  | succ fuel ih =>
    unfold getBlockLoop at hret
    split_ifs at hret
    · rw [← Option.some.inj hret]
    · rw [← Option.some.inj hret]
    · rw [← Option.some.inj hret]
    · exact ih hret

/-- At most one region more, as `mmap` gave it for a length that `malloc` asks. -/
def Grew (psize : Nat) (mmap : Mmap) (s s' : State) : Prop :=
  s'.mapped = s.mapped ∨
    ∃ hint n a, mmap hint (mmapLength psize n) = some a ∧ s'.mapped = (a, mmapLength psize n) :: s.mapped

theorem Grew.of_mapped (h : Grew psize mmap s s') (hmapped : s''.mapped = s'.mapped) : Grew psize mmap s s'' := by
  unfold Grew at *
  rwa [hmapped]

theorem malloc_grew {n : Nat} {r : Nat × State} (hret : malloc psize mmap fuel s n = some r) :
    Grew psize mmap s r.2 := by
  obtain ⟨⟨a, s₁⟩, hget, hrest⟩ := Option.bind_eq_some_iff.mp hret
  have hmapped : s₁.mapped = s.mapped := getBlockLoop_mapped hget
  simp only at hrest
  split_ifs at hrest
  · cases hgrow : growHeap psize mmap s₁ (roundSize n) with
    | none =>
      rw [hgrow] at hrest
      rw [← Option.some.inj hrest]
      exact Or.inl hmapped
    | some g =>
      rw [hgrow] at hrest
      obtain ⟨a, hregion, rfl⟩ := Option.map_eq_some_iff.mp hgrow
      have hsplit := split_mapped hrest
      dsimp only at hsplit
      rw [hmapped] at hsplit
      exact Or.inr ⟨_, _, a, hregion, hsplit⟩
  · exact Or.inl ((split_mapped hrest).trans hmapped)

theorem exec_grew {c : Call} {r : Nat × State} (hret : c.exec psize mmap fuel s = some r) :
    Grew psize mmap s r.2 := by
  cases c with
  | malloc size => exact malloc_grew hret
  | free ptr =>
    obtain ⟨s', hfree, rfl⟩ := Option.map_eq_some_iff.mp hret
    exact Or.inl (free_mapped hfree)
  | calloc count size =>
    obtain ⟨⟨p, s₁⟩, hmal, hrest⟩ := Option.bind_eq_some_iff.mp hret
    have h₁ := malloc_grew hmal
    simp only at hrest
    split_ifs at hrest
    · rw [← Option.some.inj hrest]
      exact h₁
    · rw [← Option.some.inj hrest]
      exact h₁
  | realloc ptr size =>
    simp only [Call.exec, realloc] at hret
    split_ifs at hret
    · exact malloc_grew hret
    · obtain ⟨s', hfree, rfl⟩ := Option.map_eq_some_iff.mp hret
      exact Or.inl (free_mapped hfree)
    · obtain ⟨⟨p, s₁⟩, hmal, hrest⟩ := Option.bind_eq_some_iff.mp hret
      have h₁ := malloc_grew hmal
      by_cases hp : p = 0
      · rw [if_pos hp] at hrest
        rw [← Option.some.inj hrest]
        exact h₁
      · rw [if_neg hp] at hrest
        obtain ⟨m, -, hback⟩ := Option.bind_eq_some_iff.mp hrest
        obtain ⟨s', hfree, rfl⟩ := Option.map_eq_some_iff.mp hback
        have hkept := free_mapped hfree
        exact h₁.of_mapped hkept

theorem Low.grew (h : Low s) (hm : Honest ps s mmap) (hgrew : Grew ps.bytes mmap s s') : Low s' := by
  unfold Low State.mappedBytes at *
  rcases hgrew with heq | ⟨hint, n, a, hregion, heq⟩
  · rwa [heq]
  · obtain ⟨hpage, h0, -, -⟩ := hm _ _ _ hregion
    have h16 : 16 ≤ a := Nat.le_of_dvd h0 (ps.aligned.trans hpage)
    intro x hx
    simp only [heq, List.mem_cons, Set.iUnion_iUnion_eq_or_left, Set.mem_union, Set.mem_Ico] at hx
    rcases hx with hx | hx
    · exact h16.trans hx.1
    · exact h x hx

end Low

/-! ## Requests up to 2^64 - 8 -/

section Bounded

variable {ps : PageSize} {mmap : Mmap} {s : State} {holes used : List Block} {n : Nat}

theorem inBounds_of_low (h : Low s) (hos : Os ps s mmap) (hn : n ≤ 2 ^ 64 - 8) : InBounds ps mmap s n := by
  intro holes used H
  refine ⟨hn, fun b hb hle => ?_, fun hzero => hos.empty _⟩
  have hok := H.ok b (List.mem_append_left _ hb)
  have hstop := hok.stop
  have hmem : b.addr ∈ s.mappedBytes := by
    apply H.tiles.subset (List.mem_append_left _ hb)
    refine ⟨le_rfl, ?_⟩
    unfold Block.stop
    omega
  have h16 := h b.addr hmem
  unfold Block.stop at hstop
  omega

theorem Heap.recorded_eq {b : Block} (H : Heap s holes (b :: used)) : recorded s (b.addr + 8) = b.size := by
  rw [recorded, (H.ok b (by simp)).sub_ptr]
  exact H.header b List.mem_cons_self

theorem malloc_enough (H : Heap s holes used) (hm : Honest ps s mmap) (hf : Fits ps mmap s holes n) :
    Enough (fun k => malloc ps.bytes mmap k s n) n := by
  obtain ⟨r, s', hret, ⟨rfl, -⟩ | ⟨b, holes', rfl, hle, H', -⟩⟩ := malloc_spec H hm hf
  · exact ⟨0, s', hret, Or.inl rfl⟩
  · exact ⟨b.addr + 8, s', hret, Or.inr (hle.trans H'.recorded_eq.ge)⟩

theorem calloc_enough {count size : Nat} (H : Heap s holes used) (hm : Honest ps s mmap)
    (hf : Fits ps mmap s holes (count * size)) :
    Enough (fun k => calloc ps.bytes mmap k s count size) (count * size) := by
  obtain ⟨r, s', hret, ⟨rfl, -⟩ | ⟨b, holes', rfl, hle, H', -⟩⟩ := calloc_spec H hm hf
  · exact ⟨0, s', hret, Or.inl rfl⟩
  · exact ⟨b.addr + 8, s', hret, Or.inr (hle.trans H'.recorded_eq.ge)⟩

/-! ## Refused requests -/

theorem malloc_refused (H : Heap s holes used) (h : Refused ps mmap s n) :
    Returns (fun k => malloc ps.bytes mmap k s n) (0, s) := by
  obtain ⟨hsmall, hnone⟩ := h
  have hgrow : growHeap ps.bytes mmap s (roundSize n) = none := by
    simp only [growHeap, hnone, Option.map_none]
  rcases getBlock_spec H (roundSize n) with ⟨hget, -⟩ | ⟨b, s₁, holes₁, -, hb, hperm, -, -⟩
  · exact malloc_failed hget hgrow
  · have hlt := hsmall holes H.chain b (hperm.mem_iff.mpr List.mem_cons_self)
    omega

theorem calloc_refused {count size : Nat} (H : Heap s holes used) (h : Refused ps mmap s (wrap (count * size))) :
    Returns (fun k => calloc ps.bytes mmap k s count size) (0, s) := by
  have hmal := malloc_refused H h
  unfold calloc
  exact hmal.bind (by simp)

theorem exec_refused {c : Call} (H : Heap s holes used) (hword : c.Word) (hbig : 2 ^ 64 - 8 < c.request)
    (h : Refused ps mmap s (wrap c.request)) : Returns (fun k => c.exec ps.bytes mmap k s) (0, s) := by
  cases c with
  | malloc size =>
    have hw : wrap size = size := wrap_of_lt hword
    rw [Call.request, hw] at h
    exact malloc_refused H h
  | free ptr => cases hbig
  | calloc count size => exact calloc_refused H h
  | realloc ptr size =>
    have hw : wrap size = size := wrap_of_lt hword
    rw [Call.request, hw] at h
    have hmal := malloc_refused H h
    have hsize : size ≠ 0 := by
      rintro rfl
      cases hbig
    by_cases hptr : ptr = 0
    · simp only [Call.exec, realloc, if_pos hptr]
      exact hmal
    · simp only [Call.exec, realloc, if_neg hptr, if_neg hsize]
      exact hmal.bind (by simp)

theorem held_null {c : Call} (hbig : 2 ^ 64 - 8 < c.request) (live : List Nat) : c.held 0 live = live := by
  cases c with
  | malloc size => rfl
  | free ptr => cases hbig
  | calloc count size => rfl
  | realloc ptr size =>
    have hsize : size ≠ 0 := by
      rintro rfl
      cases hbig
    simp [Call.held, hsize]

end Bounded

/-! ## All runs -/

theorem bounded_inv {ps : PageSize} {w : World} (h : Reachable ((anySize ps).restrict (BoundedStep ps)) w) :
    Inv w ∧ Low w.heap := by
  apply h.invariant (P := fun w => Inv w ∧ Low w.heap)
  · rintro w ⟨m, rfl⟩
    refine ⟨inv_start m, fun x hx => ?_⟩
    simp [State.mappedBytes, State.start] at hx
  · rintro w e w' - ⟨hinv, hlow⟩ ⟨hbounded, hstep⟩
    cases hstep with
    | @call c mmap r s' harg hword hos hr =>
      have hlow' : Low s' := by
        obtain ⟨k, hk⟩ := hr
        exact hlow.grew hos.honest (exec_grew (hk k le_rfl))
      refine ⟨?_, hlow'⟩
      by_cases hle : c.request ≤ 2 ^ 64 - 8
      · obtain ⟨r', s'', hret, hinv', -⟩ := call_ok hinv harg hos.honest (inBounds_of_low hlow hos hle)
        obtain ⟨rfl, rfl⟩ := Prod.mk.inj (hret.unique hr)
        exact hinv'
      · obtain ⟨holes, H⟩ := hinv.heap
        have hbig := not_le.mp hle
        have hret := exec_refused H hword hbig (hbounded.resolve_left hle)
        obtain ⟨rfl, rfl⟩ := Prod.mk.inj (hret.unique hr)
        rw [held_null hbig]
        exact hinv
    | write hp hi => exact ⟨inv_write hinv hp hi, hlow⟩

/-! ## Requests from 2^64 - 3 on

The size that `malloc` looks for has wrapped to 0.
-/

section Wrapped

variable {ps : PageSize} {mmap : Mmap} {s : State} {holes used : List Block} {b : Block}

theorem mappedBytes_blocks (s : State) (l : List Block) :
    State.mappedBytes { s with mapped := l.map fun b => (b.addr, 8 + b.size) } = bytesOf l := by
  ext x
  simp [State.mappedBytes, mem_bytesOf, Block.bytes, Block.stop, Nat.add_assoc, and_left_comm]

theorem returnBlock_with_mapped (fuel : Nat) (s : State) (m : List (Nat × Nat)) (h : Nat) :
    returnBlock fuel { s with mapped := m } h = (returnBlock fuel s h).map fun t => { t with mapped := m } := by
  unfold returnBlock
  cases findPred s.mem h fuel 0 s.freeList with
  | none => rfl
  | some pred =>
    unfold link
    by_cases hp : pred = 0 <;> simp [hp]

/-- The block without its first 8 bytes. -/
def Block.rest (b : Block) : Block := ⟨b.addr + 8, b.size - 8⟩

/-- The memory after `split` has cut a block of size 0 off. -/
def cutZero (m : Mem) (b : Block) : Mem := setSize (setSize m b.rest.addr b.rest.size) b.addr 0

theorem Block.rest_bytes (hb : 8 ≤ b.size) : b.rest.bytes ⊆ b.bytes := by
  intro x hx
  simp only [Block.bytes, Block.stop, Block.rest, Set.mem_Ico] at *
  omega

theorem Block.Ok.rest (h : b.Ok) (hb : 16 ≤ b.size) : b.rest.Ok := by
  have hstop := h.stop
  refine ⟨?_, ?_, ?_⟩ <;> simp only [Block.stop, Block.rest] at * <;> omega

theorem cutZero_sameOutside (m : Mem) (hb : 16 ≤ b.size) : SameOutside b.bytes m (cutZero m b) := by
  have hrest : 8 ≤ b.rest.size := by
    simp only [Block.rest]
    omega
  have hw := (setSize_sameOutside m b.rest b.rest.size).mono (Block.node_subset hrest)
  have hw' := setSize_sameOutside (setSize m b.rest.addr b.rest.size) b 0
  exact (hw.mono (Block.rest_bytes (by omega))).trans (hw'.mono (Block.node_subset (by omega)))

/-- All but the size field of the block: a heap on the bytes that its own blocks cover. -/
theorem Heap.cut_zero (H : Heap s holes (b :: used)) (hb : 16 ≤ b.size) :
    Heap { s with mem := cutZero s.mem b,
                  mapped := (holes ++ b.rest :: used).map fun c => (c.addr, 8 + c.size) } holes (b.rest :: used) := by
  have hok := H.ok b (by simp)
  have hrest := hok.rest hb
  have hw := cutZero_sameOutside s.mem hb
  have ht := H.tiles.perm List.perm_middle
  obtain ⟨hchain, hheader⟩ := H.outside hw
  refine ⟨hchain, H.gapped, ?_, ?_, ?_⟩
  · intro c hc
    rcases List.mem_cons.mp hc with rfl | hc
    · have hfield : sizeOf (cutZero s.mem b) b.rest.addr =
          sizeOf (setSize s.mem b.rest.addr b.rest.size) b.rest.addr :=
        load_store_ne _ b.addr 0 8 b.rest.addr 8 (Or.inr le_rfl)
      have hstop := hrest.stop
      unfold Block.stop at hstop
      exact hfield.trans ((sizeOf_setSize _ _ _).trans (wrap_of_lt (by omega)))
    · exact hheader c hc
  · intro c hc
    simp only [List.mem_append, List.mem_cons] at hc
    rcases hc with hc | rfl | hc
    · exact H.ok c (by simp [hc])
    · exact hrest
    · exact H.ok c (by simp [hc])
  · refine ⟨?_, (mappedBytes_blocks { s with mem := cutZero s.mem b } _).symm⟩
    have hpair : (b.rest :: (holes ++ used)).Pairwise fun c d => Disjoint c.bytes d.bytes := by
      obtain ⟨hhead, htail⟩ := List.pairwise_cons.mp ht.disjoint
      exact List.pairwise_cons.mpr ⟨fun c hc => (hhead c hc).mono_left (Block.rest_bytes (by omega)), htail⟩
    exact (List.perm_middle.pairwise_iff fun hd => hd.symm).mpr hpair

/-- `split` at 0 leaves a block with less than 16 bytes on record. -/
theorem split_zero (H : Heap s holes (b :: used)) :
    ∃ s', Returns (fun k => split k s b.addr 0) (b.addr + 8, s') ∧ sizeOf s'.mem b.addr < 16 := by
  have hok := H.ok b (by simp)
  have hmem := hok.memOf_eq
  have hsize := H.header b (by simp)
  have hstop := hok.stop
  unfold Block.stop at hstop
  have hwrap : wrap (0 + 16) = 16 := by decide
  by_cases hcut : 16 ≤ b.size
  · have Hc := H.cut_zero hcut
    obtain ⟨s', holes', hret, -, hedits⟩ := returnBlock_spec Hc
    have h2 : wrap (b.addr + 8 + 0) = b.rest.addr := wrap_of_lt (by omega)
    have hs2 : wrapSub (wrapSub b.size 0) 8 = b.rest.size := by
      rw [wrapSub_of_le (Nat.zero_le _) (by omega), wrapSub_of_le (by omega) (by omega)]
      rfl
    refine ⟨{ s' with mapped := s.mapped }, ?_, ?_⟩
    · obtain ⟨k, hk⟩ := hret
      refine ⟨k, fun j hj => ?_⟩
      have hback := congrArg (Option.map fun t : State => { t with mapped := s.mapped }) (hk j hj)
      rw [← returnBlock_with_mapped] at hback
      simp only [split, hwrap, hsize, if_pos hcut, hmem, h2, hs2]
      exact congrArg (Option.map fun s => (b.addr + 8, s)) hback
    · -- The size field is in no block of the heap that `returnBlock` works on.
      have hfield : sizeOf s'.mem b.addr = sizeOf (cutZero s.mem b) b.addr := by
        apply hedits.mem.load_eq
        rw [Set.disjoint_left]
        intro x hx hin
        obtain ⟨c, hc, hxc⟩ := mem_bytesOf.mp hin
        rcases List.mem_cons.mp hc with rfl | hc
        · simp only [Block.bytes, Block.rest, Set.mem_Ico] at hx hxc
          omega
        · have hd := H.tiles.append_disjoint hc List.mem_cons_self
          refine Set.disjoint_left.mp hd hxc ⟨hx.1, ?_⟩
          have hlt := hx.2
          unfold Block.stop
          omega
      have hzero : sizeOf (cutZero s.mem b) b.addr = 0 := sizeOf_setSize _ _ _
      show sizeOf s'.mem b.addr < 16
      rw [hfield, hzero]
      norm_num
  · refine ⟨s, ⟨0, fun j _ => ?_⟩, by omega⟩
    simp only [split, hwrap, hsize, if_neg hcut, hmem]

theorem growHeap_zero (ps : PageSize) (mmap : Mmap) (s : State) :
    growHeap ps.bytes mmap s 0 = growHeap ps.bytes mmap s 8 := by
  have hlen : mmapLength ps.bytes 0 = mmapLength ps.bytes 8 := by
    have hp := ps.lt
    have h16 : 16 ≤ ps.bytes := Nat.le_of_dvd ps.pos ps.aligned
    rw [mmapLength_eq, mmapLength_eq, Nat.mod_eq_of_lt (by omega), Nat.mod_eq_of_lt (by omega)]
    rw [Nat.div_eq_of_lt_le (k := 1) (by omega) (by omega), Nat.div_eq_of_lt_le (k := 1) (by omega) (by omega)]
  unfold growHeap
  rw [hlen]

theorem malloc_zero {n r : Nat} {s' : State} (H : Heap s holes used) (hm : Honest ps s mmap)
    (hn : roundSize n = 0) (hret : Returns (fun k => malloc ps.bytes mmap k s n) (r, s')) (hr : r ≠ 0) :
    recorded s' r < 16 := by
  -- Either way `split` gets a used block.
  suffices hused : ∃ s₁ holes₁ b, Heap s₁ holes₁ (b :: used) ∧
      ∀ {p s₂}, Returns (fun k => split k s₁ b.addr (roundSize n)) (p, s₂) →
        Returns (fun k => malloc ps.bytes mmap k s n) (p, s₂) by
    obtain ⟨s₁, holes₁, b, H₁, hsplits⟩ := hused
    rw [hn] at hsplits
    obtain ⟨s₂, hsplit, hsmall⟩ := split_zero H₁
    obtain ⟨rfl, rfl⟩ := Prod.mk.inj (hret.unique (hsplits hsplit))
    rwa [recorded, (H₁.ok b (by simp)).sub_ptr]
  rcases getBlock_spec H (roundSize n) with ⟨hget, -⟩ | ⟨b, s₁, holes₁, hget, -, -, H₁, -⟩
  · cases hgrow : growHeap ps.bytes mmap s (roundSize n) with
    | none => exact absurd (Prod.mk.inj (hret.unique (malloc_failed hget hgrow))).1 hr
    | some g =>
      obtain ⟨a, s₁⟩ := g
      have hlen : 0 < mmapLength ps.bytes 8 := mmapLength_pos ps (by norm_num)
      have hgrow8 := hgrow
      rw [hn, growHeap_zero] at hgrow8
      obtain ⟨b, rfl, -, -, H₁, -⟩ := growHeap_spec H hm (by norm_num) le_rfl (fun h0 => by omega) hgrow8
      exact ⟨s₁, holes, b, H₁, malloc_grown hget hgrow⟩
  · have hb0 : b.addr ≠ 0 := (H₁.ok b (by simp)).addr.ne'
    exact ⟨s₁, holes₁, b, H₁, malloc_found hget hb0⟩

theorem clearLoop_le (m : Mem) (p n x : Nat) : (clearLoop m p n x).toNat ≤ (m x).toNat := by
  induction n with
  | zero => exact le_rfl
  | succ n ih =>
    unfold clearLoop
    by_cases hx : x = wrap (p + n)
    · rw [hx, Function.update_self]
      exact Nat.zero_le _
    · rw [Function.update_of_ne hx]
      exact ih

theorem recorded_lt (s : State) (r : Nat) : recorded s r < 2 ^ 64 := load_lt s.mem (wrapSub r 8) 8

theorem roundSize_wraps {n : Nat} (hlt : n < 2 ^ 64) (hn : 2 ^ 64 - 3 ≤ n) : roundSize n = 0 := by
  simp only [roundSize, wrap]
  rw [if_neg (by omega)]
  omega

theorem malloc_tooSmall {n : Nat} (H : Heap s holes used) (hm : Honest ps s mmap) (hlt : n < 2 ^ 64)
    (hn : 2 ^ 64 - 3 ≤ n) : TooSmall (fun k => malloc ps.bytes mmap k s n) n := by
  intro r s' hret hr
  have hsmall := malloc_zero H hm (roundSize_wraps hlt hn) hret hr
  omega

theorem calloc_tooSmall {count size : Nat} (H : Heap s holes used) (hm : Honest ps s mmap)
    (hn : 2 ^ 64 - 3 ≤ count * size) : TooSmall (fun k => calloc ps.bytes mmap k s count size) (count * size) := by
  intro r s' hret hr
  by_cases hlt : count * size < 2 ^ 64
  · have hw : wrap (count * size) = count * size := wrap_of_lt hlt
    obtain ⟨k, hk⟩ := hret
    obtain ⟨⟨p, s₁⟩, hmal, hrest⟩ := Option.bind_eq_some_iff.mp (hk k le_rfl)
    rw [hw] at hmal hrest
    have hmal := (malloc_stable ps.bytes mmap s (count * size)).returns hmal
    -- The loop only clears bytes, those of the size field among them.
    simp only at hrest
    split_ifs at hrest with hp
    · obtain ⟨rfl, rfl⟩ := Prod.mk.inj (Option.some.inj hrest)
      have hsmall := malloc_zero H hm (roundSize_wraps hlt hn) hmal hr
      have hle := load_mono (clearLoop_le s₁.mem p (count * size)) (wrapSub p 8) 8
      exact (hle.trans_lt hsmall).trans_le (by omega)
    · obtain ⟨rfl, rfl⟩ := Prod.mk.inj (Option.some.inj hrest)
      exact absurd hr hp
  · exact (recorded_lt s' r).trans_le (not_lt.mp hlt)

end Wrapped

/-! ## The sizes of all blocks -/

/-- **Blocks are large enough** for requests up to 2^64 - 8, as long as every request so far was, or was
refused. A request above 2^64 - 4 gets no block or one that is too small. -/
theorem blocks_enough (ps : PageSize) {w : World} (h : Reachable ((anySize ps).restrict (BoundedStep ps)) w)
    {mmap : Mmap} (hos : Os ps w.heap mmap) :
    (∀ n < 2 ^ 64,
      (Bounded ps mmap w.heap n → Enough (fun k => malloc ps.bytes mmap k w.heap n) n) ∧
        (2 ^ 64 - 3 ≤ n → TooSmall (fun k => malloc ps.bytes mmap k w.heap n) n)) ∧
    ∀ count < 2 ^ 64, ∀ size < 2 ^ 64,
      (Bounded ps mmap w.heap (count * size) →
        Enough (fun k => calloc ps.bytes mmap k w.heap count size) (count * size)) ∧
        (2 ^ 64 - 3 ≤ count * size →
          TooSmall (fun k => calloc ps.bytes mmap k w.heap count size) (count * size)) := by
  obtain ⟨hinv, hlow⟩ := bounded_inv h
  obtain ⟨holes, H⟩ := hinv.heap
  have hm := hos.honest
  constructor
  · intro n hn
    refine ⟨?_, malloc_tooSmall H hm hn⟩
    rintro (hle | href)
    · exact malloc_enough H hm (inBounds_of_low hlow hos hle holes _ H)
    · rw [wrap_of_lt hn] at href
      exact ⟨0, _, malloc_refused H href, Or.inl rfl⟩
  · intro count _ size _
    refine ⟨?_, calloc_tooSmall H hm⟩
    rintro (hle | href)
    · exact calloc_enough H hm (inBounds_of_low hlow hos hle holes _ H)
    · exact ⟨0, _, calloc_refused H href, Or.inl rfl⟩

theorem sample_os : Os samplePage (State.start fun _ => 0) sampleMmap := by
  refine ⟨sampleMmap_honest, fun hint => ?_⟩
  unfold sampleMmap
  exact if_neg fun h => absurd h.2 (by decide)

theorem no_os {s : State} : Os samplePage s fun _ _ => none where
  honest _ _ _ hmap := by cases hmap
  empty _ := rfl

theorem blocks_bounded : Reachable ((anySize samplePage).restrict (BoundedStep samplePage)) blocksWorld := by
  have hfirst : Reachable ((anySize samplePage).restrict (BoundedStep samplePage)) sampleWorld := by
    have hstart : Reachable ((anySize samplePage).restrict (BoundedStep samplePage)) ⟨State.start fun _ => 0, []⟩ :=
      .init ⟨_, rfl⟩
    refine hstart.step (e := .call (.malloc 30) sampleMmap 0x600000000008) ⟨Or.inl (by decide), ?_⟩
    have hresult : sampleCall = some (0x600000000008, (sampleCall.get sampleCall_ends).2) := by
      refine (Option.some_get sampleCall_ends).symm.trans (congrArg some (Prod.ext ?_ rfl))
      decide +kernel
    have hword : (Call.malloc 30).Word := by norm_num [Call.Word]
    exact .call (Or.inl rfl) hword sample_os ((exec_stable _ _ _ _).returns hresult)
  have hword : ∀ c ∈ [Call.malloc 50, .malloc 20, .malloc 40, .free 0x600000000030], c.Word := by
    simp [Call.Word]
  refine foldlM_reachable (fun c hc w w' hw hcall => ?_) hfirst (Option.some_get blocksRun_ends).symm
  obtain ⟨⟨harg, hrequest⟩, hcall⟩ := Option.ite_none_right_eq_some.mp hcall
  obtain ⟨⟨r, s⟩, hexec, rfl⟩ := Option.map_eq_some_iff.mp hcall
  have hret := (exec_stable samplePage.bytes (fun _ _ => none) w.heap c).returns hexec
  exact hw.step (e := .call c (fun _ _ => none) r) ⟨Or.inl (hrequest.trans (by norm_num)),
    .call harg (hword c hc) no_os hret⟩

/-- One request takes a part of the first hole, and the other one all of it. -/
theorem blocks_enough_sample :
    Enough (fun k => malloc samplePage.bytes (fun _ _ => none) k blocksWorld.heap 16) 16 ∧
    Enough (fun k => calloc samplePage.bytes (fun _ _ => none) k blocksWorld.heap 13 4) 52 ∧
    TooSmall (fun k => malloc samplePage.bytes (fun _ _ => none) k blocksWorld.heap (2 ^ 64 - 1)) (2 ^ 64 - 1) := by
  obtain ⟨hmalloc, hcalloc⟩ := blocks_enough samplePage blocks_bounded no_os
  refine ⟨(hmalloc 16 (by norm_num)).1 (Or.inl (by norm_num)), ?_, (hmalloc _ (by norm_num)).2 (by norm_num)⟩
  exact (hcalloc 13 (by norm_num) 4 (by norm_num)).1 (Or.inl (by norm_num))

theorem not_enough {call : Nat → Option (Nat × State)} (hstable : Stable call) {fuel n r size : Nat}
    (hrun : (call fuel).map (fun res => (res.1, recorded res.2 res.1)) = some (r, size)) (hr : r ≠ 0)
    (hsize : size < n) : ¬ Enough call n := by
  rintro ⟨r', s', hret, hor⟩
  obtain ⟨res, hres, hplace⟩ := Option.map_eq_some_iff.mp hrun
  obtain rfl := hret.unique (hstable.returns hres)
  obtain ⟨rfl, rfl⟩ := Prod.mk.inj hplace
  have hle : n ≤ recorded s' r' := hor.resolve_left hr
  exact absurd hsize (not_lt.mpr hle)

/-- The first call of the program asks for almost or for all of the address space. -/
theorem huge_not_enough :
    ¬ Enough (fun k => malloc samplePage.bytes sampleMmap k (State.start fun _ => 0) (2 ^ 64 - 1)) (2 ^ 64 - 1) ∧
    ¬ Enough (fun k => calloc samplePage.bytes sampleMmap k (State.start fun _ => 0) (2 ^ 32) (2 ^ 32))
      (2 ^ 32 * 2 ^ 32) := by
  constructor
  · have hrun : (malloc samplePage.bytes sampleMmap 1 (State.start fun _ => 0) (2 ^ 64 - 1)).map
        (fun res => (res.1, recorded res.2 res.1)) = some (0x600000000008, 0) := by decide +kernel
    exact not_enough (malloc_stable _ _ _ _) hrun (by decide) (by norm_num)
  · have hrun : (calloc samplePage.bytes sampleMmap 1 (State.start fun _ => 0) (2 ^ 32) (2 ^ 32)).map
        (fun res => (res.1, recorded res.2 res.1)) = some (0x600000000008, 8) := by decide +kernel
    exact not_enough (calloc_stable _ _ _ _ _) hrun (by decide) (by norm_num)

end OsCoursework.Malloc
