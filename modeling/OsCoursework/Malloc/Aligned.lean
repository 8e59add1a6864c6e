import OsCoursework.Malloc.Sizes

/-!
# Alignment

Sizes are rounded to a multiple of 4. A block whose size is no multiple of 8 puts the hole that is split off
behind it on an odd half of a word. The source leaves the question open.
-/

open OsCoursework.ByteMem OsCoursework.Fuel OsCoursework.Tiling OsCoursework.Runs OsCoursework.Transition

namespace OsCoursework.Malloc

/-! ## Where the blocks of a call come from -/

/-- What the call asks `malloc` for. `none`: it does not. -/
def Call.wanted : Call → Option Nat
  | .malloc size => some size
  | .free _ => none
  | .calloc count size => some (count * size)
  | .realloc ptr size => if ptr ≠ 0 ∧ size = 0 then none else some size

section Placed

variable {ps : PageSize} {mmap : Mmap} {w : World} {holes : List Block} {n r : Nat} {s' : State}

theorem Inv.holes_eq (h : Inv w) (hlist : ListSeg w.heap.mem w.heap.freeList holes 0) : Heap w.heap holes w.blocks := by
  obtain ⟨holes', H⟩ := h.heap
  rwa [hlist.unique H.chain]

/-- The request got no block, or the one behind the pointer. -/
def Placed (ps : PageSize) (mmap : Mmap) (s s' : State) (holes : List Block) (n r : Nat) : Prop :=
  (r = 0 ∧ served ps.bytes mmap s holes n = none) ∨ (8 ≤ r ∧ served ps.bytes mmap s holes n = some (blockAt s'.mem r))

theorem malloc_placed (h : Inv w) (hm : Honest ps w.heap mmap) (hn : n ≤ 2 ^ 63)
    (hret : Returns (fun k => malloc ps.bytes mmap k w.heap n) (r, s'))
    (hlist : ListSeg w.heap.mem w.heap.freeList holes 0) : Placed ps mmap w.heap s' holes n r := by
  have H := h.holes_eq hlist
  obtain ⟨r', s'', hret', hres⟩ := malloc_spec H hm (fits_of_le hn ps mmap w.heap holes)
  obtain ⟨rfl, rfl⟩ := Prod.mk.inj (hret.unique hret')
  rcases hres with ⟨hnull, -, hnone⟩ | ⟨b, holes', rfl, -, H', -, hserved, -⟩
  · exact Or.inl ⟨hnull, hnone⟩
  · exact Or.inr ⟨by omega, by rw [hserved, H'.blockAt_eq]⟩

theorem realloc_placed {p : Nat} (h : Inv w) (hm : Honest ps w.heap mmap) (hp : p ∈ w.live) (hn : n ≤ 2 ^ 63)
    (hz : n ≠ 0) (hret : Returns (fun k => realloc ps.bytes mmap k w.heap p n) (r, s'))
    (hlist : ListSeg w.heap.mem w.heap.freeList holes 0) : Placed ps mmap w.heap s' holes n r := by
  obtain ⟨haddr, -, holes', H⟩ := h.take hp
  obtain rfl := hlist.unique H.chain
  obtain ⟨r', s'', hret', hres⟩ := realloc_spec H hm (fits_of_le hn ps mmap w.heap holes) hz
  rw [haddr] at hret'
  obtain ⟨rfl, rfl⟩ := Prod.mk.inj (hret.unique hret')
  rcases hres with ⟨hnull, -, hnone⟩ | ⟨b, holes', rfl, -, H', -, hserved, -⟩
  · exact Or.inl ⟨hnull, hnone⟩
  · exact Or.inr ⟨by omega, by rw [hserved, H'.blockAt_eq]⟩

theorem free_null {p : Nat} (hret : Returns (fun k => (free k w.heap p).map fun s => (0, s)) (r, s')) : r = 0 := by
  obtain ⟨k, hk⟩ := hret
  obtain ⟨s'', -, heq⟩ := Option.map_eq_some_iff.mp (hk k le_rfl)
  exact (Prod.mk.inj heq).1.symm

theorem call_placed {c : Call} (h : Inv w) (hl : Legal (2 ^ 63) w c) (hm : Honest ps w.heap mmap)
    (hret : Returns (fun k => c.exec ps.bytes mmap k w.heap) (r, s'))
    (hlist : ListSeg w.heap.mem w.heap.freeList holes 0) :
    (c.wanted = none ∧ r = 0) ∨ ∃ n, c.wanted = some n ∧ Placed ps mmap w.heap s' holes n r := by
  cases c with
  | malloc size => exact Or.inr ⟨size, rfl, malloc_placed h hm hl.request hret hlist⟩
  | free ptr => exact Or.inl ⟨rfl, free_null hret⟩
  | calloc count size =>
    right
    have H := h.holes_eq hlist
    obtain ⟨r', s'', hret', hres⟩ := calloc_spec H hm (fits_of_le hl.request ps mmap w.heap holes)
    obtain ⟨rfl, rfl⟩ := Prod.mk.inj (hret.unique hret')
    refine ⟨count * size, rfl, ?_⟩
    rcases hres with ⟨hnull, -, hnone⟩ | ⟨b, holes', rfl, -, H', -, hserved, -⟩
    · exact Or.inl ⟨hnull, hnone⟩
    · exact Or.inr ⟨by omega, by rw [hserved, H'.blockAt_eq]⟩
  | realloc ptr size =>
    by_cases h0 : ptr = 0
    · right
      simp only [Call.exec, realloc, if_pos h0] at hret
      exact ⟨size, if_neg fun hptr => hptr.1 h0, malloc_placed h hm hl.request hret hlist⟩
    · by_cases hz : size = 0
      · left
        simp only [Call.exec, realloc, if_neg h0, if_pos hz] at hret
        exact ⟨if_pos ⟨h0, hz⟩, free_null hret⟩
      · right
        exact ⟨size, if_neg fun hptr => hz hptr.2,
          realloc_placed h hm (hl.arg.resolve_left h0) hl.request hz hret hlist⟩

theorem mem_held {c : Call} (hwanted : c.wanted = some n) (hr : r ≠ 0) (live : List Nat) : r ∈ c.held r live := by
  cases c with
  | malloc size => simp [Call.held, hr]
  | free ptr => cases hwanted
  | calloc count size => simp [Call.held, hr]
  | realloc ptr size =>
    simp only [Call.wanted, Option.ite_none_left_eq_some] at hwanted
    simp [Call.held, if_neg hwanted.1, hr]

theorem held_kept {c : Call} (h : Inv w) (hpost : CallPost w c r s') {q : Nat} (hq : q ∈ c.held r w.live) :
    (q = r ∧ r ≠ 0) ∨ (q ∈ w.live ∧ blockAt s'.mem q = blockAt w.heap.mem q) := by
  have hothers : ∀ q ∈ w.live.erase c.arg, blockAt s'.mem q = blockAt w.heap.mem q :=
    List.map_inj_left.mp (blocks_kept hpost.others)
  have hheld : q ∈ (if r = 0 then w.live.erase c.arg else r :: w.live.erase c.arg) →
      (q = r ∧ r ≠ 0) ∨ (q ∈ w.live ∧ blockAt s'.mem q = blockAt w.heap.mem q) := by
    intro hq
    split_ifs at hq with h0
    · exact Or.inr ⟨List.mem_of_mem_erase hq, hothers q hq⟩
    · rcases List.mem_cons.mp hq with heq | hq
      · exact Or.inl ⟨heq, h0⟩
      · exact Or.inr ⟨List.mem_of_mem_erase hq, hothers q hq⟩
  unfold Call.held at hq
  cases c with
  | malloc size =>
    have harg : (Call.malloc size).arg = 0 := rfl
    rw [harg, h.erase_null] at hheld
    exact hheld hq
  | free ptr => exact Or.inr ⟨List.mem_of_mem_erase hq, hothers q hq⟩
  | calloc count size =>
    have harg : (Call.calloc count size).arg = 0 := rfl
    rw [harg, h.erase_null] at hheld
    exact hheld hq
  | realloc ptr size =>
    dsimp only at hq
    split_ifs at hq with hz h0
    · exact Or.inr ⟨List.mem_of_mem_erase hq, hothers q hq⟩
    · by_cases hptr : ptr = 0
      · have harg : (Call.realloc ptr size).arg = 0 := hptr
        rw [harg, h.erase_null] at hothers
        exact Or.inr ⟨hq, hothers q hq⟩
      · have hsame := hpost.failed ptr size rfl hptr (fun h0 => hz ⟨hptr, h0⟩) h0
        exact Or.inr ⟨hq, by rw [hsame]⟩
    · rw [if_neg h0] at hheld
      exact hheld hq

end Placed

/-! ## Runs with the answers of `mmap` -/

inductive LabelledStep (ps : PageSize) (limit : Nat) : World → SizedEvent → World → Prop
  | call {w : World} {c : Call} {mmap : Mmap} {r : Nat} {s' : State} (hl : Legal limit w c)
      (hm : Honest ps w.heap mmap) (hr : Returns (fun k => c.exec ps.bytes mmap k w.heap) (r, s')) :
      LabelledStep ps limit w (.call c mmap r) ⟨s', c.held r w.live⟩
  | write {w : World} {p i : Nat} {v : Byte} (hp : p ∈ w.live) (hi : i < w.sizeAt p) :
      LabelledStep ps limit w (.write p i v)
        { w with heap := { w.heap with mem := Function.update w.heap.mem (p + i) v } }

/-- The runs of `system`, with the answers of `mmap` in the labels. -/
def labelled (ps : PageSize) (limit : Nat) : System World SizedEvent where
  init := (system ps limit).init
  step := LabelledStep ps limit

theorem labelled_reachable_iff {ps : PageSize} {limit : Nat} {w : World} :
    Reachable (labelled ps limit) w ↔ Reachable (system ps limit) w := by
  constructor
  · intro h
    refine Reachable.invariant (M := labelled ps limit) ?_ ?_ h
    · exact fun w hw => Reachable.init hw
    · intro w e w' _ hw hstep
      cases hstep with
      | call hl hm hr => exact hw.step (Step.call hl hm hr)
      | write hp hi => exact hw.step (Step.write hp hi)
  · intro h
    refine Reachable.invariant (M := system ps limit) ?_ ?_ h
    · exact fun w hw => Reachable.init hw
    · intro w e w' _ hw hstep
      cases hstep with
      | call hl hm hr => exact hw.step (LabelledStep.call hl hm hr)
      | write hp hi => exact hw.step (LabelledStep.write hp hi)

/-! ## Alignment -/

/-- Every pointer that clients hold and every hole is a multiple of 8. -/
def WordAligned (w : World) : Prop :=
  (∀ p ∈ w.live, 8 ∣ p) ∧ ∀ holes, ListSeg w.heap.mem w.heap.freeList holes 0 → ∀ b ∈ holes, 8 ∣ b.addr

/-- No hole is split off behind the block that serves the request. -/
def Uncut (ps : PageSize) (mmap : Mmap) (s : State) (size : Nat) : Prop :=
  ∀ holes, ListSeg s.mem s.freeList holes 0 → ∀ b, source ps.bytes mmap s holes (roundSize size) = some b →
    b.size < roundSize size + 16

/-- The call asks for no odd multiple of 4 bytes, or a whole block serves it. -/
def AlignedStep (ps : PageSize) (w : World) : SizedEvent → Prop
  | .call c mmap _ => ∀ n, c.wanted = some n → 8 ∣ roundSize n ∨ Uncut ps mmap w.heap n
  | .write _ _ _ => True

def Block.Aligned (b : Block) : Prop := 8 ∣ b.addr ∧ 8 ∣ b.size

/-- The blocks and the regions begin and end on whole words, and so do the holes, which are the rest. -/
structure Aligned (w : World) : Prop where
  blocks : ∀ b ∈ w.blocks, b.Aligned
  mapped : ∀ r ∈ w.heap.mapped, 8 ∣ r.1 ∧ 8 ∣ r.2

section Aligned

variable {ps : PageSize} {mmap : Mmap} {w w' : World} {holes : List Block} {b : Block} {n : Nat}

theorem Block.Aligned.stop (h : b.Aligned) : 8 ∣ b.stop := by
  obtain ⟨haddr, hsize⟩ := h
  unfold Block.stop
  omega

theorem mapped_cells (h : ∀ r ∈ w.heap.mapped, 8 ∣ r.1 ∧ 8 ∣ r.2) : OfCells 8 w.heap.mappedBytes :=
  ofCells_biUnion fun r hr => ofCells_Ico (h r hr).1 (dvd_add (h r hr).1 (h r hr).2)

theorem Aligned.hole_aligned (h : Aligned w) (H : Heap w.heap holes w.blocks) : ∀ b ∈ holes, b.Aligned := by
  intro b hb
  have hused : OfCells 8 (bytesOf w.blocks) := ofCells_biUnion fun c hc =>
    ofCells_Ico (h.blocks c hc).1 (h.blocks c hc).stop
  have hcells : OfCells 8 (cover (holes.map Block.range)) := by
    rw [cover_range, H.hole_bytes]
    exact (mapped_cells h.mapped).sdiff hused
  obtain ⟨haddr, hstop⟩ := H.gapped.separated.dvd hcells (List.mem_map_of_mem hb)
  simp only [Block.range, Block.stop] at haddr hstop
  exact ⟨haddr, by omega⟩

theorem Aligned.wordAligned (h : Aligned w) (hinv : Inv w) : WordAligned w := by
  constructor
  · intro p hp
    obtain ⟨haddr, -⟩ := h.blocks _ (List.mem_map_of_mem hp)
    have h8 := hinv.live p hp
    simp only [blockAt] at haddr
    omega
  · intro holes hlist b hb
    exact (h.hole_aligned (hinv.holes_eq hlist) b hb).1

/-- Where all blocks begin on whole words, they end there too: behind a block comes another one or the end of a
region. -/
theorem WordAligned.aligned (h : WordAligned w) (hinv : Inv w)
    (hmapped : ∀ r ∈ w.heap.mapped, 8 ∣ r.1 ∧ 8 ∣ r.2) : Aligned w := by
  refine ⟨fun b hb => ?_, hmapped⟩
  obtain ⟨holes, H⟩ := hinv.heap
  have haddr : ∀ c ∈ holes ++ w.blocks, 8 ∣ c.addr := by
    intro c hc
    rcases List.mem_append.mp hc with hc | hc
    · exact h.2 holes H.chain c hc
    · obtain ⟨p, hp, rfl⟩ := List.mem_map.mp hc
      have hp8 := h.1 p hp
      simp only [blockAt]
      omega
  have hb' : b ∈ holes ++ w.blocks := List.mem_append_right _ hb
  have hb8 := haddr b hb'
  refine ⟨hb8, ?_⟩
  by_contra hnot
  obtain ⟨x, hx⟩ : ∃ x, b.stop = x + 1 := ⟨b.addr + 7 + b.size, by unfold Block.stop; omega⟩
  have hodd : ¬ 8 ∣ b.stop := by
    unfold Block.stop
    omega
  have hlast : x ∈ w.heap.mappedBytes := by
    apply H.tiles.subset hb'
    refine ⟨?_, by omega⟩
    unfold Block.stop at hx
    omega
  -- The byte behind the block is in the same word, so it is mapped, and another block begins there.
  have hcell : x / 8 = b.stop / 8 := by
    rw [hx]
    exact (Nat.succ_div_of_not_dvd (hx ▸ hodd)).symm
  obtain ⟨c, hc, hcx⟩ := (H.tiles.mem_iff _).mp (mapped_cells hmapped _ _ hcell hlast)
  have hne : b ≠ c := by
    rintro rfl
    exact lt_irrefl _ hcx.2
  have hside := Block.disjoint_iff.mp (H.tiles.disjoint_of_ne hb' hc hne)
  have hc8 := haddr c hc
  have hstart : c.addr = b.stop := by
    have hle := hcx.1
    have hlt := hcx.2
    unfold Block.stop at *
    omega
  exact hodd (hstart ▸ hc8)

theorem PageSize.dvd (ps : PageSize) : 8 ∣ ps.bytes := (by norm_num : 8 ∣ 16).trans ps.aligned

theorem mmapLength_aligned (ps : PageSize) (n : Nat) : 8 ∣ mmapLength ps.bytes n := by
  rw [mmapLength_eq]
  exact ps.dvd.mul_left _

theorem Aligned.source_aligned (h : Aligned w) (H : Heap w.heap holes w.blocks) (hm : Honest ps w.heap mmap)
    (hsource : source ps.bytes mmap w.heap holes n = some b) : b.Aligned := by
  unfold source at hsource
  cases hfind : holes.find? fun c => n ≤ c.size with
  | some c =>
    rw [hfind, Option.some_or] at hsource
    cases hsource
    exact h.hole_aligned H b (List.mem_of_find?_eq_some hfind)
  | none =>
    rw [hfind, Option.none_or] at hsource
    obtain ⟨a, hregion, rfl⟩ := Option.map_eq_some_iff.mp hsource
    have hlen := mmapLength_aligned ps n
    exact ⟨ps.dvd.trans (hm _ _ _ hregion).aligned, by dsimp only; omega⟩

theorem Block.Aligned.cut (h : b.Aligned) (hn : b.size < n + 16 ∨ 8 ∣ n) : (b.cut n).Aligned := by
  refine ⟨h.1, ?_⟩
  unfold Block.cut
  dsimp only
  split_ifs with hroom
  · exact hn.resolve_left (by omega)
  · exact h.2

theorem Aligned.mapped_step {limit : Nat} {e : SizedEvent} (h : Aligned w) (hstep : LabelledStep ps limit w e w') :
    ∀ r ∈ w'.heap.mapped, 8 ∣ r.1 ∧ 8 ∣ r.2 := by
  cases hstep with
  | @call c mmap r s' hl hm hr =>
    obtain ⟨k, hk⟩ := hr
    rcases exec_grew (hk k le_rfl) with heq | ⟨hint, n, a, hregion, heq⟩
    · dsimp only at heq ⊢
      rw [heq]
      exact h.mapped
    · dsimp only at heq ⊢
      rw [heq, List.forall_mem_cons]
      exact ⟨⟨ps.dvd.trans (hm _ _ _ hregion).aligned, mmapLength_aligned ps n⟩, h.mapped⟩
  | write hp hi => exact h.mapped

theorem Aligned.step {e : SizedEvent} (h : Aligned w) (hinv : Inv w) (hgood : AlignedStep ps w e)
    (hstep : LabelledStep ps (2 ^ 31) w e w') : Aligned w' := by
  refine ⟨?_, h.mapped_step hstep⟩
  cases hstep with
  | @call c mmap r s' hl hm hr =>
    have hl63 : Legal (2 ^ 63) w c := ⟨hl.arg, hl.request.trans (by norm_num)⟩
    obtain ⟨holes, H⟩ := hinv.heap
    obtain ⟨r', s'', hret, -, hpost⟩ := call_spec hinv hl63 hm
    obtain ⟨rfl, rfl⟩ := Prod.mk.inj (hret.unique hr)
    intro b hb
    obtain ⟨q, hq, rfl⟩ := List.mem_map.mp hb
    rcases held_kept hinv hpost hq with ⟨rfl, hr0⟩ | ⟨hlive, hsame⟩
    · rcases call_placed hinv hl63 hm hr H.chain with ⟨-, hnull⟩ | ⟨n, hwanted, ⟨hnull, -⟩ | ⟨-, hserved⟩⟩
      · exact absurd hnull hr0
      · exact absurd hnull hr0
      · obtain ⟨b, hsource, hcut⟩ := Option.map_eq_some_iff.mp hserved
        dsimp only
        rw [← hcut]
        apply (h.source_aligned H hm hsource).cut
        exact (hgood n hwanted).symm.imp_left fun huncut => huncut holes H.chain b hsource
    · dsimp only
      rw [hsame]
      exact h.blocks _ (List.mem_map_of_mem hlive)
  | write hp hi =>
    obtain ⟨-, hsame⟩ := write_kept hinv hp hi
    rw [World.blocks, hsame]
    exact h.blocks

theorem Aligned.returned {c : Call} {r : Nat} {s' : State} (h : Aligned w) (hinv : Inv w) (hl : Legal (2 ^ 63) w c)
    (hm : Honest ps w.heap mmap) (hr : Returns (fun k => c.exec ps.bytes mmap k w.heap) (r, s')) : 8 ∣ r := by
  obtain ⟨holes, H⟩ := hinv.heap
  rcases call_placed hinv hl hm hr H.chain with ⟨-, rfl⟩ | ⟨n, -, ⟨rfl, -⟩ | ⟨h8, hserved⟩⟩
  · exact dvd_zero 8
  · exact dvd_zero 8
  · obtain ⟨b, hsource, hcut⟩ := Option.map_eq_some_iff.mp hserved
    have haddr := (h.source_aligned H hm hsource).1
    have hplace : b.addr = r - 8 := congrArg Block.addr hcut
    omega

theorem alignedStep_of_aligned {e : SizedEvent} (hinv : Inv w) (hstep : LabelledStep ps (2 ^ 31) w e w')
    (h' : Aligned w') : AlignedStep ps w e := by
  cases hstep with
  | @call c mmap r s' hl hm hr =>
    have hl63 : Legal (2 ^ 63) w c := ⟨hl.arg, hl.request.trans (by norm_num)⟩
    intro n hwanted
    by_contra hnot
    obtain ⟨hodd, hcut⟩ := not_or.mp hnot
    unfold Uncut at hcut
    push Not at hcut
    obtain ⟨holes, hlist, b, hsource, hroom⟩ := hcut
    have hserved : served ps.bytes mmap w.heap holes n = some (b.cut (roundSize n)) := by
      rw [served, hsource, Option.map_some]
    rcases call_placed hinv hl63 hm hr hlist with ⟨hnone, -⟩ | ⟨n', hwanted', hplaced⟩
    · rw [hwanted] at hnone
      cases hnone
    · obtain rfl : n = n' := Option.some.inj (hwanted.symm.trans hwanted')
      rcases hplaced with ⟨-, hnone⟩ | ⟨h8, hblock⟩
      · rw [hserved] at hnone
        cases hnone
      · have hheld := mem_held hwanted (show r ≠ 0 by omega) w.live
        have heq : b.cut (roundSize n) = blockAt s'.mem r := Option.some.inj (hserved.symm.trans hblock)
        have hsize : (b.cut (roundSize n)).size = roundSize n := if_pos hroom
        apply hodd
        rw [← hsize, heq]
        exact (h'.blocks _ (List.mem_map_of_mem hheld)).2
  | write hp hi => trivial

end Aligned

/-! ## Runs -/

theorem labelled_inv {ps : PageSize} {limit : Nat} (hlim : limit ≤ 2 ^ 63) {w : World}
    (h : Reachable (labelled ps limit) w) : Inv w := reachable_inv hlim (labelled_reachable_iff.mp h)

theorem reachable_aligned {ps : PageSize} {w : World}
    (h : Reachable ((labelled ps (2 ^ 31)).restrict (AlignedStep ps)) w) : Aligned w := by
  apply h.invariant
  · rintro w ⟨m, rfl⟩
    exact ⟨by simp [World.blocks], by simp [State.start]⟩
  · rintro w e w' hw haligned ⟨hgood, hstep⟩
    exact haligned.step (labelled_inv (by norm_num) hw.of_restrict) hgood hstep

/-- **Everything is aligned until a block of an odd multiple of 4 bytes is cut.** As long as every call met the
condition, the pointers and the holes are multiples of 8. The next call still returns one, and leaves only such
holes and pointers exactly when it meets the condition too. -/
theorem aligned_iff (ps : PageSize) {w : World}
    (h : Reachable ((labelled ps (2 ^ 31)).restrict (AlignedStep ps)) w) :
    WordAligned w ∧ ∀ e w', (labelled ps (2 ^ 31)).step w e w' →
      (∀ c mmap r, e = .call c mmap r → 8 ∣ r) ∧ (WordAligned w' ↔ AlignedStep ps w e) := by
  have hinv := labelled_inv (by norm_num) h.of_restrict
  have haligned := reachable_aligned h
  refine ⟨haligned.wordAligned hinv, fun e w' hstep => ⟨?_, ?_⟩⟩
  · rintro c mmap r rfl
    cases hstep with
    | call hl hm hr => exact haligned.returned hinv ⟨hl.arg, hl.request.trans (by norm_num)⟩ hm hr
  · have hinv' : Inv w' := labelled_inv (by norm_num) (h.of_restrict.step hstep)
    constructor
    · intro h'
      exact alignedStep_of_aligned hinv hstep (h'.aligned hinv' (haligned.mapped_step hstep))
    · intro hgood
      exact (haligned.step hinv hgood hstep).wordAligned hinv'

theorem aligned_iff_sample : ∃ s, Returns (fun k => malloc samplePage.bytes sampleMmap k (State.start fun _ => 0) 30)
    (0x600000000008, s) ∧ WordAligned ⟨s, [0x600000000008]⟩ := by
  have hrun : (malloc samplePage.bytes sampleMmap 1 (State.start fun _ => 0) 30).map Prod.fst =
      some 0x600000000008 := by decide +kernel
  obtain ⟨⟨p, s⟩, hmal, hp⟩ := Option.map_eq_some_iff.mp hrun
  obtain rfl : p = 0x600000000008 := hp
  have hret := (malloc_stable samplePage.bytes sampleMmap (State.start fun _ => 0) 30).returns hmal
  let start : World := ⟨State.start fun _ => 0, []⟩
  have hstep : LabelledStep samplePage (2 ^ 31) start (.call (.malloc 30) sampleMmap 0x600000000008)
      ⟨s, [0x600000000008]⟩ :=
    LabelledStep.call ⟨Or.inl rfl, by norm_num [Call.request]⟩ sampleMmap_honest hret
  have hgood : AlignedStep samplePage start (.call (.malloc 30) sampleMmap 0x600000000008) := by
    intro n hwanted
    cases hwanted
    exact Or.inl (by decide)
  have hstart : Reachable ((labelled samplePage (2 ^ 31)).restrict (AlignedStep samplePage)) start :=
    Reachable.init ⟨_, rfl⟩
  exact ⟨s, hret, (aligned_iff samplePage (hstart.step ⟨hgood, hstep⟩)).1⟩

/-- `malloc( 12 )` on an empty heap. -/
theorem twelve_bytes_misalign : ∃ w, Reachable (system samplePage (2 ^ 31)) w ∧
    (∃ holes b, ListSeg w.heap.mem w.heap.freeList holes 0 ∧ b ∈ holes ∧ ¬ 8 ∣ b.addr) ∧
    (∃ r s', Returns (fun k => malloc samplePage.bytes (fun _ _ => none) k w.heap 8) (r, s') ∧ r ≠ 0 ∧ ¬ 8 ∣ r) := by
  have hrun : ((Call.malloc 12).exec samplePage.bytes sampleMmap 1 (State.start fun _ => 0)).map (fun res =>
      (res.1, res.2.freeList, (malloc samplePage.bytes (fun _ _ => none) 3 res.2 8).map Prod.fst)) =
      some (0x600000000008, 0x600000000014, some 0x60000000001c) := by decide +kernel
  obtain ⟨⟨p, s⟩, hcall, heq⟩ := Option.map_eq_some_iff.mp hrun
  simp only [Prod.mk.injEq] at heq
  obtain ⟨rfl, hlist, hsecond⟩ := heq
  obtain ⟨⟨r, s'⟩, hmal, rfl⟩ := Option.map_eq_some_iff.mp hsecond
  have hreach : Reachable (system samplePage (2 ^ 31)) ⟨s, [0x600000000008]⟩ :=
    first_reachable (by norm_num) sampleMmap_honest hcall rfl (by norm_num)
  refine ⟨_, hreach, ?_, _, s', (malloc_stable _ _ _ _).returns hmal, by norm_num, by norm_num⟩
  obtain ⟨holes, H⟩ := (reachable_inv (by norm_num) hreach).heap
  have hchain := H.chain
  cases holes with
  | nil =>
    rw [listSeg_nil, hlist] at hchain
    exact absurd hchain (by norm_num)
  | cons b holes =>
    refine ⟨b :: holes, b, hchain, List.mem_cons_self, ?_⟩
    rw [← hchain.1, hlist]
    norm_num

end OsCoursework.Malloc
