import OsCoursework.Lib.Transition
import OsCoursework.Malloc.Calls

/-!
# Runs of the allocator

Clients call the four functions in any order, with `NULL` or a pointer that they
hold, and write into the blocks that they hold. A call may get any answer from
`mmap` that the OS may give.
-/

open OsCoursework.ByteMem OsCoursework.Fuel OsCoursework.Tiling OsCoursework.Transition

namespace OsCoursework.Malloc

inductive Call where
  | malloc (size : Nat)
  | free (ptr : Nat)
  | calloc (count size : Nat)
  | realloc (ptr size : Nat)

/-- The result of the call. `free` has none, so it gives `NULL`. -/
def Call.exec (psize : Nat) (mmap : Mmap) (fuel : Nat) (s : State) : Call → Option (Nat × State)
  | .malloc size => Malloc.malloc psize mmap fuel s size
  | .free ptr => (Malloc.free fuel s ptr).map fun s => (0, s)
  | .calloc count size => Malloc.calloc psize mmap fuel s count size
  | .realloc ptr size => Malloc.realloc psize mmap fuel s ptr size

/-- The bytes that the call asks for, without wrapping. -/
def Call.request : Call → Nat
  | .malloc size => size
  | .free _ => 0
  | .calloc count size => count * size
  | .realloc _ size => size

/-- The pointer that the call is given, or `NULL`. -/
def Call.arg : Call → Nat
  | .free ptr => ptr
  | .realloc ptr _ => ptr
  | _ => 0

/-- The pointers that clients hold after the call returned `r`. -/
def Call.held (r : Nat) (live : List Nat) : Call → List Nat
  | .malloc _ => if r = 0 then live else r :: live
  | .free ptr => live.erase ptr
  | .calloc _ _ => if r = 0 then live else r :: live
  | .realloc ptr size =>
    if ptr ≠ 0 ∧ size = 0 then live.erase ptr else if r = 0 then live else r :: live.erase ptr

/-- The allocator and the pointers that clients hold. -/
structure World where
  heap : State
  live : List Nat

def blockAt (m : Mem) (p : Nat) : Block := ⟨p - 8, sizeOf m (p - 8)⟩

def World.sizeAt (w : World) (p : Nat) : Nat := sizeOf w.heap.mem (p - 8)

def World.blocks (w : World) : List Block := w.live.map (blockAt w.heap.mem)

inductive Event where
  | call (c : Call) (r : Nat)
  | write (p i : Nat) (v : Byte)

/-- The client may make this call now. -/
structure Legal (limit : Nat) (w : World) (c : Call) : Prop where
  arg : c.arg = 0 ∨ c.arg ∈ w.live
  request : c.request ≤ limit

inductive Step (ps : PageSize) (limit : Nat) : World → Event → World → Prop
  | call {w : World} {c : Call} {mmap : Mmap} {r : Nat} {s' : State} (hl : Legal limit w c)
      (hm : Honest ps w.heap mmap) (hr : Returns (fun k => c.exec ps.bytes mmap k w.heap) (r, s')) :
      Step ps limit w (.call c r) ⟨s', c.held r w.live⟩
  | write {w : World} {p i : Nat} {v : Byte} (hp : p ∈ w.live) (hi : i < w.sizeAt p) :
      Step ps limit w (.write p i v)
        { w with heap := { w.heap with mem := Function.update w.heap.mem (p + i) v } }

/-- All runs from the start of the program, with requests up to `limit`. -/
def system (ps : PageSize) (limit : Nat) : System World Event where
  init w := ∃ m, w = ⟨State.start m, []⟩
  step := Step ps limit

/-! ## The invariant -/

structure Inv (w : World) : Prop where
  live : ∀ p ∈ w.live, 8 < p
  heap : ∃ holes, Heap w.heap holes w.blocks

theorem inv_start (m : Mem) : Inv ⟨State.start m, []⟩ := by
  refine ⟨by simp, [], rfl, List.Pairwise.nil, by simp [World.blocks], by simp [World.blocks], ?_⟩
  have h0 : State.mappedBytes (State.start m) = ∅ := by simp [State.mappedBytes, State.start]
  rw [h0]
  exact Tiles.nil

theorem blockAt_addr {m : Mem} {p : Nat} (h : 8 < p) : (blockAt m p).addr + 8 = p := by
  simp only [blockAt]
  omega

theorem blocks_kept {s s' : State} {live : List Nat}
    (hk : Keeps (live.map (blockAt s.mem)) s s') : live.map (blockAt s'.mem) = live.map (blockAt s.mem) := by
  apply List.map_congr_left
  intro p hp
  have hsize : sizeOf s'.mem (p - 8) = sizeOf s.mem (p - 8) := by
    apply load_congr
    intro x h1 h2
    apply hk
    refine bytes_subset (List.mem_map_of_mem hp) ⟨h1, ?_⟩
    simp only [Block.stop, blockAt]
    omega
  rw [blockAt, blockAt, hsize]

theorem Heap.blockAt_eq {s : State} {holes used : List Block} {b : Block} (H : Heap s holes (b :: used)) :
    blockAt s.mem (b.addr + 8) = b := by
  rw [blockAt, Nat.add_sub_cancel, H.header b (by simp)]

theorem inv_new {s s' : State} {live : List Nat} {holes' : List Block} {b : Block}
    (hl : ∀ p ∈ live, 8 < p) (H : Heap s' holes' (b :: live.map (blockAt s.mem)))
    (hk : Keeps (live.map (blockAt s.mem)) s s') : Inv ⟨s', (b.addr + 8) :: live⟩ := by
  have hb := (H.ok b (by simp)).addr
  refine ⟨?_, holes', ?_⟩
  · intro p hp
    rcases List.mem_cons.mp hp with rfl | hp
    · omega
    · exact hl p hp
  · rw [World.blocks, List.map_cons, H.blockAt_eq, blocks_kept hk]
    exact H

theorem inv_kept {s s' : State} {live : List Nat} {holes' : List Block} (hl : ∀ p ∈ live, 8 < p)
    (H : Heap s' holes' (live.map (blockAt s.mem))) (hk : Keeps (live.map (blockAt s.mem)) s s') :
    Inv ⟨s', live⟩ := by
  refine ⟨hl, holes', ?_⟩
  rw [World.blocks, blocks_kept hk]
  exact H

theorem Inv.take {w : World} (h : Inv w) {p : Nat} (hp : p ∈ w.live) :
    (blockAt w.heap.mem p).addr + 8 = p ∧ (∀ q ∈ w.live.erase p, 8 < q) ∧
      ∃ holes, Heap w.heap holes (blockAt w.heap.mem p :: (w.live.erase p).map (blockAt w.heap.mem)) := by
  obtain ⟨holes, H⟩ := h.heap
  refine ⟨blockAt_addr (h.live p hp), fun q hq => h.live q (List.mem_of_mem_erase hq), holes, ?_⟩
  exact H.perm ((List.perm_cons_erase hp).map _)

/-! ## One call -/

/-- What the call promises about the bytes of the blocks. -/
structure CallPost (w : World) (c : Call) (r : Nat) (s' : State) : Prop where
  others : Keeps ((w.live.erase c.arg).map (blockAt w.heap.mem)) w.heap s'
  zeros : ∀ count size, c = .calloc count size → r ≠ 0 → ∀ i < count * size, s'.mem (r + i) = 0
  moved : ∀ p n, c = .realloc p n → p ≠ 0 → n ≠ 0 → r ≠ 0 →
    ∀ i < copied (min (w.sizeAt p) n), s'.mem (r + i) = w.heap.mem (p + i)
  failed : ∀ p n, c = .realloc p n → p ≠ 0 → n ≠ 0 → r = 0 → s' = w.heap

def CallOk (ps : PageSize) (mmap : Mmap) (w : World) (c : Call) : Prop :=
  ∃ r s', Returns (fun k => c.exec ps.bytes mmap k w.heap) (r, s') ∧ Inv ⟨s', c.held r w.live⟩ ∧
    CallPost w c r s'

theorem Inv.erase_null {w : World} (h : Inv w) : w.live.erase 0 = w.live :=
  List.erase_of_not_mem fun hm => absurd (h.live 0 hm) (by omega)

theorem Inv.allocate {w : World} (h : Inv w) {r : Nat} {s' : State}
    (hres : (r = 0 ∧ s' = w.heap) ∨ ∃ b holes', r = b.addr + 8 ∧ Heap s' holes' (b :: w.blocks) ∧
      Keeps w.blocks w.heap s') :
    Inv ⟨s', if r = 0 then w.live else r :: w.live⟩ ∧ Keeps w.blocks w.heap s' := by
  rcases hres with ⟨rfl, rfl⟩ | ⟨b, holes', rfl, H, hk⟩
  · exact ⟨h, fun _ _ => rfl⟩
  · exact ⟨inv_new h.live H hk, hk⟩

/-- The request fits, whatever the free list holds. -/
def InBounds (ps : PageSize) (mmap : Mmap) (s : State) (size : Nat) : Prop :=
  ∀ holes used, Heap s holes used → Fits ps mmap s holes size

theorem malloc_allocates {ps : PageSize} {mmap : Mmap} {w : World} (h : Inv w)
    (hm : Honest ps w.heap mmap) {size : Nat} (hs : InBounds ps mmap w.heap size) :
    ∃ r s', Returns (fun k => malloc ps.bytes mmap k w.heap size) (r, s') ∧
      Inv ⟨s', if r = 0 then w.live else r :: w.live⟩ ∧ Keeps w.blocks w.heap s' := by
  obtain ⟨holes, H⟩ := h.heap
  obtain ⟨r, s', hret, hres⟩ := malloc_spec H hm (hs holes w.blocks H)
  refine ⟨r, s', hret, h.allocate ?_⟩
  rcases hres with ⟨hr, hs', -⟩ | ⟨b, holes', hr, -, H', hk, -⟩
  · exact Or.inl ⟨hr, hs'⟩
  · exact Or.inr ⟨b, holes', hr, H', hk⟩

theorem free_ok {w : World} (h : Inv w) {ptr : Nat}
    (harg : ptr = 0 ∨ ptr ∈ w.live) :
    ∃ s', Returns (fun k => free k w.heap ptr) s' ∧ Inv ⟨s', w.live.erase ptr⟩ ∧
      Keeps ((w.live.erase ptr).map (blockAt w.heap.mem)) w.heap s' := by
  rcases harg with rfl | hp
  · rw [h.erase_null]
    exact ⟨w.heap, by simp [free], h, fun _ _ => rfl⟩
  · obtain ⟨hptr, hlive, holes, H⟩ := h.take hp
    obtain ⟨s', holes', hret, H', hk⟩ := free_spec H
    rw [hptr] at hret
    exact ⟨s', hret, inv_kept hlive H' hk, hk⟩

theorem realloc_ok {ps : PageSize} {mmap : Mmap} {w : World} (h : Inv w) (hm : Honest ps w.heap mmap)
    {ptr size : Nat} (harg : ptr = 0 ∨ ptr ∈ w.live) (hs : InBounds ps mmap w.heap size) :
    CallOk ps mmap w (.realloc ptr size) := by
  by_cases h0 : ptr = 0
  · subst h0
    obtain ⟨r, s', hret, hinv, hk⟩ := malloc_allocates h hm hs
    refine ⟨r, s', by simpa [Call.exec, realloc] using hret, ?_, ⟨?_, by simp, ?_, ?_⟩⟩
    · simpa [Call.held, h.erase_null] using hinv
    · simpa [Call.arg, h.erase_null, World.blocks] using hk
    · rintro p n ⟨⟩ hp
      exact absurd rfl hp
    · rintro p n ⟨⟩ hp
      exact absurd rfl hp
  have hp := harg.resolve_left h0
  by_cases hz : size = 0
  · subst hz
    obtain ⟨s', ⟨k, hret⟩, hinv, hk⟩ := free_ok h harg
    refine ⟨0, s', ⟨k, fun n hn => ?_⟩, ?_, ⟨hk, by simp, ?_, ?_⟩⟩
    · simp [Call.exec, realloc, h0, hret n hn]
    · simpa [Call.held, h0] using hinv
    · rintro p n ⟨⟩ - hn
      exact absurd rfl hn
    · rintro p n ⟨⟩ - hn
      exact absurd rfl hn
  · obtain ⟨hptr, hlive, holes, H⟩ := h.take hp
    obtain ⟨r, s', hret, hres⟩ := realloc_spec H hm (hs holes _ H) hz
    rw [hptr] at hret hres
    refine ⟨r, s', hret, ?_⟩
    rcases hres with ⟨rfl, rfl, -⟩ | ⟨b, holes', rfl, -, H', hk, -, hmoved⟩
    · refine ⟨by simpa [Call.held, hz] using h, fun _ _ => rfl, by simp, ?_, fun _ _ _ _ _ _ => rfl⟩
      intro _ _ _ _ _ hne
      exact absurd rfl hne
    · refine ⟨by simpa [Call.held, hz] using inv_new hlive H' hk, hk, by simp, ?_, ?_⟩
      · rintro p n ⟨⟩ - - - i hi
        have hcopied : copied (min (w.sizeAt ptr) size) = min (min (w.sizeAt ptr) size) (2 ^ 31) := rfl
        rw [hmoved i (show i < min (w.sizeAt ptr) size by omega), if_pos (by omega)]
      · intro _ _ _ _ _ hr
        omega

theorem call_ok {ps : PageSize} {mmap : Mmap} {w : World} {c : Call} (h : Inv w)
    (harg : c.arg = 0 ∨ c.arg ∈ w.live) (hm : Honest ps w.heap mmap) (hreq : InBounds ps mmap w.heap c.request) :
    CallOk ps mmap w c := by
  cases c with
  | malloc size =>
    obtain ⟨r, s', hret, hinv, hk⟩ := malloc_allocates h hm hreq
    exact ⟨r, s', hret, hinv, by simpa [Call.arg, h.erase_null, World.blocks] using hk, by simp, by simp, by simp⟩
  | free ptr =>
    obtain ⟨s', ⟨k, hret⟩, hinv, hk⟩ := free_ok h harg
    refine ⟨0, s', ⟨k, fun n hn => ?_⟩, hinv, hk, by simp, by simp, by simp⟩
    exact congrArg (Option.map fun s => (0, s)) (hret n hn)
  | calloc count size =>
    obtain ⟨holes, H⟩ := h.heap
    obtain ⟨r, s', hret, hres⟩ := calloc_spec H hm (hreq holes w.blocks H)
    have hnew : (r = 0 ∧ s' = w.heap) ∨ ∃ b holes', r = b.addr + 8 ∧ Heap s' holes' (b :: w.blocks) ∧
        Keeps w.blocks w.heap s' := by
      rcases hres with ⟨hr, hs', -⟩ | ⟨b, holes', hr, -, H', hk, -⟩
      · exact Or.inl ⟨hr, hs'⟩
      · exact Or.inr ⟨b, holes', hr, H', hk⟩
    obtain ⟨hinv, hk⟩ := h.allocate hnew
    refine ⟨r, s', hret, hinv, by simpa [Call.arg, h.erase_null, World.blocks] using hk, ?_, by simp, by simp⟩
    rintro count size ⟨⟩ hr
    rcases hres with ⟨hnull, -⟩ | ⟨b, holes', -, -, -, -, -, hz⟩
    · exact absurd hnull hr
    · exact hz
  | realloc ptr size => exact realloc_ok h hm harg hreq

theorem call_spec {ps : PageSize} {mmap : Mmap} {w : World} {c : Call} (h : Inv w)
    (hl : Legal (2 ^ 63) w c) (hm : Honest ps w.heap mmap) : CallOk ps mmap w c :=
  call_ok h hl.arg hm fun holes _ _ => fits_of_le hl.request ps mmap w.heap holes

/-! ## All runs -/

/-- A client's write changes no size field, so the blocks are the same. -/
theorem write_kept {w : World} (h : Inv w) {p i : Nat} {v : Byte} (hp : p ∈ w.live) (hi : i < w.sizeAt p) :
    Inv { w with heap := { w.heap with mem := Function.update w.heap.mem (p + i) v } } ∧
      w.live.map (blockAt (Function.update w.heap.mem (p + i) v)) = w.blocks := by
  obtain ⟨hptr, -, -⟩ := h.take hp
  obtain ⟨holes, H⟩ := h.heap
  have hb : blockAt w.heap.mem p ∈ w.blocks := List.mem_map_of_mem hp
  have hw : SameOutside (blockAt w.heap.mem p).data w.heap.mem
      (Function.update w.heap.mem (p + i) v) := by
    apply (update_sameOutside _ _ _).mono
    rw [Set.singleton_subset_iff, Block.data, hptr]
    refine ⟨by omega, ?_⟩
    rw [Block.stop, hptr]
    exact Nat.add_lt_add_left hi p
  have H' := H.write hb hw
  have hsame : w.live.map (blockAt (Function.update w.heap.mem (p + i) v)) = w.blocks := by
    apply List.map_congr_left
    intro q hq
    have hsize := H'.header (blockAt w.heap.mem q) (List.mem_map_of_mem hq)
    exact congrArg (Block.mk (q - 8)) hsize
  refine ⟨⟨h.live, holes, ?_⟩, hsame⟩
  rw [World.blocks, hsame]
  exact H'

theorem inv_write {w : World} (h : Inv w) {p i : Nat} {v : Byte} (hp : p ∈ w.live)
    (hi : i < w.sizeAt p) :
    Inv { w with heap := { w.heap with mem := Function.update w.heap.mem (p + i) v } } := (write_kept h hp hi).1

theorem reachable_inv {ps : PageSize} {limit : Nat} (hlim : limit ≤ 2 ^ 63) {w : World}
    (h : Reachable (system ps limit) w) : Inv w := by
  apply h.invariant
  · rintro s ⟨m, rfl⟩
    exact inv_start m
  · intro s e t _ hs hstep
    cases hstep with
    | call hl hm hr =>
      obtain ⟨r', s'', hret, hinv, -⟩ := call_spec hs ⟨hl.arg, hl.request.trans hlim⟩ hm
      obtain ⟨rfl, rfl⟩ := Prod.mk.inj (hret.unique hr)
      exact hinv
    | write hp hi => exact inv_write hs hp hi

/-! ## Fuel

More fuel never changes the result of a call, so one run with enough of it shows
what the call returns.
-/

theorem getBlockLoop_stable (size : Nat) (s : State) (pred curr : Nat) :
    Stable fun k => getBlockLoop size k s pred curr := by
  intro n
  induction n generalizing pred curr with
  | zero => intro r h; cases h
  | succ n ih =>
    intro r h
    change getBlockLoop size (n + 1) s pred curr = some r at h
    change getBlockLoop size (n + 1 + 1) s pred curr = some r
    rw [getBlockLoop] at h ⊢
    split_ifs at h ⊢
    · exact h
    · exact h
    · exact h
    · exact ih _ _ r h

theorem findPred_stable (m : Mem) (h pred node : Nat) : Stable fun k => findPred m h k pred node := by
  intro n
  induction n generalizing pred node with
  | zero => intro r h'; cases h'
  | succ n ih =>
    intro r h'
    change findPred m h (n + 1) pred node = some r at h'
    change findPred m h (n + 1 + 1) pred node = some r
    rw [findPred] at h' ⊢
    split_ifs at h' ⊢
    · exact ih _ _ r h'
    · exact h'

theorem copyLoop_stable (sz p2 p1 : Nat) (m : Mem) (i : BitVec 32) :
    Stable fun k => copyLoop sz p2 p1 k m i := by
  intro n
  induction n generalizing m i with
  | zero => intro r h; cases h
  | succ n ih =>
    intro r h
    change copyLoop sz p2 p1 (n + 1) m i = some r at h
    change copyLoop sz p2 p1 (n + 1 + 1) m i = some r
    rw [copyLoop] at h ⊢
    split_ifs at h ⊢
    · exact ih _ _ r h
    · exact h

theorem returnBlock_stable (s : State) (h : Nat) : Stable fun k => returnBlock k s h :=
  (findPred_stable s.mem h 0 s.freeList).bind fun _ => stable_const _

theorem free_stable (s : State) (ptr : Nat) : Stable fun k => free k s ptr :=
  Stable.ite (stable_const _) (returnBlock_stable s _)

theorem split_stable (s : State) (h size : Nat) : Stable fun k => split k s h size :=
  Stable.ite ((returnBlock_stable _ _).map _) (stable_const _)

theorem malloc_stable (psize : Nat) (mmap : Mmap) (s : State) (size : Nat) :
    Stable fun k => malloc psize mmap k s size := by
  refine (getBlockLoop_stable _ s 0 s.freeList).bind fun ⟨h, s⟩ => Stable.ite ?_ (split_stable s h _)
  cases hg : growHeap psize mmap s (roundSize size) with
  | none => exact stable_const _
  | some r => exact split_stable r.2 r.1 _

theorem calloc_stable (psize : Nat) (mmap : Mmap) (s : State) (count size : Nat) :
    Stable fun k => calloc psize mmap k s count size := by
  refine (malloc_stable psize mmap s _).bind fun ⟨p, s⟩ => Stable.ite (stable_const _) (stable_const _)

theorem realloc_stable (psize : Nat) (mmap : Mmap) (s : State) (ptr size : Nat) :
    Stable fun k => realloc psize mmap k s ptr size := by
  refine Stable.ite (malloc_stable psize mmap s size) (Stable.ite ((free_stable s ptr).map _) ?_)
  refine (malloc_stable psize mmap s size).bind fun ⟨p2, s⟩ => Stable.ite (stable_const _) ?_
  exact (copyLoop_stable _ p2 ptr s.mem 0).bind fun m => (free_stable { s with mem := m } ptr).map _

theorem exec_stable (psize : Nat) (mmap : Mmap) (s : State) (c : Call) :
    Stable fun k => c.exec psize mmap k s := by
  cases c with
  | malloc size => exact malloc_stable psize mmap s size
  | free ptr => exact (free_stable s ptr).map _
  | calloc count size => exact calloc_stable psize mmap s count size
  | realloc ptr size => exact realloc_stable psize mmap s ptr size

theorem step_of_exec {ps : PageSize} {limit : Nat} {mmap : Mmap} {w : World} {c : Call} {n r : Nat}
    {s' : State} (hl : Legal limit w c) (hm : Honest ps w.heap mmap)
    (he : c.exec ps.bytes mmap n w.heap = some (r, s')) :
    Step ps limit w (.call c r) ⟨s', c.held r w.live⟩ :=
  Step.call hl hm ((exec_stable ps.bytes mmap w.heap c).returns he)

/-! ## A small run

`malloc( 30 )` on an empty heap, with one page at the usual address, and then some blocks more.
-/

def samplePage : PageSize := ⟨4096, by decide, by decide, by decide⟩

def sampleMmap : Mmap := fun hint len => if hint = 0x600000000000 ∧ len = 4096 then some hint else none

def sampleCall : Option (Nat × State) :=
  (Call.malloc 30).exec samplePage.bytes sampleMmap 1 (State.start fun _ => 0)

theorem sampleCall_ends : sampleCall.isSome := by decide +kernel

def sampleWorld : World := ⟨(sampleCall.get sampleCall_ends).2, [0x600000000008]⟩

theorem sampleMmap_honest : Honest samplePage (State.start fun _ => 0) sampleMmap := by
  intro hint len a h
  simp only [sampleMmap, Option.ite_none_right_eq_some, Option.some.injEq] at h
  obtain ⟨⟨rfl, rfl⟩, rfl⟩ := h
  exact ⟨by decide, by decide, by decide, by simp [State.mappedBytes, State.start]⟩

theorem first_reachable {ps : PageSize} {limit : Nat} {m : Mem} {mmap : Mmap} {size n p : Nat} {res : Nat × State}
    (h : size ≤ limit) (hm : Honest ps (State.start m) mmap)
    (he : (Call.malloc size).exec ps.bytes mmap n (State.start m) = some res) (hp : res.1 = p) (h0 : p ≠ 0) :
    Reachable (system ps limit) ⟨res.2, [p]⟩ := by
  have hlegal : Legal limit ⟨State.start m, []⟩ (.malloc size) := ⟨Or.inl rfl, h⟩
  have hstep := step_of_exec hlegal hm he
  have hheld : (Call.malloc size).held res.1 [] = [p] := by
    rw [hp]
    exact if_neg h0
  rw [hheld] at hstep
  exact Reachable.step (Reachable.init ⟨_, rfl⟩) hstep

theorem sample_reachable {limit : Nat} (h : 30 ≤ limit) : Reachable (system samplePage limit) sampleWorld :=
  first_reachable h sampleMmap_honest (Option.some_get sampleCall_ends).symm (by decide +kernel) (by decide)

def sampleStep (w : World) (c : Call) : Option World :=
  if (c.arg = 0 ∨ c.arg ∈ w.live) ∧ c.request ≤ 50 then
    (c.exec samplePage.bytes (fun _ _ => none) 4 w.heap).map fun (r, s) => ⟨s, c.held r w.live⟩
  else none

/-- Two blocks more, a third one, and the first of them is given back. -/
def blocksRun : Option World :=
  [Call.malloc 50, .malloc 20, .malloc 40, .free 0x600000000030].foldlM sampleStep sampleWorld

theorem blocksRun_ends : blocksRun.isSome := by decide +kernel

def blocksWorld : World := blocksRun.get blocksRun_ends

theorem blocksWorld_live : blocksWorld.live = [0x600000000088, 0x60000000006c, 0x600000000008] := by decide +kernel

theorem blocksWorld_holes : ListSeg blocksWorld.heap.mem blocksWorld.heap.freeList
    [⟨0x600000000028, 52⟩, ⟨0x6000000000b0, 3912⟩] 0 :=
  ⟨by decide +kernel, by decide +kernel, by decide +kernel, by decide +kernel, by decide +kernel, by decide +kernel,
    (listSeg_nil _ _ _).mpr (by decide +kernel)⟩

theorem foldlM_reachable {ε : Type*} {M : System World ε} {calls : List Call} {w w' : World}
    (hstep : ∀ c ∈ calls, ∀ w w', Reachable M w → sampleStep w c = some w' → Reachable M w') (h : Reachable M w)
    (hrun : calls.foldlM sampleStep w = some w') : Reachable M w' := by
  induction calls generalizing w with
  | nil =>
    cases hrun
    exact h
  | cons c calls ih =>
    obtain ⟨w₁, hfirst, hrest⟩ := Option.bind_eq_some_iff.mp hrun
    exact ih (fun d hd => hstep d (List.mem_cons_of_mem _ hd)) (hstep c List.mem_cons_self w w₁ h hfirst) hrest

theorem blocks_reachable {limit : Nat} (h : 50 ≤ limit) : Reachable (system samplePage limit) blocksWorld := by
  refine foldlM_reachable (fun c _ w w' hw hcall => ?_) (sample_reachable (by omega)) (Option.some_get blocksRun_ends).symm
  obtain ⟨⟨harg, hrequest⟩, hcall⟩ := Option.ite_none_right_eq_some.mp hcall
  obtain ⟨r, hexec, rfl⟩ := Option.map_eq_some_iff.mp hcall
  have hhonest : Honest samplePage w.heap fun _ _ => none := fun _ _ _ hmap => nomatch hmap
  exact hw.step (step_of_exec ⟨harg, hrequest.trans h⟩ hhonest hexec)

/-! ## The two results about every run -/

/-- **The heap invariant.** After every call the free list is in order, the holes and the live
blocks are at least 8 bytes each and tile exactly the mapped regions, no hole ends where
another one begins, and every legal call returns. -/
theorem heap_invariant (ps : PageSize) {w : World} (h : Reachable (system ps (2 ^ 63)) w) :
    (∃ holes, ListSeg w.heap.mem w.heap.freeList holes 0 ∧
      holes.Pairwise (fun b c => b.addr < c.addr) ∧
      (∀ b ∈ holes ++ w.blocks, 8 ≤ b.size) ∧
      (holes ++ w.blocks).Pairwise (fun b c => Disjoint b.bytes c.bytes) ∧
      ⋃ b ∈ holes ++ w.blocks, b.bytes = w.heap.mappedBytes ∧
      ∀ b ∈ holes, ∀ c ∈ holes, b.stop ≠ c.addr) ∧
    ∀ c mmap, Legal (2 ^ 63) w c → Honest ps w.heap mmap →
      ∃ r s', Returns (fun k => c.exec ps.bytes mmap k w.heap) (r, s') := by
  have hinv := reachable_inv le_rfl h
  obtain ⟨holes, H⟩ := hinv.heap
  constructor
  · exact ⟨holes, H.chain, H.gapped.addr_lt, fun b hb => (H.ok b hb).size, H.tiles.disjoint,
      H.tiles.cover, fun b hb c hc => H.gapped.stop_ne hb hc⟩
  · intro c mmap hl hm
    obtain ⟨r, s', hret, -⟩ := call_spec hinv hl hm
    exact ⟨r, s', hret⟩

theorem heap_invariant_sample :
    ∃ holes, ListSeg sampleWorld.heap.mem sampleWorld.heap.freeList holes 0 ∧
      ∀ b ∈ holes ++ sampleWorld.blocks, 8 ≤ b.size := by
  obtain ⟨⟨holes, hc, -, h8, -⟩, -⟩ := heap_invariant samplePage (sample_reachable (by decide))
  exact ⟨holes, hc, h8⟩

/-- **Client data survives.** A call leaves the bytes of the other live blocks alone. `calloc`
clears its block. `realloc` keeps the common part of the old block, or fails and keeps all of it. -/
theorem client_data_survives (ps : PageSize) {w w' : World} {c : Call} {r : Nat}
    (h : Reachable (system ps (2 ^ 31 - 1)) w) (hs : (system ps (2 ^ 31 - 1)).step w (.call c r) w') :
    (∀ q ∈ w.live, q ≠ c.arg → ∀ i < w.sizeAt q, w'.heap.mem (q + i) = w.heap.mem (q + i)) ∧
    (∀ count size, c = .calloc count size → r ≠ 0 → r ∈ w'.live ∧
      ∀ i < count * size, w'.heap.mem (r + i) = 0) ∧
    ∀ p n, c = .realloc p n → p ≠ 0 → 0 < n →
      (r ≠ 0 → r ∈ w'.live ∧ ∀ i < min (w.sizeAt p) n, w'.heap.mem (r + i) = w.heap.mem (p + i)) ∧
      (r = 0 → p ∈ w'.live ∧ ∀ i < w.sizeAt p, w'.heap.mem (p + i) = w.heap.mem (p + i)) := by
  have hinv := reachable_inv (by norm_num) h
  cases hs with
  | call hl hm hr =>
    obtain ⟨r', s'', hret, -, hpost⟩ := call_spec hinv ⟨hl.arg, hl.request.trans (by norm_num)⟩ hm
    obtain ⟨rfl, rfl⟩ := Prod.mk.inj (hret.unique hr)
    refine ⟨?_, ?_, ?_⟩
    · intro q hq hne i hi
      obtain ⟨hqb, -, -⟩ := hinv.take hq
      apply hpost.others
      refine bytes_subset (List.mem_map_of_mem ((List.mem_erase_of_ne hne).mpr hq)) ⟨by omega, ?_⟩
      rw [Block.stop, hqb]
      exact Nat.add_lt_add_left hi q
    · rintro count size rfl hr0
      exact ⟨by simp [Call.held, hr0], hpost.zeros count size rfl hr0⟩
    · rintro p n rfl hp hn
      have hp' : p ∈ w.live := hl.arg.resolve_left hp
      constructor
      · intro hr0
        refine ⟨by simp [Call.held, hr0, hn.ne'], fun i hi => ?_⟩
        -- Below 2^31 the counter gets through all bytes.
        have hreq : n ≤ 2 ^ 31 - 1 := hl.request
        exact hpost.moved p n rfl hp hn.ne' hr0 i (lt_min hi (by omega))
      · rintro rfl
        rw [hpost.failed p n rfl hp hn.ne' rfl]
        exact ⟨by simpa [Call.held, hn.ne'] using hp', fun _ _ => rfl⟩

def sampleRealloc : Option (Nat × State) :=
  (Call.realloc 0x600000000008 50).exec samplePage.bytes (fun _ _ => none) 40 sampleWorld.heap

theorem sampleRealloc_ends : sampleRealloc.isSome := by decide +kernel

theorem sampleRealloc_moves : (sampleRealloc.get sampleRealloc_ends).1 ≠ 0 := by decide +kernel

theorem client_data_survives_sample :
    ∃ w' r, (system samplePage (2 ^ 31 - 1)).step sampleWorld (.call (.realloc 0x600000000008 50) r) w' ∧
      r ≠ 0 ∧ ∀ i < min (sampleWorld.sizeAt 0x600000000008) 50,
        w'.heap.mem (r + i) = sampleWorld.heap.mem (0x600000000008 + i) := by
  have hret : sampleRealloc = some (sampleRealloc.get sampleRealloc_ends) :=
    (Option.some_get sampleRealloc_ends).symm
  have hlegal : Legal (2 ^ 31 - 1) sampleWorld (.realloc 0x600000000008 50) :=
    ⟨Or.inr (by decide), by decide⟩
  have hhonest : Honest samplePage sampleWorld.heap fun _ _ => none := fun _ _ _ h => nomatch h
  have hstep := step_of_exec hlegal hhonest hret
  obtain ⟨-, -, hmoved⟩ := client_data_survives samplePage (sample_reachable (by decide)) hstep
  exact ⟨_, _, hstep, sampleRealloc_moves,
    ((hmoved _ _ rfl (by decide) (by decide)).1 sampleRealloc_moves).2⟩

end OsCoursework.Malloc
