import OsCoursework.Malloc.Run

/-!
# `realloc` of large blocks

The counter of the copy is an `int`. After 2^31 bytes it is negative, and next to a `size_t` that is more
than any size: the copy ends there.
-/

open OsCoursework.ByteMem OsCoursework.Fuel OsCoursework.Tiling OsCoursework.Transition

namespace OsCoursework.Malloc

theorem realloc_bytes {ps : PageSize} {mmap : Mmap} {w : World} {p n r : Nat} {s₁ : State} (h : Inv w)
    (hm : Honest ps w.heap mmap) (hp : p ∈ w.live) (h0 : 0 < n) (hn : n ≤ 2 ^ 63)
    (hmal : Returns (fun k => malloc ps.bytes mmap k w.heap n) (r, s₁)) (hr : r ≠ 0) :
    ∃ s', Returns (fun k => realloc ps.bytes mmap k w.heap p n) (r, s') ∧
      ∀ i < min (w.sizeAt p) n, s'.mem (r + i) = if i < 2 ^ 31 then w.heap.mem (p + i) else w.heap.mem (r + i) := by
  obtain ⟨hptr, -, holes, H⟩ := h.take hp
  have hf := fits_of_le hn ps mmap w.heap holes
  obtain ⟨r', s', hret, hres⟩ := realloc_spec H hm hf h0.ne'
  obtain ⟨r'', s'', hmal', hres'⟩ := malloc_spec H hm hf
  obtain ⟨rfl, rfl⟩ := Prod.mk.inj (hmal.unique hmal')
  rcases hres' with ⟨hnull, -⟩ | ⟨b, -, rfl, -, -, -, hserved, -⟩
  · exact absurd hnull hr
  · rcases hres with ⟨-, -, hnone⟩ | ⟨b', -, rfl, -, -, -, hserved', hbytes⟩
    · rw [hserved] at hnone
      cases hnone
    · -- Both calls take the same block.
      obtain rfl : b = b' := Option.some.inj (hserved.symm.trans hserved')
      rw [hptr] at hret hbytes
      exact ⟨s', hret, hbytes⟩

/-- **`realloc` copies up to 2^31 bytes.** It copies a larger common part only if what lies from there on in
the new block was already the same. -/
theorem realloc_copies_iff (ps : PageSize) {w : World} (h : Reachable (system ps (2 ^ 63)) w) {mmap : Mmap}
    (hm : Honest ps w.heap mmap) {p n r : Nat} {s₁ : State} (hp : p ∈ w.live) (h0 : 0 < n) (hn : n < 2 ^ 63)
    (hmal : Returns (fun k => malloc ps.bytes mmap k w.heap n) (r, s₁)) (hr : r ≠ 0) :
    ∃ s', Returns (fun k => realloc ps.bytes mmap k w.heap p n) (r, s') ∧
      ((∀ i < min (w.sizeAt p) n, s'.mem (r + i) = w.heap.mem (p + i)) ↔
        ∀ i, 2 ^ 31 ≤ i → i < min (w.sizeAt p) n → w.heap.mem (r + i) = w.heap.mem (p + i)) := by
  obtain ⟨s', hret, hbytes⟩ := realloc_bytes (reachable_inv le_rfl h) hm hp h0 hn.le hmal hr
  refine ⟨s', hret, ?_⟩
  constructor
  · intro hcopied i hhigh hi
    have hbyte := hbytes i hi
    rw [if_neg (not_lt.mpr hhigh)] at hbyte
    exact hbyte.symm.trans (hcopied i hi)
  · intro hsame i hi
    rw [hbytes i hi]
    split_ifs with hlow
    · rfl
    · exact hsame i (not_lt.mp hlow) hi

def sampleMalloc : Option (Nat × State) := malloc samplePage.bytes (fun _ _ => none) 40 sampleWorld.heap 50

theorem sampleMalloc_ends : sampleMalloc.isSome := by decide +kernel

theorem sampleMalloc_served : (sampleMalloc.get sampleMalloc_ends).1 ≠ 0 := by decide +kernel

theorem realloc_copies_iff_sample : ∃ r s',
    Returns (fun k => realloc samplePage.bytes (fun _ _ => none) k sampleWorld.heap 0x600000000008 50) (r, s') ∧
      ∀ i < min (sampleWorld.sizeAt 0x600000000008) 50,
        s'.mem (r + i) = sampleWorld.heap.mem (0x600000000008 + i) := by
  have hhonest : Honest samplePage sampleWorld.heap fun _ _ => none := fun _ _ _ h => nomatch h
  have hmal := (malloc_stable samplePage.bytes (fun _ _ => none) sampleWorld.heap 50).returns
    (Option.some_get sampleMalloc_ends).symm
  obtain ⟨s', hret, hiff⟩ := realloc_copies_iff samplePage (sample_reachable (by norm_num)) hhonest
    (p := 0x600000000008) (n := 50) (by decide) (by norm_num) (by norm_num) hmal sampleMalloc_served
  refine ⟨_, s', hret, hiff.mpr ?_⟩
  intro i hhigh hi
  have hlt : i < 50 := lt_of_lt_of_le hi (min_le_right _ _)
  omega

/-! ## A block of 2^31 + 8 bytes -/

/-- `mmap` gives one region, at its hint. -/
def oneRegion (a len : Nat) : Mmap := fun hint l => if hint = a ∧ l = len then some a else none

theorem oneRegion_honest {ps : PageSize} {s : State} {a len : Nat} (h : FreshRegion ps s a len) :
    Honest ps s (oneRegion a len) := by
  intro hint l b hb
  simp only [oneRegion, Option.ite_none_right_eq_some, Option.some.injEq] at hb
  obtain ⟨⟨rfl, rfl⟩, rfl⟩ := hb
  exact h

def bigCall : Option (Nat × State) :=
  (Call.malloc (2 ^ 31 + 8)).exec samplePage.bytes (oneRegion 0x600000000000 (2 ^ 31 + 4096)) 1
    (State.start fun _ => 0)

theorem bigCall_ends : bigCall.isSome := by decide +kernel

/-- The client has put a byte behind the first 2^31. -/
def bigWorld : World where
  heap := { (bigCall.get bigCall_ends).2 with
    mem := Function.update (bigCall.get bigCall_ends).2.mem (0x600000000008 + 2 ^ 31) 1 }
  live := [0x600000000008]

theorem bigCall_served : (bigCall.get bigCall_ends).1 = 0x600000000008 ∧
    World.sizeAt ⟨(bigCall.get bigCall_ends).2, [0x600000000008]⟩ 0x600000000008 = 2 ^ 31 + 8 ∧
    (bigCall.get bigCall_ends).2.mapped = [(0x600000000000, 2 ^ 31 + 4096)] := by decide +kernel

theorem big_reachable : Reachable (system samplePage (2 ^ 63)) bigWorld := by
  obtain ⟨hr, hsize, -⟩ := bigCall_served
  have hfresh : FreshRegion samplePage (State.start fun _ => 0) 0x600000000000 (2 ^ 31 + 4096) :=
    ⟨by decide, by decide, by decide, by simp [State.mappedBytes, State.start]⟩
  have hfirst : Reachable (system samplePage (2 ^ 63)) ⟨(bigCall.get bigCall_ends).2, [0x600000000008]⟩ :=
    first_reachable (by norm_num) (oneRegion_honest hfresh) (Option.some_get bigCall_ends).symm hr (by decide)
  refine hfirst.step (e := .write 0x600000000008 (2 ^ 31) 1) (Step.write (by decide) ?_)
  rw [hsize]
  norm_num

theorem bigSecond_served :
    (malloc samplePage.bytes (oneRegion 0x600080001000 (2 ^ 31 + 4096)) 3 bigWorld.heap (2 ^ 31 + 8)).map Prod.fst =
      some 0x600080001008 := by decide +kernel

theorem bigWorld_bytes : bigWorld.sizeAt 0x600000000008 = 2 ^ 31 + 8 ∧
    bigWorld.heap.mem (0x600000000008 + 2 ^ 31) = 1 ∧ bigWorld.heap.mem (0x600080001008 + 2 ^ 31) = 0 := by
  decide +kernel

/-- The byte behind the first 2^31 is lost. -/
theorem large_realloc_stops : ∃ w mmap p n r s₁ s', Reachable (system samplePage (2 ^ 63)) w ∧
    Honest samplePage w.heap mmap ∧ p ∈ w.live ∧ 2 ^ 31 < min (w.sizeAt p) n ∧ n < 2 ^ 63 ∧
    Returns (fun k => malloc samplePage.bytes mmap k w.heap n) (r, s₁) ∧ r ≠ 0 ∧
    Returns (fun k => realloc samplePage.bytes mmap k w.heap p n) (r, s') ∧
    s'.mem (r + 2 ^ 31) ≠ w.heap.mem (p + 2 ^ 31) := by
  obtain ⟨hsize, hold, hnew⟩ := bigWorld_bytes
  have hfresh : FreshRegion samplePage bigWorld.heap 0x600080001000 (2 ^ 31 + 4096) := by
    refine ⟨by decide, by decide, by decide, ?_⟩
    have hmapped : bigWorld.heap.mapped = [(0x600000000000, 2 ^ 31 + 4096)] := bigCall_served.2.2
    simp only [State.mappedBytes, hmapped, List.mem_singleton, Set.iUnion_iUnion_eq_left]
    rw [Set.Ico_disjoint_Ico]
    norm_num
  have hm := oneRegion_honest hfresh
  obtain ⟨⟨r, s₁⟩, hrun, hplace⟩ := Option.map_eq_some_iff.mp bigSecond_served
  obtain rfl : r = 0x600080001008 := hplace
  have hmal := (malloc_stable samplePage.bytes _ bigWorld.heap (2 ^ 31 + 8)).returns hrun
  have hmin : 2 ^ 31 < min (bigWorld.sizeAt 0x600000000008) (2 ^ 31 + 8) := by
    rw [hsize]
    norm_num
  obtain ⟨s', hret, hbytes⟩ := realloc_bytes (p := 0x600000000008) (n := 2 ^ 31 + 8)
    (reachable_inv le_rfl big_reachable) hm (by decide) (by norm_num) (by norm_num) hmal (by norm_num)
  refine ⟨bigWorld, _, 0x600000000008, 2 ^ 31 + 8, _, _, s', big_reachable, hm, by decide, hmin, by norm_num, hmal,
    by norm_num, hret, ?_⟩
  rw [hbytes _ hmin, if_neg (by norm_num), hold, hnew]
  decide

end OsCoursework.Malloc
