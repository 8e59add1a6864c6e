import OsCoursework.Lib.Threads
import OsCoursework.Malloc.Report
import OsCoursework.Malloc.Sizes

/-!
# The allocator's test program

`memTest.c`, with any random numbers. `os` answers each `mmap`, and may look at all that was
mapped before. The program does not go on behind a call that it may not make, such as a second
`free` of a block. The test gives every block back once, so that all of the memory ends up on the
free list.
-/

open OsCoursework.Cstring OsCoursework.Fuel OsCoursework.Tiling OsCoursework.Transition

namespace OsCoursework.Malloc.MemTest

abbrev testSize : Nat := 500

abbrev testDuration : Nat := 10000

/-- What the program is run with. `str` is what the local arrays of `reportSize` hold before. -/
structure Setting where
  psize : Nat
  os : State → Mmap
  /-- The numbers that `random` gives. -/
  random : Nat → Nat
  str : Nat → Vector CChar 20

variable (P : Setting)

/-- A call, with the blocks that the program holds. -/
def Setting.call (fuel : Nat) (w : World) (c : Call) : Option (Nat × World) :=
  if c.arg = 0 ∨ c.arg ∈ w.live then
    (c.exec P.psize (P.os w.heap) fuel w.heap).map fun (r, s) => (r, ⟨s, c.held r w.live⟩)
  else none

def Setting.malloc (fuel : Nat) (w : World) (size : Nat) : Option (Nat × World) := P.call fuel w (.malloc size)

def Setting.free (fuel : Nat) (w : World) (ptr : Nat) : Option World := (P.call fuel w (.free ptr)).map Prod.snd

def Setting.report (fuel : Nat) (w : World) (title : String) : Option (List CChar) :=
  (reportFreeList P.str fuel w.heap).map fun report => ascii title ++ report

def babyTest (fuel : Nat) (w : World) : Option (World × List CChar) :=
  (P.malloc fuel w 4088).bind fun (p, w) =>
    (P.report fuel w "-------- babyTest 1 --------\n").bind fun out1 =>
      (P.free fuel w p).bind fun w =>
        (P.report fuel w "-------- babyTest 2 --------\n").map fun out2 => (w, out1 ++ out2)

def toddlerTest (fuel : Nat) (w : World) : Option (World × List CChar) :=
  (P.malloc fuel w 30).bind fun (p1, w) =>
    (P.malloc fuel w 50).bind fun (p2, w) =>
      (P.malloc fuel w 20).bind fun (p3, w) =>
        (P.report fuel w "-------- toddlerTest 1 --------\n").bind fun out1 =>
          (P.free fuel w p2).bind fun w =>
            (P.report fuel w "-------- toddlerTest 2 --------\n").bind fun out2 =>
              (P.free fuel w p1).bind fun w =>
                (P.report fuel w "-------- toddlerTest 3 --------\n").bind fun out3 =>
                  (P.free fuel w p3).bind fun w =>
                    (P.report fuel w "-------- toddlerTest 4 --------\n").map fun out4 =>
                      (w, out1 ++ out2 ++ out3 ++ out4)

/-- The heap with the blocks in use, the array of `randomTest`, and how many random numbers were drawn. -/
structure Test where
  world : World
  block : Fin testSize → Nat
  drawn : Nat

def randomRound (fuel : Nat) (t : Test) : Option Test :=
  let ind := Fin.ofNat testSize (P.random t.drawn)
  if t.block ind ≠ 0 then
    (P.free fuel t.world (t.block ind)).map fun w => ⟨w, Function.update t.block ind 0, t.drawn + 1⟩
  else
    let sz := P.random (t.drawn + 1) % 10000 + 1
    (P.malloc fuel t.world sz).map fun (p, w) => ⟨w, Function.update t.block ind p, t.drawn + 2⟩

def freeRest (fuel : Nat) (t : Test) : Option World :=
  (List.finRange testSize).foldlM (fun w i => if t.block i ≠ 0 then P.free fuel w (t.block i) else some w) t.world

def randomTest (fuel : Nat) (w : World) : Option (World × List CChar) :=
  (rounds (randomRound P fuel) testDuration ⟨w, fun _ => 0, 0⟩).bind fun t =>
    (freeRest P fuel t).bind fun w =>
      (P.report fuel w "-------- randomTest --------\n").map fun out => (w, out)

def main (fuel : Nat) (w : World) : Option (World × List CChar) :=
  (babyTest P fuel w).bind fun (w, out1) =>
    (toddlerTest P fuel w).bind fun (w, out2) =>
      (randomTest P fuel w).map fun (w, out3) => (w, out1 ++ out2 ++ out3)

/-! ## One call -/

def one (p : Nat) : Multiset Nat := if p = 0 then 0 else {p}

/-- The program holds these blocks. -/
structure Holds (ps : PageSize) (held : Multiset Nat) (w : World) : Prop where
  live : w.live = held
  reachable : Reachable (system ps 10000) w
  low : ∀ r ∈ w.heap.mapped, r.1 + r.2 ≤ 2 ^ 48

variable {P} {ps : PageSize} {held : Multiset Nat} {w : World}

/-- Whatever `random` gives, `mmap` keeps its promise, and stays in the lower half of the addresses. -/
structure Setting.Ok (P : Setting) (ps : PageSize) : Prop where
  psize : P.psize = ps.bytes
  honest : ∀ s, Honest ps s (P.os s)
  low : ∀ s hint len a, P.os s hint len = some a → a + len ≤ 2 ^ 48

theorem Holds.call (hP : P.Ok ps) (h : Holds ps held w) {c : Call} (harg : c.arg = 0 ∨ c.arg ∈ w.live)
    (hrequest : c.request ≤ 10000) : Ensures (fun k => P.call k w c) fun r => Holds ps (c.held r.1 w.live) r.2 := by
  have hroom : Legal (2 ^ 63) w c := ⟨harg, hrequest.trans (by norm_num)⟩
  obtain ⟨p, s, hret, -, -⟩ := call_spec (reachable_inv (by norm_num) h.reachable) hroom (hP.honest w.heap)
  have hstep := h.reachable.step (.call ⟨harg, hrequest⟩ (hP.honest w.heap) hret)
  have hcall : ∀ k, P.call k w c =
      (c.exec ps.bytes (P.os w.heap) k w.heap).map fun (r, s) => (r, ⟨s, c.held r w.live⟩) := by
    intro k
    unfold Setting.call
    rw [if_pos harg, hP.psize]
  refine ⟨(p, ⟨s, c.held p w.live⟩), by simpa only [hcall] using hret.map _, rfl, hstep, ?_⟩
  obtain ⟨k, hk⟩ := hret
  rcases exec_grew (hk k le_rfl) with hsame | ⟨hint, len, a, ha, hnew⟩
  · exact hsame ▸ h.low
  · rw [hnew]
    exact List.forall_mem_cons.mpr ⟨hP.low _ hint _ a ha, h.low⟩

theorem Holds.malloc (hP : P.Ok ps) (h : Holds ps held w) {size : Nat} (hsize : size ≤ 10000) :
    Ensures (fun k => P.malloc k w size) fun r => Holds ps (one r.1 + held) r.2 := by
  refine (h.call hP (c := .malloc size) (.inl rfl) hsize).mono fun r hr => ?_
  unfold Call.held at hr
  unfold one
  rw [← h.live]
  split_ifs at hr ⊢
  · rw [zero_add]
    exact hr
  · exact hr

theorem Holds.free {p : Nat} (hP : P.Ok ps) (h : Holds ps (one p + held) w) :
    Ensures (fun k => P.free k w p) (Holds ps held) := by
  have hlegal : p = 0 ∨ p ∈ w.live := by
    by_cases hp : p = 0
    · exact .inl hp
    · refine .inr (Multiset.mem_coe.mp ?_)
      rw [h.live, one, if_neg hp, Multiset.singleton_add]
      exact Multiset.mem_cons_self p held
  refine (h.call hP (c := .free p) hlegal (Nat.zero_le _)).map fun r hr => ?_
  have hheld : ((w.live.erase p : List Nat) : Multiset Nat) = held := by
    by_cases hp : p = 0
    · rw [hp, (reachable_inv (by norm_num) h.reachable).erase_null, h.live, hp, one, if_pos rfl, zero_add]
    · rw [← Multiset.coe_erase, h.live, one, if_neg hp, Multiset.singleton_add, Multiset.erase_cons_head]
  exact hheld ▸ hr

/-- A report lists the maximal runs of free bytes. -/
def Reports (w : World) (title : String) (out : List CChar) : Prop :=
  ∃ holes, Canonical holes w.freeBytes ∧ out = ascii title ++ holes.flatMap lineOf

theorem Holds.report (h : Holds ps held w) (title : String) :
    Ensures (fun k => P.report k w title) (Reports w title) := by
  obtain ⟨holes, H⟩ := (reachable_inv (by norm_num) h.reachable).heap
  have haddr : ∀ b ∈ holes, b.addr < 2 ^ 48 := by
    intro b hb
    have hbyte : b.addr ∈ b.bytes := Set.mem_Ico.mpr ⟨le_rfl, by unfold Block.stop; omega⟩
    have hmapped := H.tiles.subset (List.mem_append_left _ hb) hbyte
    simp only [State.mappedBytes, Set.mem_iUnion, Set.mem_Ico] at hmapped
    obtain ⟨r, hr, -, hlt⟩ := hmapped
    exact hlt.trans_le (h.low r hr)
  have hreport := (reportLoop_returns P.str H.chain haddr).map (ascii title ++ ·)
  exact hreport.ensures ⟨holes, H.canonical, rfl⟩

/-! ## The tests -/

theorem babyTest_frees (hP : P.Ok ps) (h : Holds ps 0 w) :
    Ensures (fun k => babyTest P k w) fun r => Holds ps 0 r.1 := by
  refine (h.malloc hP (by norm_num)).bind fun ⟨p, w⟩ h => ?_
  refine (h.report _).bind fun out1 _ => ?_
  refine (h.free hP).bind fun w h => ?_
  exact (h.report _).map fun out2 _ => h

theorem toddlerTest_frees (hP : P.Ok ps) (h : Holds ps 0 w) :
    Ensures (fun k => toddlerTest P k w) fun r => Holds ps 0 r.1 := by
  refine (h.malloc hP (by norm_num)).bind fun ⟨p1, w⟩ h => ?_
  refine (h.malloc hP (by norm_num)).bind fun ⟨p2, w⟩ h => ?_
  refine (h.malloc hP (by norm_num)).bind fun ⟨p3, w⟩ h => ?_
  refine (h.report _).bind fun out1 _ => ?_
  rw [add_left_comm] at h
  refine (h.free hP).bind fun w h => ?_
  refine (h.report _).bind fun out2 _ => ?_
  rw [add_left_comm] at h
  refine (h.free hP).bind fun w h => ?_
  refine (h.report _).bind fun out3 _ => ?_
  refine (h.free hP).bind fun w h => ?_
  exact (h.report _).map fun out4 _ => h

/-- The array has the blocks that are not freed yet. -/
def Test.blocks (t : Test) : Multiset Nat := ∑ i, one (t.block i)

theorem randomRound_holds (hP : P.Ok ps) {t : Test} (h : Holds ps t.blocks t.world) :
    Ensures (fun k => randomRound P k t) fun t' => Holds ps t'.blocks t'.world := by
  have hupdate := Threads.sum_update one t.block
  unfold randomRound
  unfold Test.blocks at h ⊢
  by_cases hblock : t.block (Fin.ofNat testSize (P.random t.drawn)) ≠ 0
  · simp only [hblock, ne_eq, not_false_eq_true, if_true]
    have hheld := hupdate (Fin.ofNat testSize (P.random t.drawn)) 0
    rw [show one 0 = 0 from rfl, add_zero, add_comm] at hheld
    rw [← hheld] at h
    exact (h.free hP).map fun _ h => h
  · have hsize : P.random (t.drawn + 1) % 10000 + 1 ≤ 10000 := Nat.mod_lt _ (by norm_num)
    simp only [hblock, if_false]
    refine (h.malloc hP hsize).map fun ⟨p, w⟩ h => ?_
    have hheld := hupdate (Fin.ofNat testSize (P.random t.drawn)) p
    rw [not_not.mp hblock, show one 0 = 0 from rfl, add_zero, add_comm] at hheld
    rw [← hheld] at h
    exact h

theorem freeRest_holds (hP : P.Ok ps) {t : Test} (h : Holds ps t.blocks t.world) :
    Ensures (fun k => freeRest P k t) (Holds ps 0) := by
  unfold Test.blocks at h
  rw [Fin.sum_univ_def] at h
  refine Ensures.foldlM (P := fun l w => Holds ps (l.map fun i => one (t.block i)).sum w) (fun i l w h => ?_) h
  rw [List.map_cons, List.sum_cons] at h
  by_cases hblock : t.block i ≠ 0
  · simp only [hblock, ne_eq, not_false_eq_true, if_true]
    exact h.free hP
  · simp only [hblock, if_false]
    rw [not_not.mp hblock] at h
    rw [one, if_pos rfl, zero_add] at h
    exact ensures_some h

theorem randomTest_frees (hP : P.Ok ps) (h : Holds ps 0 w) :
    Ensures (fun k => randomTest P k w) fun r =>
      Holds ps 0 r.1 ∧ Reports r.1 "-------- randomTest --------\n" r.2 := by
  have hstart : Holds ps (Test.blocks ⟨w, fun _ => 0, 0⟩) w := by
    rw [show Test.blocks ⟨w, fun _ => 0, 0⟩ = 0 from Finset.sum_const_zero]
    exact h
  refine (Ensures.rounds (fun t => randomRound_holds hP) testDuration hstart).bind fun t h => ?_
  refine (freeRest_holds hP h).bind fun w h => ?_
  exact (h.report _).map fun out hout => ⟨h, hout⟩

/-- **The test gives all of the memory back.** It comes to its end, so it makes legal calls only, and then nothing
is in use. Its last report has one line for each maximal run of mapped bytes. -/
theorem memTest_leaks_nothing (hP : P.Ok ps) (m : ByteMem.Mem) :
    Ensures (fun k => main P k ⟨State.start m, []⟩) fun (w, out) =>
      w.live = [] ∧ Reachable (system ps 10000) w ∧ ∃ before holes, Canonical holes w.heap.mappedBytes ∧
        out = before ++ ascii "-------- randomTest --------\n" ++ holes.flatMap lineOf := by
  have hstart : Holds ps 0 ⟨State.start m, []⟩ := ⟨rfl, .init ⟨m, rfl⟩, nofun⟩
  refine (babyTest_frees hP hstart).bind fun ⟨w, out1⟩ h => ?_
  refine (toddlerTest_frees hP h).bind fun ⟨w, out2⟩ h => ?_
  refine (randomTest_frees hP h).map fun ⟨w, out3⟩ ⟨h, holes, hcanonical, hout⟩ => ?_
  have hlive : w.live = [] := (Multiset.coe_eq_zero _).mp h.live
  have hfree : w.freeBytes = w.heap.mappedBytes := by
    simp [World.freeBytes, World.blocks, bytesOf, hlive]
  dsimp only at hcanonical hout ⊢
  rw [hfree] at hcanonical
  refine ⟨hlive, h.reachable, out1 ++ out2, holes, hcanonical, ?_⟩
  rw [hout, List.append_assoc _ (ascii _)]

/-- An OS that gives each region where it was asked for, if there is room. -/
def sampleOs (s : State) : Mmap := fun hint len =>
  if 4096 ∣ hint ∧ 0 < hint ∧ hint + len ≤ 2 ^ 48 ∧ ∀ r ∈ s.mapped, r.1 + r.2 ≤ hint ∨ hint + len ≤ r.1 then some hint
  else none

def sampleSetting : Setting where
  psize := 4096
  os := sampleOs
  random i := 7 * i
  str _ := Vector.replicate 20 0

theorem sampleSetting_ok : sampleSetting.Ok samplePage where
  psize := rfl
  honest s hint len a h := by
    obtain ⟨⟨haligned, hpos, hlow, hapart⟩, ha⟩ := Option.ite_none_right_eq_some.mp h
    obtain rfl := Option.some.inj ha
    refine ⟨haligned, hpos, hlow.trans (by norm_num), ?_⟩
    unfold State.mappedBytes
    simp only [Set.disjoint_iUnion_right]
    intro r hr
    have hgap := hapart r hr
    rw [Set.Ico_disjoint_Ico]
    omega
  low s hint len a h := by
    obtain ⟨⟨-, -, hlow, -⟩, ha⟩ := Option.ite_none_right_eq_some.mp h
    exact Option.some.inj ha ▸ hlow

theorem memTest_leaks_nothing_sample : Ensures (fun k => main sampleSetting k ⟨State.start fun _ => 0, []⟩) fun r =>
    r.1.live = [] ∧ Reachable (system samplePage 10000) r.1 ∧ ∃ before holes, Canonical holes r.1.heap.mappedBytes ∧
      r.2 = before ++ ascii "-------- randomTest --------\n" ++ holes.flatMap lineOf :=
  memTest_leaks_nothing sampleSetting_ok fun _ => 0

end OsCoursework.Malloc.MemTest
