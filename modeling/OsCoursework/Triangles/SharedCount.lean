import OsCoursework.Lib.Threads
import OsCoursework.Triangles.Count
import OsCoursework.Triangles.Semaphores

/-!
# The shared count

The token that a worker takes stays with it until it posts again, so a worker that sees the
end keeps one, and there is one for everybody else. Each index is in one hand, and what a
worker has still to count for it is known from where the worker is.
-/

open OsCoursework.Threads OsCoursework.Transition

namespace OsCoursework.Triangles.Semaphores

variable {vList : List CInt} {workers : Nat} {s s' : State workers} {t : Fin workers}

/-! ## What the loops have still to count -/

def good (vList : List CInt) (index j k : Nat) : Nat :=
  if checkTriangle (value vList j) (value vList k) (value vList index) then 1 else 0

def restInner (vList : List CInt) (index j k : Nat) : Nat := ∑ k ∈ Finset.Ico k index, good vList index j k

def restOuter (vList : List CInt) (index j : Nat) : Nat :=
  ∑ j ∈ Finset.Ico j index, restInner vList index j (j + 1)

theorem restInner_step {index j k : Nat} (h : k < index) :
    restInner vList index j k = good vList index j k + restInner vList index j (k + 1) :=
  Finset.sum_eq_sum_Ico_succ_bot h _

theorem restInner_end {index j k : Nat} (h : index ≤ k) : restInner vList index j k = 0 := by
  rw [restInner, Finset.Ico_eq_empty_of_le h, Finset.sum_empty]

theorem restOuter_step {index j : Nat} (h : j < index) :
    restOuter vList index j = restInner vList index j (j + 1) + restOuter vList index (j + 1) :=
  Finset.sum_eq_sum_Ico_succ_bot h _

theorem restOuter_end {index j : Nat} (h : index ≤ j) : restOuter vList index j = 0 := by
  rw [restOuter, Finset.Ico_eq_empty_of_le h, Finset.sum_empty]

theorem checkTriangle_zero (a b : CInt) : checkTriangle a b 0 = false := by
  unfold checkTriangle
  simp only [add_zero, Bool.and_eq_false_iff]
  rcases le_total a.toInt b.toInt with h | h
  · left
    right
    simpa [BitVec.slt] using h
  · right
    simpa [BitVec.slt] using h

theorem good_past {index : Nat} (h : vList.length ≤ index) (j k : Nat) : good vList index j k = 0 := by
  have hzero : value vList index = 0 := by
    unfold value
    rw [Int.toNat_natCast, List.getD_eq_default _ _ h]
  unfold good
  rw [hzero, checkTriangle_zero]
  rfl

theorem restOuter_past {index : Nat} (h : vList.length ≤ index) (j : Nat) : restOuter vList index j = 0 :=
  Finset.sum_eq_zero fun j _ => Finset.sum_eq_zero fun k _ => good_past h j k

theorem restOuter_eq {index : Nat} (h : index < vList.length) :
    restOuter vList index 0 = ((triangles vList).filter fun t => t.2.2 = index).card := by
  have hpairs : restOuter vList index 0 = (((Finset.Ico 0 index).sigma fun j => Finset.Ico (j + 1) index).filter
      fun p => checkTriangle (value vList p.1) (value vList p.2) (value vList index) = true).card := by
    rw [Finset.card_filter, Finset.sum_sigma]
    rfl
  rw [hpairs]
  refine Finset.card_bij (fun p _ => (p.1, p.2, index)) ?_ ?_ ?_
  · rintro ⟨j, k⟩ hp
    simp only [Finset.mem_filter, Finset.mem_sigma, Finset.mem_Ico] at hp
    rw [Finset.mem_filter, mem_triangles]
    exact ⟨⟨hp.1.2.1, hp.1.2.2, h, hp.2⟩, rfl⟩
  · rintro ⟨j, k⟩ - ⟨j', k'⟩ - heq
    simp only [Prod.mk.injEq] at heq
    obtain ⟨rfl, rfl, -⟩ := heq
    rfl
  · rintro ⟨j, k, i⟩ hp
    obtain ⟨ht, rfl⟩ := Finset.mem_filter.mp hp
    obtain ⟨hjk, hki, -, hcheck⟩ := mem_triangles.mp ht
    refine ⟨⟨j, k⟩, ?_, rfl⟩
    simp only [Finset.mem_filter, Finset.mem_sigma, Finset.mem_Ico]
    exact ⟨⟨by omega, by omega, hki⟩, hcheck⟩

theorem sum_restOuter {n : Nat} (h : vList.length ≤ n) :
    ∑ index ∈ Finset.range n, restOuter vList index 0 = (triangles vList).card := by
  have hpast : ∑ index ∈ Finset.range n, restOuter vList index 0 =
      ∑ index ∈ Finset.range vList.length, restOuter vList index 0 := by
    refine (Finset.sum_subset (Finset.range_subset_range.mpr h) fun index _ hin => ?_).symm
    exact restOuter_past (by simpa using hin) 0
  rw [hpast, Finset.card_eq_sum_card_fiberwise (f := fun t => t.2.2) (t := Finset.range vList.length)
    fun t ht => Finset.mem_coe.mpr (Finset.mem_range.mpr (mem_triangles.mp ht).2.2.1)]
  exact Finset.sum_congr rfl fun index hindex => restOuter_eq (Finset.mem_range.mp hindex)

/-! ## What a place counts -/

namespace Pc

def token : Pc → Nat
  | .waitAvailable => 0
  | _ => 1

def inWorkMutex : Pc → Nat
  | .readNext | .writeNext _ | .postMutex _ => 1
  | _ => 0

def inCountMutex : Pc → Nat
  | .readCount .. | .writeCount .. | .unlockCount .. => 1
  | _ => 0

/-- Past the check, and still to take an index. -/
def claims : Pc → Nat
  | .waitMutex | .readNext | .writeNext _ => 1
  | _ => 0

theorem token_le (p : Pc) : p.token ≤ 1 := by
  unfold token
  split <;> omega

theorem claims_le (p : Pc) : p.claims ≤ 1 := by
  unfold claims
  split <;> omega

/-- Has taken `i`, and not yet returned it. -/
def hands (i : Nat) : Pc → Nat
  | .postMutex index => if index = i then 1 else 0
  | _ => 0

/-- What the worker has still to add to the count. -/
def pending (vList : List CInt) : Pc → Nat
  | .postMutex index => restOuter vList index 0
  | .outer index j => restOuter vList index j
  | .inner index j k => restInner vList index j k + restOuter vList index (j + 1)
  | .lockCount index j k | .readCount index j k | .writeCount index j k _ =>
    1 + restInner vList index j (k + 1) + restOuter vList index (j + 1)
  | .unlockCount index j k => restInner vList index j (k + 1) + restOuter vList index (j + 1)
  | _ => 0

end Pc

def State.sum (s : State workers) (f : Pc → Nat) : Nat := ∑ t, f (s.pc t)

@[simp] theorem State.goto_pc (s : State workers) (t : Fin workers) (p : Pc) : (s.goto t p).pc t = p :=
  Function.update_self ..

@[simp] theorem State.goto_globalCount (s : State workers) (t : Fin workers) (p : Pc) :
    (s.goto t p).globalCount = s.globalCount := rfl

@[simp] theorem State.goto_nextWorkIndex (s : State workers) (t : Fin workers) (p : Pc) :
    (s.goto t p).nextWorkIndex = s.nextWorkIndex := rfl

@[simp] theorem State.goto_workAvailable (s : State workers) (t : Fin workers) (p : Pc) :
    (s.goto t p).workAvailable = s.workAvailable := rfl

@[simp] theorem State.goto_workMutex (s : State workers) (t : Fin workers) (p : Pc) :
    (s.goto t p).workMutex = s.workMutex := rfl

@[simp] theorem State.goto_countLocked (s : State workers) (t : Fin workers) (p : Pc) :
    (s.goto t p).countLocked = s.countLocked := rfl

@[simp] theorem State.goto_unposted (s : State workers) (t : Fin workers) (p : Pc) :
    (s.goto t p).unposted = s.unposted := rfl

@[simp] theorem State.goto_returned (s : State workers) (t : Fin workers) (p : Pc) :
    (s.goto t p).returned = s.returned := rfl

theorem State.sum_goto (s : State workers) (t : Fin workers) (p : Pc) (f : Pc → Nat) :
    (s.goto t p).sum f + f (s.pc t) = s.sum f + f p := sum_update f s.pc t p

theorem Move.others (h : Move vList s t s') {u : Fin workers} (hu : u ≠ t) : s'.pc u = s.pc u := by
  cases h <;> exact Function.update_of_ne hu _ _

theorem Move.sum (h : Move vList s t s') (f : Pc → Nat) : s'.sum f + f (s.pc t) = s.sum f + f (s'.pc t) := by
  cases h <;> rw [State.goto_pc] <;> exact State.sum_goto _ t _ f

/-! ## The invariant -/

def handedOut (next i : Nat) : Nat := if i < next then 1 else 0

theorem handedOut_succ (next i : Nat) : handedOut (next + 1) i = handedOut next i + if next = i then 1 else 0 := by
  unfold handedOut
  split_ifs <;> omega

structure Inv (vList : List CInt) (s : State workers) : Prop where
  tokens : s.workAvailable + s.sum Pc.token + s.unposted = workers
  workMutex : s.workMutex + s.sum Pc.inWorkMutex = 1
  countMutex : s.sum Pc.inCountMutex = s.countLocked.toNat
  claims : s.nextWorkIndex + s.sum Pc.claims ≤ vList.length + workers
  handed : ∀ i, (s.returned.filter fun r => r.2 = i).length + s.sum (Pc.hands i) = handedOut s.nextWorkIndex i
  count : s.globalCount + (s.sum (Pc.pending vList) : CInt) =
    (∑ index ∈ Finset.range s.nextWorkIndex, restOuter vList index 0 : Nat)
  next : ∀ u index, s.pc u = .writeNext index → index = s.nextWorkIndex
  read : ∀ u index j k count, s.pc u = .writeCount index j k count → count = s.globalCount
  last : ∀ u, s.pc u = .exited → vList.length ≤ s.nextWorkIndex

theorem inv_start (vList : List CInt) (workers : Nat) : Inv vList (start workers) where
  tokens := by simp [start, State.sum, Pc.token]
  workMutex := by simp [start, State.sum, Pc.inWorkMutex]
  countMutex := by simp [start, State.sum, Pc.inCountMutex]
  claims := by simp [start, State.sum, Pc.claims]
  handed i := by simp [start, State.sum, Pc.hands, handedOut]
  count := by simp [start, State.sum, Pc.pending]
  next u index h := by cases h
  read u index j k count h := by cases h
  last u h := by cases h

theorem Move.tokens (h : Move vList s t s') (hinv : s.workAvailable + s.sum Pc.token + s.unposted = workers) :
    s'.workAvailable + s'.sum Pc.token + s'.unposted = workers := by
  have hsum := h.sum Pc.token
  cases h <;> simp [Pc.token, *] at hsum ⊢ <;> omega

theorem Move.workMutex (h : Move vList s t s') (hinv : s.workMutex + s.sum Pc.inWorkMutex = 1) :
    s'.workMutex + s'.sum Pc.inWorkMutex = 1 := by
  have hsum := h.sum Pc.inWorkMutex
  cases h <;> simp [Pc.inWorkMutex, *] at hsum ⊢ <;> omega

theorem Move.countMutex (h : Move vList s t s') (hinv : s.sum Pc.inCountMutex = s.countLocked.toNat) :
    s'.sum Pc.inCountMutex = s'.countLocked.toNat := by
  have hsum := h.sum Pc.inCountMutex
  have hlocked := s.countLocked.toNat_le
  cases h <;> simp [Pc.inCountMutex, *] at hsum ⊢ <;> omega

/-- The check is where one more index is claimed. -/
theorem Move.claims_step (h : Move vList s t s') (hinv : Inv vList s) :
    s'.nextWorkIndex + s'.sum Pc.claims = s.nextWorkIndex + s.sum Pc.claims ∨
      s.pc t = .check ∧ s.nextWorkIndex < vList.length ∧
        s'.nextWorkIndex + s'.sum Pc.claims = s.nextWorkIndex + s.sum Pc.claims + 1 := by
  have hsum := h.sum Pc.claims
  cases h with
  | goOn hpc h0 =>
    right
    simp [Pc.claims, hpc] at hsum ⊢
    omega
  | writeNext hpc =>
    left
    have hnext := hinv.next t _ hpc
    simp [Pc.claims, hpc] at hsum ⊢
    omega
  | _ =>
    left
    simp [Pc.claims, *] at hsum ⊢
    omega

theorem Move.claims (h : Move vList s t s') (hinv : Inv vList s) :
    s'.nextWorkIndex + s'.sum Pc.claims ≤ vList.length + workers := by
  have hclaims := hinv.claims
  rcases h.claims_step hinv with hsame | ⟨hpc, hlt, hmore⟩
  · omega
  · -- One worker has no index in hand, this one.
    have hfew : s.sum Pc.claims < workers := by
      have hthis : Pc.claims (s.pc t) = 0 := by rw [hpc]; rfl
      simpa [State.sum] using sum_lt_card (f := fun u => Pc.claims (s.pc u)) (fun u => Pc.claims_le _) hthis
    omega

theorem Move.handed (h : Move vList s t s') (hinv : Inv vList s) (i : Nat) :
    (s'.returned.filter fun r => r.2 = i).length + s'.sum (Pc.hands i) = handedOut s'.nextWorkIndex i := by
  have hsum := h.sum (Pc.hands i)
  have hhanded := hinv.handed i
  cases h with
  | writeNext hpc =>
    obtain rfl := hinv.next t _ hpc
    simp only [State.goto_pc, hpc, Pc.hands] at hsum
    simp only [State.goto_nextWorkIndex, State.goto_returned, handedOut_succ]
    omega
  | @postMutex index hpc =>
    have hlast : ([(t, index)].filter fun r => r.2 = i).length = if index = i then 1 else 0 := by
      split_ifs with hi <;> simp [hi]
    simp only [State.goto_pc, hpc, Pc.hands] at hsum
    simp only [State.goto_nextWorkIndex, State.goto_returned, List.filter_append, List.length_append]
    omega
  | _ =>
    simp only [State.goto_pc, Pc.hands, *] at hsum
    simp only [State.goto_nextWorkIndex, State.goto_returned]
    omega

theorem Move.next (h : Move vList s t s') (hinv : Inv vList s) {u : Fin workers} {index : Nat}
    (hu : s'.pc u = .writeNext index) : index = s'.nextWorkIndex := by
  by_cases hut : u = t
  · subst hut
    cases h <;> simp_all
  · rw [h.others hut] at hu
    have hnext := hinv.next u index hu
    cases h with
    | writeNext hpc =>
      have hmutex := hinv.workMutex
      have hin : Pc.inWorkMutex (s.pc t) = 1 := by rw [hpc]; rfl
      have hin' : Pc.inWorkMutex (s.pc u) = 1 := by rw [hu]; rfl
      exact absurd (eq_of_sum_le_one (f := fun u => Pc.inWorkMutex (s.pc u)) (by unfold State.sum at hmutex; omega)
        (by omega) (by omega)) hut
    | _ => exact hnext

theorem Move.read (h : Move vList s t s') (hinv : Inv vList s) {u : Fin workers} {index j k : Nat} {count : CInt}
    (hu : s'.pc u = .writeCount index j k count) : count = s'.globalCount := by
  by_cases hut : u = t
  · subst hut
    cases h <;> simp_all
  · rw [h.others hut] at hu
    have hread := hinv.read u index j k count hu
    cases h with
    | writeCount hpc =>
      have hmutex := hinv.countMutex
      have hlocked := s.countLocked.toNat_le
      have hin : Pc.inCountMutex (s.pc t) = 1 := by rw [hpc]; rfl
      have hin' : Pc.inCountMutex (s.pc u) = 1 := by rw [hu]; rfl
      exact absurd (eq_of_sum_le_one (f := fun u => Pc.inCountMutex (s.pc u)) (by unfold State.sum at hmutex; omega)
        (by omega) (by omega)) hut
    | _ => exact hread

theorem Move.last (h : Move vList s t s') (hinv : Inv vList s) {u : Fin workers} (hu : s'.pc u = .exited) :
    vList.length ≤ s'.nextWorkIndex := by
  by_cases hut : u = t
  · subst hut
    cases h <;> simp_all
  · rw [h.others hut] at hu
    have hlast := hinv.last u hu
    cases h with
    | writeNext hpc =>
      have hnext := hinv.next t _ hpc
      simp
      omega
    | _ => exact hlast

theorem Move.count (h : Move vList s t s') (hinv : Inv vList s) :
    s'.globalCount + (s'.sum (Pc.pending vList) : CInt) =
      (∑ index ∈ Finset.range s'.nextWorkIndex, restOuter vList index 0 : Nat) := by
  have hsum := h.sum (Pc.pending vList)
  have hcount := hinv.count
  cases h with
  | writeNext hpc =>
    obtain rfl := hinv.next t _ hpc
    simp only [State.goto_pc, hpc, Pc.pending, add_zero] at hsum
    rw [hsum, State.goto_globalCount, State.goto_nextWorkIndex, Finset.sum_range_succ, Nat.cast_add, Nat.cast_add,
      ← hcount, add_assoc]
  | writeCount hpc =>
    obtain rfl := hinv.read t _ _ _ _ hpc
    simp only [State.goto_pc, hpc, Pc.pending] at hsum
    rw [State.goto_globalCount, State.goto_nextWorkIndex, ← hcount, add_assoc, add_comm 1, ← Nat.cast_succ]
    congr 2
    omega
  | nextRow hpc h =>
    simp only [State.goto_pc, hpc, Pc.pending, restOuter_step h, add_left_inj] at hsum
    rwa [hsum]
  | lastRow hpc h =>
    simp only [State.goto_pc, hpc, Pc.pending, restOuter_end h, add_left_inj] at hsum
    rwa [hsum]
  | found hpc h hcheck =>
    simp only [State.goto_pc, hpc, Pc.pending, restInner_step h, good, hcheck, if_true, add_left_inj] at hsum
    rwa [hsum]
  | skip hpc h hcheck =>
    simp only [State.goto_pc, hpc, Pc.pending, restInner_step h, good, hcheck, Bool.false_eq_true, if_false, zero_add,
      add_left_inj] at hsum
    rwa [hsum]
  | endRow hpc h =>
    simp only [State.goto_pc, hpc, Pc.pending, restInner_end h, zero_add, add_left_inj] at hsum
    rwa [hsum]
  | _ =>
    simp only [State.goto_pc, Pc.pending, add_left_inj, *] at hsum
    rwa [hsum]

theorem Move.inv (h : Move vList s t s') (hinv : Inv vList s) : Inv vList s' where
  tokens := h.tokens hinv.tokens
  workMutex := h.workMutex hinv.workMutex
  countMutex := h.countMutex hinv.countMutex
  claims := h.claims hinv
  handed := h.handed hinv
  count := h.count hinv
  next _ _ hu := h.next hinv hu
  read _ _ _ _ _ hu := h.read hinv hu
  last _ hu := h.last hinv hu

theorem inv_exec {e : Event workers} (hinv : Inv vList s) (h : exec vList s e = some s') : Inv vList s' := by
  cases e with
  | main =>
    unfold exec at h
    split_ifs at h with h0
    cases h
    have htokens := hinv.tokens
    exact { hinv with tokens := by simp only [State.sum] at htokens ⊢; omega }
  | worker t => exact (move_of_workerStep h).inv hinv

theorem reachable_inv (h : Reachable (system vList workers) s) : Inv vList s := by
  refine h.invariant ?_ ?_
  · rintro _ rfl
    exact inv_start vList workers
  · intro _ _ _ _ hinv hstep
    exact inv_exec hinv hstep

/-! ## Nobody is stuck -/

theorem blocked (h : workerStep vList s t = none) :
    (s.pc t = .waitAvailable ∧ s.workAvailable = 0) ∨ (s.pc t = .waitMutex ∧ s.workMutex = 0) ∨
      (∃ index j k, s.pc t = .lockCount index j k ∧ s.countLocked = true) ∨ s.pc t = .exited := by
  unfold workerStep at h
  split at h
  case h_1 hpc =>
    split_ifs at h with h0
    exact Or.inl ⟨hpc, by omega⟩
  case h_3 hpc =>
    split_ifs at h with h0
    exact Or.inr (Or.inl ⟨hpc, by omega⟩)
  case h_9 index j k hpc =>
    split_ifs at h with h0
    exact Or.inr (Or.inr (Or.inl ⟨index, j, k, hpc, h0⟩))
  case h_14 hpc => exact Or.inr (Or.inr (Or.inr hpc))
  all_goals first | cases h | split_ifs at h

theorem exists_step (hinv : Inv vList s) (hmain : s.unposted = 0) (hleft : ∃ t, s.pc t ≠ .exited) :
    ∃ t, (workerStep vList s t).isSome := by
  by_contra hstuck
  have hblocked : ∀ t, workerStep vList s t = none := by simpa using hstuck
  have hmutex : s.sum Pc.inWorkMutex = 0 := by
    refine Finset.sum_eq_zero fun t _ => ?_
    rcases blocked (hblocked t) with ⟨h, -⟩ | ⟨h, -⟩ | ⟨_, _, _, h, -⟩ | h <;> rw [h] <;> rfl
  have hcount : s.sum Pc.inCountMutex = 0 := by
    refine Finset.sum_eq_zero fun t _ => ?_
    rcases blocked (hblocked t) with ⟨h, -⟩ | ⟨h, -⟩ | ⟨_, _, _, h, -⟩ | h <;> rw [h] <;> rfl
  have hfree := hinv.workMutex
  have hunlocked := hinv.countMutex
  have htokens := hinv.tokens
  obtain ⟨t, ht⟩ := hleft
  rcases blocked (hblocked t) with ⟨h, h0⟩ | ⟨-, h0⟩ | ⟨_, _, _, -, h0⟩ | h
  · -- Every token is with a worker, and this one has none.
    have hthis : Pc.token (s.pc t) = 0 := by rw [h]; rfl
    have hfew : s.sum Pc.token < workers := by
      simpa [State.sum] using sum_lt_card (f := fun u => Pc.token (s.pc u)) (fun u => Pc.token_le _) hthis
    omega
  · omega
  · rw [hcount, h0] at hunlocked
    cases hunlocked
  · exact ht h

/-! ## Every run ends -/

/-- More than the steps of a scan of `index` from row `j` on. -/
def rowsRank (index j : Nat) : Nat := (index - j) * (5 * index + 3) + 7

theorem rowsRank_step {index j : Nat} (h : j < index) :
    rowsRank index j = rowsRank index (j + 1) + (5 * index + 3) := by
  obtain ⟨m, hm⟩ : ∃ m, index - j = m + 1 := ⟨index - j - 1, by omega⟩
  have hm' : index - (j + 1) = m := by omega
  unfold rowsRank
  rw [hm, hm']
  ring

def Pc.rank : Pc → Nat
  | .waitAvailable => 5
  | .check => 4
  | .waitMutex => 3
  | .readNext => 2
  | .writeNext _ => 1
  | .postMutex index => rowsRank index 0 + 1
  | .outer index j => rowsRank index j
  | .inner index j k => 5 * (index - k) + 1 + rowsRank index (j + 1)
  | .lockCount index j k => 5 * (index - (k + 1)) + 5 + rowsRank index (j + 1)
  | .readCount index j k => 5 * (index - (k + 1)) + 4 + rowsRank index (j + 1)
  | .writeCount index j k _ => 5 * (index - (k + 1)) + 3 + rowsRank index (j + 1)
  | .unlockCount index j k => 5 * (index - (k + 1)) + 2 + rowsRank index (j + 1)
  | .postAvailable => 6
  | .exited => 0

/-- One index costs no more than this. -/
def indexRank (limit : Nat) : Nat := rowsRank limit 0 + 1

theorem rowsRank_mono {index limit : Nat} (h : index ≤ limit) : rowsRank index 0 ≤ rowsRank limit 0 := by
  unfold rowsRank
  exact Nat.add_le_add_right (Nat.mul_le_mul (by omega) (by omega)) 7

def rank (vList : List CInt) (s : State workers) : Nat :=
  s.sum Pc.rank + (vList.length + workers - s.nextWorkIndex) * indexRank (vList.length + workers) + s.unposted

theorem Move.rank_lt (h : Move vList s t s') (hinv : Inv vList s) : rank vList s' < rank vList s := by
  have hsum := h.sum Pc.rank
  unfold rank
  cases h with
  | @writeNext index hpc =>
    obtain rfl := hinv.next t _ hpc
    have hclaims := hinv.claims
    have hthis : 0 < s.sum Pc.claims := by
      have hle := Finset.single_le_sum (f := fun u => Pc.claims (s.pc u)) (fun u _ => Nat.zero_le _) (Finset.mem_univ t)
      simp only [hpc, Pc.claims] at hle
      exact hle
    obtain ⟨m, hm⟩ : ∃ m, vList.length + workers - s.nextWorkIndex = m + 1 :=
      ⟨vList.length + workers - s.nextWorkIndex - 1, by omega⟩
    have hm' : vList.length + workers - (s.nextWorkIndex + 1) = m := by omega
    have hrows := rowsRank_mono (by omega : s.nextWorkIndex ≤ vList.length + workers)
    simp only [State.goto_pc, hpc, Pc.rank] at hsum
    simp only [State.goto_nextWorkIndex, State.goto_unposted, hm, hm', Nat.succ_mul, indexRank] at hsum ⊢
    omega
  | nextRow hpc h =>
    simp only [State.goto_pc, hpc, Pc.rank, rowsRank_step h] at hsum
    simp only [State.goto_nextWorkIndex, State.goto_unposted]
    omega
  | @lastRow index j hpc h =>
    have hend : 7 ≤ rowsRank index j := by
      unfold rowsRank
      omega
    simp only [State.goto_pc, hpc, Pc.rank] at hsum
    simp only [State.goto_nextWorkIndex, State.goto_unposted]
    omega
  | _ =>
    simp only [State.goto_pc, Pc.rank, *] at hsum
    simp only [State.goto_nextWorkIndex, State.goto_unposted]
    omega

theorem exec_rank_lt {e : Event workers} (hinv : Inv vList s) (h : exec vList s e = some s') :
    rank vList s' < rank vList s := by
  cases e with
  | main =>
    unfold exec at h
    split_ifs at h with h0
    cases h
    unfold rank
    simp only [State.sum]
    omega
  | worker t => exact (move_of_workerStep h).rank_lt hinv

/-! ## The count -/

theorem returned_lt (hinv : Inv vList s) {r : Fin workers × Nat} (hr : r ∈ s.returned) :
    r.2 < s.nextWorkIndex := by
  have hhanded := hinv.handed r.2
  have hpos : 0 < (s.returned.filter fun q => q.2 = r.2).length :=
    List.length_pos_of_mem (List.mem_filter.mpr ⟨hr, by simp⟩)
  unfold handedOut at hhanded
  split_ifs at hhanded with h
  · exact h
  · omega

theorem handedOut_le (next i : Nat) : handedOut next i ≤ 1 := by
  unfold handedOut
  split_ifs <;> omega

/-- **Every index goes to one worker, nobody is stuck, and the count is right**, under every schedule. -/
theorem workers_count (vList : List CInt) (workers : Nat) (hw : 1 ≤ workers)
    (hroom : vList.length + workers ≤ maxValues) :
    (∃ bound, ∀ es s, runSteps (exec vList) (start workers) es = some s → es.length ≤ bound) ∧
    ∀ s, Reachable (system vList workers) s →
      (∀ r ∈ s.returned, r.2 < maxValues) ∧
      (∀ i, (s.returned.filter fun r => r.2 = i).length ≤ 1) ∧
      (s.unposted = 0 → (∃ t, s.pc t ≠ .exited) → ∃ t, (exec vList s (.worker t)).isSome) ∧
      ((∀ t, s.pc t = .exited) →
        (∀ i < vList.length, ∃ t, (s.returned.filter fun r => r.2 = i) = [(t, i)]) ∧
        s.globalCount = (triangles vList).card) := by
  constructor
  · refine ⟨rank vList (start workers), fun es s h => ?_⟩
    have hlen := length_runSteps_le (M := system vList workers) (rank vList)
      (fun _ _ _ _ hstep => hstep) (fun s e s' hs hstep => exec_rank_lt (reachable_inv hs) hstep) (.init rfl) h
    omega
  · intro s hs
    have hinv := reachable_inv hs
    have hclaims := hinv.claims
    refine ⟨fun r hr => ?_, fun i => ?_, exists_step hinv, fun hexited => ?_⟩
    · have := returned_lt hinv hr
      omega
    · have := hinv.handed i
      have := handedOut_le s.nextWorkIndex i
      omega
    · have hall : vList.length ≤ s.nextWorkIndex := hinv.last ⟨0, hw⟩ (hexited _)
      have hnone : ∀ f : Pc → Nat, f .exited = 0 → s.sum f = 0 := by
        intro f hf
        exact Finset.sum_eq_zero fun t _ => by rw [hexited t, hf]
      constructor
      · intro i hi
        have hone := hinv.handed i
        rw [hnone _ rfl, handedOut, if_pos (by omega)] at hone
        obtain ⟨⟨t, j⟩, hr⟩ := List.length_eq_one_iff.mp hone
        have hmem : (t, j) ∈ s.returned.filter fun r => r.2 = i := by rw [hr]; exact List.mem_singleton_self _
        obtain rfl : j = i := by simpa using (List.mem_filter.mp hmem).2
        exact ⟨t, hr⟩
      · have hcount := hinv.count
        rwa [hnone _ rfl, Nat.cast_zero, add_zero, sum_restOuter hall] at hcount

/-- Who takes the next step. The two workers take turns for most of the run, and wait for each other twice. -/
def twoWorkers (a b : Fin 2) : List (Event 2) :=
  [.main, .main] ++ [a, b, a, b, a, a, a, a, a, b, a, b, a, b, a, b, a, b, a, b, a, b, a, b, a, b, a, b, a, a, a, a, a, a, a,
    a, a, a, a].map .worker

theorem workers_count_two :
    ∃ s, runSteps (exec [3, 4, 5]) (start 2) (twoWorkers 0 1) = some s ∧ s.globalCount = 1 ∧
    ∀ i < 3, ∃ t, s.returned.filter (fun r => r.2 = i) = [(t, i)] := by
  have hpc : (runSteps (exec [3, 4, 5]) (start 2) (twoWorkers 0 1)).map (fun s => (s.pc 0, s.pc 1)) =
      some (.exited, .exited) := by
    decide +kernel
  obtain ⟨s, hs, hexited⟩ := Option.map_eq_some_iff.mp hpc
  obtain ⟨h0, h1⟩ := Prod.mk.inj hexited
  have hreach : Reachable (system [3, 4, 5] 2) s := (Reachable.init rfl).runSteps (fun _ _ _ _ hstep => hstep) hs
  have h := (workers_count [3, 4, 5] 2 (by decide) (by decide)).2 s hreach
  have hall : ∀ t, s.pc t = .exited := by
    intro t
    fin_cases t
    · exact h0
    · exact h1
  have hcard : (triangles [3, 4, 5]).card = 1 := by decide
  obtain ⟨hreturned, hcount⟩ := h.2.2.2 hall
  rw [hcard] at hcount
  exact ⟨s, hs, hcount, hreturned⟩

end OsCoursework.Triangles.Semaphores
