import OsCoursework.Triangles.SharedCount

/-!
# The bounds of the list

`readList` lets one value too many in. `getWork` checks `nextWorkIndex` before it waits for the
mutex: a worker that waits there may find that the last index is gone, and takes one that is
not in the list.
-/

open OsCoursework.Threads OsCoursework.Transition

namespace OsCoursework.Triangles.Semaphores

/-! ## readList -/

/-- The array holds these values, and zeros behind them. -/
def Holds (a : Vector CInt maxValues) (values : List CInt) : Prop := ∀ i < maxValues, a[i]? = some (values.getD i 0)

theorem Holds.store {a : Vector CInt maxValues} {values : List CInt} (h : Holds a values) (v : CInt)
    (hlt : values.length < maxValues) : Holds (a.setIfInBounds values.length v) (values ++ [v]) := by
  intro i hi
  rw [Vector.getElem?_setIfInBounds]
  split_ifs with heq
  · subst heq
    simp
  · rw [h i hi]
    congr 1
    by_cases hlast : i < values.length
    · rw [List.getD_append _ _ _ _ hlast]
    · rw [List.getD_append_right _ _ _ _ (not_lt.mp hlast), List.getD_eq_default _ _ (not_lt.mp hlast)]
      exact (List.getD_eq_default _ _ (by simp; omega)).symm

theorem readLoop_fits {a : Vector CInt maxValues} {values : List CInt} (h : Holds a values) {rest : List CInt}
    (hlen : values.length + rest.length ≤ maxValues) :
    ∃ a', readLoop rest a values.length = .done a' (values ++ rest).length ∧ Holds a' (values ++ rest) := by
  induction rest generalizing a values with
  | nil => exact ⟨a, by simp [readLoop], by simpa using h⟩
  | cons v rest ih =>
    rw [List.length_cons] at hlen
    obtain ⟨a', hloop, hholds⟩ := ih (h.store v (by omega)) (by simp; omega)
    rw [List.append_assoc, List.singleton_append] at hloop hholds
    refine ⟨a', ?_, hholds⟩
    rw [readLoop, if_neg (by omega), if_pos (by omega), ← hloop, List.length_append, List.length_singleton]

theorem readLoop_long (a : Vector CInt maxValues) {vCount : Nat} {rest : List CInt} (hcount : vCount ≤ maxValues)
    (hlen : maxValues < vCount + rest.length) : readLoop rest a vCount = .stray maxValues := by
  induction rest generalizing a vCount with
  | nil =>
    rw [List.length_nil] at hlen
    omega
  | cons v rest ih =>
    rw [List.length_cons] at hlen
    rw [readLoop, if_neg (by omega)]
    split_ifs with hlt
    · exact ih _ (by omega) (by omega)
    · rw [show vCount = maxValues by omega]

/-- It fails for too many values, and else keeps them all. No store is outside the array. -/
def ReadsRight (input : List CInt) : Prop :=
  if input.length ≤ maxValues then ∃ a, readList input = .done a input.length ∧ Holds a input
  else readList input = .failed

theorem readList_long {input : List CInt} (hlen : maxValues < input.length) : readList input = .stray maxValues :=
  readLoop_long _ (Nat.zero_le _) (by omega)

/-- **When readList is right**: for no more than `MAX_VALUES` values. -/
theorem readsRight_iff (input : List CInt) : ReadsRight input ↔ input.length ≤ maxValues := by
  unfold ReadsRight
  split_ifs with hlen
  · refine ⟨fun _ => hlen, fun _ => ?_⟩
    have hzero : Holds (Vector.replicate maxValues 0) [] := fun i hi => by simp [hi]
    have hfits : ([] : List CInt).length + input.length ≤ maxValues := by simpa using hlen
    have hloop := readLoop_fits hzero hfits
    simpa [readList] using hloop
  · rw [readList_long (not_le.mp hlen)]
    exact ⟨nofun, fun h => absurd h hlen⟩

/-- The value after the last one is stored. -/
theorem readList_one_more : ¬ ∀ input, ReadsRight input := by
  intro h
  obtain ⟨input, hlen⟩ : ∃ input : List CInt, maxValues < input.length := by
    refine ⟨List.replicate (maxValues + 1) 1, ?_⟩
    rw [List.length_replicate]
    exact Nat.lt_succ_self _
  have hone := h input
  unfold ReadsRight at hone
  rw [if_neg (not_le.mpr hlen), readList_long hlen] at hone
  cases hone

/-! ## getWork -/

variable {vList : List CInt} {workers : Nat} {s s' : State workers} {t u : Fin workers}

/-- A worker passes the check only while an index is left for it, besides those for the workers between the
check and the increment. -/
def Spare (vList : List CInt) (s : State workers) : Event workers → Prop
  | .worker t =>
    s.pc t = .check → s.nextWorkIndex < vList.length → s.nextWorkIndex + s.sum Pc.claims < vList.length
  | .main => True

theorem Move.spare (h : Move vList s t s') (hinv : Inv vList s) (hspare : Spare vList s (.worker t))
    (hroom : s.nextWorkIndex + s.sum Pc.claims ≤ vList.length) :
    s'.nextWorkIndex + s'.sum Pc.claims ≤ vList.length := by
  rcases h.claims_step hinv with hsame | ⟨hpc, hlt, hmore⟩
  · omega
  · have hfree := hspare hpc hlt
    omega

theorem spare_claims (h : Reachable ((system vList workers).restrict (Spare vList)) s) :
    s.nextWorkIndex + s.sum Pc.claims ≤ vList.length := by
  refine Reachable.invariant (P := fun s => s.nextWorkIndex + s.sum Pc.claims ≤ vList.length) ?_ ?_ h
  · rintro _ rfl
    have hnone : (start workers).sum Pc.claims = 0 := Finset.sum_eq_zero fun _ _ => rfl
    rw [hnone]
    exact Nat.zero_le _
  · rintro s e s' hs hroom ⟨hspare, hstep⟩
    cases e with
    | main =>
      simp only [system, exec] at hstep
      split_ifs at hstep
      cases hstep
      exact hroom
    | worker t => exact (move_of_workerStep hstep).spare (reachable_inv hs.of_restrict) hspare hroom

theorem spare_valid (h : Reachable ((system vList workers).restrict (Spare vList)) s) {r : Fin workers × Nat}
    (hr : r ∈ s.returned) : r.2 < vList.length := by
  have hroom := spare_claims h
  have hlt := returned_lt (reachable_inv h.of_restrict) hr
  omega

/-! ### One worker -/

theorem spare_of_few (hfew : workers ≤ 1 ∨ vList = []) (s : State workers) (e : Event workers) : Spare vList s e := by
  cases e with
  | main => trivial
  | worker t =>
    intro hpc hlt
    rcases hfew with hone | rfl
    · have hnone : s.sum Pc.claims = 0 := by
        refine Finset.sum_eq_zero fun u _ => ?_
        have hut : u = t := by
          ext
          omega
        rw [hut, hpc]
        rfl
      omega
    · simp at hlt

/-! ### Two workers -/

theorem Move.workerStep_eq (h : Move vList s t s') : workerStep vList s t = some s' := by
  unfold workerStep
  cases h <;> simp [*]

theorem Move.reachable (h : Move vList s t s') (hs : Reachable (system vList workers) s) :
    Reachable (system vList workers) s' :=
  hs.step (e := .worker t) h.workerStep_eq

/-- One worker is past the check, and nobody else can go on. -/
structure Overtaken (vList : List CInt) (s : State workers) (t : Fin workers) : Prop where
  reachable : Reachable (system vList workers) s
  waits : s.pc t = .waitMutex
  others : ∀ u, u ≠ t → workerStep vList s u = none
  posted : s.unposted = 0

theorem exists_overtaken (hlen : 0 < vList.length) (t : Fin workers) :
    ∃ s : State workers, Overtaken vList s t := by
  have hmain : exec vList (start workers) .main =
      some { start workers with unposted := workers - 1, workAvailable := 1 } := if_pos t.pos
  have hposted : Reachable (system vList workers) _ := (Reachable.init rfl).step hmain
  have htoken : Move vList { start workers with unposted := workers - 1, workAvailable := 1 } t _ :=
    .takeToken rfl (Nat.succ_pos 0)
  have hcheck := htoken.reachable hposted
  have hwait := (Move.goOn (t := t) (State.goto_pc _ _ _) (by exact hlen)).reachable hcheck
  obtain ⟨s, hs, hpc, hlast⟩ := hwait.exists_last (P := fun s => s.pc t = .waitMutex) (rank vList)
    (fun s e s' hs hstep => exec_rank_lt (reachable_inv hs) hstep) (State.goto_pc _ _ _)
  refine ⟨s, hs, hpc, fun u hu => ?_, ?_⟩
  · by_contra hne
    obtain ⟨s', hs'⟩ := Option.ne_none_iff_exists'.mp hne
    refine hlast (.worker u) s' hs' ?_
    rw [(move_of_workerStep hs').others hu.symm]
    exact hpc
  · by_contra hne
    exact hlast .main _ (if_pos (Nat.pos_of_ne_zero hne)) hpc

theorem Overtaken.exited (h : Overtaken vList s t) (hu : u ≠ t) : s.workMutex = 1 ∧ s.pc u = .exited := by
  have hinv := reachable_inv h.reachable
  have htokens := hinv.tokens
  have hworkMutex := hinv.workMutex
  have hcountMutex := hinv.countMutex
  rw [h.posted] at htokens
  have hplace : ∀ v, s.pc v = .waitAvailable ∨ s.pc v = .waitMutex ∨ (∃ index j k, s.pc v = .lockCount index j k) ∨
      s.pc v = .exited := by
    intro v
    by_cases hv : v = t
    · exact Or.inr (Or.inl (hv ▸ h.waits))
    · rcases blocked (h.others v hv) with ⟨hpc, -⟩ | ⟨hpc, -⟩ | ⟨index, j, k, hpc, -⟩ | hpc
      · exact Or.inl hpc
      · exact Or.inr (Or.inl hpc)
      · exact Or.inr (Or.inr (Or.inl ⟨index, j, k, hpc⟩))
      · exact Or.inr (Or.inr (Or.inr hpc))
  have hwork : s.sum Pc.inWorkMutex = 0 := by
    refine Finset.sum_eq_zero fun v _ => ?_
    rcases hplace v with hpc | hpc | ⟨_, _, _, hpc⟩ | hpc <;> rw [hpc] <;> rfl
  have hcount : s.sum Pc.inCountMutex = 0 := by
    refine Finset.sum_eq_zero fun v _ => ?_
    rcases hplace v with hpc | hpc | ⟨_, _, _, hpc⟩ | hpc <;> rw [hpc] <;> rfl
  rw [hwork] at hworkMutex
  refine ⟨hworkMutex, ?_⟩
  rcases blocked (h.others u hu) with ⟨hpc, h0⟩ | ⟨-, h0⟩ | ⟨_, _, _, -, h0⟩ | hpc
  · -- All tokens are taken, and this worker has none.
    have hthis : Pc.token (s.pc u) = 0 := by rw [hpc]; rfl
    have hfew : s.sum Pc.token < workers := by
      simpa [State.sum] using sum_lt_card (f := fun v => Pc.token (s.pc v)) (fun v => Pc.token_le _) hthis
    omega
  · omega
  · rw [hcount, h0] at hcountMutex
    cases hcountMutex
  · exact hpc

theorem Overtaken.returns (h : Overtaken vList s t) (hmutex : s.workMutex = 1) :
    ∃ s', Reachable (system vList workers) s' ∧ (t, s.nextWorkIndex) ∈ s'.returned := by
  have htake := (Move.takeMutex h.waits (hmutex ▸ Nat.one_pos)).reachable h.reachable
  have hread := (Move.readNext (State.goto_pc _ _ _)).reachable htake
  have hwrite := (Move.writeNext (State.goto_pc _ _ _)).reachable hread
  have hpost := (Move.postMutex (State.goto_pc _ _ _)).reachable hwrite
  exact ⟨_, hpost, by simp⟩

theorem overtaken_invalid (hw : 2 ≤ workers) (hlen : 0 < vList.length) :
    ∃ s : State workers, Reachable (system vList workers) s ∧ ∃ r ∈ s.returned, vList.length ≤ r.2 := by
  obtain ⟨s, hs⟩ := exists_overtaken hlen (⟨1, hw⟩ : Fin workers)
  obtain ⟨hmutex, hexited⟩ := hs.exited (u := ⟨0, by omega⟩) (by simp)
  obtain ⟨s', hs', hr⟩ := hs.returns hmutex
  exact ⟨s', hs', _, hr, (reachable_inv hs.reachable).last _ hexited⟩

/-- **When getWork returns valid indices.** It does in every run where a worker passes the check only while an
index is left for it. For a list and a number of workers it does in every run exactly when there is at most
one worker, or nothing in the list. -/
theorem getWork_valid (vList : List CInt) (workers : Nat) :
    (∀ s, Reachable ((system vList workers).restrict (Spare vList)) s → ∀ r ∈ s.returned, r.2 < vList.length) ∧
      ((∀ s, Reachable (system vList workers) s → ∀ r ∈ s.returned, r.2 < vList.length) ↔
        workers ≤ 1 ∨ vList = []) := by
  refine ⟨fun s hs r hr => spare_valid hs hr, ?_, ?_⟩
  · intro h
    by_contra hmany
    push Not at hmany
    have htwo : 2 ≤ workers := by omega
    obtain ⟨s, hs, r, hr, hle⟩ := overtaken_invalid htwo (List.length_pos_of_ne_nil hmany.2)
    exact absurd (h s hs r hr) (not_lt.mpr hle)
  · intro hfew s hs r hr
    exact spare_valid (hs.restrict fun s e _ => spare_of_few hfew s e) hr

/-- Both workers pass the check, and then take an index each. -/
def bothCheck (t u : Fin 2) : List (Event 2) :=
  [.main, .main, .worker t, .worker t, .worker u, .worker u, .worker t, .worker t, .worker t, .worker t,
    .worker u, .worker u, .worker u, .worker u]

theorem getWork_past_end : ¬ ∀ (vList : List CInt) (workers : Nat) (s : State workers),
    Reachable (system vList workers) s → ∀ r ∈ s.returned, r.2 < vList.length := by
  intro h
  have hrun : (runSteps (exec [7]) (start 2) (bothCheck 0 1)).map State.returned = some [(0, 0), (1, 1)] := by
    decide +kernel
  obtain ⟨s, hs, hreturned⟩ := Option.map_eq_some_iff.mp hrun
  have hreach : Reachable (system [7] 2) s := (Reachable.init rfl).runSteps (fun _ _ _ _ hstep => hstep) hs
  have hlt := h [7] 2 s hreach (1, 1) (by simp [hreturned])
  exact absurd hlt (by decide)

end OsCoursework.Triangles.Semaphores
