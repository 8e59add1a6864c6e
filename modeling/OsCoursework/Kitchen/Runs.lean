import OsCoursework.Kitchen.Ordered
import OsCoursework.Kitchen.Programs
import OsCoursework.Lib.Threads

/-!
# Runs of the kitchen programs

Chefs exclude each other in all three programs, and the total that `main` prints is the number
of dishes. `kitchen.c` can come to a circle of waiting, and then it never ends. In the other two
some step is always possible, and when `running` is clear every run ends.
-/

open OsCoursework.LockOrder OsCoursework.Threads OsCoursework.Transition

namespace OsCoursework.Kitchen

variable {μ : Type} {P : Program μ}

/-- No list names a mutex twice, and `prepare` only moves the entries about. -/
structure Program.Ok (P : Program μ) : Prop where
  nodup : ∀ c, (P.needed c).Nodup
  perm : ∀ l, (P.prepare l).Perm l

/-- What a chef holds at each place. -/
def ChefOk (P : Program μ) (c : Chef) (list held : List μ) : Pc → Prop
  | .uncreated | .testing | .resting | .returned => held = []
  | .locking i | .unlocking i => held = list.take i ∧ i ≤ list.length ∧ ∃ l, l.Perm (P.needed c) ∧ list = P.prepare l
  | .cooking | .counting => held = list ∧ ∃ l, l.Perm (P.needed c) ∧ list = P.prepare l

/-- What is over at each place of `main`. -/
def MainOk (s : State μ) : MainPc → Prop
  | .creating i => s.running = true ∧ ∀ c, s.pc c = .uncreated ↔ c ∉ chefList.take i
  | .sleeping => s.running = true ∧ ∀ c, s.pc c ≠ .uncreated
  | .joining i total => s.running = false ∧ (∀ c, s.pc c ≠ .uncreated) ∧ (∀ c ∈ chefList.take i, s.pc c = .returned) ∧
      total = ((chefList.take i).map s.dishCount).sum
  | .returned total => s.running = false ∧ (∀ c, s.pc c = .returned) ∧ total = ∑ c, s.dishCount c ∧
      ∃ before, s.output = before ++ [.total total.toInt]

structure Inv (P : Program μ) (s : State μ) : Prop where
  perm : ∀ c, (s.list c).Perm (P.needed c)
  chef : ∀ c, ChefOk P c (s.list c) (s.held c) (s.pc c)
  owned : Owned s.locked s.held
  main : MainOk s s.main
  /-- A dish is counted when its chef goes on. -/
  dishes : ∀ c, s.dishCount c + (if s.pc c = .counting then 1 else 0) = (s.output.count (.cooking c) : BitVec 32)

theorem inv_start (P : Program μ) : Inv P P.start where
  perm _ := List.Perm.refl _
  chef _ := rfl
  owned := owned_start
  main := ⟨rfl, fun _ => iff_of_true rfl List.not_mem_nil⟩
  dishes _ := rfl

variable {s s' : State μ} {c d : Chef} {a : μ} {i : Nat}

theorem Inv.nodup_list (hinv : Inv P s) (hP : P.Ok) (c : Chef) : (s.list c).Nodup :=
  (hinv.perm c).nodup_iff.mpr (hP.nodup c)

theorem Inv.mem_held (hinv : Inv P s) (hP : P.Ok) (hpc : s.pc c = .unlocking (i + 1)) (h : (s.list c)[i]? = some a) :
    (s.held c).Nodup ∧ a ∈ s.held c := by
  have hchef := hinv.chef c
  rw [hpc] at hchef
  rw [hchef.1]
  refine ⟨(hinv.nodup_list hP c).sublist (List.take_sublist _ _), ?_⟩
  rw [List.take_add_one, h, Option.toList_some]
  exact List.mem_append_right _ (List.mem_singleton_self a)

/-! ## Steps of a chef -/

variable [DecidableEq μ]

inductive Move (P : Program μ) (s : State μ) (c : Chef) : State μ → Prop
  | prepare (hpc : s.pc c = .testing) (hrunning : s.running = true) :
    Move P s c ({ s with list := Function.update s.list c (P.prepare (s.list c)) }.goto c (.locking 0))
  | stop (hpc : s.pc c = .testing) (hrunning : s.running = false) : Move P s c (s.goto c .returned)
  | lockedAll {i : Nat} (hpc : s.pc c = .locking i) (h : (s.list c)[i]? = none) : Move P s c (s.goto c .cooking)
  | lock {i : Nat} {a : μ} (hpc : s.pc c = .locking i) (h : (s.list c)[i]? = some a) (hfree : s.locked a = false) :
    Move P s c ((Program.lock s c a).goto c (.locking (i + 1)))
  | cook (hpc : s.pc c = .cooking) : Move P s c ((s.printf (.cooking c)).goto c .counting)
  | count (hpc : s.pc c = .counting) : Move P s c ((s.countDish c).goto c (.unlocking (s.list c).length))
  | unlockedAll (hpc : s.pc c = .unlocking 0) : Move P s c (s.goto c .resting)
  | unlock {i : Nat} {a : μ} (hpc : s.pc c = .unlocking (i + 1)) (h : (s.list c)[i]? = some a) :
    Move P s c ((Program.unlock s c a).goto c (.unlocking i))
  | rest (hpc : s.pc c = .resting) : Move P s c ((s.printf (.resting c)).goto c .testing)

theorem move_of_execChef (h : P.execChef s c = some s') : Move P s c s' := by
  unfold Program.execChef at h
  split at h
  case h_1 | h_2 => cases h
  case h_3 hpc =>
    split_ifs at h with hrunning
    · cases h
      exact .prepare hpc hrunning
    · cases h
      exact .stop hpc (Bool.eq_false_of_not_eq_true hrunning)
  case h_4 i hpc =>
    split at h
    case h_1 hnone =>
      cases h
      exact .lockedAll hpc hnone
    case h_2 a hsome =>
      split_ifs at h with hlocked
      cases h
      exact .lock hpc hsome (Bool.eq_false_of_not_eq_true hlocked)
  case h_5 hpc =>
    cases h
    exact .cook hpc
  case h_6 hpc =>
    cases h
    exact .count hpc
  case h_7 hpc =>
    cases h
    exact .unlockedAll hpc
  case h_8 i hpc =>
    obtain ⟨a, ha, rfl⟩ := Option.map_eq_some_iff.mp h
    exact .unlock hpc ha
  case h_9 hpc =>
    cases h
    exact .rest hpc

theorem Move.frame (h : Move P s c s') (hd : d ≠ c) :
    s'.list d = s.list d ∧ s'.held d = s.held d ∧ s'.pc d = s.pc d ∧ s'.dishCount d = s.dishCount d := by
  cases h <;> simp [State.goto, State.printf, State.countDish, Program.lock, Program.unlock, hd]

theorem Move.main (h : Move P s c s') : s'.main = s.main ∧ s'.running = s.running := by
  cases h <;> exact ⟨rfl, rfl⟩

theorem Move.there (h : Move P s c s') : s.pc c ≠ .uncreated ∧ s.pc c ≠ .returned ∧ s'.pc c ≠ .uncreated := by
  cases h with
  | prepare hpc | stop hpc | lockedAll hpc | lock hpc | cook hpc | count hpc | unlockedAll hpc | unlock hpc | rest hpc =>
    simp [State.goto, hpc]

theorem Move.perm (h : Move P s c s') (hP : P.Ok) (hinv : Inv P s) (d : Chef) : (s'.list d).Perm (P.needed d) := by
  have hperm := hinv.perm d
  cases h with
  | prepare hpc =>
    by_cases hd : d = c
    · subst hd
      simpa [State.goto] using (hP.perm _).trans hperm
    · simpa [State.goto, hd] using hperm
  | _ => exact hperm

theorem Move.chef (h : Move P s c s') (hP : P.Ok) (hinv : Inv P s) : ChefOk P c (s'.list c) (s'.held c) (s'.pc c) := by
  have hchef := hinv.chef c
  cases h with
  | prepare hpc =>
    rw [hpc] at hchef
    simp only [State.goto, Function.update_self]
    exact ⟨hchef, Nat.zero_le _, s.list c, hinv.perm c, rfl⟩
  | stop hpc | rest hpc =>
    rw [hpc] at hchef
    simpa [State.goto, State.printf, ChefOk] using hchef
  | lockedAll hpc h =>
    rw [hpc] at hchef
    simp only [State.goto, Function.update_self]
    refine ⟨?_, hchef.2.2⟩
    rw [hchef.1, List.take_of_length_le (List.getElem?_eq_none_iff.mp h)]
  | lock hpc h =>
    rw [hpc] at hchef
    simp only [State.goto, Program.lock, Function.update_self]
    refine ⟨?_, (List.getElem?_eq_some_iff.mp h).1, hchef.2.2⟩
    rw [hchef.1, List.take_add_one, h, Option.toList_some]
  | cook hpc =>
    rw [hpc] at hchef
    simpa [State.goto, State.printf, ChefOk] using hchef
  | count hpc =>
    rw [hpc] at hchef
    simp only [State.goto, State.countDish, Function.update_self]
    exact ⟨by rw [List.take_length, hchef.1], le_rfl, hchef.2⟩
  | unlockedAll hpc =>
    rw [hpc] at hchef
    simp only [State.goto, Function.update_self]
    exact hchef.1
  | @unlock i a hpc h =>
    rw [hpc] at hchef
    simp only [State.goto, Program.unlock, Function.update_self]
    refine ⟨?_, Nat.le_of_succ_le hchef.2.1, hchef.2.2⟩
    have hlast : a ∉ (s.list c).take i := fun hmem => rel_of_mem_take (hinv.nodup_list hP c) hmem h rfl
    rw [hchef.1, List.take_add_one, h, Option.toList_some, List.erase_append_right _ hlast, List.erase_cons_head,
      List.append_nil]

theorem Move.owned (h : Move P s c s') (hP : P.Ok) (hinv : Inv P s) : Owned s'.locked s'.held := by
  cases h with
  | lock hpc h hfree => exact hinv.owned.lock hfree
  | unlock hpc h =>
    obtain ⟨hnodup, hmem⟩ := hinv.mem_held hP hpc h
    exact hinv.owned.unlock hnodup hmem
  | _ => exact hinv.owned

theorem Move.mainOk (h : Move P s c s') (hinv : Inv P s) : MainOk s' s'.main := by
  have hmain := hinv.main
  have huncreated : ∀ d, s'.pc d = .uncreated ↔ s.pc d = .uncreated := by
    intro d
    by_cases hd : d = c
    · subst hd
      exact iff_of_false h.there.2.2 h.there.1
    · rw [(h.frame hd).2.2.1]
  rw [h.main.1]
  rcases hplace : s.main with i | _ | ⟨i, total⟩ | total
  · rw [hplace] at hmain
    exact ⟨h.main.2.trans hmain.1, fun d => (huncreated d).trans (hmain.2 d)⟩
  · rw [hplace] at hmain
    exact ⟨h.main.2.trans hmain.1, fun d => (not_congr (huncreated d)).mpr (hmain.2 d)⟩
  · rw [hplace] at hmain
    obtain ⟨hrunning, hthere, hjoined, rfl⟩ := hmain
    -- A chef that was joined does not move.
    have hne : ∀ d ∈ chefList.take i, d ≠ c := fun d hd hdc => h.there.2.1 (hdc ▸ hjoined d hd)
    refine ⟨h.main.2.trans hrunning, fun d => (not_congr (huncreated d)).mpr (hthere d), fun d hd => ?_, ?_⟩
    · rw [(h.frame (hne d hd)).2.2.1]
      exact hjoined d hd
    · exact congrArg List.sum (List.map_congr_left fun d hd => (h.frame (hne d hd)).2.2.2.symm)
  · rw [hplace] at hmain
    exact absurd (hmain.2.1 c) h.there.2.1

theorem Move.dishes (h : Move P s c s') (hinv : Inv P s) (d : Chef) :
    s'.dishCount d + (if s'.pc d = .counting then 1 else 0) = (s'.output.count (.cooking d) : BitVec 32) := by
  have hdishes := hinv.dishes d
  by_cases hd : d = c
  · subst hd
    cases h with
    | prepare hpc | stop hpc | lockedAll hpc | lock hpc | cook hpc | count hpc | unlockedAll hpc | unlock hpc | rest hpc =>
      simpa [State.goto, State.printf, State.countDish, Program.lock, Program.unlock, hpc] using hdishes
  · have hout : s'.output.count (.cooking d) = s.output.count (.cooking d) := by
      cases h <;> simp [State.goto, State.printf, State.countDish, Program.lock, Program.unlock, Ne.symm hd]
    rw [hout, (h.frame hd).2.2.1, (h.frame hd).2.2.2]
    exact hdishes

theorem Move.inv (h : Move P s c s') (hP : P.Ok) (hinv : Inv P s) : Inv P s' where
  perm := h.perm hP hinv
  chef d := by
    by_cases hd : d = c
    · subst hd
      exact h.chef hP hinv
    · obtain ⟨hlist, hheld, hpc, -⟩ := h.frame hd
      rw [hlist, hheld, hpc]
      exact hinv.chef d
  owned := h.owned hP hinv
  main := h.mainOk hinv
  dishes := h.dishes hinv

/-! ## Steps of main -/

theorem sum_chefs (f : Chef → BitVec 32) : ∑ c, f c = (chefList.map f).sum := rfl

theorem take_of_none (h : chefList[i]? = none) : chefList.take i = chefList :=
  List.take_of_length_le (List.getElem?_eq_none_iff.mp h)

theorem mem_take_of_none (h : chefList[i]? = none) (c : Chef) : c ∈ chefList.take i := by
  rw [take_of_none h]
  exact mem_chefList c

omit [DecidableEq μ] in
theorem inv_execMain (h : Program.execMain s = some s') (hinv : Inv P s) : Inv P s' := by
  have hmain := hinv.main
  unfold Program.execMain at h
  split at h
  case h_1 i hplace =>
    rw [hplace] at hmain
    split at h
    case h_1 c hc =>
      cases h
      have hnew : c ∉ chefList.take i := fun hmem => rel_of_mem_take chefList_nodup hmem hc rfl
      have hpc := (hmain.2 c).mpr hnew
      refine ⟨hinv.perm, fun d => ?_, hinv.owned, ⟨hmain.1, fun d => ?_⟩, fun d => ?_⟩
      · have hchef := hinv.chef d
        by_cases hd : d = c
        · subst hd
          rw [hpc] at hchef
          simpa [State.goto, ChefOk] using hchef
        · simpa [State.goto, hd] using hchef
      · have hd' := hmain.2 d
        by_cases hd : d = c
        · subst hd
          simp [State.goto, List.take_add_one, hc]
        · simpa [State.goto, List.take_add_one, hc, hd] using hd'
      · have hdishes := hinv.dishes d
        by_cases hd : d = c
        · subst hd
          simpa [State.goto, hpc] using hdishes
        · simpa [State.goto, hd] using hdishes
    case h_2 hnone =>
      cases h
      refine ⟨hinv.perm, hinv.chef, hinv.owned, ⟨hmain.1, fun c hpc => ?_⟩, hinv.dishes⟩
      exact (hmain.2 c).mp hpc (mem_take_of_none hnone c)
  case h_2 hplace =>
    rw [hplace] at hmain
    cases h
    exact ⟨hinv.perm, hinv.chef, hinv.owned, ⟨rfl, hmain.2, nofun, rfl⟩, hinv.dishes⟩
  case h_3 i total hplace =>
    rw [hplace] at hmain
    obtain ⟨hrunning, hthere, hjoined, rfl⟩ := hmain
    split at h
    case h_1 c hc =>
      split_ifs at h with hreturned
      cases h
      refine ⟨hinv.perm, hinv.chef, hinv.owned, ⟨hrunning, hthere, fun d hd => ?_, ?_⟩, fun d => ?_⟩
      · rw [List.take_add_one, hc, Option.toList_some, List.mem_append, List.mem_singleton] at hd
        rcases hd with hd | rfl
        · exact hjoined d hd
        · exact hreturned
      · simp [State.printf, List.take_add_one, hc]
      · simpa [State.printf] using hinv.dishes d
    case h_2 hnone =>
      cases h
      refine ⟨hinv.perm, hinv.chef, hinv.owned, ⟨hrunning, fun c => ?_, ?_, s.output, rfl⟩, fun d => ?_⟩
      · exact hjoined c (mem_take_of_none hnone c)
      · rw [take_of_none hnone]
        exact (sum_chefs _).symm
      · simpa [State.printf] using hinv.dishes d
  case h_4 => cases h

theorem reachable_inv (hP : P.Ok) (h : Reachable P.system s) : Inv P s := by
  refine h.invariant ?_ ?_
  · rintro _ rfl
    exact inv_start P
  · intro s actor s' _ hinv hstep
    cases actor with
    | main => exact inv_execMain hstep hinv
    | chef c => exact (move_of_execChef hstep).inv hP hinv

/-! ## What the programs print -/

/-- **A chef cooks with all that it needs and nobody else has it, and `main` prints the number of dishes.** -/
theorem cooks_alone (hP : P.Ok) (h : Reachable P.system s) :
    (∀ c, s.pc c = .cooking ∨ s.pc c = .counting → ∀ a ∈ P.needed c, a ∈ s.held c ∧ ∀ d, a ∈ s.held d → d = c) ∧
    ∀ total, s.main = .returned total → total = ((∑ c, s.output.count (.cooking c) : Nat) : BitVec 32) ∧
      (∀ a, s.locked a = false) ∧ ∃ before, s.stdout = before ++ (Line.total total.toInt).text := by
  have hinv := reachable_inv hP h
  constructor
  · intro c hpc a ha
    have hheld : s.held c = s.list c := by
      have hchef := hinv.chef c
      rcases hpc with hpc | hpc <;> rw [hpc] at hchef <;> exact hchef.1
    have hmem : a ∈ s.held c := by
      rw [hheld]
      exact (hinv.perm c).mem_iff.mpr ha
    exact ⟨hmem, fun d hd => hinv.owned.one a d c hd hmem⟩
  · intro total hreturned
    have hmain := hinv.main
    rw [hreturned] at hmain
    obtain ⟨-, hall, rfl, before, hout⟩ := hmain
    refine ⟨?_, fun a => ?_, String.join (before.map Line.text), ?_⟩
    · rw [Nat.cast_sum]
      refine Finset.sum_congr rfl fun c _ => ?_
      rw [← hinv.dishes c, hall c, if_neg nofun, add_zero]
    · rw [← Bool.not_eq_true, hinv.owned.locked_iff]
      rintro ⟨c, hc⟩
      have hchef := hinv.chef c
      rw [hall c] at hchef
      rw [hchef] at hc
      cases hc
    · rw [State.stdout, hout, List.map_append, String.join_append]
      rfl

theorem ok_kitchen : kitchen.Ok where
  nodup c := by cases c <;> decide
  perm _ := List.Perm.refl _

theorem ok_ordered : ordered.Ok where
  nodup c := by cases c <;> decide
  perm l := ExchangeSort.exchangeSort_perm _ l

theorem ok_global : global.Ok where
  nodup _ := List.nodup_singleton ()
  perm _ := List.Perm.refl _

theorem cooks_alone_merlin :
    ∃ s, runSteps kitchen.exec kitchen.start [.main, .main, .main, .main, .chef .merlin, .chef .merlin, .chef .merlin,
        .chef .merlin, .chef .merlin] = some s ∧ s.output = [.cooking .merlin] ∧ Mutex.mixer ∈ s.held .merlin ∧
      ∀ d, Mutex.mixer ∈ s.held d → d = .merlin := by
  have hcook : (runSteps kitchen.exec kitchen.start [.main, .main, .main, .main, .chef .merlin, .chef .merlin,
      .chef .merlin, .chef .merlin, .chef .merlin]).map (fun s => (s.output, s.pc .merlin)) =
      some ([.cooking .merlin], .counting) := by decide
  obtain ⟨s, hs, hplace⟩ := Option.map_eq_some_iff.mp hcook
  obtain ⟨hout, hpc⟩ := Prod.mk.inj hplace
  have h : Reachable kitchen.system s := (Reachable.init rfl).runSteps (fun _ _ _ _ hstep => hstep) hs
  exact ⟨s, hs, hout, (cooks_alone ok_kitchen h).1 .merlin (.inr hpc) .mixer (by decide)⟩

/-! ## A circle of waiting -/

theorem execChef_of_waits (h : s.waits c a) : P.execChef s c = none := by
  obtain ⟨i, hpc, ha, hlocked⟩ := h
  simp [Program.execChef, hpc, ha, hlocked]

omit [DecidableEq μ] in
theorem execMain_frame (hinv : Inv P s) (h : Program.execMain s = some s') (hc : s.pc c ≠ .uncreated) :
    s'.list c = s.list c ∧ s'.held c = s.held c ∧ s'.pc c = s.pc c := by
  have hmain := hinv.main
  unfold Program.execMain at h
  split at h
  case h_1 i hplace =>
    rw [hplace] at hmain
    split at h
    case h_1 d hd =>
      cases h
      have hnew : d ∉ chefList.take i := fun hmem => rel_of_mem_take chefList_nodup hmem hd rfl
      have hne : c ≠ d := fun hcd => hc (hcd ▸ (hmain.2 d).mpr hnew)
      simp [State.goto, hne]
    case h_2 =>
      cases h
      exact ⟨rfl, rfl, rfl⟩
  case h_2 =>
    cases h
    exact ⟨rfl, rfl, rfl⟩
  case h_3 =>
    split at h
    case h_1 =>
      split_ifs at h
      cases h
      exact ⟨rfl, rfl, rfl⟩
    case h_2 =>
      cases h
      exact ⟨rfl, rfl, rfl⟩
  case h_4 => cases h

/-- The chefs in `S` wait for each other. -/
def State.Circle (s : State μ) (S : Set Chef) : Prop := LockOrder.Circle s.waits (fun c a => a ∈ s.held c) S

theorem State.Circle.step {S : Set Chef} {actor : Program.Actor} (hP : P.Ok) (h : Reachable P.system s) (hcircle : s.Circle S)
    (hstep : P.exec s actor = some s') : s'.Circle S := by
  have hinv := reachable_inv hP h
  have hinv' := reachable_inv hP (h.step hstep)
  have hframe : ∀ c ∈ S, s'.list c = s.list c ∧ s'.held c = s.held c ∧ s'.pc c = s.pc c := by
    intro c hc
    obtain ⟨a, hwaits, -⟩ := hcircle c hc
    cases actor with
    | main =>
      obtain ⟨i, hpc, -⟩ := hwaits
      exact execMain_frame hinv hstep (by simp [hpc])
    | chef d =>
      have hne : c ≠ d := by
        rintro rfl
        have hnone := execChef_of_waits (P := P) hwaits
        exact absurd (hnone.symm.trans hstep) nofun
      have hframe := (move_of_execChef hstep).frame hne
      exact ⟨hframe.1, hframe.2.1, hframe.2.2.1⟩
  intro c hc
  obtain ⟨a, ⟨i, hpc, ha, -⟩, d, hd, hheld⟩ := hcircle c hc
  obtain ⟨hlist, -, hpc'⟩ := hframe c hc
  have hheld' : a ∈ s'.held d := by
    rw [(hframe d hd).2.1]
    exact hheld
  exact ⟨a, ⟨i, hpc'.trans hpc, hlist ▸ ha, (hinv'.owned.locked_iff a).mpr ⟨d, hheld'⟩⟩, d, hd, hheld'⟩

/-- **A circle of waiting lasts for ever, and `main` never returns.** -/
theorem circle_lasts {S : Set Chef} (hP : P.Ok) (h : Reachable P.system s) (hne : S.Nonempty) (hcircle : s.Circle S) :
    ∀ as t, runSteps P.exec s as = some t → t.Circle S ∧ ∀ total, t.main ≠ .returned total := by
  intro as t hrun
  induction as generalizing s with
  | nil =>
    cases hrun
    refine ⟨hcircle, fun total hreturned => ?_⟩
    obtain ⟨c, hc⟩ := hne
    obtain ⟨a, ⟨i, hpc, -⟩, -⟩ := hcircle c hc
    have hmain := (reachable_inv hP h).main
    rw [hreturned] at hmain
    exact absurd (hpc.symm.trans (hmain.2.1 c)) nofun
  | cons actor as ih =>
    obtain ⟨u, hu, hrun⟩ := Option.bind_eq_some_iff.mp hrun
    exact ih (h.step hu) (hcircle.step hP h hu) hrun

/-- Merry has the mixer and the oven, and Merlin has the blender. -/
theorem kitchen_deadlocks :
    ∃ s, Reachable kitchen.system s ∧ ∀ as t, runSteps kitchen.exec s as = some t →
      t.Circle {.merry, .merlin} ∧ ∀ total, t.main ≠ .returned total := by
  have hstuck : (runSteps kitchen.exec kitchen.start
      [.main, .main, .main, .main, .chef .merry, .chef .merlin, .chef .merry, .chef .merry, .chef .merlin]).map
      (fun s => ((s.pc .merry, s.list .merry, s.held .merry), s.pc .merlin, s.list .merlin, s.held .merlin)) =
      some ((.locking 2, [.mixer, .oven, .blender], [.mixer, .oven]), .locking 1, [.blender, .mixer], [.blender]) := by
    decide
  obtain ⟨s, hs, hplace⟩ := Option.map_eq_some_iff.mp hstuck
  simp only [Prod.mk.injEq] at hplace
  obtain ⟨⟨hmerry, hlist, hheld⟩, hmerlin, hlist', hheld'⟩ := hplace
  have h : Reachable kitchen.system s := (Reachable.init rfl).runSteps (fun _ _ _ _ hstep => hstep) hs
  have hmixer : Mutex.mixer ∈ s.held .merry := by simp [hheld]
  have hblender : Mutex.blender ∈ s.held .merlin := by simp [hheld']
  have hlocked := (reachable_inv ok_kitchen h).owned.locked_iff
  have hcircle : s.Circle {.merry, .merlin} := by
    rintro c (rfl | rfl)
    · exact ⟨.blender, ⟨2, hmerry, by rw [hlist]; rfl, (hlocked _).mpr ⟨_, hblender⟩⟩, .merlin, .inr rfl, hblender⟩
    · exact ⟨.mixer, ⟨1, hmerlin, by rw [hlist']; rfl, (hlocked _).mpr ⟨_, hmixer⟩⟩, .merry, .inl rfl, hmixer⟩
  exact ⟨s, h, circle_lasts ok_kitchen h ⟨.merry, .inl rfl⟩ hcircle⟩

/-! ## Locks in order -/

/-- After `prepare` the locks are taken from lower levels to higher ones. -/
def Program.InOrder (P : Program μ) (level : μ → Nat) : Prop :=
  ∀ c l, l.Perm (P.needed c) → (P.prepare l).Pairwise fun a b => level a < level b

omit [DecidableEq μ] in
theorem Inv.order {level : μ → Nat} {b : μ} (hinv : Inv P s) (horder : P.InOrder level) (ha : a ∈ s.held c)
    (hb : s.waits c b) : level a < level b := by
  obtain ⟨i, hpc, hi, -⟩ := hb
  have hchef := hinv.chef c
  rw [hpc] at hchef
  obtain ⟨hheld, -, l, hperm, hprepared⟩ := hchef
  rw [hheld] at ha
  have hsorted : (s.list c).Pairwise fun a b => level a < level b := hprepared ▸ horder c l hperm
  exact rel_of_mem_take hsorted ha hi

omit [DecidableEq μ] in
theorem Inv.unfinished (hinv : Inv P s) (ha : a ∈ s.held c) : s.pc c ≠ .returned := by
  intro hpc
  have hchef := hinv.chef c
  rw [hpc] at hchef
  rw [hchef] at ha
  cases ha

theorem exists_execChef (hinv : Inv P s) (hthere : s.pc c ≠ .uncreated) (hunfinished : s.pc c ≠ .returned)
    (hblocked : ∀ a, ¬ s.waits c a) : ∃ s', P.execChef s c = some s' := by
  have hchef := hinv.chef c
  rw [← Option.isSome_iff_exists]
  unfold Program.execChef
  split
  case h_1 hpc => exact absurd hpc hthere
  case h_2 hpc => exact absurd hpc hunfinished
  case h_3 => split <;> rfl
  case h_4 i hpc =>
    split
    case h_1 => rfl
    case h_2 a ha =>
      rw [if_neg fun hlocked => hblocked a ⟨i, hpc, ha, hlocked⟩]
      rfl
  case h_8 i hpc =>
    rw [hpc] at hchef
    rw [List.getElem?_eq_getElem hchef.2.1]
    rfl
  all_goals rfl

theorem Inv.exists_move {level : μ → Nat} {bound : Nat} (hinv : Inv P s) (horder : P.InOrder level)
    (hbound : ∀ a, level a < bound) (hthere : ∀ c, s.pc c ≠ .uncreated) (hc : s.pc c ≠ .returned) :
    ∃ d s', P.execChef s d = some s' := by
  by_contra! hstuck
  have hcircle : s.Circle {c | s.pc c ≠ .returned} := by
    intro d hd
    have hwaits : ∃ a, s.waits d a := by
      by_contra! hblocked
      obtain ⟨s', hs'⟩ := exists_execChef hinv (hthere d) hd hblocked
      exact hstuck d s' hs'
    obtain ⟨a, ha⟩ := hwaits
    obtain ⟨e, he⟩ := (hinv.owned.locked_iff a).mp ha.choose_spec.2.2
    exact ⟨a, ha, e, hinv.unfinished he, he⟩
  have hlevel : ∀ c a b, a ∈ s.held c → s.waits c b → level a < level b := fun c a b => hinv.order horder
  exact not_circle hbound hlevel ⟨c, hc⟩ hcircle

theorem exists_step {level : μ → Nat} {bound : Nat} (hP : P.Ok) (horder : P.InOrder level)
    (hbound : ∀ a, level a < bound) (h : Reachable P.system s) (hmain : ∀ total, s.main ≠ .returned total) :
    ∃ actor s', P.exec s actor = some s' := by
  have hinv := reachable_inv hP h
  rcases hplace : s.main with i | _ | ⟨i, total⟩ | total
  · refine ⟨.main, Option.isSome_iff_exists.mp ?_⟩
    unfold Program.exec Program.execMain
    rw [hplace]
    dsimp only
    split <;> rfl
  · refine ⟨.main, Option.isSome_iff_exists.mp ?_⟩
    unfold Program.exec Program.execMain
    rw [hplace]
    rfl
  · by_cases hall : ∀ c, s.pc c = .returned
    · refine ⟨.main, Option.isSome_iff_exists.mp ?_⟩
      unfold Program.exec Program.execMain
      rw [hplace]
      dsimp only
      split
      case h_1 c _ =>
        rw [if_pos (hall c)]
        rfl
      case h_2 => rfl
    · obtain ⟨c, hc⟩ := not_forall.mp hall
      have hthere := hinv.main
      rw [hplace] at hthere
      obtain ⟨d, s', hs'⟩ := hinv.exists_move horder hbound hthere.2.1 hc
      exact ⟨.chef d, s', hs'⟩
  · exact absurd hplace (hmain total)

/-! ## The way to the end -/

/-- The steps that a chef still makes when `running` is clear. The list is `n` long. -/
def Pc.rank (n : Nat) : Pc → Nat
  | .uncreated | .returned => 0
  | .testing => 1
  | .resting => 2
  | .unlocking i => i + 3
  | .counting => n + 4
  | .cooking => n + 5
  | .locking i => (n - i) + n + 6

def MainPc.rank : MainPc → Nat
  | .joining i _ => (chefList.length - i) + 1
  | _ => 0

def State.rank (s : State μ) : Nat := s.main.rank + ∑ c, (s.pc c).rank (s.list c).length

theorem Move.rank_lt (h : Move P s c s') (hrunning : s.running = false) :
    (s'.pc c).rank (s'.list c).length < (s.pc c).rank (s.list c).length := by
  cases h with
  | prepare hpc htrue =>
    rw [hrunning] at htrue
    cases htrue
  | stop hpc | unlockedAll hpc | rest hpc => simp [State.goto, State.printf, hpc, Pc.rank]
  | lockedAll hpc h =>
    simp only [State.goto, Function.update_self, hpc, Pc.rank]
    omega
  | lock hpc h =>
    have hi := (List.getElem?_eq_some_iff.mp h).1
    simp only [State.goto, Program.lock, Function.update_self, hpc, Pc.rank]
    omega
  | cook hpc | count hpc | unlock hpc =>
    simp only [State.goto, State.printf, State.countDish, Program.unlock, Function.update_self, hpc, Pc.rank]
    omega

theorem Move.sum_lt (h : Move P s c s') (hrunning : s.running = false) : s'.rank < s.rank := by
  unfold State.rank
  rw [h.main.1]
  refine Nat.add_lt_add_left (Finset.sum_lt_sum (fun d _ => ?_) ⟨c, Finset.mem_univ c, h.rank_lt hrunning⟩) _
  by_cases hd : d = c
  · subst hd
    exact (h.rank_lt hrunning).le
  · rw [(h.frame hd).1, (h.frame hd).2.2.1]

omit [DecidableEq μ] in
theorem execMain_rank_lt (h : Program.execMain s = some s') (hinv : Inv P s) (hrunning : s.running = false) :
    s'.rank < s.rank ∧ s'.running = false := by
  have hmain := hinv.main
  unfold Program.execMain at h
  split at h
  case h_1 hplace | h_2 hplace =>
    rw [hplace] at hmain
    exact absurd (hrunning.symm.trans hmain.1) nofun
  case h_3 i total hplace =>
    split at h
    case h_1 c hc =>
      have hi := (List.getElem?_eq_some_iff.mp hc).1
      split_ifs at h
      cases h
      refine ⟨Nat.add_lt_add_right ?_ _, hrunning⟩
      rw [hplace]
      simp only [State.printf, MainPc.rank]
      omega
    case h_2 =>
      cases h
      refine ⟨Nat.add_lt_add_right ?_ _, hrunning⟩
      rw [hplace]
      exact Nat.succ_pos _
  case h_4 => cases h

theorem exec_rank_lt {actor : Program.Actor} (hP : P.Ok) (h : Reachable P.system s) (hrunning : s.running = false)
    (hstep : P.exec s actor = some s') : s'.rank < s.rank ∧ s'.running = false := by
  cases actor with
  | main => exact execMain_rank_lt hstep (reachable_inv hP h) hrunning
  | chef c =>
    have hmove := move_of_execChef hstep
    exact ⟨hmove.sum_lt hrunning, hmove.main.2.trans hrunning⟩

theorem run_length_le (hP : P.Ok) (h : Reachable P.system s) (hrunning : s.running = false) {as : List Program.Actor}
    {t : State μ} (hrun : runSteps P.exec s as = some t) : as.length + t.rank ≤ s.rank := by
  induction as generalizing s with
  | nil =>
    cases hrun
    simp
  | cons actor as ih =>
    obtain ⟨u, hu, hrun⟩ := Option.bind_eq_some_iff.mp hrun
    obtain ⟨hlt, hrunning'⟩ := exec_rank_lt hP h hrunning hu
    have hlater := ih (h.step hu) hrunning' hrun
    rw [List.length_cons]
    omega

/-- A program that never hangs. -/
def Program.Finishes (P : Program μ) : Prop :=
  ∀ s, Reachable P.system s →
    ((∀ total, s.main ≠ .returned total) → ∃ actor s', P.exec s actor = some s') ∧
    (s.running = false → ∀ as t, runSteps P.exec s as = some t → as.length ≤ s.rank)

theorem finishes {level : μ → Nat} {bound : Nat} (hP : P.Ok) (horder : P.InOrder level) (hbound : ∀ a, level a < bound) :
    P.Finishes := by
  refine fun s h => ⟨exists_step hP horder hbound h, fun hrunning as t hrun => ?_⟩
  exact (Nat.le_add_right _ _).trans (run_length_le hP h hrunning hrun)

/-- **`ordered.c` and `global.c` can always go on, and end when they are asked to stop.** -/
theorem ordered_global_finish : ordered.Finishes ∧ global.Finishes := by
  constructor
  · refine finishes ok_ordered (fun c l hperm => ?_) Ordered.Appliance.value_lt
    exact Ordered.inOrder_exchangeSort (hperm.nodup_iff.mpr (ok_ordered.nodup c))
  · have horder : global.InOrder fun _ => 0 := by
      intro c l hperm
      rw [show l = [()] from List.perm_singleton.mp hperm]
      exact List.pairwise_singleton _ _
    exact finishes ok_global horder fun _ => Nat.one_pos

end OsCoursework.Kitchen
