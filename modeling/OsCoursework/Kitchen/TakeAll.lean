import OsCoursework.Kitchen.Code

/-!
# Taking all appliances at once

A chef goes to sleep while one of its appliances is in use, and every release wakes it, so a
sleeper without a wakeup has somebody to wait for.
-/

open OsCoursework.Transition

namespace OsCoursework.Kitchen.TakeAll

theorem foldl_update {inUse : Appliance → Bool} (list : List Appliance) (flag : Bool) (a : Appliance) :
    list.foldl (fun inUse a => Function.update inUse a flag) inUse a = if a ∈ list then flag else inUse a := by
  induction list generalizing inUse with
  | nil => simp
  | cons b list ih =>
    rw [List.foldl_cons, ih]
    by_cases ha : a ∈ list
    · simp [ha]
    · by_cases hb : a = b <;> simp [ha, hb]

variable {χ : Type} {needed : χ → List Appliance} {s : State χ}

theorem State.mark_inUse (s : State χ) (list : List Appliance) (flag : Bool) (a : Appliance) :
    (s.mark list flag).inUse a = if a ∈ list then flag else s.inUse a := foldl_update list flag a

theorem Pc.signal_eq_cooking {p : Pc} : p.signal = .cooking ↔ p = .cooking := by
  cases p <;> simp [Pc.signal]

theorem Pc.signal_ne {p : Pc} : p.signal ≠ .asleep false := by
  cases p <;> simp [Pc.signal]

/-! ## The invariant -/

structure Inv (needed : χ → List Appliance) (s : State χ) : Prop where
  inUse : ∀ a, s.inUse a = true ↔ ∃ c, s.holds needed c a
  once : ∀ a c d, s.holds needed c a → s.holds needed d a → c = d
  sleeper : ∀ c, s.pc c = .asleep false → ∃ a ∈ needed c, s.inUse a = true

theorem inv_start (needed : χ → List Appliance) : Inv needed (start χ) where
  inUse a := by simp [start, State.holds]
  once a c d h := by cases h.1
  sleeper c h := by cases h

variable [DecidableEq χ]

theorem State.holds_goto (s : State χ) (c : χ) (p : Pc) (d : χ) (a : Appliance) :
    (s.goto c p).holds needed d a ↔ if d = c then p = .cooking ∧ a ∈ needed d else s.holds needed d a := by
  unfold State.holds State.goto
  by_cases hd : d = c
  · subst hd
    simp
  · simp [hd]

theorem Inv.asleep {c : χ} (hinv : Inv needed s) (hpc : s.pc c ≠ .cooking)
    (hany : (needed c).any s.inUse = true) : Inv needed (s.goto c (.asleep false)) := by
  have hholds : ∀ d a, (s.goto c (.asleep false)).holds needed d a ↔ s.holds needed d a := by
    intro d a
    rw [State.holds_goto]
    split_ifs with hd
    · subst hd
      simp [State.holds, hpc]
    · rfl
  constructor
  · intro a
    simp only [hholds]
    exact hinv.inUse a
  · intro a d e
    rw [hholds, hholds]
    exact hinv.once a d e
  · intro d hd
    by_cases hdc : d = c
    · subst hdc
      exact List.any_eq_true.mp hany
    · simp only [State.goto, Function.update_of_ne hdc] at hd
      exact hinv.sleeper d hd

theorem Inv.acquire {c : χ} (hinv : Inv needed s) (hpc : s.pc c ≠ .cooking) :
    Inv needed (acquire (needed c) s c) := by
  unfold TakeAll.acquire
  split_ifs with hany
  · exact hinv.asleep hpc hany
  · have hfree : ∀ a ∈ needed c, ¬ ∃ d, s.holds needed d a := by
      intro a ha hheld
      exact hany (List.any_eq_true.mpr ⟨a, ha, (hinv.inUse a).mpr hheld⟩)
    have hholds : ∀ d a, ((s.mark (needed c) true).goto c .cooking).holds needed d a ↔
        s.holds needed d a ∨ (d = c ∧ a ∈ needed c) := by
      intro d a
      rw [State.holds_goto]
      split_ifs with hd
      · subst hd
        simp [State.holds, hpc]
      · simp [State.holds, State.mark, hd]
    constructor
    · intro a
      have hmark := s.mark_inUse (needed c) true a
      simp only [hholds]
      refine (Eq.congr_left hmark).trans ?_
      by_cases ha : a ∈ needed c
      · simp [ha]
      · simpa [ha] using hinv.inUse a
    · intro a d e hd he
      rcases (hholds d a).mp hd with hd | ⟨hd, ha⟩ <;> rcases (hholds e a).mp he with he | ⟨he, ha'⟩
      · exact hinv.once a d e hd he
      · exact absurd ⟨d, hd⟩ (hfree a ha')
      · exact absurd ⟨e, he⟩ (hfree a ha)
      · exact hd.trans he.symm
    · intro d hd
      by_cases hdc : d = c
      · subst hdc
        simp [State.goto] at hd
      · simp only [State.goto, Function.update_of_ne hdc] at hd
        obtain ⟨a, ha, huse⟩ := hinv.sleeper d hd
        refine ⟨a, ha, (s.mark_inUse (needed c) true a).trans ?_⟩
        split_ifs
        · rfl
        · exact huse

theorem Inv.release {c : χ} (hinv : Inv needed s) (hpc : s.pc c = .cooking) :
    Inv needed (release (needed c) s c) := by
  have hholds : ∀ d a, (TakeAll.release (needed c) s c).holds needed d a ↔ s.holds needed d a ∧ d ≠ c := by
    intro d a
    refine (State.holds_goto _ c _ d a).trans ?_
    split_ifs with hd
    · simp [hd]
    · simp [hd, State.holds, State.broadcast, State.mark, Pc.signal_eq_cooking]
  constructor
  · intro a
    have hmark := s.mark_inUse (needed c) false a
    simp only [hholds]
    refine (Eq.congr_left hmark).trans ?_
    by_cases ha : a ∈ needed c
    · simp only [ha, if_true, Bool.false_eq_true, false_iff, not_exists, not_and, not_not]
      intro d hd
      exact hinv.once a d c hd ⟨hpc, ha⟩
    · rw [if_neg ha, hinv.inUse a]
      refine exists_congr fun d => (and_iff_left_of_imp fun hd hdc => ?_).symm
      exact ha (hdc ▸ hd.2)
  · intro a d e hd he
    exact hinv.once a d e ((hholds d a).mp hd).1 ((hholds e a).mp he).1
  · intro d hd
    by_cases hdc : d = c
    · subst hdc
      simp [TakeAll.release, State.goto] at hd
    · simp only [TakeAll.release, State.goto, Function.update_of_ne hdc, State.broadcast] at hd
      exact absurd hd Pc.signal_ne

theorem reachable_inv (h : Reachable (system needed) s) : Inv needed s := by
  refine h.invariant ?_ ?_
  · rintro _ rfl
    exact inv_start needed
  · rintro s c _ - hinv rfl
    unfold exec
    split
    case h_1 hpc => exact hinv.acquire (by rw [hpc]; decide)
    case h_2 hpc => exact hinv.acquire (by rw [hpc]; exact Pc.noConfusion)
    case h_3 hpc => exact hinv.release hpc

/-- **Exclusive use without lost wakeups.** -/
theorem takeAll_ok {χ : Type} [DecidableEq χ] {needed : χ → List Appliance} {s : State χ}
    (h : Reachable (system needed) s) :
    (∀ a, s.inUse a = true ↔ ∃ c, s.holds needed c a) ∧
    (∀ a c d, s.holds needed c a → s.holds needed d a → c = d) ∧
    (∀ c, s.pc c = .asleep false → ∃ a ∈ needed c, s.inUse a = true) ∧
    ¬ ((∃ c signalled, s.pc c = .asleep signalled) ∧ (∀ c a, ¬ s.holds needed c a) ∧
      ∀ c, s.pc c ≠ .asleep true) := by
  have hinv := reachable_inv h
  refine ⟨hinv.inUse, hinv.once, hinv.sleeper, ?_⟩
  rintro ⟨⟨c, signalled, hc⟩, hnobody, hpending⟩
  cases signalled with
  | true => exact hpending c hc
  | false =>
    obtain ⟨a, -, huse⟩ := hinv.sleeper c hc
    obtain ⟨d, hd⟩ := (hinv.inUse a).mp huse
    exact hnobody d a hd

theorem takeAll_ok_two :
    let needed : Bool → List Appliance := fun chef => if chef then [.oven, .mixer] else [.oven, .oven]
    let s := exec needed (exec needed (start Bool) true) false
    s.pc false = .asleep false ∧ ∃ a ∈ [Appliance.oven, .oven], s.inUse a = true := by
  intro needed s
  have h : Reachable (system needed) s := ((Reachable.init rfl).step (e := true) rfl).step (e := false) rfl
  exact ⟨rfl, (takeAll_ok h).2.2.1 false rfl⟩

end OsCoursework.Kitchen.TakeAll
