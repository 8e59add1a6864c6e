import OsCoursework.Deadlock.Code
import OsCoursework.Lib.LockOrder
import OsCoursework.Lib.Threads

/-!
# No deadlock in ex09

Every start routine waits for its objects in the order of the declarations, and posts all it
has waited for.
-/

open OsCoursework.LockOrder OsCoursework.Threads OsCoursework.Transition

namespace OsCoursework.Deadlock

/-- The place among the declarations. -/
def Object.rank : Object → Nat
  | .hammer => 0
  | .rubberStamp => 1
  | .bookmark => 2
  | .shovel => 3
  | .bowtie => 4
  | .camera => 5
  | .spatula => 6
  | .tricorder => 7
  | .usbCable => 8

theorem Object.rank_lt (a : Object) : a.rank < 9 := by
  cases a <;> decide

/-! ## The start routines -/

structure Routine.Ok (r : Routine) : Prop where
  ordered : r.waits.Pairwise fun a b => a.rank < b.rank
  posts_eq : r.posts = r.waits

theorem routine_ok (t : Thread) : t.routine.Ok := by
  cases t <;> exact ⟨by decide, by decide⟩

/-! ## The invariant -/

/-- What a thread holds at each place. -/
def ThreadOk (r : Routine) (held : List Object) : Pc → Prop
  | .uncreated | .testing | .returned => held = []
  | .waiting i => held = r.waits.take i
  | .printing => held = r.waits
  | .posting i => held = r.waits.drop i

structure Inv (s : State) : Prop where
  routine : ∀ t, ThreadOk t.routine (s.held t) (s.pc t)
  created : ∀ t, s.pc t = .uncreated ↔ t ∉ thread.take s.created
  value : ∀ a, s.value a + (s.holders a).card = 1

theorem inv_start : Inv start where
  routine _ := rfl
  created t := by simp [start]
  value a := by simp [start, State.holders]

variable {s s' : State} {t u : Thread} {a : Object}

theorem Inv.value_le (hinv : Inv s) (a : Object) : s.value a ≤ 1 := by
  have h := hinv.value a
  omega

theorem Inv.notMem_held (hinv : Inv s) (ha : s.value a ≠ 0) (t : Thread) : a ∉ s.held t := by
  intro hmem
  have hpos : 0 < (s.holders a).card := Finset.card_pos.mpr ⟨t, by simpa [State.holders] using hmem⟩
  have h := hinv.value a
  omega

theorem Inv.exists_held (hinv : Inv s) (ha : s.value a = 0) : ∃ t, a ∈ s.held t := by
  have h := hinv.value a
  have hpos : 0 < (s.holders a).card := by omega
  obtain ⟨t, ht⟩ := Finset.card_pos.mp hpos
  exact ⟨t, by simpa [State.holders] using ht⟩

theorem Inv.unfinished (hinv : Inv s) (ha : a ∈ s.held t) : s.unfinished t := by
  have hok := hinv.routine t
  constructor <;> intro hpc <;> rw [hpc] at hok <;> rw [hok] at ha <;> cases ha

theorem Inv.order (hinv : Inv s) {a b : Object} (ha : a ∈ s.held t) (hb : s.waits t b) : a.rank < b.rank := by
  obtain ⟨i, hpc, hi, -⟩ := hb
  have hok := hinv.routine t
  rw [hpc] at hok
  rw [hok] at ha
  exact rel_of_mem_take (routine_ok t).ordered ha hi

/-! ## Counting the holders -/

theorem card_holders (s : State) (a : Object) : (s.holders a).card = ∑ t, if a ∈ s.held t then 1 else 0 := by
  unfold State.holders
  apply Finset.card_filter

theorem card_holders_update (s : State) (t : Thread) (l : List Object) (a : Object) :
    (∑ u, if a ∈ Function.update s.held t l u then 1 else 0) + (if a ∈ s.held t then 1 else 0) =
      (s.holders a).card + if a ∈ l then 1 else 0 := by
  rw [card_holders]
  apply sum_update (fun held => if a ∈ held then 1 else 0)

theorem value_wait (hinv : Inv s) (ha : s.value a ≠ 0) (b : Object) :
    (s.wait t a).value b + ((s.wait t a).holders b).card = 1 := by
  have hb := hinv.value b
  have hcount := card_holders_update s t (s.held t ++ [a]) b
  have hnot := hinv.notMem_held ha t
  rw [card_holders]
  unfold State.wait
  by_cases hab : b = a
  · subst hab
    simp [hnot] at hcount ⊢
    omega
  · simp [hab] at hcount ⊢
    omega

theorem value_post (hinv : Inv s) (hnodup : (s.held t).Nodup) (ha : a ∈ s.held t) (b : Object) :
    (s.post t a).value b + ((s.post t a).holders b).card = 1 := by
  have hb := hinv.value b
  have hcount := card_holders_update s t ((s.held t).erase a) b
  rw [card_holders]
  unfold State.post
  by_cases hab : b = a
  · subst hab
    simp [ha, hnodup.mem_erase_iff] at hcount ⊢
    omega
  · simp [hab, List.mem_erase_of_ne hab] at hcount ⊢
    omega

/-! ## The steps -/

/-- What a step of a thread does: a move alone, a wait or a post. -/
inductive Move (s : State) (t : Thread) : State → Prop
  | test (hpc : s.pc t = .testing) : Move s t (s.goto t (if s.running then .waiting 0 else .returned))
  | waited {i : Nat} (hpc : s.pc t = .waiting i) (h : t.routine.waits[i]? = none) : Move s t (s.goto t .printing)
  | wait {i : Nat} {a : Object} (hpc : s.pc t = .waiting i) (h : t.routine.waits[i]? = some a) (ha : s.value a ≠ 0) :
    Move s t ((s.wait t a).goto t (.waiting (i + 1)))
  | print (hpc : s.pc t = .printing) :
    Move s t ({ s with output := s.output ++ [t.routine.prints] }.goto t (.posting 0))
  | posted {i : Nat} (hpc : s.pc t = .posting i) (h : t.routine.posts[i]? = none) : Move s t (s.goto t .testing)
  | post {i : Nat} {a : Object} (hpc : s.pc t = .posting i) (h : t.routine.posts[i]? = some a) :
    Move s t ((s.post t a).goto t (.posting (i + 1)))

theorem move_of_execThread (h : execThread s t = some s') : Move s t s' := by
  unfold execThread at h
  split at h
  case h_1 => cases h
  case h_2 hpc =>
    cases h
    exact .test hpc
  case h_3 i hpc =>
    split at h
    case h_1 hnone =>
      cases h
      exact .waited hpc hnone
    case h_2 a hsome =>
      split_ifs at h with ha
      cases h
      exact .wait hpc hsome ha
  case h_4 hpc =>
    cases h
    exact .print hpc
  case h_5 i hpc =>
    split at h
    case h_1 hnone =>
      cases h
      exact .posted hpc hnone
    case h_2 a hsome =>
      cases h
      exact .post hpc hsome
  case h_6 => cases h

theorem Move.thread_ne (h : Move s t s') (hu : u ≠ t) : s'.held u = s.held u ∧ s'.pc u = s.pc u := by
  cases h <;> simp [State.goto, State.wait, State.post, hu]

theorem Move.routine (h : Move s t s') (hinv : Inv s) : ThreadOk t.routine (s'.held t) (s'.pc t) := by
  have hok := hinv.routine t
  cases h with
  | test hpc =>
    rw [hpc] at hok
    cases hrunning : s.running <;> simpa [State.goto, ThreadOk, hrunning] using hok
  | waited hpc h =>
    rw [hpc] at hok
    simp only [State.goto, Function.update_self]
    exact hok.trans (List.take_of_length_le (List.getElem?_eq_none_iff.mp h))
  | wait hpc h ha =>
    rw [hpc] at hok
    simp only [State.goto, State.wait, Function.update_self, ThreadOk]
    rw [hok, List.take_add_one, h, Option.toList_some]
  | print hpc =>
    rw [hpc] at hok
    simpa [State.goto, ThreadOk] using hok
  | posted hpc h =>
    rw [hpc] at hok
    rw [(routine_ok t).posts_eq] at h
    simp only [State.goto, Function.update_self]
    exact hok.trans (List.drop_of_length_le (List.getElem?_eq_none_iff.mp h))
  | post hpc h =>
    rw [hpc] at hok
    rw [(routine_ok t).posts_eq] at h
    obtain ⟨hi, rfl⟩ := List.getElem?_eq_some_iff.mp h
    simp only [State.goto, State.post, Function.update_self, ThreadOk]
    rw [hok, List.drop_eq_getElem_cons hi, List.erase_cons_head]

theorem Inv.mem_held {i : Nat} (hinv : Inv s) (hpc : s.pc t = .posting i) (h : t.routine.posts[i]? = some a) :
    (s.held t).Nodup ∧ a ∈ s.held t := by
  have hok := hinv.routine t
  rw [hpc] at hok
  rw [(routine_ok t).posts_eq] at h
  rw [hok]
  constructor
  · have hnodup : t.routine.waits.Nodup := (routine_ok t).ordered.imp fun hlt heq => absurd hlt (by simp [heq])
    exact hnodup.sublist (List.drop_sublist _ _)
  · obtain ⟨hi, rfl⟩ := List.getElem?_eq_some_iff.mp h
    rw [List.drop_eq_getElem_cons hi]
    exact List.mem_cons_self

theorem Move.value (h : Move s t s') (hinv : Inv s) (a : Object) : s'.value a + (s'.holders a).card = 1 := by
  cases h with
  | wait hpc h ha => exact value_wait hinv ha a
  | post hpc h =>
    obtain ⟨hnodup, hmem⟩ := hinv.mem_held hpc h
    exact value_post hinv hnodup hmem a
  | _ => exact hinv.value a

theorem Move.created (h : Move s t s') : s'.created = s.created ∧ (s'.pc t = .uncreated ↔ s.pc t = .uncreated) := by
  cases h with
  | test hpc => cases hrunning : s.running <;> simp [State.goto, hpc, hrunning]
  | waited hpc | wait hpc | print hpc | posted hpc | post hpc => simp [State.goto, State.wait, State.post, hpc]

theorem Move.inv (h : Move s t s') (hinv : Inv s) : Inv s' where
  routine u := by
    by_cases hu : u = t
    · subst hu
      exact h.routine hinv
    · rw [(h.thread_ne hu).1, (h.thread_ne hu).2]
      exact hinv.routine u
  created u := by
    rw [h.created.1, ← hinv.created]
    by_cases hu : u = t
    · subst hu
      exact h.created.2
    · rw [(h.thread_ne hu).2]
  value := h.value hinv

theorem inv_execMain (h : execMain s = some s') (hinv : Inv s) : Inv s' := by
  unfold execMain at h
  split at h
  case h_1 t ht =>
    cases h
    have hnew : t ∉ thread.take s.created := by
      intro hmem
      exact rel_of_mem_take thread_nodup hmem ht rfl
    have hpc := (hinv.created t).mpr hnew
    refine ⟨fun u => ?_, fun u => ?_, hinv.value⟩
    · by_cases hu : u = t
      · subst hu
        have hok := hinv.routine u
        rw [hpc] at hok
        simpa [State.goto, ThreadOk] using hok
      · simpa [State.goto, hu] using hinv.routine u
    · have hpc' := hinv.created u
      by_cases hu : u = t
      · subst hu
        simp [State.goto, List.take_add_one, ht]
      · simpa [State.goto, List.take_add_one, ht, hu] using hpc'
  case h_2 =>
    split_ifs at h
    cases h
    exact ⟨hinv.routine, hinv.created, hinv.value⟩

theorem reachable_inv (h : Reachable system s) : Inv s := by
  refine h.invariant ?_ ?_
  · rintro _ rfl
    exact inv_start
  · intro s actor s' _ hinv hstep
    cases actor with
    | main => exact inv_execMain hstep hinv
    | thread t => exact (move_of_execThread hstep).inv hinv

/-! ## No deadlock -/

/-- Blocked threads would wait for each other in a circle. -/
theorem Inv.exists_unblocked (hinv : Inv s) (ht : s.unfinished t) : ∃ u, s.unfinished u ∧ ∀ a, ¬ s.waits u a := by
  by_contra! hall
  have hcircle : Circle s.waits (fun t a => a ∈ s.held t) {t | s.unfinished t} := by
    intro u hu
    obtain ⟨a, ha⟩ := hall u hu
    obtain ⟨v, hv⟩ := hinv.exists_held ha.choose_spec.2.2
    exact ⟨a, ha, v, hinv.unfinished hv, hv⟩
  have horder : ∀ t a b, a ∈ s.held t → s.waits t b → a.rank < b.rank := fun t a b => hinv.order
  exact not_circle Object.rank_lt horder ⟨t, ht⟩ hcircle

theorem exists_execThread (ht : s.unfinished t) (hblocked : ∀ a, ¬ s.waits t a) :
    ∃ s', execThread s t = some s' := by
  rw [← Option.isSome_iff_exists]
  unfold execThread
  split
  case h_1 hpc => exact absurd hpc ht.1
  case h_3 i hpc =>
    split
    case h_1 => rfl
    case h_2 a hsome =>
      rw [if_neg fun ha => hblocked a ⟨i, hpc, hsome, ha⟩]
      rfl
  case h_5 i hpc => split <;> rfl
  case h_6 hpc => exact absurd hpc ht.2
  all_goals rfl

/-- **A semaphore counts its holders, and while a thread is unfinished some thread goes on.** -/
theorem deadlock_free {s : State} (h : Reachable system s) :
    (∀ a, s.value a ≤ 1 ∧ s.value a + (s.holders a).card = 1) ∧
    ∀ t, s.unfinished t →
      ∃ u, s.unfinished u ∧ (∀ a, ¬ s.waits u a) ∧ ∃ s', exec s (.thread u) = some s' := by
  have hinv := reachable_inv h
  refine ⟨fun a => ⟨hinv.value_le a, hinv.value a⟩, fun t ht => ?_⟩
  obtain ⟨u, hu, hblocked⟩ := hinv.exists_unblocked ht
  exact ⟨u, hu, hblocked, exists_execThread hu hblocked⟩

theorem deadlock_free_two :
    ∃ s, runSteps exec start [.main, .main, .main, .thread .adolfo, .thread .terrie, .thread .adolfo] = some s ∧
      s.waits .terrie .hammer ∧ s.value .hammer + (s.holders .hammer).card = 1 ∧ ∃ u, s.unfinished u ∧
      ∀ a, ¬ s.waits u a := by
  have hpc : (runSteps exec start [.main, .main, .main, .thread .adolfo, .thread .terrie, .thread .adolfo]).map
      (fun s => (s.pc .terrie, s.value .hammer)) = some (.waiting 0, 0) := by decide
  obtain ⟨s, hs, hplace⟩ := Option.map_eq_some_iff.mp hpc
  obtain ⟨hterrie, hvalue⟩ := Prod.mk.inj hplace
  have h : Reachable system s := (Reachable.init rfl).runSteps (fun _ _ _ _ hstep => hstep) hs
  have hfree := deadlock_free h
  have hunfinished : s.unfinished .terrie := ⟨by simp [hterrie], by simp [hterrie]⟩
  obtain ⟨u, hu, hblocked, -⟩ := hfree.2 .terrie hunfinished
  exact ⟨s, hs, ⟨0, hterrie, rfl, hvalue⟩, (hfree.1 .hammer).2, u, hu, hblocked⟩

end OsCoursework.Deadlock
