import OsCoursework.Kitchen.Code
import OsCoursework.Lib.LockOrder

/-!
# Ordered locking

After the sort a chef locks its appliances in the order of the `enum`, so what it waits for
comes after all it holds.
-/

open OsCoursework.ExchangeSort OsCoursework.LockOrder OsCoursework.Transition

namespace OsCoursework.Kitchen.Ordered

theorem Appliance.value_injective : Function.Injective Appliance.value := by
  intro a b h
  cases a <;> cases b <;> first | rfl | cases h

theorem Appliance.value_lt (a : Appliance) : a.value < numAppliances := by
  cases a <;> decide

/-! ## A sorted list -/

def InOrder (l : List Appliance) : Prop := l.Pairwise fun a b => a.value < b.value

theorem inOrder_exchangeSort {l : List Appliance} (h : l.Nodup) : InOrder (exchangeSort Appliance.value l) := by
  have hnodup := (exchangeSort_perm Appliance.value l).nodup_iff.mpr h
  refine (exchangeSort_sorted Appliance.value l).imp₂ (fun a b hle hne => ?_) hnodup
  exact lt_of_le_of_ne hle fun h => hne (Appliance.value_injective h)

theorem InOrder.nodup {l : List Appliance} (h : InOrder l) : l.Nodup :=
  h.imp fun hlt heq => absurd hlt (by rw [heq]; exact lt_irrefl _)

theorem InOrder.lt_of_mem_take {l : List Appliance} (h : InOrder l) {i : Nat} {a b : Appliance}
    (ha : a ∈ l.take i) (hb : l[i]? = some b) : a.value < b.value := rel_of_mem_take h ha hb

theorem take_succ_of_getElem? {α : Type} {l : List α} {i : Nat} {a : α} (h : l[i]? = some a) :
    l.take (i + 1) = l.take i ++ [a] := by
  rw [List.take_add_one, h, Option.toList_some]

variable {χ : Type} {needed : χ → List Appliance} {s s' : State χ} {c : χ}

/-! ## What one chef holds -/

/-- The list and what the chef holds of it. -/
def ChefOk (needed list held : List Appliance) : Pc → Prop
  | .resting => list.Perm needed ∧ held = []
  | .locking i => list.Perm needed ∧ InOrder list ∧ i ≤ list.length ∧ held = list.take i
  | .cooking => list.Perm needed ∧ InOrder list ∧ held = list
  | .unlocking i => list.Perm needed ∧ InOrder list ∧ i ≤ list.length ∧ held = list.take i

structure Inv (needed : χ → List Appliance) (s : State χ) : Prop where
  chef : ∀ c, ChefOk (needed c) (s.list c) (s.held c) (s.pc c)
  owned : Owned s.locked s.held

theorem inv_start (needed : χ → List Appliance) : Inv needed (start needed) where
  chef _ := ⟨List.Perm.refl _, rfl⟩
  owned := owned_start

theorem Inv.nodup_held {i : Nat} (hinv : Inv needed s) (hpc : s.pc c = .unlocking i) : (s.held c).Nodup := by
  have hchef := hinv.chef c
  rw [hpc] at hchef
  rw [hchef.2.2.2]
  exact hchef.2.1.nodup.sublist (List.take_sublist _ _)

theorem Inv.mem_held {i : Nat} {a : Appliance} (hinv : Inv needed s) (hpc : s.pc c = .unlocking (i + 1))
    (h : (s.list c)[i]? = some a) : a ∈ s.held c := by
  have hchef := hinv.chef c
  rw [hpc] at hchef
  rw [hchef.2.2.2, take_succ_of_getElem? h]
  exact List.mem_append_right _ (List.mem_singleton_self a)

theorem Inv.order (hinv : Inv needed s) {a b : Appliance} (ha : a ∈ s.held c) (hb : s.waits c b) :
    a.value < b.value := by
  obtain ⟨i, hpc, hi, -⟩ := hb
  have hchef := hinv.chef c
  rw [hpc] at hchef
  rw [hchef.2.2.2] at ha
  exact hchef.2.1.lt_of_mem_take ha hi

/-! ## The steps -/

variable [DecidableEq χ]

/-- What a step does: a move alone, a lock or an unlock. -/
inductive Move (s : State χ) (c : χ) : State χ → Prop
  | sort (hpc : s.pc c = .resting) :
    Move s c ({ s with list := Function.update s.list c (exchangeSort Appliance.value (s.list c)) }.goto c (.locking 0))
  | lockedAll {i : Nat} (hpc : s.pc c = .locking i) (h : (s.list c)[i]? = none) : Move s c (s.goto c .cooking)
  | lock {i : Nat} {a : Appliance} (hpc : s.pc c = .locking i) (h : (s.list c)[i]? = some a)
      (hfree : s.locked a = false) : Move s c ((s.lock c a).goto c (.locking (i + 1)))
  | cooked (hpc : s.pc c = .cooking) : Move s c (s.goto c (.unlocking (s.list c).length))
  | unlockedAll (hpc : s.pc c = .unlocking 0) : Move s c (s.goto c .resting)
  | unlock {i : Nat} {a : Appliance} (hpc : s.pc c = .unlocking (i + 1)) (h : (s.list c)[i]? = some a) :
    Move s c ((s.unlock c a).goto c (.unlocking i))

theorem move_of_exec (h : exec s c = some s') : Move s c s' := by
  unfold exec at h
  split at h
  case h_1 hpc =>
    cases h
    exact .sort hpc
  case h_2 i hpc =>
    split at h
    case h_1 hnone =>
      cases h
      exact .lockedAll hpc hnone
    case h_2 a hsome =>
      split_ifs at h with hlocked
      cases h
      exact .lock hpc hsome (Bool.eq_false_of_not_eq_true hlocked)
  case h_3 hpc =>
    cases h
    exact .cooked hpc
  case h_4 hpc =>
    cases h
    exact .unlockedAll hpc
  case h_5 i hpc =>
    obtain ⟨a, ha, rfl⟩ := Option.map_eq_some_iff.mp h
    exact .unlock hpc ha

theorem Move.chef_ne (h : Move s c s') (hinv : Inv needed s) {d : χ} (hd : d ≠ c) :
    ChefOk (needed d) (s'.list d) (s'.held d) (s'.pc d) := by
  have hchef := hinv.chef d
  cases h <;> simpa [State.goto, State.lock, State.unlock, Function.update_of_ne hd] using hchef

theorem Move.chef (h : Move s c s') (hneeded : ∀ c, (needed c).Nodup) (hinv : Inv needed s) :
    ChefOk (needed c) (s'.list c) (s'.held c) (s'.pc c) := by
  have hchef := hinv.chef c
  cases h with
  | sort hpc =>
    rw [hpc] at hchef
    obtain ⟨hperm, hheld⟩ := hchef
    simp only [State.goto, Function.update_self]
    refine ⟨(exchangeSort_perm _ _).trans hperm, ?_, Nat.zero_le _, hheld⟩
    exact inOrder_exchangeSort (hperm.nodup_iff.mpr (hneeded c))
  | lockedAll hpc h =>
    rw [hpc] at hchef
    obtain ⟨hperm, horder, -, hheld⟩ := hchef
    simp only [State.goto, Function.update_self]
    refine ⟨hperm, horder, ?_⟩
    rw [hheld, List.take_of_length_le (List.getElem?_eq_none_iff.mp h)]
  | lock hpc h =>
    rw [hpc] at hchef
    obtain ⟨hperm, horder, -, hheld⟩ := hchef
    have hi := (List.getElem?_eq_some_iff.mp h).1
    simp only [State.goto, State.lock, Function.update_self]
    exact ⟨hperm, horder, hi, by rw [hheld, take_succ_of_getElem? h]⟩
  | cooked hpc =>
    rw [hpc] at hchef
    obtain ⟨hperm, horder, hheld⟩ := hchef
    simp only [State.goto, Function.update_self]
    exact ⟨hperm, horder, le_rfl, by rw [hheld, List.take_length]⟩
  | unlockedAll hpc =>
    rw [hpc] at hchef
    simp only [State.goto, Function.update_self]
    exact ⟨hchef.1, hchef.2.2.2⟩
  | unlock hpc h =>
    rw [hpc] at hchef
    obtain ⟨hperm, horder, hi, hheld⟩ := hchef
    simp only [State.goto, State.unlock, Function.update_self]
    refine ⟨hperm, horder, by omega, ?_⟩
    rw [hheld, take_succ_of_getElem? h, List.erase_append_right _ ?_, List.erase_cons_head, List.append_nil]
    intro hmem
    exact lt_irrefl _ (horder.lt_of_mem_take hmem h)

theorem Move.owned (h : Move s c s') (hinv : Inv needed s) : Owned s'.locked s'.held := by
  cases h with
  | lock hpc h hfree => exact hinv.owned.lock hfree
  | unlock hpc h => exact hinv.owned.unlock (hinv.nodup_held hpc) (hinv.mem_held hpc h)
  | _ => exact hinv.owned

theorem reachable_inv (hneeded : ∀ c, (needed c).Nodup) (h : Reachable (system needed) s) : Inv needed s := by
  refine h.invariant ?_ ?_
  · rintro _ rfl
    exact inv_start needed
  · intro s c s' _ hinv hstep
    have hmove := move_of_exec hstep
    refine ⟨fun d => ?_, hmove.owned hinv⟩
    by_cases hd : d = c
    · subst hd
      exact hmove.chef hneeded hinv
    · exact hmove.chef_ne hinv hd

/-! ## No deadlock -/

/-- **The chefs exclude each other, cook with all they need, and never wait in a circle.** -/
theorem ordered_ok {χ : Type} [DecidableEq χ] {needed : χ → List Appliance} (hneeded : ∀ c, (needed c).Nodup)
    {s : State χ} (h : Reachable (system needed) s) :
    (∀ a, s.locked a = true ↔ ∃ c, a ∈ s.held c) ∧
    (∀ a c d, a ∈ s.held c → a ∈ s.held d → c = d) ∧
    (∀ c, s.pc c = .cooking → ∀ a ∈ needed c, a ∈ s.held c) ∧
    ∀ S : Set χ, S.Nonempty → ¬ ∀ c ∈ S, ∃ a, s.waits c a ∧ ∃ d ∈ S, a ∈ s.held d := by
  have hinv := reachable_inv hneeded h
  refine ⟨hinv.owned.locked_iff, hinv.owned.one, fun c hpc a ha => ?_, fun S hne => ?_⟩
  · have hchef := hinv.chef c
    rw [hpc] at hchef
    rw [hchef.2.2]
    exact hchef.1.mem_iff.mpr ha
  · have horder : ∀ c a b, a ∈ s.held c → s.waits c b → a.value < b.value := fun c a b => hinv.order
    exact not_circle Appliance.value_lt horder hne

theorem ordered_ok_two :
    ∃ s, runSteps exec (start fun chef : Bool => if chef then [.oven, .blender] else [.mixer, .blender])
      [true, false, true, true, true] = some s ∧ s.pc true = .cooking ∧ Appliance.oven ∈ s.held true := by
  have hneeded : ∀ c : Bool, (if c then [.oven, .blender] else [.mixer, .blender] : List Appliance).Nodup := by decide
  have hpc : (runSteps exec (start fun chef : Bool => if chef then [.oven, .blender] else [.mixer, .blender])
      [true, false, true, true, true]).map (fun s => s.pc true) = some .cooking := by decide
  obtain ⟨s, hs, hcook⟩ := Option.map_eq_some_iff.mp hpc
  have h : Reachable (system _) s := (Reachable.init rfl).runSteps (fun _ _ _ _ hstep => hstep) hs
  exact ⟨s, hs, hcook, (ordered_ok hneeded h).2.2.1 true hcook .oven (by decide)⟩

end OsCoursework.Kitchen.Ordered
