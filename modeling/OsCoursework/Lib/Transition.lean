import Mathlib

/-!
# Transition systems

A system has initial states and labelled steps. `Reachable` is what any run
reaches, an invariant is proved once per step, and a simulation carries runs of
one system over to another.
-/

namespace OsCoursework.Transition

universe u v w

structure System (σ : Type u) (ε : Type v) where
  init : σ → Prop
  step : σ → ε → σ → Prop

variable {σ : Type u} {ε : Type v} {τ : Type w}

inductive Reachable (M : System σ ε) : σ → Prop
  | init {s : σ} : M.init s → Reachable M s
  | step {s t : σ} {e : ε} : Reachable M s → M.step s e t → Reachable M t

/-- What holds at the start and survives every step from a reachable state holds always. -/
theorem Reachable.invariant {M : System σ ε} {P : σ → Prop} (h0 : ∀ s, M.init s → P s)
    (hs : ∀ s e t, Reachable M s → P s → M.step s e t → P t) {s : σ} (h : Reachable M s) : P s := by
  induction h with
  | init hi => exact h0 _ hi
  | step hr he ih => exact hs _ _ _ hr ih he

/-- A run by a step function. -/
def runSteps (exec : σ → ε → Option σ) : σ → List ε → Option σ
  | s, [] => some s
  | s, e :: es => (exec s e).bind fun t => runSteps exec t es

theorem Reachable.runSteps {M : System σ ε} {exec : σ → ε → Option σ}
    (hexec : ∀ s e t, Reachable M s → exec s e = some t → M.step s e t) {s t : σ} {es : List ε} (h : Reachable M s)
    (hr : runSteps exec s es = some t) : Reachable M t := by
  induction es generalizing s with
  | nil =>
    cases hr
    exact h
  | cons e es ih =>
    obtain ⟨u, hu, hr⟩ := Option.bind_eq_some_iff.mp hr
    exact ih (h.step (hexec s e u h hu)) hr

/-- A rank that every step of a reachable state lowers bounds the length of a run. -/
theorem length_runSteps_le {M : System σ ε} {exec : σ → ε → Option σ} (rank : σ → Nat)
    (hexec : ∀ s e t, Reachable M s → exec s e = some t → M.step s e t)
    (hrank : ∀ s e t, Reachable M s → exec s e = some t → rank t < rank s) {s t : σ} {es : List ε}
    (h : Reachable M s) (hr : Transition.runSteps exec s es = some t) : es.length + rank t ≤ rank s := by
  induction es generalizing s with
  | nil =>
    cases hr
    simp
  | cons e es ih =>
    obtain ⟨u, hu, hr⟩ := Option.bind_eq_some_iff.mp hr
    have hlater := ih (h.step (hexec s e u h hu)) hr
    have hnow := hrank s e u h hu
    rw [List.length_cons]
    omega

/-- The same system, with only the steps that meet a condition. -/
def System.restrict (M : System σ ε) (good : σ → ε → Prop) : System σ ε where
  init := M.init
  step s e t := good s e ∧ M.step s e t

theorem Reachable.of_restrict {M : System σ ε} {good : σ → ε → Prop} {s : σ} (h : Reachable (M.restrict good) s) :
    Reachable M s := by
  induction h with
  | init hi => exact Reachable.init hi
  | step _ he ih => exact ih.step he.2

theorem Reachable.restrict {M : System σ ε} {good : σ → ε → Prop} (hgood : ∀ s e, Reachable M s → good s e) {s : σ}
    (h : Reachable M s) : Reachable (M.restrict good) s := by
  induction h with
  | init hi => exact Reachable.init hi
  | step hr he ih => exact ih.step ⟨hgood _ _ hr, he⟩

/-- With a rank that every step lowers, a run can go on until each further step would leave `P`. -/
theorem Reachable.exists_last {M : System σ ε} {P : σ → Prop} (rank : σ → Nat)
    (hrank : ∀ s e t, Reachable M s → M.step s e t → rank t < rank s) {s : σ} (h : Reachable M s) (hp : P s) :
    ∃ t, Reachable M t ∧ P t ∧ ∀ e u, M.step t e u → ¬ P u := by
  induction hn : rank s using Nat.strong_induction_on generalizing s with
  | _ n ih =>
    by_cases hlast : ∀ e u, M.step s e u → ¬ P u
    · exact ⟨s, h, hp, hlast⟩
    · push Not at hlast
      obtain ⟨e, u, hstep, hu⟩ := hlast
      exact ih (rank u) (hn ▸ hrank s e u h hstep) (h.step hstep) hu rfl

/-- The same system, which may stay where it is in any step. -/
def System.lazy (M : System σ ε) : System σ ε where
  init := M.init
  step s e t := t = s ∨ M.step s e t

theorem Reachable.of_lazy {M : System σ ε} {s : σ} (h : Reachable M.lazy s) : Reachable M s := by
  induction h with
  | init hi => exact Reachable.init hi
  | step _ he ih =>
    rcases he with rfl | he
    · exact ih
    · exact ih.step he

/-- Every step of `C` is a step of `A` with the same label, on the related states. -/
structure Simulation (C : System σ ε) (A : System τ ε) (R : σ → τ → Prop) : Prop where
  init : ∀ s, C.init s → ∃ a, A.init a ∧ R s a
  step : ∀ s e t a, R s a → C.step s e t → ∃ b, A.step a e b ∧ R t b

theorem Simulation.reachable {C : System σ ε} {A : System τ ε} {R : σ → τ → Prop}
    (h : Simulation C A R) {s : σ} (hr : Reachable C s) : ∃ a, Reachable A a ∧ R s a := by
  induction hr with
  | init hi =>
    obtain ⟨a, ha, hR⟩ := h.init _ hi
    exact ⟨a, Reachable.init ha, hR⟩
  | step _ he ih =>
    obtain ⟨a, ha, hR⟩ := ih
    obtain ⟨b, hb, hR'⟩ := h.step _ _ _ a hR he
    exact ⟨b, Reachable.step ha hb, hR'⟩

end OsCoursework.Transition
