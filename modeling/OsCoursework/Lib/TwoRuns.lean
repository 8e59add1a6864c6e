import Mathlib.Logic.Basic

/-!
# Two runs of one machine

What an observer can tell about the first state, when it chooses the inputs and sees the
answers.
-/

namespace OsCoursework.TwoRuns

universe u v w

variable {σ : Type u} {ι : Type v} {ω : Type w} {step : σ → ι → ω × σ} {view : σ → σ → Prop}

/-- The answers to a sequence of inputs. -/
def answers (step : σ → ι → ω × σ) : σ → List ι → List ω
  | _, [] => []
  | s, i :: inputs => (step s i).1 :: answers step (step s i).2 inputs

/-- States that look the same answer the same, and look the same afterwards. -/
structure Hides (step : σ → ι → ω × σ) (view : σ → σ → Prop) : Prop where
  answer : ∀ s t i, view s t → (step s i).1 = (step t i).1
  next : ∀ s t i, view s t → view (step s i).2 (step t i).2

theorem Hides.answers_eq (h : Hides step view) {s t : σ} (hst : view s t) (inputs : List ι) :
    answers step s inputs = answers step t inputs := by
  induction inputs generalizing s t with
  | nil => rfl
  | cons i inputs ih =>
    unfold answers
    rw [h.answer s t i hst, ih (h.next s t i hst)]

end OsCoursework.TwoRuns
