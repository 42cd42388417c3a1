/-
Things that are done one after the other.

What is done in two parts succeeds if both parts do, and if the first one fails the second is not done. Of
the state that is left, whatever holds after the first part and is kept by the second holds at the end.
-/
import DurableFlow.Attempt

set_option autoImplicit false

namespace DurableFlow

/-! ## Results -/

section Results

variable {ε α β : Type}

/-- A computation of two parts succeeds if both do. -/
theorem bind_eq_ok {result : Except ε α} {next : α → Except ε β} {b : β} :
    (result >>= next) = .ok b ↔ ∃ a, result = .ok a ∧ next a = .ok b := by
  cases result with
  | error e => exact ⟨fun h => (by cases h), fun ⟨_, h, _⟩ => (by cases h)⟩
  | ok a => exact ⟨fun h => ⟨a, rfl, h⟩, fun ⟨_, ha, h⟩ => by cases ha; exact h⟩

theorem map_eq_ok {result : Except ε α} {f : α → β} {b : β} (h : result.map f = .ok b) :
    ∃ a, result = .ok a ∧ f a = b := by
  cases result with
  | error e => cases h
  | ok a =>
    cases h
    exact ⟨a, rfl, rfl⟩

end Results

/-! ## Attempts -/

namespace Attempt

variable {σ α β : Type} {act : Attempt σ α} {next : α → Attempt σ β} {x y z : σ}

/-- What follows something that succeeds. -/
theorem bind_of_ok {a : α} (h : act x = (.ok a, y)) : (act >>= next) x = next a y := by
  show Attempt.andThen act next x = next a y
  unfold Attempt.andThen
  rw [h]

/-- Nothing follows something that fails. -/
theorem bind_of_error {e : EngineError} (h : act x = (.error e, y)) : (act >>= next) x = (.error e, y) := by
  show Attempt.andThen act next x = (.error e, y)
  unfold Attempt.andThen
  rw [h]

/-- The first of several things succeeds. -/
theorem bind_eq_of_ok {a : α} {done : EngineResult β × σ} (h : act x = (.ok a, y)) (hnext : next a y = done) :
    (act >>= next) x = done := (bind_of_ok h).trans hnext

/-- What was done in two parts and succeeded succeeded in both. -/
theorem bind_eq_ok {b : β} (h : (act >>= next) x = (.ok b, z)) :
    ∃ a y, act x = (.ok a, y) ∧ next a y = (.ok b, z) := by
  rcases hact : act x with ⟨_ | a, y⟩
  · rw [bind_of_error hact] at h
    cases h
  · exact ⟨a, y, rfl, (bind_of_ok hact).symm.trans h⟩

/-- The state after two things that are done one after the other, if the first may also be the last. -/
theorem after_bind_of {P Q : σ → Prop} (hact : P (act.after x)) (hstop : ∀ y, P y → Q y)
    (hnext : ∀ a y, P y → Q ((next a).after y)) : Q ((act >>= next).after x) := by
  rcases heq : act x with ⟨_ | a, y⟩
  · rw [Attempt.after, heq] at hact
    rw [Attempt.after, bind_of_error heq]
    exact hstop y hact
  · rw [Attempt.after, heq] at hact
    rw [Attempt.after, bind_of_ok heq]
    exact hnext a y hact

/-- What holds after the first of two things and is kept by the second. -/
theorem after_bind {P : σ → Prop} (hact : P (act.after x)) (hnext : ∀ a y, P y → P ((next a).after y)) :
    P ((act >>= next).after x) := after_bind_of hact (fun _ hy => hy) hnext

end Attempt

end DurableFlow
