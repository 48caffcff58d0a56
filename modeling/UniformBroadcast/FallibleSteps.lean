import Mathlib.Logic.Basic
import Mathlib.Data.List.Induction

/-!
# Computations that stop for a reason

Some of the reasons are bad. A computation ensures a property when it never stops for a bad
reason and what it returns has the property. One rule for each way to compose computations.
-/

namespace UniformBroadcast.FallibleSteps

universe u v

variable {ε α β : Type u} {γ : Type v} {bad : ε → Prop}

def Ensures (bad : ε → Prop) (x : Except ε α) (P : α → Prop) : Prop :=
  match x with
  | .ok a => P a
  | .error e => ¬ bad e

variable {x : Except ε α} {P Q : α → Prop} {R : β → Prop}

theorem ensures_ok {a : α} (h : P a) : Ensures bad (.ok a) P := h

theorem ensures_error {e : ε} (h : ¬ bad e) : Ensures bad (.error e : Except ε α) P := h

theorem Ensures.mono (h : Ensures bad x P) (hle : ∀ a, P a → Q a) : Ensures bad x Q := by
  cases x with
  | ok a => exact hle a h
  | error e => exact h

theorem Ensures.bind {f : α → Except ε β} (hx : Ensures bad x P)
    (hf : ∀ a, P a → Ensures bad (f a) R) : Ensures bad (x >>= f) R := by
  cases x with
  | ok a => exact hf a hx
  | error e => exact hx

theorem Ensures.of_eq_ok {a : α} (h : Ensures bad x P) (hx : x = .ok a) : P a := by
  subst hx
  exact h

theorem Ensures.not_bad {e : ε} (h : Ensures bad x P) (hx : x = .error e) : ¬ bad e := by
  subst hx
  exact h

/-- A run of steps. The invariant may speak of the events so far. -/
theorem Ensures.foldlM {step : α → γ → Except ε α} {I : List γ → α → Prop} {s : α}
    (hstep : ∀ es e s, I es s → Ensures bad (step s e) (I (es ++ [e]))) (hs : I [] s)
    (es : List γ) : Ensures bad (es.foldlM step s) (I es) := by
  induction es using List.reverseRecOn with
  | nil => exact hs
  | append_singleton es e ih =>
    rw [List.foldlM_append]
    refine ih.bind ?_
    intro s hs
    rw [List.foldlM_cons]
    refine (hstep es e s hs).bind ?_
    intro s' hs'
    exact ensures_ok hs'

end UniformBroadcast.FallibleSteps
