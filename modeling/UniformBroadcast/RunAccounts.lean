import UniformBroadcast.TransitionRuns
import Mathlib.Algebra.BigOperators.Group.List.Basic
import Mathlib.Algebra.Ring.Nat
import Mathlib.Data.Fintype.Basic
import Mathlib.Data.Finset.Card

/-!
# Quantities along a run

A quantity that every step raises by what its event brings and lowers by what its event takes is
known at the end of a run from the events alone. When some allowed run lowers it from every state
that is not at a goal, allowed runs lead to the goal.
-/

namespace UniformBroadcast.TransitionRuns

universe u v

variable {σ : Type u} {ε : Type v} {step : σ → ε → Option σ} {φ : σ → ℕ}

theorem exec_account {gain loss : ε → ℕ}
    (hstep : ∀ s e s', step s e = some s' → φ s' + loss e = φ s + gain e)
    {s s' : σ} {es : List ε} (h : exec step s es = some s') :
    φ s' + (es.map loss).sum = φ s + (es.map gain).sum := by
  induction es generalizing s with
  | nil =>
    obtain rfl := Option.some.inj h
    rfl
  | cons e es ih =>
    obtain ⟨t, ht, hrest⟩ := Option.bind_eq_some_iff.mp h
    have hhead := hstep s e t ht
    have htail := ih hrest
    simp only [List.map_cons, List.sum_cons]
    omega

/-- When an allowed run lowers the quantity from every state of `inv` that is not at its `goal`,
allowed runs lead to the goal. -/
theorem exists_exec_goal (step : σ → ε → Option σ) (φ : σ → ℕ) (allowed : ε → Prop)
    (inv goal : σ → Prop)
    (hmore : ∀ s, inv s → ¬ goal s → ∃ es s', (∀ e ∈ es, allowed e) ∧ exec step s es = some s' ∧
      inv s' ∧ φ s' < φ s) {s : σ} (hs : inv s) :
    ∃ es s', (∀ e ∈ es, allowed e) ∧ exec step s es = some s' ∧ inv s' ∧ goal s' := by
  induction hk : φ s using Nat.strongRecOn generalizing s with
  | ind k ih =>
    by_cases hgoal : goal s
    · exact ⟨[], s, by simp, rfl, hs, hgoal⟩
    · obtain ⟨es, t, hes, ht, htinv, hless⟩ := hmore s hs hgoal
      obtain ⟨fs, s', hfs, hs', hinv', hgoal'⟩ := ih (φ t) (hk ▸ hless) htinv rfl
      refine ⟨es ++ fs, s', ?_, ?_, hinv', hgoal'⟩
      · intro e he
        rcases List.mem_append.mp he with he | he
        · exact hes e he
        · exact hfs e he
      · rw [exec_append, ht]
        exact hs'

/-- When some part that is not at its goal can always be brought there, and the others stay at
theirs, all the parts get there. -/
theorem exists_exec_all {ι : Type*} [Fintype ι] (step : σ → ε → Option σ) (allowed : ε → Prop)
    (inv : σ → Prop) (goal : ι → σ → Prop)
    (hmore : ∀ s, inv s → (∃ i, ¬ goal i s) → ∃ i, ¬ goal i s ∧ ∃ es s', (∀ e ∈ es, allowed e) ∧
      exec step s es = some s' ∧ inv s' ∧ goal i s' ∧ ∀ j, goal j s → goal j s')
    {s : σ} (hs : inv s) : ∃ es s', (∀ e ∈ es, allowed e) ∧ exec step s es = some s' ∧ inv s' ∧
      ∀ i, goal i s' := by
  classical
  refine exists_exec_goal step (fun s => (Finset.univ.filter fun i => ¬ goal i s).card) allowed inv
    (fun s => ∀ i, goal i s) ?_ hs
  intro s hs hnot
  obtain ⟨i, hi, es, s', hes, hexec, hinv, hgoal, hkeep⟩ := hmore s hs (not_forall.mp hnot)
  refine ⟨es, s', hes, hexec, hinv, Finset.card_lt_card ?_⟩
  rw [Finset.ssubset_iff_of_subset]
  · exact ⟨i, by simpa using hi, by simpa using hgoal⟩
  · intro j hj
    rw [Finset.mem_filter] at hj ⊢
    exact ⟨Finset.mem_univ j, fun h => hj.2 (hkeep j h)⟩

end UniformBroadcast.TransitionRuns
