import Mathlib.Data.List.Basic
import Mathlib.Data.List.Count
import Mathlib.Algebra.BigOperators.Fin
import Mathlib.Algebra.Order.BigOperators.Group.Finset

/-!
# Draining a table of lists

The lists of a table are moved, one after the other, to the end of one list. The order
in which they are moved is a list of places; a place that is empty makes no difference,
and distinct places give the lists of the table in that order.
-/

namespace UniformBroadcast.Draining

universe u v

/-- A table of lists and the list to which they are moved. -/
structure Stock (κ : Type u) (α : Type v) where
  moved : List α
  table : κ → List α

variable {κ : Type u} {α : Type v} [DecidableEq κ]

/-- The list at one place is moved. -/
def drain (s : Stock κ α) (k : κ) : Stock κ α where
  moved := s.moved ++ s.table k
  table := Function.update s.table k []

/-- The list at one place becomes longer. -/
def extend (s : Stock κ α) (k : κ) (l : List α) : Stock κ α where
  moved := s.moved
  table := Function.update s.table k (s.table k ++ l)

theorem drain_of_empty {s : Stock κ α} {k : κ} (h : s.table k = []) : drain s k = s := by
  cases s with
  | mk moved table =>
    have hk : table k = [] := h
    have hself : Function.update table k [] = table := by
      rw [← hk]
      exact Function.update_eq_self k table
    simp only [drain, hself, hk, List.append_nil]

theorem foldl_drain_of_empty {s : Stock κ α} {ks : List κ} (h : ∀ k ∈ ks, s.table k = []) :
    ks.foldl drain s = s := by
  induction ks with
  | nil => rfl
  | cons k ks ih =>
    rw [List.foldl_cons, drain_of_empty (h k List.mem_cons_self)]
    exact ih fun k' hk' => h k' (List.mem_cons_of_mem k hk')

theorem foldl_drain_table (s : Stock κ α) (ks : List κ) (k : κ) :
    (ks.foldl drain s).table k = if k ∈ ks then [] else s.table k := by
  induction ks generalizing s with
  | nil => rfl
  | cons k' ks ih =>
    rw [List.foldl_cons, ih, drain]
    by_cases hk : k = k'
    · subst hk
      simp
    · simp [hk]

theorem foldl_drain_moved (s : Stock κ α) {ks : List κ} (h : ks.Nodup) :
    (ks.foldl drain s).moved = s.moved ++ ks.flatMap s.table := by
  induction ks generalizing s with
  | nil => exact (List.append_nil s.moved).symm
  | cons k ks ih =>
    obtain ⟨hk, hks⟩ := List.nodup_cons.mp h
    have hrest : ks.flatMap (drain s k).table = ks.flatMap s.table := by
      apply List.flatMap_congr
      intro k' hk'
      have hne : k' ≠ k := fun heq => hk (heq ▸ hk')
      exact Function.update_of_ne hne _ _
    rw [List.foldl_cons, ih _ hks, hrest, List.flatMap_cons, ← List.append_assoc]
    rfl

/-- Nothing that was moved is lost. -/
theorem prefix_foldl_drain (s : Stock κ α) (ks : List κ) :
    s.moved <+: (ks.foldl drain s).moved := by
  induction ks generalizing s with
  | nil => exact List.prefix_rfl
  | cons k ks ih => exact (List.prefix_append _ _).trans (ih (drain s k))

/-- A sum over a function that is changed at one place. -/
theorem sum_update_add {β : Type v} [Fintype κ] (f : β → ℕ) (g : κ → β) (k : κ) (b : β) :
    (∑ k', f (Function.update g k b k')) + f (g k) = (∑ k', f (g k')) + f b := by
  have hsum := Finset.add_sum_erase Finset.univ (fun k' => f (g k')) (Finset.mem_univ k)
  have hsum' := Finset.add_sum_erase Finset.univ
    (fun k' => f (Function.update g k b k')) (Finset.mem_univ k)
  have hrest : ∑ k' ∈ Finset.univ.erase k, f (Function.update g k b k') =
      ∑ k' ∈ Finset.univ.erase k, f (g k') := by
    apply Finset.sum_congr rfl
    intro k' hk'
    rw [Function.update_of_ne (Finset.ne_of_mem_erase hk')]
  rw [Function.update_self] at hsum'
  omega

/-- A measure of the whole stock. -/
def weight [Fintype κ] (f : List α → ℕ) (s : Stock κ α) : ℕ := f s.moved + ∑ k, f (s.table k)

section Weight

variable [Fintype κ] {f : List α → ℕ}

/-- Moving a list changes no additive measure. -/
theorem weight_drain (hnil : f [] = 0) (happend : ∀ l l', f (l ++ l') = f l + f l')
    (s : Stock κ α) (k : κ) : weight f (drain s k) = weight f s := by
  have h := sum_update_add f s.table k []
  rw [weight, weight, drain, happend]
  dsimp only
  omega

theorem weight_foldl_drain (hnil : f [] = 0) (happend : ∀ l l', f (l ++ l') = f l + f l')
    (s : Stock κ α) (ks : List κ) : weight f (ks.foldl drain s) = weight f s := by
  induction ks generalizing s with
  | nil => rfl
  | cons k ks ih => rw [List.foldl_cons, ih, weight_drain hnil happend]

theorem weight_extend (happend : ∀ l l', f (l ++ l') = f l + f l') (s : Stock κ α) (k : κ)
    (l : List α) : weight f (extend s k l) = weight f s + f l := by
  have h := sum_update_add f s.table k (s.table k ++ l)
  rw [happend] at h
  rw [weight, weight, extend]
  dsimp only
  omega

end Weight

/-- What holds of every entry, moved or not. -/
def All (P : α → Prop) (s : Stock κ α) : Prop := (∀ a ∈ s.moved, P a) ∧ ∀ k, ∀ a ∈ s.table k, P a

section All

variable {P : α → Prop} {s : Stock κ α}

theorem All.drain (h : All P s) (k : κ) : All P (drain s k) := by
  constructor
  · intro a ha
    rcases List.mem_append.mp ha with ha | ha
    · exact h.1 a ha
    · exact h.2 k a ha
  · intro k' a ha
    by_cases hk : k' = k
    · subst hk
      simp [Draining.drain] at ha
    · have hsame : (Draining.drain s k).table k' = s.table k' := Function.update_of_ne hk _ _
      exact h.2 k' a (hsame ▸ ha)

theorem All.foldl_drain (h : All P s) (ks : List κ) : All P (ks.foldl Draining.drain s) := by
  induction ks generalizing s with
  | nil => exact h
  | cons k ks ih => exact ih (h.drain k)

theorem All.extend (h : All P s) (k : κ) {l : List α} (hl : ∀ a ∈ l, P a) :
    All P (extend s k l) := by
  refine ⟨h.1, fun k' a ha => ?_⟩
  by_cases hk : k' = k
  · subst hk
    have hmore : (Draining.extend s k' l).table k' = s.table k' ++ l := Function.update_self _ _ _
    rcases List.mem_append.mp (hmore ▸ ha) with ha | ha
    · exact h.2 k' a ha
    · exact hl a ha
  · have hsame : (Draining.extend s k l).table k' = s.table k' := Function.update_of_ne hk _ _
    exact h.2 k' a (hsame ▸ ha)

end All

/-- Every entry of the table is moved once when the places are all places, each once. -/
theorem count_flatMap_table [Fintype κ] [DecidableEq α] (table : κ → List α) {ks : List κ}
    (h : ks.Nodup) (hall : ∀ k, k ∈ ks) (a : α) :
    (ks.flatMap table).count a = ∑ k, (table k).count a := by
  have huniv : ks.toFinset = Finset.univ := by
    ext k
    simp [hall k]
  rw [List.count_flatMap, ← huniv, List.sum_toFinset _ h]
  rfl

end UniformBroadcast.Draining
