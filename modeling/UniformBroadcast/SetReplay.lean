import UniformBroadcast.TransitionRuns
import Mathlib.Data.Finset.Basic

/-!
# Replaying arrivals and losses

A set changes by the arrival and the loss of single elements, and only a member can be
lost. The set after a run is told, element by element, by the last change of the element.
-/

namespace UniformBroadcast.SetReplay

open TransitionRuns

universe u

inductive Change (α : Type u) where
  | arrival (a : α)
  | loss (a : α)
  deriving DecidableEq, Repr

/-- The element that changes. -/
def Change.subject {α : Type u} : Change α → α
  | .arrival a => a
  | .loss a => a

variable {α : Type u} [DecidableEq α]

/-- One change of a set; an element that is not a member cannot be lost. -/
def change (s : Finset α) : Change α → Option (Finset α)
  | .arrival a => some (insert a s)
  | .loss a => if a ∈ s then some (s.erase a) else none

/-- The first change of an element. -/
def firstOf (a : α) (es : List (Change α)) : Option (Change α) := es.find? (·.subject = a)

/-- The last change of an element. -/
def lastOf (a : α) (es : List (Change α)) : Option (Change α) := es.reverse.find? (·.subject = a)

@[simp] theorem firstOf_nil (a : α) : firstOf a [] = none := rfl

@[simp] theorem lastOf_nil (a : α) : lastOf a [] = none := rfl

theorem firstOf_append_eq_some (a : α) (es : List (Change α)) (e x : Change α) :
    firstOf a (es ++ [e]) = some x ↔
      firstOf a es = some x ∨ (firstOf a es = none ∧ e.subject = a ∧ e = x) := by
  rw [firstOf, firstOf, List.find?_append]
  cases es.find? (·.subject = a) with
  | none => by_cases h : e.subject = a <;> simp [h]
  | some y => simp

theorem lastOf_append (a : α) (es : List (Change α)) (e : Change α) :
    lastOf a (es ++ [e]) = if e.subject = a then some e else lastOf a es := by
  rw [lastOf, List.reverse_append]
  by_cases h : e.subject = a
  · simp [h]
  · simp [h, lastOf]

/-- An element has a first change exactly when it has a last one. -/
theorem firstOf_eq_none_iff (a : α) (es : List (Change α)) :
    firstOf a es = none ↔ lastOf a es = none := by
  simp [firstOf, lastOf]

omit [DecidableEq α] in
/-- What changes an element is its arrival or its loss. -/
theorem eq_of_subject {a : α} {e : Change α} (h : e.subject = a) :
    e = .arrival a ∨ e = .loss a := by
  cases e with
  | arrival b => exact .inl (congrArg _ h)
  | loss b => exact .inr (congrArg _ h)

theorem firstOf_eq_some {a : α} {es : List (Change α)} {e : Change α} (h : firstOf a es = some e) :
    e = .arrival a ∨ e = .loss a :=
  eq_of_subject (by simpa using List.find?_some h)

theorem lastOf_eq_some {a : α} {es : List (Change α)} {e : Change α} (h : lastOf a es = some e) :
    e = .arrival a ∨ e = .loss a :=
  eq_of_subject (by simpa using List.find?_some h)

/-- The members after one change. -/
theorem mem_change {s t : Finset α} {e : Change α} (h : change s e = some t) (a : α) :
    a ∈ t ↔ e = .arrival a ∨ (a ∈ s ∧ e ≠ .loss a) := by
  cases e with
  | arrival b =>
    obtain rfl := Option.some.inj h
    simp [eq_comm]
  | loss b =>
    rw [change] at h
    split at h
    · obtain rfl := Option.some.inj h
      simp [and_comm, eq_comm]
    · cases h

/-- A run is a run of all changes but the last, and the last. -/
theorem exec_append_one {s t : Finset α} {es : List (Change α)} {e : Change α}
    (h : exec change s (es ++ [e]) = some t) :
    ∃ r, exec change s es = some r ∧ change r e = some t := by
  rw [exec_append] at h
  obtain ⟨r, hr, he⟩ := Option.bind_eq_some_iff.mp h
  obtain ⟨t', ht', hnil⟩ := Option.bind_eq_some_iff.mp he
  obtain rfl := Option.some.inj hnil
  exact ⟨r, hr, ht'⟩

/-- An element is a member after a run when it arrived last, or has been one from the
beginning and did not change. -/
theorem mem_exec_iff {s t : Finset α} {es : List (Change α)} (h : exec change s es = some t)
    (a : α) : a ∈ t ↔ lastOf a es = some (.arrival a) ∨ (lastOf a es = none ∧ a ∈ s) := by
  induction es using List.reverseRecOn generalizing t with
  | nil =>
    obtain rfl := Option.some.inj h
    simp
  | append_singleton es e ih =>
    obtain ⟨r, hr, he⟩ := exec_append_one h
    rw [mem_change he, ih hr, lastOf_append]
    cases e with
    | arrival b => grind [Change.subject]
    | loss b => grind [Change.subject]

/-- An element that is lost before any other change of it has been a member from the
beginning. -/
theorem mem_of_firstOf_loss {s t : Finset α} {es : List (Change α)}
    (h : exec change s es = some t) {a : α} (hfirst : firstOf a es = some (.loss a)) : a ∈ s := by
  induction es generalizing s with
  | nil => cases hfirst
  | cons e es ih =>
    obtain ⟨r, hr, hrest⟩ := Option.bind_eq_some_iff.mp h
    by_cases hsubject : e.subject = a
    · have he : e = .loss a := by simpa [firstOf, hsubject] using hfirst
      subst he
      rw [change] at hr
      split at hr
      · assumption
      · cases hr
    · have hmem := ih hrest (by simpa [firstOf, hsubject] using hfirst)
      rcases (mem_change hr a).mp hmem with rfl | ⟨hs, -⟩
      · exact absurd rfl hsubject
      · exact hs

end UniformBroadcast.SetReplay
