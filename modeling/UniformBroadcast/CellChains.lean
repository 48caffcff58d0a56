import Mathlib.Data.List.Basic
import Mathlib.Data.List.Nodup
import Mathlib.Logic.Function.Basic

/-!
# Chains of cells with an empty last cell

A list in a memory of cells: each cell holds a value and points to the next one, and a last cell
without value nor next one stands for the end. Cells also point backwards, which no property here
depends on. A chain is given by the addresses of its cells and by its values.
-/

namespace UniformBroadcast.CellChains

universe u v

structure Cell (A : Type u) (V : Type v) where
  value : Option V
  next : Option A
  previous : Option A
  deriving DecidableEq

/-- A memory of cells; `none` is an address that is not allocated. -/
abbrev Cells (A : Type u) (V : Type v) : Type (max u v) := A → Option (Cell A V)

variable {A : Type u} {V : Type v} {cells cells' : Cells A V} {ps qs : List A} {vs : List V}
  {p q : A} {c : Cell A V} {v : V}

/-- The cells at these addresses are a list of these values. -/
inductive Chain (cells : Cells A V) : List A → List V → Prop where
  | last {p : A} {c : Cell A V} (hp : cells p = some c) (hvalue : c.value = none)
    (hnext : c.next = none) : Chain cells [p] []
  | cons {p : A} {ps : List A} {c : Cell A V} {v : V} {vs : List V} (hp : cells p = some c)
    (hvalue : c.value = some v) (hnext : c.next = ps.head?) (hrest : Chain cells ps vs) :
    Chain cells (p :: ps) (v :: vs)

/-- What the chains depend on. -/
def Cell.forward (c : Cell A V) : Option V × Option A := (c.value, c.next)

theorem Chain.length_eq (h : Chain cells ps vs) : ps.length = vs.length + 1 := by
  induction h with
  | last => rfl
  | cons _ _ _ _ ih => rw [List.length_cons, ih, List.length_cons]

theorem Chain.ne_nil (h : Chain cells ps vs) : ps ≠ [] := by
  intro hnil
  have hlength := h.length_eq
  rw [hnil, List.length_nil] at hlength
  omega

theorem Chain.allocated (h : Chain cells ps vs) : ∀ a ∈ ps, cells a ≠ none := by
  induction h with
  | last hp =>
    intro a ha
    rw [List.mem_singleton.mp ha, hp]
    exact Option.some_ne_none _
  | cons hp _ _ _ ih =>
    refine List.forall_mem_cons.mpr ⟨?_, ih⟩
    rw [hp]
    exact Option.some_ne_none _

theorem forward_eq (hp : cells p = some c)
    (hsame : (cells' p).map Cell.forward = (cells p).map Cell.forward) :
    ∃ c', cells' p = some c' ∧ c'.value = c.value ∧ c'.next = c.next := by
  rw [hp] at hsame
  obtain ⟨c', hp', hfields⟩ := Option.map_eq_some_iff.mp hsame
  exact ⟨c', hp', congrArg Prod.fst hfields, congrArg Prod.snd hfields⟩

/-- A chain does not depend on other cells, nor on backward pointers. -/
theorem Chain.congr (h : Chain cells ps vs)
    (hsame : ∀ a ∈ ps, (cells' a).map Cell.forward = (cells a).map Cell.forward) :
    Chain cells' ps vs := by
  induction h with
  | last hp hvalue hnext =>
    obtain ⟨c', hp', hvalue', hnext'⟩ := forward_eq hp (hsame _ List.mem_cons_self)
    exact .last hp' (hvalue'.trans hvalue) (hnext'.trans hnext)
  | cons hp hvalue hnext _ ih =>
    obtain ⟨hfirst, hrest⟩ := List.forall_mem_cons.mp hsame
    obtain ⟨c', hp', hvalue', hnext'⟩ := forward_eq hp hfirst
    exact .cons hp' (hvalue'.trans hvalue) (hnext'.trans hnext) (ih hrest)

/-- The empty last cell is filled and followed by a new one. -/
theorem Chain.concat {d : Cell A V} (h : Chain cells (ps ++ [p]) vs)
    (hsame : ∀ a ∈ ps, (cells' a).map Cell.forward = (cells a).map Cell.forward)
    (hp : cells' p = some c) (hvalue : c.value = some v) (hnext : c.next = some q)
    (hq : cells' q = some d) (hempty : d.value = none) (hlast : d.next = none) :
    Chain cells' (ps ++ [p] ++ [q]) (vs ++ [v]) := by
  have hlink : ∀ ps : List A, (ps ++ [p] ++ [q]).head? = (ps ++ [p]).head? := by
    intro ps
    cases ps with
    | nil => rfl
    | cons => rfl
  induction ps generalizing vs with
  | nil =>
    cases h with
    | last => exact .cons hp hvalue hnext (.last hq hempty hlast)
    | cons _ _ _ hrest => exact absurd rfl hrest.ne_nil
  | cons a ps ih =>
    obtain ⟨hfirst, hrest⟩ := List.forall_mem_cons.mp hsame
    rw [List.cons_append] at h
    generalize hrow : ps ++ [p] = row at h
    cases h with
    | last => exact absurd hrow (List.append_ne_nil_of_right_ne_nil _ (List.cons_ne_nil _ _))
    | cons ha havalue hanext hchain =>
      obtain ⟨c', ha', hvalue', hnext'⟩ := forward_eq ha hfirst
      rw [← hrow] at hchain hanext
      have hlinked : c'.next = (ps ++ [p] ++ [q]).head? := by
        rw [hnext', hanext, hlink]
      exact .cons ha' (hvalue'.trans havalue) hlinked (ih hchain hrest)

/-- The cells before the last one hold values. -/
theorem Chain.head_value (h : Chain cells ps vs) :
    ∃ a c, ps.head? = some a ∧ cells a = some c ∧ c.value = vs.head? := by
  cases h with
  | last hp hvalue => exact ⟨_, _, rfl, hp, hvalue⟩
  | cons hp hvalue => exact ⟨_, _, rfl, hp, hvalue⟩

end UniformBroadcast.CellChains
