import Mathlib.Data.Option.Basic
import Mathlib.Logic.Function.Basic
import Mathlib.Algebra.BigOperators.Fin
import Mathlib.Algebra.Order.BigOperators.Group.Finset

/-!
# Blocks with a counter of references

A block of memory carries a counter; the release that brings it to zero frees the block.
The blocks are numbered as they are allocated. Where the counters are at least the numbers of
references, a release never frees a block that is still referenced, and nothing that is
referenced has been freed.
-/

namespace UniformBroadcast.CountedBlocks

/-- The counters of the blocks that are allocated, and the number of the next block. -/
structure Heap where
  counter : ℕ → Option ℤ
  next : ℕ

def Heap.empty : Heap := ⟨fun _ => none, 0⟩

namespace Heap

variable (a : ℕ) (h : Heap)

/-- Allocate the block `h.next`, with one reference. -/
def alloc : Heap := ⟨Function.update h.counter h.next (some 1), h.next + 1⟩

/-- Increment a counter; `none` when the block has been freed. -/
def share : Option Heap :=
  (h.counter a).map fun k => { h with counter := Function.update h.counter a (some (k + 1)) }

/-- Decrement a counter, and free the block when it comes to zero; `none` when the block has
been freed already. -/
def release : Option Heap :=
  (h.counter a).map fun k => { h with
    counter := Function.update h.counter a (if k - 1 = 0 then none else some (k - 1)) }

/-- Reallocate a block to `h.next`; `none` when it has been freed. -/
def move : Option Heap :=
  (h.counter a).map fun k =>
    ⟨Function.update (Function.update h.counter a none) h.next (some k), h.next + 1⟩

end Heap

/-- The counters are at least the numbers of references; a block that is not allocated has
none. -/
structure Covers (h : Heap) (references : ℕ → ℕ) : Prop where
  counter : ∀ a, (references a : ℤ) ≤ (h.counter a).getD 0
  fresh : ∀ a, h.next ≤ a → h.counter a = none

section Rules

variable {h : Heap} {R R' : ℕ → ℕ} {a : ℕ}

theorem Covers.allocated (hc : Covers h R) (ha : 0 < R a) :
    ∃ k, h.counter a = some k ∧ (R a : ℤ) ≤ k := by
  have hcount := hc.counter a
  cases hk : h.counter a with
  | none =>
    rw [hk, Option.getD_none] at hcount
    omega
  | some k =>
    rw [hk, Option.getD_some] at hcount
    exact ⟨k, rfl, hcount⟩

/-- References may be dropped without a release; their block is then never freed. -/
theorem Covers.drop (hc : Covers h R) (hle : ∀ x, R' x ≤ R x) : Covers h R' where
  counter x := (Int.ofNat_le.mpr (hle x)).trans (hc.counter x)
  fresh := hc.fresh

theorem Covers.not_next (hc : Covers h R) : R h.next = 0 := by
  have hcount := hc.counter h.next
  rw [hc.fresh h.next (Nat.le_refl _), Option.getD_none] at hcount
  omega

theorem Covers.lt_next (hc : Covers h R) (ha : 0 < R a) : a < h.next := by
  obtain ⟨k, hk, -⟩ := hc.allocated ha
  by_contra hnot
  rw [hc.fresh a (Nat.le_of_not_lt hnot)] at hk
  cases hk

theorem covers_empty : Covers Heap.empty (fun _ => 0) := ⟨fun _ => le_rfl, fun _ _ => rfl⟩

/-- A new block has the reference that is made to it. -/
theorem Covers.alloc (hc : Covers h R) (hR : ∀ x, R' x = R x + if x = h.next then 1 else 0) :
    Covers h.alloc R' where
  counter x := by
    have hcount := hc.counter x
    have hnext := hc.not_next
    rw [hR, Heap.alloc]
    by_cases hx : x = h.next
    · subst hx
      simp [hnext]
    · simpa [hx] using hcount
  fresh x hx := by
    have hlt : h.next < x := hx
    exact (Function.update_of_ne (Nat.ne_of_gt hlt) _ _).trans (hc.fresh x hlt.le)

/-- A reference to a block that is referenced may be copied. -/
theorem Covers.share (hc : Covers h R) (ha : 0 < R a)
    (hR : ∀ x, R' x = R x + if x = a then 1 else 0) :
    ∃ h', h.share a = some h' ∧ h'.next = h.next ∧ Covers h' R' := by
  obtain ⟨k, hk, hle⟩ := hc.allocated ha
  have hlt := hc.lt_next ha
  have hshare : h.share a =
      some { h with counter := Function.update h.counter a (some (k + 1)) } := by
    rw [Heap.share, hk, Option.map_some]
  refine ⟨_, hshare, rfl, ?_, ?_⟩
  · intro x
    have hcount := hc.counter x
    rw [hR]
    by_cases hx : x = a
    · subst hx
      simp only [if_true, Function.update_self, Option.getD_some]
      omega
    · simpa [hx] using hcount
  · intro x hx
    have hne : x ≠ a := Nat.ne_of_gt (hlt.trans_le hx)
    exact (Function.update_of_ne hne _ _).trans (hc.fresh x hx)

/-- The release of a reference leaves all others to allocated blocks. -/
theorem Covers.release (hc : Covers h R) (hR : ∀ x, R x = R' x + if x = a then 1 else 0) :
    ∃ h', h.release a = some h' ∧ h'.next = h.next ∧ Covers h' R' := by
  have ha : 0 < R a := by
    have hRa := hR a
    rw [if_pos rfl] at hRa
    omega
  obtain ⟨k, hk, hle⟩ := hc.allocated ha
  have hlt := hc.lt_next ha
  have hrelease : h.release a = some { h with
      counter := Function.update h.counter a (if k - 1 = 0 then none else some (k - 1)) } := by
    rw [Heap.release, hk, Option.map_some]
  refine ⟨_, hrelease, rfl, ?_, ?_⟩
  · intro x
    have hcount := hc.counter x
    have hRx := hR x
    by_cases hx : x = a
    · subst hx
      rw [if_pos rfl] at hRx
      dsimp only
      rw [Function.update_self]
      split
      · rw [Option.getD_none]
        omega
      · rw [Option.getD_some]
        omega
    · rw [if_neg hx] at hRx
      dsimp only
      rw [Function.update_of_ne hx]
      omega
  · intro x hx
    have hne : x ≠ a := Nat.ne_of_gt (hlt.trans_le hx)
    exact (Function.update_of_ne hne _ _).trans (hc.fresh x hx)

/-- A block may be reallocated by the owner of its only reference. -/
theorem Covers.move (hc : Covers h R) (ha : R a = 1)
    (hR : ∀ x, (R' x + if x = a then 1 else 0) = R x + if x = h.next then 1 else 0) :
    ∃ h', h.move a = some h' ∧ h'.next = h.next + 1 ∧ Covers h' R' := by
  have hpos : 0 < R a := ha ▸ Nat.one_pos
  obtain ⟨k, hk, hle⟩ := hc.allocated hpos
  have hlt := hc.lt_next hpos
  have hnext := hc.not_next
  have hmove : h.move a = some
      ⟨Function.update (Function.update h.counter a none) h.next (some k), h.next + 1⟩ := by
    rw [Heap.move, hk, Option.map_some]
  refine ⟨_, hmove, rfl, ?_, ?_⟩
  · intro x
    have hcount := hc.counter x
    have hRx := hR x
    dsimp only
    by_cases hx : x = h.next
    · subst hx
      rw [if_neg (Nat.ne_of_gt hlt), if_pos rfl] at hRx
      rw [Function.update_self, Option.getD_some]
      omega
    · rw [if_neg hx] at hRx
      rw [Function.update_of_ne hx]
      by_cases hxa : x = a
      · subst hxa
        rw [if_pos rfl] at hRx
        rw [Function.update_self, Option.getD_none]
        omega
      · rw [if_neg hxa] at hRx
        rw [Function.update_of_ne hxa]
        omega
  · intro x hx
    have hgt : h.next < x := hx
    dsimp only
    rw [Function.update_of_ne (Nat.ne_of_gt hgt),
      Function.update_of_ne (Nat.ne_of_gt (hlt.trans hgt))]
    exact hc.fresh x hgt.le

end Rules

/-! ## Releases in a row -/

/-- Release one reference to each block of a list. -/
def Heap.releaseAll (blocks : List ℕ) (h : Heap) : Option Heap :=
  blocks.foldlM (fun h a => h.release a) h

theorem release_counter {a : ℕ} {h h' : Heap} (hrelease : h.release a = some h') (x : ℕ) :
    (h'.counter x).getD 0 = (h.counter x).getD 0 - if x = a then 1 else 0 := by
  obtain ⟨k, hk, rfl⟩ := Option.map_eq_some_iff.mp hrelease
  dsimp only
  by_cases hx : x = a
  · subst hx
    rw [Function.update_self, hk, if_pos rfl, Option.getD_some]
    split
    · rw [Option.getD_none]
      omega
    · rw [Option.getD_some]
  · rw [Function.update_of_ne hx, if_neg hx, sub_zero]

/-- The counters tell how many references have been released. -/
theorem releaseAll_counter {blocks : List ℕ} {h h' : Heap}
    (hall : Heap.releaseAll blocks h = some h')
    (x : ℕ) : (h'.counter x).getD 0 = (h.counter x).getD 0 - blocks.count x := by
  induction blocks generalizing h with
  | nil =>
    cases hall
    simp
  | cons a blocks ih =>
    rw [Heap.releaseAll, List.foldlM_cons] at hall
    obtain ⟨k, hk, hall⟩ := Option.bind_eq_some_iff.mp hall
    have hcounter := release_counter hk x
    rw [ih hall, hcounter, List.count_cons]
    by_cases hx : x = a
    · subst hx
      simp
      omega
    · have hne : ¬ a = x := fun h => hx h.symm
      simp [hx, hne]

end UniformBroadcast.CountedBlocks
