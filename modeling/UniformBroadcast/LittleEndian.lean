import Mathlib.Data.List.Basic
import Mathlib.Data.List.Infix
import Mathlib.Algebra.BigOperators.Fin
import Mathlib.Algebra.Order.BigOperators.Group.Finset

/-!
# Little-endian integers and records that carry their length

A number as a fixed count of bytes, least significant first, and a sequence of byte
strings each of which tells its own length.
-/

namespace UniformBroadcast.LittleEndian

universe u

abbrev Byte := BitVec 8

/-- The `k` low bytes of `n`. -/
def toBytes : ℕ → ℕ → List Byte
  | 0, _ => []
  | k + 1, n => BitVec.ofNat 8 n :: toBytes k (n / 256)

/-- The number that some bytes stand for. -/
def ofBytes : List Byte → ℕ
  | [] => 0
  | b :: bs => b.toNat + 256 * ofBytes bs

@[simp] theorem length_toBytes (k n : ℕ) : (toBytes k n).length = k := by
  induction k generalizing n with
  | zero => rfl
  | succ k ih => rw [toBytes, List.length_cons, ih]

theorem ofBytes_toBytes (k n : ℕ) : ofBytes (toBytes k n) = n % 256 ^ k := by
  induction k generalizing n with
  | zero => rw [toBytes, ofBytes, pow_zero, Nat.mod_one]
  | succ k ih =>
    have hpow : 256 ^ (k + 1) = 256 * 256 ^ k := pow_succ' 256 k
    rw [toBytes, ofBytes, ih, BitVec.toNat_ofNat, hpow, Nat.mod_mul]

/-! ## Signed numbers of four bytes -/

/-- The signed number at the beginning of some bytes. -/
def readInt : List Byte → Option ℤ
  | b₀ :: b₁ :: b₂ :: b₃ :: _ => some (BitVec.ofNat 32 (ofBytes [b₀, b₁, b₂, b₃])).toInt
  | _ => none

theorem readInt_toBytes (n : ℕ) (bytes : List Byte) :
    readInt (toBytes 4 n ++ bytes) = some (BitVec.ofNat 32 n).toInt := by
  have hof : ofBytes (toBytes 4 n) = n % 2 ^ 32 := ofBytes_toBytes 4 n
  have hmod : BitVec.ofNat 32 (n % 2 ^ 32) = BitVec.ofNat 32 n := by
    rw [← BitVec.toNat_inj, BitVec.toNat_ofNat, BitVec.toNat_ofNat, Nat.mod_mod]
  rw [← hmod, ← hof]
  rfl

theorem toInt_ofNat {n : ℕ} (h : n < 2 ^ 31) : (BitVec.ofNat 32 n).toInt = n := by
  rw [BitVec.toInt_eq_toNat_of_lt, BitVec.toNat_ofNat, Nat.mod_eq_of_lt (by omega)]
  rw [BitVec.toNat_ofNat, Nat.mod_eq_of_lt (by omega)]
  omega

theorem toInt_ofNat_lt (n : ℕ) : (BitVec.ofNat 32 n).toInt < 2 ^ 31 :=
  BitVec.toInt_lt

theorem readInt_lt {bytes : List Byte} {n : ℤ} (h : readInt bytes = some n) : n < 2 ^ 31 := by
  match bytes, h with
  | b₀ :: b₁ :: b₂ :: b₃ :: _, h =>
    obtain rfl := Option.some.inj h
    exact toInt_ofNat_lt _

/-- A number of four bytes is read back exactly when it fits. -/
theorem readInt_eq_iff (n : ℕ) (bytes : List Byte) :
    readInt (toBytes 4 n ++ bytes) = some (n : ℤ) ↔ n < 2 ^ 31 := by
  rw [readInt_toBytes, Option.some_inj]
  constructor
  · intro h
    have hlt := toInt_ofNat_lt n
    omega
  · exact toInt_ofNat

/-! ## Records one after the other -/

section Records

variable {α : Type u} (bytes : α → List Byte) (keep : α → Bool)

/-- Where records are told apart by a prefix of fixed length, the bytes of the records
kept are the first of all the bytes exactly when the records kept are the first. -/
theorem flatMap_filter_prefix_iff {k : ℕ} (hlen : ∀ a, k ≤ (bytes a).length)
    (htell : ∀ a b, keep a = true → keep b = false → (bytes a).take k ≠ (bytes b).take k)
    (l : List α) :
    (l.filter keep).flatMap bytes <+: l.flatMap bytes ↔ l.filter keep <+: l := by
  constructor
  · intro h
    induction l with
    | nil => exact List.prefix_refl _
    | cons a l ih =>
      cases ha : keep a with
      | true =>
        rw [List.filter_cons_of_pos ha] at h ⊢
        rw [List.flatMap_cons, List.flatMap_cons, List.prefix_append_right_inj] at h
        exact List.cons_prefix_cons.mpr ⟨rfl, ih h⟩
      | false =>
        rw [List.filter_cons_of_neg (by simp [ha])] at h ⊢
        cases hfilter : l.filter keep with
        | nil => exact List.nil_prefix
        | cons b m =>
          rw [hfilter, List.flatMap_cons, List.flatMap_cons] at h
          have hb : keep b = true := by
            have hmem : b ∈ l.filter keep := hfilter ▸ List.mem_cons_self
            exact (List.mem_filter.mp hmem).2
          have htake := (List.prefix_iff_eq_take.mp h)
          have hcut := congrArg (List.take k) htake
          rw [List.take_append_of_le_length (hlen b), List.take_take, List.length_append,
            Nat.min_eq_left ((hlen b).trans (Nat.le_add_right _ _)),
            List.take_append_of_le_length (hlen a)] at hcut
          exact absurd hcut (htell b a hb ha)
  · rintro ⟨m, hm⟩
    refine ⟨m.flatMap bytes, ?_⟩
    rw [← List.flatMap_append, hm]

end Records

end UniformBroadcast.LittleEndian
