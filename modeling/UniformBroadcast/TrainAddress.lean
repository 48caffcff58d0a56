import Mathlib.Data.List.Basic
import Mathlib.Algebra.BigOperators.Fin
import Mathlib.Algebra.Order.BigOperators.Group.Finset

/-!
# Addresses of the trains protocol

Translation of `address.c`. An address is one bit of an `unsigned short`, a set of
addresses is a word of such bits.
-/

namespace UniformBroadcast.Trains

/-- `NP`. -/
def np : ℕ := 16

instance neZero_np : NeZero np := ⟨by decide⟩

/-- `address` and `addressSet`. -/
abbrev Address := BitVec 16

/-- The lowest bit set, `none` for the result `-1`. -/
def addrToRank (ad : Address) : Option ℕ := (List.range np).find? fun rank => ad.getLsbD rank

def rankToAddr (rank : ℕ) : Address := 1#16 <<< rank

def addrIsMember (ad adSet : Address) : Bool := ad &&& adSet != 0#16

def addrAppendArrived (arrivedSet ad : Address) : Address := arrivedSet ||| ad

/-- The new values of `arrivedSet` and `goneSet`. -/
def addrAppendGone (arrivedSet goneSet ad : Address) : Address × Address :=
  if addrIsMember ad arrivedSet then (arrivedSet ^^^ ad, goneSet) else (arrivedSet, goneSet ||| ad)

/-- The address of the process itself is not used. -/
def addrUpdateCircuit (circuit arrivedSet goneSet : Address) : Address :=
  (circuit ^^^ goneSet) ||| arrivedSet

/-- The `do` loop visits the ranks downwards and comes back to its start after `NP` of
them; it does not end, here `none`, when no rank it visits is in the circuit. -/
def addrPrec (ad circuit : Address) : Option Address :=
  (addrToRank ad).bind fun i =>
    ((List.range' 1 np).map fun k => rankToAddr ((i + k * (np - 1)) % np)).find? fun a =>
      addrIsMember a circuit

@[simp] theorem addrUpdateCircuit_zero (circuit : Address) :
    addrUpdateCircuit circuit 0#16 0#16 = circuit := by
  simp [addrUpdateCircuit]

@[simp] theorem addrIsMember_empty (ad : Address) : addrIsMember ad 0#16 = false := by
  simp [addrIsMember]

theorem ne_zero_of_addrIsMember {ad adSet : Address} (h : addrIsMember ad adSet = true) :
    ad ≠ 0#16 := by
  rintro rfl
  simp [addrIsMember] at h

/-! ## Bits -/

theorem rankToAddr_eq_twoPow (rank : ℕ) : rankToAddr rank = BitVec.twoPow 16 rank :=
  (BitVec.twoPow_eq 16 rank).symm

theorem rankToAddr_getLsbD (i j : Fin np) :
    (rankToAddr i.val).getLsbD j.val = decide (j = i) := by
  have hi : i.val < 16 := i.isLt
  rw [rankToAddr_eq_twoPow, BitVec.getLsbD_twoPow]
  simp [hi, Fin.ext_iff, eq_comm]

/-- An address is in a set when the bit of its rank is. -/
theorem addrIsMember_rankToAddr (i : Fin np) (adSet : Address) :
    addrIsMember (rankToAddr i.val) adSet = adSet.getLsbD i.val := by
  have hi : i.val < 16 := i.isLt
  have hne : rankToAddr i.val ≠ 0#16 := by
    intro h
    have hbit := congrArg (·.getLsbD i.val) h
    simp [rankToAddr_getLsbD] at hbit
  rw [rankToAddr_eq_twoPow] at hne
  rw [addrIsMember, BitVec.and_comm, rankToAddr_eq_twoPow, BitVec.and_twoPow]
  split
  · simp_all
  · simp_all

end UniformBroadcast.Trains
