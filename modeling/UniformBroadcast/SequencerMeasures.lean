import Mathlib.Algebra.Order.Field.Rat
import Mathlib.Tactic.FieldSimp
import Mathlib.Tactic.Linarith
import Mathlib.Tactic.NormNum
import Mathlib.Tactic.Ring

/-!
# The measures of the sequencer programs

Translation of `measure_time_difference` and `calculate_throughput`, the same in
`protocol_tcp/main.c` and `protocol_udp/mainUDP.c`, and of the throughput that `main` prints.
The `double` values are rational numbers. Seconds and microseconds are subtracted separately,
without a borrow, and the number of bytes becomes an `int` on the way.
-/

namespace UniformBroadcast.Sequencer.Measures

/-- `struct timeval`. -/
structure Timeval where
  tvSec : ℤ
  tvUsec : ℤ
  usec_nonneg : 0 ≤ tvUsec
  usec_lt : tvUsec < 1000000

/-- `elapsed_interval`. -/
def elapsedInterval (now past : Timeval) : Timeval where
  tvSec := now.tvSec - past.tvSec
  tvUsec := if now.tvUsec > past.tvUsec then now.tvUsec - past.tvUsec
    else past.tvUsec - now.tvUsec
  usec_nonneg := by split <;> omega
  usec_lt := by
    have := now.usec_nonneg
    have := now.usec_lt
    have := past.usec_nonneg
    have := past.usec_lt
    split <;> omega

/-- In milliseconds. -/
def measureTimeDifference (now past : Timeval) : ℚ :=
  1000 * (elapsedInterval now past).tvSec + (elapsedInterval now past).tvUsec / 1000

def calculateThroughput (bytes : Int32) (elapsedTime : ℚ) : ℚ :=
  let thr : ℚ := bytes.toInt / (1000 * 1000)
  let thr := thr / elapsedTime
  thr * 1000 * 8

/-- What `main` prints: the counter of bytes is a `long`. -/
def printedThroughput (messagesBytesDeliveredMesure : Int64) (timeEnd timeBegin : Timeval) : ℚ :=
  calculateThroughput messagesBytesDeliveredMesure.toInt32
    (measureTimeDifference timeEnd timeBegin)

/-! ## True times -/

/-- The instant in microseconds. -/
def Timeval.instant (t : Timeval) : ℤ := t.tvSec * 1000000 + t.tvUsec

instance : LE Timeval := ⟨fun a b => a.instant ≤ b.instant⟩

instance : LT Timeval := ⟨fun a b => a.instant < b.instant⟩

instance (a b : Timeval) : Decidable (a ≤ b) := inferInstanceAs (Decidable (a.instant ≤ b.instant))

/-- The milliseconds from `past` to `now`. -/
def elapsedMilliseconds (now past : Timeval) : ℚ := (now.instant - past.instant : ℤ) / 1000

/-- The measures of a run that starts at `a` and stops at `b`, and may go on until `c`. -/
structure MeasuredExactly (a b c : Timeval) (bytes : Int64) : Prop where
  elapsed : measureTimeDifference b a = elapsedMilliseconds b a
  additive : measureTimeDifference c a = measureTimeDifference c b + measureTimeDifference b a
  throughput : a < b → printedThroughput bytes b a =
    8 * bytes.toInt / (1000 * elapsedMilliseconds b a)

/-- No measure needs a borrow, or all of them need the same, and the number of bytes fits. -/
structure NoBorrow (a b c : Timeval) (bytes : Int64) : Prop where
  first : a.tvUsec ≤ b.tvUsec
  later : b.tvUsec ≤ c.tvUsec ∨ a.tvUsec = b.tvUsec
  fits : a < b → -2 ^ 31 ≤ bytes.toInt ∧ bytes.toInt < 2 ^ 31

section Measure

variable (now past : Timeval) (bytes : Int64)

/-- The microseconds that the subtraction should borrow. -/
def borrowed : ℤ := if now.tvUsec < past.tvUsec then past.tvUsec - now.tvUsec else 0

/-- What should be borrowed is counted twice instead. -/
theorem measureTimeDifference_eq : measureTimeDifference now past =
    elapsedMilliseconds now past + 2 * borrowed now past / 1000 := by
  have hmicro : 1000000 * (elapsedInterval now past).tvSec + (elapsedInterval now past).tvUsec =
      now.instant - past.instant + 2 * borrowed now past := by
    simp only [elapsedInterval, Timeval.instant, borrowed]
    split <;> split <;> omega
  have hrat : (1000000 * (elapsedInterval now past).tvSec +
      (elapsedInterval now past).tvUsec : ℚ) =
      (now.instant - past.instant : ℤ) + 2 * borrowed now past := by
    exact_mod_cast hmicro
  rw [measureTimeDifference, elapsedMilliseconds]
  linarith

theorem borrowed_eq_zero_iff : borrowed now past = 0 ↔ past.tvUsec ≤ now.tvUsec := by
  rw [borrowed]
  split <;> omega

theorem measureTimeDifference_exact_iff :
    measureTimeDifference now past = elapsedMilliseconds now past ↔ past.tvUsec ≤ now.tvUsec := by
  rw [measureTimeDifference_eq, ← borrowed_eq_zero_iff, ← Int.cast_eq_zero (α := ℚ)]
  constructor
  · intro h
    linarith
  · intro h
    rw [h]
    ring

/-- A `long` becomes an `int` of the same value exactly when it is in its range. -/
theorem toInt32_exact_iff :
    bytes.toInt32.toInt = bytes.toInt ↔ -2 ^ 31 ≤ bytes.toInt ∧ bytes.toInt < 2 ^ 31 := by
  rw [Int64.toInt_toInt32, Int.bmod_def]
  split <;> omega

end Measure

section Exactness

variable {a b c : Timeval} {bytes : Int64}

theorem elapsedMilliseconds_add :
    elapsedMilliseconds c a = elapsedMilliseconds c b + elapsedMilliseconds b a := by
  simp only [elapsedMilliseconds]
  push_cast
  ring

/-- Times add up when what should have been borrowed does. -/
theorem additive_iff :
    measureTimeDifference c a = measureTimeDifference c b + measureTimeDifference b a ↔
      borrowed c a = borrowed c b + borrowed b a := by
  rw [measureTimeDifference_eq, measureTimeDifference_eq, measureTimeDifference_eq,
    @elapsedMilliseconds_add a b c]
  constructor
  · intro h
    have hrat : (borrowed c a : ℚ) = borrowed c b + borrowed b a := by linarith
    exact_mod_cast hrat
  · intro h
    rw [h]
    push_cast
    ring

theorem elapsedMilliseconds_pos (h : a < b) : 0 < elapsedMilliseconds b a := by
  have hlt : 0 < b.instant - a.instant := Int.sub_pos.mpr h
  have hrat : (0 : ℚ) < (b.instant - a.instant : ℤ) := by exact_mod_cast hlt
  rw [elapsedMilliseconds]
  linarith

/-- The throughput is right for the number of bytes that arrives in `calculate_throughput`. -/
theorem printedThroughput_iff (hlt : a < b)
    (helapsed : measureTimeDifference b a = elapsedMilliseconds b a) :
    printedThroughput bytes b a = 8 * bytes.toInt / (1000 * elapsedMilliseconds b a) ↔
      -2 ^ 31 ≤ bytes.toInt ∧ bytes.toInt < 2 ^ 31 := by
  have hpos := elapsedMilliseconds_pos hlt
  have hne : elapsedMilliseconds b a ≠ 0 := hpos.ne'
  have hthroughput : printedThroughput bytes b a =
      8 * bytes.toInt32.toInt / (1000 * elapsedMilliseconds b a) := by
    rw [printedThroughput, calculateThroughput, helapsed]
    field_simp
  rw [hthroughput, ← toInt32_exact_iff, div_left_inj' (by positivity)]
  constructor
  · intro h
    have hrat : (bytes.toInt32.toInt : ℚ) = bytes.toInt := by linarith
    exact_mod_cast hrat
  · intro h
    rw [h]

/-- The measures are exact exactly when no borrow is missing and the number of bytes fits in an
`int`. -/
theorem measured_exactly_iff (a b c : Timeval) (bytes : Int64) :
    MeasuredExactly a b c bytes ↔ NoBorrow a b c bytes := by
  constructor
  · rintro ⟨helapsed, hadditive, hthroughput⟩
    have hfirst := (measureTimeDifference_exact_iff b a).mp helapsed
    refine ⟨hfirst, ?_, fun hlt => (printedThroughput_iff hlt helapsed).mp (hthroughput hlt)⟩
    rw [additive_iff] at hadditive
    simp only [borrowed] at hadditive
    split_ifs at hadditive <;> omega
  · rintro ⟨hfirst, hlater, hfits⟩
    have helapsed := (measureTimeDifference_exact_iff b a).mpr hfirst
    refine ⟨helapsed, ?_, fun hlt => (printedThroughput_iff hlt helapsed).mpr (hfits hlt)⟩
    rw [additive_iff]
    simp only [borrowed]
    split_ifs <;> omega

/-- From 0.9 s to 1.1 s the code measures 1800 ms. -/
theorem not_measured_exactly :
    let a : Timeval := ⟨0, 900000, by decide, by decide⟩
    let b : Timeval := ⟨1, 100000, by decide, by decide⟩
    a ≤ b ∧ measureTimeDifference b a = 1800 ∧ elapsedMilliseconds b a = 200 ∧
      ¬ MeasuredExactly a b b 1000 := by
  refine ⟨by decide, ?_, ?_, ?_⟩
  · norm_num [measureTimeDifference, elapsedInterval]
  · norm_num [elapsedMilliseconds, Timeval.instant]
  · intro h
    exact absurd ((measureTimeDifference_exact_iff _ _).mp h.elapsed) (by decide)

end Exactness

end UniformBroadcast.Sequencer.Measures
