import UniformBroadcast.TrainPredecessor
import Mathlib.Algebra.Order.Ring.Int
import Mathlib.Tactic.Linarith
import Mathlib.Tactic.Ring

/-!
# The sleeps between two attempts to connect

Translation of `randSleep` and of the arithmetic of `sleepTreatment` in `stateMachine.c`, and of
what `trInit` does with its arguments for the waits. A product of `int` that overflows has no
value. `waitNb` grows by one with each failed attempt and is never reset.
-/

namespace UniformBroadcast.Trains.Backoff

open TransitionRuns

/-- `waitNbMax` and `waitDefaultTime`. -/
structure Waits where
  waitNbMax : ℕ
  waitDefaultTime : ℕ
  deriving DecidableEq, Repr

/-- The values of the globals when the program starts. -/
def Waits.initial : Waits := ⟨10, 2⟩

/-- The waits after `trInit`. -/
def trInit (waitNb waitTime : Int32) : Waits where
  waitNbMax := if waitNb.toInt > 0 then waitNb.toInt.toNat else Waits.initial.waitNbMax
  waitDefaultTime :=
    if waitTime.toInt > 0 then waitTime.toInt.toNat else Waits.initial.waitDefaultTime

/-- A value computed by `int` operations, unless it overflows. -/
def toInt32 (n : ℤ) : Option ℤ := if -2 ^ 31 ≤ n ∧ n < 2 ^ 31 then some n else none

/-- `1 << n`. -/
def oneShiftLeft (n : ℕ) : Option ℤ := if n < 32 then toInt32 (2 ^ n) else none

/-- `RAND_MAX + 1`. -/
abbrev randValues : ℕ := 2 ^ 31

/-- `rand()` returns `rand`. A division by zero has no result. -/
def randSleep (maxms : ℤ) (rand : Fin randValues) : Option ℤ :=
  if maxms = 0 then none else some ((rand.val : ℤ).tmod maxms)

/-- The argument of `randSleep` in `sleepTreatment`. -/
def maxSleep (waitNb waitDefaultTime : ℕ) : Option ℤ := do
  let shifted ← oneShiftLeft waitNb
  let seconds ← toInt32 (shifted * waitDefaultTime)
  toInt32 (seconds * 1000)

/-- The argument of `usleep` in `sleepTreatment`. -/
def sleepMicroseconds (waitNb waitDefaultTime : ℕ) (rand : Fin randValues) : Option ℤ := do
  let maxms ← maxSleep waitNb waitDefaultTime
  let sleep ← randSleep maxms rand
  toInt32 (sleep * 1000)

variable {ntr : ℕ}

/-- `procStep` with the value that `rand()` returns when the process goes to sleep. -/
def backoffStep (c : Config) (waitDefaultTime : ℕ) (p : Proc ntr) :
    ProcEvent ntr × Fin randValues → Option (Proc ntr)
  | (.wake dial, rand) => do
    let _ ← sleepMicroseconds p.waitNb waitDefaultTime rand
    procStep c p (.wake dial)
  | (e, _) => procStep c p e

/-- The arithmetic of `sleepTreatment` is defined, whatever `rand()` returns. -/
structure SleepDefined (waitNb waitDefaultTime : ℕ) : Prop where
  maxms : ∃ maxms, maxSleep waitNb waitDefaultTime = some maxms ∧ 0 < maxms
  sleep : ∀ rand, (sleepMicroseconds waitNb waitDefaultTime rand).isSome

/-! ## The three multiplications -/

section Arithmetic

variable {waitNb waitDefaultTime : ℕ}

theorem toInt32_natCast {n : ℕ} (h : n < 2 ^ 31) : toInt32 (n : ℤ) = some (n : ℤ) :=
  if_pos ⟨by omega, by omega⟩

theorem toInt32_eq_some {n m : ℤ} (h : toInt32 n = some m) : m = n ∧ n < 2 ^ 31 := by
  rw [toInt32] at h
  split at h
  · rename_i hrange
    exact ⟨(Option.some.inj h).symm, hrange.2⟩
  · cases h

theorem oneShiftLeft_eq_some {n : ℕ} {m : ℤ} (h : oneShiftLeft n = some m) : m = 2 ^ n := by
  rw [oneShiftLeft] at h
  split at h
  · exact (toInt32_eq_some h).1
  · cases h

/-- The multiplications of `randSleep`'s argument give the exact product. -/
theorem maxSleep_eq_some {maxms : ℤ} (h : maxSleep waitNb waitDefaultTime = some maxms) :
    maxms = 2 ^ waitNb * waitDefaultTime * 1000 := by
  obtain ⟨shifted, hshift, h⟩ := Option.bind_eq_some_iff.mp h
  obtain ⟨seconds, hseconds, h⟩ := Option.bind_eq_some_iff.mp h
  obtain rfl := oneShiftLeft_eq_some hshift
  obtain ⟨rfl, -⟩ := toInt32_eq_some hseconds
  exact (toInt32_eq_some h).1

theorem maxSleep_of_lt (hpos : 0 < waitDefaultTime)
    (h : 2 ^ waitNb * waitDefaultTime * 1000 < 2 ^ 31) :
    maxSleep waitNb waitDefaultTime = some ((2 ^ waitNb * waitDefaultTime * 1000 : ℕ) : ℤ) := by
  have hle : 2 ^ waitNb ≤ 2 ^ waitNb * waitDefaultTime := Nat.le_mul_of_pos_right _ hpos
  have hnb : waitNb < 32 := by
    have hlt : 2 ^ waitNb < 2 ^ 32 := by omega
    exact Nat.pow_lt_pow_iff_right (Nat.lt_succ_self 1) |>.mp hlt
  have hshift : oneShiftLeft waitNb = some ((2 ^ waitNb : ℕ) : ℤ) := by
    have hpow : (2 : ℤ) ^ waitNb = ((2 ^ waitNb : ℕ) : ℤ) := (Nat.cast_pow 2 waitNb).symm
    rw [oneShiftLeft, if_pos hnb, hpow]
    exact toInt32_natCast (by omega)
  have hseconds : toInt32 (((2 ^ waitNb : ℕ) : ℤ) * (waitDefaultTime : ℤ)) =
      some ((2 ^ waitNb * waitDefaultTime : ℕ) : ℤ) := by
    rw [← Nat.cast_mul]
    exact toInt32_natCast (by omega)
  have hmaxms : toInt32 (((2 ^ waitNb * waitDefaultTime : ℕ) : ℤ) * 1000) =
      some ((2 ^ waitNb * waitDefaultTime * 1000 : ℕ) : ℤ) := by
    have hcast : ((2 ^ waitNb * waitDefaultTime : ℕ) : ℤ) * 1000 =
        ((2 ^ waitNb * waitDefaultTime * 1000 : ℕ) : ℤ) := by
      push_cast
      ring
    rw [hcast]
    exact toInt32_natCast h
  rw [maxSleep, hshift, Option.bind_eq_bind, Option.bind_some, hseconds, Option.bind_some]
  exact hmaxms

theorem maxSleep_lt (h : (maxSleep waitNb waitDefaultTime).isSome) :
    2 ^ waitNb * waitDefaultTime * 1000 < 2 ^ 31 := by
  obtain ⟨maxms, hmax⟩ := Option.isSome_iff_exists.mp h
  obtain rfl := maxSleep_eq_some hmax
  obtain ⟨shifted, hshift, hrest⟩ := Option.bind_eq_some_iff.mp hmax
  obtain ⟨seconds, hseconds, hlast⟩ := Option.bind_eq_some_iff.mp hrest
  obtain rfl := oneShiftLeft_eq_some hshift
  obtain ⟨rfl, -⟩ := toInt32_eq_some hseconds
  exact_mod_cast (toInt32_eq_some hlast).2

/-- What a sleep of less than `maxms` milliseconds is in microseconds. -/
theorem sleepMicroseconds_eq (hpos : 0 < waitDefaultTime)
    (h : 2 ^ waitNb * waitDefaultTime * 1000 < 2 ^ 31) (rand : Fin randValues) :
    sleepMicroseconds waitNb waitDefaultTime rand =
      toInt32 ((rand.val % (2 ^ waitNb * waitDefaultTime * 1000) * 1000 : ℕ) : ℤ) := by
  have hone : 0 < 2 ^ waitNb * waitDefaultTime := Nat.mul_pos (Nat.two_pow_pos _) hpos
  have hmod : randSleep ((2 ^ waitNb * waitDefaultTime * 1000 : ℕ) : ℤ) rand =
      some ((rand.val % (2 ^ waitNb * waitDefaultTime * 1000) : ℕ) : ℤ) := by
    rw [randSleep, if_neg (by omega)]
    rfl
  rw [sleepMicroseconds, maxSleep_of_lt hpos h]
  simp only [Option.bind_eq_bind, Option.bind_some]
  rw [hmod, Option.bind_some, Nat.cast_mul]
  rfl

/-- The longest sleep, of `maxms - 1` milliseconds, is the first to overflow. -/
theorem sleepDefined_iff (hpos : 0 < waitDefaultTime) :
    SleepDefined waitNb waitDefaultTime ↔ 2 ^ waitNb * waitDefaultTime ≤ 2147 := by
  have hone : 0 < 2 ^ waitNb * waitDefaultTime := Nat.mul_pos (Nat.two_pow_pos _) hpos
  constructor
  · rintro ⟨⟨maxms, hmax, -⟩, hsleep⟩
    have hlt := maxSleep_lt (Option.isSome_iff_exists.mpr ⟨maxms, hmax⟩)
    -- the value of `rand()` that gives the longest sleep
    have hrand : 2 ^ waitNb * waitDefaultTime * 1000 - 1 < 2 ^ 31 := by omega
    obtain ⟨us, hus⟩ := Option.isSome_iff_exists.mp (hsleep ⟨_, hrand⟩)
    rw [sleepMicroseconds_eq hpos hlt] at hus
    dsimp only at hus
    rw [Nat.mod_eq_of_lt (by omega)] at hus
    have hrange := (toInt32_eq_some hus).2
    omega
  · intro hle
    have hrange : ∀ n < 2 ^ waitNb * waitDefaultTime * 1000, n * 1000 < 2 ^ 31 := by
      intro n hn
      omega
    have hlt : 2 ^ waitNb * waitDefaultTime * 1000 < 2 ^ 31 := by omega
    have hpos1000 : 0 < 2 ^ waitNb * waitDefaultTime * 1000 := by omega
    refine ⟨⟨_, maxSleep_of_lt hpos hlt, by omega⟩, ?_⟩
    intro rand
    rw [sleepMicroseconds_eq hpos hlt, toInt32_natCast (hrange _ (Nat.mod_lt _ hpos1000))]
    rfl

end Arithmetic

/-! ## The sleeps of a process -/

section Sleeps

variable {c : Config} {dial : Address → Bool} {p q : Proc ntr} {m : Msg ntr}
  {actions : List (Action ntr)} {waitDefaultTime : ℕ} {hntr : 0 < ntr}

/-- A process that goes to sleep has not failed more than `waitNbMax` times. -/
def WithinMax (c : Config) (p : Proc ntr) : Prop :=
  p.automatonState = .wait → p.waitNb ≤ c.waitNbMax

theorem withinMax_of_eq {s : State} (hp : p.automatonState = s) (hs : s ≠ .wait) :
    WithinMax c p := by
  intro hwait
  exact absurd (hp.symm.trans hwait) hs

theorem nextState_wait (h : nextState c dial .wait p = some (q, actions)) :
    WithinMax c q := by
  obtain ⟨⟨r, closes⟩, hwait, h⟩ := Option.bind_eq_some_iff.mp h
  rw [waitBeforeConnect] at hwait
  split at hwait
  · cases hwait
  · rename_i hmax
    cases hwait
    cases h
    intro _
    exact Nat.le_of_not_lt hmax

theorem offlineConnectionAttempt_withinMax (hp : p.automatonState = .offlineConnectionAttempt)
    (h : offlineConnectionAttempt c dial m p = some (q, actions)) : WithinMax c q := by
  cases m with
  | nakInsert | disconnectPred | disconnectSucc =>
    rw [offlineConnectionAttempt] at h
    exact nextState_wait h
  | insert sender =>
    cases h
    exact withinMax_of_eq hp (by decide)
  | ackInsert sender =>
    rw [offlineConnectionAttempt] at h
    obtain ⟨⟨r, more⟩, hnext, h⟩ := Option.bind_eq_some_iff.mp h
    cases hnext
    cases h
    exact withinMax_of_eq (s := .offlineConfirmationWait) rfl (by decide)
  | train | newSucc => cases h

theorem offlineConfirmationWait_withinMax (hp : p.automatonState = .offlineConfirmationWait)
    (h : offlineConfirmationWait c dial m p = some (q, actions)) : WithinMax c q := by
  cases m with
  | newSucc | disconnectPred | disconnectSucc =>
    rw [offlineConfirmationWait] at h
    exact nextState_wait h
  | insert sender =>
    cases h
    exact withinMax_of_eq hp (by decide)
  | train stamp circuit wagons =>
    rw [offlineConfirmationWait] at h
    obtain ⟨w, -, h⟩ := Option.bind_eq_some_iff.mp h
    dsimp only at h
    split at h
    · obtain ⟨⟨r, more⟩, hnext, h⟩ := Option.bind_eq_some_iff.mp h
      cases hnext
      cases h
      exact withinMax_of_eq (s := .several) rfl (by decide)
    · cases h
      have hstate : (forwardTrain c stamp circuit w p).automatonState = .offlineConfirmationWait :=
        hp
      exact withinMax_of_eq hstate (by decide)
  | ackInsert | nakInsert => cases h

/-- The other states are never left for `WAIT`. -/
theorem joined_withinMax (hp : joined p.automatonState = true)
    (h : stateMachine c dial m p = some (q, actions)) : WithinMax c q := by
  rw [stateMachine] at h
  split at h
  · rename_i hstate
    rw [hstate] at hp
    cases hp
  · rename_i hstate
    rw [hstate] at hp
    cases hp
  · rename_i hstate
    rw [hstate] at hp
    cases hp
  · rename_i hstate
    rcases aloneInsertWait_automatonState hstate h with hq | hq
    · exact withinMax_of_eq hq (by decide)
    · exact withinMax_of_eq hq (by decide)
  · rename_i hstate
    rcases aloneConnectionWait_automatonState hstate h with hq | hq | ⟨hq, -⟩
    · exact withinMax_of_eq hq (by decide)
    · exact withinMax_of_eq hq (by decide)
    · exact withinMax_of_eq hq (by decide)
  · rename_i hstate
    rcases several_cases hstate h with hq | ⟨-, ⟨hq, -⟩ | ⟨-, rfl⟩ | ⟨hq, -⟩⟩
    · exact withinMax_of_eq hq (by decide)
    · exact withinMax_of_eq hq (by decide)
    · exact withinMax_of_eq hstate (by decide)
    · exact withinMax_of_eq hq (by decide)

theorem stateMachine_withinMax (hp : WithinMax c p)
    (h : stateMachine c dial m p = some (q, actions)) : WithinMax c q := by
  cases hstate : p.automatonState with
  | offlineConnectionAttempt =>
    rw [stateMachine, hstate] at h
    exact offlineConnectionAttempt_withinMax hstate h
  | offlineConfirmationWait =>
    rw [stateMachine, hstate] at h
    exact offlineConfirmationWait_withinMax hstate h
  | wait =>
    rw [stateMachine, hstate] at h
    cases h
    exact hp
  | aloneInsertWait | aloneConnectionWait | several =>
    exact joined_withinMax (by rw [hstate]; rfl) h

theorem offlineInit_withinMax (h : offlineInit c dial p = some (q, actions)) : WithinMax c q := by
  obtain ⟨succ, rfl | rfl⟩ := offlineInit_cases h
  · exact withinMax_of_eq (s := .offlineConnectionAttempt) rfl (by decide)
  · exact withinMax_of_eq (s := .aloneInsertWait) rfl (by decide)

theorem broadcast_withinMax {mp : Message} (hp : WithinMax c p) (h : broadcast c mp p = some q) :
    WithinMax c q := by
  rw [broadcast] at h
  split at h
  · cases h
  · dsimp only at h
    split at h
    · cases h
      exact hp
    · cases h
      exact hp

theorem backoffStep_withinMax {e : ProcEvent ntr × Fin randValues} (hp : WithinMax c p)
    (h : backoffStep c waitDefaultTime p e = some q) : WithinMax c q := by
  obtain ⟨e, rand⟩ := e
  cases e with
  | message dial m =>
    obtain ⟨⟨r, actions⟩, hstep, rfl⟩ := Option.map_eq_some_iff.mp h
    exact stateMachine_withinMax hp hstep
  | wake dial =>
    obtain ⟨us, -, h⟩ := Option.bind_eq_some_iff.mp h
    rw [procStep] at h
    split at h
    · obtain ⟨⟨r, actions⟩, hstep, rfl⟩ := Option.map_eq_some_iff.mp h
      exact offlineInit_withinMax hstep
    · cases h
  | broadcast mp => exact broadcast_withinMax hp h

/-! ## A run of failures -/

/-- A process that finds others asks the first of them to be inserted. -/
theorem offlineInit_answered (rank : Fin np) (hc : c.myAddress = rankToAddr rank.val)
    (p : Proc ntr) : ∃ q actions, offlineInit c (fun _ => true) p = some (q, actions) ∧
      q.automatonState = .offlineConnectionAttempt ∧ q.waitNb = p.waitNb := by
  have hrank : addrToRank c.myAddress = some rank.val := by
    rw [hc, addrToRank_rankToAddr]
  have hne : rankToAddr ((rank.val + 1) % np) ≠ c.myAddress := by
    rw [hc]
    intro heq
    have hsame : (⟨(rank.val + 1) % np, Nat.mod_lt _ (by decide)⟩ : Fin np) = rank :=
      rankToAddr_injective heq
    have hval : (rank.val + 1) % 16 = rank.val := congrArg Fin.val hsame
    have hlt : rank.val < 16 := rank.isLt
    omega
  have hranks : ranksAfter rank.val = (rank.val + 1) % np :: (ranksAfter rank.val).tail := rfl
  rw [offlineInit, hrank, Option.bind_eq_bind, Option.bind_some, hranks, searchSucc,
    if_pos rfl]
  dsimp only
  rw [if_neg hne]
  exact ⟨_, _, rfl, rfl, rfl⟩

/-- The answer is negative: the process goes to sleep, unless it has failed too often. -/
theorem refused (hp : p.automatonState = .offlineConnectionAttempt) (hmax : p.waitNb ≤ c.waitNbMax)
    (rand : Fin randValues) : ∃ q,
      backoffStep c waitDefaultTime p (.message dial (.nakInsert p.succ), rand) = some q ∧
      q.automatonState = .wait ∧ q.waitNb = p.waitNb := by
  have hbound : ¬ p.waitNb > c.waitNbMax := Nat.not_lt.mpr hmax
  simp only [backoffStep, procStep, stateMachine, hp, offlineConnectionAttempt, nextState,
    waitBeforeConnect, if_neg hbound]
  exact ⟨_, rfl, rfl, rfl⟩

/-- A process can fail `waitNbMax` times, as long as its sleeps are defined. -/
theorem sleeps_run (rank : Fin np) (hc : c.myAddress = rankToAddr rank.val) {p₀ : Proc ntr}
    (hstart : p₀.automatonState = .offlineConnectionAttempt) (hzero : p₀.waitNb = 0) {k : ℕ}
    (hmax : k ≤ c.waitNbMax) (hdefined : ∀ j < k, SleepDefined j waitDefaultTime) :
    ∃ es p, exec (backoffStep c waitDefaultTime) p₀ es = some p ∧
      p.automatonState = .wait ∧ p.waitNb = k := by
  have hrand : 0 < randValues := by decide
  induction k with
  | zero =>
    obtain ⟨q, hq, hwait, hnb⟩ := @refused ntr c (fun _ => true) p₀ waitDefaultTime hstart
      (by rw [hzero]; exact hmax) ⟨0, hrand⟩
    refine ⟨[(.message (fun _ => true) (.nakInsert p₀.succ), ⟨0, hrand⟩)], q, ?_, hwait,
      hnb.trans hzero⟩
    rw [exec_cons, hq]
    rfl
  | succ k ih =>
    obtain ⟨es, p, hrun, hwait, hnb⟩ := ih (Nat.le_of_succ_le hmax)
      fun j hj => hdefined j (Nat.lt_succ_of_lt hj)
    -- the process wakes up, tries again and is refused
    have hsleep := (hdefined k (Nat.lt_succ_self k)).sleep ⟨0, hrand⟩
    obtain ⟨us, hus⟩ := Option.isSome_iff_exists.mp hsleep
    obtain ⟨q, actions, hinit, hstate, hq⟩ :=
      offlineInit_answered rank hc { p with waitNb := p.waitNb + 1 }
    have hwake : backoffStep c waitDefaultTime p (.wake fun _ => true, ⟨0, hrand⟩) = some q := by
      rw [backoffStep, hnb, hus, Option.bind_eq_bind, Option.bind_some, procStep, if_pos hwait,
        sleepTreatment, hinit]
      rfl
    have hqnb : q.waitNb = k + 1 := by rw [hq, ← hnb]
    obtain ⟨r, hr, hwait', hnb'⟩ := @refused ntr c (fun _ => true) q waitDefaultTime hstate
      (by rw [hqnb]; exact hmax) ⟨0, hrand⟩
    refine ⟨es ++ [(.wake fun _ => true, ⟨0, hrand⟩),
      (.message (fun _ => true) (.nakInsert q.succ), ⟨0, hrand⟩)], r, ?_, hwait', hnb'.trans hqnb⟩
    rw [exec_append, hrun, Option.bind_some, exec_cons, hwake, Option.bind_some, exec_cons, hr]
    rfl

end Sleeps

/-- Whenever the process is about to sleep, in any run from its start, the sleep is defined. -/
def SleepsDefined (ntr : ℕ) (c : Config) (waitDefaultTime : ℕ) : Prop :=
  ∀ (hntr : 0 < ntr) dial (p₀ : Proc ntr) actions, automatonInit c dial hntr = some (p₀, actions) →
    ∀ es p, exec (backoffStep c waitDefaultTime) p₀ es = some p → p.automatonState = .wait →
      SleepDefined p.waitNb waitDefaultTime

theorem trInit_time_pos (waitNb waitTime : Int32) :
    0 < (trInit waitNb waitTime).waitDefaultTime := by
  simp only [trInit, Waits.initial]
  split <;> omega

/-- **Back-off.** All sleeps are defined exactly when the last one that `waitNbMax` allows
is. -/
theorem sleeps_defined_iff (hntr : 0 < ntr) (waitNb waitTime : Int32) (rank : Fin np)
    (wagonMaxLen : ℕ) :
    SleepsDefined ntr ⟨rankToAddr rank.val, (trInit waitNb waitTime).waitNbMax, wagonMaxLen⟩
        (trInit waitNb waitTime).waitDefaultTime ↔
      2 ^ (trInit waitNb waitTime).waitNbMax * (trInit waitNb waitTime).waitDefaultTime ≤ 2147 := by
  have hpos := trInit_time_pos waitNb waitTime
  generalize trInit waitNb waitTime = waits at *
  constructor
  · intro hall
    obtain ⟨p₀, actions, hinit, hstart, hzero⟩ := offlineInit_answered
      (c := ⟨rankToAddr rank.val, waits.waitNbMax, wagonMaxLen⟩) rank rfl
      (Proc.initial ⟨rankToAddr rank.val, waits.waitNbMax, wagonMaxLen⟩ hntr)
    have hdefined : ∀ k ≤ waits.waitNbMax, SleepDefined k waits.waitDefaultTime := by
      intro k
      induction k using Nat.strong_induction_on with
      | _ k ih =>
        intro hk
        obtain ⟨es, p, hrun, hwait, rfl⟩ := sleeps_run
          (c := ⟨rankToAddr rank.val, waits.waitNbMax, wagonMaxLen⟩) rank rfl hstart hzero hk
          fun j hj => ih j hj (Nat.le_of_lt hj |>.trans hk)
        exact hall hntr (fun _ => true) p₀ actions hinit es p hrun hwait
    exact (sleepDefined_iff hpos).mp (hdefined _ (Nat.le_refl _))
  · intro hle hntr' dial p₀ actions hinit es p hrun hwait
    have hwithin : WithinMax ⟨rankToAddr rank.val, waits.waitNbMax, wagonMaxLen⟩ p :=
      exec_invariant (fun _ _ _ => backoffStep_withinMax) (offlineInit_withinMax hinit) hrun
    have hnb : p.waitNb ≤ waits.waitNbMax := hwithin hwait
    rw [sleepDefined_iff hpos]
    exact (Nat.mul_le_mul_right _ (Nat.pow_le_pow_right (by decide) hnb)).trans hle

/-- The default values are safe. -/
theorem sleeps_defined_default :
    SleepsDefined 1 ⟨rankToAddr 0, (trInit 0 0).waitNbMax, 32⟩ (trInit 0 0).waitDefaultTime :=
  (sleeps_defined_iff Nat.one_pos 0 0 0 32).mpr (by decide)

/-- With `waitTime` one second, in the microseconds of the documentation, and `waitNb` its
default value, the first sleep overflows. -/
theorem not_sleeps_defined :
    ¬ SleepsDefined 1 ⟨rankToAddr 0, (trInit 0 1000000).waitNbMax, 32⟩
      (trInit 0 1000000).waitDefaultTime := by
  intro hall
  have hrank : rankToAddr 0 = rankToAddr (0 : Fin np).val := rfl
  obtain ⟨p₀, actions, hinit, hstart, hzero⟩ :=
    @offlineInit_answered 1 ⟨rankToAddr 0, (trInit 0 1000000).waitNbMax, 32⟩ 0 hrank
      (Proc.initial ⟨rankToAddr 0, (trInit 0 1000000).waitNbMax, 32⟩ Nat.one_pos)
  obtain ⟨es, p, hrun, hwait, hnb⟩ :=
    @sleeps_run 1 ⟨rankToAddr 0, (trInit 0 1000000).waitNbMax, 32⟩
      (trInit 0 1000000).waitDefaultTime 0 hrank p₀ hstart hzero 0 (Nat.zero_le _)
      (fun j hj => absurd hj (Nat.not_lt_zero j))
  have hsleep := hall Nat.one_pos (fun _ => true) p₀ actions hinit es p hrun hwait
  rw [hnb, sleepDefined_iff (by decide)] at hsleep
  revert hsleep
  decide

end UniformBroadcast.Trains.Backoff
