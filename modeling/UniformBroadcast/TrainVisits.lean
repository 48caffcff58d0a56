import UniformBroadcast.Draining
import UniformBroadcast.TrainRing
import Mathlib.Algebra.BigOperators.Fin

/-!
# A process over its visits

A process of a ring handles the trains `0, 1, .., ntr - 1, 0, 1, ..` in turn. After its
first `T` visits the three lists of a train hold what was recorded at its last two
visits, and what was recorded before has been delivered, visit after visit.
-/

namespace UniformBroadcast.Trains

open LapSchedule Draining

variable {n ntr : ℕ}

/-- The train of visit `t`. -/
def trainId (hntr : 0 < ntr) (t : ℕ) : Fin ntr := ⟨t % ntr, Nat.mod_lt t hntr⟩

/-- The round of visit `t`, where the first lap of each train has the round `b`. -/
def roundAt (hntr : 0 < ntr) (b : Fin ntr → Fin nr) (t : ℕ) : Fin nr :=
  ⟨((b (trainId hntr t)).val + t / ntr) % nr, Nat.mod_lt _ (by decide)⟩

/-- How many copies of `w` are unstable. -/
def unstableCount (w : Wagon) (unstable : Fin ntr → Fin nr → List Wagon) : ℕ :=
  ∑ id, ∑ round, (unstable id round).count w

/-- The process has made `T` visits, and recorded `S t` at visit `t`. -/
structure Visits (hntr : 0 < ntr) (b r₀ : Fin ntr → Fin nr) (circuit : Address) (T : ℕ)
    (S : ℕ → List Wagon) (p : Proc ntr) : Prop where
  lis : idPlus p.lis 1 = trainId hntr T
  circuit : 0 < T → (p.lts ⟨0, hntr⟩).circuit = circuit
  round_new : ∀ id : Fin ntr, T ≤ id.val → (p.lts id).stamp.round = r₀ id
  round_last : ∀ t < T, T ≤ t + ntr → (p.lts (trainId hntr t)).stamp.round = roundAt hntr b t
  unstable_new : ∀ id : Fin ntr, T ≤ id.val → ∀ round, p.unstableWagons id round = []
  unstable_last : ∀ t < T, T ≤ t + ntr →
    p.unstableWagons (trainId hntr t) (roundAt hntr b t) = S t
  unstable_previous : ∀ t < T, T ≤ t + ntr →
    p.unstableWagons (trainId hntr t) (roundAt hntr b t - 1) = if t < ntr then [] else S (t - ntr)
  unstable_empty : ∀ t < T, T ≤ t + ntr →
    p.unstableWagons (trainId hntr t) (roundAt hntr b t + 1) = []
  delivered : p.wagonsToDeliver = upTo S (T - 2 * ntr)
  counted : ∀ w, p.wagonsToDeliver.count w + unstableCount w p.unstableWagons = (upTo S T).count w

section Arithmetic

variable {hntr : 0 < ntr} {b : Fin ntr → Fin nr}

theorem trainId_add (t : ℕ) : trainId hntr (t + ntr) = trainId hntr t := by
  simp [trainId]

theorem trainId_of_lt {t : ℕ} (h : t < ntr) : trainId hntr t = ⟨t, h⟩ := by
  simp [trainId, Nat.mod_eq_of_lt h]

theorem roundAt_add (t : ℕ) : roundAt hntr b (t + ntr) = roundAt hntr b t + 1 := by
  have hdiv : (t + ntr) / ntr = t / ntr + 1 := Nat.add_div_right t hntr
  ext
  simp only [roundAt, trainId_add, hdiv, Fin.val_add]
  change ((b (trainId hntr t)).val + (t / ntr + 1)) % 3 =
    (((b (trainId hntr t)).val + t / ntr) % 3 + 1) % 3
  omega

theorem roundAt_of_lt {t : ℕ} (h : t < ntr) : roundAt hntr b t = b ⟨t, h⟩ := by
  have hb := (b ⟨t, h⟩).isLt
  ext
  simp only [roundAt, trainId_of_lt h, Nat.div_eq_of_lt h, Nat.add_zero]
  exact Nat.mod_eq_of_lt hb

/-- Two visits less than a lap apart are of different trains. -/
theorem trainId_ne {t t' : ℕ} (h : t' < t) (hlap : t < t' + ntr) :
    trainId hntr t' ≠ trainId hntr t := by
  intro heq
  have hmod : t' % ntr = t % ntr := congrArg Fin.val heq
  have hsub : (t - t') % ntr = 0 := Nat.sub_mod_eq_zero_of_mod_eq hmod.symm
  rw [Nat.mod_eq_of_lt (by omega)] at hsub
  omega

theorem idPlus_trainId (t : ℕ) : idPlus (trainId hntr t) 1 = trainId hntr (t + 1) := by
  ext
  simp [idPlus, trainId]

end Arithmetic

/-! ## Counting -/

/-- Clearing one list of a train and appending to another that is empty. -/
theorem unstableCount_update (w : Wagon) (unstable : Fin ntr → Fin nr → List Wagon) (id : Fin ntr)
    {r r' : Fin nr} (hne : r' ≠ r) (hempty : unstable id r = []) (l : List Wagon) :
    unstableCount w (setAt unstable id
        (Function.update (Function.update (unstable id) r' []) r l)) + (unstable id r').count w =
      unstableCount w unstable + l.count w := by
  have h₁ := sum_update_add (fun f : Fin nr → List Wagon => ∑ round, (f round).count w) unstable id
    (Function.update (Function.update (unstable id) r' []) r l)
  have h₂ := sum_update_add (fun l : List Wagon => l.count w)
    (Function.update (unstable id) r' []) r l
  have h₃ := sum_update_add (fun l : List Wagon => l.count w) (unstable id) r' []
  rw [Function.update_of_ne hne.symm, hempty] at h₂
  simp only [List.count_nil, Nat.add_zero] at h₂ h₃
  simp only [unstableCount, setAt]
  omega

/-! ## One more visit -/

section Handle

variable {hntr : 0 < ntr} {b r₀ : Fin ntr → Fin nr} {circuit : Address} {T : ℕ}
  {S S' : ℕ → List Wagon} {p q : Proc ntr}

theorem Visits.congr (h : Visits hntr b r₀ circuit T S p) (hS : ∀ t < T, S' t = S t) :
    Visits hntr b r₀ circuit T S' p where
  lis := h.lis
  circuit := h.circuit
  round_new := h.round_new
  round_last := h.round_last
  unstable_new := h.unstable_new
  unstable_last t ht hlap := (h.unstable_last t ht hlap).trans (hS t ht).symm
  unstable_previous t ht hlap := by
    rw [h.unstable_previous t ht hlap]
    split
    · rfl
    · exact (hS _ (by omega)).symm
  unstable_empty := h.unstable_empty
  delivered := h.delivered.trans (upTo_congr fun t ht => (hS t (by omega)).symm)
  counted w := (h.counted w).trans (by rw [upTo_congr hS])

/-- The lists of a train when its next visit begins. -/
theorem Visits.lists (h : Visits hntr b r₀ circuit T S p) :
    p.unstableWagons (trainId hntr T) (roundAt hntr b T) = [] ∧
    p.unstableWagons (trainId hntr T) (roundAt hntr b T - 1) =
      (if T < ntr then [] else S (T - ntr)) ∧
    p.unstableWagons (trainId hntr T) (roundAt hntr b T - 2) =
      if T < 2 * ntr then [] else S (T - 2 * ntr) := by
  rcases Nat.lt_or_ge T ntr with hT | hT
  · have hnew := h.unstable_new (trainId hntr T) (by rw [trainId_of_lt hT])
    refine ⟨hnew _, ?_, ?_⟩
    · rw [if_pos hT, hnew]
    · rw [if_pos (by omega), hnew]
  · obtain ⟨t, rfl⟩ := Nat.exists_eq_add_of_le' hT
    have hround : ∀ r : Fin nr, r + 1 - 1 = r ∧ r + 1 - 2 = r - 1 := by decide
    obtain ⟨hsub₁, hsub₂⟩ := hround (roundAt hntr b t)
    rw [trainId_add, roundAt_add, hsub₁, hsub₂]
    refine ⟨h.unstable_empty t (by omega) (Nat.le_refl _), ?_, ?_⟩
    · rw [if_neg (by omega), Nat.add_sub_cancel]
      exact h.unstable_last t (by omega) (Nat.le_refl _)
    · rw [h.unstable_previous t (by omega) (Nat.le_refl _)]
      rcases Nat.lt_or_ge t ntr with ht | ht
      · rw [if_pos ht, if_pos (by omega)]
      · rw [if_neg (by omega), if_neg (by omega)]
        congr 1
        omega

/-- A train of the round `arriving` is handled under the round of the visit: the process
advances the round when it finds its own again. -/
theorem Visits.nextRound_eq (h : Visits hntr b r₀ circuit T S p) {st : Stamp ntr}
    (hid : st.id = trainId hntr T)
    (hround : st.round = roundAt hntr b T ∨ T < ntr ∧ st.round = r₀ st.id ∨
      ntr ≤ T ∧ st.round = roundAt hntr b (T - ntr))
    (hfirst : T < ntr → st.round = r₀ st.id → b st.id = st.round + 1) :
    nextRound st p.lts = roundAt hntr b T := by
  have hne : ∀ r : Fin nr, r + 1 ≠ r := by decide
  rw [nextRound]
  rcases Nat.lt_or_ge T ntr with hT | hT
  · have hval : T ≤ st.id.val := by rw [hid, trainId_of_lt hT]
    have hbT : roundAt hntr b T = b st.id := by rw [roundAt_of_lt hT, hid, trainId_of_lt hT]
    rw [h.round_new st.id hval]
    by_cases heq : st.round = r₀ st.id
    · rw [if_pos heq, hbT, hfirst hT heq]
    · rw [if_neg heq]
      rcases hround with hr | ⟨-, hr⟩ | ⟨hge, -⟩
      · exact hr
      · exact absurd hr heq
      · omega
  · obtain ⟨t, rfl⟩ := Nat.exists_eq_add_of_le' hT
    rw [hid, trainId_add, h.round_last t (by omega) (Nat.le_refl _)]
    rw [roundAt_add] at hround ⊢
    rw [Nat.add_sub_cancel] at hround
    rcases hround with hr | ⟨hlt, -⟩ | ⟨-, hr⟩
    · rw [if_neg (by rw [hr]; exact hne _), hr]
    · omega
    · rw [if_pos hr, hr]

theorem Visits.handle (h : Visits hntr b r₀ circuit T S p) (hS : ∀ t < T, S' t = S t)
    {l : Lts ntr} (hround : l.stamp.round = roundAt hntr b T) (hcircuit : l.circuit = circuit)
    (hlis : q.lis = trainId hntr T) (hlts : q.lts = setAt p.lts (trainId hntr T) l)
    (hunstable : q.unstableWagons = setAt p.unstableWagons (trainId hntr T)
      (Function.update (Function.update (p.unstableWagons (trainId hntr T))
        (roundAt hntr b T - 2) []) (roundAt hntr b T) (S' T)))
    (hdelivered : q.wagonsToDeliver = p.wagonsToDeliver ++
      p.unstableWagons (trainId hntr T) (roundAt hntr b T - 2)) :
    Visits hntr b r₀ circuit (T + 1) S' q := by
  obtain ⟨hnow, hprevious, hstable⟩ := h.lists
  have hne : ∀ r : Fin nr, r - 2 ≠ r ∧ r - 1 ≠ r ∧ r - 1 ≠ r - 2 ∧ r + 1 = r - 2 := by decide
  obtain ⟨hne₂, hne₁, hne₁₂, hplus⟩ := hne (roundAt hntr b T)
  -- the other trains are as they were
  have hother : ∀ t < T, T + 1 ≤ t + ntr →
      q.lts (trainId hntr t) = p.lts (trainId hntr t) ∧
      q.unstableWagons (trainId hntr t) = p.unstableWagons (trainId hntr t) := by
    intro t ht hlap
    have hid : trainId hntr t ≠ trainId hntr T := trainId_ne ht hlap
    rw [hlts, hunstable]
    exact ⟨Function.update_of_ne hid _ _, Function.update_of_ne hid _ _⟩
  have hnew : ∀ id : Fin ntr, T + 1 ≤ id.val → id ≠ trainId hntr T := by
    intro id hid heq
    have hlt := id.isLt
    rw [heq, trainId_of_lt (by omega)] at hid
    exact Nat.not_succ_le_self T hid
  constructor
  case lis => rw [hlis, idPlus_trainId]
  case circuit =>
    intro _
    rw [hlts]
    by_cases hzero : (⟨0, hntr⟩ : Fin ntr) = trainId hntr T
    · rw [hzero, setAt, Function.update_self, hcircuit]
    · rw [setAt, Function.update_of_ne hzero]
      refine h.circuit (Nat.pos_of_ne_zero fun hT => hzero ?_)
      rw [hT, trainId_of_lt hntr]
  case round_new =>
    intro id hid
    rw [hlts, setAt, Function.update_of_ne (hnew id hid)]
    exact h.round_new id (by omega)
  case round_last =>
    intro t ht hlap
    rcases Nat.lt_succ_iff_lt_or_eq.mp ht with ht | rfl
    · rw [(hother t ht hlap).1]
      exact h.round_last t ht (by omega)
    · rw [hlts, setAt, Function.update_self, hround]
  case unstable_new =>
    intro id hid round
    rw [hunstable, setAt, Function.update_of_ne (hnew id hid)]
    exact h.unstable_new id (by omega) round
  case unstable_last =>
    intro t ht hlap
    rcases Nat.lt_succ_iff_lt_or_eq.mp ht with ht | rfl
    · rw [(hother t ht hlap).2, hS t ht]
      exact h.unstable_last t ht (by omega)
    · rw [hunstable, setAt, Function.update_self, Function.update_self]
  case unstable_previous =>
    intro t ht hlap
    rcases Nat.lt_succ_iff_lt_or_eq.mp ht with ht | rfl
    · rw [(hother t ht hlap).2, h.unstable_previous t ht (by omega)]
      split
      · rfl
      · exact (hS _ (by omega)).symm
    · rw [hunstable, setAt, Function.update_self, Function.update_of_ne hne₁,
        Function.update_of_ne hne₁₂, hprevious]
      split
      · rfl
      · exact (hS _ (by omega)).symm
  case unstable_empty =>
    intro t ht hlap
    rcases Nat.lt_succ_iff_lt_or_eq.mp ht with ht | rfl
    · rw [(hother t ht hlap).2]
      exact h.unstable_empty t ht (by omega)
    · rw [hunstable, setAt, Function.update_self, hplus, Function.update_of_ne hne₂,
        Function.update_self]
  case delivered =>
    rw [hdelivered, h.delivered, hstable]
    rcases Nat.lt_or_ge T (2 * ntr) with hT | hT
    · rw [if_pos hT, Nat.sub_eq_zero_of_le (Nat.le_of_lt hT), Nat.sub_eq_zero_of_le hT]
      rfl
    · rw [if_neg (by omega), Nat.succ_sub hT, upTo_succ, hS _ (by omega)]
      congr 1
      exact upTo_congr fun t ht => (hS t (by omega)).symm
  case counted =>
    intro w
    have hold := h.counted w
    have hupdate := unstableCount_update w p.unstableWagons (trainId hntr T) hne₂ hnow (S' T)
    have hcongr : upTo S' T = upTo S T := upTo_congr hS
    rw [hdelivered, hunstable, upTo_succ, List.count_append, List.count_append, hcongr]
    omega

end Handle

end UniformBroadcast.Trains
