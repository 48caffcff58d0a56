import UniformBroadcast.TrainRingDelivery

/-!
# The order of delivery in the ring

A process records all that a train brings under the round it gives the train, although a
wagon put on before the train last passed process `0` carries the round before. With
several trains the rounds of different trains are then delivered in different orders,
unless no process ever records such wagons while other trains have brought it wagons of
their own round.
-/

namespace UniformBroadcast.Trains

open LapSchedule TransitionRuns

variable {n ntr : ℕ} {C : Members n} {hntr : 0 < ntr} {r₀ ρ : Fin ntr → Fin nr} {s s' : Ring n ntr}

/-- The non-empty wagons that a process has delivered. -/
def Ring.delivered (s : Ring n ntr) (p : Fin n) : List Wagon :=
  (s.procs p).wagonsToDeliver.filter fun w => (firstMsg w).isSome

/-- Of the sequences delivered by two processes one is a prefix of the other. -/
def TotalOrder (s : Ring n ntr) : Prop := ∀ p q,
  s.delivered p <+: s.delivered q ∨ s.delivered q <+: s.delivered p

/-- The process records a wagon of another round than the one it gives the train. -/
def BringsPrevious (myAddress : Address) (t : Train ntr) (p : Proc ntr) : Prop :=
  ∃ w ∈ t.wagons, isRecorded myAddress t.circuit 0#16 w = true ∧ w.round ≠ nextRound t.stamp p.lts

/-- The list being filled of a train holds a wagon of the round it is filled for. -/
def HoldsCurrent (p : Proc ntr) (id : Fin ntr) : Prop :=
  ∃ w ∈ p.unstableWagons id (p.lts id).stamp.round, w.round = (p.lts id).stamp.round

instance (myAddress : Address) (t : Train ntr) (p : Proc ntr) :
    Decidable (BringsPrevious myAddress t p) := inferInstanceAs (Decidable (∃ w ∈ t.wagons, _))

instance (p : Proc ntr) (id : Fin ntr) : Decidable (HoldsCurrent p id) :=
  inferInstanceAs (Decidable (∃ w ∈ p.unstableWagons id _, _))

/-- The condition on the steps: a process that accepts a train with wagons of the lap
before holds no wagon of the current round of another train. -/
def InRounds (C : Members n) (s : Ring n ntr) : Event n → Prop
  | .broadcast _ _ => True
  | .handle i =>
    match s.links i with
    | .train st circuit (some wagons) :: _ =>
      isRecentTrain st (s.procs i).lts (s.procs i).lis = true →
      BringsPrevious (C.addr i) ⟨st, circuit, wagons⟩ (s.procs i) →
      ∀ id, id ≠ st.id → ¬ HoldsCurrent (s.procs i) id
    | _ => True

instance (C : Members n) (s : Ring n ntr) (e : Event n) : Decidable (InRounds C s e) := by
  unfold InRounds
  split
  · infer_instance
  · split <;> infer_instance

/-- Process `i` has never recorded wagons of the lap before on a train after those of the
current lap on another. -/
def Ring.Separate (s : Ring n ntr) (i : Fin n) : Prop := ∀ t t', t < t' → t' < t + ntr →
  t' < s.visits i → LapSchedule.fresh s.slot i t = [] ∨ stale n ntr s.slot i t' = []

/-! ## The laps seen -/

section Steps

/-- The wagons of a visit that carry its round are those of the current lap. -/
theorem Inv.round_fresh (hs : Inv C hntr r₀ ρ s) {i t : ℕ} {w : Wagon} (hw : w ∈ fresh s.slot i t) :
    w.round = roundAt hntr (firstRound r₀ ρ) t := by
  obtain ⟨j, -, hw⟩ := List.mem_flatMap.mp hw
  obtain ⟨hj, hw⟩ := mem_slot hw
  exact (hs.slots _ t w hw).2.1

theorem Inv.round_stale (hs : Inv C hntr r₀ ρ s) {i t : ℕ} {w : Wagon}
    (hw : w ∈ stale n ntr s.slot i t) : w.round ≠ roundAt hntr (firstRound r₀ ρ) t := by
  have hne : ∀ r : Fin nr, r ≠ r + 1 := by decide
  obtain ⟨j, -, hw⟩ := List.mem_flatMap.mp hw
  rw [previous] at hw
  split at hw
  · cases hw
  · rename_i hge
    obtain ⟨t, rfl⟩ := Nat.exists_eq_add_of_le' (Nat.le_of_not_lt hge)
    rw [Nat.add_sub_cancel] at hw
    obtain ⟨hj, hw⟩ := mem_slot hw
    rw [(hs.slots _ t w hw).2.1, roundAt_add]
    exact hne _

theorem fresh_stable (hs : Inv C hntr r₀ ρ s) (hput : ∀ i, s.put i <+: s'.put i) {i : Fin n} {t : ℕ}
    (ht : t < s.visits i) : fresh s'.slot i t = fresh s.slot i t := by
  refine List.flatMap_congr fun j hj => ?_
  rw [List.mem_range] at hj
  have hji : s.visits i ≤ s.visits ⟨j, by omega⟩ :=
    hs.visits_anti (by simpa using Nat.le_of_lt_succ hj)
  exact slot_congr hput (i := ⟨j, by omega⟩) (ht.trans_le hji)

theorem stale_stable (hs : Inv C hntr r₀ ρ s) (hput : ∀ i, s.put i <+: s'.put i) {i : Fin n} {t : ℕ}
    (ht : t < s.bound i) : stale n ntr s'.slot i t = stale n ntr s.slot i t := by
  refine stale_congr fun j hj hij hle => ?_
  have hlt := ht.trans_le (hs.bound_le i ⟨j, hj⟩)
  exact slot_congr hput (i := ⟨j, hj⟩) (by omega)

/-- The condition on a step says that the train accepted keeps the process separate. -/
theorem Inv.separate_visit (hs : Inv C hntr r₀ ρ s) {i : Fin n} {lc : BitVec 8}
    (hok : BringsPrevious (C.addr i) ⟨s.stampOf i lc hntr r₀ ρ, C.circuit, s.aboard i (s.visits i)⟩
      (s.procs i) → ∀ id, id ≠ trainId hntr (s.visits i) → ¬ HoldsCurrent (s.procs i) id)
    {t : ℕ} (ht : t < s.visits i) (hlap : s.visits i < t + ntr) :
    fresh s.slot i t = [] ∨ stale n ntr s.slot i (s.visits i) = [] := by
  cases hstale : stale n ntr s.slot i (s.visits i) with
  | nil => exact .inr rfl
  | cons w l =>
    left
    have hw : w ∈ stale n ntr s.slot i (s.visits i) := hstale ▸ List.mem_cons_self
    have haboard : w ∈ s.aboard i (s.visits i) := List.mem_append_left _ hw
    have hbrings : BringsPrevious (C.addr i) ⟨s.stampOf i lc hntr r₀ ρ, C.circuit,
        s.aboard i (s.visits i)⟩ (s.procs i) := by
      refine ⟨w, haboard, isRecorded_of_mem_aboard hs.slots haboard, ?_⟩
      rw [hs.nextRound]
      exact hs.round_stale hw
    have hnone := hok hbrings (trainId hntr t) (trainId_ne ht hlap)
    rw [List.eq_nil_iff_forall_not_mem]
    intro w' hw'
    refine hnone ⟨w', ?_, ?_⟩
    · rw [(hs.visits i).round_last t ht (by omega), (hs.visits i).unstable_last t ht (by omega)]
      exact List.mem_append_right _ hw'
    · rw [(hs.visits i).round_last t ht (by omega)]
      exact hs.round_fresh hw'

theorem Ring.Separate.congr (hs : Inv C hntr r₀ ρ s) (hput : ∀ i, s.put i <+: s'.put i) {i : Fin n}
    (hvisits : s'.visits i = s.visits i) (h : s.Separate i) : s'.Separate i := by
  intro t t' ht hlap ht'
  rw [hvisits] at ht'
  rw [fresh_stable hs hput (ht.trans ht'), stale_stable hs hput (ht'.trans_le (hs.behind i))]
  exact h t t' ht hlap ht'

theorem separate_step (hn : 2 ≤ n) {e : Event n} (hs : Inv C hntr r₀ ρ s)
    (hsep : ∀ i, s.Separate i) (hok : InRounds C s e) (h : step C s e = some s') :
    ∀ i, s'.Separate i := by
  cases e with
  | broadcast i mp =>
    obtain ⟨p, hp, rfl⟩ := Option.map_eq_some_iff.mp h
    exact hsep
  | handle i =>
    cases hlink : s.links i with
    | nil => simp [step, hlink] at h
    | cons m rest =>
      rcases hs.handle_cases hn hlink with hstep | ⟨lc, rfl, hrecent, hstep, hlt, -⟩
      · obtain rfl := Option.some.inj (hstep.symm.trans h)
        have hput : (s.after i rest (s.procs i, [])).put = s.put := by
          funext j
          rcases eq_or_ne j i with rfl | hj
          · rw [after_put_self]
            exact List.append_nil _
          · rw [after_put_of_ne _ _ _ _ _ hj]
        intro j
        refine Ring.Separate.congr hs (fun k => ?_) ?_ (hsep j)
        · rw [hput]
        · rw [Ring.visits, hput, Ring.visits]
      · obtain rfl := Option.some.inj (hstep.symm.trans h)
        obtain ⟨hi, hother⟩ := hs.accepted_put hn i lc rest
        have hput := put_grows hi hother
        intro j
        rcases eq_or_ne j i with rfl | hj
        · intro t t' ht hlap ht'
          rw [visits_put hi hother, if_pos rfl] at ht'
          simp only [InRounds, hlink] at hok
          rcases Nat.lt_succ_iff_lt_or_eq.mp ht' with ht' | rfl
          · rw [fresh_stable hs hput (ht.trans ht'), stale_stable hs hput (ht'.trans hlt)]
            exact hsep j t t' ht hlap ht'
          · rw [fresh_stable hs hput ht, stale_stable hs hput hlt]
            exact hs.separate_visit (hok hrecent) ht hlap
        · refine Ring.Separate.congr hs hput ?_ (hsep j)
          rw [visits_put hi hother, if_neg hj]

end Steps

/-! ## The order -/

/-- A process that is separate has delivered a prefix of the laps. -/
theorem Inv.delivered_le (hs : Inv C hntr r₀ ρ s) {i : Fin n} (h : s.Separate i) :
    (s.procs i).wagonsToDeliver <+: upTo (lap n s.slot) (s.visits i - 2 * ntr) := by
  have hlap : upTo (lap n s.slot) (s.visits i - 2 * ntr) =
      upTo (fun t => fresh s.slot i t ++ stale n ntr s.slot i (t + ntr)) (s.visits i - 2 * ntr) :=
    upTo_congr fun t _ => lap_eq i.isLt t
  have hseen := @upTo_seen_append_stale _ n ntr s.slot hntr i (s.visits i - 2 * ntr)
    fun t ht t' htt' hlap => h t t' htt' hlap (by omega)
  rw [(hs.visits i).delivered, hlap, ← hseen]
  exact List.prefix_append _ _

theorem Inv.totalOrder (hs : Inv C hntr r₀ ρ s) (h : ∀ i, s.Separate i) : TotalOrder s := by
  intro p q
  let d := max (s.visits p - 2 * ntr) (s.visits q - 2 * ntr)
  have hp : (s.procs p).wagonsToDeliver <+: upTo (lap n s.slot) d :=
    (hs.delivered_le (h p)).trans (upTo_mono _ (le_max_left _ _))
  have hq : (s.procs q).wagonsToDeliver <+: upTo (lap n s.slot) d :=
    (hs.delivered_le (h q)).trans (upTo_mono _ (le_max_right _ _))
  rcases List.prefix_or_prefix_of_prefix hp hq with hpq | hqp
  · exact .inl (hpq.filter _)
  · exact .inr (hqp.filter _)

/-- **Total order.** Along the runs whose every step meets `InRounds`, the processes have
delivered the non-empty wagons in total order. -/
theorem trains_total_order {hn : 2 ≤ n} {s₀ : Ring n ntr} {es : List (Event n)} (hntr : 0 < ntr)
    (hfresh : Fresh C hn s₀) (hok : Along (step C) (InRounds C) s₀ es)
    (h : exec (step C) s₀ es = some s) : TotalOrder s := by
  obtain ⟨r₀, ρ, hs₀⟩ := inv_fresh hntr hfresh
  have hsep₀ : ∀ i, s₀.Separate i := by
    intro i t t' _ _ ht'
    rw [Ring.visits, hfresh.put i] at ht'
    exact absurd ht' (Nat.not_lt_zero t')
  have hstep : ∀ s e s', (Inv C hntr r₀ ρ s ∧ ∀ i, s.Separate i) → InRounds C s e →
      step C s e = some s' → Inv C hntr r₀ ρ s' ∧ ∀ i, s'.Separate i := by
    intro s e s' hs hok hstep
    exact ⟨inv_step hn hs.1 hstep, separate_step hn hs.1 hs.2 hok hstep⟩
  obtain ⟨hs, hsep⟩ := exec_invariant_along hstep ⟨hs₀, hsep₀⟩ hok h
  exact hs.totalOrder hsep

theorem trains_total_order_twoSenders : TotalOrder
    ((runFresh (Members.ofRanks 2 (by decide) 0 64) Nat.two_pos
      (twoSenders 0 1 ⟨amBroadcast, [5#8]⟩ ⟨amBroadcast, [6#8]⟩)).get (by decide)) :=
  trains_total_order Nat.two_pos (fresh_fresh _ (Nat.le_refl 2) _) (by decide)
    (Option.some_get _).symm

/-- With two trains: process `i` puts its message on the second train, process `j` its own
on the first when `i` has already seen that one. -/
def overtaking (i j : Fin n) (mp mp' : Message) : List (Event n) :=
  [.handle i, .broadcast i mp, .handle i, .broadcast j mp'] ++
    (List.replicate 2 [.handle j, .handle j, .handle i, .handle i]).flatten ++
    [.handle j, .handle j]

/-- Each process has delivered one message first, and not the same. -/
theorem not_trains_total_order : ¬ ∀ n ntr (C : Members n) (hn : 2 ≤ n) (s₀ : Ring n ntr)
    (es : List (Event n)) (s : Ring n ntr), n ≤ np → 0 < ntr → ntr ≤ maxNtr → Fresh C hn s₀ →
    exec (step C) s₀ es = some s → TotalOrder s := by
  intro h
  have hs := h 2 2 (Members.ofRanks 2 (by decide) 0 64) (Nat.le_refl 2) _
    (overtaking 0 1 ⟨amBroadcast, [5#8]⟩ ⟨amBroadcast, [6#8]⟩)
    ((runFresh (Members.ofRanks 2 (by decide) 0 64) Nat.two_pos
      (overtaking 0 1 ⟨amBroadcast, [5#8]⟩ ⟨amBroadcast, [6#8]⟩)).get (by decide))
    (by decide) Nat.two_pos (by decide) (fresh_fresh _ (Nat.le_refl 2) _) (Option.some_get _).symm
  have hpq := hs 0 1
  revert hpq
  decide

end UniformBroadcast.Trains
