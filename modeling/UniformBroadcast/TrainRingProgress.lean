import UniformBroadcast.TrainRingDelivery
import UniformBroadcast.TrainRingTraffic

/-!
# Delivery in bounded time

A message that a process is given leaves with the next train it handles and is delivered by each
process three laps later. As the processes are never more than a lap apart, a bound on the trains
treated by all of them together is enough: nothing has to be assumed of the schedule.
-/

namespace UniformBroadcast.Trains

open LapSchedule TransitionRuns

variable {n ntr : ℕ} {C : Members n} {hntr : 0 < ntr} {r₀ ρ : Fin ntr → Fin nr}
  {c₀ : Fin ntr → ℕ} {s s' : Ring n ntr}

/-- The message that an event gives to process `q`. -/
def Event.givenTo (q : Fin n) : Event n → List Message
  | .broadcast i mp => if i = q then [mp] else []
  | .handle _ => []

namespace Ring

/-- The messages on the first `d` trains that process `q` has handled. -/
def placed (s : Ring n ntr) (q : Fin n) (d : ℕ) : List Message :=
  ((s.put q).take d).reduceOption.flatMap Wagon.msgs

/-- The messages that process `q` has been given: on its trains, then in its next wagon. -/
def given (s : Ring n ntr) (q : Fin n) : List Message :=
  (s.put q).reduceOption.flatMap Wagon.msgs ++ (s.procs q).wagonToSend.msgs

/-- The messages of process `q` that process `p` has delivered. -/
def deliveredOf (s : Ring n ntr) (C : Members n) (p q : Fin n) : List Message :=
  ((s.procs p).wagonsToDeliver.filter (·.sender = C.addr q)).flatMap Wagon.msgs

theorem placed_mono (s : Ring n ntr) (q : Fin n) {d d' : ℕ} (h : d ≤ d') :
    s.placed q d <+: s.placed q d' := by
  obtain ⟨k, hk⟩ := reduceOption_take ((s.put q).take d') d
  rw [List.take_take, Nat.min_eq_left h] at hk
  rw [placed, placed, ← hk, List.flatMap_append]
  exact List.prefix_append _ _

theorem placed_le_given (s : Ring n ntr) (q : Fin n) (d : ℕ) : s.placed q d <+: s.given q := by
  obtain ⟨k, hk⟩ := reduceOption_take (s.put q) d
  rw [placed, given, ← hk, List.flatMap_append, List.append_assoc]
  exact List.prefix_append _ _

theorem placed_congr {q : Fin n} {d : ℕ} (hput : s.put q <+: s'.put q) (h : d ≤ s.visits q) :
    s'.placed q d = s.placed q d := by
  obtain ⟨l, hl⟩ := hput
  rw [placed, placed, ← hl, List.take_append_of_le_length h]

end Ring

/-! ## What becomes of the messages given -/

section Given

theorem trainHandling_wagonToSend_steady {my : Address} {t : Train ntr} {p : Proc ntr}
    (hcame : p.cameProc = 0#16) (hgone : p.goneProc = 0#16) :
    (trainHandling my t p).wagonToSend =
      if (firstMsg p.wagonToSend).isSome then newWiw my else p.wagonToSend := by
  simp only [trainHandling, updateCircuit_steady hcame hgone]

/-- The messages of the next wagon are those of the wagon put on the train. -/
theorem msgs_ownWagon (my : Address) (round : Fin nr) (p : Proc ntr) :
    (ownWagon round p).toList.flatMap Wagon.msgs ++
      (if (firstMsg p.wagonToSend).isSome then newWiw my else p.wagonToSend).msgs =
        p.wagonToSend.msgs := by
  rw [ownWagon]
  by_cases hfull : (firstMsg p.wagonToSend).isSome
  · simp [hfull, newWiw]
  · have hnil : p.wagonToSend.msgs = [] := by
      by_contra hne
      exact hfull ((firstMsg_isSome_iff _).mpr hne)
    simp [hfull, hnil]

variable (hn : 2 ≤ n) (hnp : n ≤ np)

include hn in
/-- The process that handles a train puts on it all that it has been given. -/
theorem Inv.given_accepted (hs : Inv C hntr r₀ ρ s) (i : Fin n) (lc : BitVec 8)
    (rest : List (Msg ntr)) (q : Fin n) :
    (s.accepted i lc C hntr r₀ ρ rest).given q = s.given q ∧
    (q = i → (s.accepted i lc C hntr r₀ ρ rest).placed q (s.visits q + 1) = s.given q) := by
  obtain ⟨hi, hother⟩ := hs.accepted_put hn i lc rest
  have hself : (s.accepted i lc C hntr r₀ ρ rest).procs i = s.handled i lc C hntr r₀ ρ := by
    rw [Ring.accepted, after_procs_self]
  have hprocs : ∀ j, j ≠ i → (s.accepted i lc C hntr r₀ ρ rest).procs j = s.procs j := by
    intro j hj
    rw [Ring.accepted, after_procs_of_ne _ _ _ _ _ hj]
  have hwagon : (s.handled i lc C hntr r₀ ρ).wagonToSend =
      if (firstMsg (s.procs i).wagonToSend).isSome then newWiw (C.addr i)
      else (s.procs i).wagonToSend :=
    trainHandling_wagonToSend_steady (hs.cameProc i) (hs.goneProc i)
  have hmsgs := msgs_ownWagon (C.addr i) (roundAt hntr (firstRound r₀ ρ) (s.visits i)) (s.procs i)
  rcases eq_or_ne q i with rfl | hq
  · have hall : (s.put q ++ [s.own q hntr r₀ ρ]).reduceOption.flatMap Wagon.msgs ++
        (s.handled q lc C hntr r₀ ρ).wagonToSend.msgs = s.given q := by
      rw [List.reduceOption_append, List.reduceOption_singleton, List.flatMap_append,
        List.append_assoc, hwagon, Ring.own, hmsgs, Ring.given]
    constructor
    · rw [Ring.given, hi, hself]
      exact hall
    · intro _
      rw [Ring.placed, hi, List.take_of_length_le, ← hall, hwagon]
      · split
        · exact (List.append_nil _).symm
        · rename_i hempty
          rw [firstMsg_isSome_iff, not_not] at hempty
          rw [hempty, List.append_nil]
      · rw [List.length_append]
        exact Nat.le_refl _
  · refine ⟨?_, fun h => absurd h hq⟩
    rw [Ring.given, hother q hq, hprocs q hq, Ring.given]

include hn hnp in
theorem OnTime.given_step (hs : OnTime C hntr r₀ ρ c₀ s) {e : Event n} (h : step C s e = some s')
    (q : Fin n) : s'.given q = s.given q ++ e.givenTo q ∧
      (s'.visits q = s.visits q ∨
        s'.visits q = s.visits q + 1 ∧ s'.placed q (s.visits q + 1) = s.given q) := by
  cases e with
  | broadcast i mp =>
    obtain ⟨p, hp, rfl⟩ := Option.map_eq_some_iff.mp h
    refine ⟨?_, .inl rfl⟩
    have hwagon : p.wagonToSend = mallocWiw mp (s.procs i).wagonToSend := by
      have hstate : (s.procs i).automatonState ≠ .aloneInsertWait := by
        rw [hs.state i]
        decide
      rw [broadcast] at hp
      split at hp
      · cases hp
      · obtain rfl := Option.some.inj hp
        rw [if_neg hstate]
    rcases eq_or_ne i q with rfl | hq
    · rw [Event.givenTo, if_pos rfl, Ring.given]
      simp only [Function.update_self, hwagon, mallocWiw]
      rw [← List.append_assoc, Ring.given]
    · rw [Event.givenTo, if_neg hq, List.append_nil, Ring.given]
      simp only [Function.update_of_ne (Ne.symm hq)]
      rw [Ring.given]
  | handle i =>
    cases hlink : s.links i with
    | nil => simp [step, hlink] at h
    | cons m rest =>
      obtain ⟨hstep, hT, hrest⟩ := hs.handle hn hnp hlink
      obtain rfl := Option.some.inj (hstep.symm.trans h)
      obtain ⟨hi, hother⟩ := hs.accepted_put hn i
        (BitVec.ofNat 8 (clockAt n hntr c₀ i (s.visits i))) rest
      obtain ⟨hgiven, hplaced⟩ := hs.given_accepted hn i
        (BitVec.ofNat 8 (clockAt n hntr c₀ i (s.visits i))) rest q
      refine ⟨hgiven.trans (List.append_nil _).symm, ?_⟩
      rw [visits_put hi hother]
      rcases eq_or_ne q i with rfl | hq
      · exact .inr ⟨if_pos rfl, hplaced rfl⟩
      · exact .inl (if_neg hq)

include hn hnp in
/-- What a process has been given is on its trains once it has handled one more. -/
theorem OnTime.given_exec (hs : OnTime C hntr r₀ ρ c₀ s) {es : List (Event n)}
    (h : exec (step C) s es = some s') (q : Fin n) :
    s'.given q = s.given q ++ es.flatMap (Event.givenTo q) ∧
      (s.visits q < s'.visits q → s.given q <+: s'.placed q (s.visits q + 1)) := by
  induction es generalizing s with
  | nil =>
    obtain rfl := Option.some.inj h
    exact ⟨(List.append_nil _).symm, fun hlt => absurd hlt (Nat.lt_irrefl _)⟩
  | cons e es ih =>
    obtain ⟨t, ht, hrest⟩ := Option.bind_eq_some_iff.mp h
    obtain ⟨hst, hput, -⟩ := onTime_step hn hnp hs ht
    obtain ⟨-, hput', -⟩ := onTime_exec hn hnp hst hrest
    obtain ⟨hgiven, hvisit⟩ := hs.given_step hn hnp ht q
    obtain ⟨hgiven', hplaced'⟩ := ih hst hrest
    refine ⟨?_, fun hlt => ?_⟩
    · rw [hgiven', hgiven, List.flatMap_cons, List.append_assoc]
    · rcases hvisit with hvisit | ⟨hvisit, hplaced⟩
      · rw [← hvisit] at hlt ⊢
        refine List.IsPrefix.trans ?_ (hplaced' hlt)
        rw [hgiven]
        exact List.prefix_append _ _
      · rw [Ring.placed_congr (hput' q) hvisit.ge, hplaced]

end Given

/-! ## Delivery -/

section Delivery

/-- What a process has delivered of another is what was on the trains of the other's first
visits. -/
theorem Inv.deliveredOf_eq (hs : Inv C hntr r₀ ρ s) (p q : Fin n) : s.deliveredOf C p q =
    s.placed q (if q ≤ p then s.visits p - 2 * ntr else s.visits p - 2 * ntr - ntr) := by
  rw [Ring.deliveredOf, (hs.visits p).delivered, hs.filter_seen, upTo_slot, Ring.placed]

/-- Of the trains treated by all together, each process has had its share. -/
theorem visits_of_treated {k : ℕ} (hs : Inv C hntr r₀ ρ s) (hs' : Inv C hntr r₀ ρ s')
    (hsum : ∑ i, s'.visits i = ∑ i, s.visits i + k) {d : ℕ} (hk : n * (2 * ntr + d) ≤ k)
    (p q : Fin n) : s.visits q + d ≤ s'.visits p := by
  have hbelow : n * s.visits q ≤ ∑ i, s.visits i + n * ntr := by
    have hle := Finset.sum_le_sum fun (i : Fin n) (_ : i ∈ Finset.univ) => hs.visits_le q i
    simpa [Finset.sum_add_distrib] using hle
  have habove : ∑ i, s'.visits i ≤ n * (s'.visits p + ntr) := by
    have hle := Finset.sum_le_sum fun (i : Fin n) (_ : i ∈ Finset.univ) => hs'.visits_le i p
    simpa using hle
  have hall : n * (s.visits q + d) + n * ntr ≤ n * s'.visits p + n * ntr := by
    rw [Nat.mul_add] at hk habove ⊢
    have hlaps : n * (2 * ntr) = n * ntr + n * ntr := by rw [Nat.two_mul, Nat.mul_add]
    omega
  have hpos : 0 < n := Nat.zero_lt_of_lt p.isLt
  exact Nat.le_of_mul_le_mul_left (Nat.le_of_add_le_add_right hall) hpos

/-- **Bounded delivery.** Once the processes together have treated `n (5 ntr + 1)` more trains,
each has delivered, in order, all the messages that any process had been given before; and it has
delivered no others than those given. -/
theorem trains_bounded_delivery {hn : 2 ≤ n} {s₀ : Ring n ntr} {es fs : List (Event n)}
    (hntr : 0 < ntr) (hnp : n ≤ np) (hfresh : Fresh C hn s₀) (hrecent : RecentOnArrival s₀)
    (h : exec (step C) s₀ es = some s) (h' : exec (step C) s fs = some s')
    (hmany : n * (5 * ntr + 1) ≤ (fs.map Event.treated).sum) (p q : Fin n) :
    (s₀.procs q).wagonToSend.msgs ++ es.flatMap (Event.givenTo q) <+: s'.deliveredOf C p q ∧
      s'.deliveredOf C p q <+:
        (s₀.procs q).wagonToSend.msgs ++ (es ++ fs).flatMap (Event.givenTo q) := by
  obtain ⟨r₀, ρ, c₀, hs₀⟩ := onTime_fresh hntr hfresh hrecent
  obtain ⟨hs, -, -⟩ := onTime_exec hn hnp hs₀ h
  obtain ⟨hs', -, hsum⟩ := onTime_exec hn hnp hs h'
  have hstart : s₀.given q = (s₀.procs q).wagonToSend.msgs := by
    rw [Ring.given, hfresh.put q]
    rfl
  obtain ⟨hgiven, -⟩ := hs₀.given_exec hn hnp h q
  obtain ⟨hgiven', hplaced⟩ := hs.given_exec hn hnp h' q
  rw [hstart] at hgiven
  have hlaps : n * (2 * ntr + (3 * ntr + 1)) ≤ (fs.map Event.treated).sum := by
    have heq : 2 * ntr + (3 * ntr + 1) = 5 * ntr + 1 := by omega
    rwa [heq]
  have hp := visits_of_treated hs.toInv hs'.toInv hsum hlaps p q
  have hq := visits_of_treated hs.toInv hs'.toInv hsum hlaps q q
  rw [hs'.deliveredOf_eq]
  constructor
  · rw [← hgiven]
    refine (hplaced (by omega)).trans (s'.placed_mono q ?_)
    split <;> omega
  · rw [List.flatMap_append, ← List.append_assoc, ← hgiven, ← hgiven']
    exact s'.placed_le_given q _

/-- Two processes, one train: a message of one is delivered by the other. -/
theorem trains_bounded_delivery_two : ∃ s s',
    runFresh (Members.ofRanks 2 (by decide) 0 64) Nat.one_pos
      [.broadcast 0 ⟨amBroadcast, [5#8]⟩] = some s ∧
    exec (step (Members.ofRanks 2 (by decide) 0 64)) s
      (List.replicate 6 [.handle 0, .handle 1]).flatten = some s' ∧
    [⟨amBroadcast, [5#8]⟩] <+: s'.deliveredOf (Members.ofRanks 2 (by decide) 0 64) 1 0 ∧
    s'.deliveredOf (Members.ofRanks 2 (by decide) 0 64) 1 0 <+: [⟨amBroadcast, [5#8]⟩] := by
  let C := Members.ofRanks 2 (by decide) 0 64
  let s := (runFresh C Nat.one_pos [.broadcast 0 ⟨amBroadcast, [5#8]⟩]).get (by decide)
  let s' := (exec (step C) s (List.replicate 6 [.handle 0, .handle 1]).flatten).get (by decide)
  have hs : exec (step C) (Ring.fresh C Nat.one_pos) [.broadcast 0 ⟨amBroadcast, [5#8]⟩] = some s :=
    (Option.some_get _).symm
  have hs' : exec (step C) s (List.replicate 6 [.handle 0, .handle 1]).flatten = some s' :=
    (Option.some_get _).symm
  exact ⟨s, s', hs, hs', trains_bounded_delivery Nat.one_pos (by decide)
    (fresh_fresh C (Nat.le_refl 2) Nat.one_pos)
    (recentOnArrival_fresh (Nat.le_refl 2) (by decide) Nat.one_pos) hs hs' (by decide) 1 0⟩

end Delivery

end UniformBroadcast.Trains
