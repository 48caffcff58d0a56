import UniformBroadcast.TrainRingPreservation
import UniformBroadcast.TrainContinuityStreams
import UniformBroadcast.TrainCarriage
import Mathlib.Algebra.Order.BigOperators.Group.Finset

/-!
# The trains of a ring stay on their way

The clock of a train grows by one at each process, so when the train comes back to a process its
clock is `n - 1` ahead of the one it left with: it is recent there, and handled. No train is ever
dropped: there are always as many of them, each process finds them in turn, and the ring goes on
for ever.
-/

namespace UniformBroadcast.Trains

open LapSchedule TransitionRuns

variable {n ntr : ℕ} {C : Members n} {hntr : 0 < ntr} {r₀ ρ : Fin ntr → Fin nr} {s s' : Ring n ntr}

/-- Each train that heads towards process `0` will be recent for every process when it first
reaches it. -/
def RecentOnArrival (s : Ring n ntr) : Prop :=
  ∀ j : Fin n, j.val = 0 → ∀ st circuit wagons, Msg.train st circuit wagons ∈ s.links j →
    ∀ i : Fin n, isRecentTrain { st with lc := st.lc + BitVec.ofNat 8 i } (s.procs i).lts
      (idPlus st.id (ntr - 1)) = true

/-- The messages on the link are the next trains that the process waits for, one after the
other. -/
def NextTrains (s : Ring n ntr) (i : Fin n) : Prop :=
  ∀ k, ∀ m ∈ (s.links i)[k]?, ∃ st circuit wagons,
    m = .train st circuit wagons ∧ st.id = idPlus (s.procs i).lis (k + 1)

/-- The treatments that an event is. -/
def Event.treated : Event n → ℕ
  | .broadcast _ _ => 0
  | .handle _ => 1

/-- The clock of the train of visit `t` when it reaches process `i`. -/
def clockAt (n : ℕ) (hntr : 0 < ntr) (c₀ : Fin ntr → ℕ) (i t : ℕ) : ℕ :=
  c₀ (trainId hntr t) + i + t / ntr * n

/-- The message is the train of visit `t` of process `i`, with the clock that it must have. -/
def Brings (C : Members n) (hntr : 0 < ntr) (r₀ ρ : Fin ntr → Fin nr) (c₀ : Fin ntr → ℕ)
    (s : Ring n ntr) (i : Fin n) (t : ℕ) (m : Msg ntr) : Prop :=
  m = .train ⟨trainId hntr t, BitVec.ofNat 8 (clockAt n hntr c₀ i t), arriving hntr r₀ ρ i t⟩
    C.circuit (some (s.aboard i t))

/-- The invariant of the ring, and no train is missing or late. -/
structure OnTime (C : Members n) (hntr : 0 < ntr) (r₀ ρ : Fin ntr → Fin nr) (c₀ : Fin ntr → ℕ)
    (s : Ring n ntr) : Prop extends Inv C hntr r₀ ρ s where
  waiting : ∀ i (id : Fin ntr), s.visits i ≤ id.val →
    isRecentTrain ⟨id, BitVec.ofNat 8 (c₀ id + i), 0⟩ (s.procs i).lts (idPlus id (ntr - 1)) = true
  left : ∀ i, ∀ t < s.visits i, s.visits i ≤ t + ntr →
    ((s.procs i).lts (trainId hntr t)).stamp.lc = BitVec.ofNat 8 (clockAt n hntr c₀ i t + 1)
  all : ∀ i, List.Forall₂ (Brings C hntr r₀ ρ c₀ s i)
    (List.range' (s.visits i) (s.bound i - s.visits i)) (s.links i)

/-! ## The clocks -/

section Clocks

variable {c₀ : Fin ntr → ℕ}

theorem idPlus_pred_succ (hntr : 0 < ntr) (id : Fin ntr) : idPlus (idPlus id (ntr - 1)) 1 = id := by
  have hlt := id.isLt
  ext
  simp only [idPlus]
  rw [Nat.mod_add_mod, Nat.add_assoc, Nat.sub_add_cancel hntr, Nat.add_mod_right,
    Nat.mod_eq_of_lt hlt]

/-- Only the clock of the last train sent under the identifier counts. -/
theorem isRecentTrain_congr {st st' : Stamp ntr} {lts lts' : Fin ntr → Lts ntr}
    {lis lis' : Fin ntr} (hid : st.id = st'.id) (hlc : st.lc = st'.lc)
    (hlis : idPlus lis 1 = idPlus lis' 1)
    (hlts : (lts (idPlus lis 1)).stamp.lc = (lts' (idPlus lis 1)).stamp.lc) :
    isRecentTrain st lts lis = isRecentTrain st' lts' lis' := by
  simp only [isRecentTrain, hid, hlc, ← hlis, hlts]

theorem ofNat_succ (x : ℕ) : BitVec.ofNat 8 (x + 1) = BitVec.ofNat 8 x + 1 := BitVec.ofNat_add x 1

theorem clockAt_of_lt {t : ℕ} (ht : t < ntr) (i : ℕ) :
    clockAt n hntr c₀ i t = c₀ ⟨t, ht⟩ + i := by
  rw [clockAt, trainId_of_lt ht, Nat.div_eq_of_lt ht, Nat.zero_mul, Nat.add_zero]

/-- One lap later the clock is `n` ahead. -/
theorem clockAt_add (i t : ℕ) : clockAt n hntr c₀ i (t + ntr) = clockAt n hntr c₀ i t + n := by
  rw [clockAt, trainId_add, Nat.add_div_right t hntr, Nat.succ_mul, clockAt]
  omega

/-- A train reaches the next process with its clock one ahead. -/
theorem clockAt_next (i : Fin n) (t : ℕ) :
    clockAt n hntr c₀ (next i) (t + if (next i).val = 0 then ntr else 0) =
      clockAt n hntr c₀ i t + 1 := by
  have hi := i.isLt
  have hnext := val_next i
  by_cases hlast : i.val = n - 1
  · rw [if_pos hlast] at hnext
    rw [if_pos hnext, clockAt_add, hnext, clockAt, clockAt]
    omega
  · rw [if_neg hlast] at hnext
    rw [if_neg (by omega), Nat.add_zero, hnext, clockAt, clockAt]
    omega

end Clocks

/-! ## The start -/

theorem onTime_fresh {hn : 2 ≤ n} (hntr : 0 < ntr) (hfresh : Fresh C hn s)
    (hrecent : RecentOnArrival s) : ∃ r₀ ρ c₀, OnTime C hntr r₀ ρ c₀ s := by
  obtain ⟨r₀, ρ, hs⟩ := inv_fresh hntr hfresh
  obtain ⟨stamps, hids, -, hzero⟩ := hfresh.trains
  have hlen : stamps.length = ntr := by
    have hlength := congrArg List.length hids
    simpa using hlength
  have hvisits : ∀ i, s.visits i = 0 := by
    intro i
    rw [Ring.visits, hfresh.put i]
    rfl
  have hget : ∀ id : Fin ntr,
      stamps[id.val]? = some (stamps.get ⟨id.val, hlen.symm ▸ id.isLt⟩) := by
    intro id
    exact List.getElem?_eq_getElem _
  let c₀ : Fin ntr → ℕ := fun id => (stamps.get ⟨id.val, hlen.symm ▸ id.isLt⟩).lc.toNat
  -- the train of identifier `id` is the one at this place
  have hstamp : ∀ id : Fin ntr, ∃ st, stamps[id.val]? = some st ∧ st.id = id ∧
      st.lc = BitVec.ofNat 8 (c₀ id) := by
    intro id
    refine ⟨_, hget id, ?_, ?_⟩
    · have hid : (stamps.map Stamp.id)[id.val]? = (List.finRange ntr)[id.val]? := by rw [hids]
      rw [List.getElem?_map, hget id] at hid
      simpa using hid
    · simp [c₀]
  refine ⟨r₀, ρ, c₀, hs, ?_, ?_, ?_⟩
  · intro i id _
    obtain ⟨st, hst, rfl, hlc⟩ := hstamp id
    have hmem : Msg.train st C.circuit (some []) ∈
        s.links ⟨0, Nat.lt_of_lt_of_le Nat.two_pos hn⟩ := by
      rw [hzero]
      exact List.mem_map_of_mem (List.mem_of_getElem? hst)
    rw [← hrecent _ rfl st C.circuit (some []) hmem i]
    refine isRecentTrain_congr rfl ?_ rfl rfl
    rw [hlc, BitVec.ofNat_add]
  · intro i t ht
    rw [hvisits] at ht
    exact absurd ht (Nat.not_lt_zero t)
  · intro i
    obtain ⟨pending, hsorted, hbounds, hcarries⟩ := hs.links i
    rw [Ring.bound, hvisits, hvisits, Nat.zero_add, Nat.sub_zero]
    by_cases hi : i.val = 0
    · rw [if_pos hi]
      have hlinks : s.links i = stamps.map fun st => .train st C.circuit (some []) :=
        (congrArg s.links (Fin.ext hi)).trans hzero
      -- as many visits as trains, in order: they are all the visits
      have hpending : pending = List.range' 0 ntr := by
        have hsub : pending ⊆ List.range' 0 ntr := by
          intro t ht
          have hlt := (hbounds t ht).2
          rw [Ring.bound, hvisits, if_pos hi, Nat.zero_add] at hlt
          rw [List.mem_range'_1]
          omega
        have hlength : pending.length = ntr := by
          rw [hcarries.length_eq, hlinks, List.length_map, hlen]
        have hperm : pending.Perm (List.range' 0 ntr) :=
          (List.subperm_of_subset (hsorted.imp Nat.ne_of_lt) hsub).perm_of_length_le
            (by simp [hlength])
        exact hperm.eq_of_pairwise (fun a b _ _ hab hba => absurd hab (Nat.lt_asymm hba)) hsorted
          List.pairwise_lt_range'
      rw [hpending] at hcarries
      rw [List.forall₂_iff_get] at hcarries ⊢
      refine ⟨hcarries.1, fun t ht ht' => ?_⟩
      obtain ⟨lc, hm⟩ := hcarries.2 t ht ht'
      have htn : t < ntr := by simpa using ht
      have hgett : (List.range' 0 ntr).get ⟨t, ht⟩ = t := by simp
      obtain ⟨st, hst, hid, hlc⟩ := hstamp ⟨t, htn⟩
      have hlinkt : (s.links i)[t]? = some (.train st C.circuit (some [])) := by
        rw [hlinks, List.getElem?_map, hst, Option.map_some]
      have hmt : (s.links i).get ⟨t, ht'⟩ = .train st C.circuit (some []) := by
        rw [List.getElem?_eq_getElem ht'] at hlinkt
        exact Option.some.inj hlinkt
      rw [hgett] at hm ⊢
      have hlc' : lc = BitVec.ofNat 8 (clockAt n hntr c₀ i t) := by
        rw [hm] at hmt
        have hst' := (Msg.train.inj hmt).1
        rw [clockAt_of_lt htn, hi, Nat.add_zero, ← hlc, ← hst']
      rw [Brings, hm, hlc']
    · rw [if_neg hi, hfresh.links i hi]
      exact List.Forall₂.nil

/-! ## One event -/

section Step

variable {c₀ : Fin ntr → ℕ}

theorem brings_congr {i : Fin n} {pending : List ℕ} {l : List (Msg ntr)}
    (h : List.Forall₂ (Brings C hntr r₀ ρ c₀ s i) pending l)
    (haboard : ∀ t ∈ pending, s'.aboard i t = s.aboard i t) :
    List.Forall₂ (Brings C hntr r₀ ρ c₀ s' i) pending l := by
  induction h with
  | nil => exact List.Forall₂.nil
  | cons hm _ ih =>
    refine List.Forall₂.cons ?_ (ih fun t ht => haboard t (List.mem_cons_of_mem _ ht))
    rw [Brings, haboard _ List.mem_cons_self]
    exact hm

/-- The train of the next visit is recent when it comes. -/
theorem OnTime.recent (hs : OnTime C hntr r₀ ρ c₀ s) (hn : 2 ≤ n) (hnp : n ≤ np) (i : Fin n) :
    isRecentTrain (s.stampOf i (BitVec.ofNat 8 (clockAt n hntr c₀ i (s.visits i))) hntr r₀ ρ)
      (s.procs i).lts (s.procs i).lis = true := by
  have hlis := (hs.visits i).lis
  rcases Nat.lt_or_ge (s.visits i) ntr with hfirst | hagain
  · have hid : trainId hntr (s.visits i) = ⟨s.visits i, hfirst⟩ := trainId_of_lt hfirst
    rw [← hs.waiting i ⟨s.visits i, hfirst⟩ (Nat.le_refl _)]
    refine isRecentTrain_congr hid ?_ ?_ rfl
    · simp only [Ring.stampOf, clockAt_of_lt hfirst]
    · rw [hlis, idPlus_pred_succ hntr, hid]
  · obtain ⟨t, ht⟩ := Nat.exists_eq_add_of_le' hagain
    have hleft := hs.left i t (by omega) (by omega)
    refine Continuity.recent_of_lt hlis.symm rfl ?_ ?_ ?_
      (x := clockAt n hntr c₀ i (s.visits i)) (y := clockAt n hntr c₀ i t + 1)
    · rw [← hleft, Ring.stampOf, ht, trainId_add]
    · rw [ht, clockAt_add]
      omega
    · have hsmall : np = 16 := rfl
      rw [ht, clockAt_add]
      omega

/-- The process accepts the first train of its link, which is that of its next visit. -/
theorem OnTime.handle (hs : OnTime C hntr r₀ ρ c₀ s) (hn : 2 ≤ n) (hnp : n ≤ np) {i : Fin n}
    {m : Msg ntr} {rest : List (Msg ntr)} (hlink : s.links i = m :: rest) :
    let lc := BitVec.ofNat 8 (clockAt n hntr c₀ i (s.visits i))
    step C s (.handle i) = some (s.accepted i lc C hntr r₀ ρ rest) ∧ s.visits i < s.bound i ∧
      List.Forall₂ (Brings C hntr r₀ ρ c₀ s i)
        (List.range' (s.visits i + 1) (s.bound i - (s.visits i + 1))) rest := by
  intro lc
  have hall := hs.all i
  obtain ⟨k, hk⟩ : ∃ k, s.bound i - s.visits i = k + 1 := by
    refine Nat.exists_eq_add_one_of_ne_zero fun hzero => ?_
    rw [hzero, hlink] at hall
    cases hall
  rw [hk, hlink, List.range'_succ] at hall
  obtain ⟨hm, hrest⟩ := List.forall₂_cons.mp hall
  have hsub : s.bound i - (s.visits i + 1) = k := by omega
  refine ⟨?_, by omega, hsub ▸ hrest⟩
  have hsucc : (s.handled i lc C hntr r₀ ρ).succ = C.addr (next i) := (hs.handled_spec i lc hn).2.1
  have hnext : C.addr (next i) ≠ 0#16 := ne_zero_of_addrIsMember (C.member (next i))
  have hstep : step C s (.handle i) =
      (stateMachine (C.config i) (fun _ => false) (.train (s.stampOf i lc hntr r₀ ρ) C.circuit
        (some (s.aboard i (s.visits i)))) (s.procs i)).map (s.after i rest) := by
    simp only [step, hlink]
    rw [hm]
    rfl
  rw [several_train (hs.state i) (C.member i), if_pos (hs.recent hn hnp i)] at hstep
  rw [hstep]
  change some (s.after i rest (s.handled i lc C hntr r₀ ρ,
    if (s.handled i lc C hntr r₀ ρ).succ ≠ 0#16 then
      [.sendTrain (s.handled i lc C hntr r₀ ρ).succ
        ((s.handled i lc C hntr r₀ ρ).lts (trainId hntr (s.visits i)))] else [])) = _
  rw [hsucc, if_pos hnext]
  rfl

/-- The stamp under which the process sends the train on. -/
theorem Inv.handled_stamp (hs : Inv C hntr r₀ ρ s) (hn : 2 ≤ n) (i : Fin n) (lc : BitVec 8) :
    ((s.handled i lc C hntr r₀ ρ).lts (trainId hntr (s.visits i))).stamp =
      ⟨trainId hntr (s.visits i), lc + 1, roundAt hntr (firstRound r₀ ρ) (s.visits i)⟩ := by
  obtain ⟨-, -, -, -, -, -, hsent, -⟩ := hs.handled_spec i lc hn
  rw [trainMsg] at hsent
  exact (Msg.train.inj hsent).1

theorem onTime_accept (hn : 2 ≤ n) (hs : OnTime C hntr r₀ ρ c₀ s) {i : Fin n}
    {rest : List (Msg ntr)} (hT : s.visits i < s.bound i)
    (hrest : List.Forall₂ (Brings C hntr r₀ ρ c₀ s i)
      (List.range' (s.visits i + 1) (s.bound i - (s.visits i + 1))) rest) :
    OnTime C hntr r₀ ρ c₀ (s.accepted i (BitVec.ofNat 8 (clockAt n hntr c₀ i (s.visits i))) C hntr
      r₀ ρ rest) := by
  generalize hlc : BitVec.ofNat 8 (clockAt n hntr c₀ i (s.visits i)) = lc
  have hinv : Inv C hntr r₀ ρ (s.accepted i lc C hntr r₀ ρ rest) := by
    refine inv_accept hn hs.toInv ⟨List.range' (s.visits i + 1) (s.bound i - (s.visits i + 1)),
      List.pairwise_lt_range', ?_, ?_⟩ hT
    · intro t ht
      rw [List.mem_range'_1] at ht
      omega
    · exact hrest.imp fun t m hm => ⟨_, hm⟩
  obtain ⟨hi, hother⟩ := hs.accepted_put hn i lc rest
  have hstamp := hs.handled_stamp hn i lc
  have hlts : ∀ id, id ≠ trainId hntr (s.visits i) →
      (s.handled i lc C hntr r₀ ρ).lts id = (s.procs i).lts id :=
    fun id hid => trainHandling_lts_of_ne hid
  have hself : (s.accepted i lc C hntr r₀ ρ rest).procs i = s.handled i lc C hntr r₀ ρ := by
    rw [Ring.accepted, after_procs_self]
  have hprocs : ∀ j, j ≠ i → (s.accepted i lc C hntr r₀ ρ rest).procs j = s.procs j := by
    intro j hj
    rw [Ring.accepted, after_procs_of_ne _ _ _ _ _ hj]
  have hlinks_self : (s.accepted i lc C hntr r₀ ρ rest).links i = rest :=
    after_links_self hn _ _ _ _
  have hlinks_next : (s.accepted i lc C hntr r₀ ρ rest).links (next i) = s.links (next i) ++
      [trainMsg ((s.handled i lc C hntr r₀ ρ).lts (trainId hntr (s.visits i)))] := by
    simp only [Ring.accepted, after_links_next hn, written_sendTrain]
  have hlinks_other : ∀ j, j ≠ i → j ≠ next i →
      (s.accepted i lc C hntr r₀ ρ rest).links j = s.links j :=
    fun j hj hj' => after_links_of_ne _ _ _ _ _ hj hj'
  have hsent := (hs.handled_spec i lc hn).2.2.2.2.2.2.1
  generalize s.accepted i lc C hntr r₀ ρ rest = s' at *
  have hput := put_grows hi hother
  have hslots : Slots C hntr (firstRound r₀ ρ) s' :=
    hs.slots.put hi hother fun w hw => hs.own_spec i hw
  have haboard : ∀ {j t}, t < s.bound j → s'.aboard j t = s.aboard j t :=
    fun ht => aboard_stable hs.toInv hput ht
  refine ⟨hinv, ?_, ?_, ?_⟩
  · intro j id hid
    rw [visits_put hi hother] at hid
    rcases eq_or_ne j i with rfl | hj
    · rw [if_pos rfl] at hid
      have hlt := id.isLt
      have hne : id ≠ trainId hntr (s.visits j) := by
        intro heq
        rw [heq, trainId_of_lt (by omega)] at hid
        exact Nat.not_succ_le_self _ hid
      rw [← hs.waiting j id (by omega), hself]
      refine isRecentTrain_congr rfl rfl rfl ?_
      rw [idPlus_pred_succ hntr, hlts id hne]
    · rw [if_neg hj] at hid
      rw [hprocs j hj]
      exact hs.waiting j id hid
  · intro j t ht hlap
    rw [visits_put hi hother] at ht hlap
    rcases eq_or_ne j i with rfl | hj
    · rw [if_pos rfl] at ht hlap
      rcases Nat.lt_succ_iff_lt_or_eq.mp ht with ht | rfl
      · rw [hself, hlts _ (trainId_ne ht (by omega))]
        exact hs.left j t ht (by omega)
      · rw [hself, hstamp, ← hlc, ofNat_succ]
    · rw [if_neg hj] at ht hlap
      rw [hprocs j hj]
      exact hs.left j t ht hlap
  · intro j
    rw [visits_put hi hother, bound_put hi hother]
    rcases eq_or_ne j i with rfl | hj
    · rw [if_pos rfl, if_neg (next_ne hn j).symm, hlinks_self]
      refine brings_congr hrest fun t ht => haboard ?_
      rw [List.mem_range'_1] at ht
      omega
    · have hcongr : List.Forall₂ (Brings C hntr r₀ ρ c₀ s' j)
          (List.range' (s.visits j) (s.bound j - s.visits j)) (s.links j) := by
        refine brings_congr (hs.all j) fun t ht => haboard ?_
        rw [List.mem_range'_1] at ht
        omega
      rw [if_neg hj]
      rcases eq_or_ne j (next i) with rfl | hj'
      · have hbehind := hs.behind (next i)
        have hbound : s.bound (next i) = s.visits i + if (next i).val = 0 then ntr else 0 := by
          rw [Ring.bound, pred_next]
        have hlength : s.bound (next i) + 1 - s.visits (next i) =
            s.bound (next i) - s.visits (next i) + 1 := by omega
        have hlast : s.visits (next i) + (s.bound (next i) - s.visits (next i)) =
            s.bound (next i) := by omega
        rw [if_pos rfl, hlinks_next, hlength, List.range'_concat, Nat.one_mul, hlast]
        refine List.rel_append hcongr (List.Forall₂.cons ?_ List.Forall₂.nil)
        -- the schedule says what the train carries, the clock has grown by one
        obtain ⟨lc', hcarries⟩ := carries_sent hn hs.toInv hi hother hslots hT (lc + 1)
        have hclock : lc' = lc + 1 :=
          (congrArg Stamp.lc (Msg.train.inj hcarries).1).symm
        rw [Brings, hsent, hcarries, hclock, hbound, clockAt_next, ofNat_succ, hlc]
      · rw [if_neg hj', hlinks_other j hj hj']
        exact hcongr

theorem broadcast_lts {c : Config} {mp : Message} {p q : Proc ntr}
    (h : broadcast c mp p = some q) : q.lts = p.lts := by
  rw [broadcast] at h
  split at h
  · cases h
  · obtain rfl := Option.some.inj h
    split <;> rfl

theorem onTime_broadcast (hs : OnTime C hntr r₀ ρ c₀ s) {i : Fin n} {mp : Message} {p : Proc ntr}
    (h : broadcast (C.config i) mp (s.procs i) = some p) :
    OnTime C hntr r₀ ρ c₀ { s with procs := Function.update s.procs i p } := by
  have hlts : ∀ j, (Function.update s.procs i p j).lts = (s.procs j).lts := by
    intro j
    rcases eq_or_ne j i with rfl | hj
    · rw [Function.update_self]
      exact broadcast_lts h
    · rw [Function.update_of_ne hj]
  refine ⟨inv_broadcast hs.toInv h, ?_, ?_, hs.all⟩
  · intro j id hid
    rw [← hs.waiting j id hid]
    exact congrArg (isRecentTrain _ · _) (hlts j)
  · intro j t ht hlap
    rw [← hs.left j t ht hlap]
    exact congrArg (fun lts => (lts (trainId hntr t)).stamp.lc) (hlts j)

/-- Every event keeps the trains on time, and a treatment is one more visit. -/
theorem onTime_step (hn : 2 ≤ n) (hnp : n ≤ np) {e : Event n} (hs : OnTime C hntr r₀ ρ c₀ s)
    (h : step C s e = some s') : OnTime C hntr r₀ ρ c₀ s' ∧ (∀ i, s.put i <+: s'.put i) ∧
      ∑ i, s'.visits i = ∑ i, s.visits i + e.treated := by
  cases e with
  | broadcast i mp =>
    obtain ⟨p, hp, rfl⟩ := Option.map_eq_some_iff.mp h
    exact ⟨onTime_broadcast hs hp, fun j => List.prefix_refl _, rfl⟩
  | handle i =>
    cases hlink : s.links i with
    | nil => simp [step, hlink] at h
    | cons m rest =>
      obtain ⟨hstep, hT, hrest⟩ := hs.handle hn hnp hlink
      obtain rfl := Option.some.inj (hstep.symm.trans h)
      obtain ⟨hi, hother⟩ := hs.accepted_put hn i
        (BitVec.ofNat 8 (clockAt n hntr c₀ i (s.visits i))) rest
      have hvisits : ∀ j, (s.accepted i (BitVec.ofNat 8 (clockAt n hntr c₀ i (s.visits i))) C hntr
          r₀ ρ rest).visits j = s.visits j + if j = i then 1 else 0 := by
        intro j
        rw [visits_put hi hother]
        split
        · rename_i h
          rw [h]
        · rfl
      refine ⟨onTime_accept hn hs hT hrest, put_grows hi hother, ?_⟩
      rw [Finset.sum_congr rfl fun j _ => hvisits j, Finset.sum_add_distrib, Finset.sum_ite_eq',
        if_pos (Finset.mem_univ i)]
      rfl

theorem onTime_exec (hn : 2 ≤ n) (hnp : n ≤ np) {es : List (Event n)}
    (hs : OnTime C hntr r₀ ρ c₀ s) (h : exec (step C) s es = some s') :
    OnTime C hntr r₀ ρ c₀ s' ∧ (∀ i, s.put i <+: s'.put i) ∧
      ∑ i, s'.visits i = ∑ i, s.visits i + (es.map Event.treated).sum := by
  induction es generalizing s with
  | nil =>
    obtain rfl := Option.some.inj h
    exact ⟨hs, fun i => List.prefix_refl _, rfl⟩
  | cons e es ih =>
    obtain ⟨t, ht, hrest⟩ := Option.bind_eq_some_iff.mp h
    obtain ⟨hst, hput, hsum⟩ := onTime_step hn hnp hs ht
    obtain ⟨hs', hput', hsum'⟩ := ih hst hrest
    refine ⟨hs', fun i => (hput i).trans (hput' i), ?_⟩
    rw [hsum', hsum, List.map_cons, List.sum_cons, Nat.add_assoc]

end Step

/-! ## The traffic -/

section Traffic

variable {c₀ : Fin ntr → ℕ}

theorem OnTime.length_links (hs : OnTime C hntr r₀ ρ c₀ s) (i : Fin n) :
    (s.links i).length = s.bound i - s.visits i := by
  have hlength := (hs.all i).length_eq
  rw [List.length_range'] at hlength
  exact hlength.symm

/-- All the trains are on the links. -/
theorem OnTime.sum_links (hs : OnTime C hntr r₀ ρ c₀ s) (hn : 2 ≤ n) :
    ∑ i, (s.links i).length = ntr := by
  have hpred : ∑ i : Fin n, s.visits (pred i) = ∑ i, s.visits i :=
    Equiv.sum_comp (⟨pred, next, next_pred, pred_next⟩ : Fin n ≃ Fin n) s.visits
  have hzero : ∑ i : Fin n, (if i.val = 0 then ntr else 0) = ntr := by
    rw [Finset.sum_eq_single ⟨0, by omega⟩]
    · rfl
    · intro i _ hi
      exact if_neg fun h => hi (Fin.ext h)
    · exact fun h => absurd (Finset.mem_univ _) h
  have hbound : ∑ i, s.bound i = ∑ i, s.visits i + ntr := by
    simp only [Ring.bound, Finset.sum_add_distrib, hpred, hzero]
  have hsplit : ∑ i, ((s.links i).length + s.visits i) = ∑ i, s.bound i := by
    refine Finset.sum_congr rfl fun i _ => ?_
    rw [hs.length_links, Nat.sub_add_cancel (hs.behind i)]
  rw [Finset.sum_add_distrib, hbound] at hsplit
  omega

theorem OnTime.nextTrains (hs : OnTime C hntr r₀ ρ c₀ s) (i : Fin n) : NextTrains s i := by
  intro k m hm
  have hall := List.forall₂_iff_get.mp (hs.all i)
  obtain ⟨hk, hget⟩ := List.getElem?_eq_some_iff.mp hm
  have hbrings := hall.2 k (hall.1 ▸ hk) hk
  refine ⟨_, _, _, hget.symm.trans hbrings, ?_⟩
  have hlis : (((s.procs i).lis.val + 1) % ntr) = s.visits i % ntr :=
    congrArg Fin.val (hs.visits i).lis
  ext
  simp only [List.get_eq_getElem, List.getElem_range', Nat.one_mul, trainId, idPlus]
  rw [Nat.add_mod, ← hlis, ← Nat.add_mod]
  congr 1
  omega

/-- Some process can always treat one more train. -/
theorem OnTime.more (hs : OnTime C hntr r₀ ρ c₀ s) (hn : 2 ≤ n) (hnp : n ≤ np) (k : ℕ) :
    ∃ is : List (Fin n), is.length = k ∧ (exec (step C) s (is.map Event.handle)).isSome := by
  induction k generalizing s with
  | zero => exact ⟨[], rfl, rfl⟩
  | succ k ih =>
    obtain ⟨i, hi⟩ : ∃ i, s.links i ≠ [] := by
      by_contra hnone
      push Not at hnone
      have hsum := hs.sum_links hn
      simp only [hnone, List.length_nil, Finset.sum_const_zero] at hsum
      omega
    obtain ⟨m, rest, hlink⟩ := List.exists_cons_of_ne_nil hi
    obtain ⟨hstep, hT, hrest⟩ := hs.handle hn hnp hlink
    obtain ⟨is, hlength, hexec⟩ := ih (onTime_accept hn hs hT hrest)
    refine ⟨i :: is, by rw [List.length_cons, hlength], ?_⟩
    rw [List.map_cons, exec_cons, hstep, Option.bind_some]
    exact hexec

/-- **The traffic.** In every state reached there are `ntr` trains on the links, those on the link
into a process are the next it waits for, in their order; every train treated has been accepted
and sent on, and there is always one more to treat. -/
theorem trains_conserved {hn : 2 ≤ n} {s₀ : Ring n ntr} {es : List (Event n)} (hntr : 0 < ntr)
    (hnp : n ≤ np) (hfresh : Fresh C hn s₀) (hrecent : RecentOnArrival s₀)
    (h : exec (step C) s₀ es = some s) :
    ∑ i, (s.links i).length = ntr ∧ (∀ i, NextTrains s i) ∧
      ∑ i, (s.put i).length = (es.map Event.treated).sum ∧
      ∀ k, ∃ is : List (Fin n), is.length = k ∧
        (exec (step C) s (is.map Event.handle)).isSome := by
  obtain ⟨r₀, ρ, c₀, hs₀⟩ := onTime_fresh hntr hfresh hrecent
  obtain ⟨hs, -, hsum⟩ := onTime_exec hn hnp hs₀ h
  refine ⟨hs.sum_links hn, hs.nextTrains, ?_, hs.more hn hnp⟩
  have hzero : ∑ i, s₀.visits i = 0 := by
    refine Finset.sum_eq_zero fun i _ => ?_
    rw [Ring.visits, hfresh.put i]
    rfl
  rw [hzero, Nat.zero_add] at hsum
  exact hsum

theorem recentOnArrival_fresh (hn : 2 ≤ n) (hnp : n ≤ np) (h : 0 < ntr) :
    RecentOnArrival (Ring.fresh C h) := by
  intro j hj st circuit wagons hst i
  obtain rfl : j = ⟨0, Nat.lt_of_lt_of_le Nat.two_pos hn⟩ := Fin.ext hj
  obtain ⟨id, -, hid⟩ := List.mem_map.mp (show _ ∈ (List.finRange ntr).map _ from hst)
  obtain rfl := (Msg.train.inj hid).1
  have hsmall : np = 16 := rfl
  have hi := i.isLt
  refine Continuity.recent_of_lt (idPlus_pred_succ h id).symm ?_ rfl (x := 1 + i) (y := 0)
    (by omega) (by omega)
  exact (BitVec.ofNat_add 1 i.val).symm

/-- Three processes and two trains. -/
theorem trains_conserved_three : ∃ s, runFresh (Members.ofRanks 3 (by decide) 0 64) Nat.two_pos
      [.handle 0, .broadcast 1 ⟨amBroadcast, [5#8]⟩, .handle 1, .handle 0] = some s ∧
    ∑ i, (s.links i).length = 2 ∧ (∀ i, NextTrains s i) ∧ ∑ i, (s.put i).length = 3 ∧
    ∀ k, ∃ is : List (Fin 3), is.length = k ∧
      (exec (step (Members.ofRanks 3 (by decide) 0 64)) s (is.map Event.handle)).isSome :=
  ⟨(runFresh (Members.ofRanks 3 (by decide) 0 64) Nat.two_pos
      [.handle 0, .broadcast 1 ⟨amBroadcast, [5#8]⟩, .handle 1, .handle 0]).get (by decide),
    (Option.some_get _).symm,
    trains_conserved Nat.two_pos (by decide) (fresh_fresh _ (by decide) _)
      (recentOnArrival_fresh (by decide) (by decide) _) (Option.some_get _).symm⟩

end Traffic

end UniformBroadcast.Trains
