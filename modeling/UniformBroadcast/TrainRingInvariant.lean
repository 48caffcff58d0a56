import UniformBroadcast.TrainVisits

/-!
# The invariant of a ring of processes

The link into a process holds trains of consecutive visits, each carrying what the lap
schedule puts aboard at that visit; a process is never ahead of its predecessor, nor more
than a lap behind it.
-/

namespace UniformBroadcast.Trains

open LapSchedule TransitionRuns

variable {n ntr : ℕ}

theorem val_pred (i : Fin n) : (pred i).val = if i.val = 0 then n - 1 else i.val - 1 := by
  have hi := i.isLt
  simp only [pred]
  split
  · rename_i h
    rw [h, Nat.zero_add, Nat.mod_eq_of_lt (by omega)]
  · rw [show i.val + (n - 1) = i.val - 1 + n by omega, Nat.add_mod_right]
    exact Nat.mod_eq_of_lt (by omega)

theorem val_next (i : Fin n) : (next i).val = if i.val = n - 1 then 0 else i.val + 1 := by
  have hi := i.isLt
  simp only [next]
  split
  · rename_i h
    rw [h, show n - 1 + 1 = n by omega, Nat.mod_self]
  · exact Nat.mod_eq_of_lt (by omega)

@[simp] theorem pred_next (i : Fin n) : pred (next i) = i := by
  have hv := val_next i
  ext
  by_cases h : i.val = n - 1
  · rw [if_pos h] at hv
    rw [val_pred, hv, if_pos rfl, h]
  · rw [if_neg h] at hv
    rw [val_pred, hv, if_neg (Nat.succ_ne_zero _), Nat.add_sub_cancel]

@[simp] theorem next_pred (i : Fin n) : next (pred i) = i := by
  have hi := i.isLt
  have hv := val_pred i
  ext
  by_cases h : i.val = 0
  · rw [if_pos h] at hv
    rw [val_next, hv, if_pos rfl, h]
  · rw [if_neg h] at hv
    rw [val_next, hv, if_neg (by omega)]
    omega

namespace Ring

variable (s : Ring n ntr)

/-- How many trains process `i` has handled. -/
def visits (i : Fin n) : ℕ := (s.put i).length

/-- The wagon, if any, that process `j` put on the train of its visit `t`. -/
def slot (j t : ℕ) : List Wagon :=
  if h : j < n then ((s.put ⟨j, h⟩)[t]?).join.toList else []

/-- What process `i` has recorded at visit `t`. -/
def seen (i : Fin n) (t : ℕ) : List Wagon := LapSchedule.seen n ntr s.slot i t

/-- The wagons on the train of visit `t` of process `i`. -/
def aboard (i : Fin n) (t : ℕ) : List Wagon := LapSchedule.aboard n ntr s.slot i t

/-- The trains that have been sent to process `i` are those of the visits before this. -/
def bound (i : Fin n) : ℕ := s.visits (pred i) + if i.val = 0 then ntr else 0

end Ring

/-- The round under which the first lap of each train is handled, where the processes
start from the rounds `r₀` and the trains carry the rounds `ρ`. -/
def firstRound (r₀ ρ : Fin ntr → Fin nr) (id : Fin ntr) : Fin nr :=
  if ρ id = r₀ id then ρ id + 1 else ρ id

/-- The round on the train of visit `t` when it reaches process `i`: only process `0`
advances it. -/
def arriving (hntr : 0 < ntr) (r₀ ρ : Fin ntr → Fin nr) (i : Fin n) (t : ℕ) : Fin nr :=
  if i.val = 0 then
    if t < ntr then ρ (trainId hntr t) else roundAt hntr (firstRound r₀ ρ) (t - ntr)
  else roundAt hntr (firstRound r₀ ρ) t

/-- The message is the train of visit `t` of process `i`. -/
def Carries (C : Members n) (hntr : 0 < ntr) (r₀ ρ : Fin ntr → Fin nr) (s : Ring n ntr) (i : Fin n)
    (t : ℕ) (m : Msg ntr) : Prop :=
  ∃ lc, m = .train ⟨trainId hntr t, lc, arriving hntr r₀ ρ i t⟩ C.circuit (some (s.aboard i t))

/-- The wagons put on trains: they carry the address of their process, the round of the
visit and at least one message. -/
def Slots (C : Members n) (hntr : 0 < ntr) (b : Fin ntr → Fin nr) (s : Ring n ntr) : Prop :=
  ∀ i t w, (s.put i)[t]? = some (some w) →
    w.sender = C.addr i ∧ w.round = roundAt hntr b t ∧ w.msgs ≠ []

structure Inv (C : Members n) (hntr : 0 < ntr) (r₀ ρ : Fin ntr → Fin nr) (s : Ring n ntr) :
    Prop where
  state : ∀ i, (s.procs i).automatonState = .several
  succ : ∀ i, (s.procs i).succ = C.addr (next i)
  cameProc : ∀ i, (s.procs i).cameProc = 0#16
  goneProc : ∀ i, (s.procs i).goneProc = 0#16
  sender : ∀ i, (s.procs i).wagonToSend.sender = C.addr i
  visits : ∀ i, Visits hntr (firstRound r₀ ρ) r₀ C.circuit (s.visits i) (s.seen i) (s.procs i)
  slots : Slots C hntr (firstRound r₀ ρ) s
  behind : ∀ i, s.visits i ≤ s.bound i
  links : ∀ i, ∃ pending : List ℕ, pending.Pairwise (· < ·) ∧
    (∀ t ∈ pending, s.visits i ≤ t ∧ t < s.bound i) ∧
    List.Forall₂ (Carries C hntr r₀ ρ s i) pending (s.links i)

section Chain

variable {C : Members n} {hntr : 0 < ntr} {r₀ ρ : Fin ntr → Fin nr} {s : Ring n ntr}

/-- A process is not ahead of those before it in the ring. -/
theorem Inv.visits_anti (hs : Inv C hntr r₀ ρ s) {i j : Fin n} (h : i.val ≤ j.val) :
    s.visits j ≤ s.visits i := by
  obtain ⟨d, hd⟩ := Nat.exists_eq_add_of_le h
  induction d generalizing j with
  | zero =>
    obtain rfl : j = i := Fin.ext hd
    exact Nat.le_refl _
  | succ d ih =>
    have hpred : (pred j).val = i.val + d := by
      rw [val_pred, if_neg (by omega)]
      omega
    have hj := hs.behind j
    rw [Ring.bound, if_neg (by omega), Nat.add_zero] at hj
    exact hj.trans (ih (by omega) hpred)

/-- No process is more than a lap ahead of another. -/
theorem Inv.visits_le (hs : Inv C hntr r₀ ρ s) (i j : Fin n) : s.visits i ≤ s.visits j + ntr := by
  have hi := i.isLt
  have hj := j.isLt
  let zero : Fin n := ⟨0, Nat.zero_lt_of_lt i.isLt⟩
  have hfirst : s.visits i ≤ s.visits zero := hs.visits_anti (Nat.zero_le _)
  have hzero := hs.behind zero
  rw [Ring.bound, if_pos rfl] at hzero
  have hlast : (pred zero).val = n - 1 := by rw [val_pred, if_pos rfl]
  have hj : s.visits (pred zero) ≤ s.visits j := hs.visits_anti (by omega)
  omega

theorem Inv.bound_le (hs : Inv C hntr r₀ ρ s) (i j : Fin n) : s.bound i ≤ s.visits j + ntr := by
  rw [Ring.bound]
  split
  · rename_i h
    have hle : s.visits (pred i) ≤ s.visits j := by
      have hj := j.isLt
      refine hs.visits_anti ?_
      rw [val_pred, if_pos h]
      omega
    omega
  · exact hs.visits_le _ _

/-- A train on its way to process `i` has passed the processes before it. -/
theorem Inv.bound_le_of_lt (hs : Inv C hntr r₀ ρ s) {i j : Fin n} (h : j.val < i.val) :
    s.bound i ≤ s.visits j := by
  rw [Ring.bound, if_neg (by omega), Nat.add_zero]
  refine hs.visits_anti ?_
  rw [val_pred, if_neg (by omega)]
  omega

end Chain

/-! ## Slots -/

section Slots

variable {C : Members n} {hntr : 0 < ntr} {r₀ ρ : Fin ntr → Fin nr} {s s' : Ring n ntr}

theorem slot_eq (s : Ring n ntr) (i : Fin n) (t : ℕ) :
    s.slot i t = ((s.put i)[t]?).join.toList := by
  simp [Ring.slot]

theorem mem_slot {j t : ℕ} {w : Wagon} (h : w ∈ s.slot j t) :
    ∃ hj : j < n, (s.put ⟨j, hj⟩)[t]? = some (some w) := by
  rw [Ring.slot] at h
  split at h
  · rename_i hj
    refine ⟨hj, ?_⟩
    rw [Option.mem_toList] at h
    exact Option.join_eq_some_iff.mp h
  · cases h

theorem Slots.sender {b : Fin ntr → Fin nr} (hs : Slots C hntr b s) {j t : ℕ} {w : Wagon}
    (h : w ∈ s.slot j t) : ∃ hj : j < n, w.sender = C.addr ⟨j, hj⟩ := by
  obtain ⟨hj, hw⟩ := mem_slot h
  exact ⟨hj, (hs _ t w hw).1⟩

/-- The slots of the visits already made do not change when the logs grow. -/
theorem slot_congr (hput : ∀ i, s.put i <+: s'.put i) {i : Fin n} {t : ℕ} (ht : t < s.visits i) :
    s'.slot i t = s.slot i t := by
  obtain ⟨l, hl⟩ := hput i
  rw [slot_eq, slot_eq, ← hl, List.getElem?_append_left ht]

theorem aboard_stable (hs : Inv C hntr r₀ ρ s) (hput : ∀ i, s.put i <+: s'.put i) {i : Fin n}
    {t : ℕ}
    (ht : t < s.bound i) : s'.aboard i t = s.aboard i t := by
  refine aboard_congr (fun j hj => ?_) (fun j hj hij hle => ?_)
  · have hlt := ht.trans_le (hs.bound_le_of_lt (j := ⟨j, by omega⟩) hj)
    exact slot_congr hput hlt
  · have hlt := ht.trans_le (hs.bound_le i ⟨j, hj⟩)
    exact slot_congr hput (i := ⟨j, hj⟩) (by omega)

theorem seen_stable (hs : Inv C hntr r₀ ρ s) (hput : ∀ i, s.put i <+: s'.put i) {i : Fin n} {t : ℕ}
    (ht : t < s.visits i) : s'.seen i t = s.seen i t := by
  rw [Ring.seen, Ring.seen, seen_eq, seen_eq, slot_congr hput ht]
  congr 1
  exact aboard_stable hs hput (ht.trans_le (hs.behind i))

end Slots

/-! ## The initial state -/

theorem inv_fresh {C : Members n} {hn : 2 ≤ n} {s : Ring n ntr} (hntr : 0 < ntr)
    (h : Fresh C hn s) : ∃ r₀ ρ, Inv C hntr r₀ ρ s := by
  obtain ⟨stamps, hids, -, hzero⟩ := h.trains
  have hlen : stamps.length = ntr := by
    have := congrArg List.length hids
    simpa using this
  have hvisits : ∀ i, s.visits i = 0 := fun i => by rw [Ring.visits, h.put i]; rfl
  have hslot : ∀ j t, s.slot j t = [] := by
    intro j t
    rw [Ring.slot]
    split
    · rw [h.put]
      rfl
    · rfl
  have haboard : ∀ i t, s.aboard i t = [] := by
    intro i t
    simp [Ring.aboard, LapSchedule.aboard, LapSchedule.stale, LapSchedule.previous, hslot]
  let r₀ : Fin ntr → Fin nr := fun id => ((s.procs ⟨0, by omega⟩).lts id).stamp.round
  let ρ : Fin ntr → Fin nr := fun id => (stamps.get ⟨id.val, hlen.symm ▸ id.isLt⟩).round
  refine ⟨r₀, ρ, h.state, h.succ, h.cameProc, h.goneProc, h.wagonToSend, fun i => ?_, ?_, ?_, ?_⟩
  · rw [hvisits i]
    constructor
    case lis =>
      ext
      simp only [idPlus, trainId, h.lis i]
      rw [Nat.sub_add_cancel hntr, Nat.mod_self, Nat.zero_mod]
    case circuit => exact fun hpos => absurd hpos (Nat.lt_irrefl 0)
    case round_new => exact fun id _ => h.rounds i _ id
    case round_last => exact fun t ht => absurd ht (Nat.not_lt_zero t)
    case unstable_new => exact fun id _ round => h.unstable i id round
    case unstable_last => exact fun t ht => absurd ht (Nat.not_lt_zero t)
    case unstable_previous => exact fun t ht => absurd ht (Nat.not_lt_zero t)
    case unstable_empty => exact fun t ht => absurd ht (Nat.not_lt_zero t)
    case delivered => rw [h.delivered i, Nat.zero_sub, upTo_zero]
    case counted => simp [h.delivered i, unstableCount, h.unstable i]
  · intro i t w hw
    rw [h.put i] at hw
    simp at hw
  · intro i
    rw [hvisits]
    exact Nat.zero_le _
  · intro i
    by_cases hi : i.val = 0
    · refine ⟨List.range ntr, List.pairwise_lt_range, ?_, ?_⟩
      · intro t ht
        rw [hvisits, Ring.bound, hvisits, if_pos hi, Nat.zero_add]
        exact ⟨Nat.zero_le t, List.mem_range.mp ht⟩
      · have hlinks : s.links i = stamps.map fun st => .train st C.circuit (some []) :=
          (congrArg s.links (Fin.ext hi)).trans hzero
        rw [hlinks, List.forall₂_iff_get]
        refine ⟨by simp [hlen], fun t ht ht' => ?_⟩
        simp only [List.get_eq_getElem, List.getElem_range, List.getElem_map]
        rw [List.length_range] at ht
        have htl : t < stamps.length := hlen.symm ▸ ht
        have hid : stamps[t].id = ⟨t, ht⟩ := by
          have hget : (stamps.map Stamp.id)[t]? = (List.finRange ntr)[t]? := by rw [hids]
          simpa [hlen, ht] using hget
        refine ⟨stamps[t].lc, ?_⟩
        have hst : stamps[t] = ⟨⟨t, ht⟩, stamps[t].lc, ρ ⟨t, ht⟩⟩ := calc
          stamps[t] = ⟨stamps[t].id, stamps[t].lc, ρ ⟨t, ht⟩⟩ := rfl
          _ = ⟨⟨t, ht⟩, stamps[t].lc, ρ ⟨t, ht⟩⟩ := by rw [hid]
        simp only [arriving, if_pos hi, if_pos ht, haboard, trainId_of_lt ht]
        exact congrArg (fun st => Msg.train st C.circuit (some [])) hst
    · rw [h.links i hi]
      exact ⟨[], List.Pairwise.nil, by simp, List.Forall₂.nil⟩

end UniformBroadcast.Trains
