import UniformBroadcast.TrainRingInvariant

/-!
# Every event of the ring keeps the invariant

A process only accepts the train of its next visit. The wagons it finds aboard are those
of its successor followed by others, which it sends on with its own.
-/

namespace UniformBroadcast.Trains

open LapSchedule TransitionRuns

variable {n ntr : ℕ} {C : Members n} {hntr : 0 < ntr} {r₀ ρ : Fin ntr → Fin nr} {s s' : Ring n ntr}

/-- The wagons aboard come from the other processes and pass the filters. -/
theorem isRecorded_of_mem_aboard {b : Fin ntr → Fin nr} (hslots : Slots C hntr b s) {i : Fin n}
    {t : ℕ} {w : Wagon} (hw : w ∈ s.aboard i t) :
    isRecorded (C.addr i) C.circuit 0#16 w = true := by
  obtain ⟨j, hj, hne, t', hw⟩ := mem_aboard i.isLt hw
  obtain ⟨_, hsender⟩ := hslots.sender hw
  have hother : C.addr ⟨j, hj⟩ ≠ C.addr i := by
    intro h
    exact hne (congrArg Fin.val (C.injective h))
  simp [isRecorded, hsender, C.member, hother]

/-- What a process sends on of the wagons it finds aboard. -/
def Ring.onward (s : Ring n ntr) (C : Members n) (i : Fin n) (t : ℕ) : List Wagon :=
  (s.aboard i t).filter fun w => w.sender ≠ C.addr (next i)

/-- What a process finds aboard is what its successor gets back, followed by the rest,
which goes on with the process's own wagon. -/
theorem aboard_next {b : Fin ntr → Fin nr} (hn : 2 ≤ n) (hslots : Slots C hntr b s) (i : Fin n)
    (t : ℕ) : ∃ back, s.aboard i t = back ++ s.onward C i t ∧
      (∀ w ∈ back, w.sender = C.addr (next i)) ∧
      s.aboard (next i) (t + if (next i).val = 0 then ntr else 0) =
        s.onward C i t ++ s.slot i t := by
  have hi := i.isLt
  have hother : ∀ w j, j < n → j ≠ (next i).val → (∃ t', w ∈ s.slot j t') →
      w.sender ≠ C.addr (next i) := by
    rintro w j hj hne ⟨t', hw⟩ hsender
    obtain ⟨_, h⟩ := hslots.sender hw
    exact hne (congrArg Fin.val (C.injective (h.symm.trans hsender)))
  have hsame : ∀ w t', w ∈ s.slot (next i) t' → w.sender = C.addr (next i) := by
    intro w t' hw
    exact (hslots.sender hw).2
  have hsplit : ∀ back rest, s.aboard i t = back ++ rest →
      (∀ w ∈ back, w.sender = C.addr (next i)) → (∀ w ∈ rest, w.sender ≠ C.addr (next i)) →
      s.onward C i t = rest := by
    intro back rest haboard hback hrest
    rw [Ring.onward, haboard, List.filter_append,
      List.filter_eq_nil_iff.mpr (fun w hw => by simpa using hback w hw),
      List.filter_eq_self.mpr (fun w hw => by simpa using hrest w hw), List.nil_append]
  by_cases hlast : i.val = n - 1
  · have hzero : (next i).val = 0 := by rw [val_next, if_pos hlast]
    obtain ⟨rest, hback, hrest, hmem⟩ := @aboard_last _ n ntr s.slot hn t
    have haboard : s.aboard i t = s.slot 0 t ++ rest := by rw [Ring.aboard, hlast, hback]
    have hbefore : ∀ w ∈ s.slot 0 t, w.sender = C.addr (next i) :=
      fun w hw => hsame w t (hzero.symm ▸ hw)
    have hbeyond : ∀ w ∈ rest, w.sender ≠ C.addr (next i) := by
      intro w hw
      obtain ⟨j, hj, hne, hw⟩ := hmem w hw
      exact hother w j hj (hzero.symm ▸ hne) hw
    rw [hsplit _ rest haboard hbefore hbeyond]
    refine ⟨s.slot 0 t, haboard, hbefore, ?_⟩
    rw [if_pos hzero, Ring.aboard, hzero, hrest, hlast]
  · have hsucc : (next i).val = i.val + 1 := by rw [val_next, if_neg hlast]
    obtain ⟨rest, hback, hrest, hmem⟩ := @aboard_succ _ n ntr s.slot i
      (by omega) t
    have hbefore : ∀ w ∈ previous ntr s.slot (i.val + 1) t, w.sender = C.addr (next i) := by
      intro w hw
      obtain ⟨t', hw⟩ := mem_previous hw
      exact hsame w t' (hsucc.symm ▸ hw)
    have hbeyond : ∀ w ∈ rest, w.sender ≠ C.addr (next i) := by
      intro w hw
      obtain ⟨j, hj, hne, hw⟩ := hmem w hw
      exact hother w j hj (hsucc.symm ▸ hne) hw
    rw [hsplit _ rest hback hbefore hbeyond]
    refine ⟨_, hback, hbefore, ?_⟩
    rw [if_neg (by omega), Nat.add_zero, Ring.aboard, hsucc, hrest]

theorem eq_of_trainId_eq {t T : ℕ} (h : trainId hntr t = trainId hntr T) (hle : T ≤ t)
    (hlt : t < T + ntr) : t = T := by
  rcases Nat.eq_or_lt_of_le hle with heq | hgt
  · exact heq.symm
  · exact absurd h.symm (trainId_ne hgt hlt)

/-! ## Broadcasts -/

theorem inv_broadcast (hs : Inv C hntr r₀ ρ s) {i : Fin n} {mp : Message} {p : Proc ntr}
    (h : broadcast (C.config i) mp (s.procs i) = some p) :
    Inv C hntr r₀ ρ { s with procs := Function.update s.procs i p } := by
  have hp : p = { s.procs i with wagonToSend := mallocWiw mp (s.procs i).wagonToSend } := by
    have hstate : (s.procs i).automatonState ≠ .aloneInsertWait := by
      rw [hs.state i]
      decide
    rw [broadcast] at h
    split at h
    · cases h
    · rw [← Option.some.inj h]
      exact if_neg hstate
  have hother : ∀ {P : Fin n → Proc ntr → Prop}, P i p → (∀ j, P j (s.procs j)) →
      ∀ j, P j (Function.update s.procs i p j) := by
    intro P hi hall j
    rcases eq_or_ne j i with rfl | hj
    · rwa [Function.update_self]
    · rw [Function.update_of_ne hj]
      exact hall j
  constructor
  case state =>
    exact hother (P := fun _ p => p.automatonState = .several) (hp ▸ hs.state i) hs.state
  case succ => exact hother (P := fun i p => p.succ = C.addr (next i)) (hp ▸ hs.succ i) hs.succ
  case cameProc => exact hother (P := fun _ p => p.cameProc = 0#16) (hp ▸ hs.cameProc i) hs.cameProc
  case goneProc => exact hother (P := fun _ p => p.goneProc = 0#16) (hp ▸ hs.goneProc i) hs.goneProc
  case sender =>
    exact hother (P := fun i p => p.wagonToSend.sender = C.addr i) (hp ▸ hs.sender i) hs.sender
  case visits =>
    have hi := hs.visits i
    refine hother
      (P := fun i p => Visits hntr (firstRound r₀ ρ) r₀ C.circuit (s.visits i) (s.seen i) p)
      ?_ hs.visits
    rw [hp]
    exact ⟨hi.lis, hi.circuit, hi.round_new, hi.round_last, hi.unstable_new, hi.unstable_last,
      hi.unstable_previous, hi.unstable_empty, hi.delivered, hi.counted⟩
  case slots => exact hs.slots
  case behind => exact hs.behind
  case links => exact hs.links

/-! ## Trains that are not recent -/

theorem inv_reject (hn : 2 ≤ n) (hs : Inv C hntr r₀ ρ s) {i : Fin n} {m : Msg ntr}
    {rest : List (Msg ntr)}
    (hlink : s.links i = m :: rest) : Inv C hntr r₀ ρ (s.after i rest (s.procs i, [])) := by
  have hprocs : (s.after i rest (s.procs i, [])).procs = s.procs :=
    Function.update_eq_self i s.procs
  have hput : (s.after i rest (s.procs i, [])).put = s.put := by
    funext j
    rcases eq_or_ne j i with rfl | hj
    · rw [after_put_self]
      exact List.append_nil _
    · rw [after_put_of_ne _ _ _ _ _ hj]
  have hsub : ∀ j, (s.after i rest (s.procs i, [])).links j = s.links j ∨
      j = i ∧ (s.after i rest (s.procs i, [])).links j = rest := by
    intro j
    rcases eq_or_ne j i with rfl | hj
    · exact .inr ⟨rfl, after_links_self hn s j rest _⟩
    · rcases eq_or_ne j (next i) with rfl | hj'
      · rw [after_links_next hn]
        exact .inl (List.append_nil _)
      · exact .inl (after_links_of_ne _ _ _ _ _ hj hj')
  generalize s.after i rest (s.procs i, []) = s' at *
  obtain ⟨procs, links, put⟩ := s'
  obtain rfl : procs = s.procs := hprocs
  obtain rfl : put = s.put := hput
  refine ⟨hs.state, hs.succ, hs.cameProc, hs.goneProc, hs.sender, hs.visits, hs.slots, hs.behind,
    fun j => ?_⟩
  obtain ⟨pending, hsorted, hbounds, hcarries⟩ := hs.links j
  rcases hsub j with hj | ⟨rfl, hj⟩
  · exact ⟨pending, hsorted, hbounds, hj ▸ hcarries⟩
  · rw [hlink] at hcarries
    cases hcarries with
    | cons _ hrest =>
      exact ⟨_, (List.pairwise_cons.mp hsorted).2, fun t ht =>
        hbounds t (List.mem_cons_of_mem _ ht),
        hj ▸ hrest⟩

/-! ## Trains that are accepted -/

/-- The rounds from which the ring starts are never those of the first lap. -/
theorem firstRound_ne (id : Fin ntr) : firstRound r₀ ρ id ≠ r₀ id := by
  have hne : ∀ r : Fin nr, r + 1 ≠ r := by decide
  rw [firstRound]
  split
  · rename_i h
    rw [h]
    exact hne _
  · assumption

section Accept

variable (i : Fin n) (lc : BitVec 8)

/-- The stamp of the train of the next visit of process `i`. -/
def Ring.stampOf (s : Ring n ntr) (hntr : 0 < ntr) (r₀ ρ : Fin ntr → Fin nr) : Stamp ntr :=
  ⟨trainId hntr (s.visits i), lc, arriving hntr r₀ ρ i (s.visits i)⟩

/-- The process once it has handled that train. -/
def Ring.handled (s : Ring n ntr) (C : Members n) (hntr : 0 < ntr) (r₀ ρ : Fin ntr → Fin nr) :
    Proc ntr :=
  { trainHandling (C.addr i) ⟨s.stampOf i lc hntr r₀ ρ, C.circuit, s.aboard i (s.visits i)⟩
      (s.procs i) with
    lis := (s.stampOf i lc hntr r₀ ρ).id }

/-- The wagon it put on the train. -/
def Ring.own (s : Ring n ntr) (hntr : 0 < ntr) (r₀ ρ : Fin ntr → Fin nr) : Option Wagon :=
  ownWagon (roundAt hntr (firstRound r₀ ρ) (s.visits i)) (s.procs i)

variable {lc}

theorem Inv.own_spec (hs : Inv C hntr r₀ ρ s) {w : Wagon} (hw : s.own i hntr r₀ ρ = some w) :
    w.sender = C.addr i ∧ w.round = roundAt hntr (firstRound r₀ ρ) (s.visits i) ∧ w.msgs ≠ [] := by
  rw [Ring.own, ownWagon] at hw
  split at hw
  · rename_i hfull
    obtain rfl := Option.some.inj hw
    exact ⟨hs.sender i, rfl, (firstMsg_isSome_iff _).mp hfull⟩
  · cases hw

theorem Inv.nextRound (hs : Inv C hntr r₀ ρ s) :
    nextRound (s.stampOf i lc hntr r₀ ρ) (s.procs i).lts =
      roundAt hntr (firstRound r₀ ρ) (s.visits i) := by
  refine (hs.visits i).nextRound_eq rfl ?_ ?_
  · simp only [Ring.stampOf, arriving]
    split
    · split
      · rename_i hlt
        by_cases h : ρ (trainId hntr (s.visits i)) = r₀ (trainId hntr (s.visits i))
        · exact .inr (.inl ⟨hlt, h⟩)
        · left
          rw [roundAt_of_lt hlt, ← @trainId_of_lt _ hntr _ hlt, firstRound, if_neg h]
      · rename_i hge
        exact .inr (.inr ⟨by omega, rfl⟩)
    · exact .inl rfl
  · intro hlt hround
    simp only [Ring.stampOf, arriving, if_pos hlt] at hround ⊢
    split at hround
    · rename_i hi
      rw [firstRound, if_pos hround, if_pos hi]
    · rw [roundAt_of_lt hlt, ← @trainId_of_lt _ hntr _ hlt] at hround
      exact absurd hround (firstRound_ne _)

/-- What the process becomes, sends on and has recorded. -/
theorem Inv.handled_spec (lc : BitVec 8) (hn : 2 ≤ n) (hs : Inv C hntr r₀ ρ s) :
    let q := s.handled i lc C hntr r₀ ρ
    let id := trainId hntr (s.visits i)
    q.automatonState = .several ∧ q.succ = C.addr (next i) ∧ q.cameProc = 0#16 ∧
    q.goneProc = 0#16 ∧ q.wagonToSend.sender = C.addr i ∧
    (q.lts id).pWtosend = s.own i hntr r₀ ρ ∧
    trainMsg (q.lts id) =
      .train ⟨id, lc + 1, roundAt hntr (firstRound r₀ ρ) (s.visits i)⟩ C.circuit
        (some (s.onward C i (s.visits i) ++ (s.own i hntr r₀ ρ).toList)) ∧
    ∀ S, (∀ t < s.visits i, S t = s.seen i t) →
      S (s.visits i) = s.aboard i (s.visits i) ++ (s.own i hntr r₀ ρ).toList →
      Visits hntr (firstRound r₀ ρ) r₀ C.circuit (s.visits i + 1) S q := by
  intro q id
  have hv := hs.visits i
  obtain ⟨back, hwagons, hback, -⟩ := aboard_next hn hs.slots i (s.visits i)
  have hcircuit : (updateCircuit (s.stampOf i lc hntr r₀ ρ).id C.circuit (s.procs i)).1 =
      C.circuit := by
    rw [updateCircuit_steady (hs.cameProc i) (hs.goneProc i)]
    split
    · rfl
    · rename_i hid
      refine hv.circuit (Nat.pos_of_ne_zero fun hzero => hid ?_)
      simp only [Ring.stampOf, hzero, trainId, Nat.zero_mod]
  have hsteady := trainHandling_steady (t := ⟨s.stampOf i lc hntr r₀ ρ, C.circuit,
      s.aboard i (s.visits i)⟩) (hs.cameProc i) (hs.goneProc i) hcircuit hwagons
    (fun w hw => isRecorded_of_mem_aboard hs.slots hw)
    (fun w hw => (hs.succ i).symm ▸ hback w hw)
    (fun w hw => by
      rw [hs.succ i]
      simpa using (List.mem_filter.mp hw).2)
  simp only [hs.nextRound i] at hsteady
  have hlts : q.lts id = ⟨⟨id, lc + 1, roundAt hntr (firstRound r₀ ρ) (s.visits i)⟩, C.circuit,
      if s.onward C i (s.visits i) = [] then none else some (s.onward C i (s.visits i)),
      wagonsLen (s.onward C i (s.visits i)), s.own i hntr r₀ ρ⟩ := by
    simp only [q, Ring.handled, hsteady]
    exact Function.update_self _ _ _
  refine ⟨?_, ?_, ?_, ?_, ?_, ?_, ?_, ?_⟩
  · simp only [q, Ring.handled, hsteady]
    exact hs.state i
  · simp only [q, Ring.handled, hsteady]
    exact hs.succ i
  · simp only [q, Ring.handled, hsteady]
    exact hs.cameProc i
  · simp only [q, Ring.handled, hsteady]
    exact hs.goneProc i
  · simp only [q, Ring.handled, hsteady]
    split
    · rfl
    · exact hs.sender i
  · rw [hlts]
  · rw [hlts]
    exact trainSent_steady
  · intro S hS hT
    obtain ⟨hnow, -, -⟩ := hv.lists
    have hne : ∀ r : Fin nr, r ≠ r - 2 := by decide
    refine hv.handle hS (l := q.lts id) (by rw [hlts]) (by rw [hlts]) rfl ?_ ?_ ?_
    · rw [hlts]
      simp only [q, Ring.handled, hsteady]
      rfl
    · simp only [q, Ring.handled, hsteady]
      rw [hT]
      simp only [Ring.stampOf, Function.update_of_ne (hne _), hnow, List.nil_append]
      rfl
    · simp only [q, Ring.handled, hsteady]
      rfl

/-! ### The logs after the visit -/

variable {i} {own : Option Wagon}

theorem visits_put (hi : s'.put i = s.put i ++ [own]) (hother : ∀ j, j ≠ i → s'.put j = s.put j)
    (j : Fin n) : s'.visits j = if j = i then s.visits i + 1 else s.visits j := by
  rcases eq_or_ne j i with rfl | hj
  · rw [if_pos rfl, Ring.visits, hi, List.length_append]
    rfl
  · rw [if_neg hj, Ring.visits, hother j hj]
    rfl

theorem bound_put (hi : s'.put i = s.put i ++ [own]) (hother : ∀ j, j ≠ i → s'.put j = s.put j)
    (j : Fin n) : s'.bound j = if j = next i then s.bound j + 1 else s.bound j := by
  have hpred : pred j = i ↔ j = next i := by
    constructor
    · rintro rfl
      rw [next_pred]
    · rintro rfl
      rw [pred_next]
  simp only [Ring.bound, visits_put hi hother, hpred]
  split
  · rename_i h
    rw [h, pred_next]
    omega
  · rfl

theorem put_grows (hi : s'.put i = s.put i ++ [own]) (hother : ∀ j, j ≠ i → s'.put j = s.put j)
    (j : Fin n) : s.put j <+: s'.put j := by
  rcases eq_or_ne j i with rfl | hj
  · exact ⟨[own], hi.symm⟩
  · rw [hother j hj]

theorem Slots.put {b : Fin ntr → Fin nr} (hs : Slots C hntr b s) (hi : s'.put i = s.put i ++ [own])
    (hother : ∀ j, j ≠ i → s'.put j = s.put j)
    (hown : ∀ w, own = some w →
      w.sender = C.addr i ∧ w.round = roundAt hntr b (s.visits i) ∧ w.msgs ≠ []) :
    Slots C hntr b s' := by
  intro j t w hw
  rcases eq_or_ne j i with rfl | hj
  · rw [hi] at hw
    rcases Nat.lt_or_ge t (s.put j).length with ht | ht
    · rw [List.getElem?_append_left ht] at hw
      exact hs j t w hw
    · rw [List.getElem?_append_right ht] at hw
      obtain ⟨hzero, hw⟩ := List.getElem?_eq_some_iff.mp hw
      rw [List.length_singleton] at hzero
      obtain rfl : t = s.visits j := by
        rw [Ring.visits]
        omega
      refine hown w ?_
      simpa using hw
  · rw [hother j hj] at hw
    exact hs j t w hw

theorem slot_put (hi : s'.put i = s.put i ++ [own]) : s'.slot i (s.visits i) = own.toList := by
  simp [slot_eq, hi, Ring.visits]

theorem carries_congr {j : Fin n} {pending : List ℕ} {l : List (Msg ntr)}
    (h : List.Forall₂ (Carries C hntr r₀ ρ s j) pending l)
    (haboard : ∀ t ∈ pending, s'.aboard j t = s.aboard j t) :
    List.Forall₂ (Carries C hntr r₀ ρ s' j) pending l := by
  induction h with
  | nil => exact List.Forall₂.nil
  | cons hm _ ih =>
    obtain ⟨lc, rfl⟩ := hm
    refine List.Forall₂.cons ⟨lc, ?_⟩ (ih fun t ht => haboard t (List.mem_cons_of_mem _ ht))
    rw [haboard _ List.mem_cons_self]

/-- The train that process `i` sends on carries the schedule of its successor. -/
theorem carries_sent (hn : 2 ≤ n) (hs : Inv C hntr r₀ ρ s) (hi : s'.put i = s.put i ++ [own])
    (hother : ∀ j, j ≠ i → s'.put j = s.put j) (hslots : Slots C hntr (firstRound r₀ ρ) s')
    (hT : s.visits i < s.bound i) (lc : BitVec 8) :
    Carries C hntr r₀ ρ s' (next i) (s.bound (next i))
      (.train ⟨trainId hntr (s.visits i), lc, roundAt hntr (firstRound r₀ ρ) (s.visits i)⟩ C.circuit
        (some (s.onward C i (s.visits i) ++ own.toList))) := by
  have haboard : s'.aboard i (s.visits i) = s.aboard i (s.visits i) :=
    aboard_stable hs (put_grows hi hother) hT
  have honward : s'.onward C i (s.visits i) = s.onward C i (s.visits i) := by
    rw [Ring.onward, haboard, Ring.onward]
  obtain ⟨-, -, -, hnext⟩ := aboard_next hn hslots i (s.visits i)
  rw [honward, slot_put hi] at hnext
  have hbound : s.bound (next i) = s.visits i + if (next i).val = 0 then ntr else 0 := by
    rw [Ring.bound, pred_next]
  refine ⟨lc, ?_⟩
  rw [hbound, hnext]
  congr 2
  · split
    · exact (trainId_add _).symm
    · rfl
  · rw [arriving]
    split
    · rw [if_neg (by omega), Nat.add_sub_cancel]
    · rfl

/-- The ring once process `i` has handled the train of its next visit. -/
def Ring.accepted (s : Ring n ntr) (i : Fin n) (lc : BitVec 8) (C : Members n) (hntr : 0 < ntr)
    (r₀ ρ : Fin ntr → Fin nr) (rest : List (Msg ntr)) : Ring n ntr :=
  let q := s.handled i lc C hntr r₀ ρ
  s.after i rest (q, [.sendTrain (C.addr (next i)) (q.lts (trainId hntr (s.visits i)))])

theorem Inv.accepted_put (hn : 2 ≤ n) (hs : Inv C hntr r₀ ρ s) (i : Fin n) (lc : BitVec 8)
    (rest : List (Msg ntr)) :
    (s.accepted i lc C hntr r₀ ρ rest).put i = s.put i ++ [s.own i hntr r₀ ρ] ∧
    ∀ j, j ≠ i → (s.accepted i lc C hntr r₀ ρ rest).put j = s.put j := by
  obtain ⟨-, -, -, -, -, hown, -⟩ := hs.handled_spec i lc hn
  refine ⟨?_, fun j hj => after_put_of_ne _ _ _ _ _ hj⟩
  simp only [Ring.accepted, after_put_self, ownWagons_sendTrain, hown]

theorem inv_accept (hn : 2 ≤ n) (hs : Inv C hntr r₀ ρ s) {rest : List (Msg ntr)}
    (hrest : ∃ pending, pending.Pairwise (· < ·) ∧
      (∀ t ∈ pending, s.visits i < t ∧ t < s.bound i) ∧
      List.Forall₂ (Carries C hntr r₀ ρ s i) pending rest) (hT : s.visits i < s.bound i) :
    Inv C hntr r₀ ρ (s.accepted i lc C hntr r₀ ρ rest) := by
  obtain ⟨hstate, hsucc, hcame, hgone, hsender, -, hsent, hvisits⟩ :=
    hs.handled_spec i lc hn
  obtain ⟨hi, hother⟩ := hs.accepted_put hn i lc rest
  have hprocs : ∀ {P : Fin n → Proc ntr → Prop}, P i (s.handled i lc C hntr r₀ ρ) →
      (∀ j, j ≠ i → P j (s.procs j)) → ∀ j, P j ((s.accepted i lc C hntr r₀ ρ rest).procs j) := by
    intro P hPi hP j
    rcases eq_or_ne j i with rfl | hj
    · simpa only [Ring.accepted, after_procs_self] using hPi
    · rw [Ring.accepted, after_procs_of_ne _ _ _ _ _ hj]
      exact hP j hj
  have hlinks_self : (s.accepted i lc C hntr r₀ ρ rest).links i = rest :=
    after_links_self hn _ _ _ _
  have hlinks_next : (s.accepted i lc C hntr r₀ ρ rest).links (next i) = s.links (next i) ++
      [.train ⟨trainId hntr (s.visits i), lc + 1, roundAt hntr (firstRound r₀ ρ) (s.visits i)⟩
        C.circuit (some (s.onward C i (s.visits i) ++ (s.own i hntr r₀ ρ).toList))] := by
    simp only [Ring.accepted, after_links_next hn, written_sendTrain, hsent]
  have hlinks_other : ∀ j, j ≠ i → j ≠ next i →
      (s.accepted i lc C hntr r₀ ρ rest).links j = s.links j :=
    fun j hj hj' => after_links_of_ne _ _ _ _ _ hj hj'
  generalize s.accepted i lc C hntr r₀ ρ rest = s' at *
  have hput := put_grows hi hother
  have hslots : Slots C hntr (firstRound r₀ ρ) s' :=
    hs.slots.put hi hother fun w hw => hs.own_spec i hw
  have haboard : ∀ {j t}, t < s.bound j → s'.aboard j t = s.aboard j t :=
    fun ht => aboard_stable hs hput ht
  constructor
  case state =>
    exact hprocs (P := fun _ p => p.automatonState = .several) hstate fun j _ => hs.state j
  case succ => exact hprocs (P := fun j p => p.succ = C.addr (next j)) hsucc fun j _ => hs.succ j
  case cameProc => exact hprocs (P := fun _ p => p.cameProc = 0#16) hcame fun j _ => hs.cameProc j
  case goneProc => exact hprocs (P := fun _ p => p.goneProc = 0#16) hgone fun j _ => hs.goneProc j
  case sender =>
    exact hprocs (P := fun j p => p.wagonToSend.sender = C.addr j) hsender fun j _ => hs.sender j
  case visits =>
    refine hprocs (P := fun j p =>
      Visits hntr (firstRound r₀ ρ) r₀ C.circuit (s'.visits j) (s'.seen j) p) ?_ fun j hj => ?_
    · rw [visits_put hi hother, if_pos rfl]
      refine hvisits _ (fun t ht => seen_stable hs hput ht) ?_
      rw [Ring.seen, seen_eq]
      exact congrArg₂ (· ++ ·) (haboard hT) (slot_put hi)
    · rw [visits_put hi hother, if_neg hj]
      exact (hs.visits j).congr fun t ht => seen_stable hs hput ht
  case slots => exact hslots
  case behind =>
    intro j
    have hj := hs.behind j
    rw [visits_put hi hother, bound_put hi hother]
    split
    · rename_i hji
      subst hji
      split <;> omega
    · split <;> omega
  case links =>
    intro j
    rcases eq_or_ne j i with rfl | hj
    · obtain ⟨pending, hsorted, hbounds, hcarries⟩ := hrest
      refine ⟨pending, hsorted, fun t ht => ?_, ?_⟩
      · rw [visits_put hi hother, if_pos rfl, bound_put hi hother, if_neg (next_ne hn j).symm]
        exact hbounds t ht
      · rw [hlinks_self]
        exact carries_congr hcarries fun t ht => haboard (hbounds t ht).2
    · obtain ⟨pending, hsorted, hbounds, hcarries⟩ := hs.links j
      have hcongr : List.Forall₂ (Carries C hntr r₀ ρ s' j) pending (s.links j) :=
        carries_congr hcarries fun t ht => haboard (hbounds t ht).2
      rw [visits_put hi hother, if_neg hj, bound_put hi hother]
      rcases eq_or_ne j (next i) with rfl | hj'
      · refine ⟨pending ++ [s.bound (next i)], ?_, ?_, ?_⟩
        · rw [List.pairwise_append]
          refine ⟨hsorted, List.pairwise_singleton _ _, fun t ht t' ht' => ?_⟩
          rw [List.mem_singleton.mp ht']
          exact (hbounds t ht).2
        · rw [if_pos rfl]
          intro t ht
          rcases List.mem_append.mp ht with ht | ht
          · exact ⟨(hbounds t ht).1, Nat.lt_succ_of_lt (hbounds t ht).2⟩
          · rw [List.mem_singleton.mp ht]
            exact ⟨hs.behind _, Nat.lt_succ_self _⟩
        · rw [hlinks_next]
          exact List.rel_append hcongr
            (List.Forall₂.cons (carries_sent hn hs hi hother hslots hT _) List.Forall₂.nil)
      · rw [if_neg hj', hlinks_other j hj hj']
        exact ⟨pending, hsorted, hbounds, hcongr⟩

end Accept

/-! ## Every event -/

/-- What the treatment of a message does: the oldest message of a link is always a train
that the process can handle, and it accepts only the train of its next visit. -/
theorem Inv.handle_cases (hn : 2 ≤ n) (hs : Inv C hntr r₀ ρ s) {i : Fin n} {m : Msg ntr}
    {rest : List (Msg ntr)} (hlink : s.links i = m :: rest) :
    (step C s (.handle i) = some (s.after i rest (s.procs i, [])) ∨
      ∃ lc, m = .train (s.stampOf i lc hntr r₀ ρ) C.circuit (some (s.aboard i (s.visits i))) ∧
        isRecentTrain (s.stampOf i lc hntr r₀ ρ) (s.procs i).lts (s.procs i).lis = true ∧
        step C s (.handle i) = some (s.accepted i lc C hntr r₀ ρ rest) ∧
        s.visits i < s.bound i ∧ ∃ pending, pending.Pairwise (· < ·) ∧
          (∀ t ∈ pending, s.visits i < t ∧ t < s.bound i) ∧
          List.Forall₂ (Carries C hntr r₀ ρ s i) pending rest) := by
  obtain ⟨pending, hsorted, hbounds, hcarries⟩ := hs.links i
  rw [hlink] at hcarries
  cases hcarries with
  | @cons t _ pending _ hm hrest =>
    obtain ⟨lc, rfl⟩ := hm
    obtain ⟨hhead, htail⟩ := List.pairwise_cons.mp hsorted
    obtain ⟨hle, hlt⟩ := hbounds t List.mem_cons_self
    have hstep : step C s (.handle i) =
        (stateMachine (C.config i) (fun _ => false) (.train ⟨trainId hntr t, lc,
          arriving hntr r₀ ρ i t⟩ C.circuit (some (s.aboard i t))) (s.procs i)).map
          (s.after i rest) := by
      simp only [step, hlink]
    rw [several_train (hs.state i) (C.member i)] at hstep
    by_cases hrecent : isRecentTrain ⟨trainId hntr t, lc, arriving hntr r₀ ρ i t⟩
        (s.procs i).lts (s.procs i).lis = true
    · right
      have hid : trainId hntr t = trainId hntr (s.visits i) :=
        (isRecentTrain_id hrecent).trans (hs.visits i).lis
      obtain rfl : t = s.visits i :=
        eq_of_trainId_eq hid hle (hlt.trans_le (hs.bound_le i i))
      have hsucc : (s.handled i lc C hntr r₀ ρ).succ = C.addr (next i) :=
        (hs.handled_spec i lc hn).2.1
      have hnext : C.addr (next i) ≠ 0#16 := ne_zero_of_addrIsMember (C.member (next i))
      refine ⟨lc, rfl, hrecent, ?_, hlt, pending, htail, fun t ht => ⟨hhead t ht,
        (hbounds t (List.mem_cons_of_mem _ ht)).2⟩, hrest⟩
      rw [hstep, if_pos hrecent]
      change some (s.after i rest (s.handled i lc C hntr r₀ ρ,
        if (s.handled i lc C hntr r₀ ρ).succ ≠ 0#16 then
          [.sendTrain (s.handled i lc C hntr r₀ ρ).succ
            ((s.handled i lc C hntr r₀ ρ).lts (trainId hntr (s.visits i)))] else [])) = _
      rw [hsucc, if_pos hnext]
      rfl
    · left
      rw [hstep, if_neg hrecent]
      rfl

theorem inv_step (hn : 2 ≤ n) {e : Event n} (hs : Inv C hntr r₀ ρ s) (h : step C s e = some s') :
    Inv C hntr r₀ ρ s' := by
  cases e with
  | broadcast i mp =>
    obtain ⟨p, hp, rfl⟩ := Option.map_eq_some_iff.mp h
    exact inv_broadcast hs hp
  | handle i =>
    cases hlink : s.links i with
    | nil => simp [step, hlink] at h
    | cons m rest =>
      rcases hs.handle_cases hn hlink with hstep | ⟨lc, -, -, hstep, hlt, hrest⟩
      · obtain rfl := Option.some.inj (hstep.symm.trans h)
        exact inv_reject hn hs hlink
      · obtain rfl := Option.some.inj (hstep.symm.trans h)
        exact inv_accept hn hs hrest hlt

/-- The invariant holds after every run from a freshly formed ring. -/
theorem inv_exec {s₀ : Ring n ntr} {hn : 2 ≤ n} {es : List (Event n)} (hntr : 0 < ntr)
    (hfresh : Fresh C hn s₀) (h : exec (step C) s₀ es = some s) : ∃ r₀ ρ, Inv C hntr r₀ ρ s := by
  obtain ⟨r₀, ρ, hs₀⟩ := inv_fresh hntr hfresh
  exact ⟨r₀, ρ, exec_invariant (fun _ _ _ hs h => inv_step hn hs h) hs₀ h⟩

end UniformBroadcast.Trains
