import UniformBroadcast.TrainContinuitySteps

/-!
# From `front` to `rear`

The processes from `front` to `rear` never change their neighbours. Each link between two of
them holds the trains that one has sent and the next has not treated yet, and every train
that arrives is accepted.
-/

namespace UniformBroadcast.Trains.Continuity

variable {N ntr : ℕ}

/-- `j` is after `i` and neither is the relay. -/
def Linked (i j : Fin (N + 1)) : Prop := j.val = i.val + 1 ∧ j.val < N

def OnLink (c : Chan N) : Prop := c.isPred = false ∧ Linked c.source c.target

section Places

variable (hN : 2 ≤ N)

theorem ne_relay_iff (i : Fin (N + 1)) : i ≠ relay ↔ i.val < N := by
  have hi := i.isLt
  rw [ne_eq, Fin.ext_iff]
  change ¬ i.val = N ↔ i.val < N
  omega

theorem ne_front_iff (i : Fin (N + 1)) : i ≠ front ↔ 0 < i.val := by
  rw [ne_eq, Fin.ext_iff]
  change ¬ i.val = 0 ↔ 0 < i.val
  omega

theorem val_rear : (rear : Fin (N + 1)).val = N - 1 := rfl

theorem val_front : (front : Fin (N + 1)).val = 0 := rfl

theorem val_relay : (relay : Fin (N + 1)).val = N := rfl

include hN

theorem rear_ne_front : (rear : Fin (N + 1)) ≠ front := by
  rw [ne_front_iff, val_rear]
  omega

theorem rear_ne_relay : (rear : Fin (N + 1)) ≠ relay := by
  rw [ne_relay_iff, val_rear]
  omega

theorem front_ne_relay : (front : Fin (N + 1)) ≠ relay := by
  rw [ne_relay_iff, val_front]
  omega

omit hN in
/-- A link is no channel of the path. -/
theorem not_onPath {c : Chan N} (hc : OnLink c) : ¬ OnPath c := by
  obtain ⟨hpred, hnext, hlt⟩ := hc
  rintro (rfl | rfl | rfl | rfl | rfl | rfl)
  · simp [direct, val_front] at hnext
  · simp [toRelay, val_relay] at hlt
  · simp [fromRelay, val_front] at hnext
  · simp [frontToRear] at hpred
  · simp [relayToRear] at hpred
  · simp [frontToRelay] at hpred

omit hN in
theorem Linked.ne_relay {i j : Fin (N + 1)} (h : Linked i j) : i ≠ relay ∧ j ≠ relay := by
  obtain ⟨hnext, hlt⟩ := h
  exact ⟨(ne_relay_iff i).mpr (by omega), (ne_relay_iff j).mpr hlt⟩

omit hN in
theorem Linked.ne {i j : Fin (N + 1)} (h : Linked i j) : i ≠ j ∧ j ≠ front := by
  obtain ⟨hnext, hlt⟩ := h
  refine ⟨?_, (ne_front_iff j).mpr (by omega)⟩
  rintro rfl
  omega

omit hN in
theorem Linked.unique {i i' j : Fin (N + 1)} (h : Linked i j) (h' : Linked i' j) : i = i' := by
  have hv := h.1.symm.trans h'.1
  exact Fin.ext (by omega)

omit hN in
theorem Linked.unique_next {i j j' : Fin (N + 1)} (h : Linked i j) (h' : Linked i j') : j = j' :=
  Fin.ext (h.1.trans h'.1.symm)

/-- Every process but `rear` and the relay has a successor on a link. -/
theorem exists_linked {i : Fin (N + 1)} (hi : i ≠ relay) (hi' : i ≠ rear) :
    ∃ j, Linked i j := by
  rw [ne_relay_iff] at hi
  have hne : i.val ≠ N - 1 := by
    intro h
    exact hi' (Fin.ext h)
  exact ⟨⟨i.val + 1, by omega⟩, rfl, show i.val + 1 < N by omega⟩

end Places

/-! ## The invariant -/

section Invariant

variable (M : Members (N + 1)) (hntr : 0 < ntr)

/-- `h i` is how many visits process `i` has made, those of the lap before the start
included. -/
structure Core (τ : ℕ → ℕ) (h : Fin (N + 1) → ℕ) (s : Circle N ntr) : Prop where
  alive : ∀ i, i ≠ relay → s.alive i = true
  state : ∀ i, i ≠ relay → (s.procs i).automatonState = .several
  lis : ∀ i, i ≠ relay → idPlus (s.procs i).lis 1 = trainId hntr (h i)
  window : ∀ i, i ≠ relay → Window hntr τ i.val i.val (h i) (s.procs i).lts (s.tags i)
  full : ∀ i, i ≠ relay → ntr ≤ h i
  le : ∀ i, i ≠ relay → h i ≤ h front
  succ : ∀ i j, Linked i j → (s.procs i).succ = M.addr j
  link : ∀ i j, Linked i j → Stream hntr τ i.val i.val (h j) (s.chans ⟨i, j, false⟩)
  link_length : ∀ i j, Linked i j → h j + (s.chans ⟨i, j, false⟩).length = h i
  laps : Laps N ntr τ (h front - ntr)
  around : h front ≤ h rear + ntr
  accepted : s.accepted =
    (List.range' ntr (h front - ntr)).map fun k => (trainId hntr k, k / ntr)
  quiet : ∀ c, s.chans c ≠ [] → OnLink c ∨ OnPath c

end Invariant

section Steps

variable {M : Members (N + 1)} {hntr : 0 < ntr} {τ : ℕ → ℕ} {h : Fin (N + 1) → ℕ}
  {s s' : Circle N ntr} {i j k : Fin (N + 1)} {m : Msg ntr × Tag} {rest : List (Msg ntr × Tag)}
  {q : Proc ntr} {actions : List (Action ntr)} {c : Chan N}

/-- A step that only concerns the path. -/
theorem Core.congr (hs : Core M hntr τ h s) (halive : ∀ i, i ≠ relay → s'.alive i = s.alive i)
    (hprocs : ∀ i, i ≠ relay → (s'.procs i).automatonState = (s.procs i).automatonState ∧
      (s'.procs i).lis = (s.procs i).lis ∧ (s'.procs i).lts = (s.procs i).lts)
    (hsucc : ∀ i j, Linked i j → (s'.procs i).succ = (s.procs i).succ)
    (htags : ∀ i, i ≠ relay → s'.tags i = s.tags i)
    (hchans : ∀ c, OnLink c → s'.chans c = s.chans c) (haccepted : s'.accepted = s.accepted)
    (hquiet : ∀ c, s'.chans c ≠ [] → OnLink c ∨ OnPath c) : Core M hntr τ h s' where
  alive i hi := (halive i hi).trans (hs.alive i hi)
  state i hi := (hprocs i hi).1.trans (hs.state i hi)
  lis i hi := by
    rw [(hprocs i hi).2.1]
    exact hs.lis i hi
  window i hi := by
    rw [(hprocs i hi).2.2, htags i hi]
    exact hs.window i hi
  full := hs.full
  le := hs.le
  succ i j hij := (hsucc i j hij).trans (hs.succ i j hij)
  link i j hij := by
    rw [hchans ⟨i, j, false⟩ ⟨rfl, hij⟩]
    exact hs.link i j hij
  link_length i j hij := by
    rw [hchans ⟨i, j, false⟩ ⟨rfl, hij⟩]
    exact hs.link_length i j hij
  laps := hs.laps
  around := hs.around
  accepted := haccepted.trans hs.accepted
  quiet := hquiet

/-- The channels of a step on the path are those of the links, and no new ones. -/
theorem quiet_update {chans : Chan N → List (Msg ntr × Tag)} {l : List (Msg ntr × Tag)}
    (hquiet : ∀ c, chans c ≠ [] → OnLink c ∨ OnPath c) (hc : OnPath c) (c' : Chan N)
    (hfull : Function.update chans c l c' ≠ []) : OnLink c' ∨ OnPath c' := by
  by_cases hcc : c' = c
  · rw [hcc]
    exact .inr hc
  · rw [Function.update_of_ne hcc] at hfull
    exact hquiet c' hfull

theorem link_update {chans : Chan N → List (Msg ntr × Tag)} (l : List (Msg ntr × Tag))
    (hc : OnPath c) (c' : Chan N) (hlink : OnLink c') :
    Function.update chans c l c' = chans c' := by
  apply Function.update_of_ne
  rintro rfl
  exact not_onPath hlink hc

/-- Only a channel of the path changes. -/
theorem Core.path (hs : Core M hntr τ h s) (hc : OnPath c) (l : List (Msg ntr × Tag)) :
    Core M hntr τ h { s with chans := Function.update s.chans c l } := by
  apply hs.congr
  · exact fun i _ => rfl
  · exact fun i _ => ⟨rfl, rfl, rfl⟩
  · exact fun i j _ => rfl
  · exact fun i _ => rfl
  · exact link_update l hc
  · rfl
  · exact quiet_update hs.quiet hc

/-- One process changes, but not in what its neighbours on the links rely on. -/
theorem Core.changes (hs : Core M hntr τ h s) (hprocs : s'.procs = Function.update s.procs i q)
    (hsame : i ≠ relay → q.automatonState = (s.procs i).automatonState ∧
      q.lis = (s.procs i).lis ∧ q.lts = (s.procs i).lts)
    (hsucc : ∀ j, Linked i j → q.succ = (s.procs i).succ)
    (halive : ∀ k, k ≠ relay → s'.alive k = s.alive k)
    (htags : ∀ k, k ≠ relay → s'.tags k = s.tags k)
    (hchans : ∀ c, OnLink c → s'.chans c = s.chans c) (haccepted : s'.accepted = s.accepted)
    (hquiet : ∀ c, s'.chans c ≠ [] → OnLink c ∨ OnPath c) : Core M hntr τ h s' := by
  refine hs.congr halive ?_ ?_ htags hchans haccepted hquiet
  · intro k hk
    rw [hprocs]
    by_cases hki : k = i
    · subst hki
      rw [Function.update_self]
      exact hsame hk
    · rw [Function.update_of_ne hki]
      exact ⟨rfl, rfl, rfl⟩
  · intro k j hkj
    rw [hprocs]
    by_cases hki : k = i
    · subst hki
      rw [Function.update_self]
      exact hsucc j hkj
    · rw [Function.update_of_ne hki]

/-- The relay changes: no link has it at an end. -/
theorem Core.relay_changes (hs : Core M hntr τ h s)
    (hprocs : s'.procs = Function.update s.procs relay q)
    (halive : ∀ k, k ≠ relay → s'.alive k = s.alive k)
    (htags : ∀ k, k ≠ relay → s'.tags k = s.tags k)
    (hchans : ∀ c, OnLink c → s'.chans c = s.chans c) (haccepted : s'.accepted = s.accepted)
    (hquiet : ∀ c, s'.chans c ≠ [] → OnLink c ∨ OnPath c) : Core M hntr τ h s' := by
  refine hs.changes hprocs ?_ ?_ halive htags hchans haccepted hquiet
  · intro hne
    exact absurd rfl hne
  · intro j hj
    exact absurd rfl hj.ne_relay.1

/-- The train that heads a link is recent. -/
theorem Core.link_recent (hN : 2 ≤ N) (hnp : N + 1 ≤ np) (hs : Core M hntr τ h s)
    (hij : Linked i j) (hc : s.chans ⟨i, j, false⟩ = m :: rest) :
    h j < h i ∧ ∃ st circuit wagons, m.1 = .train st circuit wagons ∧
      st.id = trainId hntr (h j) ∧ isRecentTrain st (s.procs j).lts (s.procs j).lis = true := by
  have hj := hij.ne_relay.2
  have hlink := hs.link i j hij
  have hlength := hs.link_length i j hij
  rw [hc] at hlink hlength
  rw [List.length_cons] at hlength
  have hlt : h j < h i := by omega
  obtain ⟨⟨st, circuit, wagons, hmsg, hid, hlc, hlo, hhi, -⟩, -⟩ := hlink
  obtain ⟨hown, hownlo, hownhi⟩ := (hs.window j hj).clock (hs.full j hj)
  have hfull := hs.full j hj
  have hle := hs.le i hij.ne_relay.1
  have hlap := hs.laps (h j - ntr) (by omega)
  rw [Nat.sub_add_cancel hfull] at hlap
  have hnext := hij.1
  have h16 : np = 16 := rfl
  refine ⟨hlt, st, circuit, wagons, hmsg, hid, ?_⟩
  apply recent_of_lt (hid.trans (hs.lis j hj).symm) hlc (by rw [hid]; exact hown)
  · omega
  · omega

end Steps

/-! ## A train that leaves -/

section Sent

variable {M : Members (N + 1)} {hntr : 0 < ntr} {τ : ℕ → ℕ} {a b k : ℕ} {m : Msg ntr × Tag}
  {st : Stamp ntr} {circuit : Address} {wagons : Option (List Wagon)} {p q : Proc ntr}

theorem Tag.sent_succ (t : Tag) (atFront : Bool) (lc : BitVec 8) :
    t.sent atFront lc (lc + 1) = ⟨if atFront then t.lap + 1 else t.lap, t.clock + 1⟩ := by
  have hone : lc + 1 - lc = 1#8 := by
    rw [BitVec.add_comm]
    exact BitVec.add_sub_cancel 1#8 lc
  rw [Tag.sent, hone]
  rfl

/-- The process numbered one more sends the train of the same visit, one tick later. -/
theorem IsVisit.sent (hm : IsVisit hntr τ a b k m) (hmsg : m.1 = .train st circuit wagons)
    (ht : Took st p q) : IsVisit hntr τ (a + 1) (b + 1) k
      (trainMsg (q.lts st.id), m.2.sent false st.lc (q.lts st.id).stamp.lc) := by
  obtain ⟨st', circuit', wagons', hmsg', hid, hlc, hlo, hhi, hlap⟩ := hm
  rw [hmsg'] at hmsg
  cases hmsg
  rw [ht.lc, Tag.sent_succ]
  refine ⟨_, _, _, rfl, ht.id.trans hid, ?_, ?_, ?_, hlap⟩
  · rw [ht.lc, hlc]
    exact (BitVec.ofNat_add m.2.clock 1).symm
  · dsimp only
    omega
  · dsimp only
    omega

/-- `front` sends the train of its next visit. -/
theorem IsVisit.sent_front {τ' : ℕ → ℕ} {h : ℕ} (hm : IsVisit hntr τ a b k m)
    (hmsg : m.1 = .train st circuit wagons) (ht : Took st p q) (hh : k + ntr = h)
    (hτ : τ' h = m.2.clock + 1) : IsVisit hntr τ' 0 0 h
      (trainMsg (q.lts st.id), m.2.sent true st.lc (q.lts st.id).stamp.lc) := by
  obtain ⟨st', circuit', wagons', hmsg', hid, hlc, -, -, hlap⟩ := hm
  rw [hmsg'] at hmsg
  cases hmsg
  subst hh
  rw [ht.lc, Tag.sent_succ]
  refine ⟨_, _, _, rfl, ?_, ?_, ?_, ?_, ?_⟩
  · rw [ht.id, hid, trainId_add]
  · rw [ht.lc, hlc]
    exact (BitVec.ofNat_add m.2.clock 1).symm
  · rw [hτ, Nat.add_zero]
  · rw [hτ, Nat.add_zero]
  · rw [Nat.add_div_right k hntr, ← hlap]
    rfl

end Sent

/-! ## One visit more -/

section Take

variable {M : Members (N + 1)} {hntr : 0 < ntr} {τ : ℕ → ℕ} {h : Fin (N + 1) → ℕ}
  {s s' : Circle N ntr} {i j : Fin (N + 1)} {m : Msg ntr × Tag} {rest : List (Msg ntr × Tag)}
  {q : Proc ntr} {st : Stamp ntr} {circuit : Address} {wagons : Option (List Wagon)}

/-- The train that a process sends when it has taken `st` from message `m`. -/
def sentTrain (atFront : Bool) (m : Msg ntr × Tag) (st : Stamp ntr) (q : Proc ntr) :
    Msg ntr × Tag :=
  (trainMsg (q.lts st.id), m.2.sent atFront st.lc (q.lts st.id).stamp.lc)

/-- What a process takes from its link it sends for the same visit. -/
theorem Core.sent (hs : Core M hntr τ h s) (hij : Linked i j)
    (hc : s.chans ⟨i, j, false⟩ = m :: rest) (hmsg : m.1 = .train st circuit wagons)
    (ht : Took st (s.procs j) q) : st.id = trainId hntr (h j) ∧
      IsVisit hntr τ j.val j.val (h j) (sentTrain false m st q) := by
  have hlink := hs.link i j hij
  rw [hc] at hlink
  have hvisit := hlink.1
  have hid : st.id = trainId hntr (h j) := by
    obtain ⟨st', circuit', wagons', hmsg', hid, -⟩ := hvisit
    rw [hmsg'] at hmsg
    cases hmsg
    exact hid
  have hsent := hvisit.sent hmsg ht
  rw [← hij.1] at hsent
  exact ⟨hid, hsent⟩

theorem Core.takes (hs : Core M hntr τ h s) (hij : Linked i j)
    (hc : s.chans ⟨i, j, false⟩ = m :: rest) (hmsg : m.1 = .train st circuit wagons)
    (ht : Took st (s.procs j) q) (halive : s'.alive = s.alive)
    (hprocs : s'.procs = Function.update s.procs j q)
    (htags : s'.tags = Function.update s.tags j
      (setAt (s.tags j) st.id (sentTrain false m st q).2))
    (haccepted : s'.accepted = s.accepted) (hin : s'.chans ⟨i, j, false⟩ = rest)
    (hout : ∀ k, Linked j k →
      s'.chans ⟨j, k, false⟩ = s.chans ⟨j, k, false⟩ ++ [sentTrain false m st q])
    (hother : ∀ i' k, Linked i' k → k ≠ j → i' ≠ j →
      s'.chans ⟨i', k, false⟩ = s.chans ⟨i', k, false⟩)
    (hquiet : ∀ c, s'.chans c ≠ [] → OnLink c ∨ OnPath c) :
    Core M hntr τ (Function.update h j (h j + 1)) s' := by
  obtain ⟨hid, hsent⟩ := hs.sent hij hc hmsg ht
  have hj := hij.ne_relay.2
  have hjf := hij.ne.2
  have hlength := hs.link_length i j hij
  rw [hc, List.length_cons] at hlength
  have hlink := hs.link i j hij
  rw [hc] at hlink
  have hfront : Function.update h j (h j + 1) front = h front :=
    Function.update_of_ne hjf.symm _ _
  constructor
  case alive =>
    intro i' hi'
    rw [halive]
    exact hs.alive i' hi'
  case state =>
    intro i' hi'
    rw [hprocs]
    by_cases hij' : i' = j
    · subst hij'
      rw [Function.update_self]
      exact ht.state.trans (hs.state i' hi')
    · rw [Function.update_of_ne hij']
      exact hs.state i' hi'
  case lis =>
    intro i' hi'
    rw [hprocs]
    by_cases hij' : i' = j
    · subst hij'
      rw [Function.update_self, Function.update_self, ht.lis, hid, idPlus_trainId]
    · rw [Function.update_of_ne hij', Function.update_of_ne hij']
      exact hs.lis i' hi'
  case window =>
    intro i' hi'
    rw [hprocs, htags]
    by_cases hij' : i' = j
    · subst hij'
      rw [Function.update_self, Function.update_self, Function.update_self]
      apply (hs.window i' hi').succ
      · intro id hne
        rw [← hid] at hne
        exact ⟨ht.other id hne, Function.update_of_ne hne _ _⟩
      · rw [← hid, setAt, Function.update_self]
        exact hsent
    · rw [Function.update_of_ne hij', Function.update_of_ne hij', Function.update_of_ne hij']
      exact hs.window i' hi'
  case full =>
    intro i' hi'
    by_cases hij' : i' = j
    · subst hij'
      rw [Function.update_self]
      exact Nat.le_succ_of_le (hs.full i' hi')
    · rw [Function.update_of_ne hij']
      exact hs.full i' hi'
  case le =>
    intro i' hi'
    rw [hfront]
    by_cases hij' : i' = j
    · subst hij'
      have hle := hs.le i hij.ne_relay.1
      rw [Function.update_self]
      omega
    · rw [Function.update_of_ne hij']
      exact hs.le i' hi'
  case succ =>
    intro i' k hik
    rw [hprocs]
    by_cases hij' : i' = j
    · subst hij'
      rw [Function.update_self, ht.succ]
      exact hs.succ i' k hik
    · rw [Function.update_of_ne hij']
      exact hs.succ i' k hik
  case link =>
    intro i' k hik
    by_cases hkj : k = j
    · subst hkj
      obtain rfl := hij.unique hik
      rw [hin, Function.update_self]
      exact hlink.2
    · rw [Function.update_of_ne hkj]
      by_cases hij' : i' = j
      · subst hij'
        rw [hout k hik]
        apply (hs.link i' k hik).concat
        rw [hs.link_length i' k hik]
        exact hsent
      · rw [hother i' k hik hkj hij']
        exact hs.link i' k hik
  case link_length =>
    intro i' k hik
    by_cases hkj : k = j
    · subst hkj
      obtain rfl := hij.unique hik
      rw [hin, Function.update_self, Function.update_of_ne hij.ne.1]
      omega
    · rw [Function.update_of_ne hkj]
      by_cases hij' : i' = j
      · subst hij'
        have hold := hs.link_length i' k hik
        rw [hout k hik, Function.update_self, List.length_append, List.length_singleton]
        omega
      · rw [hother i' k hik hkj hij', Function.update_of_ne hij']
        exact hs.link_length i' k hik
  case laps =>
    rw [hfront]
    exact hs.laps
  case around =>
    have hold := hs.around
    rw [hfront]
    by_cases hrear : rear = j
    · rw [hrear] at hold ⊢
      rw [Function.update_self]
      omega
    · rw [Function.update_of_ne hrear]
      exact hold
  case accepted =>
    rw [haccepted, hfront]
    exact hs.accepted
  case quiet => exact hquiet

/-- `front` takes the train that it waits for. -/
theorem Core.takes_front (hN : 2 ≤ N) (hs : Core M hntr τ h s)
    (hm : IsVisit hntr τ (N - 1) N (h front - ntr) m) (hlt : h front - ntr < h rear)
    (hmsg : m.1 = .train st circuit wagons) (ht : Took st (s.procs front) q)
    (halive : s'.alive = s.alive) (hprocs : s'.procs = Function.update s.procs front q)
    (htags : s'.tags = Function.update s.tags front
      (setAt (s.tags front) st.id (sentTrain true m st q).2))
    (haccepted : s'.accepted = s.accepted ++ [(st.id, m.2.lap)])
    (hout : ∀ k, Linked front k →
      s'.chans ⟨front, k, false⟩ = s.chans ⟨front, k, false⟩ ++ [sentTrain true m st q])
    (hother : ∀ i' k, Linked i' k → i' ≠ front →
      s'.chans ⟨i', k, false⟩ = s.chans ⟨i', k, false⟩)
    (hquiet : ∀ c, s'.chans c ≠ [] → OnLink c ∨ OnPath c) :
    Core M hntr (Function.update τ (h front) (m.2.clock + 1))
      (Function.update h front (h front + 1)) s' := by
  have hf := front_ne_relay hN
  have hfull := hs.full front hf
  have hback : h front - ntr + ntr = h front := Nat.sub_add_cancel hfull
  have hsent : IsVisit hntr (Function.update τ (h front) (m.2.clock + 1)) 0 0 (h front)
      (sentTrain true m st q) :=
    hm.sent_front hmsg ht hback (Function.update_self (h front) (m.2.clock + 1) τ)
  have hid : st.id = trainId hntr (h front) := by
    obtain ⟨st', circuit', wagons', hmsg', hid, -⟩ := hm
    rw [hmsg'] at hmsg
    cases hmsg
    rw [hid, ← trainId_add, hback]
  -- the clocks of the visits made do not change
  have hold : ∀ k < h front, Function.update τ (h front) (m.2.clock + 1) k = τ k :=
    fun k hk => Function.update_of_ne (Nat.ne_of_lt hk) _ _
  constructor
  case alive =>
    intro i' hi'
    rw [halive]
    exact hs.alive i' hi'
  case state =>
    intro i' hi'
    rw [hprocs]
    by_cases hif : i' = front
    · subst hif
      rw [Function.update_self]
      exact ht.state.trans (hs.state front hi')
    · rw [Function.update_of_ne hif]
      exact hs.state i' hi'
  case lis =>
    intro i' hi'
    rw [hprocs]
    by_cases hif : i' = front
    · subst hif
      rw [Function.update_self, Function.update_self, ht.lis, hid, idPlus_trainId]
    · rw [Function.update_of_ne hif, Function.update_of_ne hif]
      exact hs.lis i' hi'
  case window =>
    intro i' hi'
    rw [hprocs, htags]
    by_cases hif : i' = front
    · subst hif
      rw [Function.update_self, Function.update_self, Function.update_self]
      apply ((hs.window front hi').congr hold).succ
      · intro id hne
        rw [← hid] at hne
        exact ⟨ht.other id hne, Function.update_of_ne hne _ _⟩
      · rw [← hid, setAt, Function.update_self]
        exact hsent
    · rw [Function.update_of_ne hif, Function.update_of_ne hif, Function.update_of_ne hif]
      apply (hs.window i' hi').congr
      intro k hk
      exact hold k (Nat.lt_of_lt_of_le hk (hs.le i' hi'))
  case full =>
    intro i' hi'
    by_cases hif : i' = front
    · subst hif
      rw [Function.update_self]
      omega
    · rw [Function.update_of_ne hif]
      exact hs.full i' hi'
  case le =>
    intro i' hi'
    rw [Function.update_self]
    by_cases hif : i' = front
    · subst hif
      rw [Function.update_self]
    · rw [Function.update_of_ne hif]
      exact Nat.le_succ_of_le (hs.le i' hi')
  case succ =>
    intro i' k hik
    rw [hprocs]
    by_cases hif : i' = front
    · subst hif
      rw [Function.update_self, ht.succ]
      exact hs.succ front k hik
    · rw [Function.update_of_ne hif]
      exact hs.succ i' k hik
  case link =>
    intro i' k hik
    have hlength := hs.link_length i' k hik
    have hle := hs.le i' hik.ne_relay.1
    have hlink : Stream hntr (Function.update τ (h front) (m.2.clock + 1)) i'.val i'.val (h k)
        (s.chans ⟨i', k, false⟩) := by
      apply (hs.link i' k hik).congr
      intro v _ hv
      exact hold v (by omega)
    rw [Function.update_of_ne hik.ne.2]
    by_cases hif : i' = front
    · subst hif
      rw [hout k hik]
      apply hlink.concat
      rw [hlength]
      exact hsent
    · rw [hother i' k hik hif]
      exact hlink
  case link_length =>
    intro i' k hik
    have hlength := hs.link_length i' k hik
    rw [Function.update_of_ne hik.ne.2]
    by_cases hif : i' = front
    · subst hif
      rw [hout k hik, Function.update_self, List.length_append, List.length_singleton]
      omega
    · rw [hother i' k hik hif, Function.update_of_ne hif]
      exact hlength
  case laps =>
    intro k hk
    rw [Function.update_self] at hk
    rw [hold k (by omega)]
    rcases Nat.lt_or_ge k (h front - ntr) with hlt' | hge
    · rw [hold (k + ntr) (by omega)]
      exact hs.laps k hlt'
    · obtain rfl : k = h front - ntr := by omega
      obtain ⟨-, -, -, -, -, -, hlo, hhi, -⟩ := hm
      rw [hback, Function.update_self]
      omega
  case around =>
    rw [Function.update_self, Function.update_of_ne (rear_ne_front hN)]
    omega
  case accepted =>
    obtain ⟨-, -, -, -, -, -, -, -, hlap⟩ := hm
    have hnext : ntr + 1 * (h front - ntr) = h front := by omega
    rw [haccepted, Function.update_self, hs.accepted, show h front + 1 - ntr = h front - ntr + 1 by
      omega, List.range'_concat, List.map_append, hnext, hid, hlap]
    have hdiv : (h front - ntr) / ntr + 1 = h front / ntr := by
      rw [← Nat.add_div_right (h front - ntr) hntr, hback]
    rw [hdiv]
    rfl
  case quiet => exact hquiet

end Take

end UniformBroadcast.Trains.Continuity
