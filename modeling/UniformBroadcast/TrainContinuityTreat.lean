import UniformBroadcast.TrainContinuityRing

/-!
# The treatment of a train

The circle after a process has taken a train and sent it to its successor. A process between
`front` and `rear` does it without the path seeing anything.
-/

namespace UniformBroadcast.Trains.Continuity

variable {N ntr : ℕ}

section Become

variable {M : Members (N + 1)} {s : Circle N ntr} {c : Chan N} {k : Fin (N + 1)}
  {m : Msg ntr × Tag} {rest : List (Msg ntr × Tag)} {p q : Proc ntr} {st : Stamp ntr}
  {circuit : Address} {wagons : Option (List Wagon)} {actions : List (Action ntr)}

theorem taken_recent (hmsg : m.1 = .train st circuit wagons) (hstate : p.automatonState = .several)
    (hrecent : isRecentTrain st p.lts p.lis = true) : taken p m.1 = some st := by
  simp [taken, hmsg, hstate, hrecent]

theorem taken_not_recent (hmsg : m.1 = .train st circuit wagons)
    (hstate : p.automatonState = .several) (hrecent : isRecentTrain st p.lts p.lis = false) :
    taken p m.1 = none := by
  simp [taken, hmsg, hstate, hrecent]

theorem taken_confirmationWait (hmsg : m.1 = .train st circuit wagons)
    (hstate : p.automatonState = .offlineConfirmationWait) : taken p m.1 = some st := by
  simp [taken, hmsg, hstate]

theorem taken_other (hmsg : ∀ st circuit wagons, m.1 ≠ .train st circuit wagons) :
    taken p m.1 = none := by
  unfold taken
  split
  · rename_i st circuit wagons hm
    exact absurd hm (hmsg st circuit wagons)
  · rfl

/-- A message that is not a train taken leaves the tags and what `front` has accepted. -/
theorem become_eq (h : taken (s.procs c.target) m.1 = none) : s.become c m rest q =
    { s with
      procs := Function.update s.procs c.target q
      chans := Function.update s.chans c rest } := by
  simp only [Circle.become, Circle.tagsAfter, Circle.acceptedAfter, h, Function.update_eq_self]

/-- A train taken. -/
theorem become_taken (h : taken (s.procs c.target) m.1 = some st) : s.become c m rest q =
    { s with
      procs := Function.update s.procs c.target q
      chans := Function.update s.chans c rest
      tags := Function.update s.tags c.target
        (setAt (s.tags c.target) st.id (sentTrain (c.target = front) m st q).2)
      accepted := if c.target = front then s.accepted ++ [(st.id, m.2.lap)] else s.accepted } := by
  simp only [Circle.become, Circle.tagsAfter, Circle.acceptedAfter, h, sentTrain]

/-- A process that has taken a train sends it to its successor. -/
def sendOn (q : Proc ntr) (st : Stamp ntr) : List (Action ntr) :=
  if q.succ ≠ 0#16 then [.sendTrain q.succ (q.lts st.id)] else []

theorem sendOn_none (i : Fin (N + 1)) (h : q.succ = 0#16) :
    s.actAll M i (sendOn q st) = s := by
  rw [sendOn, if_neg (not_not.mpr h)]
  rfl

theorem sendOn_shut {i : Fin (N + 1)} (h : q.succ = M.addr k)
    (hshut : s.shut ⟨i, k, false⟩ = true) :
    s.actAll M i (sendOn q st) = s := by
  rw [sendOn, h, if_pos (addr_ne_zero M k), actAll_cons, Circle.act, write_addr,
    post_shut _ hshut]
  rfl

theorem sendOn_open {i : Fin (N + 1)} (h : q.succ = M.addr k)
    (hopen : s.shut ⟨i, k, false⟩ = false) (hid : (q.lts st.id).stamp.id = st.id) :
    s.actAll M i (sendOn q st) = { s with
      chans := Function.update s.chans ⟨i, k, false⟩
        (s.chans ⟨i, k, false⟩ ++ [(trainMsg (q.lts st.id), s.tags i st.id)]) } := by
  rw [sendOn, h, if_pos (addr_ne_zero M k), actAll_cons, Circle.act, write_addr,
    post_open _ hopen, hid]
  rfl

/-- The circle `s'` after the target of `c` has taken `st` from message `m` and become `q`;
`chans` are the channels then. -/
structure Passed (s s' : Circle N ntr) (c : Chan N) (m : Msg ntr × Tag) (st : Stamp ntr)
    (q : Proc ntr) (chans : Chan N → List (Msg ntr × Tag)) : Prop where
  procs : s'.procs = Function.update s.procs c.target q
  alive : s'.alive = s.alive
  shut : s'.shut = s.shut
  tags : s'.tags = Function.update s.tags c.target
    (setAt (s.tags c.target) st.id (sentTrain (c.target = front) m st q).2)
  accepted : s'.accepted =
    if c.target = front then s.accepted ++ [(st.id, m.2.lap)] else s.accepted
  chans : s'.chans = chans

theorem passed_sent (rest : List (Msg ntr × Tag)) (htaken : taken (s.procs c.target) m.1 = some st)
    (hsucc : q.succ = M.addr k) (hid : (q.lts st.id).stamp.id = st.id)
    (hopen : s.shut ⟨c.target, k, false⟩ = false) :
    Passed s ((s.become c m rest q).actAll M c.target (sendOn q st)) c m st q
      (Function.update (Function.update s.chans c rest) ⟨c.target, k, false⟩
        (Function.update s.chans c rest ⟨c.target, k, false⟩ ++
          [sentTrain (c.target = front) m st q])) := by
  have hopen' : (s.become c m rest q).shut ⟨c.target, k, false⟩ = false := hopen
  rw [sendOn_open hsucc hopen' hid, become_taken htaken]
  refine ⟨rfl, rfl, rfl, rfl, rfl, ?_⟩
  simp only [Function.update_self]
  rfl

theorem passed_shut (ht : Took st (s.procs c.target) q)
    (htaken : taken (s.procs c.target) m.1 = some st)
    (hsucc : (s.procs c.target).succ = M.addr k) (hshut : s.shut ⟨c.target, k, false⟩ = true) :
    Passed s ((s.become c m rest q).actAll M c.target (sendOn q st)) c m st q
      (Function.update s.chans c rest) := by
  have hshut' : (s.become c m rest q).shut ⟨c.target, k, false⟩ = true := hshut
  rw [sendOn_shut (ht.succ.trans hsucc) hshut', become_taken htaken]
  exact ⟨rfl, rfl, rfl, rfl, rfl, rfl⟩

theorem passed_none (ht : Took st (s.procs c.target) q)
    (htaken : taken (s.procs c.target) m.1 = some st) (hsucc : (s.procs c.target).succ = 0#16) :
    Passed s ((s.become c m rest q).actAll M c.target (sendOn q st)) c m st q
      (Function.update s.chans c rest) := by
  rw [sendOn_none _ (ht.succ.trans hsucc), become_taken htaken]
  exact ⟨rfl, rfl, rfl, rfl, rfl, rfl⟩

end Become

/-! ## On a link -/

section Link

variable {M : Members (N + 1)} {hntr : 0 < ntr} {τ : ℕ → ℕ} {h : Fin (N + 1) → ℕ}
  {s : Circle N ntr} {i j k : Fin (N + 1)} {m : Msg ntr × Tag} {rest : List (Msg ntr × Tag)}
  {q : Proc ntr} {actions : List (Action ntr)}

/-- The train that heads a link is taken. -/
theorem Core.link_took (hN : 2 ≤ N) (hnp : N + 1 ≤ np) (hs : Core M hntr τ h s)
    (hij : Linked i j) (hc : s.chans ⟨i, j, false⟩ = m :: rest)
    (hstep : stateMachine (M.config j) (s.dial M) m.1 (s.procs j) = some (q, actions)) :
    ∃ st circuit wagons, m.1 = .train st circuit wagons ∧ Took st (s.procs j) q ∧
      actions = sendOn q st ∧ taken (s.procs j) m.1 = some st := by
  obtain ⟨-, st, circuit, wagons, hmsg, -, hrecent⟩ := hs.link_recent hN hnp hij hc
  have hstate := hs.state j hij.ne_relay.2
  rw [hmsg] at hstep
  rcases several_train_cases hstate hstep with ⟨-, ht, hactions⟩ | ⟨hnot, -⟩
  · exact ⟨st, circuit, wagons, hmsg, ht, hactions, taken_recent hmsg hstate hrecent⟩
  · rw [hrecent] at hnot
    cases hnot

/-- A process between `front` and `rear` takes a train from its link and sends it on the
next. -/
theorem Core.treat_link (hN : 2 ≤ N) (hnp : N + 1 ≤ np) (hs : Core M hntr τ h s)
    (hij : Linked i j) (hjk : Linked j k) (hopen : s.shut ⟨j, k, false⟩ = false)
    (hc : s.chans ⟨i, j, false⟩ = m :: rest)
    (hstep : stateMachine (M.config j) (s.dial M) m.1 (s.procs j) = some (q, actions)) :
    Core M hntr τ (Function.update h j (h j + 1))
        ((s.become ⟨i, j, false⟩ m rest q).actAll M j actions) ∧
      ((s.become ⟨i, j, false⟩ m rest q).actAll M j actions).view = s.view := by
  obtain ⟨st, circuit, wagons, hmsg, ht, rfl, htaken⟩ := hs.link_took hN hnp hij hc hstep
  have hjf := hij.ne.2
  have hjr := hij.ne_relay.2
  have hrear : j ≠ rear := by
    rintro rfl
    have hv := hjk.1
    have hlt := hjk.2
    rw [val_rear] at hv
    omega
  obtain ⟨hprocs, halive, hshut, htags, haccepted, hchans⟩ :=
    passed_sent (c := ⟨i, j, false⟩) rest htaken (ht.succ.trans (hs.succ j k hjk)) ht.id hopen
  dsimp only at hprocs htags haccepted hchans
  generalize (s.become ⟨i, j, false⟩ m rest q).actAll M j (sendOn q st) = s'
    at hprocs halive hshut htags haccepted hchans
  rw [decide_eq_false hjf] at htags hchans
  rw [if_neg hjf] at haccepted
  have hneq : (⟨j, k, false⟩ : Chan N) ≠ ⟨i, j, false⟩ := by
    intro heq'
    exact hij.ne.1 (Chan.mk.inj heq').1.symm
  constructor
  · apply hs.takes hij hc hmsg ht halive hprocs htags haccepted
    · rw [hchans, Function.update_of_ne hneq.symm, Function.update_self]
    · intro k' hk'
      obtain rfl := hjk.unique_next hk'
      rw [hchans, Function.update_self, Function.update_of_ne hneq]
    · intro i' k' _ hkj hij'
      rw [hchans, Function.update_of_ne, Function.update_of_ne]
      · intro heq'
        exact hkj (Chan.mk.inj heq').2.1
      · intro heq'
        exact hij' (Chan.mk.inj heq').1
    · intro c hne
      rw [hchans] at hne
      by_cases hc₁ : c = ⟨j, k, false⟩
      · rw [hc₁]
        exact .inl ⟨rfl, hjk⟩
      · by_cases hc₂ : c = ⟨i, j, false⟩
        · rw [hc₂]
          exact .inl ⟨rfl, hij⟩
        · rw [Function.update_of_ne hc₁, Function.update_of_ne hc₂] at hne
          exact hs.quiet c hne
  · have hpath : ∀ c : Chan N, OnPath c → s'.chans c = s.chans c := by
      intro c hc
      rw [hchans, Function.update_of_ne, Function.update_of_ne]
      · rintro rfl
        exact not_onPath ⟨rfl, hij⟩ hc
      · rintro rfl
        exact not_onPath ⟨rfl, hjk⟩ hc
    simp only [Circle.view, halive, hshut, hprocs, htags, Function.update_of_ne hjr.symm,
      Function.update_of_ne hrear.symm, Function.update_of_ne hjf.symm]
    rw [hpath _ (.inl rfl), hpath _ (.inr (.inl rfl)), hpath _ (.inr (.inr (.inl rfl))),
      hpath _ (.inr (.inr (.inr (.inl rfl)))), hpath _ (.inr (.inr (.inr (.inr (.inl rfl))))),
      hpath _ (.inr (.inr (.inr (.inr (.inr rfl)))))]

end Link

/-! ## At `rear` -/

/-- The path when `rear` has sent a train to the relay, or to `front`. -/
def View.rearSends (v : View N ntr) (k : Fin (N + 1)) (sent : Msg ntr × Tag) : View N ntr :=
  if k = Continuity.relay then { v with toRelay := v.toRelay ++ [sent] }
  else { v with direct := v.direct ++ [sent] }

section Rear

variable {M : Members (N + 1)} {hntr : 0 < ntr} {τ : ℕ → ℕ} {h : Fin (N + 1) → ℕ}
  {s s' : Circle N ntr} {i k : Fin (N + 1)} {m : Msg ntr × Tag} {rest : List (Msg ntr × Tag)}
  {q : Proc ntr} {st : Stamp ntr} {circuit : Address} {wagons : Option (List Wagon)}
  {actions : List (Action ntr)} {chans : Chan N → List (Msg ntr × Tag)}

theorem Core.rear_takes (hs : Core M hntr τ h s) (hij : Linked i rear)
    (hc : s.chans ⟨i, rear, false⟩ = m :: rest) (hmsg : m.1 = .train st circuit wagons)
    (ht : Took st (s.procs rear) q) (hpassed : Passed s s' ⟨i, rear, false⟩ m st q chans)
    (hin : chans ⟨i, rear, false⟩ = rest)
    (hother : ∀ c, c ≠ ⟨i, rear, false⟩ → OnLink c → chans c = s.chans c)
    (hquiet : ∀ c, c ≠ ⟨i, rear, false⟩ → chans c ≠ [] → s.chans c ≠ [] ∨ OnPath c) :
    Core M hntr τ (Function.update h rear (h rear + 1)) s' := by
  have hrf := hij.ne.2
  obtain ⟨hprocs, halive, -, htags, haccepted, hchans⟩ := hpassed
  dsimp only at hprocs htags haccepted
  rw [decide_eq_false hrf] at htags
  rw [if_neg hrf] at haccepted
  apply hs.takes hij hc hmsg ht halive hprocs htags haccepted
  · rw [hchans, hin]
  · intro k hk
    have hv := hk.1
    have hlt := hk.2
    rw [val_rear] at hv
    omega
  · intro i' k hik hkj _
    rw [hchans, hother _ _ ⟨rfl, hik⟩]
    intro heq
    exact hkj (Chan.mk.inj heq).2.1
  · intro c hne
    rw [hchans] at hne
    by_cases hcc : c = ⟨i, rear, false⟩
    · rw [hcc]
      exact .inl ⟨rfl, hij⟩
    · rcases hquiet c hcc hne with hold | hpath
      · exact hs.quiet c hold
      · exact .inr hpath

/-- `rear` takes a train and sends it on the path. -/
theorem Core.treat_rear (hN : 2 ≤ N) (hnp : N + 1 ≤ np) (hs : Core M hntr τ h s)
    (hij : Linked i rear) (hk : k = front ∨ k = relay) (hsucc : (s.procs rear).succ = M.addr k)
    (hopen : s.shut ⟨rear, k, false⟩ = false) (hc : s.chans ⟨i, rear, false⟩ = m :: rest)
    (hstep : stateMachine (M.config rear) (s.dial M) m.1 (s.procs rear) = some (q, actions)) :
    ∃ sent, IsVisit hntr τ (N - 1) (N - 1) (h rear) sent ∧
      Core M hntr τ (Function.update h rear (h rear + 1))
        ((s.become ⟨i, rear, false⟩ m rest q).actAll M rear actions) ∧
      ((s.become ⟨i, rear, false⟩ m rest q).actAll M rear actions).view =
        s.view.rearSends k sent := by
  obtain ⟨st, circuit, wagons, hmsg, ht, rfl, htaken⟩ := hs.link_took hN hnp hij hc hstep
  have hrf := hij.ne.2
  have hrr := hij.ne_relay.2
  have hpassed := passed_sent (c := ⟨i, rear, false⟩) rest htaken
    (ht.succ.trans hsucc) ht.id hopen
  dsimp only at hpassed
  generalize (s.become ⟨i, rear, false⟩ m rest q).actAll M rear (sendOn q st) = s' at hpassed
  rw [decide_eq_false hrf] at hpassed
  have hpath : OnPath (⟨rear, k, false⟩ : Chan N) := by
    rcases hk with rfl | rfl
    · exact .inl rfl
    · exact .inr (.inl rfl)
  have hne : (⟨rear, k, false⟩ : Chan N) ≠ ⟨i, rear, false⟩ := by
    intro heq
    exact hij.ne.1 (Chan.mk.inj heq).1.symm
  refine ⟨sentTrain false m st q, (hs.sent hij hc hmsg ht).2, ?_, ?_⟩
  · apply hs.rear_takes hij hc hmsg ht hpassed
    · rw [Function.update_of_ne hne.symm, Function.update_self]
    · intro c hcc hlink
      rw [Function.update_of_ne, Function.update_of_ne hcc]
      rintro rfl
      exact not_onPath hlink hpath
    · intro c hcc hfull
      by_cases hcp : c = ⟨rear, k, false⟩
      · rw [hcp]
        exact .inr hpath
      · rw [Function.update_of_ne hcp, Function.update_of_ne hcc] at hfull
        exact .inl hfull
  · obtain ⟨hprocs, halive, hshut, htags, -, hchans⟩ := hpassed
    dsimp only at hprocs htags
    have hother : ∀ c : Chan N, OnPath c → c ≠ ⟨rear, k, false⟩ → s'.chans c = s.chans c := by
      intro c hc hcp
      rw [hchans, Function.update_of_ne hcp, Function.update_of_ne]
      rintro rfl
      exact not_onPath ⟨rfl, hij⟩ hc
    have hsent : s'.chans ⟨rear, k, false⟩ =
        s.chans ⟨rear, k, false⟩ ++ [sentTrain false m st q] := by
      rw [hchans, Function.update_self, Function.update_of_ne hne]
    have hfr : (front : Fin (N + 1)) ≠ relay := front_ne_relay hN
    simp only [Circle.view, halive, hshut, hprocs, htags, Function.update_of_ne hrr.symm,
      Function.update_of_ne hrf.symm, Function.update_self, ht.succ]
    rw [hother fromRelay (.inr (.inr (.inl rfl))) (by simp [fromRelay, hrr.symm]),
      hother frontToRear (.inr (.inr (.inr (.inl rfl)))) (by simp [frontToRear]),
      hother relayToRear (.inr (.inr (.inr (.inr (.inl rfl))))) (by simp [relayToRear]),
      hother frontToRelay (.inr (.inr (.inr (.inr (.inr rfl))))) (by simp [frontToRelay])]
    rcases hk with rfl | rfl
    · rw [hother toRelay (.inr (.inl rfl)) (by simp [toRelay, hfr.symm]), View.rearSends,
        if_neg hfr, direct, hsent]
    · rw [hother direct (.inl rfl) (by simp [direct, hfr]), View.rearSends, if_pos rfl, toRelay,
        hsent]

/-- `rear` takes a train and has no successor, or closed the connection to it. -/
theorem Core.treat_rear_silent (hN : 2 ≤ N) (hnp : N + 1 ≤ np) (hs : Core M hntr τ h s)
    (hij : Linked i rear) (hsilent : (s.procs rear).succ = 0#16 ∨
      ∃ k, (s.procs rear).succ = M.addr k ∧ s.shut ⟨rear, k, false⟩ = true)
    (hc : s.chans ⟨i, rear, false⟩ = m :: rest)
    (hstep : stateMachine (M.config rear) (s.dial M) m.1 (s.procs rear) = some (q, actions)) :
    Core M hntr τ (Function.update h rear (h rear + 1))
        ((s.become ⟨i, rear, false⟩ m rest q).actAll M rear actions) ∧
      ((s.become ⟨i, rear, false⟩ m rest q).actAll M rear actions).view = s.view := by
  obtain ⟨st, circuit, wagons, hmsg, ht, rfl, htaken⟩ := hs.link_took hN hnp hij hc hstep
  have hrf := hij.ne.2
  have hrr := hij.ne_relay.2
  have hpassed : Passed s ((s.become ⟨i, rear, false⟩ m rest q).actAll M rear (sendOn q st))
      ⟨i, rear, false⟩ m st q (Function.update s.chans ⟨i, rear, false⟩ rest) := by
    rcases hsilent with hzero | ⟨k, hsucc, hshut⟩
    · exact passed_none (c := ⟨i, rear, false⟩) ht htaken hzero
    · exact passed_shut (c := ⟨i, rear, false⟩) ht htaken hsucc hshut
  generalize (s.become ⟨i, rear, false⟩ m rest q).actAll M rear (sendOn q st) = s' at hpassed
  constructor
  · apply hs.rear_takes hij hc hmsg ht hpassed
    · rw [Function.update_self]
    · intro c hcc _
      exact Function.update_of_ne hcc _ _
    · intro c hcc hfull
      rw [Function.update_of_ne hcc] at hfull
      exact .inl hfull
  · obtain ⟨hprocs, halive, hshut, htags, -, hchans⟩ := hpassed
    dsimp only at hprocs htags
    have hother : ∀ c : Chan N, OnPath c → s'.chans c = s.chans c := by
      intro c hc
      rw [hchans, Function.update_of_ne]
      rintro rfl
      exact not_onPath ⟨rfl, hij⟩ hc
    simp only [Circle.view, halive, hshut, hprocs, htags, Function.update_of_ne hrr.symm,
      Function.update_of_ne hrf.symm, Function.update_self, ht.succ]
    rw [hother _ (.inl rfl), hother _ (.inr (.inl rfl)), hother _ (.inr (.inr (.inl rfl))),
      hother _ (.inr (.inr (.inr (.inl rfl)))), hother _ (.inr (.inr (.inr (.inr (.inl rfl))))),
      hother _ (.inr (.inr (.inr (.inr (.inr rfl)))))]

end Rear

/-! ## At `front` -/

/-- The path when `front` has treated a message of the relay, or of `rear`, and `rest` is
left. -/
def View.frontReads (v : View N ntr) (k : Fin (N + 1)) (rest : List (Msg ntr × Tag)) :
    View N ntr :=
  if k = Continuity.relay then { v with fromRelay := rest } else { v with direct := rest }

section Front

variable {M : Members (N + 1)} {hntr : 0 < ntr} {τ : ℕ → ℕ} {h : Fin (N + 1) → ℕ}
  {s : Circle N ntr} {k : Fin (N + 1)} {r : ℕ} {m : Msg ntr × Tag}
  {rest : List (Msg ntr × Tag)} {q : Proc ntr} {st : Stamp ntr} {circuit : Address}
  {wagons : Option (List Wagon)} {actions : List (Action ntr)}

/-- The train of the visit that `front` waits for is recent. -/
theorem Core.front_recent (hN : 2 ≤ N) (hnp : N + 1 ≤ np) (hs : Core M hntr τ h s)
    (hm : IsVisit hntr τ (N - 1) N (h front - ntr) m) (hmsg : m.1 = .train st circuit wagons) :
    isRecentTrain st (s.procs front).lts (s.procs front).lis = true := by
  have hf := front_ne_relay hN
  have hfull := hs.full front hf
  obtain ⟨hown, hlo, hhi⟩ := (hs.window front hf).clock hfull
  obtain ⟨st', circuit', wagons', hmsg', hid, hlc, hmlo, hmhi, -⟩ := hm
  rw [hmsg'] at hmsg
  cases hmsg
  have hid' : st.id = trainId hntr (h front) := by
    rw [hid, ← trainId_add, Nat.sub_add_cancel hfull]
  have h16 : np = 16 := rfl
  rw [val_front] at hlo hhi
  apply recent_of_lt (hid'.trans (hs.lis front hf).symm) hlc (by rw [hid']; exact hown)
  · omega
  · omega

/-- That of an earlier visit is not, as long as `front` has not gone half round the clock
since. -/
theorem Core.front_not_recent (hN : 2 ≤ N) (hs : Core M hntr τ h s)
    (hm : IsVisit hntr τ (N - 1) N r m) (hmsg : m.1 = .train st circuit wagons)
    (hr : r < h front - ntr) (hclose : st.id = trainId hntr (h front) →
      (s.tags front st.id).clock < m.2.clock + 128) :
    isRecentTrain st (s.procs front).lts (s.procs front).lis = false := by
  have hf := front_ne_relay hN
  have hfull := hs.full front hf
  by_cases hid' : st.id = trainId hntr (h front)
  · obtain ⟨hown, hlo, hhi⟩ := (hs.window front hf).clock hfull
    obtain ⟨st', circuit', wagons', hmsg', hid, hlc, hmlo, hmhi, -⟩ := hm
    rw [hmsg'] at hmsg
    cases hmsg
    have hsame : trainId hntr r = trainId hntr (h front - ntr) := by
      rw [← hid, hid', ← @trainId_add ntr hntr (h front - ntr), Nat.sub_add_cancel hfull]
    have hlap := Laps.lt hntr τ hs.laps hr (by omega) hsame
    have hclose' := hclose hid'
    rw [hid'] at hclose'
    rw [val_front] at hlo hhi
    apply not_recent_of_le (hid'.trans (hs.lis front hf).symm) hlc (by rw [hid']; exact hown)
    · omega
    · omega
  · apply not_recent_of_id
    rw [hs.lis front hf]
    exact hid'

/-- Less than a lap behind, it is never that far. -/
theorem Core.front_close (hN : 2 ≤ N) (hs : Core M hntr τ h s)
    (hm : IsVisit hntr τ (N - 1) N r m) (hmsg : m.1 = .train st circuit wagons)
    (hr : r < h front - ntr) (hlap : h front - ntr ≤ r + ntr)
    (hid' : st.id = trainId hntr (h front)) :
    (s.tags front st.id).clock < m.2.clock + 128 := by
  have hf := front_ne_relay hN
  have hfull := hs.full front hf
  obtain ⟨-, hlo, hhi⟩ := (hs.window front hf).clock hfull
  obtain ⟨st', circuit', wagons', hmsg', hid, hlc, hmlo, hmhi, -⟩ := hm
  rw [hmsg'] at hmsg
  cases hmsg
  have hsame : trainId hntr r = trainId hntr (h front - ntr) := by
    rw [← hid, hid', ← @trainId_add ntr hntr (h front - ntr), Nat.sub_add_cancel hfull]
  have heq : h front - ntr = r + ntr := by
    by_contra hne
    exact trainId_ne hr (by omega) hsame
  have hlast := (hs.laps r (by omega)).2
  rw [← heq] at hlast
  rw [hid']
  rw [val_front] at hhi
  omega

/-- `front` ignores a train that is not recent. -/
theorem Core.treat_front_ignores (hN : 2 ≤ N) (hs : Core M hntr τ h s)
    (hk : k = rear ∨ k = relay) (hc : s.chans ⟨k, front, false⟩ = m :: rest)
    (hmsg : m.1 = .train st circuit wagons)
    (hrecent : isRecentTrain st (s.procs front).lts (s.procs front).lis = false)
    (hstep : stateMachine (M.config front) (s.dial M) m.1 (s.procs front) = some (q, actions)) :
    Core M hntr τ h ((s.become ⟨k, front, false⟩ m rest q).actAll M front actions) ∧
      ((s.become ⟨k, front, false⟩ m rest q).actAll M front actions).view =
        s.view.frontReads k rest := by
  have hf := front_ne_relay hN
  have hstate := hs.state front hf
  rw [hmsg] at hstep
  obtain ⟨rfl, rfl⟩ : q = s.procs front ∧ actions = [] := by
    rcases several_train_cases hstate hstep with ⟨hnot, -⟩ | ⟨-, hq, hactions⟩
    · rw [hrecent] at hnot
      cases hnot
    · exact ⟨hq, hactions⟩
  have htaken := taken_not_recent hmsg hstate hrecent
  have hpath : OnPath (⟨k, front, false⟩ : Chan N) := by
    rcases hk with rfl | rfl
    · exact .inl rfl
    · exact .inr (.inr (.inl rfl))
  have heq : (s.become ⟨k, front, false⟩ m rest (s.procs front)).actAll M front [] =
      { s with chans := Function.update s.chans ⟨k, front, false⟩ rest } := by
    rw [become_eq (c := ⟨k, front, false⟩) htaken, Function.update_eq_self]
    rfl
  rw [heq]
  constructor
  · exact hs.path hpath rest
  · have hrr : (rear : Fin (N + 1)) ≠ relay := rear_ne_relay hN
    rcases hk with rfl | rfl
    · simp [Circle.view, View.frontReads, direct, toRelay, fromRelay, frontToRear, relayToRear,
        frontToRelay, hrr, hrr.symm, hf.symm, (rear_ne_front hN).symm]
    · simp [Circle.view, View.frontReads, direct, toRelay, fromRelay, frontToRear, relayToRear,
        frontToRelay, hrr, hf, hf.symm, rear_ne_front hN]

/-- `front` takes the train that it waits for. -/
theorem Core.treat_front_takes (hN : 2 ≤ N) (hnp : N + 1 ≤ np) (hs : Core M hntr τ h s)
    (hopen : ∀ c, OnLink c → s.shut c = false) (hk : k = rear ∨ k = relay)
    (hc : s.chans ⟨k, front, false⟩ = m :: rest)
    (hm : IsVisit hntr τ (N - 1) N (h front - ntr) m) (hlt : h front - ntr < h rear)
    (hstep : stateMachine (M.config front) (s.dial M) m.1 (s.procs front) = some (q, actions)) :
    Core M hntr (Function.update τ (h front) (m.2.clock + 1))
        (Function.update h front (h front + 1))
        ((s.become ⟨k, front, false⟩ m rest q).actAll M front actions) ∧
      ((s.become ⟨k, front, false⟩ m rest q).actAll M front actions).view =
        s.view.frontReads k rest := by
  have hf := front_ne_relay hN
  have hrf := rear_ne_front hN
  have hrr := rear_ne_relay hN
  have hstate := hs.state front hf
  obtain ⟨st, circuit, wagons, hmsg, -⟩ := id hm
  have hrecent := hs.front_recent hN hnp hm hmsg
  have htaken := taken_recent hmsg hstate hrecent
  obtain ⟨ht, rfl⟩ : Took st (s.procs front) q ∧ actions = sendOn q st := by
    rw [hmsg] at hstep
    rcases several_train_cases hstate hstep with ⟨-, ht, hactions⟩ | ⟨hnot, -⟩
    · exact ⟨ht, hactions⟩
    · rw [hrecent] at hnot
      cases hnot
  obtain ⟨j, hj⟩ := exists_linked hN hf hrf.symm
  have hpassed := passed_sent (c := ⟨k, front, false⟩) rest htaken
    (ht.succ.trans (hs.succ front j hj)) ht.id (hopen _ ⟨rfl, hj⟩)
  dsimp only at hpassed
  generalize (s.become ⟨k, front, false⟩ m rest q).actAll M front (sendOn q st) = s' at hpassed
  obtain ⟨hprocs, halive, hshut, htags, haccepted, hchans⟩ := hpassed
  dsimp only at hprocs htags haccepted
  rw [decide_eq_true rfl] at htags hchans
  rw [if_pos rfl] at haccepted
  have hpath : OnPath (⟨k, front, false⟩ : Chan N) := by
    rcases hk with rfl | rfl
    · exact .inl rfl
    · exact .inr (.inr (.inl rfl))
  have hnot := not_onPath (c := ⟨front, j, false⟩) ⟨rfl, hj⟩
  have hne : (⟨front, j, false⟩ : Chan N) ≠ ⟨k, front, false⟩ := by
    intro heq
    exact hnot (heq ▸ hpath)
  constructor
  · apply hs.takes_front hN hm hlt hmsg ht halive hprocs htags haccepted
    · intro j' hj'
      obtain rfl := hj.unique_next hj'
      rw [hchans, Function.update_self, Function.update_of_ne hne]
    · intro i' j' hij hif
      rw [hchans, Function.update_of_ne, Function.update_of_ne]
      · intro heq
        exact hij.ne.2 (Chan.mk.inj heq).2.1
      · intro heq
        exact hif (Chan.mk.inj heq).1
    · intro c hfull
      rw [hchans] at hfull
      by_cases hc₁ : c = ⟨front, j, false⟩
      · rw [hc₁]
        exact .inl ⟨rfl, hj⟩
      · by_cases hc₂ : c = ⟨k, front, false⟩
        · rw [hc₂]
          exact .inr hpath
        · rw [Function.update_of_ne hc₁, Function.update_of_ne hc₂] at hfull
          exact hs.quiet c hfull
  · have hother : ∀ c : Chan N, OnPath c →
        s'.chans c = Function.update s.chans ⟨k, front, false⟩ rest c := by
      intro c hc
      rw [hchans, Function.update_of_ne]
      rintro rfl
      exact hnot hc
    simp only [Circle.view, halive, hshut, hprocs, htags, Function.update_of_ne hf.symm,
      Function.update_of_ne hrf, Function.update_self, ht.prec]
    rw [hother _ (.inl rfl), hother _ (.inr (.inl rfl)), hother _ (.inr (.inr (.inl rfl))),
      hother _ (.inr (.inr (.inr (.inl rfl)))), hother _ (.inr (.inr (.inr (.inr (.inl rfl))))),
      hother _ (.inr (.inr (.inr (.inr (.inr rfl)))))]
    rcases hk with rfl | rfl
    · simp [View.frontReads, direct, toRelay, fromRelay, frontToRear, relayToRear, frontToRelay,
        hrr, hrr.symm, hf.symm, hrf.symm]
    · simp [View.frontReads, direct, toRelay, fromRelay, frontToRear, relayToRear, frontToRelay,
        hrr, hf, hf.symm, hrf]

end Front

end UniformBroadcast.Trains.Continuity
