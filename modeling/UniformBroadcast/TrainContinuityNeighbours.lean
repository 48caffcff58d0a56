import UniformBroadcast.TrainContinuityTreat

/-!
# Steps on the path

Broadcasts, the loss of messages, and what the relay and `rear` make of the messages that
they treat on the path. None of these steps concerns the processes before `rear`.
-/

namespace UniformBroadcast.Trains.Continuity

variable {N ntr : ℕ}

section Path

variable {M : Members (N + 1)} {hntr : 0 < ntr} {τ : ℕ → ℕ} {h : Fin (N + 1) → ℕ}
  {s s' : Circle N ntr} {c : Chan N} {i : Fin (N + 1)} {mp : Message} {p q : Proc ntr}

/-! ## Broadcasts and losses -/

theorem broadcast_wagonToSend {c : Config} (hstate : p.automatonState ≠ .aloneInsertWait)
    (h : broadcast c mp p = some q) : ∃ w, q = { p with wagonToSend := w } := by
  simp only [broadcast] at h
  split at h
  · cases h
  · cases h
    exact ⟨_, rfl⟩

/-- A process hands a message over. -/
theorem Core.broadcast (hs : Core M hntr τ h s)
    (hstate : (s.procs i).automatonState ≠ .aloneInsertWait)
    (hstep : Trains.broadcast (M.config i) mp (s.procs i) = some q) :
    Core M hntr τ h { s with procs := Function.update s.procs i q } ∧
      ∃ w, ({ s with procs := Function.update s.procs i q } : Circle N ntr).view =
        { s.view with relay := { s.view.relay with wagonToSend := w } } := by
  obtain ⟨w, rfl⟩ := broadcast_wagonToSend hstate hstep
  constructor
  · apply hs.changes rfl
    · exact fun _ => ⟨rfl, rfl, rfl⟩
    · exact fun _ _ => rfl
    · exact fun j _ => rfl
    · exact fun j _ => rfl
    · exact fun c _ => rfl
    · rfl
    · exact hs.quiet
  · have hsame : ∀ j, ∃ w', Function.update s.procs i { s.procs i with wagonToSend := w } j =
        { s.procs j with wagonToSend := w' } := by
      intro j
      by_cases hji : j = i
      · subst hji
        exact ⟨w, Function.update_self _ _ _⟩
      · exact ⟨(s.procs j).wagonToSend, Function.update_of_ne hji _ _⟩
    obtain ⟨w₁, hrelay⟩ := hsame relay
    obtain ⟨w₂, hrear⟩ := hsame rear
    obtain ⟨w₃, hfront⟩ := hsame front
    refine ⟨w₁, ?_⟩
    simp only [Circle.view, hrelay, hrear, hfront]

theorem OnlyDisconnections.tail {l rest : List (Msg ntr × Tag)} {m : Msg ntr × Tag}
    (hl : OnlyDisconnections l) (hm : l = m :: rest) :
    (∃ sender, m.1 = .disconnectSucc sender) ∧ OnlyDisconnections rest := by
  subst hm
  exact ⟨hl m List.mem_cons_self, fun m' hm' => hl m' (List.mem_cons_of_mem m hm')⟩

/-- A list of disconnections that loses its last one. -/
theorem OnlyDisconnections.dropLast {l : List (Msg ntr × Tag)} (hl : OnlyDisconnections l) :
    OnlyDisconnections l.dropLast :=
  fun m hm => hl m (List.mem_of_mem_dropLast hm)

end Path

/-! ## At the relay -/

section Relay

variable {M : Members (N + 1)} {hntr : 0 < ntr} {τ : ℕ → ℕ} {h : Fin (N + 1) → ℕ}
  {s s' : Circle N ntr} {m : Msg ntr × Tag} {rest : List (Msg ntr × Tag)} {q : Proc ntr}
  {st : Stamp ntr}

/-- The relay takes a train from `rear` and sends it to `front`. -/
theorem Core.treat_relay (hN : 2 ≤ N) (hs : Core M hntr τ h s) (rest : List (Msg ntr × Tag))
    (htaken : taken (s.procs relay) m.1 = some st)
    (hsucc : q.succ = M.addr front) (hid : (q.lts st.id).stamp.id = st.id)
    (hopen : s.shut fromRelay = false) :
    Core M hntr τ h ((s.become toRelay m rest q).actAll M relay (sendOn q st)) ∧
      ((s.become toRelay m rest q).actAll M relay (sendOn q st)).view =
        { s.view with
          relay := q
          relayTags := setAt s.view.relayTags st.id (sentTrain false m st q).2
          toRelay := rest
          fromRelay := s.view.fromRelay ++ [sentTrain false m st q] } := by
  have hf := front_ne_relay hN
  have hrf := rear_ne_front hN
  have hrr := rear_ne_relay hN
  have hne : (fromRelay : Chan N) ≠ toRelay := by simp [fromRelay, toRelay, hrr.symm]
  have hpassed := passed_sent (c := toRelay) rest htaken hsucc hid hopen
  change Passed s ((s.become toRelay m rest q).actAll M relay (sendOn q st)) toRelay m st q
    (Function.update (Function.update s.chans toRelay rest) fromRelay
      (Function.update s.chans toRelay rest fromRelay ++
        [sentTrain (decide (relay = front)) m st q])) at hpassed
  rw [decide_eq_false hf.symm, Function.update_of_ne hne] at hpassed
  generalize (s.become toRelay m rest q).actAll M relay (sendOn q st) = s' at hpassed
  obtain ⟨hprocs, halive, hshut, htags, haccepted, hchans⟩ := hpassed
  change _ = Function.update s.procs relay q at hprocs
  change _ = Function.update s.tags relay (setAt (s.tags relay) st.id
    (sentTrain (decide (relay = front)) m st q).2) at htags
  change _ = if relay = front then _ else s.accepted at haccepted
  rw [decide_eq_false hf.symm] at htags
  rw [if_neg hf.symm] at haccepted
  have hpath : OnPath (toRelay : Chan N) := .inr (.inl rfl)
  have hpath' : OnPath (fromRelay : Chan N) := .inr (.inr (.inl rfl))
  constructor
  · apply hs.relay_changes hprocs
    · exact fun i _ => congrFun halive i
    · intro i hi
      rw [htags, Function.update_of_ne hi]
    · intro c hlink
      rw [hchans, link_update _ hpath' c hlink, link_update _ hpath c hlink]
    · exact haccepted
    · intro c hfull
      rw [hchans] at hfull
      exact quiet_update (quiet_update hs.quiet hpath) hpath' c hfull
  · simp only [Circle.view, halive, hshut, hprocs, htags, hchans, Function.update_self,
      Function.update_of_ne hrr, Function.update_of_ne hf]
    simp [direct, toRelay, fromRelay, frontToRear, relayToRear, frontToRelay, hrr, hrr.symm, hf,
      hf.symm, hrf, hrf.symm]

end Relay

/-! ## At `rear` -/

/-- The path when `rear` has treated a message of the relay, or of `front`, and `rest` is
left. -/
def View.rearReads (v : View N ntr) (k : Fin (N + 1)) (rest : List (Msg ntr × Tag)) :
    View N ntr :=
  if k = Continuity.relay then { v with relayToRear := rest } else { v with frontToRear := rest }

/-- The last trains that a process sends again, with their tags. -/
def resent (p : Proc ntr) (tags : Fin ntr → Tag) : List (Msg ntr × Tag) :=
  (trainsAfter p.lis).map fun id => (trainMsg (p.lts id), tags (p.lts id).stamp.id)

/-- The path when `rear` has sent trains again to the relay, or to `front`. -/
def View.rearResends (v : View N ntr) (k : Fin (N + 1)) (l : List (Msg ntr × Tag)) : View N ntr :=
  if k = Continuity.relay then { v with toRelay := v.toRelay ++ l }
  else { v with direct := v.direct ++ l }

section Rear

variable {M : Members (N + 1)} {hntr : 0 < ntr} {τ : ℕ → ℕ} {h : Fin (N + 1) → ℕ}
  {s s' : Circle N ntr} {k : Fin (N + 1)} {m : Msg ntr × Tag} {rest : List (Msg ntr × Tag)}
  {q : Proc ntr} {actions : List (Action ntr)} {sender succ : Address}

theorem stream_map {a b k n : ℕ} {f : ℕ → Msg ntr × Tag}
    (hf : ∀ i < n, IsVisit hntr τ a b (k + i) (f i)) :
    Stream hntr τ a b k ((List.range n).map f) := by
  induction n with
  | zero => exact stream_nil
  | succ n ih =>
    rw [List.range_succ, List.map_append]
    apply Stream.concat
    · exact ih fun i hi => hf i (Nat.lt_succ_of_lt hi)
    · rw [List.length_map, List.length_range]
      exact hf n (Nat.lt_succ_self n)

theorem resent_length (p : Proc ntr) (tags : Fin ntr → Tag) : (resent p tags).length = ntr := by
  simp [resent, trainsAfter]

/-- They are those of the last `ntr` visits. -/
theorem Window.resent {a b v : ℕ} {p : Proc ntr} {tags : Fin ntr → Tag}
    (hw : Window hntr τ a b v p.lts tags) (hv : ntr ≤ v)
    (hlis : idPlus p.lis 1 = trainId hntr v) :
    Stream hntr τ a b (v - ntr) (Continuity.resent p tags) := by
  have hid : ∀ id, (p.lts id).stamp.id = id := by
    intro id
    obtain ⟨k, -, -, -, hst, -⟩ := hw id
    exact hst
  have hnext : ∀ i, idPlus p.lis (1 + i) = trainId hntr (v - ntr + i) := by
    intro i
    induction i with
    | zero => rw [Nat.add_zero, Nat.add_zero, hlis, ← trainId_add (v - ntr), Nat.sub_add_cancel hv]
    | succ i ih =>
      rw [← Nat.add_assoc (v - ntr), ← idPlus_trainId, ← ih]
      ext
      simp only [idPlus]
      rw [Nat.mod_add_mod]
      rfl
  rw [Continuity.resent, trainsAfter, List.range'_eq_map_range, List.map_map, List.map_map]
  apply stream_map
  intro i hi
  have hvisit := hw.isVisit (k := v - ntr + i) (by omega) (by omega)
  simp only [Function.comp_apply, hnext, hid]
  exact hvisit

/-- A step that changes the successor of `rear` and the channels of the path. -/
theorem Core.rear_changes (hs : Core M hntr τ h s) (hprocs : s'.procs =
      Function.update s.procs rear { s.procs rear with succ := succ })
    (halive : s'.alive = s.alive) (htags : s'.tags = s.tags)
    (haccepted : s'.accepted = s.accepted) (hlink : ∀ c, OnLink c → s'.chans c = s.chans c)
    (hquiet : ∀ c, s'.chans c ≠ [] → OnLink c ∨ OnPath c) : Core M hntr τ h s' := by
  apply hs.changes hprocs
  · exact fun _ => ⟨rfl, rfl, rfl⟩
  · intro j hj
    have hv := hj.1
    have hlt := hj.2
    rw [val_rear] at hv
    omega
  · exact fun i _ => congrFun halive i
  · exact fun i _ => congrFun htags i
  · exact hlink
  · exact haccepted
  · exact hquiet

/-- `rear` learns that it has lost a successor. -/
theorem Core.rear_loses (hN : 2 ≤ N) (hs : Core M hntr τ h s) (hk : k = front ∨ k = relay)
    (hm : m.1 = .disconnectSucc sender)
    (hstep : stateMachine (M.config rear) (s.dial M) m.1 (s.procs rear) = some (q, actions)) :
    Core M hntr τ h ((s.become ⟨k, rear, true⟩ m rest q).actAll M rear actions) ∧
      ((s.become ⟨k, rear, true⟩ m rest q).actAll M rear actions).view =
        { s.view.rearReads k rest with rearSucc := 0#16 } := by
  have hf := front_ne_relay hN
  have hrf := rear_ne_front hN
  have hrr := rear_ne_relay hN
  have htaken : taken (s.procs rear) m.1 = none := by
    apply taken_other
    intro st circuit wagons hmsg
    rw [hm] at hmsg
    cases hmsg
  rw [hm, several_disconnectSucc (hs.state rear hrr)] at hstep
  cases hstep
  rw [become_eq (c := ⟨k, rear, true⟩) htaken]
  have hpath : OnPath (⟨k, rear, true⟩ : Chan N) := by
    rcases hk with rfl | rfl
    · exact .inr (.inr (.inr (.inl rfl)))
    · exact .inr (.inr (.inr (.inr (.inl rfl))))
  constructor
  · apply hs.rear_changes
    · rfl
    · rfl
    · rfl
    · rfl
    · exact link_update rest hpath
    · exact quiet_update hs.quiet hpath
  · rcases hk with rfl | rfl
    · simp [Circle.actAll, Circle.view, View.rearReads, direct, toRelay, fromRelay, frontToRear,
        relayToRear, frontToRelay, hrr.symm, hf, hf.symm, hrf, hrf.symm]
    · simp [Circle.actAll, Circle.view, View.rearReads, direct, toRelay, fromRelay, frontToRear,
        relayToRear, frontToRelay, hrr, hrr.symm, hf, hrf.symm]

/-- `rear` sends its last trains to `k`. -/
theorem Core.rear_sends (hN : 2 ≤ N) (hs : Core M hntr τ h s) (hk : k = front ∨ k = relay)
    (hopen : s.shut ⟨rear, k, false⟩ = false) :
    Core M hntr τ h (s.actAll M rear ((trainsAfter (s.procs rear).lis).map fun id =>
        .sendTrain (M.addr k) ((s.procs rear).lts id))) ∧
      (s.actAll M rear ((trainsAfter (s.procs rear).lis).map fun id =>
          .sendTrain (M.addr k) ((s.procs rear).lts id))).view =
        s.view.rearResends k (resent (s.procs rear) (s.tags rear)) := by
  have hf := front_ne_relay hN
  have hrf := rear_ne_front hN
  have hrr := rear_ne_relay hN
  rw [actAll_sends M s rear k hopen]
  have hpath : OnPath (⟨rear, k, false⟩ : Chan N) := by
    rcases hk with rfl | rfl
    · exact .inl rfl
    · exact .inr (.inl rfl)
  constructor
  · exact hs.path hpath _
  · rcases hk with rfl | rfl
    · simp [Circle.view, View.rearResends, resent, direct, toRelay, fromRelay, frontToRear,
        relayToRear, frontToRelay, hrr.symm, hf, hf.symm, hrf, hrf.symm]
    · simp [Circle.view, View.rearResends, resent, direct, toRelay, fromRelay, frontToRear,
        relayToRear, frontToRelay, hrr, hrr.symm, hf, hrf.symm]

/-- `rear` takes `front` as its successor and closes its connection to the relay, if it has not
forgotten it yet. -/
theorem Core.rear_closes (hN : 2 ≤ N) (hs : Core M hntr τ h s) (rest : List (Msg ntr × Tag))
    (hsucc : (s.procs rear).succ = M.addr relay ∨ (s.procs rear).succ = 0#16)
    (hopen : ∀ c, s.shut c = false) (htaken : taken (s.procs rear) m.1 = none) :
    ∃ t : Circle N ntr, (s.become frontToRear m rest
        { s.procs rear with succ := M.addr front }).actAll M rear
          (if (s.procs rear).succ ≠ 0#16 then [.closeConnection (s.procs rear).succ false]
            else []) = t ∧ Core M hntr τ h t ∧
      t.procs rear = { s.procs rear with succ := M.addr front } ∧ t.tags rear = s.tags rear ∧
      t.shut ⟨rear, front, false⟩ = false ∧
      ∃ l shut, t.view = { s.view with
          rearSucc := M.addr front
          frontToRear := rest
          toRelay := l
          shut := shut } ∧ ∀ c, shut c = true → c = toRelay ∨ c = relayToRear := by
  have hf := front_ne_relay hN
  have hrf := rear_ne_front hN
  have hrr := rear_ne_relay hN
  have hpath : OnPath (frontToRear : Chan N) := .inr (.inr (.inr (.inl rfl)))
  have hpath' : OnPath (toRelay : Chan N) := .inr (.inl rfl)
  have hbecome : s.become frontToRear m rest { s.procs rear with succ := M.addr front } =
      { s with
        procs := Function.update s.procs rear { s.procs rear with succ := M.addr front }
        chans := Function.update s.chans frontToRear rest } :=
    become_eq (c := frontToRear) htaken
  rw [hbecome]
  rcases hsucc with hsucc | hsucc
  · have hclose := close_open M { s with
      procs := Function.update s.procs rear { s.procs rear with succ := M.addr front }
      chans := Function.update s.chans frontToRear rest } rear relay false (hopen _)
    rw [hsucc, if_pos (addr_ne_zero M relay), actAll_cons, Circle.act, hclose]
    refine ⟨_, rfl, ?_, ?_, rfl, ?_, s.chans toRelay ++ [notice M rear false],
      Function.update (Function.update s.shut toRelay true) relayToRear true, ?_, ?_⟩
    · apply hs.rear_changes
      · rfl
      · rfl
      · rfl
      · rfl
      · intro c hlink
        exact (link_update _ hpath' c hlink).trans (link_update _ hpath c hlink)
      · exact quiet_update (quiet_update hs.quiet hpath) hpath'
    · exact Function.update_self _ _ _
    · simp [Circle.actAll, hf, hopen]
    · simp [Circle.actAll, Circle.view, direct, toRelay, fromRelay, frontToRear, relayToRear,
        frontToRelay, hrr, hrr.symm, hf, hf.symm, hrf, hrf.symm]
    · intro c hc
      by_contra hne
      rw [not_or] at hne
      rw [Function.update_of_ne hne.2, Function.update_of_ne hne.1, hopen c] at hc
      cases hc
  · rw [hsucc, if_neg (not_not.mpr rfl)]
    refine ⟨_, rfl, ?_, ?_, rfl, hopen _, s.chans toRelay, s.shut, ?_, ?_⟩
    · apply hs.rear_changes
      · rfl
      · rfl
      · rfl
      · rfl
      · exact link_update _ hpath
      · exact quiet_update hs.quiet hpath
    · exact Function.update_self _ _ _
    · simp [Circle.actAll, Circle.view, direct, toRelay, fromRelay, frontToRear, relayToRear,
        frontToRelay, hrr.symm, hf.symm, hrf, hrf.symm]
    · intro c hc
      rw [hopen c] at hc
      cases hc

/-- `front` tells `rear` that it is its successor: `rear` closes its connection to the relay
and sends its last trains again. -/
theorem Core.rear_turns (hN : 2 ≤ N) (hs : Core M hntr τ h s)
    (hsucc : (s.procs rear).succ = M.addr relay ∨ (s.procs rear).succ = 0#16)
    (hopen : ∀ c, s.shut c = false) (hm : m.1 = .newSucc (M.addr front))
    (hstep : stateMachine (M.config rear) (s.dial M) m.1 (s.procs rear) = some (q, actions)) :
    Core M hntr τ h ((s.become frontToRear m rest q).actAll M rear actions) ∧
      ∃ l shut, ((s.become frontToRear m rest q).actAll M rear actions).view =
        { s.view with
          rearSucc := M.addr front
          frontToRear := rest
          direct := s.view.direct ++ resent (s.procs rear) (s.tags rear)
          toRelay := l
          shut := shut } ∧
        ∀ c, shut c = true → c = toRelay ∨ c = relayToRear := by
  have hf := front_ne_relay hN
  have htaken : taken (s.procs rear) m.1 = none := by
    apply taken_other
    intro st circuit wagons hmsg
    rw [hm] at hmsg
    cases hmsg
  rw [hm, several_newSucc (hs.state rear (rear_ne_relay hN))] at hstep
  cases hstep
  obtain ⟨t, ht, hcore, hprocs, htags, hopen', l, shut, hview, hshut⟩ :=
    hs.rear_closes hN rest hsucc hopen htaken
  have hsends := hcore.rear_sends hN (.inl rfl) hopen'
  rw [hprocs, htags, hview] at hsends
  rw [actAll_append, ht]
  refine ⟨hsends.1, l, shut, hsends.2.trans ?_, hshut⟩
  rw [View.rearResends, if_neg hf]
  rfl

/-- The relay tells `rear` that it is its successor, `front` having closed its connection:
`rear` sends its last trains again. -/
theorem Core.rear_resends (hN : 2 ≤ N) (hs : Core M hntr τ h s)
    (hsucc : (s.procs rear).succ = M.addr front ∨ (s.procs rear).succ = 0#16)
    (hshut : s.shut direct = true) (hopen : s.shut toRelay = false)
    (hm : m.1 = .newSucc (M.addr relay))
    (hstep : stateMachine (M.config rear) (s.dial M) m.1 (s.procs rear) = some (q, actions)) :
    Core M hntr τ h ((s.become relayToRear m rest q).actAll M rear actions) ∧
      ((s.become relayToRear m rest q).actAll M rear actions).view =
        { s.view with
          rearSucc := M.addr relay
          relayToRear := rest
          toRelay := s.view.toRelay ++ resent (s.procs rear) (s.tags rear) } := by
  have hf := front_ne_relay hN
  have hrf := rear_ne_front hN
  have hrr := rear_ne_relay hN
  have htaken : taken (s.procs rear) m.1 = none := by
    apply taken_other
    intro st circuit wagons hmsg
    rw [hm] at hmsg
    cases hmsg
  rw [hm, several_newSucc (hs.state rear hrr)] at hstep
  cases hstep
  have hpath : OnPath (relayToRear : Chan N) := .inr (.inr (.inr (.inr (.inl rfl))))
  -- the connection to `front` is closed already
  obtain ⟨t, ht, hteq⟩ : ∃ t : Circle N ntr, (s.become relayToRear m rest
        { s.procs rear with succ := M.addr relay }).actAll M rear
          (if (s.procs rear).succ ≠ 0#16 then [.closeConnection (s.procs rear).succ false]
            else []) = t ∧ t =
      { s with
        procs := Function.update s.procs rear { s.procs rear with succ := M.addr relay }
        chans := Function.update s.chans relayToRear rest } := by
    refine ⟨_, rfl, ?_⟩
    apply Eq.trans _ (become_eq (c := relayToRear) htaken)
    rcases hsucc with hsucc | hsucc
    · rw [hsucc, if_pos (addr_ne_zero M front), actAll_cons, Circle.act]
      exact close_shut M _ rear front false hshut
    · rw [hsucc, if_neg (not_not.mpr rfl)]
      rfl
  have hcore : Core M hntr τ h t := by
    apply hs.rear_changes
    · rw [hteq]
    · rw [hteq]
    · rw [hteq]
    · rw [hteq]
    · rw [hteq]
      exact link_update _ hpath
    · rw [hteq]
      exact quiet_update hs.quiet hpath
  have hopen' : t.shut ⟨rear, relay, false⟩ = false := by
    rw [hteq]
    exact hopen
  have hprocs : t.procs rear = { s.procs rear with succ := M.addr relay } := by
    rw [hteq]
    exact Function.update_self _ _ _
  have hsends := hcore.rear_sends hN (.inr rfl) hopen'
  rw [hprocs] at hsends
  rw [actAll_append, ht]
  refine ⟨hsends.1, hsends.2.trans ?_⟩
  rw [View.rearResends, if_pos rfl, hteq]
  simp [Circle.view, resent, direct, toRelay, fromRelay, frontToRear, relayToRear, frontToRelay,
    hrr, hrr.symm, hf, hrf.symm]

end Rear

/-! ## One step -/

section Step

variable {M : Members (N + 1)} {hntr : 0 < ntr} {τ : ℕ → ℕ} {h : Fin (N + 1) → ℕ}
  {s s' : Circle N ntr} {c : Chan N} {i k : Fin (N + 1)} {mp : Message} {kept : ℕ}
  {m : Msg ntr × Tag} {rest : List (Msg ntr × Tag)} {q : Proc ntr} {actions : List (Action ntr)}

theorem step_broadcast (hstep : step M hntr s (.broadcast i mp) = some s') :
    s.alive i = true ∧ ∃ q, Trains.broadcast (M.config i) mp (s.procs i) = some q ∧
      s' = { s with procs := Function.update s.procs i q } := by
  simp only [step] at hstep
  split at hstep
  · rename_i halive
    obtain ⟨q, hq, rfl⟩ := Option.map_eq_some_iff.mp hstep
    exact ⟨halive, q, hq, rfl⟩
  · cases hstep

theorem step_treat (hstep : step M hntr s (.treat c) = some s') :
    s.alive c.target = true ∧ ∃ m rest q actions, s.chans c = m :: rest ∧
      stateMachine (M.config c.target) (s.dial M) m.1 (s.procs c.target) = some (q, actions) ∧
      s' = (s.become c m rest q).actAll M c.target actions := by
  simp only [step] at hstep
  split at hstep
  · rename_i halive
    split at hstep
    · cases hstep
    · rename_i m rest hc
      obtain ⟨⟨q, actions⟩, hq, rfl⟩ := Option.map_eq_some_iff.mp hstep
      exact ⟨halive, m, rest, q, actions, hc, hq, rfl⟩
  · cases hstep

theorem step_lose (hstep : step M hntr s (.lose c) = some s') :
    s.shut c = true ∧
      s' = { s with chans := Function.update s.chans c (s.chans c).dropLast } := by
  simp only [step] at hstep
  split at hstep
  · rename_i hshut
    cases hstep
    exact ⟨hshut, rfl⟩
  · cases hstep

theorem step_crash (hstep : step M hntr s (.crash kept) = some s') :
    s.alive relay = true ∧ s' = s.crash M kept := by
  simp only [step] at hstep
  split at hstep
  · rename_i halive
    cases hstep
    exact ⟨halive, rfl⟩
  · cases hstep

theorem step_join (hstep : step M hntr s .join = some s') :
    s.alive relay = false ∧ ∃ q actions,
      automatonInit (M.config relay) (s.dial M) hntr = some (q, actions) ∧
      s' = Circle.actAll M { s with
        alive := Function.update s.alive relay true
        procs := Function.update s.procs relay q } relay actions := by
  simp only [step] at hstep
  split at hstep
  · cases hstep
  · rename_i halive
    obtain ⟨⟨q, actions⟩, hq, rfl⟩ := Option.map_eq_some_iff.mp hstep
    exact ⟨by simpa using halive, q, actions, hq, rfl⟩

/-- What the treatment of a train on a link changes for the path: nothing, or `rear` has made
one visit more, silently or sending the train on the path. -/
theorem Core.step_link (hN : 2 ≤ N) (hnp : N + 1 ≤ np) (hs : Core M hntr τ h s)
    (hopen : ∀ c, OnLink c → s.shut c = false) (hc : OnLink c)
    (hsucc : s.view.rearSucc = 0#16 ∨ ∃ k, (k = front ∨ k = relay) ∧ s.view.rearSucc = M.addr k)
    (hchan : s.chans c = m :: rest)
    (hstep : stateMachine (M.config c.target) (s.dial M) m.1 (s.procs c.target) =
      some (q, actions)) :
    ∃ h', h' front = h front ∧
      Core M hntr τ h' ((s.become c m rest q).actAll M c.target actions) ∧
      (((s.become c m rest q).actAll M c.target actions).view = s.view ∧
          (h' rear = h rear ∨ h' rear = h rear + 1 ∧ (s.view.rearSucc = 0#16 ∨
            ∃ k, s.view.rearSucc = M.addr k ∧ s.shut ⟨rear, k, false⟩ = true)) ∨
        h' rear = h rear + 1 ∧ ∃ k sent, s.view.rearSucc = M.addr k ∧
          s.shut ⟨rear, k, false⟩ = false ∧ IsVisit hntr τ (N - 1) (N - 1) (h rear) sent ∧
          ((s.become c m rest q).actAll M c.target actions).view = s.view.rearSends k sent) := by
  obtain ⟨hpred, hlinked⟩ := hc
  obtain ⟨i, j, isPred⟩ := c
  dsimp only at hpred hlinked hstep
  subst hpred
  have hjf := hlinked.ne.2
  by_cases hj : j = rear
  · subst hj
    have hfront : Function.update h rear (h rear + 1) front = h front :=
      Function.update_of_ne hjf.symm _ _
    have hrear : Function.update h rear (h rear + 1) rear = h rear + 1 :=
      Function.update_self _ _ _
    by_cases hsilent : s.view.rearSucc = 0#16 ∨
        ∃ k, s.view.rearSucc = M.addr k ∧ s.shut ⟨rear, k, false⟩ = true
    · obtain ⟨hcore, hview⟩ := hs.treat_rear_silent hN hnp hlinked hsilent hchan hstep
      exact ⟨_, hfront, hcore, .inl ⟨hview, .inr ⟨hrear, hsilent⟩⟩⟩
    · rw [not_or] at hsilent
      obtain ⟨hne, hnot⟩ := hsilent
      obtain ⟨k, hk, hsucc⟩ := hsucc.resolve_left hne
      have hopen' : s.shut ⟨rear, k, false⟩ = false := by
        rw [Bool.eq_false_iff]
        intro hshut
        exact hnot ⟨k, hsucc, hshut⟩
      obtain ⟨sent, hsent, hcore, hview⟩ :=
        hs.treat_rear hN hnp hlinked hk hsucc hopen' hchan hstep
      exact ⟨_, hfront, hcore, .inr ⟨hrear, k, sent, hsucc, hopen', hsent, hview⟩⟩
  · obtain ⟨k, hk⟩ := exists_linked hN hlinked.ne_relay.2 hj
    obtain ⟨hcore, hview⟩ := hs.treat_link hN hnp hlinked hk (hopen _ ⟨rfl, hk⟩) hchan hstep
    refine ⟨_, Function.update_of_ne hjf.symm _ _, hcore, .inl ⟨hview, .inl ?_⟩⟩
    exact Function.update_of_ne (Ne.symm hj) _ _

theorem Core.link_train (hN : 2 ≤ N) (hnp : N + 1 ≤ np) (hs : Core M hntr τ h s)
    (hlink : OnLink c) (hc : s.chans c = m :: rest) :
    ∃ st circuit wagons, m.1 = .train st circuit wagons := by
  obtain ⟨source, target, isPred⟩ := c
  obtain ⟨rfl, hlinked⟩ := hlink
  obtain ⟨-, st, circuit, wagons, hmsg, -⟩ := hs.link_recent hN hnp hlinked hc
  exact ⟨st, circuit, wagons, hmsg⟩

/-- What is told about `rear` when `front` has taken a train. -/
theorem Core.after_take (hN : 2 ≤ N) (hs : Core M hntr τ h s) :
    Function.update h front (h front + 1) front - ntr = h front - ntr + 1 ∧
      Function.update h front (h front + 1) rear = h rear ∧
      ∀ k < h rear, Function.update τ (h front) t k = τ k := by
  have hfull := hs.full front (front_ne_relay hN)
  have hle := hs.le rear (rear_ne_relay hN)
  refine ⟨?_, Function.update_of_ne (rear_ne_front hN) _ _, ?_⟩
  · rw [Function.update_self]
    omega
  · intro k hk
    exact Function.update_of_ne (by omega) _ _

/-- What the treatment of a train on a link makes of a stage of the path: `rear` may make one
visit more, silently or sending the train on the path. -/
theorem Core.link_stage (hN : 2 ≤ N) (hnp : N + 1 ≤ np) (hs : Core M hntr τ h s)
    (hopen : ∀ c, OnLink c → s.shut c = false) (hlink : OnLink c)
    (hsucc : s.view.rearSucc = 0#16 ∨ ∃ k, (k = front ∨ k = relay) ∧ s.view.rearSucc = M.addr k)
    (hc : s.chans c = m :: rest)
    (hstep : stateMachine (M.config c.target) (s.dial M) m.1 (s.procs c.target) =
      some (q, actions)) (stage : ℕ → View N ntr → Prop) (hv : stage (h rear) s.view)
    (hsilent : (s.view.rearSucc = 0#16 ∨
      ∃ k, s.view.rearSucc = M.addr k ∧ s.shut ⟨rear, k, false⟩ = true) →
      stage (h rear + 1) s.view)
    (hsends : ∀ k sent, s.view.rearSucc = M.addr k → s.shut ⟨rear, k, false⟩ = false →
      IsVisit hntr τ (N - 1) (N - 1) (h rear) sent →
      stage (h rear + 1) (s.view.rearSends k sent)) :
    ∃ h', h' front = h front ∧
      Core M hntr τ h' ((s.become c m rest q).actAll M c.target actions) ∧
      stage (h' rear) ((s.become c m rest q).actAll M c.target actions).view := by
  obtain ⟨h', hfront, hcore, hview⟩ := hs.step_link hN hnp hopen hlink hsucc hc hstep
  refine ⟨h', hfront, hcore, ?_⟩
  rcases hview with ⟨hview, hrear | ⟨hrear, hnot⟩⟩ | ⟨hrear, k, sent, hk, hopen', hsent, hview⟩
  · rw [hview, hrear]
    exact hv
  · rw [hview, hrear]
    exact hsilent hnot
  · rw [hview, hrear]
    exact hsends k sent hk hopen' hsent

/-- A relay in the circuit accepts the train that it waits for. -/
theorem Core.relay_recent (hN : 2 ≤ N) (hnp : N + 1 ≤ np) (hs : Core M hntr τ h s) {y : ℕ}
    {p : Proc ntr} {tags : Fin ntr → Tag} (hw : Window hntr τ (N - 1) N y p.lts tags)
    (hy : ntr ≤ y) (hlis : idPlus p.lis 1 = trainId hntr y)
    (hm : IsVisit hntr τ (N - 1) (N - 1) y m) (hlt : y < h front) {st : Stamp ntr}
    {circuit : Address} {wagons : Option (List Wagon)} (hmsg : m.1 = .train st circuit wagons) :
    isRecentTrain st p.lts p.lis = true := by
  obtain ⟨hown, hlo, hhi⟩ := hw.clock hy
  obtain ⟨st', circuit', wagons', hmsg', hid, hlc, hmlo, hmhi, -⟩ := hm
  rw [hmsg'] at hmsg
  cases hmsg
  have hlap := hs.laps (y - ntr) (by omega)
  rw [Nat.sub_add_cancel hy] at hlap
  have h16 : np = 16 := rfl
  apply recent_of_lt (hid.trans hlis.symm) hlc (by rw [hid]; exact hown)
  · omega
  · omega

end Step

end UniformBroadcast.Trains.Continuity
