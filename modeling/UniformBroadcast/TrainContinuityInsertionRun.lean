import UniformBroadcast.TrainContinuityInsertion
import UniformBroadcast.TrainContinuityPlace

/-!
# Runs with an insertion

Every step of a ring to which the relay may come keeps one of the stages of the insertion, as
long as `front` treats the trains of the connection that it has closed before it is half round
the clock.
-/

namespace UniformBroadcast.Trains.Continuity

variable {N ntr : ℕ}

section Relay

variable {M : Members (N + 1)} {hntr : 0 < ntr} {τ : ℕ → ℕ} {h : Fin (N + 1) → ℕ}
  {s : Circle N ntr} {m : Msg ntr × Tag} {rest : List (Msg ntr × Tag)} {q : Proc ntr}
  {actions : List (Action ntr)} {c : Config} {dial : Address → Bool} {succ sender : Address}
  {rank : ℕ} {i : Fin (N + 1)}

/-! ## The relay comes -/

/-- A process that finds a successor asks it to be inserted. -/
theorem automatonInit_asks (hrank : addrToRank c.myAddress = some rank)
    (hsucc : (searchSucc c dial (ranksAfter rank) : List (Action ntr) × Address).2 = succ)
    (hne : succ ≠ c.myAddress) (hinit : automatonInit c dial hntr = some (q, actions)) :
    q.automatonState = .offlineConnectionAttempt ∧ q.succ = succ ∧
      (∀ id, (q.lts id).circuit = 0#16) ∧
      actions = .participate true :: (searchSucc c dial (ranksAfter rank)).1 ++
        [.sendOther succ false (.insert c.myAddress)] := by
  simp only [automatonInit, nextState, offlineInit, hrank, Option.bind_eq_bind,
    Option.bind_some] at hinit
  cases hsearch : (searchSucc c dial (ranksAfter rank) : List (Action ntr) × Address) with
  | mk attempts found =>
    rw [hsearch] at hinit hsucc
    dsimp only at hinit hsucc
    subst hsucc
    rw [if_neg hne] at hinit
    cases hinit
    exact ⟨rfl, rfl, fun _ => rfl, rfl⟩

/-- Actions that send nothing and close nothing. -/
theorem actAll_quiet (hquiet : ∀ a ∈ actions, ∀ t : Circle N ntr, t.act M i a = t) :
    s.actAll M i actions = s := by
  induction actions with
  | nil => rfl
  | cons a actions ih =>
    rw [actAll_cons, hquiet a List.mem_cons_self]
    exact ih fun a' ha' => hquiet a' (List.mem_cons_of_mem _ ha')

theorem Core.joins (hN : 2 ≤ N) (hs : Core M hntr τ h s)
    (hrank : addrToRank (M.addr relay) = some rank)
    (hsucc : (searchSucc (M.config relay) (s.dial M) (ranksAfter rank) :
      List (Action ntr) × Address).2 = M.addr front)
    (hopen : s.shut fromRelay = false)
    (hinit : automatonInit (M.config relay) (s.dial M) hntr = some (q, actions)) :
    q.automatonState = .offlineConnectionAttempt ∧ q.succ = M.addr front ∧
      (∀ id, (q.lts id).circuit = 0#16) ∧
      Core M hntr τ h (Circle.actAll M { s with
        alive := Function.update s.alive relay true
        procs := Function.update s.procs relay q } relay actions) ∧
      (Circle.actAll M { s with
        alive := Function.update s.alive relay true
        procs := Function.update s.procs relay q } relay actions).view = { s.view with
          relayAlive := true
          relay := q
          fromRelay := s.view.fromRelay ++ [(.insert (M.addr relay), .none)] } := by
  have hf := front_ne_relay hN
  have hrf := rear_ne_front hN
  have hrr := rear_ne_relay hN
  obtain ⟨hstate, hq, hcircuit, rfl⟩ := automatonInit_asks (c := M.config relay) hrank hsucc
    (fun heq => hf (M.injective heq)) hinit
  have hpath : OnPath (fromRelay : Chan N) := .inr (.inr (.inl rfl))
  have heq : Circle.actAll M { s with
        alive := Function.update s.alive relay true
        procs := Function.update s.procs relay q } relay
      (.participate true :: (searchSucc (M.config relay) (s.dial M) (ranksAfter rank)).1 ++
        [.sendOther (M.addr front) false (.insert (M.config relay).myAddress)]) =
      { s with
        alive := Function.update s.alive relay true
        procs := Function.update s.procs relay q
        chans := Function.update s.chans fromRelay
          (s.chans fromRelay ++ [(.insert (M.addr relay), .none)]) } := by
    have hquiet : ∀ a ∈ Action.participate true ::
        (searchSucc (M.config relay) (s.dial M) (ranksAfter rank)).1,
        ∀ t : Circle N ntr, t.act M relay a = t := by
      intro a ha t
      rcases List.mem_cons.mp ha with rfl | ha
      · rfl
      · obtain ⟨addr, opened, rfl⟩ := mem_searchSucc ha
        rfl
    rw [actAll_append, actAll_quiet hquiet, actAll_cons, Circle.act, write_addr,
      post_open _ (by exact hopen)]
    rfl
  rw [heq]
  refine ⟨hstate, hq, hcircuit, ?_, ?_⟩
  · apply hs.relay_changes rfl
    · intro i hi
      exact Function.update_of_ne hi _ _
    · exact fun i _ => rfl
    · exact link_update _ hpath
    · rfl
    · exact quiet_update hs.quiet hpath
  · simp [Circle.view, direct, toRelay, fromRelay, frontToRear, relayToRear, frontToRelay, hrr,
      hf, hf.symm, hrf]

/-! ## `front` accepts it -/

theorem Core.front_answers (hN : 2 ≤ N) (hs : Core M hntr τ h s)
    (hprec : s.view.frontPrec = M.addr rear) (hopen : ∀ c, s.shut c = false)
    (hm : m.1 = .insert (M.addr relay))
    (hstep : stateMachine (M.config front) (s.dial M) m.1 (s.procs front) = some (q, actions)) :
    Core M hntr τ h ((s.become fromRelay m rest q).actAll M front actions) ∧
      ∃ shut, ((s.become fromRelay m rest q).actAll M front actions).view = { s.view with
          frontPrec := M.addr relay
          fromRelay := rest
          frontToRear := s.view.frontToRear ++ [notice M front true]
          frontToRelay := s.view.frontToRelay ++ [(.ackInsert (M.addr rear), .none)]
          shut := shut } ∧
        shut direct = true ∧ ∀ c, shut c = true → c = direct ∨ c = frontToRear := by
  have hf := front_ne_relay hN
  have hrf := rear_ne_front hN
  have hrr := rear_ne_relay hN
  change (s.procs front).prec = _ at hprec
  have htaken : taken (s.procs front) m.1 = none := by
    apply taken_other
    intro st circuit wagons hmsg
    rw [hm] at hmsg
    cases hmsg
  rw [hm, several_insert (hs.state front hf), hprec] at hstep
  cases hstep
  have hpath : OnPath (fromRelay : Chan N) := .inr (.inr (.inl rfl))
  have hpath' : OnPath (frontToRear : Chan N) := .inr (.inr (.inr (.inl rfl)))
  have hpath'' : OnPath (frontToRelay : Chan N) := .inr (.inr (.inr (.inr (.inr rfl))))
  have hne : (frontToRear : Chan N) ≠ fromRelay := by simp [frontToRear, fromRelay]
  have hne' : (frontToRelay : Chan N) ≠ fromRelay := by simp [frontToRelay, fromRelay]
  have hne'' : (frontToRelay : Chan N) ≠ frontToRear := by
    simp [frontToRelay, frontToRear, hrr.symm]
  have hshut : (Function.update (Function.update s.shut frontToRear true) direct true)
      frontToRelay = false := by
    rw [Function.update_of_ne (by simp [frontToRelay, direct]), Function.update_of_ne hne'',
      hopen]
  have heq : (s.become fromRelay m rest { s.procs front with
          prec := M.addr relay
          cameProc := addrAppendArrived (s.procs front).cameProc (M.addr relay) }).actAll M front
        [.closeConnection (M.addr rear) true,
          .sendOther (M.addr relay) true (.ackInsert (M.addr rear))] =
      { s with
        procs := Function.update s.procs front { s.procs front with
          prec := M.addr relay
          cameProc := addrAppendArrived (s.procs front).cameProc (M.addr relay) }
        chans := Function.update (Function.update (Function.update s.chans fromRelay rest)
            frontToRear (s.chans frontToRear ++ [notice M front true])) frontToRelay
          (s.chans frontToRelay ++ [(.ackInsert (M.addr rear), .none)])
        shut := Function.update (Function.update s.shut frontToRear true) direct true } := by
    rw [become_eq (c := fromRelay) htaken, actAll_cons, Circle.act,
      close_open M _ front rear true (by exact hopen _), actAll_cons, Circle.act, write_addr,
      post_open _ (by exact hshut)]
    change ({ s with
      procs := Function.update s.procs front { s.procs front with
        prec := M.addr relay
        cameProc := addrAppendArrived (s.procs front).cameProc (M.addr relay) }
      chans := Function.update (Function.update (Function.update s.chans fromRelay rest)
          frontToRear (Function.update s.chans fromRelay rest frontToRear ++
            [notice M front true])) frontToRelay
        (Function.update (Function.update s.chans fromRelay rest)
          frontToRear (Function.update s.chans fromRelay rest frontToRear ++
            [notice M front true]) frontToRelay ++ [(.ackInsert (M.addr rear), .none)])
      shut := Function.update (Function.update s.shut frontToRear true) direct true } :
        Circle N ntr) = _
    rw [Function.update_of_ne hne, Function.update_of_ne hne'', Function.update_of_ne hne']
  rw [heq]
  constructor
  · apply hs.changes rfl
    · exact fun _ => ⟨rfl, rfl, rfl⟩
    · exact fun _ _ => rfl
    · exact fun i _ => rfl
    · exact fun i _ => rfl
    · intro c hlink
      exact (link_update _ hpath'' c hlink).trans
        ((link_update _ hpath' c hlink).trans (link_update _ hpath c hlink))
    · rfl
    · exact quiet_update (quiet_update (quiet_update hs.quiet hpath) hpath') hpath''
  · refine ⟨Function.update (Function.update s.shut frontToRear true) direct true, ?_, ?_, ?_⟩
    · simp [Circle.view, direct, toRelay, fromRelay, frontToRear, relayToRear, frontToRelay, hrr,
        hrr.symm, hf, hf.symm, hrf, hrf.symm]
    · exact Function.update_self _ _ _
    · intro c hc
      by_contra hnot
      rw [not_or] at hnot
      rw [Function.update_of_ne hnot.1, Function.update_of_ne hnot.2, hopen c] at hc
      cases hc

/-- The relay has the answer of `front`: it tells `rear` that it is its successor. -/
theorem Core.relay_confirms (hN : 2 ≤ N) (hs : Core M hntr τ h s)
    (hstate : s.view.relay.automatonState = .offlineConnectionAttempt)
    (hopen : s.shut relayToRear = false) (hm : m.1 = .ackInsert (M.addr rear))
    (hstep : stateMachine (M.config relay) (s.dial M) m.1 (s.procs relay) = some (q, actions)) :
    q.automatonState = .offlineConfirmationWait ∧ q.succ = s.view.relay.succ ∧
      q.lts = s.view.relay.lts ∧
      Core M hntr τ h ((s.become frontToRelay m rest q).actAll M relay actions) ∧
      ((s.become frontToRelay m rest q).actAll M relay actions).view = { s.view with
        relay := q
        frontToRelay := rest
        relayToRear := s.view.relayToRear ++ [(.newSucc (M.addr relay), .none)] } := by
  have hf := front_ne_relay hN
  have hrf := rear_ne_front hN
  have hrr := rear_ne_relay hN
  change (s.procs relay).automatonState = _ at hstate
  have htaken : taken (s.procs relay) m.1 = none := by
    apply taken_other
    intro st circuit wagons hmsg
    rw [hm] at hmsg
    cases hmsg
  rw [hm, connectionAttempt_ackInsert hstate] at hstep
  cases hstep
  refine ⟨rfl, rfl, rfl, ?_⟩
  have hpath : OnPath (frontToRelay : Chan N) := .inr (.inr (.inr (.inr (.inr rfl))))
  have hpath' : OnPath (relayToRear : Chan N) := .inr (.inr (.inr (.inr (.inl rfl))))
  have hne : (relayToRear : Chan N) ≠ frontToRelay := by
    simp [relayToRear, frontToRelay, hf.symm]
  have heq : (s.become frontToRelay m rest { s.procs relay with
          prec := M.addr rear
          automatonState := .offlineConfirmationWait }).actAll M relay
        [.openConnection (M.addr rear) true (s.dial M (M.addr rear)),
          .sendOther (M.addr rear) true (.newSucc (M.config relay).myAddress)] =
      { s with
        procs := Function.update s.procs relay { s.procs relay with
          prec := M.addr rear
          automatonState := .offlineConfirmationWait }
        chans := Function.update (Function.update s.chans frontToRelay rest) relayToRear
          (s.chans relayToRear ++ [(.newSucc (M.addr relay), .none)]) } := by
    rw [become_eq (c := frontToRelay) htaken]
    simp only [actAll_cons, Circle.act, write_addr]
    rw [post_open _ (by exact hopen)]
    change ({ s with
      procs := Function.update s.procs relay { s.procs relay with
        prec := M.addr rear
        automatonState := .offlineConfirmationWait }
      chans := Function.update (Function.update s.chans frontToRelay rest) relayToRear
        (Function.update s.chans frontToRelay rest relayToRear ++
          [(.newSucc (M.addr relay), .none)]) } : Circle N ntr) = _
    rw [Function.update_of_ne hne]
  rw [heq]
  constructor
  · apply hs.relay_changes rfl
    · exact fun i _ => rfl
    · exact fun i _ => rfl
    · intro c hlink
      exact (link_update _ hpath' c hlink).trans (link_update _ hpath c hlink)
    · rfl
    · exact quiet_update (quiet_update hs.quiet hpath) hpath'
  · simp [Circle.view, direct, toRelay, fromRelay, frontToRear, relayToRear, frontToRelay, hrr,
      hrr.symm, hf, hf.symm, hrf, hrf.symm]

end Relay

/-! ## The treatment of a message -/

section Treat

variable {M : Members (N + 1)} {hntr : 0 < ntr} {τ : ℕ → ℕ} {h : Fin (N + 1) → ℕ}
  {s : Circle N ntr} {c : Chan N} {m : Msg ntr × Tag} {l l' rest : List (Msg ntr × Tag)}
  {q : Proc ntr} {actions : List (Action ntr)} {state : State} {r u last : ℕ}

/-- Before `front` accepts the relay. -/
theorem Adjacent.treat (hN : 2 ≤ N) (hnp : N + 1 ≤ np) (hs : Core M hntr τ h s)
    (hv : Adjacent M hntr τ (h front - ntr) (h rear) s.view)
    (hother : OnLink c ∨ c = Continuity.direct)
    (hc : s.chans c = m :: rest)
    (hstep : stateMachine (M.config c.target) (s.dial M) m.1 (s.procs c.target) =
      some (q, actions)) :
    ∃ τ' h' s', (s.become c m rest q).actAll M c.target actions = s' ∧ Core M hntr τ' h' s' ∧
      Adjacent M hntr τ' (h' front - ntr) (h' rear) s'.view ∧
      s'.view.relayAlive = s.view.relayAlive ∧ s'.view.relay = s.view.relay ∧
      s'.view.fromRelay = s.view.fromRelay := by
  rcases hother with hlink | rfl
  · obtain ⟨h', hfront, hcore, hstage⟩ := hs.link_stage hN hnp (fun c _ => hv.shut c) hlink
      (.inr ⟨front, .inl rfl, hv.rearSucc⟩) hc hstep
      (fun x v => Adjacent M hntr τ (h front - ntr) x v ∧ v.relayAlive = s.view.relayAlive ∧
        v.relay = s.view.relay ∧ v.fromRelay = s.view.fromRelay)
      ⟨hv, rfl, rfl, rfl⟩
      (by
        rintro (hzero | ⟨k, -, hshut⟩)
        · exact absurd (hv.rearSucc.symm.trans hzero) (addr_ne_zero M front)
        · exact absurd ((hv.shut _).symm.trans hshut) Bool.false_ne_true)
      (by
        intro k sent hk _ hsent
        obtain rfl := M.injective (hv.rearSucc.symm.trans hk)
        refine ⟨hv.sends hN hsent, ?_⟩
        rw [View.rearSends, if_neg (front_ne_relay hN)]
        exact ⟨rfl, rfl, rfl⟩)
    rw [← hfront] at hstage
    exact ⟨_, _, _, rfl, hcore, hstage⟩
  · have hread : s.view.direct = m :: rest := hc
    obtain ⟨hvisit, hlt, hstage⟩ := hv.reads hN hread
    obtain ⟨hfront, hrear, hτ⟩ := hs.after_take hN (t := m.2.clock + 1)
    obtain ⟨hcore, hview⟩ := hs.treat_front_takes hN hnp (fun c _ => hv.shut c) (.inl rfl) hc
      hvisit hlt hstep
    have hadj := hstage _ hτ
    rw [← hfront, ← hrear, ← hview] at hadj
    refine ⟨_, _, _, rfl, hcore, hadj, ?_⟩
    change ((s.become ⟨rear, front, false⟩ m rest q).actAll M front actions).view.relayAlive = _ ∧
      ((s.become ⟨rear, front, false⟩ m rest q).actAll M front actions).view.relay = _ ∧
      ((s.become ⟨rear, front, false⟩ m rest q).actAll M front actions).view.fromRelay = _
    rw [hview, View.frontReads, if_neg (rear_ne_relay hN)]
    exact ⟨rfl, rfl, rfl⟩

/-- Nothing but the connection to `rear` has been closed. -/
theorem Closed.stays_open (hv : Closed hntr τ u s.view last) (hne : c ≠ Continuity.direct)
    (hne' : c ≠ Continuity.frontToRear) : s.shut c = false := by
  rw [Bool.eq_false_iff]
  intro hshut
  rcases hv.shut c hshut with heq | heq
  · exact hne heq
  · exact hne' heq

theorem Closed.links (hv : Closed hntr τ u s.view last) (hlink : OnLink c) : s.shut c = false := by
  apply hv.stays_open
  · rintro rfl
    exact not_onPath hlink (.inl rfl)
  · rintro rfl
    exact not_onPath hlink (.inr (.inr (.inr (.inl rfl))))

/-- `front` treats a train of the closed connection. -/
theorem Closed.treat (hN : 2 ≤ N) (hnp : N + 1 ≤ np) (hs : Core M hntr τ h s)
    (hv : Closed hntr τ (h front - ntr) s.view last) (hlast : last ≤ h rear)
    (hc : s.chans Continuity.direct = m :: rest)
    (htime : Timely (s.procs front) (s.tags front) m)
    (hstep : stateMachine (M.config front) (s.dial M) m.1 (s.procs front) = some (q, actions)) :
    ((s.become Continuity.direct m rest q).actAll M front actions).view =
        s.view.frontReads rear rest ∧
      (Core M hntr τ h ((s.become Continuity.direct m rest q).actAll M front actions) ∧
          Closed hntr τ (h front - ntr) (s.view.frontReads rear rest) last ∨
        h front - ntr < last ∧ ∃ τ' h', (∀ k < h rear, τ' k = τ k) ∧ h' rear = h rear ∧
          h' front - ntr = h front - ntr + 1 ∧
          Core M hntr τ' h' ((s.become Continuity.direct m rest q).actAll M front actions) ∧
          Closed hntr τ' (h front - ntr + 1) (s.view.frontReads rear rest) last) := by
  have hread : s.view.direct = m :: rest := hc
  obtain ⟨o, hvisit, hlt, hstage⟩ := hv.reads hN hread
  obtain ⟨st, circuit, wagons, hmsg, -⟩ := id hvisit
  rcases hstage with ⟨ho, hclosed⟩ | ⟨rfl, hstage⟩
  · have hclose : st.id = trainId hntr (h front) →
        (s.tags front st.id).clock < m.2.clock + 128 := by
      intro hid
      obtain ⟨msg, tag⟩ := m
      dsimp only at hmsg
      subst hmsg
      exact htime (hid.trans (hs.lis front (front_ne_relay hN)).symm)
    obtain ⟨hcore, hview⟩ := hs.treat_front_ignores hN (.inl rfl) hc hmsg
      (hs.front_not_recent hN hvisit hmsg ho hclose) hstep
    exact ⟨hview, .inl ⟨hcore, hclosed⟩⟩
  · obtain ⟨hfront, hrear, hτ⟩ := hs.after_take hN (t := m.2.clock + 1)
    obtain ⟨hcore, hview⟩ := hs.treat_front_takes hN hnp (fun c hlink => hv.links hlink) (.inl rfl)
      hc hvisit (by omega) hstep
    exact ⟨hview, .inr ⟨hlt, _, _, hτ, hrear, hfront, hcore,
      hstage _ fun k hk => hτ k (by omega)⟩⟩

/-- Between the answer of `front` and the message of the relay to `rear`. -/
theorem Cut.treat (hN : 2 ≤ N) (hnp : N + 1 ≤ np) (hs : Core M hntr τ h s)
    (hv : Cut M hntr τ (h front - ntr) (h rear) s.view state l l')
    (hother : OnLink c ∨ c = Continuity.direct ∨ c = Continuity.frontToRear)
    (hc : s.chans c = m :: rest)
    (htime : s.shut c = true → Timely (s.procs c.target) (s.tags c.target) m)
    (hstep : stateMachine (M.config c.target) (s.dial M) m.1 (s.procs c.target) =
      some (q, actions)) :
    ∃ τ' h', Core M hntr τ' h' ((s.become c m rest q).actAll M c.target actions) ∧
      Cut M hntr τ' (h' front - ntr) (h' rear)
        ((s.become c m rest q).actAll M c.target actions).view state l l' := by
  rcases hother with hlink | rfl | rfl
  · obtain ⟨h', hfront, hcore, hstage⟩ := hs.link_stage hN hnp
      (fun c hlink => hv.toClosed.links hlink) hlink
      (hv.rearSucc.symm.imp_right fun hsucc => ⟨front, .inl rfl, hsucc⟩) hc hstep
      (fun x v => Cut M hntr τ (h front - ntr) x v state l l') hv (fun _ => hv.silent)
      (by
        intro k sent hk hopen _
        rcases hv.rearSucc with hsucc | hzero
        · obtain rfl := M.injective (hsucc.symm.trans hk)
          exact absurd (hopen.symm.trans hv.shut_direct) Bool.false_ne_true
        · exact absurd (hk.symm.trans hzero) (addr_ne_zero M k))
    rw [← hfront] at hstage
    exact ⟨_, _, hcore, hstage⟩
  · obtain ⟨hview, ⟨hcore, hclosed⟩ | ⟨-, τ', h', -, hrear, hfront, hcore, hclosed⟩⟩ :=
      hv.toClosed.treat hN hnp hs (Nat.le_refl _) hc (htime hv.shut_direct) hstep
    · have hcut := hv.reads hN hclosed
      rw [← hview] at hcut
      exact ⟨_, _, hcore, hcut⟩
    · have hcut := hv.reads hN hclosed
      rw [← hview, ← hfront, ← hrear] at hcut
      exact ⟨_, _, hcore, hcut⟩
  · have hread : s.view.frontToRear = m :: rest := hc
    obtain ⟨⟨sender, hm⟩, -⟩ := hv.toClosed.frontToRear.tail hread
    obtain ⟨hcore, hview⟩ := hs.rear_loses hN (.inl rfl) hm hstep
    have hcut := hv.loses hN hread
    rw [← hview] at hcut
    exact ⟨_, _, hcore, hcut⟩

/-- The relay takes a train from `rear`. -/
theorem Relaying.treat_relay (hN : 2 ≤ N) (hnp : N + 1 ≤ np) (hs : Core M hntr τ h s)
    (hv : Relaying M hntr τ (h front - ntr) (h rear) s.view r u last)
    (hc : s.chans Continuity.toRelay = m :: rest)
    (hstep : stateMachine (M.config relay) (s.dial M) m.1 (s.procs relay) = some (q, actions)) :
    Core M hntr τ h ((s.become Continuity.toRelay m rest q).actAll M relay actions) ∧
      Relaying M hntr τ (h front - ntr) (h rear)
        ((s.become Continuity.toRelay m rest q).actAll M relay actions).view r (u + 1) last := by
  have hread : s.view.toRelay = m :: rest := hc
  have hstream := hv.toRelay
  have hlength := hv.rearSucc
  rw [hread] at hstream hlength
  rw [List.length_cons] at hlength
  have hlt := hs.le rear (rear_ne_relay hN)
  obtain ⟨st, circuit, wagons, hmsg, -⟩ := id hstream.1
  have hopen : s.shut Continuity.fromRelay = false :=
    hv.toClosed.stays_open (by simp [Continuity.fromRelay, Continuity.direct,
      (rear_ne_relay hN).symm]) (by simp [Continuity.fromRelay, Continuity.frontToRear])
  by_cases hwait : s.view.relay.automatonState = .offlineConfirmationWait
  · have hq := hstep
    rw [hmsg] at hq
    obtain ⟨hsucc, -, hid, hlc, rfl, -⟩ := confirmationWait_train hwait hq
    have hsends : [Action.sendTrain q.succ (q.lts st.id)] = sendOn q st := by
      rw [sendOn, hsucc, hv.succ, if_pos (addr_ne_zero M front)]
    obtain ⟨hcore, hview⟩ := hs.treat_relay hN rest
      (taken_confirmationWait hmsg hwait) (hsucc.trans hv.succ) hid hopen
    have hpasses := hv.passes hread (hstream.1.let_through hN hmsg hid hlc) hsucc
      (hv.relays.lets_through hN hwait hstream.1 hmsg hq)
    rw [hsends]
    rw [← hview] at hpasses
    exact ⟨hcore, hpasses⟩
  · obtain ⟨hseveral, hlis, hfull, hw⟩ := hv.relays.resolve_left fun h => hwait h.1
    have hrecent := hs.relay_recent hN hnp hw hfull hlis hstream.1
      (by rcases hlength with ⟨-, hx⟩ | ⟨-, hx⟩ <;> omega) hmsg
    rw [hmsg] at hstep
    rcases several_train_cases hseveral hstep with ⟨-, ht, rfl⟩ | ⟨hnot, -⟩
    · obtain ⟨hcore, hview⟩ := hs.treat_relay hN rest
        (taken_recent hmsg hseveral hrecent) (ht.succ.trans hv.succ) ht.id hopen
      have hpasses := hv.passes hread (hstream.1.let_through hN hmsg ht.id (.inr ht.lc)) ht.succ
        (hv.relays.handles hN hseveral hstream.1 hmsg ht)
      rw [← hview] at hpasses
      exact ⟨hcore, hpasses⟩
    · rw [hrecent] at hnot
      cases hnot

/-- Once `rear` sends to the relay. -/
theorem Relaying.treat (hN : 2 ≤ N) (hnp : N + 1 ≤ np) (hs : Core M hntr τ h s)
    (hv : Relaying M hntr τ (h front - ntr) (h rear) s.view r u last)
    (hc : s.chans c = m :: rest)
    (htime : s.shut c = true → Timely (s.procs c.target) (s.tags c.target) m)
    (hstep : stateMachine (M.config c.target) (s.dial M) m.1 (s.procs c.target) =
      some (q, actions)) :
    ∃ τ' h' r' u', Core M hntr τ' h' ((s.become c m rest q).actAll M c.target actions) ∧
      Relaying M hntr τ' (h' front - ntr) (h' rear)
        ((s.become c m rest q).actAll M c.target actions).view r' u' last := by
  have hrr := rear_ne_relay hN
  have hsucc : s.view.rearSucc = M.addr relay ∨ s.view.rearSucc = 0#16 := by
    rcases hv.rearSucc with ⟨hsucc, -⟩ | ⟨hzero, -⟩
    · exact .inl hsucc
    · exact .inr hzero
  rcases hs.quiet c (by rw [hc]; exact List.cons_ne_nil m rest) with
    hlink | rfl | rfl | rfl | rfl | rfl | rfl
  · obtain ⟨h', hfront, hcore, hstage⟩ := hs.link_stage hN hnp
      (fun c hlink => hv.toClosed.links hlink) hlink
      (hsucc.symm.imp_right fun hsucc => ⟨relay, .inr rfl, hsucc⟩) hc hstep
      (fun x v => Relaying M hntr τ (h front - ntr) x v r u last) hv
      (by
        rintro (hzero | ⟨k, hk, hshut⟩)
        · exact hv.silent hzero
        · rcases hsucc with hsucc | hzero
          · obtain rfl := M.injective (hsucc.symm.trans hk)
            rcases hv.shut _ hshut with heq | heq
            · exact absurd (Chan.mk.inj heq).2.1.symm (front_ne_relay hN)
            · exact absurd (Chan.mk.inj heq).2.2 Bool.false_ne_true
          · exact hv.silent hzero)
      (by
        intro k sent hk _ hsent
        rcases hsucc with hsucc | hzero
        · obtain rfl := M.injective (hsucc.symm.trans hk)
          exact hv.sends hsent hsucc
        · exact absurd (hk.symm.trans hzero) (addr_ne_zero M k))
    rw [← hfront] at hstage
    exact ⟨_, _, _, _, hcore, hstage⟩
  · obtain ⟨hview, ⟨hcore, hclosed⟩ | ⟨he, τ', h', hτ, hrear, hfront, hcore, hclosed⟩⟩ :=
      hv.toClosed.treat hN hnp hs hv.last_le hc (htime hv.shut_direct) hstep
    · have hstage := hv.reads_closed hN hclosed
      rw [← hview] at hstage
      exact ⟨_, _, _, _, hcore, hstage⟩
    · have hstage := hv.takes_closed hN he hτ hclosed
      rw [← hview, ← hfront, ← hrear] at hstage
      exact ⟨_, _, _, _, hcore, hstage⟩
  · obtain ⟨hcore, hstage⟩ := hv.treat_relay hN hnp hs hc hstep
    exact ⟨_, _, _, _, hcore, hstage⟩
  · have hread : s.view.fromRelay = m :: rest := hc
    obtain ⟨hvisit, hlt, hstage⟩ := hv.reads hread
    obtain ⟨st, circuit, wagons, hmsg, -⟩ := id hvisit
    rcases hstage with ⟨hr, hstage⟩ | ⟨rfl, hstage⟩
    · obtain ⟨hcore, hview⟩ := hs.treat_front_ignores hN (.inr rfl) hc hmsg
        (hs.front_not_recent hN hvisit hmsg hr (hs.front_close hN hvisit hmsg hr hv.close)) hstep
      rw [← hview] at hstage
      exact ⟨_, _, _, _, hcore, hstage⟩
    · obtain ⟨hfront, hrear, hτ⟩ := hs.after_take hN (t := m.2.clock + 1)
      obtain ⟨hcore, hview⟩ := hs.treat_front_takes hN hnp
        (fun c hlink => hv.toClosed.links hlink) (.inr rfl) hc hvisit hlt hstep
      have hreads := hstage _ hτ
      rw [← hview, ← hfront, ← hrear] at hreads
      exact ⟨_, _, _, _, hcore, hreads⟩
  · have hread : s.view.frontToRear = m :: rest := hc
    obtain ⟨⟨sender, hm⟩, -⟩ := hv.toClosed.frontToRear.tail hread
    obtain ⟨hcore, hview⟩ := hs.rear_loses hN (.inl rfl) hm hstep
    have hstage := hv.loses hN hread
    rw [← hview] at hstage
    exact ⟨_, _, _, _, hcore, hstage⟩
  · rw [show s.chans Continuity.relayToRear = [] from hv.relayToRear] at hc
    cases hc
  · rw [show s.chans Continuity.frontToRelay = [] from hv.frontToRelay] at hc
    cases hc

end Treat

/-! ## The run -/

/-- A run in which the relay may come, and does not crash. -/
inductive Inserting (M : Members (N + 1)) (hntr : 0 < ntr) (s : Circle N ntr) : Prop where
  | absent {τ : ℕ → ℕ} {h : Fin (N + 1) → ℕ} (core : Core M hntr τ h s)
      (stage : Absent M hntr τ (h front - ntr) (h rear) s.view)
  | asking {τ : ℕ → ℕ} {h : Fin (N + 1) → ℕ} (core : Core M hntr τ h s)
      (stage : Asking M hntr τ (h front - ntr) (h rear) s.view)
  | answered {τ : ℕ → ℕ} {h : Fin (N + 1) → ℕ} (core : Core M hntr τ h s)
      (stage : Answered M hntr τ (h front - ntr) (h rear) s.view)
  | confirming {τ : ℕ → ℕ} {h : Fin (N + 1) → ℕ} (core : Core M hntr τ h s)
      (stage : Confirming M hntr τ (h front - ntr) (h rear) s.view)
  | relaying {τ : ℕ → ℕ} {h : Fin (N + 1) → ℕ} {r u last : ℕ} (core : Core M hntr τ h s)
      (stage : Relaying M hntr τ (h front - ntr) (h rear) s.view r u last)

section Run

variable {M : Members (N + 1)} {hntr : 0 < ntr} {τ : ℕ → ℕ} {h : Fin (N + 1) → ℕ}
  {s s' : Circle N ntr} {c : Chan N} {i : Fin (N + 1)} {mp : Message} {m : Msg ntr × Tag}
  {rest : List (Msg ntr × Tag)} {q : Proc ntr} {actions : List (Action ntr)}
  {rank : Fin (N + 1) → Fin np} {e : Event N}

theorem Inserting.absent_treat (hN : 2 ≤ N) (hnp : N + 1 ≤ np) (hs : Core M hntr τ h s)
    (hv : Absent M hntr τ (h front - ntr) (h rear) s.view) (hc : s.chans c = m :: rest)
    (hstep : stateMachine (M.config c.target) (s.dial M) m.1 (s.procs c.target) =
      some (q, actions)) :
    Inserting M hntr ((s.become c m rest q).actAll M c.target actions) := by
  have hadj : OnLink c ∨ c = direct →
      Inserting M hntr ((s.become c m rest q).actAll M c.target actions) := by
    intro hother
    obtain ⟨τ', h', s', rfl, hcore, hadj, halive, -, hfrom⟩ :=
      hv.toAdjacent.treat hN hnp hs hother hc hstep
    exact .absent hcore
      { hadj with alive := halive.trans hv.alive, fromRelay := hfrom.trans hv.fromRelay }
  rcases hs.quiet c (by rw [hc]; exact List.cons_ne_nil m rest) with
    hlink | rfl | rfl | rfl | rfl | rfl | rfl
  · exact hadj (.inl hlink)
  · exact hadj (.inr rfl)
  · rw [show s.chans toRelay = [] from hv.toRelay] at hc
    cases hc
  · rw [show s.chans fromRelay = [] from hv.fromRelay] at hc
    cases hc
  · rw [show s.chans frontToRear = [] from hv.frontToRear] at hc
    cases hc
  · rw [show s.chans relayToRear = [] from hv.relayToRear] at hc
    cases hc
  · rw [show s.chans frontToRelay = [] from hv.frontToRelay] at hc
    cases hc

theorem Inserting.asking_treat (hN : 2 ≤ N) (hnp : N + 1 ≤ np) (hs : Core M hntr τ h s)
    (hv : Asking M hntr τ (h front - ntr) (h rear) s.view) (hc : s.chans c = m :: rest)
    (hstep : stateMachine (M.config c.target) (s.dial M) m.1 (s.procs c.target) =
      some (q, actions)) :
    Inserting M hntr ((s.become c m rest q).actAll M c.target actions) := by
  have hadj : OnLink c ∨ c = direct →
      Inserting M hntr ((s.become c m rest q).actAll M c.target actions) := by
    intro hother
    obtain ⟨τ', h', s', rfl, hcore, hadj, halive, hrelay, hfrom⟩ :=
      hv.toAdjacent.treat hN hnp hs hother hc hstep
    exact .asking hcore
      { hadj, hv.toNewRelay.congr halive hrelay with fromRelay := hfrom.trans hv.fromRelay }
  rcases hs.quiet c (by rw [hc]; exact List.cons_ne_nil m rest) with
    hlink | rfl | rfl | rfl | rfl | rfl | rfl
  · exact hadj (.inl hlink)
  · exact hadj (.inr rfl)
  · rw [show s.chans toRelay = [] from hv.toRelay] at hc
    cases hc
  · have hread : s.view.fromRelay = m :: rest := hc
    have hm : m = (.insert (M.addr relay), .none) := by
      have hone := hv.fromRelay
      rw [hread, List.cons.injEq] at hone
      exact hone.1
    obtain ⟨hcore, shut, hview, hdirect, hshut⟩ :=
      hs.front_answers hN hv.frontPrec hv.shut (by rw [hm]) hstep
    have hanswered := hv.answers (M.addr relay) hread hdirect hshut
    rw [← hview] at hanswered
    exact .answered hcore hanswered
  · rw [show s.chans frontToRear = [] from hv.frontToRear] at hc
    cases hc
  · rw [show s.chans relayToRear = [] from hv.relayToRear] at hc
    cases hc
  · rw [show s.chans frontToRelay = [] from hv.frontToRelay] at hc
    cases hc

theorem Inserting.answered_treat (hN : 2 ≤ N) (hnp : N + 1 ≤ np) (hs : Core M hntr τ h s)
    (hv : Answered M hntr τ (h front - ntr) (h rear) s.view) (hc : s.chans c = m :: rest)
    (htime : s.shut c = true → Timely (s.procs c.target) (s.tags c.target) m)
    (hstep : stateMachine (M.config c.target) (s.dial M) m.1 (s.procs c.target) =
      some (q, actions)) :
    Inserting M hntr ((s.become c m rest q).actAll M c.target actions) := by
  have hcut : OnLink c ∨ c = direct ∨ c = frontToRear →
      Inserting M hntr ((s.become c m rest q).actAll M c.target actions) := by
    intro hother
    obtain ⟨τ', h', hcore, hcut⟩ := Cut.treat hN hnp hs hv hother hc htime hstep
    exact .answered hcore hcut
  rcases hs.quiet c (by rw [hc]; exact List.cons_ne_nil m rest) with
    hlink | rfl | rfl | rfl | rfl | rfl | rfl
  · exact hcut (.inl hlink)
  · exact hcut (.inr (.inl rfl))
  · rw [show s.chans toRelay = [] from Cut.toRelay hv] at hc
    cases hc
  · rw [show s.chans fromRelay = [] from Cut.fromRelay hv] at hc
    cases hc
  · exact hcut (.inr (.inr rfl))
  · rw [show s.chans relayToRear = [] from Cut.relayToRear hv] at hc
    cases hc
  · have hread : s.view.frontToRelay = m :: rest := hc
    have hm : m = (.ackInsert (M.addr rear), .none) := by
      have hone := Cut.frontToRelay hv
      rw [hread, List.cons.injEq] at hone
      exact hone.1
    have hopen : s.shut relayToRear = false :=
      hv.toClosed.stays_open (by simp [relayToRear, direct])
        (by simp [relayToRear, frontToRear, (front_ne_relay hN).symm])
    obtain ⟨hstate, hsucc, hlts, hcore, hview⟩ :=
      hs.relay_confirms hN hv.state hopen (by rw [hm]) hstep
    have hconfirming := hv.confirms hread hstate hsucc hlts
    rw [← hview] at hconfirming
    exact .confirming hcore hconfirming

theorem Inserting.confirming_treat (hN : 2 ≤ N) (hnp : N + 1 ≤ np) (hs : Core M hntr τ h s)
    (hv : Confirming M hntr τ (h front - ntr) (h rear) s.view) (hc : s.chans c = m :: rest)
    (htime : s.shut c = true → Timely (s.procs c.target) (s.tags c.target) m)
    (hstep : stateMachine (M.config c.target) (s.dial M) m.1 (s.procs c.target) =
      some (q, actions)) :
    Inserting M hntr ((s.become c m rest q).actAll M c.target actions) := by
  have hrr := rear_ne_relay hN
  have hcut : OnLink c ∨ c = direct ∨ c = frontToRear →
      Inserting M hntr ((s.become c m rest q).actAll M c.target actions) := by
    intro hother
    obtain ⟨τ', h', hcore, hcut⟩ := Cut.treat hN hnp hs hv hother hc htime hstep
    exact .confirming hcore hcut
  rcases hs.quiet c (by rw [hc]; exact List.cons_ne_nil m rest) with
    hlink | rfl | rfl | rfl | rfl | rfl | rfl
  · exact hcut (.inl hlink)
  · exact hcut (.inr (.inl rfl))
  · rw [show s.chans toRelay = [] from Cut.toRelay hv] at hc
    cases hc
  · rw [show s.chans fromRelay = [] from Cut.fromRelay hv] at hc
    cases hc
  · exact hcut (.inr (.inr rfl))
  · have hread : s.view.relayToRear = m :: rest := hc
    have hm : m = (.newSucc (M.addr relay), .none) := by
      have hone := Cut.relayToRear hv
      rw [hread, List.cons.injEq] at hone
      exact hone.1
    have hopen : s.shut toRelay = false :=
      hv.toClosed.stays_open (by simp [toRelay, direct, (front_ne_relay hN).symm])
        (by simp [toRelay, frontToRear])
    obtain ⟨hcore, hview⟩ := hs.rear_resends hN hv.rearSucc hv.shut_direct hopen
      (by rw [hm]) hstep
    have hfull := hs.full rear hrr
    have hle := hs.le rear hrr
    have haround := hs.around
    have hrelaying := hv.resends hread ((hs.window rear hrr).resent hfull (hs.lis rear hrr))
      (resent_length _ _) hfull (by omega) (by omega)
    rw [← hview] at hrelaying
    exact .relaying hcore hrelaying
  · rw [show s.chans frontToRelay = [] from Cut.frontToRelay hv] at hc
    cases hc

/-! ## The other events -/

theorem Inserting.broadcast (hs : Inserting M hntr s)
    (hstep : step M hntr s (.broadcast i mp) = some s') : Inserting M hntr s' := by
  obtain ⟨halive, q, hq, rfl⟩ := step_broadcast hstep
  have hstate : ∀ {τ h}, Core M hntr τ h s →
      (s.alive relay = true → (s.procs relay).automatonState ≠ .aloneInsertWait) →
      (s.procs i).automatonState ≠ .aloneInsertWait := by
    intro τ h hcore hrelay
    by_cases hi : i = relay
    · subst hi
      exact hrelay halive
    · rw [hcore.state i hi]
      exact State.noConfusion
  cases hs with
  | absent hcore hv =>
    have hdead : s.alive relay = false := hv.alive
    obtain ⟨hcore', w, hview⟩ := hcore.broadcast
      (hstate hcore fun h => absurd (h.symm.trans hdead) Bool.noConfusion) hq
    refine .absent hcore' ?_
    rw [hview]
    exact { hv with }
  | asking hcore hv =>
    have hwait : (s.procs relay).automatonState = .offlineConnectionAttempt := hv.state
    obtain ⟨hcore', w, hview⟩ := hcore.broadcast
      (hstate hcore fun _ => by rw [hwait]; exact State.noConfusion) hq
    refine .asking hcore' ?_
    rw [hview]
    exact { hv with }
  | answered hcore hv =>
    have hwait : (s.procs relay).automatonState = .offlineConnectionAttempt := hv.state
    obtain ⟨hcore', w, hview⟩ := hcore.broadcast
      (hstate hcore fun _ => by rw [hwait]; exact State.noConfusion) hq
    refine .answered hcore' ?_
    rw [hview]
    exact { hv with }
  | confirming hcore hv =>
    have hwait : (s.procs relay).automatonState = .offlineConfirmationWait := hv.state
    obtain ⟨hcore', w, hview⟩ := hcore.broadcast
      (hstate hcore fun _ => by rw [hwait]; exact State.noConfusion) hq
    refine .confirming hcore' ?_
    rw [hview]
    exact { hv with }
  | relaying hcore hv =>
    have hne : (s.procs relay).automatonState ≠ .aloneInsertWait := by
      rcases hv.relays with ⟨hwait, -⟩ | ⟨hseveral, -⟩
      · rw [show (s.procs relay).automatonState = _ from hwait]
        exact State.noConfusion
      · rw [show (s.procs relay).automatonState = _ from hseveral]
        exact State.noConfusion
    obtain ⟨hcore', w, hview⟩ := hcore.broadcast (hstate hcore fun _ => hne) hq
    have hstage := hv.broadcast (w := w)
    rw [← hview] at hstage
    exact .relaying hcore' hstage

/-- A message of the closed connection is lost. -/
theorem Closed.view_lose (hN : 2 ≤ N) {u last : ℕ} (hv : Closed hntr τ u s.view last)
    (hshut : s.shut c = true) : OnPath c ∧ ∃ l l',
      ({ s with chans := Function.update s.chans c (s.chans c).dropLast } : Circle N ntr).view =
        { s.view with direct := l, frontToRear := l' } ∧
      Closed hntr τ u { s.view with direct := l, frontToRear := l' } last := by
  have hf := front_ne_relay hN
  have hrf := rear_ne_front hN
  have hrr := rear_ne_relay hN
  rcases hv.shut c hshut with rfl | rfl
  · refine ⟨.inl rfl, (s.chans Continuity.direct).dropLast, s.chans Continuity.frontToRear, ?_,
      hv.lose.1⟩
    simp [Circle.view, Continuity.direct, toRelay, fromRelay, Continuity.frontToRear, relayToRear,
      frontToRelay, hrr.symm, hf.symm, hrf]
  · refine ⟨.inr (.inr (.inr (.inl rfl))), s.chans Continuity.direct,
      (s.chans Continuity.frontToRear).dropLast, ?_, hv.lose.2⟩
    simp [Circle.view, Continuity.direct, toRelay, fromRelay, Continuity.frontToRear, relayToRear,
      frontToRelay, hrr.symm, hf.symm, hrf]

theorem Inserting.lose (hN : 2 ≤ N) (hs : Inserting M hntr s)
    (hstep : step M hntr s (.lose c) = some s') : Inserting M hntr s' := by
  obtain ⟨hshut, rfl⟩ := step_lose hstep
  cases hs with
  | absent hcore hv => exact absurd ((hv.shut c).symm.trans hshut) Bool.noConfusion
  | asking hcore hv => exact absurd ((hv.shut c).symm.trans hshut) Bool.noConfusion
  | answered hcore hv =>
    obtain ⟨hpath, l, l', hview, hclosed⟩ := hv.toClosed.view_lose hN hshut
    refine .answered (hcore.path hpath _) ?_
    rw [hview]
    exact { hclosed, hv with }
  | confirming hcore hv =>
    obtain ⟨hpath, l, l', hview, hclosed⟩ := hv.toClosed.view_lose hN hshut
    refine .confirming (hcore.path hpath _) ?_
    rw [hview]
    exact { hclosed, hv with }
  | relaying hcore hv =>
    obtain ⟨hpath, l, l', hview, hclosed⟩ := hv.toClosed.view_lose hN hshut
    have hstage := hv.loses_closed hclosed
    rw [← hview] at hstage
    exact .relaying (hcore.path hpath _) hstage

theorem Inserting.join (hN : 2 ≤ N) (hM : Placed M rank) (hs : Inserting M hntr s)
    (hstep : step M hntr s .join = some s') : Inserting M hntr s' := by
  obtain ⟨hdead, q, actions, hq, rfl⟩ := step_join hstep
  cases hs with
  | absent hcore hv =>
    have hrank : addrToRank (M.addr relay) = some (rank relay).val := by
      rw [hM.addr relay]
      exact addrToRank_rankToAddr (rank relay)
    have hsucc := hM.searchSucc_relay hN (s := s) (hcore.alive front (front_ne_relay hN))
    obtain ⟨hstate, hsucc', hcircuit, hcore', hview⟩ :=
      hcore.joins hN hrank hsucc (hv.shut _) hq
    have hasks := hv.asks hstate hsucc' hcircuit
    rw [← hview] at hasks
    exact .asking hcore' hasks
  | asking hcore hv => exact absurd (hdead.symm.trans hv.alive) Bool.noConfusion
  | answered hcore hv => exact absurd (hdead.symm.trans hv.alive) Bool.noConfusion
  | confirming hcore hv => exact absurd (hdead.symm.trans hv.alive) Bool.noConfusion
  | relaying hcore hv => exact absurd (hdead.symm.trans hv.alive) Bool.noConfusion

/-- Every step but the crash of the relay. -/
theorem Inserting.step (hN : 2 ≤ N) (hnp : N + 1 ≤ np) (hM : Placed M rank)
    (hs : Inserting M hntr s) (he : e.crashes = false) (htime : InTime s e)
    (hstep : step M hntr s e = some s') : Inserting M hntr s' := by
  cases e with
  | broadcast i mp => exact hs.broadcast hstep
  | treat c =>
    obtain ⟨-, m, rest, q, actions, hc, hq, rfl⟩ := step_treat hstep
    have htime' : s.shut c = true → Timely (s.procs c.target) (s.tags c.target) m := by
      simp only [InTime, hc] at htime
      exact htime
    cases hs with
    | absent hcore hv => exact Inserting.absent_treat hN hnp hcore hv hc hq
    | asking hcore hv => exact Inserting.asking_treat hN hnp hcore hv hc hq
    | answered hcore hv => exact Inserting.answered_treat hN hnp hcore hv hc htime' hq
    | confirming hcore hv => exact Inserting.confirming_treat hN hnp hcore hv hc htime' hq
    | relaying hcore hv =>
      obtain ⟨τ', h', r', u', hcore', hv'⟩ := hv.treat hN hnp hcore hc htime' hq
      exact .relaying hcore' hv'
  | lose c => exact hs.lose hN hstep
  | crash kept => cases he
  | join => exact hs.join hN hM hstep

end Run

end UniformBroadcast.Trains.Continuity
