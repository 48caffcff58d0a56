import UniformBroadcast.TrainContinuityCrash

/-!
# Runs with a crash

Every step of a ring whose relay may crash, and does not come back, keeps one of the four
stages of the crash.
-/

namespace UniformBroadcast.Trains.Continuity

variable {N ntr : ℕ}

/-- A run in which the relay may crash and does not come back. -/
inductive Crashing (M : Members (N + 1)) (hntr : 0 < ntr) (s : Circle N ntr) : Prop where
  | inRing {τ : ℕ → ℕ} {h : Fin (N + 1) → ℕ} {y : ℕ} (core : Core M hntr τ h s)
      (settled : Settled M s) (stage : InRing M hntr τ (h front - ntr) (h rear) s.view y)
  | lost {τ : ℕ → ℕ} {h : Fin (N + 1) → ℕ} (core : Core M hntr τ h s) (settled : Settled M s)
      (stage : Lost M hntr τ (h front - ntr) (h rear) s.view)
  | told {τ : ℕ → ℕ} {h : Fin (N + 1) → ℕ} (core : Core M hntr τ h s) (stage : Told M s.view)
  | resent {τ : ℕ → ℕ} {h : Fin (N + 1) → ℕ} (core : Core M hntr τ h s)
      (stage : Resent M hntr τ (h front - ntr) (h rear) s.view)

section Run

variable {M : Members (N + 1)} {hntr : 0 < ntr} {τ : ℕ → ℕ} {h : Fin (N + 1) → ℕ}
  {s s' : Circle N ntr} {c : Chan N} {i : Fin (N + 1)} {mp : Message} {kept y : ℕ}
  {m : Msg ntr × Tag} {rest : List (Msg ntr × Tag)} {q : Proc ntr} {actions : List (Action ntr)}
  {sender : Address} {w : Wagon}

/-! ## What stays settled -/

theorem Settled.broadcast (hs : Settled M s) :
    Settled M { s with
      procs := Function.update s.procs i { s.procs i with wagonToSend := w } } := by
  apply hs.update
  · rfl
  · rfl
  · intro hi
    obtain ⟨hcame, hgone, hlts⟩ := hs.procs i hi
    exact ⟨hcame, hgone, hlts⟩
  · exact fun c m hm => .inl hm

/-- `rear` learns that it has lost its successor. -/
theorem Settled.rear_loses (hs : Settled M s)
    (hstate : (s.procs c.target).automatonState = .several)
    (hc : s.chans c = m :: rest) (hm : m.1 = .disconnectSucc sender)
    (hstep : stateMachine (M.config c.target) (s.dial M) m.1 (s.procs c.target) =
      some (q, actions)) :
    Settled M ((s.become c m rest q).actAll M c.target actions) := by
  rw [hm, several_disconnectSucc hstate] at hstep
  cases hstep
  apply hs.update
  · rfl
  · rfl
  · intro hi
    obtain ⟨hcame, hgone, hlts⟩ := hs.procs c.target hi
    exact ⟨hcame, hgone, hlts⟩
  · exact fun c' m' hm' => .inl (mem_become hc hm')

theorem Settled.crash (hs : Settled M s) : Settled M (s.crash M kept) where
  procs j hj := by
    by_cases hjr : j = relay
    · subst hjr
      simp [Circle.crash] at hj
    · apply hs.procs j
      simpa [Circle.crash, hjr] using hj
  chans c m hm := by
    have hcases : m ∈ s.chans c ∨ m = notice M relay c.isPred := by
      by_cases hlost : c.source = relay ∧
          M.addr c.target = if c.isPred then (s.procs relay).prec else (s.procs relay).succ
      · simp only [Circle.crash] at hm
        rw [if_pos hlost, List.mem_append, List.mem_singleton] at hm
        exact hm.imp_left List.mem_of_mem_take
      · simp only [Circle.crash] at hm
        rw [if_neg hlost] at hm
        exact .inl hm
    rcases hcases with hold | rfl
    · exact hs.chans c m hold
    · rw [notice]
      split <;> trivial

/-! ## The crash -/

theorem Core.crash (hN : 2 ≤ N) (hs : Core M hntr τ h s) (kept : ℕ)
    (hsucc : s.view.relay.succ = M.addr front) (hprec : s.view.relay.prec = M.addr rear) :
    Core M hntr τ h (s.crash M kept) ∧ (s.crash M kept).view = { s.view with
      relayAlive := false
      fromRelay := s.view.fromRelay.take kept ++ [notice M relay false]
      relayToRear := s.view.relayToRear.take kept ++ [notice M relay true] } := by
  have hf := front_ne_relay hN
  have hrr := rear_ne_relay hN
  have hsource : ∀ c : Chan N, c.source ≠ relay → (s.crash M kept).chans c = s.chans c := by
    intro c hc
    simp only [Circle.crash]
    exact if_neg fun h => hc h.1
  change (s.procs relay).succ = _ at hsucc
  change (s.procs relay).prec = _ at hprec
  constructor
  · apply hs.congr
    · intro i hi
      exact Function.update_of_ne hi _ _
    · exact fun i _ => ⟨rfl, rfl, rfl⟩
    · exact fun i j _ => rfl
    · exact fun i _ => rfl
    · intro c hlink
      exact hsource c hlink.2.ne_relay.1
    · rfl
    · intro c hfull
      by_cases hc : c.source = relay
      · by_cases ht : M.addr c.target =
            if c.isPred then (s.procs relay).prec else (s.procs relay).succ
        · right
          obtain ⟨source, target, isPred⟩ := c
          dsimp only at hc ht
          subst hc
          cases isPred with
          | false =>
            rw [if_neg Bool.false_ne_true, hsucc] at ht
            rw [M.injective ht]
            exact .inr (.inr (.inl rfl))
          | true =>
            rw [if_pos rfl, hprec] at ht
            rw [M.injective ht]
            exact .inr (.inr (.inr (.inr (.inl rfl))))
        · apply hs.quiet c
          simp only [Circle.crash] at hfull
          rw [if_neg fun h => ht h.2] at hfull
          exact hfull
      · rw [hsource c hc] at hfull
        exact hs.quiet c hfull
  · have hlost : (s.crash M kept).chans fromRelay =
        (s.chans fromRelay).take kept ++ [notice M relay false] := by
      simp [Circle.crash, fromRelay, hsucc]
    have hlost' : (s.crash M kept).chans relayToRear =
        (s.chans relayToRear).take kept ++ [notice M relay true] := by
      simp [Circle.crash, relayToRear, hprec]
    simp only [Circle.view, hlost, hlost']
    rw [hsource direct hrr, hsource toRelay hrr, hsource frontToRear hf, hsource frontToRelay hf]
    simp [Circle.crash]

/-- `front` treats the loss of the relay: it finds `rear` in the circuit and tells it. -/
theorem Core.front_tells (hN : 2 ≤ N) (hs : Core M hntr τ h s)
    (hplace : addrPrec (M.addr relay) M.circuit = some (M.addr rear))
    (hcircuit : ∀ id, ((s.procs front).lts id).circuit = M.circuit)
    (hdead : s.view.relayAlive = false) (hprec : s.view.frontPrec = M.addr relay)
    (hopen : s.shut frontToRear = false) (hm : m.1 = .disconnectPred sender)
    (hstep : stateMachine (M.config front) (s.dial M) m.1 (s.procs front) = some (q, actions)) :
    Core M hntr τ h ((s.become fromRelay m rest q).actAll M front actions) ∧
      ((s.become fromRelay m rest q).actAll M front actions).view = { s.view with
        frontPrec := q.prec
        fromRelay := rest
        frontToRear := s.view.frontToRear ++ [(.newSucc (M.addr front), .none)] } := by
  have hf := front_ne_relay hN
  have hrf := rear_ne_front hN
  have hrr := rear_ne_relay hN
  change (s.procs front).prec = _ at hprec
  have htaken : taken (s.procs front) m.1 = none := by
    apply taken_other
    intro st circuit wagons hmsg
    rw [hm] at hmsg
    cases hmsg
  rw [hm] at hstep
  obtain ⟨hstate, hsucc, hlts, hlis, rfl⟩ := several_disconnectPred (hs.state front hf)
    (by rw [hprec]; exact fun heq => hf (M.injective heq).symm)
    (by rw [hprec, dial_addr]; exact hdead) (by rw [hprec, hcircuit]; exact hplace)
    (fun heq => hrf (M.injective heq)) (by rw [dial_addr]; exact hs.alive rear hrr) hstep
  have hpath : OnPath (fromRelay : Chan N) := .inr (.inr (.inl rfl))
  have hpath' : OnPath (frontToRear : Chan N) := .inr (.inr (.inr (.inl rfl)))
  have hne : (frontToRear : Chan N) ≠ fromRelay := by simp [frontToRear, fromRelay]
  have heq : (s.become fromRelay m rest q).actAll M front
      [.openConnection (s.procs front).prec true false, .openConnection (M.addr rear) true true,
        .sendOther (M.addr rear) true (.newSucc (M.config front).myAddress)] =
      { s with
        procs := Function.update s.procs front q
        chans := Function.update (Function.update s.chans fromRelay rest) frontToRear
          (s.chans frontToRear ++ [(.newSucc (M.addr front), .none)]) } := by
    rw [become_eq (c := fromRelay) htaken]
    simp only [actAll_cons, Circle.act, write_addr]
    rw [post_open _ (by exact hopen)]
    change ({ s with
      procs := Function.update s.procs front q
      chans := Function.update (Function.update s.chans fromRelay rest) frontToRear
        (Function.update s.chans fromRelay rest frontToRear ++
          [(.newSucc (M.addr front), .none)]) } : Circle N ntr) = _
    rw [Function.update_of_ne hne]
  rw [heq]
  constructor
  · apply hs.changes rfl
    · exact fun _ => ⟨hstate.trans (hs.state front hf).symm, hlis, hlts⟩
    · exact fun _ _ => hsucc
    · exact fun i _ => rfl
    · exact fun i _ => rfl
    · intro c hlink
      exact (link_update _ hpath' c hlink).trans (link_update _ hpath c hlink)
    · rfl
    · exact quiet_update (quiet_update hs.quiet hpath) hpath'
  · simp [Circle.view, direct, toRelay, fromRelay, frontToRear, relayToRear, frontToRelay, hrr,
      hrr.symm, hf, hf.symm, hrf, hrf.symm]

end Run

/-! ## The treatment of a message -/

section Treat

variable {M : Members (N + 1)} {hntr : 0 < ntr} {τ : ℕ → ℕ} {h : Fin (N + 1) → ℕ}
  {s s' : Circle N ntr} {c : Chan N} {y : ℕ} {m : Msg ntr × Tag} {rest : List (Msg ntr × Tag)}
  {q : Proc ntr} {actions : List (Action ntr)} {t : ℕ}

theorem Crashing.inRing_treat (hN : 2 ≤ N) (hnp : N + 1 ≤ np) (hs : Core M hntr τ h s)
    (hset : Settled M s) (hv : InRing M hntr τ (h front - ntr) (h rear) s.view y)
    (halive : s.alive c.target = true) (hc : s.chans c = m :: rest)
    (hstep : stateMachine (M.config c.target) (s.dial M) m.1 (s.procs c.target) =
      some (q, actions)) :
    Crashing M hntr ((s.become c m rest q).actAll M c.target actions) := by
  have hf := front_ne_relay hN
  have hle := hv.le
  rcases hs.quiet c (by rw [hc]; exact List.cons_ne_nil m rest) with
    hlink | rfl | rfl | rfl | rfl | rfl | rfl
  · obtain ⟨st, circuit, wagons, hmsg⟩ := hs.link_train hN hnp hlink hc
    have hset' := hset.train (hs.state _ hlink.2.ne_relay.2) halive hc hmsg hstep
    obtain ⟨h', hfront, hcore, hstage⟩ := hs.link_stage hN hnp (fun c _ => hv.shut c) hlink
      (.inr ⟨relay, .inr rfl, hv.rearSucc⟩) hc hstep
      (fun x v => InRing M hntr τ (h front - ntr) x v y) hv
      (by
        rintro (hzero | ⟨k, -, hshut⟩)
        · exact absurd (hv.rearSucc.symm.trans hzero) (addr_ne_zero M relay)
        · exact absurd ((hv.shut _).symm.trans hshut) Bool.false_ne_true)
      (by
        intro k sent hk _ hsent
        obtain rfl := M.injective (hv.rearSucc.symm.trans hk)
        exact hv.sends hsent)
    rw [← hfront] at hstage
    exact .inRing hcore hset' hstage
  · rw [show s.chans direct = [] from hv.direct] at hc
    cases hc
  · have hread : s.view.toRelay = m :: rest := hc
    have hstream := hv.toRelay
    have hlength := hv.toRelay_length
    rw [hread] at hstream hlength
    rw [List.length_cons] at hlength
    obtain ⟨st, circuit, wagons, hmsg, -⟩ := id hstream.1
    have hlt := hs.le rear (rear_ne_relay hN)
    have hrecent := hs.relay_recent hN hnp
      (fun id => (hv.window id).mono (Nat.sub_le N 1) (Nat.le_refl N)) hv.full hv.lis hstream.1
      (by omega) hmsg
    have hset' := hset.train (c := toRelay) hv.state halive hc hmsg hstep
    rw [hmsg] at hstep
    rcases several_train_cases hv.state hstep with ⟨-, ht, rfl⟩ | ⟨hnot, -⟩
    · obtain ⟨hcore, hview⟩ := hs.treat_relay hN rest
        (taken_recent hmsg hv.state hrecent) (ht.succ.trans hv.succ) ht.id (hv.shut _)
      refine .inRing (y := y + 1) hcore hset' ?_
      have hpasses := hv.passes hN hread hmsg ht
      rw [← hview] at hpasses
      exact hpasses
    · rw [hrecent] at hnot
      cases hnot
  · have hread : s.view.fromRelay = m :: rest := hc
    have hstream := hv.fromRelay
    have hlength := hv.fromRelay_length
    rw [hread] at hstream hlength
    rw [List.length_cons] at hlength
    obtain ⟨st, circuit, wagons, hmsg, -⟩ := id hstream.1
    have hset' := hset.train (hs.state _ hf) halive hc hmsg hstep
    obtain ⟨hcore, hview⟩ := hs.treat_front_takes hN hnp (fun c _ => hv.shut c) (.inr rfl) hc
      (hstream.1.mono (Nat.sub_le N 1) (Nat.le_refl N)) (by omega) hstep
    obtain ⟨hfront, hrear, hτ⟩ := hs.after_take hN (t := m.2.clock + 1)
    refine .inRing (y := y) hcore hset' ?_
    have hreads := hv.reads hread hτ
    rw [← hview, ← hfront, ← hrear] at hreads
    exact hreads
  · rw [show s.chans frontToRear = [] from hv.frontToRear] at hc
    cases hc
  · rw [show s.chans relayToRear = [] from hv.relayToRear] at hc
    cases hc
  · rw [show s.chans frontToRelay = [] from hv.frontToRelay] at hc
    cases hc

theorem RearWaits.succ {v : View N ntr} (hv : RearWaits M v) :
    v.rearSucc = 0#16 ∨ ∃ k, (k = front ∨ k = relay) ∧ v.rearSucc = M.addr k := by
  rcases hv with hrelay | hzero
  · exact .inr ⟨relay, .inr rfl, hrelay⟩
  · exact .inl hzero

/-- A `rear` that waits sends its trains to the relay, if at all. -/
theorem RearWaits.relay {v : View N ntr} (hv : RearWaits M v) {k : Fin (N + 1)}
    (hk : v.rearSucc = M.addr k) : k = Continuity.relay := by
  rcases hv with hrelay | hzero
  · exact M.injective (hk.symm.trans hrelay)
  · exact absurd (hk.symm.trans hzero) (addr_ne_zero M k)

theorem Crashing.lost_treat (hN : 2 ≤ N) (hnp : N + 1 ≤ np)
    (hplace : addrPrec (M.addr relay) M.circuit = some (M.addr rear)) (hs : Core M hntr τ h s)
    (hset : Settled M s) (hv : Lost M hntr τ (h front - ntr) (h rear) s.view)
    (halive : s.alive c.target = true) (hc : s.chans c = m :: rest)
    (hstep : stateMachine (M.config c.target) (s.dial M) m.1 (s.procs c.target) =
      some (q, actions)) :
    Crashing M hntr ((s.become c m rest q).actAll M c.target actions) := by
  have hf := front_ne_relay hN
  have hrr := rear_ne_relay hN
  rcases hs.quiet c (by rw [hc]; exact List.cons_ne_nil m rest) with
    hlink | rfl | rfl | rfl | rfl | rfl | rfl
  · obtain ⟨st, circuit, wagons, hmsg⟩ := hs.link_train hN hnp hlink hc
    have hset' := hset.train (hs.state _ hlink.2.ne_relay.2) halive hc hmsg hstep
    obtain ⟨h', hfront, hcore, hstage⟩ := hs.link_stage hN hnp (fun c _ => hv.shut c) hlink
      hv.rearSucc.succ hc hstep (fun x v => Lost M hntr τ (h front - ntr) x v) hv
      (fun _ => hv.silent)
      (by
        intro k sent hk _ _
        rw [hv.rearSucc.relay hk]
        exact hv.sends)
    rw [← hfront] at hstage
    exact .lost hcore hset' hstage
  · rw [show s.chans direct = [] from hv.direct] at hc
    cases hc
  · exact absurd (halive.symm.trans hv.alive) Bool.noConfusion
  · have hread : s.view.fromRelay = m :: rest := hc
    by_cases hmsg : ∀ st circuit wagons, m.1 ≠ .train st circuit wagons
    · obtain ⟨hm, rfl⟩ := hv.last hread hmsg
      obtain ⟨hcore, hview⟩ := hs.front_tells hN hplace
        (hset.procs front (hs.alive front hf)).lts hv.alive hv.frontPrec (hv.shut _) hm hstep
      refine .told hcore ?_
      have htells := hv.tells q.prec
      rw [← hview] at htells
      exact htells
    · simp only [not_forall, not_not] at hmsg
      obtain ⟨st, circuit, wagons, hmsg⟩ := hmsg
      obtain ⟨hfront, hrear, hτ⟩ := hs.after_take hN (t := m.2.clock + 1)
      obtain ⟨hvisit, hlt, hstage⟩ := hv.reads hread hmsg hτ
      have hset' := hset.train (hs.state _ hf) halive hc hmsg hstep
      obtain ⟨hcore, hview⟩ := hs.treat_front_takes hN hnp (fun c _ => hv.shut c) (.inr rfl) hc
        hvisit hlt hstep
      refine .lost hcore hset' ?_
      rw [← hview, ← hfront, ← hrear] at hstage
      exact hstage
  · rw [show s.chans frontToRear = [] from hv.frontToRear] at hc
    cases hc
  · have hread : s.view.relayToRear = m :: rest := hc
    obtain ⟨⟨sender, hm⟩, -⟩ := hv.relayToRear.tail hread
    have hset' := hset.rear_loses (c := relayToRear) (hs.state rear hrr) hc hm hstep
    obtain ⟨hcore, hview⟩ := hs.rear_loses hN (.inr rfl) hm hstep
    refine .lost hcore hset' ?_
    have hstage := hv.loses hread
    rw [← hview] at hstage
    exact hstage
  · rw [show s.chans frontToRelay = [] from hv.frontToRelay] at hc
    cases hc

theorem Crashing.told_treat (hN : 2 ≤ N) (hnp : N + 1 ≤ np) (hs : Core M hntr τ h s)
    (hv : Told M s.view) (halive : s.alive c.target = true) (hc : s.chans c = m :: rest)
    (hstep : stateMachine (M.config c.target) (s.dial M) m.1 (s.procs c.target) =
      some (q, actions)) :
    Crashing M hntr ((s.become c m rest q).actAll M c.target actions) := by
  have hrr := rear_ne_relay hN
  rcases hs.quiet c (by rw [hc]; exact List.cons_ne_nil m rest) with
    hlink | rfl | rfl | rfl | rfl | rfl | rfl
  · obtain ⟨h', -, hcore, hstage⟩ := hs.link_stage hN hnp (fun c _ => hv.shut c) hlink
      hv.rearSucc.succ hc hstep (fun _ v => Told M v) hv (fun _ => hv)
      (by
        intro k sent hk _ _
        rw [hv.rearSucc.relay hk]
        exact hv.sends)
    exact .told hcore hstage
  · rw [show s.chans direct = [] from hv.direct] at hc
    cases hc
  · exact absurd (halive.symm.trans hv.alive) Bool.noConfusion
  · rw [show s.chans fromRelay = [] from hv.fromRelay] at hc
    cases hc
  · have hread : s.view.frontToRear = m :: rest := hc
    have hm : m = (.newSucc (M.addr front), .none) := by
      have hone := hv.frontToRear
      rw [hread, List.cons.injEq] at hone
      exact hone.1
    obtain ⟨hcore, l, shut, hview, hshut⟩ := hs.rear_turns hN hv.rearSucc hv.shut
      (by rw [hm]) hstep
    have hfull := hs.full rear hrr
    have hle := hs.le rear hrr
    have haround := hs.around
    have hstage := hv.turns (τ := τ) (e := h front - ntr) (x := h rear) l hread
      ((hs.window rear hrr).resent hfull (hs.lis rear hrr)) (resent_length _ _) hfull (by omega)
      (by omega) hshut
    refine .resent hcore ?_
    rw [← hview] at hstage
    exact hstage
  · have hread : s.view.relayToRear = m :: rest := hc
    obtain ⟨⟨sender, hm⟩, -⟩ := hv.relayToRear.tail hread
    obtain ⟨hcore, hview⟩ := hs.rear_loses hN (.inr rfl) hm hstep
    refine .told hcore ?_
    have hstage := hv.loses hread
    rw [← hview] at hstage
    exact hstage
  · rw [show s.chans frontToRelay = [] from hv.frontToRelay] at hc
    cases hc

theorem Crashing.resent_treat (hN : 2 ≤ N) (hnp : N + 1 ≤ np) (hs : Core M hntr τ h s)
    (hv : Resent M hntr τ (h front - ntr) (h rear) s.view) (halive : s.alive c.target = true)
    (hc : s.chans c = m :: rest)
    (hstep : stateMachine (M.config c.target) (s.dial M) m.1 (s.procs c.target) =
      some (q, actions)) :
    Crashing M hntr ((s.become c m rest q).actAll M c.target actions) := by
  have hf := front_ne_relay hN
  have hrr := rear_ne_relay hN
  -- the links and the channel from `rear` to `front` stay open
  have hopen : ∀ c, c.source ≠ relay → c.target ≠ relay → s.shut c = false := by
    intro c hsource htarget
    rw [Bool.eq_false_iff]
    intro hshut
    rcases hv.shut c hshut with rfl | rfl
    · exact htarget rfl
    · exact hsource rfl
  have hlinks : ∀ c, OnLink c → s.shut c = false :=
    fun c hlink => hopen c hlink.2.ne_relay.1 hlink.2.ne_relay.2
  rcases hs.quiet c (by rw [hc]; exact List.cons_ne_nil m rest) with
    hlink | rfl | rfl | rfl | rfl | rfl | rfl
  · have hsucc : s.view.rearSucc = M.addr front ∨ s.view.rearSucc = 0#16 := by
      obtain ⟨r, -, -, -, ⟨hsucc, -⟩ | ⟨hzero, -⟩⟩ := hv.direct
      · exact .inl hsucc
      · exact .inr hzero
    obtain ⟨h', hfront, hcore, hstage⟩ := hs.link_stage hN hnp hlinks hlink
      (hsucc.symm.imp_right fun hsucc => ⟨front, .inl rfl, hsucc⟩) hc hstep
      (fun x v => Resent M hntr τ (h front - ntr) x v) hv
      (by
        rintro (hzero | ⟨k, hk, hshut⟩)
        · exact hv.silent hzero
        · rcases hsucc with hsucc | hzero
          · obtain rfl := M.injective (hsucc.symm.trans hk)
            rw [hopen _ hrr hf] at hshut
            cases hshut
          · exact hv.silent hzero)
      (by
        intro k sent hk _ hsent
        rcases hsucc with hsucc | hzero
        · obtain rfl := M.injective (hsucc.symm.trans hk)
          exact hv.sends hN hsent hsucc
        · exact absurd (hk.symm.trans hzero) (addr_ne_zero M k))
    rw [← hfront] at hstage
    exact .resent hcore hstage
  · have hread : s.view.direct = m :: rest := hc
    obtain ⟨r, hvisit, hlap, hlt, hstage⟩ := hv.reads hN hread
    obtain ⟨st, circuit, wagons, hmsg, -⟩ := id hvisit
    rcases hstage with ⟨hr, hstage⟩ | ⟨rfl, hstage⟩
    · obtain ⟨hcore, hview⟩ := hs.treat_front_ignores hN (.inl rfl) hc hmsg
        (hs.front_not_recent hN hvisit hmsg hr (hs.front_close hN hvisit hmsg hr hlap)) hstep
      refine .resent hcore ?_
      rw [← hview] at hstage
      exact hstage
    · obtain ⟨hfront, hrear, hτ⟩ := hs.after_take hN (t := m.2.clock + 1)
      obtain ⟨hcore, hview⟩ := hs.treat_front_takes hN hnp hlinks (.inl rfl) hc hvisit hlt hstep
      refine .resent hcore ?_
      have hreads := hstage _ hτ
      rw [← hview, ← hfront, ← hrear] at hreads
      exact hreads
  · exact absurd (halive.symm.trans hv.alive) Bool.noConfusion
  · rw [show s.chans fromRelay = [] from hv.fromRelay] at hc
    cases hc
  · rw [show s.chans frontToRear = [] from hv.frontToRear] at hc
    cases hc
  · have hread : s.view.relayToRear = m :: rest := hc
    obtain ⟨⟨sender, hm⟩, -⟩ := hv.relayToRear.tail hread
    obtain ⟨hcore, hview⟩ := hs.rear_loses hN (.inr rfl) hm hstep
    refine .resent hcore ?_
    have hstage := hv.loses hread
    rw [← hview] at hstage
    exact hstage
  · rw [show s.chans frontToRelay = [] from hv.frontToRelay] at hc
    cases hc

end Treat

/-! ## The other events -/

section Others

variable {M : Members (N + 1)} {hntr : 0 < ntr} {s s' : Circle N ntr} {c : Chan N}
  {i : Fin (N + 1)} {mp : Message} {kept : ℕ}

theorem Crashing.broadcast (hs : Crashing M hntr s)
    (hstep : step M hntr s (.broadcast i mp) = some s') : Crashing M hntr s' := by
  obtain ⟨halive, q, hq, rfl⟩ := step_broadcast hstep
  have hstate : ∀ {τ h}, Core M hntr τ h s →
      (s.alive relay = true → (s.procs relay).automatonState = .several) →
      (s.procs i).automatonState ≠ .aloneInsertWait := by
    intro τ h hcore hrelay hne
    have hseveral : (s.procs i).automatonState = .several := by
      by_cases hi : i = relay
      · subst hi
        exact hrelay halive
      · exact hcore.state i hi
    rw [hseveral] at hne
    cases hne
  cases hs with
  | @inRing τ h y hcore hset hv =>
    have hne := hstate hcore fun _ => hv.state
    obtain ⟨hcore', w, hview⟩ := hcore.broadcast hne hq
    obtain ⟨w', rfl⟩ := broadcast_wagonToSend hne hq
    refine .inRing (y := y) hcore' hset.broadcast ?_
    rw [hview]
    exact hv.broadcast
  | lost hcore hset hv =>
    have hdead : s.alive relay = false := hv.alive
    have hne := hstate hcore fun h => absurd (h.symm.trans hdead) Bool.noConfusion
    obtain ⟨hcore', w, hview⟩ := hcore.broadcast hne hq
    obtain ⟨w', rfl⟩ := broadcast_wagonToSend hne hq
    refine .lost hcore' hset.broadcast ?_
    rw [hview]
    exact { hv with }
  | told hcore hv =>
    have hdead : s.alive relay = false := hv.alive
    have hne := hstate hcore fun h => absurd (h.symm.trans hdead) Bool.noConfusion
    obtain ⟨hcore', w, hview⟩ := hcore.broadcast hne hq
    refine .told hcore' ?_
    rw [hview]
    exact { hv with }
  | resent hcore hv =>
    have hdead : s.alive relay = false := hv.alive
    have hne := hstate hcore fun h => absurd (h.symm.trans hdead) Bool.noConfusion
    obtain ⟨hcore', w, hview⟩ := hcore.broadcast hne hq
    refine .resent hcore' ?_
    rw [hview]
    exact { hv with }

theorem Crashing.lose (hN : 2 ≤ N) (hs : Crashing M hntr s)
    (hstep : step M hntr s (.lose c) = some s') : Crashing M hntr s' := by
  have hf := front_ne_relay hN
  have hrr := rear_ne_relay hN
  obtain ⟨hshut, rfl⟩ := step_lose hstep
  cases hs with
  | inRing hcore hset hv => exact absurd ((hv.shut c).symm.trans hshut) Bool.noConfusion
  | lost hcore hset hv => exact absurd ((hv.shut c).symm.trans hshut) Bool.noConfusion
  | told hcore hv => exact absurd ((hv.shut c).symm.trans hshut) Bool.noConfusion
  | resent hcore hv =>
    rcases hv.shut c hshut with rfl | rfl
    · refine .resent (hcore.path (.inr (.inl rfl)) _) ?_
      have hview : Circle.view { s with
            chans := Function.update s.chans toRelay (s.chans toRelay).dropLast } =
          { s.view with toRelay := s.view.toRelay.dropLast } := by
        simp [Circle.view, direct, toRelay, fromRelay, frontToRear, relayToRear, frontToRelay,
          hrr, hrr.symm, hf]
      rw [hview]
      exact { hv with }
    · refine .resent (hcore.path (.inr (.inr (.inr (.inr (.inl rfl))))) _) ?_
      have hview : Circle.view { s with
            chans := Function.update s.chans relayToRear (s.chans relayToRear).dropLast } =
          { s.view with relayToRear := s.view.relayToRear.dropLast } := by
        simp [Circle.view, direct, toRelay, fromRelay, frontToRear, relayToRear, frontToRelay,
          hrr, hrr.symm, hf]
      rw [hview]
      exact { hv with relayToRear := hv.relayToRear.dropLast }

theorem Crashing.crash (hN : 2 ≤ N) (hs : Crashing M hntr s)
    (hstep : step M hntr s (.crash kept) = some s') : Crashing M hntr s' := by
  obtain ⟨halive, rfl⟩ := step_crash hstep
  cases hs with
  | inRing hcore hset hv =>
    obtain ⟨hcore', hview⟩ := hcore.crash hN kept hv.succ hv.prec
    refine .lost hcore' hset.crash ?_
    rw [hview]
    exact hv.crashes kept
  | lost hcore hset hv => exact absurd (halive.symm.trans hv.alive) Bool.noConfusion
  | told hcore hv => exact absurd (halive.symm.trans hv.alive) Bool.noConfusion
  | resent hcore hv => exact absurd (halive.symm.trans hv.alive) Bool.noConfusion

/-- Every step but the arrival of the relay. -/
theorem Crashing.step (hN : 2 ≤ N) (hnp : N + 1 ≤ np)
    (hplace : addrPrec (M.addr relay) M.circuit = some (M.addr rear)) (hs : Crashing M hntr s)
    {e : Event N} (he : e.joins = false) (hstep : step M hntr s e = some s') :
    Crashing M hntr s' := by
  cases e with
  | broadcast i mp => exact hs.broadcast hstep
  | treat c =>
    obtain ⟨halive, m, rest, q, actions, hc, hq, rfl⟩ := step_treat hstep
    cases hs with
    | inRing hcore hset hv => exact Crashing.inRing_treat hN hnp hcore hset hv halive hc hq
    | lost hcore hset hv => exact Crashing.lost_treat hN hnp hplace hcore hset hv halive hc hq
    | told hcore hv => exact Crashing.told_treat hN hnp hcore hv halive hc hq
    | resent hcore hv => exact Crashing.resent_treat hN hnp hcore hv halive hc hq
  | lose c => exact hs.lose hN hstep
  | crash kept => exact hs.crash hN hstep
  | join => cases he

end Others

end UniformBroadcast.Trains.Continuity
