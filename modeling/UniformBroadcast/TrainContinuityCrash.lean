import UniformBroadcast.TrainContinuityNeighbours

/-!
# The crash of the relay

The relay is in the ring and may crash at any point. `front` treats what it has received
from it, finds `rear` in the circuit and tells it, and `rear` sends its last trains again.
-/

namespace UniformBroadcast.Trains.Continuity

variable {N ntr : ℕ}

/-! ## The circuit -/

/-- A train with this circuit, or another message. -/
def InCircuit (circuit : Address) : Msg ntr → Prop
  | .train _ c _ => c = circuit
  | _ => True

/-- A process that knows of no change of the circuit. -/
structure Calm (circuit : Address) (p : Proc ntr) : Prop where
  cameProc : p.cameProc = 0#16
  goneProc : p.goneProc = 0#16
  lts : ∀ id, (p.lts id).circuit = circuit

/-- No process knows of a change of the circuit, which is that of all the members. -/
structure Settled (M : Members (N + 1)) (s : Circle N ntr) : Prop where
  procs : ∀ i, s.alive i = true → Calm M.circuit (s.procs i)
  chans : ∀ c, ∀ m ∈ s.chans c, InCircuit M.circuit m.1

section Circuit

variable {M : Members (N + 1)} {s s' : Circle N ntr} {c : Chan N} {i : Fin (N + 1)}
  {m : Msg ntr × Tag} {rest : List (Msg ntr × Tag)} {p q : Proc ntr} {circuit : Address}
  {actions : List (Action ntr)} {st : Stamp ntr} {wagons : Option (List Wagon)}

theorem Calm.trainHandling (hp : Calm circuit p) (my : Address) (t : Train ntr)
    (ht : t.circuit = circuit) :
    Calm circuit { trainHandling my t p with lis := t.stamp.id } := by
  have hupdate : updateCircuit t.stamp.id t.circuit p = (circuit,
      (updateCircuit t.stamp.id t.circuit p).2) ∧
      (updateCircuit t.stamp.id t.circuit p).2.cameProc = 0#16 ∧
      (updateCircuit t.stamp.id t.circuit p).2.goneProc = 0#16 ∧
      (updateCircuit t.stamp.id t.circuit p).2.lts = p.lts := by
    rw [updateCircuit]
    split
    · refine ⟨?_, rfl, rfl, rfl⟩
      rw [hp.cameProc, hp.goneProc, addrUpdateCircuit_zero, ht]
    · refine ⟨?_, hp.cameProc, hp.goneProc, rfl⟩
      rw [hp.lts]
  obtain ⟨hcircuit, hcame, hgone, hlts⟩ := hupdate
  constructor
  · exact hcame
  · exact hgone
  · intro id
    simp only [Trains.trainHandling, hlts]
    rw [hcircuit]
    by_cases hid : id = t.stamp.id
    · rw [hid, setAt, Function.update_self]
    · rw [setAt, Function.update_of_ne hid]
      exact hp.lts id

/-- A train handled in `SEVERAL` leaves the process calm. -/
theorem several_train_calm {c : Config} {dial : Address → Bool}
    (hstate : p.automatonState = .several) (hp : Calm circuit p)
    (h : stateMachine c dial (.train st circuit wagons) p = some (q, actions)) :
    Calm circuit q := by
  simp only [stateMachine, hstate, several] at h
  split at h
  · split at h
    · obtain ⟨wagons, -, h⟩ := Option.bind_eq_some_iff.mp h
      cases h
      exact hp.trainHandling c.myAddress ⟨st, circuit, wagons⟩ rfl
    · cases h
      exact hp
  · cases h

theorem mem_post {c' : Chan N} {m' : Msg ntr × Tag} (h : m' ∈ (s.post c m).chans c') :
    m' ∈ s.chans c' ∨ m' = m := by
  rw [Circle.post] at h
  split at h
  · exact .inl h
  · dsimp only at h
    by_cases hc : c' = c
    · subst hc
      rw [Function.update_self, List.mem_append, List.mem_singleton] at h
      exact h
    · rw [Function.update_of_ne hc] at h
      exact .inl h

theorem mem_sendOn {c' : Chan N} {m' : Msg ntr × Tag}
    (h : m' ∈ (s.actAll M i (sendOn q st)).chans c') :
    m' ∈ s.chans c' ∨ m'.1 = trainMsg (q.lts st.id) := by
  rw [sendOn] at h
  split at h
  · rw [actAll_cons, Circle.act, Circle.write] at h
    split at h
    · exact .inl h
    · rcases mem_post h with hold | rfl
      · exact .inl hold
      · exact .inr rfl
  · exact .inl h

/-- What a process takes out of a channel and what it leaves. -/
theorem mem_become {c' : Chan N} {m' : Msg ntr × Tag} (hc : s.chans c = m :: rest)
    (h : m' ∈ (s.become c m rest q).chans c') : m' ∈ s.chans c' := by
  simp only [Circle.become] at h
  by_cases hcc : c' = c
  · subst hcc
    rw [Function.update_self] at h
    rw [hc]
    exact List.mem_cons_of_mem m h
  · rw [Function.update_of_ne hcc] at h
    exact h

/-- A step of one process that stays calm and sends nothing with another circuit. -/
theorem Settled.update (hs : Settled M s) (halive : s'.alive = s.alive)
    (hprocs : s'.procs = Function.update s.procs i q) (hq : s.alive i = true → Calm M.circuit q)
    (hchans : ∀ c, ∀ m ∈ s'.chans c, m ∈ s.chans c ∨ InCircuit M.circuit m.1) : Settled M s' where
  procs j hj := by
    rw [halive] at hj
    rw [hprocs]
    by_cases hji : j = i
    · subst hji
      rw [Function.update_self]
      exact hq hj
    · rw [Function.update_of_ne hji]
      exact hs.procs j hj
  chans c m hm := by
    rcases hchans c m hm with hold | hnew
    · exact hs.chans c m hold
    · exact hnew

/-- A train is treated in `SEVERAL`. -/
theorem Settled.train (hs : Settled M s) (hstate : (s.procs c.target).automatonState = .several)
    (halive : s.alive c.target = true) (hc : s.chans c = m :: rest)
    (hmsg : m.1 = .train st circuit wagons)
    (hstep : stateMachine (M.config c.target) (s.dial M) m.1 (s.procs c.target) =
      some (q, actions)) :
    Settled M ((s.become c m rest q).actAll M c.target actions) := by
  have hcircuit : circuit = M.circuit := by
    have hm := hs.chans c m (by rw [hc]; exact List.mem_cons_self)
    rw [hmsg] at hm
    exact hm
  subst hcircuit
  rw [hmsg] at hstep
  have hq := several_train_calm hstate (hs.procs _ halive) hstep
  have hsame := sameProcs_actAll M (s.become c m rest q) c.target actions
  apply hs.update hsame.alive hsame.procs fun _ => hq
  intro c' m' hm'
  rcases several_train_cases hstate hstep with ⟨-, -, rfl⟩ | ⟨-, -, rfl⟩
  · rcases mem_sendOn hm' with hold | hsent
    · exact .inl (mem_become hc hold)
    · right
      rw [hsent]
      exact hq.lts st.id
  · exact .inl (mem_become hc hm')

end Circuit

/-! ## The stages -/

section Stages

variable {M : Members (N + 1)} {hntr : 0 < ntr} {τ τ' : ℕ → ℕ} {e x y : ℕ} {v : View N ntr}
  {m : Msg ntr × Tag} {l rest : List (Msg ntr × Tag)} {q : Proc ntr} {st : Stamp ntr} {w : Wagon}
  {circuit : Address} {wagons : Option (List Wagon)}

theorem InRing.broadcast (hv : InRing M hntr τ e x v y) :
    InRing M hntr τ e x { v with relay := { v.relay with wagonToSend := w } } y :=
  { hv with }

/-- `rear` sends a train to the relay. -/
theorem InRing.sends (hv : InRing M hntr τ e x v y) (hm : IsVisit hntr τ (N - 1) (N - 1) x m) :
    InRing M hntr τ e (x + 1) (v.rearSends Continuity.relay m) y := by
  have hlength := hv.toRelay_length
  rw [View.rearSends, if_pos rfl]
  refine { hv with toRelay := ?_, toRelay_length := ?_ }
  · apply hv.toRelay.concat
    rw [hlength]
    exact hm
  · dsimp only
    rw [List.length_append, List.length_singleton]
    omega

theorem InRing.le (hv : InRing M hntr τ e x v y) : e ≤ y ∧ y ≤ x := by
  have hto := hv.toRelay_length
  have hfrom := hv.fromRelay_length
  omega

/-- The relay takes a train and sends it to `front`. -/
theorem InRing.passes (hN : 2 ≤ N) (hv : InRing M hntr τ e x v y) (hread : v.toRelay = m :: rest)
    (hmsg : m.1 = .train st circuit wagons) (ht : Took st v.relay q) :
    InRing M hntr τ e x { v with
      relay := q
      relayTags := setAt v.relayTags st.id (sentTrain false m st q).2
      toRelay := rest
      fromRelay := v.fromRelay ++ [sentTrain false m st q] } (y + 1) := by
  have hstream := hv.toRelay
  have hlength := hv.toRelay_length
  have hlength' := hv.fromRelay_length
  rw [hread] at hstream hlength
  rw [List.length_cons] at hlength
  have hid : st.id = trainId hntr y := by
    obtain ⟨st', circuit', wagons', hmsg', hid, -⟩ := hstream.1
    rw [hmsg'] at hmsg
    cases hmsg
    exact hid
  have hsent : IsVisit hntr τ N N y (sentTrain false m st q) := by
    have hsent := hstream.1.sent hmsg ht
    rw [Nat.sub_add_cancel (by omega)] at hsent
    exact hsent
  refine { hv with
    state := ht.state.trans hv.state
    succ := ht.succ.trans hv.succ
    prec := ht.prec.trans hv.prec
    lis := ?_
    full := Nat.le_succ_of_le hv.full
    window := ?_
    toRelay := hstream.2
    toRelay_length := ?_
    fromRelay := ?_
    fromRelay_length := ?_ }
  · dsimp only
    rw [ht.lis, hid, idPlus_trainId]
  · apply hv.window.succ
    · intro id hne
      rw [← hid] at hne
      exact ⟨ht.other id hne, Function.update_of_ne hne _ _⟩
    · dsimp only
      rw [← hid, setAt, Function.update_self]
      exact hsent
  · dsimp only
    omega
  · apply hv.fromRelay.concat
    rw [hlength']
    exact hsent
  · dsimp only
    rw [List.length_append, List.length_singleton]
    omega

/-- `front` takes the train that it waits for. -/
theorem InRing.reads (hv : InRing M hntr τ e x v y) (hread : v.fromRelay = m :: rest)
    (hτ : ∀ k < x, τ' k = τ k) :
    InRing M hntr τ' (e + 1) x (v.frontReads Continuity.relay rest) y := by
  have hle := hv.le
  have hstream := hv.fromRelay
  have hlength := hv.fromRelay_length
  have hlength' := hv.toRelay_length
  rw [hread] at hstream hlength
  rw [List.length_cons] at hlength
  rw [View.frontReads, if_pos rfl]
  refine { hv with
    window := ?_
    toRelay := ?_
    fromRelay := ?_
    fromRelay_length := ?_ }
  · apply hv.window.congr
    intro k hk
    exact hτ k (by omega)
  · apply hv.toRelay.congr
    intro k _ hk
    exact hτ k (by omega)
  · apply hstream.2.congr
    intro k _ hk
    exact hτ k (by omega)
  · dsimp only
    omega

/-- The relay crashes; `kept` of the trains that it has sent arrive. -/
theorem InRing.crashes (hv : InRing M hntr τ e x v y) (kept : ℕ) :
    Lost M hntr τ e x { v with
      relayAlive := false
      fromRelay := v.fromRelay.take kept ++ [notice M Continuity.relay false]
      relayToRear := v.relayToRear.take kept ++ [notice M Continuity.relay true] } where
  alive := rfl
  rearSucc := .inl hv.rearSucc
  frontPrec := hv.frontPrec
  fromRelay := by
    have hle := hv.le
    have hlength := hv.fromRelay_length
    refine ⟨_, rfl, ?_, ?_⟩
    · apply Stream.of_prefix (hv.fromRelay.mono (Nat.sub_le N 1) (Nat.le_refl N))
      exact List.take_prefix kept _
    · rw [List.length_take]
      omega
  direct := hv.direct
  frontToRear := hv.frontToRear
  relayToRear := by
    dsimp only
    rw [hv.relayToRear, List.take_nil, List.nil_append]
    intro m hm
    rw [List.mem_singleton] at hm
    exact ⟨M.addr Continuity.relay, by rw [hm]; rfl⟩
  frontToRelay := hv.frontToRelay
  shut := hv.shut

theorem Lost.sends (hv : Lost M hntr τ e x v) :
    Lost M hntr τ e (x + 1) (v.rearSends Continuity.relay m) := by
  obtain ⟨l, hl, hstream, hle⟩ := hv.fromRelay
  rw [View.rearSends, if_pos rfl]
  exact { hv with fromRelay := ⟨l, hl, hstream, Nat.le_succ_of_le hle⟩ }

theorem Lost.silent (hv : Lost M hntr τ e x v) : Lost M hntr τ e (x + 1) v := by
  obtain ⟨l, hl, hstream, hle⟩ := hv.fromRelay
  exact { hv with fromRelay := ⟨l, hl, hstream, Nat.le_succ_of_le hle⟩ }

/-- `rear` treats the loss of the relay. -/
theorem Lost.loses (hv : Lost M hntr τ e x v) (hread : v.relayToRear = m :: rest) :
    Lost M hntr τ e x { v.rearReads Continuity.relay rest with rearSucc := 0#16 } := by
  rw [View.rearReads, if_pos rfl]
  exact { hv with
    rearSucc := .inr rfl
    relayToRear := (hv.relayToRear.tail hread).2 }

/-- `front` takes a train that the relay had sent. -/
theorem Lost.reads (hv : Lost M hntr τ e x v) (hread : v.fromRelay = m :: rest)
    (hmsg : m.1 = .train st circuit wagons) (hτ : ∀ k < x, τ' k = τ k) :
    IsVisit hntr τ (N - 1) N e m ∧ e < x ∧
      Lost M hntr τ' (e + 1) x (v.frontReads Continuity.relay rest) := by
  obtain ⟨l, hl, hstream, hle⟩ := hv.fromRelay
  rw [hread] at hl
  cases l with
  | nil =>
    rw [List.nil_append, List.cons.injEq] at hl
    rw [hl.1] at hmsg
    cases hmsg
  | cons m' l =>
    rw [List.cons_append, List.cons.injEq] at hl
    obtain ⟨rfl, hrest⟩ := hl
    rw [List.length_cons] at hle
    refine ⟨hstream.1, by omega, ?_⟩
    rw [View.frontReads, if_pos rfl]
    refine { hv with fromRelay := ⟨l, hrest, ?_, by omega⟩ }
    apply hstream.2.congr
    intro k _ hk
    exact hτ k (by omega)

/-- What is not a train is the loss of the relay, after all the trains. -/
theorem Lost.last (hv : Lost M hntr τ e x v) (hread : v.fromRelay = m :: rest)
    (hmsg : ∀ st circuit wagons, m.1 ≠ .train st circuit wagons) :
    m.1 = .disconnectPred (M.addr Continuity.relay) ∧ rest = [] := by
  obtain ⟨l, hl, hstream, -⟩ := hv.fromRelay
  rw [hread] at hl
  cases l with
  | nil =>
    rw [List.nil_append, List.cons.injEq] at hl
    rw [hl.1]
    exact ⟨rfl, hl.2⟩
  | cons m' l =>
    rw [List.cons_append, List.cons.injEq] at hl
    obtain ⟨st, circuit, wagons, htrain⟩ := hstream.train List.mem_cons_self
    rw [← hl.1] at htrain
    exact absurd htrain (hmsg st circuit wagons)

/-- `front` treats the loss. -/
theorem Lost.tells (hv : Lost M hntr τ e x v) (prec : Address) : Told M { v with
      frontPrec := prec
      fromRelay := []
      frontToRear := v.frontToRear ++ [(.newSucc (M.addr front), .none)] } :=
  { hv with
    fromRelay := rfl
    frontToRear := by
      dsimp only
      rw [hv.frontToRear, List.nil_append] }

theorem Told.sends (hv : Told M v) : Told M (v.rearSends Continuity.relay m) := by
  rw [View.rearSends, if_pos rfl]
  exact { hv with }

theorem Told.loses (hv : Told M v) (hread : v.relayToRear = m :: rest) :
    Told M { v.rearReads Continuity.relay rest with rearSucc := 0#16 } := by
  rw [View.rearReads, if_pos rfl]
  exact { hv with
    rearSucc := .inr rfl
    relayToRear := (hv.relayToRear.tail hread).2 }

/-- `rear` sends its last trains again. -/
theorem Told.turns {shut : Chan N → Bool} (hv : Told M v) (l' : List (Msg ntr × Tag))
    (hread : v.frontToRear = m :: rest) (hl : Stream hntr τ (N - 1) (N - 1) (x - ntr) l)
    (hlength : l.length = ntr) (hx : ntr ≤ x) (hlo : e ≤ x) (hhi : x ≤ e + ntr)
    (hshut : ∀ c, shut c = true → c = Continuity.toRelay ∨ c = Continuity.relayToRear) :
    Resent M hntr τ e x { v with
      rearSucc := M.addr front
      frontToRear := rest
      direct := v.direct ++ l
      toRelay := l'
      shut := shut } := by
  have hrest := hv.frontToRear
  rw [hread, List.cons.injEq] at hrest
  refine { hv with
    direct := ⟨x - ntr, ?_, by omega, by omega, .inl ⟨rfl, ?_⟩⟩
    frontToRear := hrest.2
    shut := hshut }
  · dsimp only
    rw [hv.direct, List.nil_append]
    exact hl.mono (Nat.le_refl _) (Nat.sub_le N 1)
  · dsimp only
    rw [hv.direct, List.nil_append, hlength]
    omega

theorem Resent.sends (hN : 2 ≤ N) (hv : Resent M hntr τ e x v)
    (hm : IsVisit hntr τ (N - 1) (N - 1) x m) (hsucc : v.rearSucc = M.addr front) :
    Resent M hntr τ e (x + 1) (v.rearSends front m) := by
  obtain ⟨r, hstream, hlo, hhi, hlength⟩ := hv.direct
  have hx : r + v.direct.length = x := by
    rcases hlength with ⟨-, hx⟩ | ⟨hzero, -⟩
    · exact hx
    · rw [hsucc] at hzero
      exact absurd hzero (addr_ne_zero M front)
  rw [View.rearSends, if_neg (front_ne_relay hN)]
  refine { hv with direct := ⟨r, ?_, hlo, hhi, .inl ⟨hsucc, ?_⟩⟩ }
  · apply hstream.concat
    rw [hx]
    exact hm.mono (Nat.le_refl _) (Nat.sub_le N 1)
  · dsimp only
    rw [List.length_append, List.length_singleton]
    omega

theorem Resent.silent (hv : Resent M hntr τ e x v) (hsucc : v.rearSucc = 0#16) :
    Resent M hntr τ e (x + 1) v := by
  obtain ⟨r, hstream, hlo, hhi, hlength⟩ := hv.direct
  refine { hv with direct := ⟨r, hstream, hlo, hhi, .inr ⟨hsucc, ?_⟩⟩ }
  rcases hlength with ⟨-, hx⟩ | ⟨-, hx⟩
  · omega
  · omega

theorem Resent.loses (hv : Resent M hntr τ e x v) (hread : v.relayToRear = m :: rest) :
    Resent M hntr τ e x { v.rearReads Continuity.relay rest with rearSucc := 0#16 } := by
  obtain ⟨r, hstream, hlo, hhi, hlength⟩ := hv.direct
  rw [View.rearReads, if_pos rfl]
  refine { hv with
    direct := ⟨r, hstream, hlo, hhi, .inr ⟨rfl, ?_⟩⟩
    relayToRear := (hv.relayToRear.tail hread).2 }
  rcases hlength with ⟨-, hx⟩ | ⟨-, hx⟩
  · exact Nat.le_of_eq hx
  · exact hx

/-- `front` reads a train that `rear` has sent again, or the first one after. -/
theorem Resent.reads (hN : 2 ≤ N) (hv : Resent M hntr τ e x v) (hread : v.direct = m :: rest) :
    ∃ r, IsVisit hntr τ (N - 1) N r m ∧ e ≤ r + ntr ∧ r < x ∧
      (r < e ∧ Resent M hntr τ e x (v.frontReads rear rest) ∨
        r = e ∧ ∀ τ', (∀ k < x, τ' k = τ k) →
          Resent M hntr τ' (e + 1) x (v.frontReads rear rest)) := by
  obtain ⟨r, hstream, hlo, hhi, hlength⟩ := hv.direct
  rw [hread] at hstream hlength
  rw [List.length_cons] at hlength
  have hx : r + rest.length < x := by
    rcases hlength with ⟨-, hx⟩ | ⟨-, hx⟩
    · omega
    · omega
  have hlength' : v.rearSucc = M.addr front ∧ r + 1 + rest.length = x ∨
      v.rearSucc = 0#16 ∧ r + 1 + rest.length ≤ x := by
    rcases hlength with ⟨hsucc, hx⟩ | ⟨hsucc, hx⟩
    · exact .inl ⟨hsucc, by omega⟩
    · exact .inr ⟨hsucc, by omega⟩
  rw [View.frontReads, if_neg (rear_ne_relay hN)]
  refine ⟨r, hstream.1, hhi, by omega, ?_⟩
  rcases Nat.lt_or_eq_of_le hlo with hlt | heq
  · left
    exact ⟨hlt, { hv with direct := ⟨r + 1, hstream.2, by omega, by omega, hlength'⟩ }⟩
  · right
    refine ⟨heq, ?_⟩
    intro τ' hτ
    refine { hv with direct := ⟨r + 1, ?_, by omega, by omega, hlength'⟩ }
    apply hstream.2.congr
    intro k _ hk
    exact hτ k (by omega)

end Stages

end UniformBroadcast.Trains.Continuity
