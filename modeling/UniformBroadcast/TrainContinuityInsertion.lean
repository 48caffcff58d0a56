import UniformBroadcast.TrainContinuityNeighbours

/-!
# The insertion of the relay

The relay comes between `rear` and `front`. `front` accepts it and closes its connection to
`rear`, of which it may still have trains to treat; `rear` sends its last trains again to the
relay, which lets them through.
-/

namespace UniformBroadcast.Trains.Continuity

variable {N ntr : ℕ}

section Stages

variable {M : Members (N + 1)} {hntr : 0 < ntr} {τ τ' : ℕ → ℕ} {e x r u last : ℕ}
  {v : View N ntr} {m : Msg ntr × Tag} {l l' rest : List (Msg ntr × Tag)} {p q : Proc ntr}
  {st : Stamp ntr} {w : Wagon} {circuit : Address} {wagons : Option (List Wagon)} {state : State}

/-! ## Before `front` accepts -/

theorem Adjacent.sends (hN : 2 ≤ N) (hv : Adjacent M hntr τ e x v)
    (hm : IsVisit hntr τ (N - 1) (N - 1) x m) :
    Adjacent M hntr τ e (x + 1) (v.rearSends front m) := by
  have hlength := hv.direct_length
  rw [View.rearSends, if_neg (front_ne_relay hN)]
  refine { hv with direct := ?_, direct_length := ?_ }
  · apply hv.direct.concat
    rw [hlength]
    exact hm.mono (Nat.le_refl _) (Nat.sub_le N 1)
  · dsimp only
    rw [List.length_append, List.length_singleton]
    omega

/-- `front` takes the train that it waits for. -/
theorem Adjacent.reads (hN : 2 ≤ N) (hv : Adjacent M hntr τ e x v)
    (hread : v.direct = m :: rest) : IsVisit hntr τ (N - 1) N e m ∧ e < x ∧
      ∀ τ', (∀ k < x, τ' k = τ k) → Adjacent M hntr τ' (e + 1) x (v.frontReads rear rest) := by
  have hstream := hv.direct
  have hlength := hv.direct_length
  rw [hread] at hstream hlength
  rw [List.length_cons] at hlength
  refine ⟨hstream.1, by omega, ?_⟩
  intro τ' hτ
  rw [View.frontReads, if_neg (rear_ne_relay hN)]
  refine { hv with direct := ?_, direct_length := ?_ }
  · apply hstream.2.congr
    intro k _ hk
    exact hτ k (by omega)
  · dsimp only
    omega

/-- The relay comes, and asks `front`. -/
theorem Absent.asks (hv : Absent M hntr τ e x v)
    (hstate : q.automatonState = .offlineConnectionAttempt) (hsucc : q.succ = M.addr front)
    (hcircuit : ∀ id, (q.lts id).circuit = 0#16) : Asking M hntr τ e x { v with
      relayAlive := true
      relay := q
      fromRelay := v.fromRelay ++ [(.insert (M.addr relay), .none)] } :=
  { hv.toAdjacent with
    alive := rfl
    state := hstate
    succ := hsucc
    circuit := hcircuit
    fromRelay := by
      dsimp only
      rw [hv.fromRelay, List.nil_append] }

theorem NewRelay.congr {v' : View N ntr} (hv : NewRelay M v state)
    (halive : v'.relayAlive = v.relayAlive) (hrelay : v'.relay = v.relay) :
    NewRelay M v' state where
  alive := halive.trans hv.alive
  state := by
    rw [hrelay]
    exact hv.state
  succ := by
    rw [hrelay]
    exact hv.succ
  circuit := by
    rw [hrelay]
    exact hv.circuit

/-- `front` accepts. -/
theorem Asking.answers {shut : Chan N → Bool} (hv : Asking M hntr τ e x v) (prec : Address)
    (hread : v.fromRelay = m :: rest) (hdirect : shut direct = true)
    (hshut : ∀ c, shut c = true → c = direct ∨ c = frontToRear) : Answered M hntr τ e x { v with
      frontPrec := prec
      fromRelay := rest
      frontToRear := v.frontToRear ++ [notice M front true]
      frontToRelay := v.frontToRelay ++ [(.ackInsert (M.addr rear), .none)]
      shut := shut } := by
  have hone := hv.fromRelay
  rw [hread, List.cons.injEq] at hone
  have hlength := hv.direct_length
  refine { hv.toNewRelay with
    direct := ⟨e, hv.direct, Nat.le_refl e, Nat.le_of_eq hlength⟩
    frontToRear := ?_
    shut_direct := hdirect
    shut := hshut
    rearSucc := .inl hv.rearSucc
    toRelay := hv.toRelay
    fromRelay := hone.2
    relayToRear := hv.relayToRear
    frontToRelay := ?_ }
  · dsimp only
    rw [hv.frontToRear, List.nil_append]
    intro m hm
    rw [List.mem_singleton] at hm
    exact ⟨M.addr front, by rw [hm]; rfl⟩
  · dsimp only
    rw [hv.frontToRelay, List.nil_append]

/-! ## The trains left on the closed connection -/

theorem Closed.mono {last' : ℕ} (hv : Closed hntr τ e v last) (hle : last ≤ last') :
    Closed hntr τ e v last' := by
  obtain ⟨o, hstream, ho, hlast⟩ := hv.direct
  exact { hv with direct := ⟨o, hstream, ho, Nat.le_trans hlast hle⟩ }

theorem Closed.loses (hN : 2 ≤ N) (hv : Closed hntr τ e v last)
    (hread : v.frontToRear = m :: rest) :
    Closed hntr τ e { v.rearReads front rest with rearSucc := 0#16 } last := by
  rw [View.rearReads, if_neg (front_ne_relay hN)]
  exact { hv with
    frontToRear := fun m' hm' => hv.frontToRear m' (by
      rw [hread]
      exact List.mem_cons_of_mem m hm') }

/-- `front` reads a train of the closed connection: one that it has already accepted, or the
one that it waits for. -/
theorem Closed.reads (hN : 2 ≤ N) (hv : Closed hntr τ e v last) (hread : v.direct = m :: rest) :
    ∃ o, IsVisit hntr τ (N - 1) N o m ∧ o < last ∧
      (o < e ∧ Closed hntr τ e (v.frontReads rear rest) last ∨
        o = e ∧ ∀ τ', (∀ k < last, τ' k = τ k) →
          Closed hntr τ' (e + 1) (v.frontReads rear rest) last) := by
  obtain ⟨o, hstream, ho, hlast⟩ := hv.direct
  rw [hread] at hstream hlast
  rw [List.length_cons] at hlast
  have hlast' : o + 1 + rest.length ≤ last := by omega
  refine ⟨o, hstream.1, by omega, ?_⟩
  rw [View.frontReads, if_neg (rear_ne_relay hN)]
  rcases Nat.lt_or_eq_of_le ho with hlt | heq
  · exact .inl ⟨hlt, { hv with direct := ⟨o + 1, hstream.2, hlt, hlast'⟩ }⟩
  · refine .inr ⟨heq, fun τ' hτ => { hv with direct := ⟨o + 1, ?_, by omega, hlast'⟩ }⟩
    apply hstream.2.congr
    intro k _ hk
    exact hτ k (by omega)

/-- A message of the closed connection is lost, in one direction or the other. -/
theorem Closed.lose (hv : Closed hntr τ e v last) :
    Closed hntr τ e { v with direct := v.direct.dropLast } last ∧
      Closed hntr τ e { v with frontToRear := v.frontToRear.dropLast } last := by
  obtain ⟨o, hstream, ho, hlast⟩ := hv.direct
  constructor
  · refine { hv with direct := ⟨o, hstream.of_prefix (List.dropLast_prefix _), ho, ?_⟩ }
    dsimp only
    rw [List.length_dropLast]
    omega
  · exact { hv with
      direct := ⟨o, hstream, ho, hlast⟩
      frontToRear := hv.frontToRear.dropLast }

/-! ## Until `rear` sends to the relay -/

theorem Cut.silent (hv : Cut M hntr τ e x v state l l') : Cut M hntr τ e (x + 1) v state l l' :=
  { hv.toClosed.mono (Nat.le_succ x), hv with }

theorem Cut.loses (hN : 2 ≤ N) (hv : Cut M hntr τ e x v state l l')
    (hread : v.frontToRear = m :: rest) :
    Cut M hntr τ e x { v.rearReads front rest with rearSucc := 0#16 } state l l' := by
  have hclosed := hv.toClosed.loses hN hread
  rw [View.rearReads, if_neg (front_ne_relay hN)] at hclosed ⊢
  exact { hclosed, hv with rearSucc := .inr rfl }

theorem Cut.reads (hN : 2 ≤ N) (hv : Cut M hntr τ e x v state l l')
    (hclosed : Closed hntr τ' u (v.frontReads rear rest) x) :
    Cut M hntr τ' u x (v.frontReads rear rest) state l l' := by
  rw [View.frontReads, if_neg (rear_ne_relay hN)] at hclosed ⊢
  exact { hclosed, hv with }

/-- The relay has the answer of `front` and tells `rear`. -/
theorem Answered.confirms (hv : Answered M hntr τ e x v) (hread : v.frontToRelay = m :: rest)
    (hstate : q.automatonState = .offlineConfirmationWait) (hsucc : q.succ = v.relay.succ)
    (hlts : q.lts = v.relay.lts) : Confirming M hntr τ e x { v with
      relay := q
      frontToRelay := rest
      relayToRear := v.relayToRear ++ [(.newSucc (M.addr relay), .none)] } := by
  have hone := Cut.frontToRelay hv
  rw [hread, List.cons.injEq] at hone
  refine { hv.toClosed, hv with
    state := hstate
    succ := hsucc.trans hv.succ
    circuit := ?_
    relayToRear := ?_
    frontToRelay := hone.2 }
  · intro id
    dsimp only
    rw [hlts]
    exact hv.circuit id
  · dsimp only
    rw [Cut.relayToRear hv, List.nil_append]

/-- `rear` sends its last trains again, to the relay. -/
theorem Confirming.resends (hv : Confirming M hntr τ e x v) (hread : v.relayToRear = m :: rest)
    (hl : Stream hntr τ (N - 1) (N - 1) (x - ntr) l) (hlength : l.length = ntr) (hx : ntr ≤ x)
    (hlo : e ≤ x) (hhi : x ≤ e + ntr) :
    Relaying M hntr τ e x { v with
      rearSucc := M.addr relay
      relayToRear := rest
      toRelay := v.toRelay ++ l } (x - ntr) (x - ntr) x := by
  have hone := Cut.relayToRear hv
  have hrelay := Cut.frontToRelay hv
  rw [hread, List.cons.injEq] at hone
  refine { hv.toClosed, hv with
    last_le := Nat.le_refl x
    last_lap := by omega
    relays := .inl ⟨hv.state, fun id => .inl (hv.circuit id)⟩
    toRelay := ?_
    rearSucc := .inl ⟨rfl, ?_⟩
    fromRelay := ?_
    fromRelay_length := ?_
    behind := by omega
    close := by omega
    relayToRear := hone.2
    frontToRelay := hrelay }
  · dsimp only
    rw [Cut.toRelay hv, List.nil_append]
    exact hl
  · dsimp only
    rw [Cut.toRelay hv, List.nil_append, hlength]
    omega
  · dsimp only
    rw [Cut.fromRelay hv]
    exact stream_nil
  · dsimp only
    rw [Cut.fromRelay hv]
    rfl

/-! ## Through the relay -/

/-- A train that the relay lets through, with a clock that has advanced or not. -/
theorem IsVisit.let_through (hN : 2 ≤ N) (hm : IsVisit hntr τ (N - 1) (N - 1) u m)
    (hmsg : m.1 = .train st circuit wagons) (hid : (q.lts st.id).stamp.id = st.id)
    (hlc : (q.lts st.id).stamp.lc = st.lc ∨ (q.lts st.id).stamp.lc = st.lc + 1) :
    IsVisit hntr τ (N - 1) N u (sentTrain false m st q) := by
  obtain ⟨st', circuit', wagons', hmsg', hst, hlc', hlo, hhi, hlap⟩ := hm
  rw [hmsg'] at hmsg
  cases hmsg
  refine ⟨_, _, _, rfl, hid.trans hst, ?_⟩
  simp only [sentTrain]
  rcases hlc with hsame | hnext
  · rw [hsame, Tag.sent, BitVec.sub_self, BitVec.toNat_zero, Nat.add_zero]
    exact ⟨hlc', hlo, by dsimp only; omega, hlap⟩
  · rw [hnext, Tag.sent_succ]
    refine ⟨?_, by dsimp only; omega, by dsimp only; omega, hlap⟩
    rw [hlc']
    exact (BitVec.ofNat_add m.2.clock 1).symm

/-- What the relay has sent, one train more. -/
theorem LastSent.next (hid : st.id = trainId hntr u)
    (hsent : IsVisit hntr τ (N - 1) N u (sentTrain false m st q))
    {lts : Fin ntr → Lts ntr} {tags : Fin ntr → Tag} {id : Fin ntr}
    (hother : id ≠ st.id → q.lts id = lts id)
    (hold : id ≠ st.id → LastSent hntr τ (N - 1) N u id (lts id) (tags id)) :
    LastSent hntr τ (N - 1) N (u + 1) id (q.lts id)
      (setAt tags st.id (sentTrain false m st q).2 id) := by
  by_cases hne : id = st.id
  · subst hne
    rw [setAt, Function.update_self]
    have hlast := hsent.lastSent
    rw [← hid] at hlast
    exact hlast
  · rw [hother hne, setAt, Function.update_of_ne hne]
    apply (hold hne).succ
    rw [← hid]
    exact hne

/-- A relay that waits for its confirmation lets a train through. -/
theorem Relays.lets_through (hN : 2 ≤ N) {c : Config} {dial : Address → Bool}
    {actions : List (Action ntr)} (hv : Relays hntr τ v u)
    (hstate : v.relay.automatonState = .offlineConfirmationWait)
    (hm : IsVisit hntr τ (N - 1) (N - 1) u m) (hmsg : m.1 = .train st circuit wagons)
    (h : stateMachine c dial (.train st circuit wagons) v.relay = some (q, actions)) :
    Relays hntr τ { v with
      relay := q
      relayTags := setAt v.relayTags st.id (sentTrain false m st q).2
      toRelay := l
      fromRelay := l' } (u + 1) := by
  have hold : ∀ id, (v.relay.lts id).circuit = 0#16 ∨
      LastSent hntr τ (N - 1) N u id (v.relay.lts id) (v.relayTags id) := by
    rcases hv with ⟨-, hold⟩ | ⟨hseveral, -⟩
    · exact hold
    · rw [hstate] at hseveral
      cases hseveral
  obtain ⟨-, hother, hid, hlc, -, hnext⟩ := confirmationWait_train hstate h
  have hst : st.id = trainId hntr u := by
    obtain ⟨st', circuit', wagons', hmsg', hst, -⟩ := hm
    rw [hmsg'] at hmsg
    cases hmsg
    exact hst
  have hsent := hm.let_through hN hmsg hid hlc
  have hlast : ∀ id, (q.lts id).circuit = 0#16 ∨ LastSent hntr τ (N - 1) N (u + 1) id (q.lts id)
      (setAt v.relayTags st.id (sentTrain false m st q).2 id) := by
    intro id
    by_cases hzero : id ≠ st.id ∧ (v.relay.lts id).circuit = 0#16
    · left
      rw [hother id hzero.1]
      exact hzero.2
    · right
      apply LastSent.next hst hsent (hother id)
      intro hne
      exact (hold id).resolve_left fun h => hzero ⟨hne, h⟩
  rcases hnext with hwait | ⟨hseveral, hlis, hmember⟩
  · exact .inl ⟨hwait, hlast⟩
  · have hw : Window hntr τ (N - 1) N (u + 1) q.lts
        (setAt v.relayTags st.id (sentTrain false m st q).2) := by
      intro id
      apply (hlast id).resolve_left
      intro hzero
      have hin := hmember id
      rw [hzero, addrIsMember_empty] at hin
      cases hin
    refine .inr ⟨hseveral, ?_, ?_, hw⟩
    · dsimp only
      rw [hlis, hst, idPlus_trainId]
    · obtain ⟨k, hk, hlt, hlap, -⟩ := hw (trainId hntr (u + 1))
      by_contra hfull
      exact trainId_ne hlt (by omega) hk

/-- A relay in the circuit handles a train. -/
theorem Relays.handles (hN : 2 ≤ N) (hv : Relays hntr τ v u)
    (hstate : v.relay.automatonState = .several) (hm : IsVisit hntr τ (N - 1) (N - 1) u m)
    (hmsg : m.1 = .train st circuit wagons) (ht : Took st v.relay q) :
    Relays hntr τ { v with
      relay := q
      relayTags := setAt v.relayTags st.id (sentTrain false m st q).2
      toRelay := l
      fromRelay := l' } (u + 1) := by
  obtain ⟨hlis, hfull, hw⟩ : idPlus v.relay.lis 1 = trainId hntr u ∧ ntr ≤ u ∧
      Window hntr τ (N - 1) N u v.relay.lts v.relayTags := by
    rcases hv with ⟨hwait, -⟩ | ⟨-, hrest⟩
    · rw [hstate] at hwait
      cases hwait
    · exact hrest
  have hst : st.id = trainId hntr u := by
    obtain ⟨st', circuit', wagons', hmsg', hst, -⟩ := hm
    rw [hmsg'] at hmsg
    cases hmsg
    exact hst
  have hsent := hm.let_through hN hmsg ht.id (.inr ht.lc)
  refine .inr ⟨ht.state.trans hstate, ?_, Nat.le_succ_of_le hfull, ?_⟩
  · dsimp only
    rw [ht.lis, hst, idPlus_trainId]
  · intro id
    exact LastSent.next hst hsent (ht.other id) fun _ => hw id

/-! ## Once `rear` sends to the relay -/

theorem Relays.congr (hv : Relays hntr τ v u) (hτ : ∀ k < u, τ' k = τ k) :
    Relays hntr τ' v u := by
  rcases hv with ⟨hwait, hold⟩ | ⟨hseveral, hlis, hfull, hw⟩
  · exact .inl ⟨hwait, fun id => (hold id).imp_right fun hs => hs.congr hτ⟩
  · exact .inr ⟨hseveral, hlis, hfull, hw.congr hτ⟩

theorem Relaying.le (hv : Relaying M hntr τ e x v r u last) : r ≤ u ∧ u ≤ x := by
  have hlength := hv.fromRelay_length
  rcases hv.rearSucc with ⟨-, hx⟩ | ⟨-, hx⟩ <;> omega

theorem Relaying.sends (hv : Relaying M hntr τ e x v r u last)
    (hm : IsVisit hntr τ (N - 1) (N - 1) x m) (hsucc : v.rearSucc = M.addr relay) :
    Relaying M hntr τ e (x + 1) (v.rearSends relay m) r u last := by
  have hx : u + v.toRelay.length = x := by
    rcases hv.rearSucc with ⟨-, hx⟩ | ⟨hzero, -⟩
    · exact hx
    · rw [hsucc] at hzero
      exact absurd hzero (addr_ne_zero M relay)
  rw [View.rearSends, if_pos rfl]
  refine { hv with
    last_le := Nat.le_succ_of_le hv.last_le
    toRelay := ?_
    rearSucc := .inl ⟨hsucc, ?_⟩ }
  · apply hv.toRelay.concat
    rw [hx]
    exact hm
  · dsimp only
    rw [List.length_append, List.length_singleton]
    omega

theorem Relaying.silent (hv : Relaying M hntr τ e x v r u last) (hsucc : v.rearSucc = 0#16) :
    Relaying M hntr τ e (x + 1) v r u last := by
  have hle : u + v.toRelay.length ≤ x := by
    rcases hv.rearSucc with ⟨-, hx⟩ | ⟨-, hx⟩
    · exact Nat.le_of_eq hx
    · exact hx
  exact { hv with
    last_le := Nat.le_succ_of_le hv.last_le
    rearSucc := .inr ⟨hsucc, Nat.le_succ_of_le hle⟩ }

/-- `rear` treats the disconnection of `front` after the message of the relay. -/
theorem Relaying.loses (hN : 2 ≤ N) (hv : Relaying M hntr τ e x v r u last)
    (hread : v.frontToRear = m :: rest) :
    Relaying M hntr τ e x { v.rearReads front rest with rearSucc := 0#16 } r u last := by
  have hclosed := hv.toClosed.loses hN hread
  have hle : u + v.toRelay.length ≤ x := by
    rcases hv.rearSucc with ⟨-, hx⟩ | ⟨-, hx⟩
    · exact Nat.le_of_eq hx
    · exact hx
  rw [View.rearReads, if_neg (front_ne_relay hN)] at hclosed ⊢
  exact { hclosed, hv with rearSucc := .inr ⟨rfl, hle⟩ }

theorem Relaying.broadcast (hv : Relaying M hntr τ e x v r u last) :
    Relaying M hntr τ e x { v with relay := { v.relay with wagonToSend := w } } r u last :=
  { hv with relays := hv.relays }

theorem Relaying.loses_closed (hv : Relaying M hntr τ e x v r u last)
    (hclosed : Closed hntr τ e { v with direct := l, frontToRear := l' } last) :
    Relaying M hntr τ e x { v with direct := l, frontToRear := l' } r u last :=
  { hclosed, hv with }

/-- The relay sends what it has had from `rear`. -/
theorem Relaying.passes (hv : Relaying M hntr τ e x v r u last) (hread : v.toRelay = m :: rest)
    (hsent : IsVisit hntr τ (N - 1) N u (sentTrain false m st q)) (hsucc : q.succ = v.relay.succ)
    (hrelays : Relays hntr τ { v with
      relay := q
      relayTags := setAt v.relayTags st.id (sentTrain false m st q).2
      toRelay := rest
      fromRelay := v.fromRelay ++ [sentTrain false m st q] } (u + 1)) :
    Relaying M hntr τ e x { v with
      relay := q
      relayTags := setAt v.relayTags st.id (sentTrain false m st q).2
      toRelay := rest
      fromRelay := v.fromRelay ++ [sentTrain false m st q] } r (u + 1) last := by
  have hstream := hv.toRelay
  have hlength := hv.rearSucc
  have hlength' := hv.fromRelay_length
  rw [hread] at hstream hlength
  rw [List.length_cons] at hlength
  refine { hv with
    succ := hsucc.trans hv.succ
    relays := hrelays
    toRelay := hstream.2
    rearSucc := ?_
    fromRelay := ?_
    fromRelay_length := ?_ }
  · rcases hlength with ⟨hrelay, hx⟩ | ⟨hzero, hx⟩
    · exact .inl ⟨hrelay, by dsimp only; omega⟩
    · exact .inr ⟨hzero, by dsimp only; omega⟩
  · apply hv.fromRelay.concat
    rw [hlength']
    exact hsent
  · dsimp only
    rw [List.length_append, List.length_singleton]
    omega

/-- `front` reads a train of the closed connection. -/
theorem Relaying.reads_closed (hN : 2 ≤ N) (hv : Relaying M hntr τ e x v r u last)
    (hclosed : Closed hntr τ e (v.frontReads rear rest) last) :
    Relaying M hntr τ e x (v.frontReads rear rest) r u last := by
  rw [View.frontReads, if_neg (rear_ne_relay hN)] at hclosed ⊢
  exact { hclosed, hv with }

theorem Relaying.takes_closed (hN : 2 ≤ N) (hv : Relaying M hntr τ e x v r u last)
    (he : e < last) (hτ : ∀ k < x, τ' k = τ k)
    (hclosed : Closed hntr τ' (e + 1) (v.frontReads rear rest) last) :
    Relaying M hntr τ' (e + 1) x (v.frontReads rear rest) r u last := by
  have hle := hv.le
  have hlap := hv.last_lap
  have hbehind := hv.behind
  have hlength : u + v.toRelay.length ≤ x := by
    rcases hv.rearSucc with ⟨-, hx⟩ | ⟨-, hx⟩
    · exact Nat.le_of_eq hx
    · exact hx
  have hrelays : Relays hntr τ' v u := hv.relays.congr fun k hk => hτ k (by omega)
  have hto : Stream hntr τ' (N - 1) (N - 1) u v.toRelay :=
    hv.toRelay.congr fun k _ hk => hτ k (by omega)
  have hfrom : Stream hntr τ' (N - 1) N r v.fromRelay := by
    apply hv.fromRelay.congr
    intro k _ hk
    rw [hv.fromRelay_length] at hk
    exact hτ k (by omega)
  rw [View.frontReads, if_neg (rear_ne_relay hN)] at hclosed ⊢
  exact { hclosed, hv with
    relays := hrelays
    toRelay := hto
    fromRelay := hfrom
    behind := by omega
    close := by omega }

/-- `front` reads a train that the relay has sent: one that it has already accepted, or the one
that it waits for. -/
theorem Relaying.reads (hv : Relaying M hntr τ e x v r u last) (hread : v.fromRelay = m :: rest) :
    IsVisit hntr τ (N - 1) N r m ∧ r < x ∧
      (r < e ∧ Relaying M hntr τ e x (v.frontReads relay rest) (r + 1) u last ∨
        r = e ∧ ∀ τ', (∀ k < x, τ' k = τ k) →
          Relaying M hntr τ' (e + 1) x (v.frontReads relay rest) (r + 1) u last) := by
  have hle := hv.le
  have hlap := hv.last_lap
  have hbehind := hv.behind
  have hclose := hv.close
  have hstream := hv.fromRelay
  have hlength := hv.fromRelay_length
  rw [hread] at hstream hlength
  rw [List.length_cons] at hlength
  have hlength' : r + 1 + rest.length = u := by omega
  refine ⟨hstream.1, by omega, ?_⟩
  rw [View.frontReads, if_pos rfl]
  rcases Nat.lt_or_eq_of_le hbehind with hlt | heq
  · left
    exact ⟨hlt, { hv with
      last_lap := by omega
      fromRelay := hstream.2
      fromRelay_length := hlength'
      behind := hlt
      close := by omega }⟩
  · right
    refine ⟨heq, ?_⟩
    intro τ' hτ
    obtain ⟨o, hdirect, ho, hlast⟩ := hv.direct
    have hlast_le := hv.last_le
    have hto : u + v.toRelay.length ≤ x := by
      rcases hv.rearSucc with ⟨-, hx⟩ | ⟨-, hx⟩
      · exact Nat.le_of_eq hx
      · exact hx
    have hrelays : Relays hntr τ' v u := hv.relays.congr fun k hk => hτ k (by omega)
    refine { hv with
      last_lap := by omega
      direct := ⟨o, hdirect.congr fun k _ hk => hτ k (by omega), by omega, hlast⟩
      relays := hrelays
      toRelay := hv.toRelay.congr fun k _ hk => hτ k (by omega)
      fromRelay := hstream.2.congr fun k _ hk => hτ k (by omega)
      fromRelay_length := hlength'
      behind := by omega
      close := by omega }

end Stages

end UniformBroadcast.Trains.Continuity
