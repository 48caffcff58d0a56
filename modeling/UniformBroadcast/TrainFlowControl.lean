import UniformBroadcast.TrainBroadcasts
import UniformBroadcast.TrainCarriage

/-!
# Flow control

Any number of threads of the application put messages in `wagonToSend`, where the treatments
put notifications and from where they take it away. What is done under `mutexWagonToSend` is
one step; a thread holds it from `newmsg` to `utoBroadcast`. A thread that `newmsg` makes wait
has no step before the wagon lets it pass. What a process and its application do is done by
its outbox.
-/

namespace UniformBroadcast.Trains

open TransitionRuns Draining

variable {ntr : ℕ}

/-- The wagon that is being filled, the thread between its `newmsg` and its `utoBroadcast`, and
the wagons taken away, to be sent or delivered. -/
structure Outbox where
  wagonToSend : Wagon
  holder : Option ℕ
  gone : List Wagon
  deriving DecidableEq, Repr

inductive OutboxEvent where
  | newmsg (thread : ℕ) (payload : List (BitVec 8))
  /-- The process waits alone for insertions, or not. -/
  | utoBroadcast (thread : ℕ) (alone : Bool)
  | signalArrival (ad circuit : Address)
  | signalDeparture (ad circuit : Address)
  /-- `trainHandling` puts the wagon on a train, if it holds a message. -/
  | putOnTrain (round : Fin nr)
  /-- `bqueueEnqueue(wagonsToDeliver, wagonToSend)` and a new wagon, with the mutex or not. -/
  | deliver
  deriving DecidableEq, Repr

def Outbox.start (myAddress : Address) : Outbox := ⟨newWiw myAddress, none, []⟩

/-- The wagon is taken away and a new one made. -/
def Outbox.takeAway (myAddress : Address) (w : Wagon) (b : Outbox) : Outbox :=
  { b with wagonToSend := newWiw myAddress, gone := b.gone ++ [w] }

def Outbox.step (c : Config) (b : Outbox) : OutboxEvent → Option Outbox
  | .newmsg thread payload =>
    if b.holder = none ∧ ¬ newmsgWaits c.wagonMaxLen ⟨amBroadcast, payload⟩ b.wagonToSend then
      some { b with
        wagonToSend := mallocWiw ⟨amBroadcast, payload⟩ b.wagonToSend
        holder := some thread }
    else none
  | .utoBroadcast thread alone =>
    if b.holder = some thread then
      let b := if alone then b.takeAway c.myAddress b.wagonToSend else b
      some { b with holder := none }
    else none
  | .signalArrival ad circuit =>
    if b.holder = none then
      some { b with wagonToSend := signalArrivalDepartures amArrival ad circuit b.wagonToSend }
    else none
  | .signalDeparture ad circuit =>
    if b.holder = none then
      some { b with wagonToSend := signalArrivalDepartures amDeparture ad circuit b.wagonToSend }
    else none
  | .putOnTrain round =>
    if b.holder = none then
      some (if (firstMsg b.wagonToSend).isSome then
        b.takeAway c.myAddress { b.wagonToSend with round := round } else b)
    else none
  | .deliver => some (b.takeAway c.myAddress b.wagonToSend)

/-! ## What a wagon holds -/

/-- The messages of the application. -/
def broadcasts (w : Wagon) : List Message := w.msgs.filter fun mp => mp.typ = amBroadcast

/-- The header and the messages of the application have the length allowed, or there is at
most one of these. -/
def FlowControlled (wagonMaxLen : ℕ) (w : Wagon) : Prop :=
  sizeofWagonHeader + ((broadcasts w).map Message.len).sum ≤ wagonMaxLen ∨
    (broadcasts w).length ≤ 1

instance (wagonMaxLen : ℕ) (w : Wagon) : Decidable (FlowControlled wagonMaxLen w) :=
  inferInstanceAs (Decidable (_ ∨ _))

section Wagons

variable {wagonMaxLen : ℕ} {w : Wagon}

theorem flowControlled_newWiw (myAddress : Address) :
    FlowControlled wagonMaxLen (newWiw myAddress) := .inr (Nat.zero_le 1)

theorem broadcasts_mallocWiw (mp : Message) (w : Wagon) :
    broadcasts (mallocWiw mp w) =
      broadcasts w ++ if mp.typ = amBroadcast then [mp] else [] := by
  rw [broadcasts, mallocWiw, List.filter_append, ← broadcasts]
  by_cases htyp : mp.typ = amBroadcast
  · simp [htyp]
  · simp [htyp]

/-- What has been kept out of the count only lengthens the wagon. -/
theorem sum_broadcasts_le (w : Wagon) :
    sizeofWagonHeader + ((broadcasts w).map Message.len).sum ≤ w.len := by
  have hsub : ((broadcasts w).map Message.len).Sublist (w.msgs.map Message.len) :=
    List.filter_sublist.map Message.len
  have hsum := hsub.sum_le_sum fun _ _ => Nat.zero_le _
  rw [Wagon.len]
  omega

/-- A wagon that lets a message pass is controlled with it, whatever it holds. -/
theorem flowControlled_newmsg {mp : Message} (hpass : ¬ newmsgWaits wagonMaxLen mp w) :
    FlowControlled wagonMaxLen (mallocWiw mp w) := by
  rw [newmsgWaits, not_and_or, not_lt, not_not] at hpass
  rcases hpass with hfits | hempty
  · left
    have hlen : (mallocWiw mp w).len = w.len + mp.len := by
      simp [mallocWiw, Wagon.len, Nat.add_assoc]
    exact (sum_broadcasts_le _).trans (hlen ▸ hfits)
  · right
    have hmsgs : broadcasts w = [] := by
      rw [broadcasts, (len_eq_header_iff w).mp hempty, List.filter_nil]
    rw [broadcasts_mallocWiw, hmsgs, List.nil_append]
    split
    · exact Nat.le_refl 1
    · exact Nat.zero_le 1

theorem flowControlled_signal {typ : BitVec 8} (htyp : typ ≠ amBroadcast) {ad circuit : Address}
    (h : FlowControlled wagonMaxLen w) :
    FlowControlled wagonMaxLen (signalArrivalDepartures typ ad circuit w) := by
  have hsame : broadcasts (signalArrivalDepartures typ ad circuit w) = broadcasts w := by
    rw [signalArrivalDepartures, broadcasts_mallocWiw, if_neg htyp, List.append_nil]
  rw [FlowControlled, hsame]
  exact h

end Wagons

/-! ## Runs -/

/-- The wagon that is being filled and those taken away are controlled. -/
def AllControlled (wagonMaxLen : ℕ) (b : Outbox) : Prop :=
  FlowControlled wagonMaxLen b.wagonToSend ∧ ∀ w ∈ b.gone, FlowControlled wagonMaxLen w

theorem AllControlled.takeAway {wagonMaxLen : ℕ} {b : Outbox} {w : Wagon} (myAddress : Address)
    (hb : AllControlled wagonMaxLen b) (hw : FlowControlled wagonMaxLen w) :
    AllControlled wagonMaxLen (b.takeAway myAddress w) := by
  refine ⟨flowControlled_newWiw myAddress, ?_⟩
  intro v hv
  rcases List.mem_append.mp hv with hv | hv
  · exact hb.2 v hv
  · rw [List.mem_singleton.mp hv]
    exact hw

theorem allControlled_step {c : Config} {b b' : Outbox} {e : OutboxEvent}
    (hb : AllControlled c.wagonMaxLen b) (h : b.step c e = some b') :
    AllControlled c.wagonMaxLen b' := by
  cases e with
  | newmsg thread payload =>
    rw [Outbox.step] at h
    split at h
    · rename_i hpass
      cases h
      exact ⟨flowControlled_newmsg hpass.2, hb.2⟩
    · cases h
  | utoBroadcast thread alone =>
    rw [Outbox.step] at h
    split at h
    · cases h
      cases alone with
      | true => exact hb.takeAway c.myAddress hb.1
      | false => exact hb
    · cases h
  | signalArrival ad circuit =>
    rw [Outbox.step] at h
    split at h
    · cases h
      exact ⟨flowControlled_signal (by decide) hb.1, hb.2⟩
    · cases h
  | signalDeparture ad circuit =>
    rw [Outbox.step] at h
    split at h
    · cases h
      exact ⟨flowControlled_signal (by decide) hb.1, hb.2⟩
    · cases h
  | putOnTrain round =>
    rw [Outbox.step] at h
    split at h
    · cases h
      split
      · exact hb.takeAway c.myAddress hb.1
      · exact hb
    · cases h
  | deliver =>
    cases h
    exact hb.takeAway c.myAddress hb.1

theorem allControlled_start (c : Config) :
    AllControlled c.wagonMaxLen (Outbox.start c.myAddress) :=
  ⟨flowControlled_newWiw c.myAddress, fun _ hw => absurd hw List.not_mem_nil⟩

/-- In every wagon ever taken away to be sent or delivered, the header and the messages of the
application have the length allowed, or there is at most one of these. -/
theorem wagons_flow_controlled {c : Config} {b : Outbox} {es : List OutboxEvent}
    (hrun : exec (Outbox.step c) (Outbox.start c.myAddress) es = some b) :
    ∀ w ∈ b.gone, FlowControlled c.wagonMaxLen w :=
  (exec_invariant (fun _ _ _ => allControlled_step) (allControlled_start c) hrun).2

/-- Three threads: an oversized message and a notification, then two messages of which a third
one does not fit beside. -/
def threeThreads : List OutboxEvent :=
  [.newmsg 0 (List.replicate 100 5#8), .utoBroadcast 0 false, .signalArrival 2#16 3#16,
    .putOnTrain 0, .newmsg 1 [6#8], .utoBroadcast 1 false, .newmsg 2 [7#8],
    .utoBroadcast 2 false, .signalDeparture 2#16 1#16, .putOnTrain 1]

theorem flow_controlled_threeThreads : ∃ b,
    exec (Outbox.step ⟨1#16, 3, 64⟩) (Outbox.start 1#16) threeThreads = some b ∧
      ∀ w ∈ b.gone, FlowControlled 64 w :=
  have hrun : (exec (Outbox.step ⟨1#16, 3, 64⟩) (Outbox.start 1#16) threeThreads).isSome := by
    decide
  ⟨_, (Option.some_get hrun).symm,
    @wagons_flow_controlled ⟨1#16, 3, 64⟩ _ _ (Option.some_get hrun).symm⟩

/-! ## The outbox of a process -/

/-- How often a process holds a wagon, delivered or unstable. -/
def holding (w : Wagon) (p : Proc ntr) : ℕ := weight (List.count w) (stock p)

/-- The wagon that a process fills is that of the outbox, and its own wagons that it has
delivered, keeps as unstable or has sent last have been taken away from there. -/
structure Fills (c : Config) (p : Proc ntr) (b : Outbox) : Prop where
  wagonToSend : b.wagonToSend = p.wagonToSend
  held : ∀ w, w.sender = c.myAddress → 0 < holding w p → w ∈ b.gone
  sent : ∀ id w, (p.lts id).pWtosend = some w → w ∈ b.gone

/-- Some steps of the outbox lead to that of `q`. -/
def LeadsTo (c : Config) (b : Outbox) (q : Proc ntr) : Prop :=
  ∃ ds b', exec (Outbox.step c) b ds = some b' ∧ b'.holder = none ∧ Fills c q b'

section Outboxes

variable {c : Config} {p q : Proc ntr} {b : Outbox}

theorem Fills.congr (h : Fills c p b) (hwagon : q.wagonToSend = p.wagonToSend)
    (hstock : stock q = stock p) (hsent : ∀ id, (q.lts id).pWtosend = (p.lts id).pWtosend) :
    Fills c q b where
  wagonToSend := h.wagonToSend.trans hwagon.symm
  held w hw hheld := by
    rw [holding, hstock] at hheld
    exact h.held w hw hheld
  sent id w hw := h.sent id w ((hsent id).symm.trans hw)

theorem Fills.keeps (h : Fills c p b) (hkeeps : Keeps p q) : Fills c q b := by
  refine h.congr hkeeps.wagonToSend ?_ ?_
  · simp only [stock, hkeeps.wagonsToDeliver, hkeeps.unstableWagons]
  · intro id
    rw [hkeeps.lts]

theorem Fills.leadsTo (h : Fills c p b) (hfree : b.holder = none) : LeadsTo c b p :=
  ⟨[], b, rfl, hfree, h⟩

/-- What is done first to the outbox. -/
theorem LeadsTo.after {b₁ : Outbox} {ds : List OutboxEvent} (h : LeadsTo c b₁ q)
    (hds : exec (Outbox.step c) b ds = some b₁) : LeadsTo c b q := by
  obtain ⟨ds', b', hds', hfree, hfills⟩ := h
  refine ⟨ds ++ ds', b', ?_, hfree, hfills⟩
  rw [exec_append, hds]
  exact hds'

/-! ### Notifications -/

theorem Fills.setWagon (h : Fills c p b) (w : Wagon) :
    Fills c { p with wagonToSend := w } { b with wagonToSend := w } :=
  ⟨rfl, h.held, h.sent⟩

theorem exec_signalArrival (hfree : b.holder = none) (ad circuit : Address) :
    exec (Outbox.step c) b [.signalArrival ad (circuit ||| ad)] =
      some { b with wagonToSend := signalArrival ad circuit b.wagonToSend } := by
  rw [exec_cons, Outbox.step, if_pos hfree]
  rfl

theorem exec_signalDepartures (hfree : b.holder = none) (goneSet circuit : Address) :
    ∃ ds, exec (Outbox.step c) b ds =
      some { b with wagonToSend := signalDepartures goneSet circuit b.wagonToSend } := by
  have hfold : ∀ (ads : List Address) (b : Outbox), b.holder = none →
      exec (Outbox.step c) b (ads.map fun ad => .signalDeparture ad (circuit &&& ~~~goneSet)) =
        some { b with wagonToSend := ads.foldl (fun w ad =>
          signalArrivalDepartures amDeparture ad (circuit &&& ~~~goneSet) w) b.wagonToSend } := by
    intro ads
    induction ads with
    | nil => exact fun b _ => rfl
    | cons ad ads ih =>
      intro b hb
      rw [List.map_cons, exec_cons, Outbox.step, if_pos hb]
      exact ih _ hb
  rw [signalDepartures]
  split
  · exact ⟨_, hfold _ b hfree⟩
  · exact ⟨[], rfl⟩

/-! ### Wagons taken away -/

theorem holding_deliverWagonToSend (w : Wagon) (p : Proc ntr) :
    holding w (deliverWagonToSend c p) = holding w p + [p.wagonToSend].count w := by
  simp only [holding, weight, stock, deliverWagonToSend, List.count_append]
  omega

theorem Fills.takeAway (h : Fills c p b) :
    Fills c (deliverWagonToSend c p) (b.takeAway c.myAddress b.wagonToSend) := by
  refine ⟨rfl, ?_, ?_⟩
  · intro w hw hheld
    rw [holding_deliverWagonToSend] at hheld
    rw [Outbox.takeAway, List.mem_append]
    by_cases hp : 0 < holding w p
    · exact .inl (h.held w hw hp)
    · right
      rw [h.wagonToSend]
      exact List.count_pos_iff.mp (by omega)
  · intro id w hw
    exact List.mem_append_left _ (h.sent id w hw)

theorem Fills.deliver (h : Fills c p b) (hfree : b.holder = none) :
    LeadsTo c b (deliverWagonToSend c p) := ⟨[.deliver], _, rfl, hfree, h.takeAway⟩

theorem holding_flush (w : Wagon) (p : Proc ntr) : holding w (flush p) = holding w p := by
  rw [holding, holding, stock_flush,
    weight_foldl_drain List.count_nil fun l l' => List.count_append]

theorem Fills.flush (h : Fills c p b) : Fills c (flush p) b where
  wagonToSend := h.wagonToSend.trans (flush_wagonToSend p).symm
  held w hw hheld := by
    rw [holding_flush] at hheld
    exact h.held w hw hheld
  sent id w hw := by
    rw [flush_lts] at hw
    exact h.sent id w hw

theorem Fills.becomeAlone (h : Fills c p b) (hfree : b.holder = none) :
    LeadsTo c b (becomeAlone c p) := by
  obtain ⟨ds, hds⟩ :=
    @exec_signalDepartures c b hfree p.goneProc (p.lts p.lis).circuit
  rw [h.wagonToSend] at hds
  have hsignalled := h.setWagon (signalDepartures p.goneProc (p.lts p.lis).circuit p.wagonToSend)
  have hgone : Fills c { p with
      goneProc := 0#16
      wagonToSend := signalDepartures p.goneProc (p.lts p.lis).circuit p.wagonToSend } _ :=
    hsignalled.congr rfl rfl fun _ => rfl
  exact (hgone.flush.deliver hfree).after hds

/-- A visit records no wagon of the process but the one that leaves with the train. -/
theorem holding_trainHandling {w : Wagon} {my : Address} (hw : w.sender = my) (t : Train ntr)
    (p : Proc ntr) :
    holding w (trainHandling my t p) = holding w p + (ownOn t p).toList.count w := by
  have hdrain := weight_drain (f := List.count w) List.count_nil
    (fun l l' => List.count_append) (stock p) (t.stamp.id, nextRound t.stamp p.lts - 2)
  have hnone : (recorded my t p).count w = 0 := by
    rw [List.count_eq_zero, recorded, List.mem_filter]
    rintro ⟨-, hrecorded⟩
    simp [isRecorded, hw] at hrecorded
  rw [holding, holding, stock_trainHandling, weight_extend fun l l' => List.count_append, hdrain,
    List.count_append, hnone, Nat.zero_add]

theorem exec_updateCircuit (h : Fills c p b) (hfree : b.holder = none) (id : Fin ntr)
    (circuit : Address) : ∃ ds, exec (Outbox.step c) b ds =
      some { b with wagonToSend := (updateCircuit id circuit p).2.wagonToSend } := by
  rw [updateCircuit]
  split
  · rw [← h.wagonToSend]
    exact exec_signalDepartures hfree _ _
  · rw [← h.wagonToSend]
    exact ⟨[], rfl⟩

theorem Fills.trainHandling (h : Fills c p b) (hfree : b.holder = none) (t : Train ntr) :
    LeadsTo c b (trainHandling c.myAddress t p) := by
  obtain ⟨ds, hds⟩ := exec_updateCircuit h hfree t.stamp.id t.circuit
  have hgone : ∀ v ∈ b.gone, v ∈ b.gone ++ (ownOn t p).toList :=
    fun v hv => List.mem_append_left _ hv
  have hput : exec (Outbox.step c)
      { b with wagonToSend := (updateCircuit t.stamp.id t.circuit p).2.wagonToSend }
      [.putOnTrain (nextRound t.stamp p.lts)] = some { b with
        wagonToSend := (Trains.trainHandling c.myAddress t p).wagonToSend
        gone := b.gone ++ (ownOn t p).toList } := by
    rw [exec_cons, Outbox.step, if_pos hfree, trainHandling_wagonToSend, ownOn, ownWagon]
    by_cases hfull : (firstMsg (updateCircuit t.stamp.id t.circuit p).2.wagonToSend).isSome
    · simp [hfull, Outbox.takeAway]
    · simp [hfull]
  refine LeadsTo.after ⟨_, _, hput, hfree, rfl, ?_, ?_⟩ hds
  · intro w hw hheld
    rw [holding_trainHandling hw] at hheld
    rw [List.mem_append]
    by_cases hp : 0 < holding w p
    · exact .inl (h.held w hw hp)
    · exact .inr (List.count_pos_iff.mp (by omega))
  · intro id w hw
    by_cases hid : id = t.stamp.id
    · subst hid
      rw [trainHandling_lts] at hw
      exact List.mem_append_right _ (Option.mem_toList.mpr hw)
    · have hsame : (Trains.trainHandling c.myAddress t p).lts id = p.lts id := by
        simp [Trains.trainHandling, hid, (updateCircuit_keeps t.stamp.id t.circuit p).2.2]
      rw [hsame] at hw
      exact hgone w (h.sent id w hw)

/-! ### Treatments -/

theorem Fills.forwardTrain (h : Fills c p b) (stamp : Stamp ntr) (circuit : Address)
    (wagons : List Wagon) : Fills c (forwardTrain c stamp circuit wagons p) b := by
  refine h.congr rfl rfl ?_
  intro id
  rw [Trains.forwardTrain]
  generalize hstamp : (if addrIsMember c.myAddress circuit then
    { stamp with lc := stamp.lc + 1 } else stamp) = stamp'
  by_cases hid : id = stamp'.id
  · subst hid
    simp
  · simp [hid]

theorem Fills.treat {m : Msg ntr} (h : Fills c p b) (hfree : b.holder = none)
    (htreat : Treatment c p m q) : LeadsTo c b q := by
  cases htreat with
  | kept _ _ keeps _ _ => exact (h.keeps keeps).leadsTo hfree
  | forwarded stamp circuit wagons waits =>
    exact (h.forwardTrain stamp circuit wagons).leadsTo hfree
  | confirmed stamp circuit wagons waits =>
    have hforward := h.forwardTrain stamp circuit wagons
    have harrival := @exec_signalArrival c b hfree c.myAddress
      ((Trains.forwardTrain c stamp circuit wagons p).lts stamp.id).circuit
    rw [hforward.wagonToSend] at harrival
    refine LeadsTo.after ?_ harrival
    exact Fills.leadsTo ((hforward.setWagon _).congr rfl rfl fun _ => rfl) hfree
  | started sender waits => exact Fills.leadsTo (h.congr rfl rfl fun _ => rfl) hfree
  | handled stamp circuit wagons several recent =>
    obtain ⟨ds, b', hds, hfree', hfills⟩ := h.trainHandling hfree ⟨stamp, circuit, wagons⟩
    exact ⟨ds, b', hds, hfree', hfills.congr rfl rfl fun _ => rfl⟩
  | alone sender r several keeps =>
    obtain ⟨ds, b', hds, hfree', hfills⟩ := (h.keeps keeps).becomeAlone hfree
    exact ⟨ds, b', hds, hfree', hfills.congr rfl rfl fun _ => rfl⟩

/-- A treatment that does not take the mutex leaves the outbox alone. -/
theorem Fills.treat_free {dial : Address → Bool} {m : Msg ntr} {actions : List (Action ntr)}
    (h : Fills c p b) (hjoined : joined p.automatonState = true)
    (hmutex : takesMutex c p m = false) (hmachine : stateMachine c dial m p = some (q, actions)) :
    Fills c q b := by
  have htreat := stateMachine_treatment hmachine
  cases htreat with
  | kept _ _ keeps _ _ => exact h.keeps keeps
  | forwarded stamp circuit wagons waits | confirmed stamp circuit wagons waits =>
    rw [waits] at hjoined
    cases hjoined
  | started sender waits => exact h.congr rfl rfl fun _ => rfl
  | handled stamp circuit wagons hseveral recent =>
    rw [stateMachine, hseveral] at hmachine
    dsimp only at hmachine
    rw [several] at hmachine
    split at hmachine
    · rename_i hmember
      simp [takesMutex, hseveral, hmember, recent] at hmutex
    · cases hmachine
  | alone sender r hseveral keeps => simp [takesMutex, hseveral] at hmutex

theorem Fills.offlineInit {dial : Address → Bool} {actions : List (Action ntr)}
    (h : Fills c p b) (hfree : b.holder = none)
    (hinit : offlineInit c dial p = some (q, actions)) : LeadsTo c b q := by
  obtain ⟨succ, rfl | rfl⟩ := offlineInit_cases hinit
  · exact Fills.leadsTo (h.congr rfl rfl fun _ => rfl) hfree
  · have harrival := @exec_signalArrival c b hfree c.myAddress c.myAddress
    rw [h.wagonToSend] at harrival
    have hsignalled : Fills c { p with
        succ := succ
        wagonToSend := signalArrival c.myAddress c.myAddress p.wagonToSend } _ :=
      (h.setWagon _).congr rfl rfl fun _ => rfl
    obtain ⟨ds, b', hds, hfree', hfills⟩ := (hsignalled.deliver hfree).after harrival
    exact ⟨ds, b', hds, hfree', hfills.congr rfl rfl fun _ => rfl⟩

end Outboxes

/-! ### Runs of a process -/

/-- The outbox of a process and of its application. -/
structure Mirrors (c : Config) (s : App ntr) (b : Outbox) : Prop where
  fills : Fills c s.proc b
  holder : b.holder = s.writing.message.map fun _ => 0
  joined : s.writing ≠ .idle → joined s.proc.automatonState = true

/-- `newmsg` makes messages of the application. -/
def NewmsgTyped (_ : App ntr) : AppEvent ntr → Prop
  | .newmsg mp => mp.typ = amBroadcast
  | _ => True

section Mirroring

variable {c : Config} {s t : App ntr} {b : Outbox}

theorem Mirrors.holder_none (h : Mirrors c s b) (hwriting : s.writing = .idle) :
    b.holder = none := by
  rw [h.holder, hwriting]
  rfl

theorem LeadsTo.mirrors {q : Proc ntr} (h : LeadsTo c b q) (hwriting : s.writing = .idle) :
    ∃ ds b', exec (Outbox.step c) b ds = some b' ∧ Mirrors c { s with proc := q } b' := by
  obtain ⟨ds, b', hds, hfree, hfills⟩ := h
  refine ⟨ds, b', hds, hfills, ?_, ?_⟩
  · rw [hfree, hwriting]
    rfl
  · intro hbusy
    exact absurd hwriting hbusy

theorem mirrors_step {e : AppEvent ntr} (hs : Mirrors c s b) (htyped : NewmsgTyped s e)
    (h : s.step c e = some t) :
    ∃ ds b', exec (Outbox.step c) b ds = some b' ∧ Mirrors c t b' := by
  cases e with
  | message dial m =>
    rw [App.step] at h
    split at h
    · cases h
    · rename_i hmutex
      obtain ⟨⟨q, actions⟩, hmachine, rfl⟩ := Option.map_eq_some_iff.mp h
      by_cases hwriting : s.writing = .idle
      · have htreat := stateMachine_treatment hmachine
        exact (hs.fills.treat (hs.holder_none hwriting) htreat).mirrors hwriting
      · have hjoined := hs.joined hwriting
        have hfills := hs.fills.treat_free hjoined (by simpa [hwriting] using hmutex) hmachine
        exact ⟨[], b, rfl, hfills, hs.holder, fun _ => stateMachine_joined hmachine hjoined⟩
  | wake dial =>
    rw [App.step] at h
    split at h
    · rename_i hwait
      obtain ⟨⟨q, actions⟩, hsleep, rfl⟩ := Option.map_eq_some_iff.mp h
      have hwriting : s.writing = .idle := by
        by_contra hbusy
        have hjoined := hs.joined hbusy
        rw [hwait] at hjoined
        cases hjoined
      have hcounted : Fills c { s.proc with waitNb := s.proc.waitNb + 1 } b :=
        hs.fills.congr rfl rfl fun _ => rfl
      exact (hcounted.offlineInit (hs.holder_none hwriting) hsleep).mirrors hwriting
    · cases h
  | newmsg mp =>
    rw [App.step] at h
    split at h
    · rename_i henabled
      obtain rfl := Option.some.inj h
      obtain ⟨hwriting, hjoined, hpass⟩ := henabled
      have hmp : (⟨amBroadcast, mp.payload⟩ : Message) = mp := by
        cases mp with
        | mk typ payload =>
          obtain rfl : typ = amBroadcast := htyped
          rfl
      refine ⟨[.newmsg 0 mp.payload], { b with
        wagonToSend := mallocWiw mp s.proc.wagonToSend
        holder := some 0 }, ?_, ⟨rfl, hs.fills.held, hs.fills.sent⟩, rfl, fun _ => hjoined⟩
      rw [exec_cons, Outbox.step, hmp, hs.fills.wagonToSend,
        if_pos ⟨hs.holder_none hwriting, hpass⟩]
      rfl
    · cases h
  | utoBroadcast =>
    obtain ⟨mp, hwriting, rfl⟩ := Option.map_eq_some_iff.mp h
    have hholder : b.holder = some 0 := by
      rw [hs.holder, hwriting]
      rfl
    have hstep : ∀ alone, exec (Outbox.step c) b [.utoBroadcast 0 alone] = some
        { (if alone then b.takeAway c.myAddress b.wagonToSend else b) with holder := none } := by
      intro alone
      rw [exec_cons, Outbox.step, if_pos hholder]
      rfl
    have hjoined : joined s.proc.automatonState = true := hs.joined fun hidle => by
      rw [hidle] at hwriting
      cases hwriting
    by_cases halone : s.proc.automatonState = .aloneInsertWait
    · rw [if_pos halone]
      have hunheld : Fills c s.proc { b with holder := none } :=
        ⟨hs.fills.wagonToSend, hs.fills.held, hs.fills.sent⟩
      exact ⟨_, _, hstep true, hunheld.takeAway, rfl, fun _ => hjoined⟩
    · rw [if_neg halone]
      exact ⟨_, _, hstep false, ⟨hs.fills.wagonToSend, hs.fills.held, hs.fills.sent⟩, rfl,
        fun _ => hjoined⟩
  | unlock =>
    rw [App.step] at h
    split at h
    · rename_i hwriting
      obtain rfl := Option.some.inj h
      have hholder := hs.holder
      rw [hwriting] at hholder
      exact ⟨[], b, rfl, hs.fills, hholder, fun hbusy => absurd rfl hbusy⟩
    · cases h

theorem mirrors_start {dial : Address → Bool} {hntr : 0 < ntr}
    (h : App.start c dial hntr = some s) : ∃ ds b,
      exec (Outbox.step c) (Outbox.start c.myAddress) ds = some b ∧ Mirrors c s b := by
  obtain ⟨⟨q, actions⟩, hinit, rfl⟩ := Option.map_eq_some_iff.mp h
  have hfills : Fills c (Proc.initial c hntr) (Outbox.start c.myAddress) := by
    refine ⟨rfl, ?_, ?_⟩
    · intro w _ hheld
      simp [holding, weight, stock, Proc.initial] at hheld
    · intro id w hw
      cases hw
  have hleads := hfills.offlineInit rfl hinit
  exact @LeadsTo.mirrors _ c ⟨q, .idle, []⟩ _ q hleads rfl

/-- What a process and its application do is done by the outbox. -/
theorem mirrors_run {dial : Address → Bool} {hntr : 0 < ntr} {es : List (AppEvent ntr)}
    (hstart : App.start c dial hntr = some s) (htyped : ∀ e ∈ es, ∀ s, NewmsgTyped s e)
    (hrun : exec (App.step c) s es = some t) : ∃ ds b,
      exec (Outbox.step c) (Outbox.start c.myAddress) ds = some b ∧ Mirrors c t b := by
  obtain ⟨ds, b, hds, hs⟩ := mirrors_start hstart
  obtain ⟨ds', b', hds', ht⟩ := exec_simulates (fun _ _ _ _ hs htyped h => mirrors_step hs htyped h)
    hs (along_of_forall htyped s) hrun
  refine ⟨ds ++ ds', b', ?_, ht⟩
  rw [exec_append, hds]
  exact hds'

/-- A process controls its own wagons that it has delivered, keeps as unstable or has sent
last. -/
theorem own_wagons_flow_controlled {dial : Address → Bool} {hntr : 0 < ntr}
    {es : List (AppEvent ntr)} (hstart : App.start c dial hntr = some s)
    (htyped : ∀ e ∈ es, ∀ s, NewmsgTyped s e) (hrun : exec (App.step c) s es = some t) :
    (∀ w, w.sender = c.myAddress → 0 < holding w t.proc → FlowControlled c.wagonMaxLen w) ∧
      ∀ id w, (t.proc.lts id).pWtosend = some w → FlowControlled c.wagonMaxLen w := by
  obtain ⟨ds, b, hds, hmirrors⟩ := mirrors_run hstart htyped hrun
  have hall : AllControlled c.wagonMaxLen b :=
    exec_invariant (fun _ _ _ => allControlled_step) (allControlled_start c) hds
  constructor
  · intro w hw hheld
    exact hall.2 w (hmirrors.fills.held w hw hheld)
  · intro id w hw
    exact hall.2 w (hmirrors.fills.sent id w hw)

end Mirroring

end UniformBroadcast.Trains
