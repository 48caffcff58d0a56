import UniformBroadcast.TrainAlone

/-!
# Broadcasts while alone

The application hands its messages by `newmsg` and `utoBroadcast`. It holds `mutexWagonToSend`
from the one to the end of the other, and the treatments that need this mutex wait; the others
also fall between the test of `automatonState` and the unlocking in `utoBroadcast`. A process
that waits alone for insertions delivers each message at once, unless it comes back from
`ALONE_CONNECTION_WAIT` with messages in its wagon.
-/

namespace UniformBroadcast.Trains

open TransitionRuns Draining

variable {ntr : ℕ}

/-- Where the application is between its `newmsg` and the end of its `utoBroadcast`; it holds
`mutexWagonToSend` unless it is idle. -/
inductive Writing where
  | idle
  /-- `newmsg` has returned. -/
  | filling (mp : Message)
  /-- `utoBroadcast` has tested `automatonState`. -/
  | unlocking
  deriving DecidableEq, Repr

/-- The message that is in `wagonToSend` and not yet handed to `utoBroadcast`. -/
def Writing.message : Writing → Option Message
  | filling mp => some mp
  | idle | unlocking => none

/-- A process and the application on top of it. -/
structure App (ntr : ℕ) where
  proc : Proc ntr
  writing : Writing
  /-- The messages handed to `utoBroadcast`. -/
  handed : List Message

/-- `utoBroadcast` is its test of `automatonState` with the delivery that follows; `unlock` is its
end. -/
inductive AppEvent (ntr : ℕ) where
  | message (dial : Address → Bool) (m : Msg ntr)
  | wake (dial : Address → Bool)
  | newmsg (mp : Message)
  | utoBroadcast
  | unlock

/-- The treatment takes `mutexWagonToSend`. -/
def takesMutex (c : Config) (p : Proc ntr) : Msg ntr → Bool
  | .train stamp circuit wagons =>
    match p.automatonState with
    | .several => addrIsMember c.myAddress circuit && isRecentTrain stamp p.lts p.lis
    | .offlineConfirmationWait =>
      isInLts c.myAddress (forwardTrain c stamp circuit (wagons.getD []) p).lts
    | _ => false
  | .insert _ => p.automatonState = .aloneInsertWait
  | .disconnectPred _ => p.automatonState = .several
  | _ => false

/-- `trInit` returns to the application once the process has joined, so `newmsg` is not
called before. -/
def App.step (c : Config) (s : App ntr) : AppEvent ntr → Option (App ntr)
  | .message dial m =>
    if s.writing ≠ .idle ∧ takesMutex c s.proc m then none
    else (stateMachine c dial m s.proc).map fun r => { s with proc := r.1 }
  | .wake dial =>
    if s.proc.automatonState = .wait then
      (sleepTreatment c dial s.proc).map fun r => { s with proc := r.1 }
    else none
  | .newmsg mp =>
    if s.writing = .idle ∧ joined s.proc.automatonState ∧
        ¬ newmsgWaits c.wagonMaxLen mp s.proc.wagonToSend then
      some { s with
        proc := { s.proc with wagonToSend := mallocWiw mp s.proc.wagonToSend }
        writing := .filling mp }
    else none
  | .utoBroadcast => s.writing.message.map fun mp =>
    { proc :=
        if s.proc.automatonState = .aloneInsertWait then deliverWagonToSend c s.proc else s.proc
      writing := .unlocking
      handed := s.handed ++ [mp] }
  | .unlock => if s.writing = .unlocking then some { s with writing := .idle } else none

/-- `automatonInit`. -/
def App.start (c : Config) (dial : Address → Bool) (h : 0 < ntr) : Option (App ntr) :=
  (automatonInit c dial h).map fun r => ⟨r.1, .idle, []⟩

/-- The messages that some wagons carry, and how often `mp` is among them. -/
def carried (mp : Message) (wagons : List Wagon) : ℕ := (wagons.flatMap Wagon.msgs).count mp

/-- When the process waits alone for insertions and nothing is being written, no message is
left in `wagonToSend`: all that was handed to `utoBroadcast` has been put in
`wagonsToDeliver`. -/
def NothingStuck (s : App ntr) : Prop :=
  s.proc.automatonState = .aloneInsertWait → s.writing = .idle →
    s.proc.wagonToSend.msgs = [] ∧ ∀ mp, s.handed.count mp ≤ carried mp s.proc.wagonsToDeliver

/-- The process does not come back from `ALONE_CONNECTION_WAIT` with messages in its wagon,
except those that a `utoBroadcast` that has still to test `automatonState` will deliver. -/
def ReturnsEmpty (s : App ntr) : AppEvent ntr → Prop
  | .message _ (.disconnectPred _) =>
    s.proc.automatonState = .aloneConnectionWait → s.writing.message = none →
      s.proc.wagonToSend.msgs = []
  | _ => True

instance (s : App ntr) : DecidablePred (ReturnsEmpty s)
  | .message _ (.disconnectPred _) => inferInstanceAs (Decidable (_ → _ → _))
  | .message _ (.train _ _ _) | .message _ (.insert _) | .message _ (.ackInsert _)
  | .message _ (.nakInsert _) | .message _ (.disconnectSucc _) | .message _ (.newSucc _)
  | .wake _ | .newmsg _ | .utoBroadcast | .unlock => inferInstanceAs (Decidable True)

/-! ## Counting messages -/

@[simp] theorem carried_nil (mp : Message) : carried mp [] = 0 := rfl

theorem carried_append (mp : Message) (wagons wagons' : List Wagon) :
    carried mp (wagons ++ wagons') = carried mp wagons + carried mp wagons' := by
  simp [carried]

theorem carried_singleton (mp : Message) (w : Wagon) : carried mp [w] = w.msgs.count mp := by
  simp [carried]

/-- How often a process holds a message: delivered, unstable or still to be sent. -/
def copies (mp : Message) (p : Proc ntr) : ℕ :=
  weight (carried mp) (stock p) + p.wagonToSend.msgs.count mp

theorem prefix_signalDepartures (gone circuit : Address) (w : Wagon) :
    w.msgs <+: (signalDepartures gone circuit w).msgs := by
  have hfold : ∀ (ads : List Address) (w : Wagon), w.msgs <+:
      (ads.foldl
        (fun w ad => signalArrivalDepartures amDeparture ad (circuit &&& ~~~gone) w) w).msgs := by
    intro ads
    induction ads with
    | nil => exact fun w => List.prefix_rfl
    | cons ad ads ih =>
      intro w
      have hone : w.msgs <+:
          (signalArrivalDepartures amDeparture ad (circuit &&& ~~~gone) w).msgs :=
        List.prefix_append _ _
      exact hone.trans (ih _)
  rw [signalDepartures]
  split
  · exact hfold _ w
  · exact List.prefix_rfl

theorem copies_flush (mp : Message) (p : Proc ntr) : copies mp (flush p) = copies mp p := by
  rw [copies, copies, stock_flush, weight_foldl_drain (carried_nil mp) (carried_append mp),
    flush_wagonToSend]

theorem copies_deliverWagonToSend (c : Config) (mp : Message) (p : Proc ntr) :
    copies mp (deliverWagonToSend c p) = copies mp p := by
  have hmoved := carried_append mp p.wagonsToDeliver [p.wagonToSend]
  rw [carried_singleton] at hmoved
  simp only [copies, weight, stock, deliverWagonToSend, newWiw, List.count_nil]
  omega

theorem copies_updateCircuit (mp : Message) (id : Fin ntr) (circuit : Address) (p : Proc ntr) :
    p.wagonToSend.msgs.count mp ≤ (updateCircuit id circuit p).2.wagonToSend.msgs.count mp := by
  rw [updateCircuit]
  split
  · exact (prefix_signalDepartures _ _ _).sublist.count_le mp
  · exact Nat.le_refl _

theorem copies_trainHandling (mp : Message) (my : Address) (t : Train ntr) (p : Proc ntr) :
    copies mp p ≤ copies mp (trainHandling my t p) := by
  have hupdate := copies_updateCircuit mp t.stamp.id t.circuit p
  have hweight := weight_drain (carried_nil mp) (carried_append mp) (stock p)
    (t.stamp.id, nextRound t.stamp p.lts - 2)
  rw [copies, copies, stock_trainHandling, weight_extend (carried_append mp), hweight,
    carried_append, trainHandling_wagonToSend]
  cases hown : ownOn t p with
  | none =>
    simp only [Option.isSome_none, Bool.false_eq_true, if_false]
    omega
  | some w =>
    have hmsgs : w.msgs = (updateCircuit t.stamp.id t.circuit p).2.wagonToSend.msgs := by
      rw [ownOn, ownWagon] at hown
      split at hown
      · obtain rfl := Option.some.inj hown
        rfl
      · cases hown
    rw [Option.toList_some, carried_singleton, hmsgs]
    omega

theorem Keeps.copies {p q : Proc ntr} (h : Keeps p q) (mp : Message) :
    copies mp q = copies mp p := by
  simp only [Trains.copies, stock, h.wagonToSend, h.wagonsToDeliver, h.unstableWagons]

theorem copies_becomeAlone (c : Config) (mp : Message) (p : Proc ntr) :
    copies mp p ≤ copies mp (becomeAlone c p) := by
  have hsignal := (prefix_signalDepartures p.goneProc (p.lts p.lis).circuit
    p.wagonToSend).sublist.count_le mp
  rw [becomeAlone, copies_deliverWagonToSend, copies_flush]
  exact Nat.add_le_add_left hsignal _

/-- No treatment loses a message. -/
theorem copies_treat {c : Config} {p q : Proc ntr} {m : Msg ntr} (h : Treatment c p m q)
    (mp : Message) : copies mp p ≤ copies mp q := by
  cases h with
  | kept _ _ keeps _ _ => exact Nat.le_of_eq (keeps.copies mp).symm
  | forwarded => exact Nat.le_refl _
  | confirmed stamp circuit wagons _ =>
    exact Nat.add_le_add_left ((List.prefix_append _ _).sublist.count_le mp) _
  | started => exact Nat.le_refl _
  | handled stamp circuit wagons _ _ => exact copies_trainHandling mp _ ⟨stamp, circuit, wagons⟩ p
  | alone _ r _ keeps =>
    rw [← keeps.copies mp]
    exact copies_becomeAlone c mp r

theorem copies_offlineInit {c : Config} {dial : Address → Bool} {p q : Proc ntr}
    {actions : List (Action ntr)} (h : offlineInit c dial p = some (q, actions)) (mp : Message) :
    copies mp p ≤ copies mp q := by
  obtain ⟨succ, rfl | rfl⟩ := offlineInit_cases h
  · exact Nat.le_refl _
  · have hdeliver := copies_deliverWagonToSend c mp { p with
      succ := succ
      wagonToSend := signalArrival c.myAddress c.myAddress p.wagonToSend }
    refine Nat.le_trans ?_ (Nat.le_of_eq hdeliver.symm)
    exact Nat.add_le_add_left ((List.prefix_append _ _).sublist.count_le mp) _

/-! ## The messages handed over -/

/-- What holds of a process and its application in every run that meets `ReturnsEmpty`. -/
structure Accounted (s : App ntr) : Prop where
  held : ∀ mp, (s.handed ++ s.writing.message.toList).count mp ≤ copies mp s.proc
  joined : s.writing ≠ .idle → joined s.proc.automatonState = true
  outside : s.proc.automatonState ≠ .several → ∀ id round, s.proc.unstableWagons id round = []
  empty : s.proc.automatonState = .aloneInsertWait → s.writing.message = none →
    s.proc.wagonToSend.msgs = []

theorem Accounted.nothingStuck {s : App ntr} (h : Accounted s) : NothingStuck s := by
  intro halone hwriting
  have hempty := h.empty halone (by rw [hwriting]; rfl)
  refine ⟨hempty, ?_⟩
  intro mp
  have hheld := h.held mp
  have hunstable := h.outside (by rw [halone]; decide)
  have hzero : ∑ k, carried mp ((stock s.proc).table k) = 0 := by
    apply Finset.sum_eq_zero
    intro k _
    have hk : (stock s.proc).table k = [] := hunstable k.1 k.2
    rw [hk, carried_nil]
  rw [hwriting, copies, weight, hzero, hempty] at hheld
  simpa [stock, Writing.message] using hheld

theorem accounted_message {c : Config} {s : App ntr} {dial : Address → Bool} {m : Msg ntr}
    {q : Proc ntr} {actions : List (Action ntr)} (hs : Accounted s)
    (hok : ReturnsEmpty s (.message dial m))
    (h : stateMachine c dial m s.proc = some (q, actions)) : Accounted { s with proc := q } := by
  have htreat := stateMachine_treatment h
  constructor
  case held =>
    intro mp
    exact (hs.held mp).trans (copies_treat htreat mp)
  case joined =>
    intro hwriting
    exact stateMachine_joined h (hs.joined hwriting)
  case outside => exact treat_outside htreat hs.outside
  case empty =>
    intro hq hwriting
    dsimp only at hq ⊢
    cases htreat with
    | kept _ _ keeps _ alone =>
      rw [keeps.wagonToSend]
      rcases alone hq with hp | ⟨hp, a, rfl⟩
      · exact hs.empty hp hwriting
      · exact hok hp hwriting
    | forwarded stamp circuit wagons waits =>
      rw [forwardTrain, waits] at hq
      cases hq
    | confirmed => cases hq
    | started => cases hq
    | handled stamp circuit wagons several _ =>
      have hstate := trainHandling_automatonState c.myAddress ⟨stamp, circuit, wagons⟩ s.proc
      dsimp only at hq
      rw [hstate, several] at hq
      cases hq
    | alone => rfl

/-- A process that has still to join has no application that writes. -/
theorem Accounted.idle {s : App ntr} (hs : Accounted s) (hwait : s.proc.automatonState = .wait) :
    s.writing = .idle := by
  by_contra hwriting
  have hjoined := hs.joined hwriting
  rw [hwait] at hjoined
  cases hjoined

theorem accounted_wake {c : Config} {s : App ntr} {dial : Address → Bool} {q : Proc ntr}
    {actions : List (Action ntr)} (hs : Accounted s) (hwait : s.proc.automatonState = .wait)
    (h : sleepTreatment c dial s.proc = some (q, actions)) : Accounted { s with proc := q } := by
  have hwriting := hs.idle hwait
  have hunstable := hs.outside (by rw [hwait]; decide)
  constructor
  case held =>
    intro mp
    exact (hs.held mp).trans (copies_offlineInit h mp)
  case joined =>
    intro hbusy
    exact absurd hwriting hbusy
  case outside =>
    intro _
    obtain ⟨succ, rfl | rfl⟩ := offlineInit_cases h
    · exact hunstable
    · exact hunstable
  case empty =>
    intro hq _
    obtain ⟨succ, rfl | rfl⟩ := offlineInit_cases h
    · cases hq
    · rfl

theorem accounted_newmsg {s : App ntr} {mp : Message} (hs : Accounted s)
    (hwriting : s.writing = .idle) (hjoined : joined s.proc.automatonState = true) :
    Accounted { s with
      proc := { s.proc with wagonToSend := mallocWiw mp s.proc.wagonToSend }
      writing := .filling mp } := by
  constructor
  case held =>
    intro mp'
    have hheld := hs.held mp'
    rw [hwriting, Writing.message, Option.toList_none, List.append_nil] at hheld
    have hcount : (mallocWiw mp s.proc.wagonToSend).msgs.count mp' =
        s.proc.wagonToSend.msgs.count mp' + [mp].count mp' := List.count_append ..
    rw [Writing.message, List.count_append, Option.toList_some, copies]
    dsimp only
    rw [hcount, ← Nat.add_assoc]
    exact Nat.add_le_add_right hheld _
  case joined =>
    intro _
    exact hjoined
  case outside => exact hs.outside
  case empty =>
    intro _ hnone
    cases hnone

/-- The message goes to `wagonsToDeliver` in `ALONE_INSERT_WAIT`, and otherwise stays in the
wagon. -/
theorem accounted_utoBroadcast {c : Config} {s : App ntr} {mp : Message} (hs : Accounted s)
    (hwriting : s.writing.message = some mp) :
    Accounted {
      proc :=
        if s.proc.automatonState = .aloneInsertWait then deliverWagonToSend c s.proc else s.proc
      writing := .unlocking
      handed := s.handed ++ [mp] } := by
  have hheld := hs.held
  rw [hwriting, Option.toList_some] at hheld
  have hjoined := hs.joined fun hidle => by
    rw [hidle] at hwriting
    cases hwriting
  split
  case isTrue halone =>
    constructor
    case held =>
      intro mp'
      rw [copies_deliverWagonToSend]
      simpa [Writing.message] using hheld mp'
    case joined => exact fun _ => hjoined
    case outside => exact hs.outside
    case empty =>
      intro _ _
      rfl
  case isFalse halone =>
    constructor
    case held =>
      intro mp'
      simpa [Writing.message] using hheld mp'
    case joined => exact fun _ => hjoined
    case outside => exact hs.outside
    case empty =>
      intro hq
      exact absurd hq halone

theorem accounted_step {c : Config} {s t : App ntr} {e : AppEvent ntr} (hs : Accounted s)
    (hok : ReturnsEmpty s e) (h : s.step c e = some t) : Accounted t := by
  cases e with
  | message dial m =>
    rw [App.step] at h
    split at h
    · cases h
    · obtain ⟨⟨q, actions⟩, hmachine, rfl⟩ := Option.map_eq_some_iff.mp h
      exact accounted_message hs hok hmachine
  | wake dial =>
    rw [App.step] at h
    split at h
    · rename_i hwait
      obtain ⟨⟨q, actions⟩, hsleep, rfl⟩ := Option.map_eq_some_iff.mp h
      exact accounted_wake hs hwait hsleep
    · cases h
  | newmsg mp =>
    rw [App.step] at h
    split at h
    · rename_i henabled
      obtain rfl := Option.some.inj h
      exact accounted_newmsg hs henabled.1 henabled.2.1
    · cases h
  | utoBroadcast =>
    obtain ⟨mp, hwriting, rfl⟩ := Option.map_eq_some_iff.mp h
    exact accounted_utoBroadcast hs hwriting
  | unlock =>
    rw [App.step] at h
    split at h
    · rename_i hwriting
      obtain rfl := Option.some.inj h
      have hheld := hs.held
      have hempty := hs.empty
      rw [hwriting] at hheld hempty
      exact ⟨hheld, fun hbusy => absurd rfl hbusy, hs.outside, hempty⟩
    · cases h

/-- `utoBroadcast` has tested `automatonState` and leaves messages behind. -/
def Left (s : App ntr) : Prop :=
  s.proc.automatonState = .aloneInsertWait ∧ s.writing = .unlocking ∧ s.proc.wagonToSend.msgs ≠ []

/-- A process that comes back from `ALONE_CONNECTION_WAIT` with messages leaves them stuck, at
once or when `utoBroadcast` ends. -/
theorem left_of_not_returnsEmpty {c : Config} {s t : App ntr} {e : AppEvent ntr}
    (hstuck : NothingStuck t) (hnot : ¬ ReturnsEmpty s e) (h : s.step c e = some t) : Left t := by
  cases e with
  | message dial m =>
    cases m with
    | disconnectPred a =>
      simp only [ReturnsEmpty, not_forall] at hnot
      obtain ⟨hstate, hwriting, hmsgs⟩ := hnot
      rw [App.step, takesMutex, if_neg (by simp [hstate]), stateMachine, hstate] at h
      obtain rfl := Option.some.inj h
      cases hphase : s.writing with
      | idle => exact absurd (hstuck rfl hphase).1 hmsgs
      | filling mp =>
        rw [hphase] at hwriting
        cases hwriting
      | unlocking => exact ⟨rfl, rfl, hmsgs⟩
    | train | insert | ackInsert | nakInsert | disconnectSucc | newSucc => exact absurd trivial hnot
  | wake | newmsg | utoBroadcast | unlock => exact absurd trivial hnot

/-- Until it unlocks `mutexWagonToSend`, `utoBroadcast` keeps the insertions away. -/
theorem left_step {c : Config} {s t : App ntr} {e : AppEvent ntr} (hs : Left s)
    (hstuck : NothingStuck t) (h : s.step c e = some t) : Left t := by
  obtain ⟨hstate, hwriting, hmsgs⟩ := hs
  cases e with
  | message dial m =>
    rw [App.step] at h
    split at h
    · cases h
    · rename_i hfree
      obtain ⟨⟨q, actions⟩, hmachine, rfl⟩ := Option.map_eq_some_iff.mp h
      rw [stateMachine, hstate] at hmachine
      cases m with
      | disconnectPred | disconnectSucc =>
        cases hmachine
        exact ⟨hstate, hwriting, hmsgs⟩
      | insert sender => exact absurd ⟨by rw [hwriting]; decide, by simp [takesMutex, hstate]⟩ hfree
      | train | ackInsert | nakInsert | newSucc => cases hmachine
  | wake dial =>
    rw [App.step, hstate] at h
    cases h
  | newmsg mp =>
    rw [App.step, hwriting] at h
    simp at h
  | utoBroadcast =>
    rw [App.step, hwriting] at h
    cases h
  | unlock =>
    rw [App.step, if_pos hwriting] at h
    obtain rfl := Option.some.inj h
    exact absurd (hstuck hstate rfl).1 hmsgs

theorem accounted_start {c : Config} {dial : Address → Bool} {hntr : 0 < ntr} {s : App ntr}
    (h : App.start c dial hntr = some s) : Accounted s := by
  obtain ⟨⟨q, actions⟩, hinit, rfl⟩ := Option.map_eq_some_iff.mp h
  constructor
  case held => simp [Writing.message]
  case joined => simp
  case outside =>
    intro _
    obtain ⟨succ, rfl | rfl⟩ := offlineInit_cases hinit
    · exact fun _ _ => rfl
    · exact fun _ _ => rfl
  case empty =>
    intro hq _
    obtain ⟨succ, rfl | rfl⟩ := offlineInit_cases hinit
    · cases hq
    · rfl

/-- Nothing is stuck in a process that waits alone when it never comes back from
`ALONE_CONNECTION_WAIT` with messages in its wagon, and only then in the runs that do not end
within `utoBroadcast`. -/
theorem nothing_stuck_when_alone {c : Config} {dial : Address → Bool} {hntr : 0 < ntr}
    {s t : App ntr} {es : List (AppEvent ntr)} (hstart : App.start c dial hntr = some s)
    (hrun : exec (App.step c) s es = some t) :
    (Along (App.step c) ReturnsEmpty s es → Throughout (App.step c) NothingStuck s es) ∧
    (t.writing ≠ .unlocking → Throughout (App.step c) NothingStuck s es →
      Along (App.step c) ReturnsEmpty s es) := by
  constructor
  · intro hok
    exact throughout_of_along (fun _ => Accounted.nothingStuck)
      (fun _ _ _ hs hok hstep => accounted_step hs hok hstep) (accounted_start hstart) hok
  · intro hend hall
    exact along_of_not_doomed
      (fun _ _ t hstuck hnot hstep => left_of_not_returnsEmpty (hstuck t hstep) hnot hstep)
      (fun _ _ t hleft hstuck hstep => left_step hleft (hstuck t hstep) hstep) hall.along hrun
      fun hleft => hend hleft.2.1

/-- The first process of a circuit with one train. -/
def firstProcess : Option (App 1) :=
  App.start ⟨1#16, 3, 64⟩ (fun _ => false) Nat.one_pos

/-- A broadcast, an insertion that is lost before it is complete, and a broadcast that is written
while another insertion is lost. -/
def lostInsertion : List (AppEvent 1) :=
  [.newmsg ⟨amBroadcast, [5#8]⟩, .utoBroadcast, .unlock, .message (fun _ => false) (.insert 2#16),
    .message (fun _ => false) (.disconnectPred 2#16), .message (fun _ => false) (.insert 4#16),
    .newmsg ⟨amBroadcast, [6#8]⟩, .message (fun _ => false) (.disconnectPred 4#16), .utoBroadcast,
    .unlock]

theorem nothing_stuck_after_lostInsertion : Throughout (App.step ⟨1#16, 3, 64⟩) NothingStuck
    (firstProcess.get (by decide)) lostInsertion :=
  have hrun :
      (exec (App.step ⟨1#16, 3, 64⟩) (firstProcess.get (by decide)) lostInsertion).isSome := by
    decide
  (nothing_stuck_when_alone (Option.some_get _).symm (Option.some_get hrun).symm).1 (by decide)

/-- The broadcast is made before the insertion is lost. -/
def broadcastDuringInsertion : List (AppEvent 1) :=
  [.message (fun _ => false) (.insert 2#16), .newmsg ⟨amBroadcast, [5#8]⟩, .utoBroadcast, .unlock,
    .message (fun _ => false) (.disconnectPred 2#16)]

theorem stuck_after_broadcastDuringInsertion :
    ¬ Throughout (App.step ⟨1#16, 3, 64⟩) NothingStuck (firstProcess.get (by decide))
      broadcastDuringInsertion := by
  rintro ⟨-, h⟩
  obtain ⟨-, h⟩ := h _ rfl
  obtain ⟨-, h⟩ := h _ rfl
  obtain ⟨-, h⟩ := h _ rfl
  obtain ⟨-, h⟩ := h _ rfl
  have hempty := (h _ rfl rfl rfl).1
  revert hempty
  decide

end UniformBroadcast.Trains
