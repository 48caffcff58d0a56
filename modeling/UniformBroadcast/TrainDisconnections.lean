import UniformBroadcast.TrainConnections

/-!
# Late disconnections

A process learns the loss of a connection by a message in the queue of that connection,
and may treat it after the connection has been replaced. The treatment acts on the
current neighbour, whichever connection was lost: it is harmless only when there is no
successor to forget, and when the predecessor answers a new connection at once.
-/

namespace UniformBroadcast.Trains

open TransitionRuns

variable {ntr : ℕ} {conf : Config}

/-- The treatment leaves the neighbours, the arrivals, the departures and the state. -/
def Harmless (p q : Proc ntr) : Prop :=
  q.succ = p.succ ∧ q.prec = p.prec ∧ q.cameProc = p.cameProc ∧ q.goneProc = p.goneProc ∧
    q.automatonState = p.automatonState

instance (p q : Proc ntr) : Decidable (Harmless p q) := inferInstanceAs (Decidable (_ ∧ _))

/-- The message tells the loss of a connection which is not that to the current
successor, respectively predecessor. -/
def Host.isStale (h : Host ntr) (tcomm : ℕ) : Msg ntr → Bool
  | .disconnectSucc _ => h.succConn ≠ some tcomm
  | .disconnectPred _ => h.precConn ≠ some tcomm
  | _ => false

/-- If the event is the treatment in `SEVERAL` of a stale loss, then it is harmless. -/
def StaleHarmless (conf : Config) (h : Host ntr) (e : HostEvent ntr) : Prop :=
  match e with
  | .treat tcomm _ =>
    match h.held tcomm with
    | some m => h.proc.automatonState = .several → h.isStale tcomm m = true →
        ∀ h' ∈ h.step conf e, Harmless h.proc h'.proc
    | none => True
  | _ => True

/-- There is no successor to forget, respectively the predecessor accepts a connection. -/
def Bears (conf : Config) (reachable : Address) (p : Proc ntr) : Msg ntr → Prop
  | .disconnectSucc _ => p.succ = 0#16
  | .disconnectPred _ => p.prec ≠ conf.myAddress ∧ reaches reachable p.prec = true
  | _ => True

/-- The condition on the steps: the process bears the stale losses that it treats. -/
def Tolerated (conf : Config) (h : Host ntr) (e : HostEvent ntr) : Prop :=
  match e with
  | .treat tcomm reachable =>
    match h.held tcomm with
    | some m => h.proc.automatonState = .several → h.isStale tcomm m = true →
        Bears conf reachable h.proc m
    | none => True
  | _ => True

instance (conf : Config) (reachable : Address) (p : Proc ntr) (m : Msg ntr) :
    Decidable (Bears conf reachable p m) := by
  unfold Bears
  split <;> infer_instance

instance (conf : Config) (h : Host ntr) (e : HostEvent ntr) :
    Decidable (StaleHarmless conf h e) := by
  unfold StaleHarmless
  split
  · split <;> infer_instance
  · infer_instance

instance (conf : Config) (h : Host ntr) (e : HostEvent ntr) : Decidable (Tolerated conf h e) := by
  unfold Tolerated
  split
  · split
    · infer_instance
    · infer_instance
  · infer_instance

/-- In `SEVERAL` the successor is the sender of the last `NEWSUCC` until the loss of the
connection it came on has been treated. -/
def FollowsNewSucc (h : Host ntr) : Prop :=
  h.proc.automatonState = .several → ∀ tcomm sender, h.lastNewSucc = some (tcomm, sender) →
    h.proc.succ = sender

/-! ## The automaton on a loss -/

section Automaton

variable {dial : Address → Bool} {p q : Proc ntr} {actions : List (Action ntr)}

theorem searchPrec_of_dial {fuel : ℕ} (hprec : p.prec ≠ conf.myAddress)
    (hdial : dial p.prec = true) :
    searchPrec conf dial (fuel + 1) p =
      some (p, [.openConnection p.prec true true, .sendOther p.prec true (.newSucc conf.myAddress)],
        true) := by
  rw [searchPrec, if_neg hprec, if_pos hdial]

/-- A search that finds a predecessor has opened a connection to it, and nothing else. -/
theorem searchPrec_found {fuel : ℕ} (h : searchPrec conf dial fuel p = some (q, actions, true)) :
    q.prec ≠ conf.myAddress ∧ dial q.prec = true := by
  induction fuel generalizing p q actions with
  | zero => cases h
  | succ fuel ih =>
    rw [searchPrec] at h
    split at h
    · cases h
    · rename_i hprec
      split at h
      · rename_i hdial
        cases h
        exact ⟨hprec, hdial⟩
      · obtain ⟨prec, -, h⟩ := Option.bind_eq_some_iff.mp h
        obtain ⟨⟨q', actions', found⟩, hrest, h⟩ := Option.bind_eq_some_iff.mp h
        cases h
        exact ih hrest

/-- The search only changes the predecessor and the sets of arrivals and departures, and
opens no connection to a successor. -/
theorem searchPrec_frame {fuel : ℕ} {found : Bool}
    (h : searchPrec conf dial fuel p = some (q, actions, found)) :
    q.succ = p.succ ∧ q.automatonState = p.automatonState ∧ Host.opened false actions = false := by
  induction fuel generalizing p q actions found with
  | zero => cases h
  | succ fuel ih =>
    rw [searchPrec] at h
    split at h
    · cases h
      exact ⟨rfl, rfl, rfl⟩
    · split at h
      · cases h
        exact ⟨rfl, rfl, rfl⟩
      · obtain ⟨prec, -, h⟩ := Option.bind_eq_some_iff.mp h
        obtain ⟨⟨q', actions', found'⟩, hrest, h⟩ := Option.bind_eq_some_iff.mp h
        cases h
        obtain ⟨hsucc, hstate, hopened⟩ := ih hrest
        refine ⟨hsucc, hstate, ?_⟩
        rw [Host.opened, List.any_cons]
        exact hopened

/-- The loss of a successor makes the process forget the one it has. -/
theorem disconnectSucc_harmless_iff {a : Address} (hstate : p.automatonState = .several)
    (h : stateMachine conf dial (.disconnectSucc a) p = some (q, actions)) :
    Harmless p q ↔ p.succ = 0#16 := by
  rw [stateMachine, hstate] at h
  cases h
  constructor
  · intro hharm
    exact hharm.1.symm
  · intro hsucc
    exact ⟨hsucc.symm, rfl, rfl, rfl, rfl⟩

/-- The loss of a predecessor leaves the one that the process has only if it answers. -/
theorem disconnectPred_harmless_iff {a : Address} (hstate : p.automatonState = .several)
    (h : stateMachine conf dial (.disconnectPred a) p = some (q, actions)) :
    Harmless p q ↔ p.prec ≠ conf.myAddress ∧ dial p.prec = true := by
  rw [stateMachine, hstate] at h
  obtain ⟨⟨r, opens, found⟩, hsearch, h⟩ := Option.bind_eq_some_iff.mp h
  constructor
  · rintro ⟨-, hprec, -, -, hq⟩
    cases found with
    | true =>
      cases h
      obtain ⟨hne, hdial⟩ := searchPrec_found hsearch
      rw [← hprec]
      exact ⟨hne, hdial⟩
    | false =>
      cases h
      rw [hstate] at hq
      cases hq
  · rintro ⟨hne, hdial⟩
    rw [searchPrec_of_dial hne hdial] at hsearch
    cases hsearch
    cases h
    exact ⟨rfl, rfl, rfl, rfl, hstate.symm⟩

end Automaton

/-! ## The successor over the treatments -/

/-- The process has been on a circuit, alone or with others. -/
def joined : State → Bool
  | .offlineConnectionAttempt | .offlineConfirmationWait | .wait => false
  | .aloneInsertWait | .aloneConnectionWait | .several => true

section Transitions

variable {dial : Address → Bool} {p q : Proc ntr} {actions : List (Action ntr)} {m : Msg ntr}

theorem nextState_automatonState {s : State} (hs : s ≠ .offlineConnectionAttempt)
    (h : nextState conf dial s p = some (q, actions)) : q.automatonState = s := by
  cases s with
  | offlineConnectionAttempt => exact absurd rfl hs
  | wait =>
    obtain ⟨⟨r, closes⟩, -, h⟩ := Option.bind_eq_some_iff.mp h
    cases h
    rfl
  | aloneInsertWait | offlineConfirmationWait | aloneConnectionWait | several =>
    cases h
    rfl

theorem offlineConnectionAttempt_automatonState (hp : p.automatonState = .offlineConnectionAttempt)
    (h : offlineConnectionAttempt conf dial m p = some (q, actions)) :
    q.automatonState = .wait ∨ q.automatonState = .offlineConnectionAttempt ∨
      q.automatonState = .offlineConfirmationWait := by
  cases m with
  | nakInsert | disconnectPred | disconnectSucc =>
    rw [offlineConnectionAttempt] at h
    exact .inl (nextState_automatonState (by decide) h)
  | insert sender =>
    cases h
    exact .inr (.inl hp)
  | ackInsert sender =>
    rw [offlineConnectionAttempt] at h
    obtain ⟨⟨r, more⟩, hnext, h⟩ := Option.bind_eq_some_iff.mp h
    cases h
    exact .inr (.inr (nextState_automatonState (by decide) hnext))
  | train | newSucc => cases h

/-- A process that waits for its confirmation joins the others on a train. -/
theorem offlineConfirmationWait_several (hp : p.automatonState = .offlineConfirmationWait)
    (h : offlineConfirmationWait conf dial m p = some (q, actions))
    (hq : q.automatonState = .several) :
    Host.opened false actions = false ∧ ∃ st circuit wagons, m = .train st circuit wagons := by
  cases m with
  | newSucc | disconnectPred | disconnectSucc =>
    rw [offlineConfirmationWait] at h
    have hwait := nextState_automatonState (by decide) h
    rw [hwait] at hq
    cases hq
  | insert sender =>
    cases h
    rw [hp] at hq
    cases hq
  | train st circuit wagons =>
    obtain ⟨w, -, h⟩ := Option.bind_eq_some_iff.mp h
    refine ⟨?_, st, circuit, wagons, rfl⟩
    dsimp only at h
    split at h
    · cases h
      rfl
    · cases h
      rfl
  | ackInsert | nakInsert => cases h

theorem aloneInsertWait_automatonState (hp : p.automatonState = .aloneInsertWait)
    (h : aloneInsertWait conf dial m p = some (q, actions)) :
    q.automatonState = .aloneInsertWait ∨ q.automatonState = .aloneConnectionWait := by
  cases m with
  | disconnectPred | disconnectSucc =>
    cases h
    exact .inl hp
  | insert sender =>
    rw [aloneInsertWait] at h
    obtain ⟨⟨r, more⟩, hnext, h⟩ := Option.bind_eq_some_iff.mp h
    cases h
    exact .inr (nextState_automatonState (by decide) hnext)
  | train | ackInsert | nakInsert | newSucc => cases h

/-- A process that waits for a connection joins the others on a `NEWSUCC`. -/
theorem aloneConnectionWait_automatonState (hp : p.automatonState = .aloneConnectionWait)
    (h : aloneConnectionWait conf dial m p = some (q, actions)) :
    q.automatonState = .aloneInsertWait ∨ q.automatonState = .aloneConnectionWait ∨
      (q.automatonState = .several ∧ Host.opened false actions = false ∧
        ∃ a, m = .newSucc a ∧ q.succ = a) := by
  cases m with
  | disconnectPred =>
    rw [aloneConnectionWait] at h
    exact .inl (nextState_automatonState (by decide) h)
  | insert sender =>
    cases h
    exact .inr (.inl hp)
  | newSucc sender =>
    rw [aloneConnectionWait] at h
    obtain ⟨⟨r, more⟩, hnext, h⟩ := Option.bind_eq_some_iff.mp h
    cases hnext
    cases h
    refine .inr (.inr ⟨rfl, ?_, sender, rfl, rfl⟩)
    simp [Host.opened]
  | train | ackInsert | nakInsert | disconnectSucc => cases h

/-- What the process in `SEVERAL` makes of its successor and of its state. -/
theorem several_cases (hp : p.automatonState = .several)
    (h : several conf dial m p = some (q, actions)) :
    (q.automatonState = .aloneInsertWait) ∨
    Host.opened false actions = false ∧
      ((q.automatonState = .several ∧ ∃ a, m = .newSucc a ∧ q.succ = a) ∨
      ((∃ a, m = .disconnectSucc a) ∧ q = { p with succ := 0#16 }) ∨
      (q.automatonState = .several ∧ Host.named m q = none ∧ q.succ = p.succ)) := by
  cases m with
  | train st circuit wagons =>
    rw [several] at h
    split at h
    · split at h
      · obtain ⟨w, -, h⟩ := Option.bind_eq_some_iff.mp h
        cases h
        refine .inr ⟨?_, .inr (.inr ⟨?_, rfl, ?_⟩)⟩
        · split <;> rfl
        · exact (trainHandling_automatonState conf.myAddress ⟨st, circuit, w⟩ p).trans hp
        · exact trainHandling_succ conf.myAddress ⟨st, circuit, w⟩ p
      · cases h
        exact .inr ⟨rfl, .inr (.inr ⟨hp, rfl, rfl⟩)⟩
    · cases h
  | insert sender =>
    cases h
    exact .inr ⟨rfl, .inr (.inr ⟨hp, rfl, rfl⟩)⟩
  | newSucc sender =>
    cases h
    refine .inr ⟨?_, .inl ⟨hp, sender, rfl, rfl⟩⟩
    split <;> simp [Host.opened]
  | disconnectPred a =>
    obtain ⟨⟨r, opens, found⟩, hsearch, h⟩ := Option.bind_eq_some_iff.mp h
    obtain ⟨hsucc, -, hopened⟩ := searchPrec_frame hsearch
    cases found with
    | true =>
      cases h
      refine .inr ⟨?_, .inr (.inr ⟨rfl, rfl, hsucc⟩)⟩
      rw [List.append_nil]
      exact hopened
    | false =>
      cases h
      exact .inl rfl
  | disconnectSucc a =>
    cases h
    exact .inr ⟨rfl, .inr (.inl ⟨⟨a, rfl⟩, rfl⟩)⟩
  | ackInsert | nakInsert => cases h

/-- The ways in which a treatment ends in `SEVERAL`. -/
theorem stateMachine_several (h : stateMachine conf dial m p = some (q, actions))
    (hq : q.automatonState = .several) :
    Host.opened false actions = false ∧
      ((p.automatonState = .offlineConfirmationWait ∧
        ∃ st circuit wagons, m = .train st circuit wagons) ∨
      (∃ a, m = .newSucc a ∧ q.succ = a) ∨
      p.automatonState = .several ∧
        ((∃ a, m = .disconnectSucc a) ∧ q = { p with succ := 0#16 } ∨
        Host.named m q = none ∧ q.succ = p.succ)) := by
  rw [stateMachine] at h
  split at h
  case h_1 hp =>
    rcases offlineConnectionAttempt_automatonState hp h with hs | hs | hs <;> rw [hs] at hq <;>
      cases hq
  case h_2 hp =>
    obtain ⟨hopened, htrain⟩ := offlineConfirmationWait_several hp h hq
    exact ⟨hopened, .inl ⟨hp, htrain⟩⟩
  case h_3 hp =>
    cases h
    rw [hp] at hq
    cases hq
  case h_4 hp =>
    rcases aloneInsertWait_automatonState hp h with hs | hs <;> rw [hs] at hq <;> cases hq
  case h_5 hp =>
    rcases aloneConnectionWait_automatonState hp h with hs | hs | ⟨-, hopened, hs⟩
    · rw [hs] at hq
      cases hq
    · rw [hs] at hq
      cases hq
    · exact ⟨hopened, .inr (.inl hs)⟩
  case h_6 hp =>
    rcases several_cases hp h with hs | ⟨hopened, ⟨-, hs⟩ | hs | ⟨-, hs⟩⟩
    · rw [hs] at hq
      cases hq
    · exact ⟨hopened, .inr (.inl hs)⟩
    · exact ⟨hopened, .inr (.inr ⟨hp, .inl hs⟩)⟩
    · exact ⟨hopened, .inr (.inr ⟨hp, .inr hs⟩)⟩

/-- A process that has been on a circuit does not go back to its beginnings. -/
theorem stateMachine_joined (h : stateMachine conf dial m p = some (q, actions))
    (hp : joined p.automatonState = true) : joined q.automatonState = true := by
  rw [stateMachine] at h
  split at h
  case h_1 hs | h_2 hs | h_3 hs =>
    rw [hs] at hp
    cases hp
  case h_4 hs =>
    rcases aloneInsertWait_automatonState hs h with hs | hs <;> rw [hs] <;> rfl
  case h_5 hs =>
    rcases aloneConnectionWait_automatonState hs h with hs | hs | ⟨hs, -⟩ <;> rw [hs] <;> rfl
  case h_6 hs =>
    rcases several_cases hs h with hq | ⟨-, ⟨hq, -⟩ | ⟨-, hq⟩ | ⟨hq, -⟩⟩
    · rw [hq]
      rfl
    · rw [hq]
      rfl
    · rw [hq]
      exact hp
    · rw [hq]
      rfl

end Transitions

/-! ## The process with its connections -/

namespace Host

theorem opened_cons {a : Action ntr} {actions : List (Action ntr)} {isPred : Bool}
    (h : opened isPred (a :: actions) = false) :
    opened isPred [a] = false ∧ opened isPred actions = false := by
  rw [opened, List.any_cons, Bool.or_eq_false_iff] at h
  refine ⟨?_, h.2⟩
  rw [opened, List.any_cons, List.any_nil, Bool.or_false]
  exact h.1

/-- A call that opens no connection to a successor leaves the one there is. -/
theorem act_succConn {h h' : Host ntr} {a : Action ntr} (ha : h.act a = some h')
    (hopened : opened false [a] = false) : h'.succConn = h.succConn := by
  cases a with
  | openConnection addr isPred opens =>
    cases opens with
    | true =>
      cases isPred with
      | true =>
        obtain ⟨rank, -, ha⟩ := Option.bind_eq_some_iff.mp ha
        obtain ⟨array, -, ha⟩ := Option.bind_eq_some_iff.mp ha
        cases ha
        rfl
      | false => cases hopened
    | false =>
      cases ha
      rfl
  | closeConnection addr isPred => exact closeConnection_succConn ha
  | participate | sendOther | sendTrain | sleep =>
    cases ha
    rfl

/-- The step that treats a message. -/
theorem step_treat_spec {h h' : Host ntr} {tcomm : ℕ} {reachable : Address} {m : Msg ntr}
    (hheld : h.held tcomm = some m) (hstep : h.step conf (.treat tcomm reachable) = some h') :
    ∃ q actions, stateMachine conf (reaches reachable) m h.proc = some (q, actions) ∧
      h'.proc = q ∧ h'.running = runs ⟨tcomm, m, h.proc, h.precConn, actions⟩ ∧
      h'.succConn = h.succConnAfter tcomm m q ∧ h'.lastNewSucc = h.lastNewSuccAfter tcomm m q := by
  rw [step] at hstep
  split at hstep
  · rw [hheld, Option.bind_some] at hstep
    obtain ⟨⟨q, actions⟩, hq, rfl⟩ := Option.map_eq_some_iff.mp hstep
    refine ⟨q, actions, hq, ?_⟩
    dsimp only
    split
    · exact ⟨rfl, rfl, rfl, rfl⟩
    · exact ⟨rfl, rfl, rfl, rfl⟩
  · cases hstep

end Host

/-- A step is harmless exactly when it meets the condition. -/
theorem staleHarmless_iff {h h' : Host ntr} {e : HostEvent ntr} (hstep : h.step conf e = some h') :
    StaleHarmless conf h e ↔ Tolerated conf h e := by
  cases e with
  | treat tcomm reachable =>
    rw [StaleHarmless, Tolerated]
    cases hheld : h.held tcomm with
    | none => exact Iff.rfl
    | some m =>
      obtain ⟨q, actions, hq, hproc, -⟩ := Host.step_treat_spec hheld hstep
      simp only [hstep, Option.mem_def, Option.some.injEq, forall_eq', hproc]
      refine forall_congr' fun hstate => ?_
      cases m with
      | disconnectSucc a => rw [disconnectSucc_harmless_iff hstate hq, Bears]
      | disconnectPred a => rw [disconnectPred_harmless_iff hstate hq, Bears]
      | train | insert | ackInsert | nakInsert | newSucc => simp [Host.isStale]
  | accept | receive | lose | dequeue | call | wake | broadcast => exact Iff.rfl

/-- What holds of the successor in every state reached. -/
structure Followed (h : Host ntr) : Prop where
  several : h.proc.automatonState = .several → ∀ tcomm sender,
    h.lastNewSucc = some (tcomm, sender) → h.proc.succ = sender ∧ h.succConn = some tcomm
  offline : joined h.proc.automatonState = false → h.lastNewSucc = none
  running : h.proc.automatonState = .several → ∀ r ∈ h.running, Host.opened false r.calls = false

theorem Followed.of_frame {h h' : Host ntr} (hf : Followed h) (hframe : Host.Frame h h')
    (hconn : h'.succConn = h.succConn) : Followed h' := by
  constructor
  · rw [hframe.proc, hframe.lastNewSucc, hconn]
    exact hf.several
  · rw [hframe.proc, hframe.lastNewSucc]
    exact hf.offline
  · rw [hframe.proc, hframe.running]
    exact hf.running

theorem followed_treat {h h' : Host ntr} {tcomm : ℕ} {reachable : Address} {m : Msg ntr}
    (hf : Followed h) (hheld : h.held tcomm = some m)
    (hok : Tolerated conf h (.treat tcomm reachable))
    (hstep : h.step conf (.treat tcomm reachable) = some h') : Followed h' := by
  obtain ⟨q, actions, hq, hproc, hrunning, hconn, hlast⟩ := Host.step_treat_spec hheld hstep
  rw [Tolerated] at hok
  simp only [hheld] at hok
  -- the last `NEWSUCC` is an old one unless the message is a `NEWSUCC`
  have hold : ∀ tc sender, Host.named m q = none →
      h.lastNewSuccAfter tcomm m q = some (tc, sender) →
      h.lastNewSucc = some (tc, sender) ∧ (isDisconnect m = true → tc ≠ tcomm) := by
    intro tc sender hnamed hnew
    rw [Host.lastNewSuccAfter, hnamed] at hnew
    simp only at hnew
    split at hnew
    · cases hnew
    · rename_i hlost
      refine ⟨hnew, fun hdisc heq => hlost ⟨hdisc, ?_⟩⟩
      rw [hnew, ← heq]
      rfl
  constructor
  · intro hstate tc sender hnew
    rw [hproc] at hstate
    rw [hlast] at hnew
    rw [hproc, hconn, Host.succConnAfter]
    rcases (stateMachine_several hq hstate).2 with ⟨hp, st, circuit, wagons, rfl⟩ |
      ⟨a, rfl, hsucc⟩ | ⟨hp, ⟨⟨a, rfl⟩, rfl⟩ | ⟨hnamed, hsucc⟩⟩
    · obtain ⟨hlast', -⟩ := hold tc sender rfl hnew
      rw [hf.offline (by rw [hp]; rfl)] at hlast'
      cases hlast'
    · have hnamed : Host.named (.newSucc a : Msg ntr) q = some a := if_pos hstate
      rw [Host.lastNewSuccAfter, hnamed] at hnew
      cases hnew
      rw [hnamed]
      exact ⟨hsucc, rfl⟩
    · obtain ⟨hlast', hne⟩ := hold tc sender rfl hnew
      obtain ⟨hsucc, hcurrent⟩ := hf.several hp tc sender hlast'
      have hstale : h.isStale tcomm (.disconnectSucc a) = true := by
        rw [Host.isStale, hcurrent]
        simpa using hne rfl
      have hzero : h.proc.succ = 0#16 := hok hp hstale
      rw [if_neg (by simp [Host.named]), if_pos hzero.symm]
      exact ⟨hzero.symm.trans hsucc, hcurrent⟩
    · obtain ⟨hlast', -⟩ := hold tc sender hnamed hnew
      obtain ⟨hsender, hcurrent⟩ := hf.several hp tc sender hlast'
      rw [hnamed, if_neg (by simp), if_pos hsucc]
      exact ⟨hsucc.trans hsender, hcurrent⟩
  · intro hoff
    rw [hproc] at hoff
    have hp : joined h.proc.automatonState = false := by
      by_contra hp
      rw [stateMachine_joined hq (Bool.eq_true_of_not_eq_false hp)] at hoff
      cases hoff
    have hnamed : Host.named m q = none := by
      cases m with
      | newSucc sender =>
        refine if_neg fun hs => ?_
        rw [hs] at hoff
        cases hoff
      | train | insert | ackInsert | nakInsert | disconnectPred | disconnectSucc => rfl
    rw [hlast, Host.lastNewSuccAfter, hnamed, hf.offline hp]
    simp
  · intro hstate r hr
    rw [hproc] at hstate
    rw [hrunning, Host.runs] at hr
    split at hr
    · cases hr
    · obtain rfl := Option.some.inj hr
      exact (stateMachine_several hq hstate).1

/-- The next call of a treatment, which opens no connection to a successor in `SEVERAL`. -/
theorem followed_call {h h' : Host ntr} (hf : Followed h) (hstep : h.step conf .call = some h') :
    Followed h' := by
  obtain ⟨r, hr, hcall⟩ := Option.bind_eq_some_iff.mp hstep
  rw [Host.call] at hcall
  split at hcall
  · cases hcall
  · rename_i a calls hcalls
    obtain ⟨k, hk, rfl⟩ := Option.map_eq_some_iff.mp hcall
    have hframe := Host.act_frame hk
    have hopened : h.proc.automatonState = .several →
        Host.opened false [a] = false ∧ Host.opened false calls = false := by
      intro hstate
      have hr' := hf.running hstate r hr
      rw [hcalls] at hr'
      exact Host.opened_cons hr'
    constructor
    · intro hstate
      dsimp only at hstate ⊢
      rw [hframe.proc] at hstate ⊢
      rw [hframe.lastNewSucc, Host.act_succConn hk (hopened hstate).1]
      exact hf.several hstate
    · dsimp only
      rw [hframe.proc, hframe.lastNewSucc]
      exact hf.offline
    · intro hstate r' hr'
      dsimp only at hstate hr'
      rw [hframe.proc] at hstate
      rw [Host.runs] at hr'
      split at hr'
      · cases hr'
      · obtain rfl := Option.some.inj hr'
        exact (hopened hstate).2

theorem followed_of_none {h : Host ntr} (hnone : h.lastNewSucc = none)
    (hrunning : h.running = none) : Followed h where
  several := by
    intro _ tcomm sender hnew
    rw [hnone] at hnew
    cases hnew
  offline _ := hnone
  running := by
    intro _ r hr
    rw [hrunning] at hr
    cases hr

theorem followed_step {h h' : Host ntr} {e : HostEvent ntr} (hf : Followed h)
    (hok : Tolerated conf h e) (hstep : h.step conf e = some h') : Followed h' := by
  cases e with
  | accept =>
    cases hstep
    exact hf.of_frame ⟨rfl, rfl, rfl⟩ rfl
  | receive tcomm m =>
    rw [Host.step] at hstep
    split at hstep
    · cases hstep
      exact hf.of_frame ⟨rfl, rfl, rfl⟩ rfl
    · cases hstep
  | lose tcomm =>
    rw [Host.step] at hstep
    split at hstep
    · split at hstep
      · cases hstep
        exact hf.of_frame ⟨rfl, rfl, rfl⟩ rfl
      · obtain ⟨hproc, hrunning, hlast⟩ := Host.closeConnection_frame hstep
        have hconn := Host.closeConnection_succConn hstep
        exact hf.of_frame ⟨hproc, hrunning, hlast⟩ hconn
    · cases hstep
  | dequeue tcomm =>
    rw [Host.step] at hstep
    split at hstep
    · rw [Host.dequeue] at hstep
      split at hstep
      · cases hstep
      · cases hstep
        exact hf.of_frame ⟨rfl, rfl, rfl⟩ rfl
      · obtain ⟨array, -, rfl⟩ := Option.map_eq_some_iff.mp hstep
        exact hf.of_frame ⟨rfl, rfl, rfl⟩ rfl
    · cases hstep
  | treat tcomm reachable =>
    cases hheld : h.held tcomm with
    | none => simp [Host.step, hheld] at hstep
    | some m => exact followed_treat hf hheld hok hstep
  | call => exact followed_call hf hstep
  | wake reachable =>
    rw [Host.step] at hstep
    split at hstep
    · rename_i hwait
      obtain ⟨⟨q, actions⟩, -, hstep⟩ := Option.bind_eq_some_iff.mp hstep
      have hframe := Host.actAll_frame hstep
      refine followed_of_none (hframe.lastNewSucc.trans (hf.offline (by rw [hwait.1]; rfl)))
        (hframe.running.trans (Option.isNone_iff_eq_none.mp hwait.2))
    · cases hstep
  | broadcast mp =>
    obtain ⟨q, hq, rfl⟩ := Option.map_eq_some_iff.mp hstep
    have hsame : q.automatonState = h.proc.automatonState ∧ q.succ = h.proc.succ := by
      rw [broadcast] at hq
      split at hq
      · cases hq
      · cases hq
        split <;> exact ⟨rfl, rfl⟩
    constructor
    · intro hstate
      rw [hsame.2]
      exact hf.several (hsame.1.symm.trans hstate)
    · intro hoff
      exact hf.offline (hsame.1 ▸ hoff)
    · intro hstate
      exact hf.running (hsame.1.symm.trans hstate)

theorem followed_start {hntr : 0 < ntr} {reachable : Address} {h : Host ntr}
    (hstart : Host.start conf hntr reachable = some h) : Followed h := by
  obtain ⟨⟨q, actions⟩, -, hstart⟩ := Option.bind_eq_some_iff.mp hstart
  have hframe := Host.actAll_frame hstart
  exact followed_of_none hframe.lastNewSucc hframe.running

/-- `c` inserts itself between `b` and the process, then `b` crashes and `c` makes itself known as
the successor; its `NEWSUCC` is treated before the loss of `b`. -/
def lateLoss (b c : Address) : List (HostEvent ntr) :=
  neighbour b ++ .accept :: .receive 2 (.insert c) :: treatment 2 0#16 2 ++
    [.lose 1, .accept, .receive 3 (.newSucc c)] ++ treatment 3 0#16 (ntr + 1) ++ treatment 1 0#16 0

end UniformBroadcast.Trains
