import UniformBroadcast.TrainContinuityPath

/-!
# What the treatment of a message does

The effect of each message on the process that treats it, and that of its actions on the
channels.
-/

namespace UniformBroadcast.Trains.Continuity

variable {N ntr : ℕ}

/-! ## On the process -/

/-- A process takes the train `st`: it is the last train sent, its clock has advanced. -/
structure Took (st : Stamp ntr) (p q : Proc ntr) : Prop where
  state : q.automatonState = p.automatonState
  prec : q.prec = p.prec
  succ : q.succ = p.succ
  lis : q.lis = st.id
  other : ∀ id, id ≠ st.id → q.lts id = p.lts id
  id : (q.lts st.id).stamp.id = st.id
  lc : (q.lts st.id).stamp.lc = st.lc + 1

section Process

variable {c : Config} {dial : Address → Bool} {p q : Proc ntr} {actions : List (Action ntr)}
  {st : Stamp ntr} {circuit : Address} {wagons : Option (List Wagon)} {sender : Address}

theorem trainHandling_took (my : Address) (t : Train ntr) (p : Proc ntr) :
    Took t.stamp p { trainHandling my t p with lis := t.stamp.id } := by
  have hprec : (updateCircuit t.stamp.id t.circuit p).2.prec = p.prec := by
    rw [updateCircuit]
    split <;> rfl
  have hlts : (updateCircuit t.stamp.id t.circuit p).2.lts = p.lts := by
    rw [updateCircuit]
    split <;> rfl
  constructor
  · exact trainHandling_automatonState my t p
  · exact hprec
  · exact trainHandling_succ my t p
  · rfl
  · intro id hid
    simp [trainHandling, setAt, hid, hlts]
  · simp [trainHandling, setAt]
  · simp [trainHandling, setAt]

/-- In `SEVERAL` a train is taken, and sent to the successor if there is one, when it is
recent, and ignored when it is not. -/
theorem several_train_cases (hstate : p.automatonState = .several)
    (h : stateMachine c dial (.train st circuit wagons) p = some (q, actions)) :
    isRecentTrain st p.lts p.lis = true ∧ Took st p q ∧
        actions = (if q.succ ≠ 0#16 then [.sendTrain q.succ (q.lts st.id)] else []) ∨
      isRecentTrain st p.lts p.lis = false ∧ q = p ∧ actions = [] := by
  simp only [stateMachine, hstate, several] at h
  split at h
  · split at h
    · rename_i hrecent
      obtain ⟨wagons, -, h⟩ := Option.bind_eq_some_iff.mp h
      cases h
      exact .inl ⟨hrecent, trainHandling_took c.myAddress ⟨st, circuit, wagons⟩ p, rfl⟩
    · rename_i hrecent
      cases h
      exact .inr ⟨by simpa using hrecent, rfl, rfl⟩
  · cases h

theorem several_newSucc (hstate : p.automatonState = .several) :
    stateMachine c dial (.newSucc sender) p =
      some ({ p with succ := sender },
        (if p.succ ≠ 0#16 then [.closeConnection p.succ false] else []) ++
          (trainsAfter p.lis).map fun id => .sendTrain sender (p.lts id)) := by
  simp only [stateMachine, hstate, several]

theorem several_disconnectSucc (hstate : p.automatonState = .several) :
    stateMachine c dial (.disconnectSucc sender) p = some ({ p with succ := 0#16 }, []) := by
  simp only [stateMachine, hstate, several]

theorem several_insert (hstate : p.automatonState = .several) :
    stateMachine c dial (.insert sender) p =
      some ({ p with prec := sender, cameProc := addrAppendArrived p.cameProc sender },
        [.closeConnection p.prec true, .sendOther sender true (.ackInsert p.prec)]) := by
  simp only [stateMachine, hstate, several]

/-- The predecessor does not answer and the one before it does. -/
theorem several_disconnectPred {prec : Address} (hstate : p.automatonState = .several)
    (hne : p.prec ≠ c.myAddress) (hlost : dial p.prec = false)
    (hprec : addrPrec p.prec (p.lts p.lis).circuit = some prec) (hne' : prec ≠ c.myAddress)
    (hfound : dial prec = true)
    (h : stateMachine c dial (.disconnectPred sender) p = some (q, actions)) :
    q.automatonState = .several ∧ q.succ = p.succ ∧ q.lts = p.lts ∧ q.lis = p.lis ∧
      actions = [.openConnection p.prec true false, .openConnection prec true true,
        .sendOther prec true (.newSucc c.myAddress)] := by
  rw [stateMachine, hstate] at h
  simp only [several, searchPrec, hne, hlost, hprec, hne', hfound, nextState, if_false, if_true,
    Bool.false_eq_true, Option.bind_eq_bind, Option.bind_some, Option.pure_def] at h
  cases h
  exact ⟨rfl, rfl, rfl, rfl, rfl⟩

theorem connectionAttempt_ackInsert (hstate : p.automatonState = .offlineConnectionAttempt) :
    stateMachine c dial (.ackInsert sender) p =
      some ({ p with prec := sender, automatonState := .offlineConfirmationWait },
        [.openConnection sender true (dial sender),
          .sendOther sender true (.newSucc c.myAddress)]) := by
  rw [stateMachine, hstate]
  rfl

theorem forwardTrain_lts (c : Config) (st : Stamp ntr) (circuit : Address) (wagons : List Wagon)
    (p : Proc ntr) : ∃ l : Lts ntr, l.stamp.id = st.id ∧
      (l.stamp.lc = st.lc ∨ l.stamp.lc = st.lc + 1) ∧
      (forwardTrain c st circuit wagons p).lts = setAt p.lts st.id l := by
  by_cases hmember : addrIsMember c.myAddress circuit = true
  · simp only [forwardTrain, hmember, if_true]
    exact ⟨_, rfl, .inr rfl, rfl⟩
  · simp only [forwardTrain, if_neg hmember]
    exact ⟨_, rfl, .inl rfl, rfl⟩

/-- A process that waits for its confirmation lets a train through; it is in the circuit
when all its last trains list it. -/
theorem confirmationWait_train (hstate : p.automatonState = .offlineConfirmationWait)
    (h : stateMachine c dial (.train st circuit wagons) p = some (q, actions)) :
    q.succ = p.succ ∧ (∀ id, id ≠ st.id → q.lts id = p.lts id) ∧
      (q.lts st.id).stamp.id = st.id ∧
      ((q.lts st.id).stamp.lc = st.lc ∨ (q.lts st.id).stamp.lc = st.lc + 1) ∧
      actions = [.sendTrain q.succ (q.lts st.id)] ∧
      (q.automatonState = .offlineConfirmationWait ∨
        q.automatonState = .several ∧ q.lis = st.id ∧
          ∀ id, addrIsMember c.myAddress (q.lts id).circuit = true) := by
  rw [stateMachine, hstate] at h
  simp only [offlineConfirmationWait, Option.bind_eq_bind] at h
  obtain ⟨wagons, -, h⟩ := Option.bind_eq_some_iff.mp h
  obtain ⟨l, hid, hlc, hlts⟩ := forwardTrain_lts c st circuit wagons p
  have hsucc : (forwardTrain c st circuit wagons p).succ = p.succ := rfl
  have hwait : (forwardTrain c st circuit wagons p).automatonState = p.automatonState := rfl
  generalize forwardTrain c st circuit wagons p = p' at h hlts hsucc hwait
  have hself : p'.lts st.id = l := by rw [hlts, setAt, Function.update_self]
  have hother : ∀ id, id ≠ st.id → p'.lts id = p.lts id := by
    intro id hne
    rw [hlts, setAt, Function.update_of_ne hne]
  split at h
  · rename_i hall
    cases h
    refine ⟨hsucc, hother, hself ▸ hid, hself ▸ hlc, rfl, .inr ⟨rfl, rfl, ?_⟩⟩
    intro id
    exact List.all_eq_true.mp hall id (List.mem_finRange id)
  · cases h
    exact ⟨hsucc, hother, hself ▸ hid, hself ▸ hlc, rfl, .inl (hwait.trans hstate)⟩

end Process

/-! ## On the channels -/

section Channels

variable (M : Members (N + 1)) (s : Circle N ntr) (i j : Fin (N + 1)) (b : Bool)
  (m : Msg ntr × Tag)

@[simp] theorem find_addr : find M (M.addr j) = some j := by
  rw [find, List.find?_eq_some_iff_getElem]
  refine ⟨beq_self_eq_true _, j.val, by rw [List.length_finRange]; exact j.isLt, by simp, ?_⟩
  intro k hk
  rw [List.getElem_finRange, Bool.not_eq_true', beq_eq_false_iff_ne]
  intro h
  have hv := congrArg Fin.val (M.injective h)
  simp only [Fin.val_cast] at hv
  omega

@[simp] theorem dial_addr : s.dial M (M.addr j) = s.alive j := by
  rw [Bool.eq_iff_iff, Circle.dial, List.any_eq_true]
  constructor
  · rintro ⟨k, -, hk⟩
    rw [Bool.and_eq_true, beq_iff_eq] at hk
    exact M.injective hk.2 ▸ hk.1
  · intro h
    exact ⟨j, List.mem_finRange j, by simp [h]⟩

theorem addr_ne_zero : M.addr j ≠ 0#16 := ne_zero_of_addrIsMember (M.member j)

@[simp] theorem write_addr : s.write M i (M.addr j) b m = s.post ⟨i, j, b⟩ m := by
  rw [Circle.write, find_addr]

variable {s}

theorem post_open {c : Chan N} (h : s.shut c = false) :
    s.post c m = { s with chans := Function.update s.chans c (s.chans c ++ [m]) } := by
  rw [Circle.post, if_neg (by simp [h])]

theorem post_shut {c : Chan N} (h : s.shut c = true) : s.post c m = s := by
  rw [Circle.post, if_pos h]

variable (s)

theorem close_shut (h : s.shut ⟨i, j, b⟩ = true) : s.close M i (M.addr j) b = s := by
  rw [Circle.close, find_addr]
  exact if_pos h

theorem close_open (h : s.shut ⟨i, j, b⟩ = false) : s.close M i (M.addr j) b =
    { s with
      chans := Function.update s.chans ⟨i, j, b⟩ (s.chans ⟨i, j, b⟩ ++ [notice M i b])
      shut := Function.update (Function.update s.shut ⟨i, j, b⟩ true) ⟨j, i, !b⟩ true } := by
  rw [Circle.close, find_addr]
  simp only [h, Bool.false_eq_true, if_false, post_open _ h]
  rfl

/-- The actions change nothing but the channels. -/
structure SameProcs (s s' : Circle N ntr) : Prop where
  procs : s'.procs = s.procs
  alive : s'.alive = s.alive
  tags : s'.tags = s.tags
  accepted : s'.accepted = s.accepted

theorem SameProcs.trans {s s' s'' : Circle N ntr} (h : SameProcs s s') (h' : SameProcs s' s'') :
    SameProcs s s'' :=
  ⟨h'.procs.trans h.procs, h'.alive.trans h.alive, h'.tags.trans h.tags,
    h'.accepted.trans h.accepted⟩

theorem sameProcs_post (c : Chan N) : SameProcs s (s.post c m) := by
  rw [Circle.post]
  split <;> exact ⟨rfl, rfl, rfl, rfl⟩

theorem sameProcs_write (addr : Address) : SameProcs s (s.write M i addr b m) := by
  rw [Circle.write]
  split
  · exact ⟨rfl, rfl, rfl, rfl⟩
  · exact sameProcs_post s m _

theorem sameProcs_close (addr : Address) : SameProcs s (s.close M i addr b) := by
  rw [Circle.close]
  split
  · exact ⟨rfl, rfl, rfl, rfl⟩
  · dsimp only
    split
    · exact ⟨rfl, rfl, rfl, rfl⟩
    · obtain ⟨hprocs, halive, htags, haccepted⟩ := sameProcs_post s (notice M i b) _
      exact ⟨hprocs, halive, htags, haccepted⟩

theorem sameProcs_act (a : Action ntr) : SameProcs s (s.act M i a) := by
  cases a with
  | sendTrain addr lts => exact sameProcs_write M s i _ _ addr
  | sendOther addr isPred msg => exact sameProcs_write M s i _ _ addr
  | closeConnection addr isPred => exact sameProcs_close M s i _ addr
  | participate | openConnection | sleep => exact ⟨rfl, rfl, rfl, rfl⟩

theorem sameProcs_actAll (actions : List (Action ntr)) : SameProcs s (s.actAll M i actions) := by
  induction actions generalizing s with
  | nil => exact ⟨rfl, rfl, rfl, rfl⟩
  | cons a actions ih => exact (sameProcs_act M s i a).trans (ih _)

theorem actAll_cons (a : Action ntr) (actions : List (Action ntr)) :
    s.actAll M i (a :: actions) = (s.act M i a).actAll M i actions := rfl

theorem actAll_append (actions actions' : List (Action ntr)) :
    s.actAll M i (actions ++ actions') = (s.actAll M i actions).actAll M i actions' :=
  List.foldl_append

/-- Trains sent again on a channel that is open. -/
theorem actAll_sends (h : s.shut ⟨i, j, false⟩ = false) (ids : List (Fin ntr))
    (lts : Fin ntr → Lts ntr) :
    s.actAll M i (ids.map fun id => .sendTrain (M.addr j) (lts id)) =
      { s with chans := Function.update s.chans ⟨i, j, false⟩ (s.chans ⟨i, j, false⟩ ++
          ids.map fun id => (trainMsg (lts id), s.tags i (lts id).stamp.id)) } := by
  induction ids generalizing s with
  | nil =>
    rw [List.map_nil, List.map_nil, List.append_nil, Function.update_eq_self]
    rfl
  | cons id ids ih =>
    rw [List.map_cons, actAll_cons, Circle.act, write_addr, post_open _ h]
    have hrest := ih { s with
      chans := Function.update s.chans ⟨i, j, false⟩
        (s.chans ⟨i, j, false⟩ ++ [(trainMsg (lts id), s.tags i (lts id).stamp.id)]) } h
    apply hrest.trans
    simp

end Channels

end UniformBroadcast.Trains.Continuity
