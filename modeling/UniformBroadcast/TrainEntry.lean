import UniformBroadcast.TrainRecovery

/-!
# Entering the circuit

A process that waits for its confirmation enters the circuit when all its last trains list
it. A confirmation that fails leaves the trains of that attempt where they are, and the next
attempt takes them for its own.
-/

namespace UniformBroadcast.Trains

open TransitionRuns

variable {ntr : ℕ}

/-- A process, and which of its last trains it has received since the last `ACK_INSERT`. -/
structure Entrant (ntr : ℕ) where
  proc : Proc ntr
  received : Finset (Fin ntr)

def Entrant.receivedAfter (s : Entrant ntr) : ProcEvent ntr → Finset (Fin ntr)
  | .message _ (.ackInsert _) =>
    if s.proc.automatonState = .offlineConnectionAttempt then ∅ else s.received
  | .message _ (.train st _ _) =>
    if s.proc.automatonState = .offlineConfirmationWait then insert st.id s.received
    else s.received
  | _ => s.received

def Entrant.step (c : Config) (s : Entrant ntr) (e : ProcEvent ntr) : Option (Entrant ntr) :=
  (procStep c s.proc e).map fun p => ⟨p, s.receivedAfter e⟩

/-- When the process enters the circuit, all its last trains have been received in the current
attempt, and list it. -/
def EntersFresh (c : Config) (s : Entrant ntr) (e : ProcEvent ntr) : Prop :=
  ∀ s' ∈ s.step c e, s.proc.automatonState = .offlineConfirmationWait →
    s'.proc.automatonState = .several →
    ∀ id, id ∈ s'.received ∧ addrIsMember c.myAddress (s'.proc.lts id).circuit = true

/-- An attempt that is accepted finds no last train that lists the process, unless there is
only one train. -/
def ClearStart (c : Config) (s : Entrant ntr) : ProcEvent ntr → Prop
  | .message _ (.ackInsert _) => s.proc.automatonState = .offlineConnectionAttempt →
    ∀ id, addrIsMember c.myAddress (s.proc.lts id).circuit = true → ntr = 1
  | _ => True

instance (c : Config) (s : Entrant ntr) (e : ProcEvent ntr) : Decidable (EntersFresh c s e) := by
  unfold EntersFresh
  infer_instance

instance (c : Config) (s : Entrant ntr) : DecidablePred (ClearStart c s)
  | .message _ (.ackInsert _) => inferInstanceAs (Decidable (_ → ∀ _, _ → _))
  | .message _ (.train _ _ _) | .message _ (.insert _) | .message _ (.nakInsert _)
  | .message _ (.disconnectPred _) | .message _ (.disconnectSucc _) | .message _ (.newSucc _)
  | .wake _ | .broadcast _ => inferInstanceAs (Decidable True)

/-! ## The automaton -/

section Automaton

variable {c : Config} {dial : Address → Bool} {p q : Proc ntr} {m : Msg ntr}
  {actions : List (Action ntr)}

/-- How a process comes to wait for its confirmation, or goes on waiting. -/
theorem confirmationWait_cases (h : stateMachine c dial m p = some (q, actions))
    (hq : q.automatonState = .offlineConfirmationWait) :
    p.automatonState = .offlineConnectionAttempt ∧ (∃ a, m = .ackInsert a) ∧ q.lts = p.lts ∨
    p.automatonState = .offlineConfirmationWait ∧
      ((∃ a, m = .insert a) ∧ q.lts = p.lts ∨ ∃ st circuit wagons,
        m = .train st circuit (some wagons) ∧ q = forwardTrain c st circuit wagons p) := by
  rw [stateMachine] at h
  split at h
  case h_1 hp =>
    left
    cases m with
    | nakInsert | disconnectPred | disconnectSucc =>
      simp only [offlineConnectionAttempt] at h
      rw [nextState_automatonState (by decide) h] at hq
      cases hq
    | insert sender =>
      cases h
      exact absurd (hp.symm.trans hq) (by decide)
    | ackInsert sender =>
      simp only [offlineConnectionAttempt] at h
      obtain ⟨⟨r, more⟩, hnext, h⟩ := Option.bind_eq_some_iff.mp h
      cases hnext
      cases h
      exact ⟨hp, ⟨sender, rfl⟩, rfl⟩
    | train | newSucc => cases h
  case h_2 hp =>
    right
    cases m with
    | newSucc | disconnectPred | disconnectSucc =>
      simp only [offlineConfirmationWait] at h
      rw [nextState_automatonState (by decide) h] at hq
      cases hq
    | insert sender =>
      cases h
      exact ⟨hp, .inl ⟨⟨sender, rfl⟩, rfl⟩⟩
    | train st circuit wagons =>
      simp only [offlineConfirmationWait] at h
      obtain ⟨w, rfl, hsome⟩ := Option.bind_eq_some_iff.mp h
      split at hsome
      · obtain ⟨⟨r, more⟩, hnext, hsome⟩ := Option.bind_eq_some_iff.mp hsome
        cases hnext
        cases hsome
        cases hq
      · cases hsome
        exact ⟨hp, .inr ⟨st, circuit, w, rfl, rfl⟩⟩
    | ackInsert | nakInsert => cases h
  case h_3 hp =>
    cases h
    exact absurd (hp.symm.trans hq) (by decide)
  case h_4 hp =>
    rcases aloneInsertWait_automatonState hp h with hs | hs
    · exact absurd (hs.symm.trans hq) (by decide)
    · exact absurd (hs.symm.trans hq) (by decide)
  case h_5 hp =>
    rcases aloneConnectionWait_automatonState hp h with hs | hs | ⟨hs, -⟩
    · exact absurd (hs.symm.trans hq) (by decide)
    · exact absurd (hs.symm.trans hq) (by decide)
    · exact absurd (hs.symm.trans hq) (by decide)
  case h_6 hp =>
    rcases several_cases hp h with hs | ⟨-, ⟨hs, -⟩ | ⟨-, rfl⟩ | ⟨hs, -⟩⟩
    · exact absurd (hs.symm.trans hq) (by decide)
    · exact absurd (hs.symm.trans hq) (by decide)
    · exact absurd (hp.symm.trans hq) (by decide)
    · exact absurd (hs.symm.trans hq) (by decide)

/-- A process enters the circuit on a train. -/
theorem enters_cases (h : stateMachine c dial m p = some (q, actions))
    (hp : p.automatonState = .offlineConfirmationWait) (hq : q.automatonState = .several) :
    ∃ st circuit wagons, m = .train st circuit (some wagons) ∧
      q.lts = (forwardTrain c st circuit wagons p).lts ∧
      isInLts c.myAddress q.lts = true := by
  rw [stateMachine, hp] at h
  cases m with
  | newSucc | disconnectPred | disconnectSucc =>
    simp only [offlineConfirmationWait] at h
    rw [nextState_automatonState (by decide) h] at hq
    cases hq
  | insert sender =>
    cases h
    rw [hp] at hq
    cases hq
  | train st circuit wagons =>
    simp only [offlineConfirmationWait] at h
    obtain ⟨w, rfl, hsome⟩ := Option.bind_eq_some_iff.mp h
    split at hsome
    · rename_i hall
      obtain ⟨⟨r, more⟩, hnext, hsome⟩ := Option.bind_eq_some_iff.mp hsome
      cases hnext
      cases hsome
      exact ⟨st, circuit, w, rfl, rfl, hall⟩
    · cases hsome
      exact absurd (hp.symm.trans hq) (by decide)
  | ackInsert | nakInsert => cases h

end Automaton

/-! ## Attempts that start clear -/

/-- While the process waits for its confirmation, the last trains that list it have been
received in the current attempt. -/
def OnlyReceivedList (c : Config) (s : Entrant ntr) : Prop :=
  s.proc.automatonState = .offlineConfirmationWait →
    ∀ id, addrIsMember c.myAddress (s.proc.lts id).circuit = true → id ∈ s.received ∨ ntr = 1

section Attempts

variable {c : Config} {s s' : Entrant ntr} {e : ProcEvent ntr}

theorem forwardTrain_lts_of_ne {st : Stamp ntr} {circuit : Address} {wagons : List Wagon}
    {p : Proc ntr} {id : Fin ntr} (hid : id ≠ st.id) :
    (forwardTrain c st circuit wagons p).lts id = p.lts id := by
  have hstamp : (if addrIsMember c.myAddress circuit = true then { st with lc := st.lc + 1 }
      else st).id = st.id := by
    split <;> rfl
  rw [forwardTrain]
  dsimp only
  rw [hstamp, setAt, Function.update_of_ne hid]

theorem onlyReceivedList_step (hs : OnlyReceivedList c s) (hclear : ClearStart c s e)
    (h : s.step c e = some s') : OnlyReceivedList c s' := by
  obtain ⟨q, hq, rfl⟩ := Option.map_eq_some_iff.mp h
  intro hwait id hlist
  dsimp only at hwait hlist ⊢
  cases e with
  | message dial m =>
    obtain ⟨⟨q, actions⟩, hm, rfl⟩ := Option.map_eq_some_iff.mp hq
    rcases confirmationWait_cases hm hwait with ⟨hp, ⟨a, rfl⟩, hlts⟩ | ⟨hp, hcases⟩
    · dsimp only at hlist
      rw [hlts] at hlist
      exact .inr (hclear hp id hlist)
    · rcases hcases with ⟨⟨a, rfl⟩, hlts⟩ | ⟨st, circuit, wagons, rfl, rfl⟩
      · dsimp only at hlist
        rw [hlts] at hlist
        exact hs hp id hlist
      · rw [Entrant.receivedAfter, if_pos hp, Finset.mem_insert]
        by_cases hid : id = st.id
        · exact .inl (.inl hid)
        · dsimp only at hlist
          rw [forwardTrain_lts_of_ne hid] at hlist
          rcases hs hp id hlist with hin | hone
          · exact .inl (.inr hin)
          · exact .inr hone
  | wake dial =>
    rw [procStep] at hq
    split at hq
    · obtain ⟨⟨r, actions⟩, hinit, rfl⟩ := Option.map_eq_some_iff.mp hq
      obtain ⟨succ, rfl | rfl⟩ := offlineInit_cases hinit
      · cases hwait
      · cases hwait
    · cases hq
  | broadcast mp =>
    rw [procStep, broadcast] at hq
    split at hq
    · cases hq
    · cases hq
      split at hwait
      · rename_i halone
        exact absurd (halone.symm.trans hwait) (by decide)
      · rename_i halone
        rw [if_neg halone] at hlist
        exact hs hwait id hlist

theorem entersFresh_of_onlyReceivedList (hs : OnlyReceivedList c s) : EntersFresh c s e := by
  intro s' hstep hwait hseveral id
  obtain ⟨q, hq, rfl⟩ := Option.map_eq_some_iff.mp hstep
  cases e with
  | message dial m =>
    obtain ⟨⟨q, actions⟩, hm, rfl⟩ := Option.map_eq_some_iff.mp hq
    obtain ⟨st, circuit, wagons, rfl, hlts, hall⟩ := enters_cases hm hwait hseveral
    rw [isInLts, List.all_eq_true] at hall
    have hlist := hall id (List.mem_finRange id)
    refine ⟨?_, hlist⟩
    rw [Entrant.receivedAfter, if_pos hwait, Finset.mem_insert]
    by_cases hid : id = st.id
    · exact .inl hid
    · right
      rw [hlts, forwardTrain_lts_of_ne hid] at hlist
      rcases hs hwait id hlist with hin | hone
      · exact hin
      · subst hone
        exact absurd (Subsingleton.elim id st.id) hid
  | wake dial =>
    rw [procStep, if_neg (by rw [hwait]; decide)] at hq
    cases hq
  | broadcast mp =>
    rw [procStep, broadcast] at hq
    split at hq
    · cases hq
    · cases hq
      split at hseveral
      · rename_i halone
        exact absurd (halone.symm.trans hwait) (by decide)
      · exact absurd (hwait.symm.trans hseveral) (by decide)

end Attempts

/-! ## An attempt that does not start clear -/

section Stale

variable {c : Config} {s : Entrant ntr} {dial : Address → Bool}

/-- A train with this number that lists the process, and only it. -/
def ownTrain (c : Config) (id : Fin ntr) : Msg ntr := .train ⟨id, 0#8, 0⟩ c.myAddress (some [])

theorem step_ownTrain (hwait : s.proc.automatonState = .offlineConfirmationWait)
    (hmy : addrIsMember c.myAddress c.myAddress = true) (id : Fin ntr) :
    ∃ q, s.step c (.message dial (ownTrain c id)) = some ⟨q, insert id s.received⟩ ∧
      (∀ id', id' ≠ id → q.lts id' = s.proc.lts id') ∧
      addrIsMember c.myAddress (q.lts id).circuit = true ∧
      q.automatonState =
        if isInLts c.myAddress q.lts then .several else .offlineConfirmationWait := by
  have hself : ((forwardTrain c ⟨id, 0#8, 0⟩ c.myAddress [] s.proc).lts id).circuit =
      c.myAddress := by
    simp [forwardTrain, hmy]
  have hother : ∀ id', id' ≠ id →
      (forwardTrain c ⟨id, 0#8, 0⟩ c.myAddress [] s.proc).lts id' = s.proc.lts id' :=
    fun id' hid => @forwardTrain_lts_of_ne ntr c ⟨id, 0#8, 0⟩ c.myAddress [] s.proc id' hid
  by_cases hall : isInLts c.myAddress
      (forwardTrain c ⟨id, 0#8, 0⟩ c.myAddress [] s.proc).lts = true
  · refine ⟨{ forwardTrain c ⟨id, 0#8, 0⟩ c.myAddress [] s.proc with
      lis := id
      wagonToSend := signalArrival c.myAddress
        ((forwardTrain c ⟨id, 0#8, 0⟩ c.myAddress [] s.proc).lts id).circuit
        (forwardTrain c ⟨id, 0#8, 0⟩ c.myAddress [] s.proc).wagonToSend
      automatonState := .several }, ?_, hother, ?_, ?_⟩
    · simp only [Entrant.step, procStep, ownTrain, stateMachine, hwait, offlineConfirmationWait,
        Option.bind_eq_bind, Option.bind_some, hall, if_true, nextState, Option.map_some,
        Entrant.receivedAfter, Option.pure_def]
    · dsimp only
      rw [hself]
      exact hmy
    · dsimp only
      rw [if_pos hall]
  · refine ⟨forwardTrain c ⟨id, 0#8, 0⟩ c.myAddress [] s.proc, ?_, hother, ?_, ?_⟩
    · simp only [Entrant.step, procStep, ownTrain, stateMachine, hwait, offlineConfirmationWait,
        Option.bind_eq_bind, Option.bind_some, hall, Entrant.receivedAfter, Option.pure_def,
        if_true]
      rfl
    · rw [hself]
      exact hmy
    · rw [if_neg hall]
      exact hwait

/-- Trains of the other numbers list the process one after the other, until it enters the
circuit; the train `stale` has not been received. -/
theorem not_entersFresh_of_stale {ids : List (Fin ntr)} {stale : Fin ntr} (hstale : stale ∉ ids)
    (hne : ids ≠ []) (hwait : s.proc.automatonState = .offlineConfirmationWait)
    (hnot : stale ∉ s.received) (hmy : addrIsMember c.myAddress c.myAddress = true)
    (hlist : ∀ id, id ∉ ids → addrIsMember c.myAddress (s.proc.lts id).circuit = true) :
    ¬ Along (Entrant.step c) (EntersFresh c) s
      (ids.map fun id => .message dial (ownTrain c id)) := by
  induction ids generalizing s with
  | nil => exact absurd rfl hne
  | cons id ids ih =>
    rw [List.mem_cons, not_or] at hstale
    obtain ⟨q, hstep, hother, hself, hstate⟩ := @step_ownTrain ntr c s dial hwait hmy id
    have hnot' : stale ∉ insert id s.received := by
      rw [Finset.mem_insert, not_or]
      exact ⟨hstale.1, hnot⟩
    have hlist' : ∀ id', id' ∉ ids → addrIsMember c.myAddress (q.lts id').circuit = true := by
      intro id' hid'
      by_cases heq : id' = id
      · rw [heq]
        exact hself
      · rw [hother id' heq]
        exact hlist id' (List.not_mem_cons_of_ne_of_not_mem heq hid')
    rintro ⟨hhead, hrest⟩
    by_cases hall : isInLts c.myAddress q.lts = true
    · rw [if_pos hall] at hstate
      exact hnot' (hhead _ hstep hwait hstate stale).1
    · rw [if_neg hall] at hstate
      have hids : ids ≠ [] := by
        rintro rfl
        apply hall
        rw [isInLts, List.all_eq_true]
        exact fun id' _ => hlist' id' List.not_mem_nil
      exact ih (s := ⟨q, insert id s.received⟩) hstale.2 hids hstate hnot' hlist' (hrest _ hstep)

/-- An attempt that is accepted while a last train lists the process can end so. -/
theorem not_entersFresh_of_not_clear {a : Address}
    (hclear : ¬ ClearStart c s (.message dial (.ackInsert a))) :
    ∃ ids : List (Fin ntr), ¬ Along (Entrant.step c) (EntersFresh c) s
      (.message dial (.ackInsert a) :: ids.map fun id => .message dial (ownTrain c id)) := by
  simp only [ClearStart, Classical.not_imp, not_forall] at hclear
  obtain ⟨hstate, stale, hlist, hone⟩ := hclear
  have hmy : addrIsMember c.myAddress c.myAddress = true := by
    have hne : c.myAddress ≠ 0#16 := ne_zero_of_addrIsMember hlist
    simpa [addrIsMember] using hne
  refine ⟨(List.finRange ntr).filter (· ≠ stale), ?_⟩
  rintro ⟨-, hrest⟩
  have hstep : s.step c (.message dial (.ackInsert a)) = some
      ⟨{ s.proc with prec := a, automatonState := .offlineConfirmationWait }, ∅⟩ := by
    simp only [Entrant.step, procStep, stateMachine, hstate, Entrant.receivedAfter, if_true]
    rfl
  refine @not_entersFresh_of_stale _ _ _ _ _ stale ?_ ?_ rfl ?_ hmy ?_ (hrest _ hstep)
  · simp
  · intro hnil
    have hall : ∀ id, id = stale := by
      intro id
      have hid := List.filter_eq_nil_iff.mp hnil id (List.mem_finRange id)
      simpa using hid
    have hle : ntr ≤ 1 := Fin.subsingleton_iff_le_one.mp ⟨fun i j => (hall i).trans (hall j).symm⟩
    have hpos := stale.isLt
    omega
  · exact Finset.notMem_empty stale
  · intro id hid
    obtain rfl : id = stale := by simpa using hid
    exact hlist

end Stale

/-! ## Runs -/

theorem entersFresh_of_clearStart {c : Config} {s : Entrant ntr} {es : List (ProcEvent ntr)}
    (hs : OnlyReceivedList c s) (hclear : Along (Entrant.step c) (ClearStart c) s es) :
    Along (Entrant.step c) (EntersFresh c) s es := by
  induction es generalizing s with
  | nil => trivial
  | cons e es ih =>
    refine ⟨entersFresh_of_onlyReceivedList hs, ?_⟩
    intro s' hstep
    exact ih (onlyReceivedList_step hs hclear.1 hstep) (hclear.2 s' hstep)

/-- A process enters the circuit on trains of the current attempt when every attempt that is
accepted finds no last train listing it; an attempt that finds one can end on this train. -/
theorem enters_on_fresh_trains {c : Config} {dial₀ : Address → Bool} {hntr : 0 < ntr}
    {p₀ : Proc ntr} {started : List (Action ntr)}
    (hinit : automatonInit c dial₀ hntr = some (p₀, started)) :
    (∀ es, Along (Entrant.step c) (ClearStart c) ⟨p₀, ∅⟩ es →
      Along (Entrant.step c) (EntersFresh c) ⟨p₀, ∅⟩ es) ∧
    ∀ es s dial a, exec (Entrant.step c) ⟨p₀, ∅⟩ es = some s →
      ¬ ClearStart c s (.message dial (.ackInsert a)) →
      ∃ ids : List (Fin ntr), ¬ Along (Entrant.step c) (EntersFresh c) ⟨p₀, ∅⟩
        (es ++ .message dial (.ackInsert a) ::
          ids.map fun id => .message dial (ownTrain c id)) := by
  constructor
  · intro es hclear
    refine entersFresh_of_clearStart ?_ hclear
    intro hwait
    obtain ⟨succ, rfl | rfl⟩ := offlineInit_cases hinit
    · cases hwait
    · cases hwait
  · intro es s dial a hrun hclear
    obtain ⟨ids, hids⟩ := not_entersFresh_of_not_clear hclear
    refine ⟨ids, ?_⟩
    intro hall
    exact hids (((along_append _ _ _).mp hall).2 s hrun)

/-- Process 4 when process 0 answers, and two trains. -/
def fourthJoining : Option (Proc 2 × List (Action 2)) :=
  automatonInit fourth (fun a => a == rankToAddr 0) Nat.two_pos

/-- The predecessor confirms the insertion and sends its first train. -/
def confirmed (id : Fin 2) : List (ProcEvent 2) :=
  [.ackInsert (rankToAddr 0), ownTrain fourth id].map (.message fun a => a == rankToAddr 0)

/-- The predecessor disconnects after the first train, the process tries again. -/
def retried : List (ProcEvent 2) :=
  confirmed ⟨0, Nat.two_pos⟩ ++
    [.message (fun a => a == rankToAddr 0) (.disconnectPred (rankToAddr 0)),
      .wake fun a => a == rankToAddr 0]

/-- The predecessor disconnects before it has sent a train, the process tries again and receives
both. -/
def retriedClear : List (ProcEvent 2) :=
  [.message (fun a => a == rankToAddr 0) (.ackInsert (rankToAddr 0)),
    .message (fun a => a == rankToAddr 0) (.disconnectPred (rankToAddr 0)),
    .wake fun a => a == rankToAddr 0] ++
    confirmed ⟨0, Nat.two_pos⟩ ++ (confirmed ⟨1, Nat.one_lt_two⟩).tail

theorem enters_on_fresh_trains_fourth : ∃ p₀ started,
    fourthJoining = some (p₀, started) ∧
    Along (Entrant.step fourth) (EntersFresh fourth) ⟨p₀, ∅⟩ retriedClear := by
  have hsome : fourthJoining.isSome := by decide
  obtain ⟨⟨p₀, started⟩, hinit⟩ := Option.isSome_iff_exists.mp hsome
  refine ⟨p₀, started, hinit, (enters_on_fresh_trains hinit).1 _ ?_⟩
  have hclear : ∀ p ∈ fourthJoining,
      Along (Entrant.step fourth) (ClearStart fourth) ⟨p.1, ∅⟩ retriedClear := by
    decide
  exact hclear (p₀, started) hinit

/-- The second attempt receives train 1 only, and enters the circuit on the train 0 of the
first. -/
theorem not_enters_on_fresh_trains : ∃ p₀ started,
    fourthJoining = some (p₀, started) ∧
    ¬ Along (Entrant.step fourth) (EntersFresh fourth) ⟨p₀, ∅⟩
      (retried ++ confirmed ⟨1, Nat.one_lt_two⟩) := by
  have hsome : fourthJoining.isSome := by decide
  obtain ⟨⟨p₀, started⟩, hinit⟩ := Option.isSome_iff_exists.mp hsome
  refine ⟨p₀, started, hinit, ?_⟩
  have hstale : ∀ p ∈ fourthJoining, ¬ Along (Entrant.step fourth) (EntersFresh fourth)
      ⟨p.1, ∅⟩ (retried ++ confirmed ⟨1, Nat.one_lt_two⟩) := by
    decide
  exact hstale (p₀, started) hinit

end UniformBroadcast.Trains
