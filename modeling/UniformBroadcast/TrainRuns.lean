import UniformBroadcast.TransitionRuns
import UniformBroadcast.TrainDisconnections

/-!
# Runs of one process

A process handles messages, wakes up from its sleeps and broadcasts, in any order. Of
the three lists of a train, the one that the next visit will fill is empty; when the
process is not in `SEVERAL`, all of them are.
-/

namespace UniformBroadcast.Trains

open TransitionRuns

variable {ntr : ℕ}

/-- What a process does. `dial` tells which connections are accepted. -/
inductive ProcEvent (ntr : ℕ) where
  | message (dial : Address → Bool) (m : Msg ntr)
  | wake (dial : Address → Bool)
  | broadcast (mp : Message)

def procStep (c : Config) (p : Proc ntr) : ProcEvent ntr → Option (Proc ntr)
  | .message dial m => (stateMachine c dial m p).map Prod.fst
  | .wake dial => if p.automatonState = .wait then (sleepTreatment c dial p).map Prod.fst else none
  | .broadcast mp => broadcast c mp p

/-- The round of the last handling of each train. -/
def lastRound (p : Proc ntr) (id : Fin ntr) : Fin nr := (p.lts id).stamp.round

/-- The train that the process in `SEVERAL` is about to handle has the round of its last
handling or the next one. -/
def InStep (p : Proc ntr) : ProcEvent ntr → Prop
  | .message _ (.train stamp _ _) =>
    p.automatonState = .several → isRecentTrain stamp p.lts p.lis = true →
      stamp.round = lastRound p stamp.id ∨ stamp.round = lastRound p stamp.id + 1
  | _ => True

instance (p : Proc ntr) : DecidablePred (InStep p)
  | .message _ (.train _ _ _) => inferInstanceAs (Decidable (_ → _ → _))
  | .message _ (.insert _) | .message _ (.ackInsert _) | .message _ (.nakInsert _)
  | .message _ (.disconnectPred _) | .message _ (.disconnectSucc _) | .message _ (.newSucc _)
  | .wake _ | .broadcast _ => inferInstanceAs (Decidable True)

/-! ## What a message does to the wagons -/

/-- Nothing happens to the wagons and to the trains of the process. -/
structure Keeps (p q : Proc ntr) : Prop where
  wagonToSend : q.wagonToSend = p.wagonToSend
  wagonsToDeliver : q.wagonsToDeliver = p.wagonsToDeliver
  unstableWagons : q.unstableWagons = p.unstableWagons
  lts : q.lts = p.lts
  lis : q.lis = p.lis

theorem Keeps.refl (p : Proc ntr) : Keeps p p := ⟨rfl, rfl, rfl, rfl, rfl⟩

theorem Keeps.trans {p q r : Proc ntr} (h : Keeps p q) (h' : Keeps q r) : Keeps p r where
  wagonToSend := h'.wagonToSend.trans h.wagonToSend
  wagonsToDeliver := h'.wagonsToDeliver.trans h.wagonsToDeliver
  unstableWagons := h'.unstableWagons.trans h.unstableWagons
  lts := h'.lts.trans h.lts
  lis := h'.lis.trans h.lis

/-- The flush changes the lists of wagons. -/
theorem flush_frame (p : Proc ntr) : ∃ delivered unstable,
    flush p = { p with wagonsToDeliver := delivered, unstableWagons := unstable } := by
  have hids : ∀ (aRound : ℕ) (ids : List (Fin ntr)) (q : Proc ntr), ∃ delivered unstable,
      ids.foldl (flushRound aRound) q =
        { q with wagonsToDeliver := delivered, unstableWagons := unstable } := by
    intro aRound ids
    induction ids with
    | nil => exact fun q => ⟨_, _, rfl⟩
    | cons id ids ih =>
      intro q
      obtain ⟨delivered, unstable, h⟩ := ih (flushRound aRound q id)
      exact ⟨delivered, unstable, h⟩
  have hrounds : ∀ (rounds : List ℕ) (q : Proc ntr), ∃ delivered unstable,
      rounds.foldl (fun q aRound => (trainsAfter q.lis).foldl (flushRound aRound) q) q =
        { q with wagonsToDeliver := delivered, unstableWagons := unstable } := by
    intro rounds
    induction rounds with
    | nil => exact fun q => ⟨_, _, rfl⟩
    | cons aRound rounds ih =>
      intro q
      obtain ⟨_, _, hfirst⟩ := hids aRound (trainsAfter q.lis) q
      obtain ⟨delivered, unstable, hrest⟩ := ih
        ((trainsAfter q.lis).foldl (flushRound aRound) q)
      refine ⟨delivered, unstable, ?_⟩
      rw [List.foldl_cons, hrest, hfirst]
  exact hrounds _ p

/-- The process that has found no predecessor, before it waits for insertions. -/
def becomeAlone (c : Config) (p : Proc ntr) : Proc ntr :=
  deliverWagonToSend c (flush { p with
    goneProc := 0#16
    wagonToSend := signalDepartures p.goneProc (p.lts p.lis).circuit p.wagonToSend })

/-- The ways in which a process treats a message. -/
inductive Treatment (c : Config) (p : Proc ntr) : Msg ntr → Proc ntr → Prop where
  /-- The wagons are left alone. -/
  | kept (m : Msg ntr) (q : Proc ntr) (keeps : Keeps p q)
      (stays : p.automatonState = .several → q.automatonState = .several)
      (alone : q.automatonState = .aloneInsertWait →
        p.automatonState = .aloneInsertWait ∨
          p.automatonState = .aloneConnectionWait ∧ ∃ a, m = .disconnectPred a) :
      Treatment c p m q
  /-- A train passes through a process that is not on the circuit. -/
  | forwarded (stamp : Stamp ntr) (circuit : Address) (wagons : List Wagon)
      (waits : p.automatonState = .offlineConfirmationWait) :
      Treatment c p (.train stamp circuit (some wagons)) (forwardTrain c stamp circuit wagons p)
  /-- A train confirms the insertion of the process. -/
  | confirmed (stamp : Stamp ntr) (circuit : Address) (wagons : List Wagon)
      (waits : p.automatonState = .offlineConfirmationWait) :
      Treatment c p (.train stamp circuit (some wagons))
        (let q := forwardTrain c stamp circuit wagons p
        { q with
          lis := stamp.id
          wagonToSend := signalArrival c.myAddress (q.lts stamp.id).circuit q.wagonToSend
          automatonState := .several })
  /-- A process that was alone starts the trains again. -/
  | started (sender : Address) (waits : p.automatonState = .aloneConnectionWait) :
      Treatment c p (.newSucc sender)
        { p with
          succ := sender
          lts := fun id => emptyTrain c p.prec (p.lts id)
          automatonState := .several }
  /-- A recent train is handled. -/
  | handled (stamp : Stamp ntr) (circuit : Address) (wagons : List Wagon)
      (several : p.automatonState = .several)
      (recent : isRecentTrain stamp p.lts p.lis = true) :
      Treatment c p (.train stamp circuit (some wagons))
        { trainHandling c.myAddress ⟨stamp, circuit, wagons⟩ p with lis := stamp.id }
  /-- The process has lost all others. -/
  | alone (sender : Address) (r : Proc ntr) (several : p.automatonState = .several)
      (keeps : Keeps p r) :
      Treatment c p (.disconnectPred sender)
        { becomeAlone c r with
          prec := c.myAddress
          succ := c.myAddress
          automatonState := .aloneInsertWait }

section Treatments

variable {c : Config} {dial : Address → Bool} {p q : Proc ntr} {m : Msg ntr}
  {actions : List (Action ntr)}

theorem nextState_keeps {s : State} (hs : s ≠ .offlineConnectionAttempt)
    (h : nextState c dial s p = some (q, actions)) : Keeps p q := by
  cases s with
  | offlineConnectionAttempt => exact absurd rfl hs
  | wait =>
    obtain ⟨⟨r, closes⟩, hwait, h⟩ := Option.bind_eq_some_iff.mp h
    cases h
    rw [waitBeforeConnect] at hwait
    split at hwait
    · cases hwait
    · cases hwait
      exact ⟨rfl, rfl, rfl, rfl, rfl⟩
  | aloneInsertWait | offlineConfirmationWait | aloneConnectionWait | several =>
    cases h
    exact ⟨rfl, rfl, rfl, rfl, rfl⟩

theorem searchPrec_keeps {fuel : ℕ} {found : Bool}
    (h : searchPrec c dial fuel p = some (q, actions, found)) : Keeps p q := by
  induction fuel generalizing p actions with
  | zero => cases h
  | succ fuel ih =>
    rw [searchPrec] at h
    split at h
    · cases h
      exact ⟨rfl, rfl, rfl, rfl, rfl⟩
    · split at h
      · cases h
        exact ⟨rfl, rfl, rfl, rfl, rfl⟩
      · obtain ⟨prec, -, h⟩ := Option.bind_eq_some_iff.mp h
        obtain ⟨⟨q', actions', found'⟩, hrest, h⟩ := Option.bind_eq_some_iff.mp h
        cases h
        obtain ⟨hsend, hdeliver, hunstable, hlts, hlis⟩ := ih hrest
        exact ⟨hsend, hdeliver, hunstable, hlts, hlis⟩

theorem offlineConnectionAttempt_treatment (hp : p.automatonState = .offlineConnectionAttempt)
    (h : offlineConnectionAttempt c dial m p = some (q, actions)) : Treatment c p m q := by
  have hstate := offlineConnectionAttempt_automatonState hp h
  have hkeeps : Keeps p q := by
    cases m with
    | nakInsert | disconnectPred | disconnectSucc =>
      rw [offlineConnectionAttempt] at h
      exact nextState_keeps (by decide) h
    | insert =>
      cases h
      exact ⟨rfl, rfl, rfl, rfl, rfl⟩
    | ackInsert sender =>
      rw [offlineConnectionAttempt] at h
      obtain ⟨⟨r, more⟩, hnext, h⟩ := Option.bind_eq_some_iff.mp h
      cases h
      obtain ⟨hsend, hdeliver, hunstable, hlts, hlis⟩ := nextState_keeps (by decide) hnext
      exact ⟨hsend, hdeliver, hunstable, hlts, hlis⟩
    | train | newSucc => cases h
  apply Treatment.kept m q hkeeps
  · intro hseveral
    rw [hp] at hseveral
    cases hseveral
  · intro halone
    rw [halone] at hstate
    simp at hstate

theorem offlineConfirmationWait_treatment (hp : p.automatonState = .offlineConfirmationWait)
    (h : offlineConfirmationWait c dial m p = some (q, actions)) : Treatment c p m q := by
  have hkept : ∀ {r : Proc ntr}, Keeps p r → r.automatonState ≠ .aloneInsertWait →
      Treatment c p m r := by
    intro r hkeeps hr
    apply Treatment.kept m r hkeeps
    · intro hseveral
      rw [hp] at hseveral
      cases hseveral
    · intro halone
      exact absurd halone hr
  cases m with
  | newSucc | disconnectPred | disconnectSucc =>
    rw [offlineConfirmationWait] at h
    have hwait := nextState_automatonState (by decide) h
    exact hkept (nextState_keeps (by decide) h) (by rw [hwait]; decide)
  | insert =>
    cases h
    exact hkept (Keeps.refl p) (by rw [hp]; decide)
  | train stamp circuit wagons =>
    rw [offlineConfirmationWait] at h
    obtain ⟨w, hw, hsome⟩ := Option.bind_eq_some_iff.mp h
    subst hw
    dsimp only at hsome
    split at hsome
    · obtain ⟨⟨r, more⟩, hnext, hsome⟩ := Option.bind_eq_some_iff.mp hsome
      cases hnext
      cases hsome
      exact .confirmed stamp circuit w hp
    · cases hsome
      exact .forwarded stamp circuit w hp
  | ackInsert | nakInsert => cases h

theorem aloneInsertWait_treatment (hp : p.automatonState = .aloneInsertWait)
    (h : aloneInsertWait c dial m p = some (q, actions)) : Treatment c p m q := by
  have hkeeps : Keeps p q := by
    cases m with
    | disconnectPred | disconnectSucc =>
      cases h
      exact ⟨rfl, rfl, rfl, rfl, rfl⟩
    | insert sender =>
      rw [aloneInsertWait] at h
      obtain ⟨⟨r, more⟩, hnext, h⟩ := Option.bind_eq_some_iff.mp h
      cases hnext
      cases h
      exact ⟨rfl, rfl, rfl, rfl, rfl⟩
    | train | ackInsert | nakInsert | newSucc => cases h
  apply Treatment.kept m q hkeeps
  · intro hseveral
    rw [hp] at hseveral
    cases hseveral
  · intro _
    exact .inl hp

theorem aloneConnectionWait_treatment (hp : p.automatonState = .aloneConnectionWait)
    (h : aloneConnectionWait c dial m p = some (q, actions)) : Treatment c p m q := by
  have hnot : p.automatonState = .several → q.automatonState = .several := by
    intro hseveral
    rw [hp] at hseveral
    cases hseveral
  cases m with
  | disconnectPred a =>
    rw [aloneConnectionWait] at h
    exact .kept _ q (nextState_keeps (by decide) h) hnot fun _ => .inr ⟨hp, a, rfl⟩
  | insert =>
    cases h
    apply Treatment.kept _ p (Keeps.refl p) hnot
    intro halone
    rw [hp] at halone
    cases halone
  | newSucc sender =>
    rw [aloneConnectionWait] at h
    obtain ⟨⟨r, more⟩, hnext, h⟩ := Option.bind_eq_some_iff.mp h
    cases hnext
    cases h
    exact .started sender hp
  | train | ackInsert | nakInsert | disconnectSucc => cases h

theorem several_treatment (hp : p.automatonState = .several)
    (h : several c dial m p = some (q, actions)) : Treatment c p m q := by
  have hkept : ∀ {r : Proc ntr}, Keeps p r → r.automatonState = .several → Treatment c p m r := by
    intro r hkeeps hr
    apply Treatment.kept m r hkeeps
    · intro _
      exact hr
    · intro halone
      rw [hr] at halone
      cases halone
  cases m with
  | train stamp circuit wagons =>
    rw [several] at h
    split at h
    · split at h
      · rename_i hrecent
        obtain ⟨w, rfl, h⟩ := Option.bind_eq_some_iff.mp h
        cases h
        exact .handled stamp circuit w hp hrecent
      · cases h
        exact hkept (Keeps.refl p) hp
    · cases h
  | insert | newSucc | disconnectSucc =>
    cases h
    exact hkept ⟨rfl, rfl, rfl, rfl, rfl⟩ hp
  | disconnectPred sender =>
    obtain ⟨⟨r, opens, found⟩, hsearch, h⟩ := Option.bind_eq_some_iff.mp h
    have hkeeps := searchPrec_keeps hsearch
    cases found with
    | true =>
      cases h
      exact hkept ⟨hkeeps.wagonToSend, hkeeps.wagonsToDeliver, hkeeps.unstableWagons, hkeeps.lts,
        hkeeps.lis⟩ rfl
    | false =>
      cases h
      exact .alone sender r hp hkeeps
  | ackInsert | nakInsert => cases h

/-- A process that starts, or starts again, looks for a successor or is alone. -/
theorem offlineInit_cases (h : offlineInit c dial p = some (q, actions)) :
    ∃ succ, q = { p with succ := succ, automatonState := .offlineConnectionAttempt } ∨
      q = { deliverWagonToSend c { p with
          succ := succ
          wagonToSend := signalArrival c.myAddress c.myAddress p.wagonToSend } with
        automatonState := .aloneInsertWait
        prec := c.myAddress } := by
  obtain ⟨rank, -, hinit⟩ := Option.bind_eq_some_iff.mp h
  cases hsearch : (searchSucc c dial (ranksAfter rank) : List (Action ntr) × Address) with
  | mk attempts succ =>
    rw [hsearch] at hinit
    dsimp only at hinit
    split at hinit
    · cases hinit
      exact ⟨succ, .inr rfl⟩
    · cases hinit
      exact ⟨succ, .inl rfl⟩

/-- Every treatment of a message is one of these. -/
theorem stateMachine_treatment (h : stateMachine c dial m p = some (q, actions)) :
    Treatment c p m q := by
  rw [stateMachine] at h
  split at h
  · rename_i hp
    exact offlineConnectionAttempt_treatment hp h
  · rename_i hp
    exact offlineConfirmationWait_treatment hp h
  · rename_i hp
    cases h
    apply Treatment.kept m p (Keeps.refl p) id
    exact .inl
  · rename_i hp
    exact aloneInsertWait_treatment hp h
  · rename_i hp
    exact aloneConnectionWait_treatment hp h
  · rename_i hp
    exact several_treatment hp h

end Treatments

end UniformBroadcast.Trains
