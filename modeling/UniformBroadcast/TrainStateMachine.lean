import UniformBroadcast.TrainProcess

/-!
# The automaton of a process

Translation of `stateMachine` and of the functions of `stateMachine.c` it calls. The
calls to the communication layer are returned in order as actions. The outcome of each
`openConnection` is given by a function `dial` of the address; `none` is the exit of the
process by `error_at_line`, or a loop that does not end.
-/

namespace UniformBroadcast.Trains

/-- The messages exchanged by processes and produced by `receive`. A train is `none` when
its bytes are not a list of wagons. -/
inductive Msg (ntr : ℕ) where
  | train (stamp : Stamp ntr) (circuit : Address) (wagons : Option (List Wagon))
  | insert (sender : Address)
  | ackInsert (sender : Address)
  | nakInsert (sender : Address)
  | disconnectPred (sender : Address)
  | disconnectSucc (sender : Address)
  | newSucc (sender : Address)
  deriving DecidableEq, Repr

/-- The calls to the communication layer. -/
inductive Action (ntr : ℕ) where
  | participate (b : Bool)
  | openConnection (addr : Address) (isPred : Bool) (opened : Bool)
  | closeConnection (addr : Address) (isPred : Bool)
  | sendOther (addr : Address) (isPred : Bool) (msg : Msg ntr)
  | sendTrain (addr : Address) (lts : Lts ntr)
  | sleep
  deriving DecidableEq, Repr

/-- What does not change in the life of a process. -/
structure Config where
  myAddress : Address
  waitNbMax : ℕ
  wagonMaxLen : ℕ

variable {ntr : ℕ}

/-- The frame of a train as a message. -/
def trainMsg (lts : Lts ntr) : Msg ntr :=
  .train lts.stamp lts.circuit ((trainSent lts).map Train.wagons)

section Automaton

variable (c : Config) (dial : Address → Bool)

/-- The ranks after that of the process, in the order in which `searchSucc` tries them. -/
def ranksAfter (rank : ℕ) : List ℕ := (List.range' 1 (np - 1)).map fun k => (rank + k) % np

/-- `searchSucc`: the attempts made and the successor found. -/
def searchSucc : List ℕ → List (Action ntr) × Address
  | [] => ([], c.myAddress)
  | i :: ranks =>
    if dial (rankToAddr i) then ([.openConnection (rankToAddr i) false true], rankToAddr i)
    else
      let (actions, succ) := searchSucc ranks
      (.openConnection (rankToAddr i) false false :: actions, succ)

/-- `bqueueEnqueue(wagonsToDeliver, wagonToSend)` and a new wagon. -/
def deliverWagonToSend (p : Proc ntr) : Proc ntr :=
  { p with
    wagonsToDeliver := p.wagonsToDeliver ++ [p.wagonToSend]
    wagonToSend := newWiw c.myAddress }

def offlineInit (p : Proc ntr) : Option (Proc ntr × List (Action ntr)) := do
  let rank ← addrToRank c.myAddress
  let (actions, succ) := searchSucc c dial (ranksAfter rank)
  let p := { p with succ := succ }
  if succ = c.myAddress then
    let p := { p with wagonToSend := signalArrival c.myAddress c.myAddress p.wagonToSend }
    let p := deliverWagonToSend c p
    return ({ p with automatonState := .aloneInsertWait, prec := c.myAddress },
      .participate true :: actions)
  else
    return ({ p with automatonState := .offlineConnectionAttempt },
      .participate true :: actions ++ [.sendOther succ false (.insert c.myAddress)])

/-- The end of the sleep that `waitBeforeConnect` starts. -/
def sleepTreatment (p : Proc ntr) : Option (Proc ntr × List (Action ntr)) :=
  offlineInit c dial { p with waitNb := p.waitNb + 1 }

def waitBeforeConnect (p : Proc ntr) : Option (Proc ntr × List (Action ntr)) :=
  if p.waitNb > c.waitNbMax then none
  else
    let closePrec := if p.prec ≠ 0#16 then [.closeConnection p.prec true] else []
    let closeSucc := if p.succ ≠ 0#16 then [.closeConnection p.succ false] else []
    some ({ p with prec := 0#16, succ := 0#16 },
      .participate false :: closePrec ++ closeSucc ++ [.sleep])

def nextState (s : State) (p : Proc ntr) : Option (Proc ntr × List (Action ntr)) :=
  match s with
  | .offlineConnectionAttempt => offlineInit c dial p
  | .wait => do
    let (p, actions) ← waitBeforeConnect c p
    return ({ p with automatonState := .wait }, actions)
  | .aloneInsertWait =>
    some ({ p with
      prec := c.myAddress
      succ := c.myAddress
      automatonState := .aloneInsertWait }, [])
  | s => some ({ p with automatonState := s }, [])

/-- The globals of `automatonInit`, before its call of `nextState`. -/
def Proc.initial (h : 0 < ntr) : Proc ntr where
  automatonState := .offlineConnectionAttempt
  prec := 0#16
  succ := 0#16
  cameProc := 0#16
  goneProc := 0#16
  waitNb := 0
  lis := ⟨ntr - 1, by omega⟩
  lts := fun id => ⟨⟨id, 0#8, 0⟩, 0#16, none, 0, none⟩
  unstableWagons := fun _ _ => []
  wagonsToDeliver := []
  wagonToSend := newWiw c.myAddress

def automatonInit (h : 0 < ntr) : Option (Proc ntr × List (Action ntr)) :=
  nextState c dial .offlineConnectionAttempt (Proc.initial c h)

/-- `OFFLINE_CONNECTION_ATTEMPT`. -/
def offlineConnectionAttempt (m : Msg ntr) (p : Proc ntr) :
    Option (Proc ntr × List (Action ntr)) :=
  match m with
  | .nakInsert _ | .disconnectPred _ | .disconnectSucc _ => nextState c dial .wait p
  | .insert sender =>
    some ({ p with prec := sender }, [.sendOther sender true (.nakInsert c.myAddress)])
  | .ackInsert sender => do
    let p := { p with prec := sender }
    let (p, actions) ← nextState c dial .offlineConfirmationWait p
    return (p, .openConnection sender true (dial sender) ::
      .sendOther sender true (.newSucc c.myAddress) :: actions)
  | _ => none

/-- A train passes through a process that waits for its confirmation. -/
def forwardTrain (stamp : Stamp ntr) (circuit : Address) (wagons : List Wagon) (p : Proc ntr) :
    Proc ntr :=
  let stamp := if addrIsMember c.myAddress circuit then { stamp with lc := stamp.lc + 1 } else stamp
  { p with
    lts := setAt p.lts stamp.id
      { stamp := stamp
        circuit := circuit
        pWagon := if wagons = [] then none else some wagons
        len := wagonsLen wagons
        pWtosend := (p.lts stamp.id).pWtosend } }

/-- `OFFLINE_CONFIRMATION_WAIT`. -/
def offlineConfirmationWait (m : Msg ntr) (p : Proc ntr) : Option (Proc ntr × List (Action ntr)) :=
  match m with
  | .newSucc _ | .disconnectPred _ | .disconnectSucc _ => nextState c dial .wait p
  | .insert sender => some (p, [.sendOther sender true (.nakInsert c.myAddress)])
  | .train stamp circuit wagons => do
    let wagons ← wagons
    let p := forwardTrain c stamp circuit wagons p
    let sent := .sendTrain p.succ (p.lts stamp.id)
    if isInLts c.myAddress p.lts then
      let p := { p with
        lis := stamp.id
        wagonToSend := signalArrival c.myAddress (p.lts stamp.id).circuit p.wagonToSend }
      let (p, actions) ← nextState c dial .several p
      return (p, sent :: actions)
    else return (p, [sent])
  | _ => none

/-- `ALONE_INSERT_WAIT`. -/
def aloneInsertWait (m : Msg ntr) (p : Proc ntr) : Option (Proc ntr × List (Action ntr)) :=
  match m with
  | .disconnectPred _ | .disconnectSucc _ => some (p, [])
  | .insert sender => do
    let p := { p with prec := sender }
    let (p, actions) ← nextState c dial .aloneConnectionWait p
    return (p, .sendOther sender true (.ackInsert c.myAddress) :: actions)
  | _ => none

/-- The trains that follow `lis`, in the order `(lis + 1) % ntr, .., (lis + ntr) % ntr`. -/
def trainsAfter (lis : Fin ntr) : List (Fin ntr) := (List.range' 1 ntr).map (idPlus lis)

/-- What `ALONE_CONNECTION_WAIT` makes of a train before it sends it. -/
def emptyTrain (prec : Address) (l : Lts ntr) : Lts ntr :=
  { l with
    stamp := { l.stamp with lc := l.stamp.lc + 1 }
    circuit := c.myAddress ||| prec
    pWagon := none
    len := 0 }

/-- `ALONE_CONNECTION_WAIT`. -/
def aloneConnectionWait (m : Msg ntr) (p : Proc ntr) : Option (Proc ntr × List (Action ntr)) :=
  match m with
  | .disconnectPred _ => nextState c dial .aloneInsertWait p
  | .insert sender => some (p, [.sendOther sender true (.nakInsert c.myAddress)])
  | .newSucc sender => do
    let p := { p with succ := sender, lts := fun id => emptyTrain c p.prec (p.lts id) }
    let sent := (trainsAfter p.lis).map fun id => .sendTrain p.succ (p.lts id)
    let (p, actions) ← nextState c dial .several p
    return (p, sent ++ actions)
  | _ => none

/-- The `while` loop on `prec` after the loss of the predecessor: it ends with a
predecessor found (`true`) or alone (`false`). Every pass goes to another rank of the
circuit, so a loop that ends does so within `NP + 1` passes. -/
def searchPrec : ℕ → Proc ntr → Option (Proc ntr × List (Action ntr) × Bool)
  | 0, _ => none
  | fuel + 1, p =>
    if p.prec = c.myAddress then some (p, [], false)
    else if dial p.prec then
      some (p, [.openConnection p.prec true true, .sendOther p.prec true (.newSucc c.myAddress)],
        true)
    else do
      let gone := addrAppendGone p.cameProc p.goneProc p.prec
      let prec ← addrPrec p.prec (p.lts p.lis).circuit
      let (q, actions, found) ← searchPrec fuel
        { p with cameProc := gone.1, goneProc := gone.2, prec := prec }
      return (q, .openConnection p.prec true false :: actions, found)

/-- The flush of one list of unstable wagons. -/
def flushRound (aRound : ℕ) (p : Proc ntr) (id : Fin ntr) : Proc ntr :=
  let round : Fin nr := ⟨((p.lts id).stamp.round.val + aRound) % nr, Nat.mod_lt _ (by decide)⟩
  { p with
    wagonsToDeliver := p.wagonsToDeliver ++ p.unstableWagons id round
    unstableWagons := setAt p.unstableWagons id
      (Function.update (p.unstableWagons id) round []) }

/-- The flush loops of a process that has become alone. -/
def flush (p : Proc ntr) : Proc ntr :=
  (List.range' 1 nr).foldl
    (fun p aRound => (trainsAfter p.lis).foldl (flushRound aRound) p) p

/-- `SEVERAL`. -/
def several (m : Msg ntr) (p : Proc ntr) : Option (Proc ntr × List (Action ntr)) :=
  match m with
  | .train stamp circuit wagons =>
    if addrIsMember c.myAddress circuit then
      if isRecentTrain stamp p.lts p.lis then do
        let wagons ← wagons
        let p := { trainHandling c.myAddress ⟨stamp, circuit, wagons⟩ p with lis := stamp.id }
        return (p, if p.succ ≠ 0#16 then [.sendTrain p.succ (p.lts p.lis)] else [])
      else some (p, [])
    else none
  | .insert sender =>
    some ({ p with prec := sender, cameProc := addrAppendArrived p.cameProc sender },
      [.closeConnection p.prec true, .sendOther sender true (.ackInsert p.prec)])
  | .newSucc sender =>
    let close := if p.succ ≠ 0#16 then [.closeConnection p.succ false] else []
    let p := { p with succ := sender }
    some (p, close ++ (trainsAfter p.lis).map fun id => .sendTrain p.succ (p.lts id))
  | .disconnectPred _ => do
    let (p, actions, found) ← searchPrec c dial (np + 2) p
    if found then
      let (p, more) ← nextState c dial .several p
      return (p, actions ++ more)
    else
      let p := { p with
        goneProc := 0#16
        wagonToSend := signalDepartures p.goneProc (p.lts p.lis).circuit p.wagonToSend }
      let p := deliverWagonToSend c (flush p)
      let (p, more) ← nextState c dial .aloneInsertWait p
      return (p, actions ++ more)
  | .disconnectSucc _ => some ({ p with succ := 0#16 }, [])
  | _ => none

def stateMachine (m : Msg ntr) (p : Proc ntr) : Option (Proc ntr × List (Action ntr)) :=
  match p.automatonState with
  | .offlineConnectionAttempt => offlineConnectionAttempt c dial m p
  | .offlineConfirmationWait => offlineConfirmationWait c dial m p
  | .wait => some (p, [])
  | .aloneInsertWait => aloneInsertWait c dial m p
  | .aloneConnectionWait => aloneConnectionWait c dial m p
  | .several => several c dial m p

/-- `newmsg` followed by `utoBroadcast`; `none` while `newmsg` waits. -/
def broadcast (mp : Message) (p : Proc ntr) : Option (Proc ntr) :=
  if newmsgWaits c.wagonMaxLen mp p.wagonToSend then none
  else
    let p := { p with wagonToSend := mallocWiw mp p.wagonToSend }
    some (if p.automatonState = .aloneInsertWait then deliverWagonToSend c p else p)

end Automaton

/-- The successor found is the first process that answers. -/
theorem searchSucc_snd {c : Config} {dial : Address → Bool} (ranks : List ℕ) :
    (searchSucc c dial ranks : List (Action ntr) × Address).2 =
      ((ranks.find? fun i => dial (rankToAddr i)).map rankToAddr).getD c.myAddress := by
  induction ranks with
  | nil => rfl
  | cons i ranks ih =>
    rw [searchSucc, List.find?_cons]
    split
    · rename_i hdial
      rw [hdial]
      rfl
    · rename_i hdial
      rw [Bool.not_eq_true] at hdial
      rw [hdial]
      exact ih

end UniformBroadcast.Trains
