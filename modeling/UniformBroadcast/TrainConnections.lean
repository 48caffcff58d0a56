import UniformBroadcast.TrainStateMachine
import UniformBroadcast.TransitionRuns

/-!
# The connections of a process

Translation of `management_addr.c`, of `connect.c` and of `receive`. Each connection has
a thread that reads it and a thread that treats the messages read, one after the other. The
treatments of all connections are serialised by `stateMachineMutex`, but a thread registers the
connection of an `INSERT` or of a `NEWSUCC` before it takes this mutex, and the threads that
read free connections without it: both fall anywhere between two calls of a treatment. A
connection is a number, `none` in a queue is the `NULL` that ends its treatment. The state also
keeps, for the statements only, which connections are those to the successor and to the
predecessor and the last `NEWSUCC` treated.
-/

namespace UniformBroadcast.Trains

variable {ntr : ℕ}

/-! ## `globalAddrArray` -/

/-- The two places of an `ADDR`: a connection and its `isPred`. -/
structure Addr where
  tcomm0 : Option (ℕ × Bool)
  tcomm1 : Option (ℕ × Bool)
  deriving DecidableEq, Repr

/-- `globalAddrArray`, by rank. -/
abbrev AddrArray := ℕ → Addr

/-- `none` is the `abort` when both places are taken. -/
def addTComm (tcomm i : ℕ) (isPred : Bool) (array : AddrArray) : Option AddrArray :=
  if (array i).tcomm0 = none then
    some (Function.update array i { array i with tcomm0 := some (tcomm, isPred) })
  else if (array i).tcomm1 = none then
    some (Function.update array i { array i with tcomm1 := some (tcomm, isPred) })
  else none

/-- The connection of a place that has this `isPred`. -/
def Addr.withPred (isPred : Bool) (place : Option (ℕ × Bool)) : Option ℕ :=
  place.bind fun t => if t.2 = isPred then some t.1 else none

def getTComm (i : ℕ) (isPred : Bool) (array : AddrArray) : Option ℕ :=
  (Addr.withPred isPred (array i).tcomm0).or (Addr.withPred isPred (array i).tcomm1)

def removeTComm (tcomm i : ℕ) (array : AddrArray) : AddrArray :=
  if (array i).tcomm0.map Prod.fst = some tcomm then
    Function.update array i { array i with tcomm0 := none }
  else if (array i).tcomm1.map Prod.fst = some tcomm then
    Function.update array i { array i with tcomm1 := none }
  else array

/-- The `isPred` of a place that holds this connection. -/
def Addr.predOf (tcomm : ℕ) (place : Option (ℕ × Bool)) : Option Bool :=
  place.bind fun t => if t.1 = tcomm then some t.2 else none

/-- The rank and the `isPred` of a connection; `none` for the rank `-1`. -/
def searchTComm (tcomm : ℕ) (array : AddrArray) : Option (ℕ × Bool) :=
  (List.range np).findSome? fun i =>
    ((Addr.predOf tcomm (array i).tcomm0).or (Addr.predOf tcomm (array i).tcomm1)).map (i, ·)

/-! ## A process with its connections -/

/-- A treatment that holds `stateMachineMutex`: its message, the process and the connection to the
predecessor when it took the mutex, and the calls that it has still to make. -/
structure Running (ntr : ℕ) where
  tcomm : ℕ
  message : Msg ntr
  before : Proc ntr
  precConn : Option ℕ
  calls : List (Action ntr)

/-- `held` has the message that the thread of a connection has taken and registered, until it
takes `stateMachineMutex`. -/
structure Host (ntr : ℕ) where
  proc : Proc ntr
  array : AddrArray
  conns : ℕ
  reads : ℕ → Bool
  closed : ℕ → Bool
  treats : ℕ → Bool
  queues : ℕ → List (Option (Msg ntr))
  held : ℕ → Option (Msg ntr)
  running : Option (Running ntr)
  succConn : Option ℕ
  precConn : Option ℕ
  lastNewSucc : Option (ℕ × Address)

/-- What can happen to a process: another opens a connection to it, a message arrives, a
connection is lost or was closed, a thread takes the oldest message of its queue, or takes
`stateMachineMutex`, the treatment makes its next call, the sleep before a new attempt ends, the
application broadcasts. The processes that accept a connection at that time are given as a set of
addresses. -/
inductive HostEvent (ntr : ℕ) where
  | accept
  | receive (tcomm : ℕ) (m : Msg ntr)
  | lose (tcomm : ℕ)
  | dequeue (tcomm : ℕ)
  | treat (tcomm : ℕ) (reachable : Address)
  | call
  | wake (reachable : Address)
  | broadcast (mp : Message)
  deriving DecidableEq, Repr

def isDisconnect : Msg ntr → Bool
  | .disconnectPred _ | .disconnectSucc _ => true
  | _ => false

def reaches (reachable addr : Address) : Bool := addrIsMember addr reachable

namespace Host

variable (h : Host ntr)

/-- A new connection with its two threads. -/
def connect : Host ntr :=
  { h with
    conns := h.conns + 1
    reads := Function.update h.reads h.conns true
    treats := Function.update h.treats h.conns true }

def enqueue (tcomm : ℕ) (m : Option (Msg ntr)) : Host ntr :=
  { h with queues := Function.update h.queues tcomm (h.queues tcomm ++ [m]) }

/-- The end of the thread that reads a connection. -/
def stopReading (tcomm : ℕ) : Host ntr := { h with reads := Function.update h.reads tcomm false }

/-- The end of the thread that treats the messages of a connection. -/
def stopTreating (tcomm : ℕ) : Host ntr := { h with treats := Function.update h.treats tcomm false }

def openConnection (addr : Address) (isPred : Bool) : Option (Host ntr) := do
  let rank ← addrToRank addr
  let array ← addTComm h.conns rank isPred h.array
  return { h.connect with
    array := array
    succConn := if isPred then h.succConn else some h.conns
    precConn := if isPred then some h.conns else h.precConn }

def closeConnection (addr : Address) (isPred : Bool) : Option (Host ntr) := do
  let rank ← addrToRank addr
  match getTComm rank isPred h.array with
  | none => return h
  | some tcomm =>
    return { h with
      array := removeTComm tcomm rank h.array
      closed := Function.update h.closed tcomm true }

/-- What an action of the automaton does to the connections. -/
def act : Action ntr → Option (Host ntr)
  | .openConnection addr isPred true => h.openConnection addr isPred
  | .closeConnection addr isPred => h.closeConnection addr isPred
  | _ => some h

def actAll (actions : List (Action ntr)) : Option (Host ntr) := actions.foldlM act h

/-- A connection is opened to a predecessor, or to a successor. -/
def opened (isPred : Bool) (actions : List (Action ntr)) : Bool :=
  actions.any fun
    | .openConnection _ b true => b == isPred
    | _ => false

def accepted (actions : List (Action ntr)) : Bool :=
  actions.any fun
    | .sendOther _ true (.ackInsert _) => true
    | _ => false

/-- The sender of a `NEWSUCC` that the process, now `q`, has taken for its successor. -/
def named (m : Msg ntr) (q : Proc ntr) : Option Address :=
  match m with
  | .newSucc sender => if q.automatonState = .several then some sender else none
  | _ => none

section Track

variable (tcomm : ℕ) (m : Msg ntr) (q : Proc ntr) (actions : List (Action ntr))

/-- The connection to the successor when the treatment of `m`, read on `tcomm`, has made
the process `q`; one that it opens comes with the call. -/
def succConnAfter : Option ℕ :=
  if (named m q).isSome then some tcomm
  else if q.succ = h.proc.succ then h.succConn else none

/-- The same for the predecessor, which an `INSERT` accepted replaces. -/
def precConnAfter : Option ℕ :=
  if opened true actions then none
  else if accepted actions then some tcomm
  else if q.prec = h.proc.prec then h.precConn else none

/-- The last `NEWSUCC`, until the loss of its connection is treated. -/
def lastNewSuccAfter : Option (ℕ × Address) :=
  match named m q with
  | some sender => some (tcomm, sender)
  | none => if isDisconnect m ∧ h.lastNewSucc.map Prod.fst = some tcomm then none else h.lastNewSucc

end Track

/-- What `msgTreatment` does before `stateMachine`. -/
def register (tcomm : ℕ) (m : Msg ntr) : Option AddrArray :=
  match m with
  | .insert sender => (addrToRank sender).bind fun rank => addTComm tcomm rank true h.array
  | .newSucc sender => (addrToRank sender).bind fun rank => addTComm tcomm rank false h.array
  | _ => some h.array

/-- The thread of a connection is in `stateMachine`. -/
def isRunning (tcomm : ℕ) : Bool := h.running.any (·.tcomm = tcomm)

/-- `msgTreatment` takes the oldest message of its queue. -/
def dequeue (tcomm : ℕ) : Option (Host ntr) :=
  match h.queues tcomm with
  | [] => none
  | none :: rest =>
    some (stopTreating { h with queues := Function.update h.queues tcomm rest } tcomm)
  | some m :: rest => (h.register tcomm m).map fun array => { h with
      queues := Function.update h.queues tcomm rest
      array := array
      held := Function.update h.held tcomm (some m) }

/-- The treatment with the calls that it has still to make, if any. -/
def runs (r : Running ntr) : Option (Running ntr) := if r.calls.isEmpty then none else some r

/-- `stateMachine` up to its first call. -/
def treat (conf : Config) (reachable : Address) (tcomm : ℕ) (m : Msg ntr) : Option (Host ntr) :=
  (stateMachine conf (reaches reachable) m h.proc).map fun (q, actions) =>
    let h' := { h with
      proc := q
      held := Function.update h.held tcomm none
      running := runs ⟨tcomm, m, h.proc, h.precConn, actions⟩
      succConn := h.succConnAfter tcomm m q
      precConn := h.precConnAfter tcomm q actions
      lastNewSucc := h.lastNewSuccAfter tcomm m q }
    if isDisconnect m then h'.stopTreating tcomm else h'

/-- The next call of the treatment. -/
def call (r : Running ntr) : Option (Host ntr) :=
  match r.calls with
  | [] => none
  | a :: calls => (h.act a).map fun h' => { h' with running := runs { r with calls := calls } }

/-- What `receive` makes of the loss of a connection. -/
def disconnect (rank : ℕ) (isPred : Bool) : Msg ntr :=
  if isPred then .disconnectPred (rankToAddr rank) else .disconnectSucc (rankToAddr rank)

def step (conf : Config) (h : Host ntr) : HostEvent ntr → Option (Host ntr)
  | .accept => some h.connect
  | .receive tcomm m =>
    if h.reads tcomm ∧ ¬h.closed tcomm ∧ ¬isDisconnect m then some (h.enqueue tcomm (some m))
    else none
  | .lose tcomm =>
    if h.reads tcomm then
      match searchTComm tcomm h.array with
      | none => some ((h.stopReading tcomm).enqueue tcomm none)
      | some (rank, isPred) =>
        ((h.stopReading tcomm).enqueue tcomm (some (disconnect rank isPred))).closeConnection
          (rankToAddr rank) isPred
    else none
  | .dequeue tcomm =>
    if h.treats tcomm ∧ h.held tcomm = none ∧ ¬h.isRunning tcomm then h.dequeue tcomm else none
  | .treat tcomm reachable =>
    if h.running.isNone then (h.held tcomm).bind (h.treat conf reachable tcomm) else none
  | .call => h.running.bind h.call
  | .wake reachable =>
    if h.proc.automatonState = .wait ∧ h.running.isNone then do
      let (q, actions) ← sleepTreatment conf (reaches reachable) h.proc
      actAll { h with proc := q, succConn := none } actions
    else none
  | .broadcast mp => (Trains.broadcast conf mp h.proc).map fun q => { h with proc := q }

/-- A process when it starts, the processes of `reachable` being there. -/
def start (conf : Config) (hntr : 0 < ntr) (reachable : Address) : Option (Host ntr) := do
  let (q, actions) ← automatonInit conf (reaches reachable) hntr
  actAll
    { proc := q
      array := fun _ => ⟨none, none⟩
      conns := 0
      reads := fun _ => false
      closed := fun _ => false
      treats := fun _ => false
      queues := fun _ => []
      held := fun _ => none
      running := none
      succConn := none
      precConn := none
      lastNewSucc := none } actions

end Host

/-! ## What the calls leave as it is -/

namespace Host

/-- The same process, the same treatment and the same last `NEWSUCC`. -/
structure Frame (h h' : Host ntr) : Prop where
  proc : h'.proc = h.proc
  running : h'.running = h.running
  lastNewSucc : h'.lastNewSucc = h.lastNewSucc

variable {h h' : Host ntr} {addr : Address} {isPred : Bool}

theorem openConnection_frame (ho : h.openConnection addr isPred = some h') : Frame h h' := by
  obtain ⟨rank, -, ho⟩ := Option.bind_eq_some_iff.mp ho
  obtain ⟨array, -, ho⟩ := Option.bind_eq_some_iff.mp ho
  cases ho
  exact ⟨rfl, rfl, rfl⟩

theorem closeConnection_frame (hc : h.closeConnection addr isPred = some h') : Frame h h' := by
  obtain ⟨rank, -, hc⟩ := Option.bind_eq_some_iff.mp hc
  split at hc
  · cases hc
    exact ⟨rfl, rfl, rfl⟩
  · cases hc
    exact ⟨rfl, rfl, rfl⟩

theorem closeConnection_succConn (hc : h.closeConnection addr isPred = some h') :
    h'.succConn = h.succConn := by
  obtain ⟨rank, -, hc⟩ := Option.bind_eq_some_iff.mp hc
  split at hc
  · cases hc
    rfl
  · cases hc
    rfl

theorem act_frame {a : Action ntr} (ha : h.act a = some h') : Frame h h' := by
  cases a with
  | openConnection addr isPred opened =>
    cases opened with
    | true => exact openConnection_frame ha
    | false =>
      cases ha
      exact ⟨rfl, rfl, rfl⟩
  | closeConnection addr isPred => exact closeConnection_frame ha
  | participate | sendOther | sendTrain | sleep =>
    cases ha
    exact ⟨rfl, rfl, rfl⟩

theorem actAll_frame {actions : List (Action ntr)} (ha : h.actAll actions = some h') :
    Frame h h' := by
  induction actions generalizing h with
  | nil =>
    cases ha
    exact ⟨rfl, rfl, rfl⟩
  | cons a actions ih =>
    rw [actAll, List.foldlM_cons] at ha
    obtain ⟨k, hk, ha⟩ := Option.bind_eq_some_iff.mp ha
    obtain ⟨hproc, hrunning, hlast⟩ := act_frame hk
    obtain ⟨hproc', hrunning', hlast'⟩ := ih ha
    exact ⟨hproc'.trans hproc, hrunning'.trans hrunning, hlast'.trans hlast⟩

end Host

/-- The treatment of the oldest message of a queue, without anything in between. -/
def treatment (tcomm : ℕ) (reachable : Address) (calls : ℕ) : List (HostEvent ntr) :=
  .dequeue tcomm :: .treat tcomm reachable :: List.replicate calls .call

/-- A process alone takes `b` for its neighbour, on connections 0 and 1. -/
def neighbour (b : Address) : List (HostEvent ntr) :=
  .accept :: .receive 0 (.insert b) :: treatment 0 0#16 1 ++
    .accept :: .receive 1 (.newSucc b) :: treatment 1 0#16 ntr

end UniformBroadcast.Trains
