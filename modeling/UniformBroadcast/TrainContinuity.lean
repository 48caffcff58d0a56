import UniformBroadcast.TrainVisits

/-!
# A ring that loses or gains a process

`N + 1` processes numbered along the ring: `front` is the one that is observed, `rear` the
last but one, and `relay`, the last, is between `rear` and `front`. The relay is in the ring
from the start and may crash, or it is not there at the start and may come. What one process
sends to another as its successor, or as its predecessor, goes through a FIFO channel; the
messages that have been read and not treated yet are still in the channel. A train carries,
for the statements only, its lap, which `front` counts, and its clock not reduced modulo 256.
-/

namespace UniformBroadcast.Trains.Continuity

variable {N ntr : ℕ}

/-- The process that is observed. -/
def front : Fin (N + 1) := ⟨0, Nat.succ_pos N⟩

/-- The process that sends to the relay, or without it to `front`. -/
def rear : Fin (N + 1) := ⟨N - 1, Nat.lt_succ_of_le (Nat.sub_le N 1)⟩

/-- The process between `rear` and `front`. -/
def relay : Fin (N + 1) := ⟨N, Nat.lt_succ_self N⟩

/-- What `source` sends to `target`, which is its predecessor or its successor. -/
structure Chan (N : ℕ) where
  source : Fin (N + 1)
  target : Fin (N + 1)
  isPred : Bool
  deriving DecidableEq, Repr

/-- What comes back on the same connection. -/
def Chan.back (c : Chan N) : Chan N := ⟨c.target, c.source, !c.isPred⟩

structure Tag where
  lap : ℕ
  clock : ℕ
  deriving DecidableEq, Repr

/-- The tag of a message that is not a train. -/
def Tag.none : Tag := ⟨0, 0⟩

/-- `alive` says which processes run, `shut` which channels have been closed by one of their
ends. `tags` are those of the last trains sent; `accepted` lists the trains that `front` has
accepted, with their laps. -/
structure Circle (N ntr : ℕ) where
  procs : Fin (N + 1) → Proc ntr
  alive : Fin (N + 1) → Bool
  chans : Chan N → List (Msg ntr × Tag)
  shut : Chan N → Bool
  tags : Fin (N + 1) → Fin ntr → Tag
  accepted : List (Fin ntr × ℕ)

/-- What may happen: a broadcast, the treatment of the oldest message of a channel, the loss
of a message that was on its way when its target closed the connection, the crash of the
relay, `kept` messages of each of its channels arriving, its arrival. -/
inductive Event (N : ℕ) where
  | broadcast (i : Fin (N + 1)) (mp : Message)
  | treat (c : Chan N)
  | lose (c : Chan N)
  | crash (kept : ℕ)
  | join
  deriving DecidableEq, Repr

section Step

variable (M : Members (N + 1))

/-- The process that has an address. -/
def find (addr : Address) : Option (Fin (N + 1)) :=
  (List.finRange (N + 1)).find? fun i => M.addr i == addr

/-- The train that a process takes from a message: one that it accepts, or one that it lets
through while it waits for its confirmation. -/
def taken (p : Proc ntr) : Msg ntr → Option (Stamp ntr)
  | .train st _ _ =>
    match p.automatonState with
    | .several => if isRecentTrain st p.lts p.lis then some st else none
    | .offlineConfirmationWait => some st
    | _ => none
  | _ => none

/-- The tag of a train that leaves a process; `lc` and `lc'` are its clocks before and after. -/
def Tag.sent (t : Tag) (atFront : Bool) (lc lc' : BitVec 8) : Tag :=
  ⟨if atFront then t.lap + 1 else t.lap, t.clock + (lc' - lc).toNat⟩

/-- What the other end of a connection makes of its loss; `isPred` when it was the
predecessor of `i`. -/
def notice (i : Fin (N + 1)) (isPred : Bool) : Msg ntr × Tag :=
  (if isPred then .disconnectSucc (M.addr i) else .disconnectPred (M.addr i), .none)

namespace Circle

variable (s : Circle N ntr)

/-- `openConnection` succeeds with the processes that are there. -/
def dial (addr : Address) : Bool :=
  (List.finRange (N + 1)).any fun i => s.alive i && M.addr i == addr

def post (c : Chan N) (m : Msg ntr × Tag) : Circle N ntr :=
  if s.shut c then s
  else { s with chans := Function.update s.chans c (s.chans c ++ [m]) }

def write (i : Fin (N + 1)) (addr : Address) (isPred : Bool) (m : Msg ntr × Tag) : Circle N ntr :=
  match find M addr with
  | none => s
  | some j => s.post ⟨i, j, isPred⟩ m

def close (i : Fin (N + 1)) (addr : Address) (isPred : Bool) : Circle N ntr :=
  match find M addr with
  | none => s
  | some j =>
    let c : Chan N := ⟨i, j, isPred⟩
    if s.shut c then s
    else
      let s := s.post c (notice M i isPred)
      { s with shut := Function.update (Function.update s.shut c true) c.back true }

/-- What an action of the automaton of process `i` does. -/
def act (i : Fin (N + 1)) (s : Circle N ntr) : Action ntr → Circle N ntr
  | .sendTrain addr lts => s.write M i addr false (trainMsg lts, s.tags i lts.stamp.id)
  | .sendOther addr isPred msg => s.write M i addr isPred (msg, .none)
  | .closeConnection addr isPred => s.close M i addr isPred
  | _ => s

def actAll (i : Fin (N + 1)) (actions : List (Action ntr)) : Circle N ntr :=
  actions.foldl (act M i) s

/-- The tags after process `i` has made `q` of a message with tag `t`. -/
def tagsAfter (i : Fin (N + 1)) (m : Msg ntr × Tag) (q : Proc ntr) : Fin ntr → Tag :=
  match taken (s.procs i) m.1 with
  | none => s.tags i
  | some st => setAt (s.tags i) st.id (m.2.sent (i = front) st.lc (q.lts st.id).stamp.lc)

def acceptedAfter (i : Fin (N + 1)) (m : Msg ntr × Tag) : List (Fin ntr × ℕ) :=
  match taken (s.procs i) m.1 with
  | none => s.accepted
  | some st => if i = front then s.accepted ++ [(st.id, m.2.lap)] else s.accepted

/-- The target of `c` becomes `q`, having treated `m`; `rest` is left to treat. -/
def become (c : Chan N) (m : Msg ntr × Tag) (rest : List (Msg ntr × Tag)) (q : Proc ntr) :
    Circle N ntr :=
  { s with
    procs := Function.update s.procs c.target q
    chans := Function.update s.chans c rest
    tags := Function.update s.tags c.target (s.tagsAfter c.target m q)
    accepted := s.acceptedAfter c.target m }

/-- The relay crashes: its neighbours read what has reached them, then the loss of the
connection. -/
def crash (kept : ℕ) : Circle N ntr :=
  { s with
    alive := Function.update s.alive relay false
    chans := fun c =>
      let neighbour := if c.isPred then (s.procs relay).prec else (s.procs relay).succ
      if c.source = relay ∧ M.addr c.target = neighbour then
        (s.chans c).take kept ++ [notice M relay c.isPred]
      else s.chans c }

end Circle

def step (hntr : 0 < ntr) (s : Circle N ntr) : Event N → Option (Circle N ntr)
  | .broadcast i mp =>
    if s.alive i then
      (broadcast (M.config i) mp (s.procs i)).map fun p =>
        { s with procs := Function.update s.procs i p }
    else none
  | .treat c =>
    if s.alive c.target then
      match s.chans c with
      | [] => none
      | m :: rest =>
        (stateMachine (M.config c.target) (s.dial M) m.1 (s.procs c.target)).map fun r =>
          (s.become c m rest r.1).actAll M c.target r.2
    else none
  | .lose c =>
    if s.shut c then some { s with chans := Function.update s.chans c (s.chans c).dropLast }
    else none
  | .crash kept => if s.alive relay then some (s.crash M kept) else none
  | .join =>
    if s.alive relay then none
    else
      (automatonInit (M.config relay) (s.dial M) hntr).map fun r =>
        Circle.actAll M
          { s with
            alive := Function.update s.alive relay true
            procs := Function.update s.procs relay r.1 } relay r.2

def Event.joins : Event N → Bool
  | .join => true
  | _ => false

def Event.crashes : Event N → Bool
  | .crash _ => true
  | _ => false

/-- A train that is treated is not ignored. -/
def Accepts (s : Circle N ntr) : Event N → Prop
  | .treat c =>
    match s.chans c with
    | (.train stamp _ _, _) :: _ =>
      isRecentTrain stamp (s.procs c.target).lts (s.procs c.target).lis = true
    | _ => True
  | _ => True

/-- A train that the process waits for comes before the clock of its last train with this
number has advanced by 128. -/
def Timely (p : Proc ntr) (tags : Fin ntr → Tag) : Msg ntr × Tag → Prop
  | (.train stamp _ _, tag) =>
    stamp.id = idPlus p.lis 1 → (tags stamp.id).clock < tag.clock + 128
  | _ => True

/-- What is left on a connection that has been closed is treated in time. -/
def InTime (s : Circle N ntr) : Event N → Prop
  | .treat c =>
    match s.chans c with
    | [] => True
    | m :: _ => s.shut c = true → Timely (s.procs c.target) (s.tags c.target) m
  | _ => True

/-! ## The ring at the start -/

/-- The process before `i` in a ring with or without the relay. -/
def before (withRelay : Bool) (i : Fin (N + 1)) : Fin (N + 1) :=
  if i = front then if withRelay then relay else rear
  else ⟨i.val - 1, Nat.lt_of_le_of_lt (Nat.sub_le i.val 1) i.isLt⟩

/-- The process after it. -/
def after (withRelay : Bool) (i : Fin (N + 1)) : Fin (N + 1) :=
  if i = relay ∨ i = rear ∧ withRelay = false then front
  else ⟨(i.val + 1) % (N + 1), Nat.mod_lt _ (Nat.succ_pos N)⟩

/-- The circuit of a ring with or without the relay. -/
def circuitOf (withRelay : Bool) : Address :=
  if withRelay then M.circuit else M.circuit &&& ~~~ M.addr relay

/-- A ring at work: the trains have gone round, `clock` are the clocks that `front` has sent
them with, and stand before `front`. -/
def formed (hntr : 0 < ntr) (withRelay : Bool) (clock : Fin ntr → BitVec 8) : Circle N ntr where
  procs i := { Proc.initial (M.config i) hntr with
    automatonState := .several
    prec := M.addr (before withRelay i)
    succ := M.addr (after withRelay i)
    lts := fun id =>
      ⟨⟨id, clock id + BitVec.ofNat 8 i.val, 0⟩, circuitOf M withRelay, none, 0, none⟩ }
  alive i := i ≠ relay || withRelay
  chans c := if c = ⟨before withRelay front, front, false⟩ then
      (List.finRange ntr).map fun id =>
        (.train ⟨id, clock id + BitVec.ofNat 8 c.source.val, 0⟩ (circuitOf M withRelay) (some []),
          ⟨1, (clock id).toNat + c.source.val⟩)
    else []
  shut _ := false
  tags i id := ⟨1, (clock id).toNat + i.val⟩
  accepted := []

end Step

end UniformBroadcast.Trains.Continuity
