import UniformBroadcast.TrainContinuityStreams

/-!
# Between the last process and `front`

The stages of the crash of the relay and of its insertion, as far as the channels between
`rear`, the relay and `front` show them. `e` is the visit of the others whose train `front`
waits for, `x` how many visits `rear` has made.
-/

namespace UniformBroadcast.Trains.Continuity

variable {N ntr : ℕ}

/-! ## The channels of the path -/

def direct : Chan N := ⟨rear, front, false⟩

def toRelay : Chan N := ⟨rear, relay, false⟩

def fromRelay : Chan N := ⟨relay, front, false⟩

def frontToRear : Chan N := ⟨front, rear, true⟩

def relayToRear : Chan N := ⟨relay, rear, true⟩

def frontToRelay : Chan N := ⟨front, relay, true⟩

/-- A channel of the path. -/
def OnPath (c : Chan N) : Prop :=
  c = direct ∨ c = toRelay ∨ c = fromRelay ∨ c = frontToRear ∨ c = relayToRear ∨ c = frontToRelay

/-- What the stages are about. -/
structure View (N ntr : ℕ) where
  relayAlive : Bool
  relay : Proc ntr
  relayTags : Fin ntr → Tag
  rearSucc : Address
  frontPrec : Address
  direct : List (Msg ntr × Tag)
  toRelay : List (Msg ntr × Tag)
  fromRelay : List (Msg ntr × Tag)
  frontToRear : List (Msg ntr × Tag)
  relayToRear : List (Msg ntr × Tag)
  frontToRelay : List (Msg ntr × Tag)
  shut : Chan N → Bool

def Circle.view (s : Circle N ntr) : View N ntr where
  relayAlive := s.alive Continuity.relay
  relay := s.procs Continuity.relay
  relayTags := s.tags Continuity.relay
  rearSucc := (s.procs rear).succ
  frontPrec := (s.procs front).prec
  direct := s.chans Continuity.direct
  toRelay := s.chans Continuity.toRelay
  fromRelay := s.chans Continuity.fromRelay
  frontToRear := s.chans Continuity.frontToRear
  relayToRear := s.chans Continuity.relayToRear
  frontToRelay := s.chans Continuity.frontToRelay
  shut := s.shut

/-! ## The crash of the relay -/

section Crash

variable (M : Members (N + 1)) (hntr : 0 < ntr) (τ : ℕ → ℕ) (e x : ℕ) (v : View N ntr)

/-- The relay, which has made `y` visits, is in the ring. -/
structure InRing (y : ℕ) : Prop where
  alive : v.relayAlive = true
  state : v.relay.automatonState = .several
  succ : v.relay.succ = M.addr front
  prec : v.relay.prec = M.addr rear
  lis : idPlus v.relay.lis 1 = trainId hntr y
  full : ntr ≤ y
  window : Window hntr τ N N y v.relay.lts v.relayTags
  rearSucc : v.rearSucc = M.addr relay
  frontPrec : v.frontPrec = M.addr relay
  toRelay : Stream hntr τ (N - 1) (N - 1) y v.toRelay
  toRelay_length : y + v.toRelay.length = x
  fromRelay : Stream hntr τ N N e v.fromRelay
  fromRelay_length : e + v.fromRelay.length = y
  direct : v.direct = []
  frontToRear : v.frontToRear = []
  relayToRear : v.relayToRear = []
  frontToRelay : v.frontToRelay = []
  shut : ∀ c, v.shut c = false

/-- `rear` has taken the loss of the relay into account, or not. -/
def RearWaits : Prop := v.rearSucc = M.addr relay ∨ v.rearSucc = 0#16

/-- A channel that holds nothing but disconnections from a successor. -/
def OnlyDisconnections (l : List (Msg ntr × Tag)) : Prop :=
  ∀ m ∈ l, ∃ sender, m.1 = .disconnectSucc sender

/-- It has crashed and `front` has trains of it to treat, then the loss. -/
structure Lost : Prop where
  alive : v.relayAlive = false
  rearSucc : RearWaits M v
  frontPrec : v.frontPrec = M.addr relay
  fromRelay : ∃ l, v.fromRelay = l ++ [notice M relay false] ∧ Stream hntr τ (N - 1) N e l ∧
    e + l.length ≤ x
  direct : v.direct = []
  frontToRear : v.frontToRear = []
  relayToRear : OnlyDisconnections v.relayToRear
  frontToRelay : v.frontToRelay = []
  shut : ∀ c, v.shut c = false

/-- `front` has told `rear` that it is its new successor. -/
structure Told : Prop where
  alive : v.relayAlive = false
  rearSucc : RearWaits M v
  direct : v.direct = []
  fromRelay : v.fromRelay = []
  frontToRear : v.frontToRear = [(.newSucc (M.addr front), .none)]
  relayToRear : OnlyDisconnections v.relayToRear
  frontToRelay : v.frontToRelay = []
  shut : ∀ c, v.shut c = false

/-- `rear` has sent its last trains again to `front` and goes on, as long as it has a
successor. -/
structure Resent : Prop where
  alive : v.relayAlive = false
  direct : ∃ r, Stream hntr τ (N - 1) N r v.direct ∧ r ≤ e ∧ e ≤ r + ntr ∧
    (v.rearSucc = M.addr front ∧ r + v.direct.length = x ∨
      v.rearSucc = 0#16 ∧ r + v.direct.length ≤ x)
  fromRelay : v.fromRelay = []
  frontToRear : v.frontToRear = []
  relayToRear : OnlyDisconnections v.relayToRear
  frontToRelay : v.frontToRelay = []
  shut : ∀ c, v.shut c = true → c = Continuity.toRelay ∨ c = Continuity.relayToRear

end Crash

/-! ## Its insertion -/

section Insertion

variable (M : Members (N + 1)) (hntr : 0 < ntr) (τ : ℕ → ℕ) (e x : ℕ) (v : View N ntr)

/-- `rear` sends to `front`, which has accepted no other predecessor. -/
structure Adjacent : Prop where
  rearSucc : v.rearSucc = M.addr front
  frontPrec : v.frontPrec = M.addr rear
  direct : Stream hntr τ (N - 1) N e v.direct
  direct_length : e + v.direct.length = x
  toRelay : v.toRelay = []
  frontToRear : v.frontToRear = []
  relayToRear : v.relayToRear = []
  frontToRelay : v.frontToRelay = []
  shut : ∀ c, v.shut c = false

/-- The relay is not there. -/
structure Absent : Prop extends Adjacent M hntr τ e x v where
  alive : v.relayAlive = false
  fromRelay : v.fromRelay = []

/-- A relay that has handled no train yet. -/
structure NewRelay (state : State) : Prop where
  alive : v.relayAlive = true
  state : v.relay.automatonState = state
  succ : v.relay.succ = M.addr front
  circuit : ∀ id, (v.relay.lts id).circuit = 0#16

/-- It has asked `front` to be inserted. -/
structure Asking : Prop extends NewRelay M v .offlineConnectionAttempt,
    Adjacent M hntr τ e x v where
  fromRelay : v.fromRelay = [(.insert (M.addr relay), .none)]

/-- `front` has closed the connection to `rear`; `last` bounds the trains that had been sent
on it. -/
structure Closed (last : ℕ) : Prop where
  direct : ∃ o, Stream hntr τ (N - 1) N o v.direct ∧ o ≤ e ∧ o + v.direct.length ≤ last
  frontToRear : OnlyDisconnections v.frontToRear
  shut_direct : v.shut Continuity.direct = true
  shut : ∀ c, v.shut c = true → c = Continuity.direct ∨ c = Continuity.frontToRear

/-- `front` has accepted the relay, which has not told `rear` yet, or whose message `rear` has
not treated. -/
structure Cut (state : State) (relayToRear frontToRelay : List (Msg ntr × Tag)) : Prop extends
    NewRelay M v state, Closed hntr τ e v x where
  rearSucc : v.rearSucc = M.addr front ∨ v.rearSucc = 0#16
  toRelay : v.toRelay = []
  fromRelay : v.fromRelay = []
  relayToRear : v.relayToRear = relayToRear
  frontToRelay : v.frontToRelay = frontToRelay

/-- `front` has accepted. -/
def Answered : Prop :=
  Cut M hntr τ e x v .offlineConnectionAttempt [] [(.ackInsert (M.addr rear), .none)]

/-- The relay has told `rear` that it is its new successor. -/
def Confirming : Prop :=
  Cut M hntr τ e x v .offlineConfirmationWait [(.newSucc (M.addr relay), .none)] []

/-- What the relay has sent when it has had trains up to that of visit `u`: it lets them
through until all of them list it, and handles them from then on. -/
def Relays (u : ℕ) : Prop :=
  v.relay.automatonState = .offlineConfirmationWait ∧
      (∀ id, (v.relay.lts id).circuit = 0#16 ∨
        LastSent hntr τ (N - 1) N u id (v.relay.lts id) (v.relayTags id)) ∨
    v.relay.automatonState = .several ∧ idPlus v.relay.lis 1 = trainId hntr u ∧ ntr ≤ u ∧
      Window hntr τ (N - 1) N u v.relay.lts v.relayTags

/-- `rear` has sent its last trains to the relay and goes on, as long as it has a successor;
`front` reads what comes through the relay, from visit `r` on. -/
structure Relaying (r u last : ℕ) : Prop extends Closed hntr τ e v last where
  last_le : last ≤ x
  last_lap : last ≤ r + ntr
  alive : v.relayAlive = true
  succ : v.relay.succ = M.addr front
  relays : Relays hntr τ v u
  toRelay : Stream hntr τ (N - 1) (N - 1) u v.toRelay
  rearSucc : v.rearSucc = M.addr relay ∧ u + v.toRelay.length = x ∨
    v.rearSucc = 0#16 ∧ u + v.toRelay.length ≤ x
  fromRelay : Stream hntr τ (N - 1) N r v.fromRelay
  fromRelay_length : r + v.fromRelay.length = u
  behind : r ≤ e
  close : e ≤ r + ntr
  relayToRear : v.relayToRear = []
  frontToRelay : v.frontToRelay = []

end Insertion

end UniformBroadcast.Trains.Continuity
