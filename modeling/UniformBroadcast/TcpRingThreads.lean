import UniformBroadcast.TcpRingSystem

/-!
# The two threads of a node of the TCP ring

`send_msg` runs in one thread and `handle_msg`, `handle_ack` in another, without a lock.
Each call that reads or writes the shared vectors, the counter `ack_num` or the connection
is one step. A message saved in `vector_ack` keeps, for the statements only, the index at
which it was put.
-/

namespace UniformBroadcast.TcpRing

open Sequencer TransitionRuns

variable {N : ℕ}

/-- Where the sender thread is: the next call to make and the message or acknowledgement it
holds. -/
inductive SendPc (N : ℕ) where
  | ready
  | broadcastMsg (m : Bcast N)
  | save (m : Bcast N)
  | update (m : Bcast N) (p : ℕ)
  | count (m : Bcast N) (p : ℕ)
  | prepareAck (m : Bcast N) (p : ℕ)
  | broadcastAck (k : Ack N)
  deriving DecidableEq, Repr

/-- Where the receiver thread is. -/
inductive RecvPc (N : ℕ) where
  | ready
  | transferMsg (m : Bcast N)
  | update (m : Bcast N)
  | save (m : Bcast N)
  | count (m : Bcast N) (p : ℕ)
  | prepareAck (m : Bcast N) (p : ℕ)
  | broadcastAck (k : Ack N)
  | move (k : Ack N)
  | learn (k : Ack N)
  | transferAck (k : Ack N)
  deriving DecidableEq, Repr

/-- A node and its threads. -/
structure Threads (N : ℕ) where
  node : Node N
  sender : SendPc N
  receiver : RecvPc N

/-- One step of `send_msg`, and what it writes on the connection to the successor. -/
def sendThread (self : Fin N) (t : Threads N) : Threads N × List (Msg N) :=
  match t.sender with
  | .ready =>
    let n := { t.node with seqNum := t.node.seqNum + 1 }
    ({ t with node := n, sender := .broadcastMsg ⟨self, n.seqNum, n.ackNum⟩ }, [])
  | .broadcastMsg m => ({ t with sender := .save m }, [.b m])
  | .save m =>
    if self.val = 0 then
      ({ t with
        node := saveMsgInVectorAck (confBits self) m t.node
        sender := .update m t.node.order.length }, [])
    else ({ t with node := saveMsgInVectorNoAck m t.node, sender := .ready }, [])
  | .update m p => ({ t with node := updateVector m t.node, sender := .count m p }, [])
  | .count m p =>
    ({ t with
      node := { t.node with ackNum := t.node.ackNum + 1 }
      sender := .prepareAck m p }, [])
  | .prepareAck m _ =>
    ({ t with sender := .broadcastAck ⟨m.idProcess, m.seq, t.node.ackNum⟩ }, [])
  | .broadcastAck k => ({ t with sender := .ready }, [.a k])

/-- The beginning of `handle_msg` and of `handle_ack`. -/
def receiveMsg (self : Fin N) (message : Msg N) (t : Threads N) : Threads N :=
  match message with
  | .b m =>
    { t with
      receiver := if self ≠ getPredecessor m.idProcess then .transferMsg m else .update m }
  | .a k => { t with receiver := if self.val ≠ 0 then .move k else .ready }

/-- One step of `handle_msg` or of `handle_ack`. -/
def recvThread (self : Fin N) (t : Threads N) : Threads N × List (Msg N) :=
  match t.receiver with
  | .ready => (t, [])
  | .transferMsg m => ({ t with receiver := .update m }, [.b m])
  | .update m => ({ t with node := updateVector m t.node, receiver := .save m }, [])
  | .save m =>
    if self.val = 0 then
      ({ t with
        node := saveMsgInVectorAck (confBits self) m t.node
        receiver := .count m t.node.order.length }, [])
    else ({ t with node := saveMsgInVectorNoAck m t.node, receiver := .ready }, [])
  | .count m p =>
    ({ t with
      node := { t.node with ackNum := t.node.ackNum + 1 }
      receiver := .prepareAck m p }, [])
  | .prepareAck m _ =>
    ({ t with receiver := .broadcastAck ⟨m.idProcess, m.seq, t.node.ackNum⟩ }, [])
  | .broadcastAck k => ({ t with receiver := .ready }, [.a k])
  | .move k =>
    ({ t with node := moveMsgInVectorAck (confBits self) k t.node, receiver := .learn k }, [])
  | .learn k =>
    ({ t with
      node := { t.node with ackNum := k.revNum }
      receiver := if (self.val + 1) % N ≠ 0 then .transferAck k else .ready }, [])
  | .transferAck k => ({ t with receiver := .ready }, [.a k])

/-- The nodes and the connections. `wrote` and `took`, all that a node has written on its
connection and all that it has read from that of its predecessor, are there for the
statements only. -/
structure ThreadedRing (N : ℕ) where
  threads : Fin N → Threads N
  inbox : Fin N → List (Msg N)
  wrote : Fin N → List (Msg N)
  took : Fin N → List (Msg N)

/-- A step of the sender thread or of the receiver thread of a node. -/
inductive ThreadEvent (N : ℕ) where
  | send (i : Fin N)
  | recv (i : Fin N)
  deriving DecidableEq, Repr

def ThreadedRing.initial : ThreadedRing N where
  threads := fun _ => ⟨Node.initial, .ready, .ready⟩
  inbox := fun _ => []
  wrote := fun _ => []
  took := fun _ => []

namespace ThreadedRing

/-- The threads of node `i` become `r.1` and have written `r.2`. -/
def after (s : ThreadedRing N) (i : Fin N) (r : Threads N × List (Msg N)) : ThreadedRing N :=
  { s with
    threads := Function.update s.threads i r.1
    inbox := Function.update s.inbox (getSuccessor i) (s.inbox (getSuccessor i) ++ r.2)
    wrote := Function.update s.wrote i (s.wrote i ++ r.2) }

/-- Node `i` takes a message from its connection and keeps `rest` to read. -/
def receive (s : ThreadedRing N) (i : Fin N) (message : Msg N) (rest : List (Msg N)) :
    ThreadedRing N :=
  { s with
    threads := Function.update s.threads i (receiveMsg i message (s.threads i))
    inbox := Function.update s.inbox i rest
    took := Function.update s.took i (s.took i ++ [message]) }

def step (s : ThreadedRing N) : ThreadEvent N → Option (ThreadedRing N)
  | .send i => some (s.after i (sendThread i (s.threads i)))
  | .recv i =>
    if (s.threads i).receiver = .ready then
      match s.inbox i with
      | [] => none
      | message :: rest => some (s.receive i message rest)
    else some (s.after i (recvThread i (s.threads i)))

end ThreadedRing

/-! ## Threads that are not interrupted -/

/-- `k` steps of one thread in a row, and all that they write. -/
def iterate (f : Threads N → Threads N × List (Msg N)) : ℕ → Threads N → Threads N × List (Msg N)
  | 0, t => (t, [])
  | k + 1, t => ((iterate f k (f t).1).1, (f t).2 ++ (iterate f k (f t).1).2)

/-- The steps of the sender thread make up one iteration of `send_msg`. -/
theorem iterate_sendThread (self : Fin N) (n : Node N) (pc : RecvPc N) :
    ∃ k, iterate (sendThread self) k ⟨n, .ready, pc⟩ =
      (⟨(sendMsg self n).1, .ready, pc⟩, (sendMsg self n).2) := by
  by_cases h : self.val = 0
  · refine ⟨7, ?_⟩
    simp [iterate, sendThread, sendMsg, h, updateVector, saveMsgInVectorAck]
  · refine ⟨3, ?_⟩
    simp [iterate, sendThread, sendMsg, h]

/-- The steps of the receiver thread make up one call of `handle_msg`. -/
theorem iterate_recvThread_msg (self : Fin N) (m : Bcast N) (n : Node N) (pc : SendPc N) :
    ∃ k, iterate (recvThread self) k (receiveMsg self (.b m) ⟨n, pc, .ready⟩) =
      (⟨(handleMsg self m n).1, pc, .ready⟩, (handleMsg self m n).2) := by
  by_cases h : self.val = 0
  · by_cases hback : self = getPredecessor m.idProcess
    · refine ⟨5, ?_⟩
      simp only [receiveMsg, handleMsg, if_neg (not_not.mpr hback)]
      simp [iterate, recvThread, h, saveMsgInVectorAck]
    · refine ⟨6, ?_⟩
      simp [iterate, receiveMsg, recvThread, handleMsg, h, hback, saveMsgInVectorAck]
  · by_cases hback : self = getPredecessor m.idProcess
    · refine ⟨2, ?_⟩
      simp only [receiveMsg, handleMsg, if_neg (not_not.mpr hback)]
      simp [iterate, recvThread, h]
    · refine ⟨3, ?_⟩
      simp [iterate, receiveMsg, recvThread, handleMsg, h, hback]

theorem iterate_recvThread_ack (self : Fin N) (a : Ack N) (n : Node N) (pc : SendPc N) :
    ∃ k, iterate (recvThread self) k (receiveMsg self (.a a) ⟨n, pc, .ready⟩) =
      (⟨(handleAck self a n).1, pc, .ready⟩, (handleAck self a n).2) := by
  by_cases h : self.val = 0
  · refine ⟨0, ?_⟩
    simp [iterate, receiveMsg, handleAck, h]
  · by_cases hlast : (self.val + 1) % N = 0
    · refine ⟨2, ?_⟩
      simp [iterate, receiveMsg, recvThread, handleAck, h, hlast]
    · refine ⟨3, ?_⟩
      simp [iterate, receiveMsg, recvThread, handleAck, h, hlast]

end UniformBroadcast.TcpRing
