import UniformBroadcast.SequencerNode

/-!
# One node of the TCP ring protocol

Translation of the message path of `protocol_tcp/main.c`. A broadcast travels along the
ring up to the predecessor of its sender; the leader numbers the broadcasts and sends an
acknowledgement after each one, which travels up to the last node. Each handler returns
the messages it writes on the connection to the successor, in the order of the writes.
-/

namespace UniformBroadcast.TcpRing

open Sequencer SequencedStreams

variable {N : ℕ}

/-- `conf_bits`: every node but this one. -/
def confBits (self : Fin N) : BitVec 32 :=
  ((1#32 <<< N) - 1#32) &&& ~~~(1#32 <<< self.val)

def getPredecessor (pId : Fin N) : Fin N :=
  ⟨if pId.val = 0 then N - 1 else pId.val - 1, by have := pId.isLt; split <;> omega⟩

/-- The node at the other end of `successor_sid`. -/
def getSuccessor (pId : Fin N) : Fin N :=
  ⟨if pId.val ≠ N - 1 then pId.val + 1 else 0, by have := pId.isLt; split <;> omega⟩

/-- One iteration of the loop of `send_msg`. -/
def sendMsg (self : Fin N) (n : Node N) : Node N × List (Msg N) :=
  let n := { n with seqNum := n.seqNum + 1 }
  let msgSample : Bcast N := ⟨self, n.seqNum, n.ackNum⟩
  if self.val = 0 then
    let n := updateVector msgSample (saveMsgInVectorAck (confBits self) msgSample n)
    let n := { n with ackNum := n.ackNum + 1 }
    (n, [.b msgSample, .a ⟨msgSample.idProcess, msgSample.seq, n.ackNum⟩])
  else
    (saveMsgInVectorNoAck msgSample n, [.b msgSample])

def handleMsg (self : Fin N) (recvMsg : Bcast N) (n : Node N) : Node N × List (Msg N) :=
  let transfer : List (Msg N) :=
    if self ≠ getPredecessor recvMsg.idProcess then [.b recvMsg] else []
  let n := updateVector recvMsg n
  if self.val = 0 then
    let n := saveMsgInVectorAck (confBits self) recvMsg n
    let n := { n with ackNum := n.ackNum + 1 }
    (n, transfer ++ [.a ⟨recvMsg.idProcess, recvMsg.seq, n.ackNum⟩])
  else
    (saveMsgInVectorNoAck recvMsg n, transfer)

def handleAck (self : Fin N) (recvAck : Ack N) (n : Node N) : Node N × List (Msg N) :=
  if self.val ≠ 0 then
    let n := moveMsgInVectorAck (confBits self) recvAck n
    let n := { n with ackNum := recvAck.revNum }
    (n, if (self.val + 1) % N ≠ 0 then [.a recvAck] else [])
  else (n, [])

/-! ## One spec for each handler -/

/-- The broadcast that the next iteration of `send_msg` sends. -/
def nextMsg (self : Fin N) (n : Node N) : Bcast N := ⟨self, n.seqNum + 1, n.ackNum⟩

theorem sendMsg_leader {self : Fin N} (h : self.val = 0) (n : Node N) :
    let r := sendMsg self n
    r.2 = [.b (nextMsg self n), .a ⟨self, n.seqNum + 1, n.ackNum + 1⟩] ∧
      r.1.order = n.order ++ [some (nextMsg self n)] ∧ r.1.seqNum = n.seqNum + 1 ∧
      r.1.ackNum = n.ackNum + 1 ∧ r.1.vectorNoAck = n.vectorNoAck := by
  simp only [sendMsg, h, ↓reduceIte]
  refine ⟨?_, ?_, ?_, ?_, ?_⟩
  · simp [updateVector, saveMsgInVectorAck, nextMsg]
  · exact (updateVectorBy_order _ _ _).trans (saveMsgInVectorAck_order _ _ _)
  · exact updateVectorBy_seqNum _ _ _
  · exact congrArg (· + 1) (updateVectorBy_ackNum _ _ _)
  · exact updateVectorBy_vectorNoAck _ _ _

theorem sendMsg_follower {self : Fin N} (h : self.val ≠ 0) (n : Node N) :
    sendMsg self n = (saveMsgInVectorNoAck (nextMsg self n) { n with seqNum := n.seqNum + 1 },
      [.b (nextMsg self n)]) := by
  simp only [sendMsg, h, ↓reduceIte, nextMsg]

/-- What `handle_msg` forwards: nothing when the successor is the sender. -/
def transferred (self : Fin N) (recvMsg : Bcast N) : List (Msg N) :=
  if self ≠ getPredecessor recvMsg.idProcess then [.b recvMsg] else []

theorem handleMsg_leader {self : Fin N} (h : self.val = 0) (m : Bcast N) (n : Node N) :
    let r := handleMsg self m n
    r.2 = transferred self m ++ [.a ⟨m.idProcess, m.seq, n.ackNum + 1⟩] ∧
      r.1.order = n.order ++ [some m] ∧ r.1.seqNum = n.seqNum ∧ r.1.ackNum = n.ackNum + 1 ∧
      r.1.vectorNoAck = n.vectorNoAck := by
  simp only [handleMsg, h, ↓reduceIte]
  refine ⟨?_, ?_, ?_, ?_, ?_⟩
  · simp [updateVector, saveMsgInVectorAck, transferred]
  · exact (saveMsgInVectorAck_order (confBits self) m (updateVector m n)).trans
      (by rw [updateVector, updateVectorBy_order])
  · exact updateVectorBy_seqNum _ _ _
  · exact congrArg (· + 1) (updateVectorBy_ackNum _ _ _)
  · exact updateVectorBy_vectorNoAck _ _ _

theorem handleMsg_follower {self : Fin N} (h : self.val ≠ 0) (m : Bcast N) (n : Node N) :
    handleMsg self m n = (saveMsgInVectorNoAck m (updateVector m n), transferred self m) := by
  simp only [handleMsg, h, ↓reduceIte, transferred]

theorem handleAck_leader {self : Fin N} (h : self.val = 0) (k : Ack N) (n : Node N) :
    handleAck self k n = (n, []) := by
  simp only [handleAck, h, ne_eq, not_true_eq_false, ↓reduceIte]

theorem handleAck_follower {self : Fin N} (h : self.val ≠ 0) (k : Ack N) (n : Node N) :
    handleAck self k n = ({ moveMsgInVectorAck (confBits self) k n with ackNum := k.revNum },
      if (self.val + 1) % N ≠ 0 then [.a k] else []) := by
  simp only [handleAck, h, ne_eq, not_false_eq_true, ↓reduceIte]

theorem sendMsg_counted (self : Fin N) {n : Node N} (h : n.Counted) :
    (sendMsg self n).1.Counted := by
  by_cases hs : self.val = 0
  · simp only [sendMsg, hs, ↓reduceIte]
    exact updateVectorBy_counted _ _ h
  · simp only [sendMsg, hs, ↓reduceIte]
    exact h

theorem handleMsg_counted (self : Fin N) (m : Bcast N) {n : Node N} (h : n.Counted) :
    (handleMsg self m n).1.Counted := by
  by_cases hs : self.val = 0
  · simp only [handleMsg, hs, ↓reduceIte]
    exact updateVectorBy_counted _ m h
  · simp only [handleMsg, hs, ↓reduceIte]
    exact updateVectorBy_counted _ m h

theorem handleAck_counted (self : Fin N) (k : Ack N) {n : Node N} (h : n.Counted) :
    (handleAck self k n).1.Counted := by
  by_cases hs : self.val = 0
  · rwa [handleAck_leader hs]
  · rw [handleAck_follower hs]
    exact h

end UniformBroadcast.TcpRing
