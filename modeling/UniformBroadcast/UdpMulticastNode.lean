import UniformBroadcast.SequencerNode

/-!
# One node of the UDP multicast protocol

Translation of the message path of `protocol_udp/mainUDP.c`. Every datagram is multicast
to all nodes, the sender included, so a node treats its own broadcasts as it receives
them. The leader puts a broadcast in its order at once and multicasts the
acknowledgement; the others wait for it. Each handler returns the messages it multicasts.
-/

namespace UniformBroadcast.UdpMulticast

open Sequencer SequencedStreams

variable {N : ℕ}

/-- `conf_bits`: every node. -/
def confBits (N : ℕ) : BitVec 32 := (1#32 <<< N) - 1#32

/-- `update_vector_1`: the entries strictly before position `ack`. -/
def updateVector1 : Bcast N → Node N → Node N := updateVectorBy (· < ·)

/-- One iteration of the loop of `send_msg`. -/
def sendMsg (self : Fin N) (n : Node N) : Node N × List (Msg N) :=
  let n := { n with seqNum := n.seqNum + 1 }
  (n, [.b ⟨self, n.seqNum, n.ackNum⟩])

def handleMsg (self : Fin N) (recvMsg : Bcast N) (n : Node N) : Node N × List (Msg N) :=
  if self.val = 0 then
    let n :=
      if recvMsg.idProcess ≠ self then
        saveMsgInVectorAck (confBits N) recvMsg (updateVector1 recvMsg n)
      else
        updateVector recvMsg (saveMsgInVectorAck (confBits N) recvMsg n)
    let n := { n with ackNum := n.ackNum + 1 }
    (n, [.a ⟨recvMsg.idProcess, recvMsg.seq, n.ackNum⟩])
  else
    (updateVector recvMsg (saveMsgInVectorNoAck recvMsg n), [])

def handleAck (self : Fin N) (recvAck : Ack N) (n : Node N) : Node N × List (Msg N) :=
  if self.val ≠ 0 then
    let n := moveMsgInVectorAck (confBits N) recvAck n
    ({ n with ackNum := recvAck.revNum }, [])
  else (n, [])

/-- The dispatch of `process_msg` on the two kinds of message. -/
def handle (self : Fin N) : Msg N → Node N → Node N × List (Msg N)
  | .b recvMsg => handleMsg self recvMsg
  | .a recvAck => handleAck self recvAck

/-! ## One spec for each handler -/

/-- What treating a broadcast does to the queues of the leader, before `ack_num++`. -/
def leaderSaved (self : Fin N) (m : Bcast N) (n : Node N) : Node N :=
  if m.idProcess ≠ self then saveMsgInVectorAck (confBits N) m (updateVector1 m n)
  else updateVector m (saveMsgInVectorAck (confBits N) m n)

theorem handleMsg_leader {self : Fin N} (h : self.val = 0) (m : Bcast N) (n : Node N) :
    handleMsg self m n = ({ leaderSaved self m n with ackNum := (leaderSaved self m n).ackNum + 1 },
      [.a ⟨m.idProcess, m.seq, (leaderSaved self m n).ackNum + 1⟩]) := by
  simp only [handleMsg, h, ↓reduceIte]
  rfl

/-- Both branches save the broadcast at the end of the order. -/
theorem leaderSaved_spec (self : Fin N) (m : Bcast N) (n : Node N) :
    let r := leaderSaved self m n
    r.order = n.order ++ [some m] ∧ r.seqNum = n.seqNum ∧ r.ackNum = n.ackNum ∧
      r.vectorNoAck = n.vectorNoAck := by
  by_cases hm : m.idProcess ≠ self
  · simp only [leaderSaved, if_pos hm]
    refine ⟨?_, ?_, ?_, ?_⟩
    · rw [saveMsgInVectorAck_order, updateVector1, updateVectorBy_order]
    · exact updateVectorBy_seqNum _ m n
    · exact updateVectorBy_ackNum _ m n
    · exact updateVectorBy_vectorNoAck _ m n
  · simp only [leaderSaved, if_neg hm]
    refine ⟨?_, ?_, ?_, ?_⟩
    · rw [updateVector, updateVectorBy_order, saveMsgInVectorAck_order]
    · exact updateVectorBy_seqNum _ m _
    · exact updateVectorBy_ackNum _ m _
    · exact updateVectorBy_vectorNoAck _ m _

theorem leaderSaved_counted (self : Fin N) (m : Bcast N) {n : Node N} (h : n.Counted) :
    (leaderSaved self m n).Counted := by
  rw [leaderSaved]
  split
  · exact updateVectorBy_counted (· < ·) m h
  · exact updateVectorBy_counted (· ≤ ·) m (n := saveMsgInVectorAck (confBits N) m n) h

theorem handleMsg_follower {self : Fin N} (h : self.val ≠ 0) (m : Bcast N) (n : Node N) :
    handleMsg self m n = (updateVector m (saveMsgInVectorNoAck m n), []) := by
  simp only [handleMsg, h, ↓reduceIte]

theorem handleAck_leader {self : Fin N} (h : self.val = 0) (k : Ack N) (n : Node N) :
    handleAck self k n = (n, []) := by
  simp only [handleAck, h, ne_eq, not_true_eq_false, ↓reduceIte]

theorem handleAck_follower {self : Fin N} (h : self.val ≠ 0) (k : Ack N) (n : Node N) :
    handleAck self k n = ({ moveMsgInVectorAck (confBits N) k n with ackNum := k.revNum }, []) := by
  simp only [handleAck, h, ne_eq, not_false_eq_true, ↓reduceIte]

end UniformBroadcast.UdpMulticast
