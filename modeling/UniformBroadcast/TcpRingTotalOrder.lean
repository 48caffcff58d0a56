import UniformBroadcast.TcpRingPreservation

/-!
# Total order in the TCP ring

Every node delivers a prefix of the leader's order, so any two nodes agree on the
messages that both have delivered, and the messages of each sender come out numbered
`1, 2, ...`. The counters of a node count what it has ordered, and every acknowledgement finds
the broadcast that it names.
-/

namespace UniformBroadcast.TcpRing

open Sequencer SequencedStreams TransitionRuns

variable {N : ℕ} {hN : 2 ≤ N}

theorem inv_exec (hN : 2 ≤ N) {es : List (Event N)} {s : Ring N}
    (h : exec step Ring.initial es = some s) : Inv hN s :=
  exec_invariant (fun _ _ _ hs hstep => inv_step hs hstep) (inv_initial hN) h

/-- The leader's order restricted to one sender is numbered. -/
theorem Inv.numbered_order {s : Ring N} (hs : Inv hN s) (x : Fin N) :
    Numbered number (stream source (some x) (s.nodes (leader hN)).order) := by
  have h := hs.heard_le (leader hN) x
  rw [Node.heard, hs.leader_noAck, List.map_nil, List.append_nil] at h
  exact (hs.own x).of_initial h

/-- **Total order.** In every state reached, the nodes have delivered in total order. -/
theorem ring_total_order (hN : 2 ≤ N) {es : List (Event N)} {s : Ring N}
    (h : exec step Ring.initial es = some s) : TotalOrder s.nodes := by
  have hs := inv_exec hN h
  exact totalOrder_of_order hs.order_le hs.order_some hs.numbered_order

/-- A run in which the leader `i` and the follower `j` of a ring of two each deliver a
message. -/
def exchange (i j : Fin N) : List (Event N) :=
  [.send i, .recv j, .recv j, .send j, .recv i, .recv j, .send i, .recv j, .recv j]

theorem ring_total_order_exchange :
    TotalOrder ((exec step Ring.initial (exchange (0 : Fin 2) 1)).get (by decide)).nodes :=
  ring_total_order (Nat.le_refl 2) (Option.some_get _).symm

/-! ## The counters -/

/-- `ack_num` counts what has been delivered and what waits in `vector_ack`. -/
def Balanced (n : Node N) : Prop := n.highestDelivered + n.vectorAck.length = n.ackNum

/-- The acknowledgement has the next number and names the oldest broadcast held of its
sender. -/
def Awaits (n : Node N) (k : Ack N) : Prop :=
  k.revNum = n.ackNum + 1 ∧ ∃ m held, n.vectorNoAck k.idProcess = m :: held ∧ m.seq = k.seq

theorem Inv.balanced {s : Ring N} (hs : Inv hN s) (i : Fin N) : Balanced (s.nodes i) := by
  have hlength := hs.order_length i
  rw [Node.order, List.length_append, List.length_map, ← hs.delivered i] at hlength
  exact hlength

theorem Inv.awaits {s : Ring N} (hs : Inv hN s) {i : Fin N} (hi : i ≠ leader hN) {k : Ack N}
    {rest : List (Msg N)} (hread : s.inbox i = .a k :: rest) : Awaits (s.nodes i) k := by
  obtain ⟨m, held, hheld, -, -, hseq, hrev⟩ := hs.ack_head hi hread
  exact ⟨hrev, m, held, hheld, hseq⟩

/-- **Bookkeeping.** In every state reached the counters of every node agree, and the
acknowledgement that a follower is about to treat is the one that it awaits. -/
theorem ring_bookkeeping (hN : 2 ≤ N) {es : List (Event N)} {s : Ring N}
    (h : exec step Ring.initial es = some s) : (∀ i, Balanced (s.nodes i)) ∧
      ∀ i k rest, i ≠ leader hN → s.inbox i = .a k :: rest → Awaits (s.nodes i) k := by
  have hs := inv_exec hN h
  constructor
  · exact hs.balanced
  · intro i k rest hi hread
    exact hs.awaits hi hread

/-- The follower has treated the broadcast of the leader and not yet its acknowledgement. -/
theorem ring_bookkeeping_first :
    Awaits (((exec step Ring.initial [.send (0 : Fin 2), .recv 1]).get (by decide)).nodes 1)
      ⟨0, 1, 1⟩ :=
  (ring_bookkeeping (Nat.le_refl 2) (Option.some_get _).symm).2 1 ⟨0, 1, 1⟩ [] (by decide) rfl

end UniformBroadcast.TcpRing
