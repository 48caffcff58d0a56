import UniformBroadcast.UdpMulticastPreservation

/-!
# Total order in the UDP multicast

The leader and the followers build their orders by different code, yet every node
delivers a prefix of the leader's order.
-/

namespace UniformBroadcast.UdpMulticast

open Sequencer SequencedStreams TransitionRuns

variable {N : ℕ} {hN : 2 ≤ N}

theorem inv_exec (hN : 2 ≤ N) {es : List (Event N)} {s : Network N}
    (h : exec step Network.initial es = some s) : Inv hN s :=
  exec_invariant (fun _ _ _ hs hstep => inv_step hs hstep) (inv_initial hN) h

/-- The leader's order restricted to one sender is numbered. -/
theorem Inv.numbered_order {s : Network N} (hs : Inv hN s) (x : Fin N) :
    Numbered number (stream source (some x) (s.nodes (leader hN)).order) := by
  have h := hs.heard_le (leader hN) x
  rw [Node.heard, hs.leader_noAck, List.map_nil, List.append_nil] at h
  exact (hs.numbered x).of_initial h

/-- **Total order.** In every state reached, the nodes have delivered in total order. -/
theorem multicast_total_order (hN : 2 ≤ N) {es : List (Event N)} {s : Network N}
    (h : exec step Network.initial es = some s) : TotalOrder s.nodes := by
  have hs := inv_exec hN h
  exact totalOrder_of_order hs.order_le hs.order_some hs.numbered_order

/-- The leader `i` and the follower `j` of two nodes broadcast and treat the datagrams
sent, then the leader broadcasts once more: both deliver the first message. -/
def exchange (i j : Fin N) : List (Event N) :=
  [.send i, .recv i i, .recv j i, .recv j i, .recv i i, .send j, .recv i j, .recv j j, .recv j i,
    .send i, .recv i i, .recv j i]

theorem multicast_total_order_exchange :
    TotalOrder ((exec step Network.initial (exchange (0 : Fin 2) 1)).get (by decide)).nodes :=
  multicast_total_order (Nat.le_refl 2) (Option.some_get _).symm

end UniformBroadcast.UdpMulticast
