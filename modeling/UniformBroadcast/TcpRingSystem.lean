import UniformBroadcast.TcpRingNode
import UniformBroadcast.TransitionRuns

/-!
# The ring of the TCP protocol

`N` nodes joined by reliable FIFO connections, each node writing to its successor and
reading from its predecessor. One event is one iteration of `send_msg` at a node, or the
treatment by a node of the oldest message of its incoming connection.
-/

namespace UniformBroadcast.TcpRing

open Sequencer

variable {N : ℕ}

/-- The nodes, and for each node the messages on the connection from its predecessor,
oldest first. -/
structure Ring (N : ℕ) where
  nodes : Fin N → Node N
  inbox : Fin N → List (Msg N)

inductive Event (N : ℕ) where
  | send (i : Fin N)
  | recv (i : Fin N)
  deriving DecidableEq, Repr

def Ring.initial : Ring N where
  nodes := fun _ => Node.initial
  inbox := fun _ => []

/-- Node `i` becomes `r.1`, keeps `rest` to read and has written `r.2`. -/
def Ring.after (s : Ring N) (i : Fin N) (rest : List (Msg N)) (r : Node N × List (Msg N)) :
    Ring N where
  nodes := Function.update s.nodes i r.1
  inbox :=
    let inbox := Function.update s.inbox i rest
    Function.update inbox (getSuccessor i) (inbox (getSuccessor i) ++ r.2)

def step (s : Ring N) : Event N → Option (Ring N)
  | .send i => some (s.after i (s.inbox i) (sendMsg i (s.nodes i)))
  | .recv i =>
    match s.inbox i with
    | [] => none
    | .b message :: rest => some (s.after i rest (handleMsg i message (s.nodes i)))
    | .a acknowledge :: rest => some (s.after i rest (handleAck i acknowledge (s.nodes i)))

@[simp] theorem getSuccessor_getPredecessor (i : Fin N) : getSuccessor (getPredecessor i) = i := by
  have := i.isLt
  ext
  simp only [getSuccessor, getPredecessor]
  split_ifs <;> omega

@[simp] theorem getPredecessor_getSuccessor (i : Fin N) : getPredecessor (getSuccessor i) = i := by
  ext
  by_cases h : i.val = N - 1 <;> simp [getSuccessor, getPredecessor, h]

theorem getSuccessor_eq_iff (i j : Fin N) : getSuccessor i = j ↔ i = getPredecessor j :=
  ⟨fun h => by simp [← h], fun h => by simp [h]⟩

theorem getSuccessor_ne_self (hN : 2 ≤ N) (i : Fin N) : getSuccessor i ≠ i := by
  intro h
  have hi := i.isLt
  have hv : (if i.val ≠ N - 1 then i.val + 1 else 0) = i.val := congrArg Fin.val h
  split_ifs at hv <;> omega

theorem getPredecessor_ne_self (hN : 2 ≤ N) (i : Fin N) : getPredecessor i ≠ i :=
  fun h => getSuccessor_ne_self hN i ((getSuccessor_eq_iff i i).mpr h.symm)

theorem getSuccessor_eq_leader_iff (hN : 2 ≤ N) (i : Fin N) :
    getSuccessor i = leader hN ↔ (i.val + 1) % N = 0 := by
  have hi := i.isLt
  rw [eq_leader_iff]
  simp only [getSuccessor]
  by_cases h : i.val = N - 1
  · rw [if_neg (not_not.mpr h), show i.val + 1 = N by omega, Nat.mod_self]
  · rw [if_pos h, Nat.mod_eq_of_lt (by omega)]

section After

variable (hN : 2 ≤ N) (s : Ring N) (i j : Fin N) (rest : List (Msg N)) (r : Node N × List (Msg N))

@[simp] theorem after_nodes_self : (s.after i rest r).nodes i = r.1 := by simp [Ring.after]

theorem after_nodes_of_ne (h : j ≠ i) : (s.after i rest r).nodes j = s.nodes j := by
  simp [Ring.after, h]

include hN in
theorem after_inbox_self : (s.after i rest r).inbox i = rest := by
  simp [Ring.after, (getSuccessor_ne_self hN i).symm]

include hN in
theorem after_inbox_succ :
    (s.after i rest r).inbox (getSuccessor i) = s.inbox (getSuccessor i) ++ r.2 := by
  simp [Ring.after, getSuccessor_ne_self hN i]

theorem after_inbox_of_ne (h : j ≠ i) (h' : j ≠ getSuccessor i) :
    (s.after i rest r).inbox j = s.inbox j := by
  simp [Ring.after, h, h']

end After

end UniformBroadcast.TcpRing
