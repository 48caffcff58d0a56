import UniformBroadcast.UdpMulticastNode
import UniformBroadcast.TransitionRuns

/-!
# A causally ordered multicast network

The network loses and duplicates nothing: each node keeps the list of all datagrams it
ever sent, and every node, the sender included, processes each list from its start. A
datagram carries how many datagrams of each node its sender had processed, and is
processed by a node only once that node has processed as many. Together with the order
of each sender's list this is causal order; the delays are otherwise arbitrary.
-/

namespace UniformBroadcast.UdpMulticast

open Sequencer

variable {N : ℕ}

structure Datagram (N : ℕ) where
  content : Msg N
  past : Fin N → ℕ

/-- The nodes, what each has sent, and `processed j x`, how many datagrams of `x` node
`j` has processed. -/
structure Network (N : ℕ) where
  nodes : Fin N → Node N
  sent : Fin N → List (Datagram N)
  processed : Fin N → Fin N → ℕ

/-- An iteration of `send_msg` at node `i`, or the treatment by `i` of the next datagram
of `x`. -/
inductive Event (N : ℕ) where
  | send (i : Fin N)
  | recv (i x : Fin N)
  deriving DecidableEq, Repr

def Network.initial : Network N where
  nodes := fun _ => Node.initial
  sent := fun _ => []
  processed := fun _ _ => 0

/-- Node `i` becomes `r.1`, has now processed `p` and multicasts `r.2`. -/
def Network.after (s : Network N) (i : Fin N) (p : Fin N → ℕ) (r : Node N × List (Msg N)) :
    Network N where
  nodes := Function.update s.nodes i r.1
  sent := Function.update s.sent i (s.sent i ++ r.2.map (⟨·, p⟩))
  processed := Function.update s.processed i p

/-- One more datagram of `x`. -/
def tick (p : Fin N → ℕ) (x : Fin N) : Fin N → ℕ := Function.update p x (p x + 1)

def step (s : Network N) : Event N → Option (Network N)
  | .send i => some (s.after i (s.processed i) (sendMsg i (s.nodes i)))
  | .recv i x =>
    match (s.sent x)[s.processed i x]? with
    | none => none
    | some d =>
      if ∀ y, d.past y ≤ s.processed i y then
        some (s.after i (tick (s.processed i) x) (handle i d.content (s.nodes i)))
      else none

theorem step_recv {s s' : Network N} {i x : Fin N} (h : step s (.recv i x) = some s') :
    ∃ d, (s.sent x)[s.processed i x]? = some d ∧ (∀ y, d.past y ≤ s.processed i y) ∧
      s' = s.after i (tick (s.processed i) x) (handle i d.content (s.nodes i)) := by
  simp only [step] at h
  split at h
  · cases h
  · rename_i d hd
    split at h
    · rename_i hpast
      exact ⟨d, hd, hpast, (Option.some.inj h).symm⟩
    · cases h

@[simp] theorem tick_self (p : Fin N → ℕ) (x : Fin N) : tick p x x = p x + 1 := by
  simp [tick]

theorem tick_of_ne (p : Fin N → ℕ) {x y : Fin N} (h : y ≠ x) : tick p x y = p y := by
  simp [tick, h]

/-! ## What was sent -/

/-- The first `c` messages of node `x`. -/
def Network.firsts (s : Network N) (x : Fin N) (c : ℕ) : List (Msg N) :=
  ((s.sent x).take c).map Datagram.content

/-- The acknowledgements in a list of messages. -/
def acks : List (Msg N) → List (Ack N)
  | [] => []
  | .b _ :: l => acks l
  | .a acknowledge :: l => acknowledge :: acks l

@[simp] theorem acks_append (l k : List (Msg N)) : acks (l ++ k) = acks l ++ acks k := by
  induction l with
  | nil => rfl
  | cons m l ih => cases m <;> simp [acks, ih]

/-- All the messages of node `x`. -/
def Network.contents (s : Network N) (x : Fin N) : List (Msg N) :=
  (s.sent x).map Datagram.content

theorem firsts_le_contents (s : Network N) (x : Fin N) (c : ℕ) : s.firsts x c <+: s.contents x :=
  (List.take_prefix _ _).map _

theorem firsts_mono (s : Network N) (x : Fin N) {c c' : ℕ} (h : c ≤ c') :
    s.firsts x c <+: s.firsts x c' :=
  (List.take_prefix_take_left h).map _

theorem firsts_succ {s : Network N} {x : Fin N} {c : ℕ} {d : Datagram N}
    (h : (s.sent x)[c]? = some d) : s.firsts x (c + 1) = s.firsts x c ++ [d.content] := by
  rw [Network.firsts, List.take_add_one, h, List.map_append]
  rfl

section After

variable (s : Network N) (i j x : Fin N) (p : Fin N → ℕ) (r : Node N × List (Msg N))

@[simp] theorem after_nodes_self : (s.after i p r).nodes i = r.1 := by simp [Network.after]

theorem after_nodes_of_ne (h : j ≠ i) : (s.after i p r).nodes j = s.nodes j := by
  simp [Network.after, h]

@[simp] theorem after_processed_self : (s.after i p r).processed i = p := by simp [Network.after]

theorem after_processed_of_ne (h : j ≠ i) : (s.after i p r).processed j = s.processed j := by
  simp [Network.after, h]

theorem after_contents_self : (s.after i p r).contents i = s.contents i ++ r.2 := by
  simp [Network.contents, Network.after, Function.comp_def]

theorem after_contents_of_ne (h : j ≠ i) : (s.after i p r).contents j = s.contents j := by
  simp [Network.contents, Network.after, h]

/-- What was sent before stays where it was. -/
theorem after_firsts {c : ℕ} (hc : c ≤ (s.sent x).length) :
    (s.after i p r).firsts x c = s.firsts x c := by
  rcases eq_or_ne x i with rfl | hx
  · simp only [Network.firsts, Network.after, Function.update_self]
    rw [List.take_append_of_le_length hc]
  · simp [Network.firsts, Network.after, hx]

end After

end UniformBroadcast.UdpMulticast
