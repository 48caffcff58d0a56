import Mathlib.Data.List.Basic
import Mathlib.Data.List.TakeWhile
import Mathlib.Data.Fin.Basic
import Mathlib.Logic.Function.Basic
import UniformBroadcast.SequencedStreams

/-!
# A node of the sequencer protocols

The data and the queue handling that `protocol_tcp/main.c` and `protocol_udp/mainUDP.c`
have in common. Nodes are `0 .. N - 1` and node `0` is the leader. A node holds back the
broadcasts of each sender until an acknowledgement of the leader gives them a place in
the final order, and delivers an ordered broadcast once the bits of all nodes are clear.

The C `int` counters are natural numbers: the model stands for the runs in which none of
them overflows, a condition that `Small` and `InRange` state on the bytes of the packets in
`TcpRingFrames` and `TcpRingWire`. Fields that no handler reads back (`len`,
`startMiliSeconds`, `payload`) are left out of the messages.
-/

namespace UniformBroadcast.Sequencer

open SequencedStreams

/-- `MAX_NODES`. -/
def maxNodes : ℕ := 5

/-- `bcast`, `mcast`: a broadcast stamped with the number of acknowledgements its sender
knew. -/
structure Bcast (N : ℕ) where
  idProcess : Fin N
  seq : ℕ
  ack : ℕ
  deriving DecidableEq, Repr

/-- `ack`: the leader gives number `revNum` to broadcast `seq` of `idProcess`. -/
structure Ack (N : ℕ) where
  idProcess : Fin N
  seq : ℕ
  revNum : ℕ
  deriving DecidableEq, Repr

/-- The two kinds of message: a broadcast (`'b'` on the ring, `'m'` on the multicast
socket) and an acknowledgement (`'a'`). -/
inductive Msg (N : ℕ) where
  | b (message : Bcast N)
  | a (acknowledge : Ack N)
  deriving DecidableEq, Repr

/-- `msg_info`: bit `i` of `bits` is set while node `i` is not known to have the
message. The message is the pointer returned by `removeFirst`, `none` for `NULL`. -/
structure MsgInfo (N : ℕ) where
  message : Option (Bcast N)
  bits : BitVec 32
  deriving DecidableEq, Repr

/-- The globals of a node. `deliveryQueue` lists all that was ever enqueued. -/
structure Node (N : ℕ) where
  seqNum : ℕ
  ackNum : ℕ
  highestDelivered : ℕ
  vectorNoAck : Fin N → List (Bcast N)
  vectorAck : List (MsgInfo N)
  deliveryQueue : List (Option (Bcast N))

variable {N : ℕ}

/-- The leader, node `0`. -/
def leader (hN : 2 ≤ N) : Fin N := ⟨0, by omega⟩

@[simp] theorem val_leader (hN : 2 ≤ N) : (leader hN).val = 0 := rfl

theorem eq_leader_iff (hN : 2 ≤ N) (i : Fin N) : i = leader hN ↔ i.val = 0 := by
  simp [Fin.ext_iff]

/-- The globals after `initialize`. -/
def Node.initial : Node N where
  seqNum := 0
  ackNum := 0
  highestDelivered := 0
  vectorNoAck := fun _ => []
  vectorAck := []
  deliveryQueue := []

def saveMsgInVectorAck (confBits : BitVec 32) (message : Bcast N) (n : Node N) : Node N :=
  { n with vectorAck := n.vectorAck ++ [⟨some message, confBits⟩] }

def saveMsgInVectorNoAck (message : Bcast N) (n : Node N) : Node N :=
  { n with
    vectorNoAck := Function.update n.vectorNoAck message.idProcess
      (n.vectorNoAck message.idProcess ++ [message]) }

/-- `removeFirst` hands over the head of the queue, or `NULL` when there is none. -/
def moveMsgInVectorAck (confBits : BitVec 32) (acknowledge : Ack N) (n : Node N) : Node N :=
  { n with
    vectorNoAck := Function.update n.vectorNoAck acknowledge.idProcess
      (n.vectorNoAck acknowledge.idProcess).tail
    vectorAck := n.vectorAck ++
      [⟨(n.vectorNoAck acknowledge.idProcess).head?, confBits⟩] }

/-- The `while` loop of the update functions, on what is left in `vector_ack`. -/
def deliverHead (n : Node N) : List (MsgInfo N) → Node N
  | [] => { n with vectorAck := [] }
  | m :: rest =>
    if m.bits = 0#32 then
      deliverHead { n with
        deliveryQueue := n.deliveryQueue ++ [m.message]
        highestDelivered := n.highestDelivered + 1 } rest
    else { n with vectorAck := m :: rest }

section Update

variable (covers : ℕ → ℕ → Prop) [DecidableRel covers]

/-- The body of the `for` loop of the update functions, for the entry at index `i`. They
differ in the comparison `covers` between the position of an entry and `ack_tmp`. -/
def clearBit (highestDelivered : ℕ) (message : Bcast N) (i : ℕ) (m : MsgInfo N) : MsgInfo N :=
  if covers (i + highestDelivered) message.ack then
    { m with bits := m.bits &&& ~~~(1#32 <<< message.idProcess.val) }
  else m

/-- `vector_ack` after the `for` loop. -/
def clearedVector (message : Bcast N) (n : Node N) : List (MsgInfo N) :=
  n.vectorAck.mapIdx (clearBit covers n.highestDelivered message)

def updateVectorBy (message : Bcast N) (n : Node N) : Node N :=
  deliverHead n (clearedVector covers message n)

end Update

/-- `update_vector`, the same in both programs. -/
def updateVector : Bcast N → Node N → Node N := updateVectorBy (· ≤ ·)

/-! ## The final order and what a node has heard -/

/-- The broadcasts the node has put in its final order, delivered or not. -/
def Node.order (n : Node N) : List (Option (Bcast N)) :=
  n.deliveryQueue ++ n.vectorAck.map MsgInfo.message

/-- The sender of an entry of the order. -/
def source (o : Option (Bcast N)) : Option (Fin N) := o.map Bcast.idProcess

/-- The sequence number of an entry of the order. -/
def number (o : Option (Bcast N)) : ℕ := o.elim 0 Bcast.seq

@[simp] theorem source_some (m : Bcast N) : source (some m) = some m.idProcess := rfl

@[simp] theorem number_some (m : Bcast N) : number (some m) = m.seq := rfl

/-- All that the node holds from sender `x`, in the order in which it heard it. -/
def Node.heard (n : Node N) (x : Fin N) : List (Option (Bcast N)) :=
  stream source (some x) n.order ++ (n.vectorNoAck x).map some

/-- The sequence numbers of the messages of `x` in a queue. -/
def seqsOf (x : Fin N) (queue : List (Option (Bcast N))) : List ℕ :=
  (stream source (some x) queue).map number

/-- `highestDelivered` counts what was enqueued. -/
def Node.Counted (n : Node N) : Prop := n.highestDelivered = n.deliveryQueue.length

/-- The broadcasts in a list of messages. -/
def bcasts : List (Msg N) → List (Option (Bcast N))
  | [] => []
  | .b message :: l => some message :: bcasts l
  | .a _ :: l => bcasts l

@[simp] theorem bcasts_append (l k : List (Msg N)) : bcasts (l ++ k) = bcasts l ++ bcasts k := by
  induction l with
  | nil => rfl
  | cons m l ih => cases m <;> simp [bcasts, ih]

/-- The acknowledgement gives the entry at index `p` of `order` the number `p + 1`. -/
def Names (order : List (Option (Bcast N))) (p : ℕ) (k : Ack N) : Prop :=
  ∃ m, order[p]? = some (some m) ∧ m.idProcess = k.idProcess ∧ m.seq = k.seq ∧ k.revNum = p + 1

theorem Names.mono {order order' : List (Option (Bcast N))} (h : order <+: order') {p : ℕ}
    {k : Ack N} (hk : Names order p k) : Names order' p k := by
  obtain ⟨m, hm, hrest⟩ := hk
  obtain ⟨t, rfl⟩ := h
  exact ⟨m, List.getElem?_append_left (List.getElem?_eq_some_iff.mp hm).1 ▸ hm, hrest⟩

@[simp] theorem initial_heard (x : Fin N) : (Node.initial : Node N).heard x = [] := rfl

@[simp] theorem initial_order : (Node.initial : Node N).order = [] := rfl

theorem deliveryQueue_prefix_order (n : Node N) : n.deliveryQueue <+: n.order :=
  List.prefix_append _ _

@[simp] theorem saveMsgInVectorAck_order (confBits : BitVec 32) (message : Bcast N) (n : Node N) :
    (saveMsgInVectorAck confBits message n).order = n.order ++ [some message] := by
  simp [saveMsgInVectorAck, Node.order]

@[simp] theorem saveMsgInVectorNoAck_order (message : Bcast N) (n : Node N) :
    (saveMsgInVectorNoAck message n).order = n.order := rfl

theorem saveMsgInVectorNoAck_vectorNoAck (message : Bcast N) (n : Node N) (x : Fin N) :
    (saveMsgInVectorNoAck message n).vectorNoAck x =
      n.vectorNoAck x ++ if x = message.idProcess then [message] else [] := by
  by_cases hx : x = message.idProcess
  · subst hx
    simp [saveMsgInVectorNoAck]
  · simp [saveMsgInVectorNoAck, hx]

theorem saveMsgInVectorNoAck_heard (m : Bcast N) (n : Node N) (x : Fin N) :
    (saveMsgInVectorNoAck m n).heard x = n.heard x ++ stream source (some x) [some m] := by
  simp only [Node.heard, saveMsgInVectorNoAck_order, saveMsgInVectorNoAck_vectorNoAck]
  by_cases hx : x = m.idProcess
  · simp [hx, stream]
  · simp [hx, Ne.symm hx, stream]

theorem moveMsgInVectorAck_order (confBits : BitVec 32) (acknowledge : Ack N) (n : Node N) :
    (moveMsgInVectorAck confBits acknowledge n).order =
      n.order ++ [(n.vectorNoAck acknowledge.idProcess).head?] := by
  simp [moveMsgInVectorAck, Node.order]

/-- An acknowledgement that finds the broadcast it names puts it in the order and
changes nothing of what was heard. -/
theorem moveMsgInVectorAck_heard (confBits : BitVec 32) {acknowledge : Ack N} {n : Node N}
    {m : Bcast N} {held : List (Bcast N)} (hheld : n.vectorNoAck acknowledge.idProcess = m :: held)
    (hid : m.idProcess = acknowledge.idProcess) (x : Fin N) :
    (moveMsgInVectorAck confBits acknowledge n).heard x = n.heard x := by
  rw [Node.heard, moveMsgInVectorAck_order, hheld]
  by_cases hx : x = acknowledge.idProcess
  · subst hx
    simp [moveMsgInVectorAck, Node.heard, hheld, stream, hid]
  · simp [moveMsgInVectorAck, Node.heard, stream, hx, hid, Ne.symm hx]

/-- What is ordered is a prefix of `order` up to a message `m`, what is heard of its sender
is a prefix of the numbered list `sent`, and so is what `order` has of it. If `m` has been
heard, it heads the queue of its sender. -/
theorem held_next {n : Node N} {order sent : List (Option (Bcast N))} {m : Bcast N}
    (hnext : n.order ++ [some m] <+: order)
    (horder : stream source (some m.idProcess) order <+: sent) (hnum : Numbered number sent)
    (hheard : n.heard m.idProcess <+: sent) (hseq : m.seq ≤ (n.heard m.idProcess).length) :
    ∃ held, n.vectorNoAck m.idProcess = m :: held := by
  have hcount := num_of_next hnext (hnum.of_initial horder)
  -- what is ordered of the sender stops just before `m`, so something is held back
  have hne : (n.vectorNoAck m.idProcess).map some ≠ [] := by
    intro hnil
    rw [Node.heard, hnil, List.append_nil] at hseq
    simp only [number_some, source_some] at hcount
    omega
  obtain ⟨held, hheld⟩ := held_head hnext horder hheard hne
  obtain ⟨m', held', hv, hm', -⟩ := List.map_eq_cons_iff.mp hheld
  obtain rfl : m' = m := Option.some.inj hm'
  exact ⟨held', hv⟩

/-! ## What the update functions do -/

/-- The loop removes the entries in front whose bits are all clear. -/
theorem deliverHead_eq (n : Node N) (l : List (MsgInfo N)) :
    deliverHead n l = { n with
      deliveryQueue := n.deliveryQueue ++ (l.takeWhile (·.bits = 0#32)).map MsgInfo.message
      highestDelivered := n.highestDelivered + (l.takeWhile (·.bits = 0#32)).length
      vectorAck := l.dropWhile (·.bits = 0#32) } := by
  induction l generalizing n with
  | nil => simp [deliverHead]
  | cons m rest ih =>
    by_cases hm : m.bits = 0#32
    · simp [deliverHead, hm, ih, Nat.add_assoc, Nat.add_comm 1]
    · simp [deliverHead, hm]

section UpdateVector

variable (covers : ℕ → ℕ → Prop) [DecidableRel covers] (message : Bcast N) (n : Node N)

theorem updateVectorBy_eq : updateVectorBy covers message n = { n with
    deliveryQueue := n.deliveryQueue ++
      ((clearedVector covers message n).takeWhile (·.bits = 0#32)).map MsgInfo.message
    highestDelivered := n.highestDelivered +
      ((clearedVector covers message n).takeWhile (·.bits = 0#32)).length
    vectorAck := (clearedVector covers message n).dropWhile (·.bits = 0#32) } :=
  deliverHead_eq n _

@[simp] theorem updateVectorBy_seqNum : (updateVectorBy covers message n).seqNum = n.seqNum := by
  rw [updateVectorBy_eq]

@[simp] theorem updateVectorBy_ackNum : (updateVectorBy covers message n).ackNum = n.ackNum := by
  rw [updateVectorBy_eq]

@[simp] theorem updateVectorBy_vectorNoAck :
    (updateVectorBy covers message n).vectorNoAck = n.vectorNoAck := by
  rw [updateVectorBy_eq]

@[simp] theorem clearBit_message (h : ℕ) (i : ℕ) (m : MsgInfo N) :
    (clearBit covers h message i m).message = m.message := by
  rw [clearBit]
  split <;> rfl

/-- Delivering moves entries from one part of the order to the other. -/
@[simp] theorem updateVectorBy_order : (updateVectorBy covers message n).order = n.order := by
  have hmap : (clearedVector covers message n).map MsgInfo.message =
      n.vectorAck.map MsgInfo.message := by
    apply List.ext_getElem <;> simp [clearedVector]
  rw [updateVectorBy_eq]
  simp only [Node.order, List.append_assoc, ← List.map_append, List.takeWhile_append_dropWhile,
    hmap]

@[simp] theorem updateVectorBy_heard (x : Fin N) :
    (updateVectorBy covers message n).heard x = n.heard x := by
  simp [Node.heard]

variable {n}

theorem updateVectorBy_counted (h : n.Counted) : (updateVectorBy covers message n).Counted := by
  rw [Node.Counted] at h
  rw [Node.Counted, updateVectorBy_eq]
  simp [h]

end UpdateVector

/-! ## Who is known to have the ordered messages -/

/-- Node `x` has put `known x` messages in its order. All that was delivered here is
ordered at every node, and so is every entry for each node whose bit is clear. -/
structure Confirmed (known : Fin N → ℕ) (n : Node N) : Prop where
  delivered : ∀ x, n.highestDelivered ≤ known x
  pending : ∀ t m, n.vectorAck[t]? = some m → ∀ x : Fin N, m.bits.getLsbD x = false →
    t + n.highestDelivered < known x

theorem confirmed_initial (known : Fin N → ℕ) : Confirmed known Node.initial where
  delivered _ := Nat.zero_le _
  pending t m h := by simp [Node.initial] at h

theorem Confirmed.mono {known known' : Fin N → ℕ} {n : Node N} (h : Confirmed known n)
    (hle : ∀ x, known x ≤ known' x) : Confirmed known' n where
  delivered x := (h.delivered x).trans (hle x)
  pending t m hm x hx := (h.pending t m hm x hx).trans_le (hle x)

theorem Confirmed.congr {known : Fin N → ℕ} {n n' : Node N} (h : Confirmed known n)
    (hhighest : n'.highestDelivered = n.highestDelivered) (hvector : n'.vectorAck = n.vectorAck) :
    Confirmed known n' where
  delivered := hhighest ▸ h.delivered
  pending := hhighest ▸ hvector ▸ h.pending

/-- A new entry is unconfirmed at every node whose bit is set in `confBits`. -/
theorem Confirmed.concat {known : Fin N → ℕ} {n n' : Node N} (h : Confirmed known n)
    (hcount : n.Counted) {o : Option (Bcast N)} {confBits : BitVec 32}
    (hvector : n'.vectorAck = n.vectorAck ++ [⟨o, confBits⟩])
    (hhighest : n'.highestDelivered = n.highestDelivered)
    (hbits : ∀ x : Fin N, confBits.getLsbD x = false → n.order.length < known x) :
    Confirmed known n' where
  delivered x := hhighest ▸ h.delivered x
  pending t m hm x hx := by
    rw [hvector] at hm
    rw [hhighest]
    rcases Nat.lt_trichotomy t n.vectorAck.length with ht | ht | ht
    · rw [List.getElem?_append_left ht] at hm
      exact h.pending t m hm x hx
    · rw [ht, List.getElem?_concat_length] at hm
      obtain rfl : _ = m := Option.some.inj hm
      have hlen := hbits x hx
      rw [Node.order, List.length_append, List.length_map, ← hcount] at hlen
      omega
    · rw [List.getElem?_eq_none (by simp; omega)] at hm
      cases hm

theorem Confirmed.saveMsgInVectorAck {known : Fin N → ℕ} {n : Node N} (h : Confirmed known n)
    (hcount : n.Counted) {confBits : BitVec 32}
    (hbits : ∀ x : Fin N, confBits.getLsbD x = false → n.order.length < known x) (m : Bcast N) :
    Confirmed known (Sequencer.saveMsgInVectorAck confBits m n) :=
  h.concat hcount rfl rfl hbits

theorem Confirmed.moveMsgInVectorAck {known : Fin N → ℕ} {n : Node N} (h : Confirmed known n)
    (hcount : n.Counted) {confBits : BitVec 32}
    (hbits : ∀ x : Fin N, confBits.getLsbD x = false → n.order.length < known x) (k : Ack N) :
    Confirmed known (Sequencer.moveMsgInVectorAck confBits k n) :=
  h.concat hcount rfl rfl hbits

theorem clearBit_getLsbD (hN : N ≤ maxNodes) (covers : ℕ → ℕ → Prop) [DecidableRel covers]
    (highestDelivered : ℕ) (message : Bcast N) (t : ℕ) (m : MsgInfo N) (x : Fin N)
    (hx : (clearBit covers highestDelivered message t m).bits.getLsbD x = false) :
    m.bits.getLsbD x = false ∨
      x = message.idProcess ∧ covers (t + highestDelivered) message.ack := by
  rw [clearBit] at hx
  split at hx
  · rename_i hcovers
    by_cases hid : x = message.idProcess
    · exact .inr ⟨hid, hcovers⟩
    · have hlt : x.val < 32 := by
        have := x.isLt
        rw [maxNodes] at hN
        omega
      have hne : x.val - message.idProcess.val ≠ 0 ∨ x.val < message.idProcess.val := by
        have := Fin.val_ne_of_ne hid
        omega
      left
      rcases hne with hne | hne <;> simp_all
  · exact .inl hx

/-- The update clears the bit of the sender where its `ack` covers the position of the
entry: this is sound where the sender has ordered the entry. -/
theorem Confirmed.updateVectorBy (hN : N ≤ maxNodes) {covers : ℕ → ℕ → Prop} [DecidableRel covers]
    {known : Fin N → ℕ} {n : Node N} (h : Confirmed known n) {message : Bcast N}
    (hack : ∀ t m, n.vectorAck[t]? = some m → m.bits.getLsbD message.idProcess = true →
      covers (t + n.highestDelivered) message.ack →
      t + n.highestDelivered < known message.idProcess) :
    Confirmed known (Sequencer.updateVectorBy covers message n) := by
  have hcleared : ∀ t m, (clearedVector covers message n)[t]? = some m → ∀ x : Fin N,
      m.bits.getLsbD x = false → t + n.highestDelivered < known x := by
    intro t m hm x hx
    rw [clearedVector, List.getElem?_mapIdx, Option.map_eq_some_iff] at hm
    obtain ⟨m, hm, rfl⟩ := hm
    rcases clearBit_getLsbD hN covers _ message t m x hx with hold | ⟨rfl, hcovers⟩
    · exact h.pending t m hm x hold
    · cases hbit : m.bits.getLsbD message.idProcess with
      | false => exact h.pending t m hm _ hbit
      | true => exact hack t m hm hbit hcovers
  rw [updateVectorBy_eq]
  set l := clearedVector covers message n
  have hsplit : l.takeWhile (·.bits = 0#32) ++ l.dropWhile (·.bits = 0#32) = l :=
    List.takeWhile_append_dropWhile
  set gone := l.takeWhile (·.bits = 0#32) with hgone
  constructor
  · intro x
    change n.highestDelivered + gone.length ≤ known x
    cases hlen : gone.length with
    | zero => exact h.delivered x
    | succ k =>
      -- the last delivered entry has all its bits clear
      have hk : k < gone.length := by omega
      have hget : l[k]? = some gone[k] := by
        rw [← hsplit, List.getElem?_append_left hk, List.getElem?_eq_getElem hk]
      have hmem : gone[k] ∈ l.takeWhile (·.bits = 0#32) := List.getElem_mem hk
      have hbits : (gone[k]).bits = 0#32 := by simpa using List.mem_takeWhile_imp hmem
      have hlt := hcleared k gone[k] hget x (by rw [hbits]; simp)
      omega
  · intro t m hm x hx
    change t + (n.highestDelivered + gone.length) < known x
    have hget : l[gone.length + t]? = some m := by
      rw [← hsplit, List.getElem?_append_right (Nat.le_add_right _ _), Nat.add_sub_cancel_left]
      exact hm
    have hlt := hcleared _ m hget x hx
    omega

/-! ## Total order -/

/-- What two nodes have delivered is such that one sequence is a prefix of the other; each
contains actual messages only, and those of any one sender are numbered `1, 2, ..., k`. -/
def TotalOrder (nodes : Fin N → Node N) : Prop := ∀ i j,
  ((nodes i).deliveryQueue <+: (nodes j).deliveryQueue ∨
    (nodes j).deliveryQueue <+: (nodes i).deliveryQueue) ∧
  (∀ o ∈ (nodes i).deliveryQueue, o.isSome) ∧
  ∀ x, ∃ k, seqsOf x (nodes i).deliveryQueue = List.range' 1 k

/-- Nodes that replay one order, numbered for each sender, deliver in total order. -/
theorem totalOrder_of_order {nodes : Fin N → Node N} {order : List (Option (Bcast N))}
    (horder : ∀ j, (nodes j).order <+: order) (hsome : ∀ o ∈ order, o.isSome)
    (hnum : ∀ x, Numbered number (stream source (some x) order)) : TotalOrder nodes := by
  have hqueue : ∀ j, (nodes j).deliveryQueue <+: order :=
    fun j => (deliveryQueue_prefix_order _).trans (horder j)
  intro i j
  refine ⟨?_, ?_, fun x => ?_⟩
  · exact List.prefix_or_prefix_of_prefix (hqueue i) (hqueue j)
  · exact fun o ho => hsome o ((hqueue i).subset ho)
  · exact ⟨_, (hnum x).of_initial (stream_mono source (hqueue i) _)⟩

/-! ## Uniform delivery -/

/-- The node has received the message: it holds it back, has ordered it or has delivered
it. -/
def Received (n : Node N) (m : Bcast N) : Prop :=
  (∃ x, m ∈ n.vectorNoAck x) ∨ some m ∈ n.vectorAck.map MsgInfo.message ∨
    some m ∈ n.deliveryQueue

/-- What one node has delivered, every node has received. -/
def UniformDelivery (nodes : Fin N → Node N) : Prop :=
  ∀ j m, some m ∈ (nodes j).deliveryQueue → ∀ k, Received (nodes k) m

/-- No entry still waiting for the sender of `message` stands exactly at the position
`message.ack`, the first one the sender had not ordered. -/
def NoExactAck (n : Node N) (message : Bcast N) : Prop :=
  ∀ t (h : t < n.vectorAck.length), n.vectorAck[t].bits.getLsbD message.idProcess = true →
    t + n.highestDelivered ≠ message.ack

instance (n : Node N) (message : Bcast N) : Decidable (NoExactAck n message) :=
  inferInstanceAs (Decidable (∀ t (_ : t < n.vectorAck.length), _ → _))

theorem received_of_mem_order {n : Node N} {m : Bcast N} (h : some m ∈ n.order) : Received n m := by
  rcases List.mem_append.mp h with h | h
  · exact .inr (.inr h)
  · exact .inr (.inl h)

theorem lt_order_length {n : Node N} (hcount : n.Counted) {t : ℕ} {m : MsgInfo N}
    (hm : n.vectorAck[t]? = some m) : t + n.highestDelivered < n.order.length := by
  obtain ⟨ht, -⟩ := List.getElem?_eq_some_iff.mp hm
  rw [Node.order, List.length_append, List.length_map, ← hcount]
  omega

/-- Nodes that replay one order and deliver only what is confirmed deliver uniformly. -/
theorem uniformDelivery_of_confirmed {nodes : Fin N → Node N} {order : List (Option (Bcast N))}
    (horder : ∀ j, (nodes j).order <+: order) (hcount : ∀ j, (nodes j).Counted)
    (hconf : ∀ j, Confirmed (fun x => (nodes x).order.length) (nodes j)) :
    UniformDelivery nodes := by
  intro j m hm k
  have hlen : (nodes j).deliveryQueue.length ≤ (nodes k).order.length :=
    hcount j ▸ (hconf j).delivered k
  have hj : (nodes j).deliveryQueue <+: order := (deliveryQueue_prefix_order _).trans (horder j)
  have hjk := List.prefix_of_prefix_length_le hj (horder k) hlen
  exact received_of_mem_order (hjk.subset hm)

end UniformBroadcast.Sequencer
