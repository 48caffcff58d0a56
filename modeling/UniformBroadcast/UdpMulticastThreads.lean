import UniformBroadcast.UdpMulticastUniformity

/-!
# The two threads of a node of the UDP multicast

`send_msg` runs in one thread and `process_msg` in another, without a lock. Each call is one step.
Of what the handlers write, `send_msg` reads `ack_num` only, so a call of a handler takes effect
when its datagram is received: what follows finishes it alone. The acknowledgement that the leader
has yet to multicast may then be overtaken by its own broadcasts.
-/

namespace UniformBroadcast.UdpMulticast

open Sequencer SequencedStreams TransitionRuns

variable {N : ℕ}

/-- Where `send_msg` is: the next call to make, and the message it holds. -/
inductive SendPc (N : ℕ) where
  | ready
  | prepareMsg
  | multicastMsg (m : Bcast N)
  deriving DecidableEq, Repr

/-- Where `process_msg` is. -/
inductive RecvPc (N : ℕ) where
  | ready
  | updateVector1 (m : Bcast N)
  | saveAck (m : Bcast N)
  | saveNoAck (m : Bcast N)
  | update (m : Bcast N)
  | count (m : Bcast N)
  | prepareAck (m : Bcast N)
  | multicastAck (k : Ack N)
  | move (k : Ack N)
  | learn (k : Ack N)
  deriving DecidableEq, Repr

/-- A node and its threads. -/
structure Threads (N : ℕ) where
  node : Node N
  sender : SendPc N
  receiver : RecvPc N

/-- One step of `send_msg`, and what it multicasts. -/
def sendThread (self : Fin N) (t : Threads N) : Threads N × List (Msg N) :=
  match t.sender with
  | .ready =>
    ({ t with node := { t.node with seqNum := t.node.seqNum + 1 }, sender := .prepareMsg }, [])
  | .prepareMsg =>
    ({ t with sender := .multicastMsg ⟨self, t.node.seqNum, t.node.ackNum⟩ }, [])
  | .multicastMsg m => ({ t with sender := .ready }, [.b m])

/-- The dispatch of `process_msg` and the tests of `handle_msg` and `handle_ack`. -/
def receiveMsg (self : Fin N) (message : Msg N) (t : Threads N) : Threads N :=
  match message with
  | .b m =>
    { t with
      receiver :=
        if self.val = 0 then if m.idProcess ≠ self then .updateVector1 m else .saveAck m
        else .saveNoAck m }
  | .a k => { t with receiver := if self.val ≠ 0 then .move k else .ready }

/-- One step of `handle_msg` or of `handle_ack`. -/
def recvThread (self : Fin N) (t : Threads N) : Threads N × List (Msg N) :=
  match t.receiver with
  | .ready => (t, [])
  | .updateVector1 m =>
    ({ t with node := UdpMulticast.updateVector1 m t.node, receiver := .saveAck m }, [])
  | .saveAck m =>
    ({ t with
      node := saveMsgInVectorAck (confBits N) m t.node
      receiver := if m.idProcess ≠ self then .count m else .update m }, [])
  | .saveNoAck m => ({ t with node := saveMsgInVectorNoAck m t.node, receiver := .update m }, [])
  | .update m =>
    ({ t with
      node := updateVector m t.node
      receiver := if self.val = 0 then .count m else .ready }, [])
  | .count m =>
    ({ t with
      node := { t.node with ackNum := t.node.ackNum + 1 }
      receiver := .prepareAck m }, [])
  | .prepareAck m =>
    ({ t with receiver := .multicastAck ⟨m.idProcess, m.seq, t.node.ackNum⟩ }, [])
  | .multicastAck k => ({ t with receiver := .ready }, [.a k])
  | .move k =>
    ({ t with node := moveMsgInVectorAck (confBits N) k t.node, receiver := .learn k }, [])
  | .learn k => ({ t with node := { t.node with ackNum := k.revNum }, receiver := .ready }, [])

/-- The threads, what each node has sent and how many datagrams it has received of each. -/
structure ThreadedNetwork (N : ℕ) where
  threads : Fin N → Threads N
  sent : Fin N → List (Datagram N)
  processed : Fin N → Fin N → ℕ

/-- A step of `send_msg`, the receipt of the next datagram of `x`, or a step of a handler. -/
inductive ThreadEvent (N : ℕ) where
  | send (i : Fin N)
  | receive (i x : Fin N)
  | handle (i : Fin N)
  deriving DecidableEq, Repr

namespace ThreadedNetwork

def initial : ThreadedNetwork N where
  threads := fun _ => ⟨Node.initial, .ready, .ready⟩
  sent := fun _ => []
  processed := fun _ _ => 0

/-- The threads of node `i` become `r.1`, have now received `p` and multicast `r.2`. -/
def after (s : ThreadedNetwork N) (i : Fin N) (p : Fin N → ℕ) (r : Threads N × List (Msg N)) :
    ThreadedNetwork N where
  threads := Function.update s.threads i r.1
  sent := Function.update s.sent i (s.sent i ++ r.2.map (⟨·, p⟩))
  processed := Function.update s.processed i p

def step (s : ThreadedNetwork N) : ThreadEvent N → Option (ThreadedNetwork N)
  | .send i => some (s.after i (s.processed i) (sendThread i (s.threads i)))
  | .receive i x =>
    match (s.sent x)[s.processed i x]? with
    | none => none
    | some d =>
      if (s.threads i).receiver = .ready ∧ ∀ y, d.past y ≤ s.processed i y then
        some (s.after i (tick (s.processed i) x) (receiveMsg i d.content (s.threads i), []))
      else none
  | .handle i =>
    if (s.threads i).receiver = .ready then none
    else some (s.after i (s.processed i) (recvThread i (s.threads i)))

end ThreadedNetwork

/-! ## What a handler still has to do -/

section Rest

variable (i : Fin N)

/-- `ack_num++`, `prepare_ack` and `multicast_ack`. -/
def counted (m : Bcast N) (n : Node N) : Node N × List (Msg N) :=
  ({ n with ackNum := n.ackNum + 1 }, [.a ⟨m.idProcess, m.seq, n.ackNum + 1⟩])

def updated (m : Bcast N) (n : Node N) : Node N × List (Msg N) :=
  if i.val = 0 then counted m (updateVector m n) else (updateVector m n, [])

def savedAck (m : Bcast N) (n : Node N) : Node N × List (Msg N) :=
  let n := saveMsgInVectorAck (confBits N) m n
  if m.idProcess ≠ i then counted m n else updated i m n

/-- The node once the handler ends, and what it multicasts until then. -/
def RecvPc.rest : RecvPc N → Node N → Node N × List (Msg N)
  | .ready, n => (n, [])
  | .updateVector1 m, n => savedAck i m (UdpMulticast.updateVector1 m n)
  | .saveAck m, n => savedAck i m n
  | .saveNoAck m, n => updated i m (saveMsgInVectorNoAck m n)
  | .update m, n => updated i m n
  | .count m, n => counted m n
  | .prepareAck m, n => (n, [.a ⟨m.idProcess, m.seq, n.ackNum⟩])
  | .multicastAck k, n => (n, [.a k])
  | .move k, n => ({ moveMsgInVectorAck (confBits N) k n with ackNum := k.revNum }, [])
  | .learn k, n => ({ n with ackNum := k.revNum }, [])

variable {i}

/-- From the receipt on, a handler does all that it does in one step. -/
theorem rest_receiveMsg (d : Msg N) (t : Threads N) :
    (receiveMsg i d t).receiver.rest i t.node = handle i d t.node := by
  cases d with
  | b m =>
    rw [receiveMsg, handle, handleMsg]
    by_cases hself : i.val = 0
    · by_cases hm : m.idProcess ≠ i
      · simp only [hself, ↓reduceIte, if_pos hm, RecvPc.rest, savedAck, counted]
      · simp only [hself, ↓reduceIte, if_neg hm, RecvPc.rest, savedAck, updated, counted]
    · simp only [hself, ↓reduceIte, RecvPc.rest, updated]
  | a k =>
    rw [receiveMsg, handle, handleAck]
    by_cases hself : i.val ≠ 0
    · simp only [if_pos hself, RecvPc.rest]
    · simp only [if_neg hself, RecvPc.rest]

/-- A step of a handler leaves the rest to do. -/
theorem rest_recvThread (t : Threads N) :
    t.receiver.rest i t.node =
      (((recvThread i t).1.receiver.rest i (recvThread i t).1.node).1,
        (recvThread i t).2 ++
          ((recvThread i t).1.receiver.rest i (recvThread i t).1.node).2) := by
  rw [recvThread]
  cases ht : t.receiver with
  | saveAck m =>
    by_cases hm : m.idProcess ≠ i
    · simp only [if_pos hm, RecvPc.rest, savedAck, List.nil_append]
    · simp only [if_neg hm, RecvPc.rest, savedAck, List.nil_append]
  | update m =>
    by_cases hself : i.val = 0
    · simp only [hself, ↓reduceIte, RecvPc.rest, updated, List.nil_append]
    · simp only [hself, ↓reduceIte, RecvPc.rest, updated, List.nil_append]
  | ready =>
    dsimp only
    rw [ht]
    rfl
  | updateVector1 | saveNoAck | count | prepareAck | multicastAck | move | learn => rfl

theorem updateVectorBy_withSeq (covers : ℕ → ℕ → Prop) [DecidableRel covers] (m : Bcast N)
    (n : Node N) (q : ℕ) : updateVectorBy covers m { n with seqNum := q } =
      { updateVectorBy covers m n with seqNum := q } := by
  rw [updateVectorBy_eq, updateVectorBy_eq]
  rfl

/-- The handlers neither read nor write `seq_num`. -/
theorem rest_withSeq (pc : RecvPc N) (n : Node N) (q : ℕ) :
    pc.rest i { n with seqNum := q } =
      ({ (pc.rest i n).1 with seqNum := q }, (pc.rest i n).2) := by
  have hupdated : ∀ (m : Bcast N) (n : Node N), updated i m { n with seqNum := q } =
      ({ (updated i m n).1 with seqNum := q }, (updated i m n).2) := by
    intro m n
    rw [updated, updated, updateVector, updateVectorBy_withSeq]
    split <;> rfl
  have hsaved : ∀ (m : Bcast N) (n : Node N), savedAck i m { n with seqNum := q } =
      ({ (savedAck i m n).1 with seqNum := q }, (savedAck i m n).2) := by
    intro m n
    simp only [savedAck]
    split
    · rfl
    · exact hupdated m (saveMsgInVectorAck (confBits N) m n)
  cases pc with
  | updateVector1 m =>
    rw [RecvPc.rest, RecvPc.rest, UdpMulticast.updateVector1, updateVectorBy_withSeq]
    exact hsaved m _
  | saveAck m => exact hsaved m n
  | saveNoAck m => exact hupdated m (saveMsgInVectorNoAck m n)
  | update m => exact hupdated m n
  | ready | count | prepareAck | multicastAck | move | learn => rfl

theorem rest_acks (pc : RecvPc N) (n : Node N) : ∀ m ∈ (pc.rest i n).2, ∃ k, m = .a k := by
  have hcounted : ∀ (m : Bcast N) (n : Node N), ∀ d ∈ (counted m n).2, ∃ k, d = .a k :=
    fun _ _ _ hd => ⟨_, List.mem_singleton.mp hd⟩
  have hupdated : ∀ (m : Bcast N) (n : Node N), ∀ d ∈ (updated i m n).2, ∃ k, d = .a k := by
    intro m n
    rw [updated]
    split
    · exact hcounted m _
    · exact fun d hd => absurd hd List.not_mem_nil
  have hsaved : ∀ (m : Bcast N) (n : Node N), ∀ d ∈ (savedAck i m n).2, ∃ k, d = .a k := by
    intro m n
    simp only [savedAck]
    split
    · exact hcounted m _
    · exact hupdated m _
  cases pc with
  | updateVector1 m | saveAck m => exact hsaved m _
  | saveNoAck m | update m => exact hupdated m _
  | count m => exact hcounted m n
  | prepareAck m | multicastAck k => exact fun d hd => ⟨_, List.mem_singleton.mp hd⟩
  | ready | move | learn => exact fun d hd => absurd hd List.not_mem_nil

/-- The order only grows until the handler ends. -/
theorem rest_order (pc : RecvPc N) (n : Node N) : n.order <+: (pc.rest i n).1.order := by
  have hupdated : ∀ (m : Bcast N) (n : Node N), (updated i m n).1.order = n.order := by
    intro m n
    rw [updated]
    split <;> exact updateVectorBy_order (· ≤ ·) m n
  have hsaved : ∀ (m : Bcast N) (n : Node N), n.order <+: (savedAck i m n).1.order := by
    intro m n
    have hsave : n.order <+: (saveMsgInVectorAck (confBits N) m n).order := by
      rw [saveMsgInVectorAck_order]
      exact List.prefix_append _ _
    simp only [savedAck]
    split
    · exact hsave
    · rw [hupdated]
      exact hsave
  cases pc with
  | updateVector1 m =>
    rw [RecvPc.rest, ← updateVectorBy_order (· < ·) m n]
    exact hsaved m _
  | saveAck m => exact hsaved m n
  | saveNoAck m =>
    rw [RecvPc.rest, hupdated, saveMsgInVectorNoAck_order]
  | update m => rw [RecvPc.rest, hupdated]
  | move k =>
    change n.order <+: (moveMsgInVectorAck (confBits N) k n).order
    rw [moveMsgInVectorAck_order]
    exact List.prefix_append _ _
  | ready | count | prepareAck | multicastAck | learn => exact List.prefix_refl _

theorem updateVectorBy_deliveryQueue (covers : ℕ → ℕ → Prop) [DecidableRel covers] (m : Bcast N)
    (n : Node N) : n.deliveryQueue <+: (updateVectorBy covers m n).deliveryQueue := by
  rw [updateVectorBy_eq]
  exact List.prefix_append _ _

theorem rest_deliveryQueue (pc : RecvPc N) (n : Node N) :
    n.deliveryQueue <+: (pc.rest i n).1.deliveryQueue := by
  have hupdated : ∀ (m : Bcast N) (n : Node N),
      n.deliveryQueue <+: (updated i m n).1.deliveryQueue := by
    intro m n
    rw [updated]
    split <;> exact updateVectorBy_deliveryQueue (· ≤ ·) m n
  have hsaved : ∀ (m : Bcast N) (n : Node N),
      n.deliveryQueue <+: (savedAck i m n).1.deliveryQueue := by
    intro m n
    simp only [savedAck]
    split
    · exact List.prefix_refl _
    · exact hupdated m (saveMsgInVectorAck (confBits N) m n)
  cases pc with
  | updateVector1 m => exact (updateVectorBy_deliveryQueue (· < ·) m n).trans (hsaved m _)
  | saveAck m => exact hsaved m n
  | saveNoAck m => exact hupdated m (saveMsgInVectorNoAck m n)
  | update m => exact hupdated m n
  | ready | count | prepareAck | multicastAck | move | learn => exact List.prefix_refl _

/-- The message that a handler has received and not yet saved. -/
def RecvPc.unsaved : RecvPc N → Option (Bcast N)
  | .updateVector1 m | .saveAck m | .saveNoAck m => some m
  | _ => none

theorem received_iff {n : Node N} {m : Bcast N} :
    Received n m ↔ (∃ x, m ∈ n.vectorNoAck x) ∨ some m ∈ n.order := by
  rw [Received, Node.order, List.mem_append, or_comm (a := some m ∈ n.deliveryQueue)]

theorem received_updateVectorBy {covers : ℕ → ℕ → Prop} [DecidableRel covers] {m : Bcast N}
    {n : Node N} {m' : Bcast N} : Received (updateVectorBy covers m n) m' ↔ Received n m' := by
  rw [received_iff, received_iff, updateVectorBy_vectorNoAck, updateVectorBy_order]

/-- What a node has received once the handler ends, it has received or is about to save. -/
theorem rest_received {pc : RecvPc N} {n : Node N} {m : Bcast N}
    (h : Received (pc.rest i n).1 m) : Received n m ∨ pc.unsaved = some m := by
  have hupdated : ∀ (m' : Bcast N) (n : Node N), Received (updated i m' n).1 m →
      Received n m := by
    intro m' n hr
    rw [updated] at hr
    split at hr
    · exact received_updateVectorBy.mp hr
    · exact received_updateVectorBy.mp hr
  have hsaved : ∀ (m' : Bcast N) (n : Node N), Received (savedAck i m' n).1 m →
      Received n m ∨ some m' = some m := by
    intro m' n hr
    have hsave : Received (saveMsgInVectorAck (confBits N) m' n) m := by
      simp only [savedAck] at hr
      split at hr
      · exact hr
      · exact hupdated m' _ hr
    rw [received_iff, saveMsgInVectorAck_order] at hsave
    rcases hsave with hheld | hordered
    · exact .inl (received_iff.mpr (.inl hheld))
    · rcases List.mem_append.mp hordered with hordered | hlast
      · exact .inl (received_iff.mpr (.inr hordered))
      · exact .inr (List.mem_singleton.mp hlast).symm
  cases pc with
  | updateVector1 m' =>
    exact (hsaved m' _ h).imp_left received_updateVectorBy.mp
  | saveAck m' => exact hsaved m' n h
  | saveNoAck m' =>
    have hr := hupdated m' _ h
    rw [received_iff, saveMsgInVectorNoAck_order] at hr
    rcases hr with ⟨x, hx⟩ | hordered
    · rw [saveMsgInVectorNoAck_vectorNoAck] at hx
      rcases List.mem_append.mp hx with hx | hx
      · exact .inl (.inl ⟨x, hx⟩)
      · split at hx
        · exact .inr (congrArg some (List.mem_singleton.mp hx).symm)
        · exact absurd hx List.not_mem_nil
    · exact .inl (received_iff.mpr (.inr hordered))
  | update m' => exact .inl (hupdated m' n h)
  | move k =>
    have hmoved : Received (moveMsgInVectorAck (confBits N) k n) m := h
    rw [received_iff, moveMsgInVectorAck_order] at hmoved
    rcases hmoved with ⟨x, hx⟩ | hordered
    · refine .inl (.inl ⟨x, ?_⟩)
      simp only [moveMsgInVectorAck, Function.update_apply] at hx
      split at hx
      · rename_i hxk
        exact hxk ▸ List.mem_of_mem_tail hx
      · exact hx
    · rcases List.mem_append.mp hordered with hordered | hhead
      · exact .inl (received_iff.mpr (.inr hordered))
      · have hhead := (List.mem_singleton.mp hhead).symm
        exact .inl (.inl ⟨_, List.mem_of_mem_head? hhead⟩)
  | ready | count | prepareAck | multicastAck | learn => exact .inl h

end Rest

/-! ## A broadcast that overtakes an acknowledgement -/

section Reorder

variable {hN : 2 ≤ N} {v v' : Network N}

theorem bcasts_of_acks {l : List (Msg N)} (h : ∀ m ∈ l, ∃ k, m = .a k) : bcasts l = [] := by
  induction l with
  | nil => rfl
  | cons m l ih =>
    obtain ⟨⟨k, rfl⟩, hl⟩ := List.forall_mem_cons.mp h
    exact ih hl

/-- The datagrams of `l'` are those of `l`, the first `c` at the same place and no broadcast
later. -/
structure Hastened (c : ℕ) (l' l : List (Datagram N)) : Prop where
  perm : l'.Perm l
  bcasts_eq : bcasts (l'.map Datagram.content) = bcasts (l.map Datagram.content)
  acks_eq : acks (l'.map Datagram.content) = acks (l.map Datagram.content)
  take_eq : ∀ n ≤ c, l'.take n = l.take n
  bcasts_le : ∀ n, (bcasts ((l.take n).map Datagram.content)).length ≤
    (bcasts ((l'.take n).map Datagram.content)).length

theorem Hastened.refl (c : ℕ) (l : List (Datagram N)) : Hastened c l l :=
  ⟨List.Perm.refl l, rfl, rfl, fun _ _ => rfl, fun _ => Nat.le_refl _⟩

/-- A broadcast goes out before acknowledgements. -/
theorem hastened_of_acks (l : List (Datagram N)) {pending : List (Datagram N)} {d : Datagram N}
    {m : Bcast N} (hpending : ∀ e ∈ pending, ∃ k, e.content = .a k) (hd : d.content = .b m) :
    Hastened l.length (l ++ d :: pending) (l ++ (pending ++ [d])) := by
  have hnone : ∀ k : List (Datagram N), k ⊆ pending → bcasts (k.map Datagram.content) = [] := by
    intro k hk
    refine bcasts_of_acks fun e he => ?_
    obtain ⟨e, hmem, rfl⟩ := List.mem_map.mp he
    exact hpending e (hk hmem)
  have htake : ∀ n ≤ l.length, (l ++ d :: pending).take n = (l ++ (pending ++ [d])).take n := by
    intro n hn
    rw [List.take_append_of_le_length hn, List.take_append_of_le_length hn]
  refine ⟨(List.perm_append_singleton d pending).symm.append_left l, ?_, ?_, htake, fun n => ?_⟩
  · simp only [List.map_append, List.map_cons, bcasts_append, hd, bcasts,
      hnone pending (List.Subset.refl _), List.map_nil, List.nil_append]
  · simp only [List.map_append, List.map_cons, acks_append, hd, acks, List.map_nil,
      List.append_nil]
  rcases Nat.lt_or_ge l.length n with hn | hn
  · obtain ⟨c, rfl⟩ := Nat.exists_eq_add_of_lt hn
    rw [Nat.add_assoc, List.take_length_add_append, List.take_length_add_append,
      List.take_succ_cons]
    simp only [List.map_append, List.map_cons, bcasts_append, hd, bcasts, List.length_append,
      List.length_cons, hnone _ (List.take_subset c pending), List.length_nil]
    refine Nat.add_le_add_left ?_ _
    rw [List.take_append, List.map_append, bcasts_append,
      hnone _ (List.take_subset (c + 1) pending), List.nil_append]
    calc (bcasts (([d].take (c + 1 - pending.length)).map Datagram.content)).length
        ≤ (bcasts ([d].map Datagram.content)).length :=
          bcasts_length_mono ((List.take_prefix _ [d]).map _)
      _ = 0 + 1 := by rw [List.map_singleton, hd]; rfl
  · rw [htake n hn]

/-- Two networks that differ in the order of what nobody has processed. -/
structure NetworkHastened (v' v : Network N) : Prop where
  nodes_eq : v'.nodes = v.nodes
  processed_eq : v'.processed = v.processed
  sent : ∀ x, ∃ c, (∀ j, v.processed j x ≤ c) ∧ Hastened c (v'.sent x) (v.sent x)

/-- The invariant does not ask in which order the datagrams that nobody has processed were sent,
as long as no broadcast comes later. -/
theorem Inv.hastened (hs : Inv hN v) (h : NetworkHastened v' v) : Inv hN v' := by
  have hnodes := h.nodes_eq
  have hprocessed := h.processed_eq
  choose c hc h using h.sent
  have hbcasts : ∀ x, bcasts (v'.contents x) = bcasts (v.contents x) := fun x => (h x).bcasts_eq
  have hacks : ∀ x, acks (v'.contents x) = acks (v.contents x) := fun x => (h x).acks_eq
  have hfirsts : ∀ j x, v'.firsts x (v'.processed j x) = v.firsts x (v.processed j x) := by
    intro j x
    rw [hprocessed]
    exact congrArg (List.map Datagram.content) ((h x).take_eq _ (hc x j))
  exact {
    own := fun x => hbcasts x ▸ hs.own x
    numbered := fun x => hbcasts x ▸ hs.numbered x
    seqNum := fun x => by rw [hbcasts, hnodes, hs.seqNum]
    processed_le := fun j x => by
      rw [hprocessed, (h x).perm.length_eq]
      exact hs.processed_le j x
    heard := fun j x => by rw [hnodes, hfirsts, hs.heard]
    leader_noAck := fun x => by rw [hnodes, hs.leader_noAck]
    order_le := fun j => hnodes ▸ hs.order_le j
    order_length := fun j => by rw [hnodes, hs.order_length]
    order_some := hnodes ▸ hs.order_some
    acked := fun j hj => by rw [hnodes, hfirsts, hs.acked j hj]
    follower_acks := fun x hx => by rw [hacks, hs.follower_acks x hx]
    acks_length := by rw [hacks, hnodes, hs.acks_length]
    named := fun q k hk => hnodes ▸ hs.named q k (hacks _ ▸ hk)
    causal := fun d hd k hk =>
      (hs.causal d ((h _).perm.subset hd) k hk).trans ((h _).bcasts_le _)
    delivered := fun j => hnodes ▸ hs.delivered j }

theorem Sound.hastened (hs : Sound v) (h : NetworkHastened v' v) : Sound v' where
  ack_le x m hm := by
    obtain ⟨c, -, hx⟩ := h.sent x
    rw [Network.known, h.nodes_eq]
    exact hs.ack_le x m ((hx.perm.map Datagram.content).subset hm)
  confirmed j := by
    have hknown : v'.known = v.known := by
      funext x
      rw [Network.known, h.nodes_eq, Network.known]
    rw [hknown, h.nodes_eq]
    exact hs.confirmed j

section Multicast

variable {i : Fin N} {m : Bcast N} (hid : m.idProcess = i)

include hid

/-- A node multicasts its next broadcast, whatever number it has read in `ack_num`. -/
theorem inv_multicast (hs : Inv hN v) (hseq : m.seq = (v.nodes i).seqNum + 1) :
    Inv hN (v.after i (v.processed i) ({ v.nodes i with seqNum := m.seq }, [.b m])) := by
  have heffect : Effect hN v i (v.processed i) { v.nodes i with seqNum := m.seq } [.b m]
      (v.nodes (leader hN)).order := {
    own := by simp [bcasts, source, hid]
    numbered := by
      refine numbered_concat.mpr ⟨hs.numbered i, ?_⟩
      rw [hs.seqNum]
      exact hseq
    seqNum := by
      rw [List.length_append, hs.seqNum, hseq]
      rfl
    processed_le := hs.processed_le i
    heard := hs.heard i
    grows := List.prefix_refl _
    leader_order := fun h => h ▸ rfl
    follower_order := fun _ => rfl
    order_le := hs.order_le i
    order_length := hs.order_length i
    order_some := hs.order_some
    leader_noAck := fun h => h ▸ hs.leader_noAck
    acked := hs.acked i
    follower_acks := fun _ => rfl
    acks_length := fun _ => rfl
    named := fun _ q k h => by simp [acks] at h
    causal := fun _ k h => by simp at h
    delivered := hs.delivered i }
  exact heffect.inv_after hs

theorem sound_multicast (hs : Sound v) (hack : m.ack ≤ v.known i) :
    Sound (v.after i (v.processed i) ({ v.nodes i with seqNum := m.seq }, [.b m])) := by
  refine hs.after (Nat.le_refl _) (fun m' hm => ?_) (fun _ _ _ hconf => hconf.congr rfl rfl)
  obtain rfl := Msg.b.inj (List.mem_singleton.mp hm)
  exact hid ▸ hack

end Multicast

end Reorder

/-! ## The network once the handlers end -/

/-- How many broadcasts `send_msg` has multicast. -/
def Threads.multicasts (t : Threads N) : ℕ :=
  match t.sender with
  | .ready => t.node.seqNum
  | .prepareMsg | .multicastMsg _ => t.node.seqNum - 1

/-- The node once its handler ends, with the broadcasts it has multicast, and what it has yet to
multicast. -/
def Threads.settled (i : Fin N) (t : Threads N) : Node N × List (Msg N) :=
  ({ (t.receiver.rest i t.node).1 with seqNum := t.multicasts },
    (t.receiver.rest i t.node).2)

def ThreadedNetwork.settled (s : ThreadedNetwork N) : Network N where
  nodes i := ((s.threads i).settled i).1
  sent i := s.sent i ++ ((s.threads i).settled i).2.map (⟨·, s.processed i⟩)
  processed := s.processed

section Settled

variable {i : Fin N} {t : Threads N} {s : ThreadedNetwork N}

theorem handle_withSeq (d : Msg N) (n : Node N) (q : ℕ) : handle i d { n with seqNum := q } =
    ({ (handle i d n).1 with seqNum := q }, (handle i d n).2) := by
  have hsame : (receiveMsg i d ⟨{ n with seqNum := q }, .ready, .ready⟩).receiver =
      (receiveMsg i d ⟨n, .ready, .ready⟩).receiver := by cases d <;> rfl
  have hq := rest_receiveMsg (i := i) d ⟨{ n with seqNum := q }, .ready, .ready⟩
  have hn := rest_receiveMsg (i := i) d ⟨n, .ready, .ready⟩
  rw [← hq, ← hn, hsame, rest_withSeq]

theorem settled_ready (hready : t.receiver = .ready) :
    t.settled i = ({ t.node with seqNum := t.multicasts }, []) := by
  rw [Threads.settled, hready]
  rfl

/-- A datagram takes effect when it is received. -/
theorem settled_receiveMsg (hready : t.receiver = .ready) (d : Msg N) :
    (receiveMsg i d t).settled i = handle i d (t.settled i).1 := by
  have hnode : (receiveMsg i d t).node = t.node := by cases d <;> rfl
  have hsender : (receiveMsg i d t).multicasts = t.multicasts := by cases d <;> rfl
  rw [settled_ready hready, handle_withSeq, ← rest_receiveMsg, Threads.settled, hnode, hsender]

theorem recvThread_multicasts : (recvThread i t).1.multicasts = t.multicasts := by
  rw [recvThread]
  cases t.receiver with
  | updateVector1 m =>
    simp only [Threads.multicasts, UdpMulticast.updateVector1, updateVectorBy_seqNum]
  | update m => simp only [Threads.multicasts, updateVector, updateVectorBy_seqNum]
  | ready | saveAck | saveNoAck | count | prepareAck | multicastAck | move | learn => rfl

/-- A step of a handler changes nothing once the handler ends. -/
theorem settled_recvThread : t.settled i =
    (((recvThread i t).1.settled i).1,
      (recvThread i t).2 ++ ((recvThread i t).1.settled i).2) := by
  have hrest := rest_recvThread (i := i) t
  rw [Threads.settled, Threads.settled, recvThread_multicasts, hrest]

theorem settled_after (s : ThreadedNetwork N) (i : Fin N) (p : Fin N → ℕ)
    (r : Threads N × List (Msg N)) : (s.after i p r).settled =
      { nodes := Function.update s.settled.nodes i (r.1.settled i).1
        sent := Function.update s.settled.sent i
          (s.sent i ++ (r.2 ++ (r.1.settled i).2).map (⟨·, p⟩))
        processed := Function.update s.processed i p } := by
  have hnodes : (s.after i p r).settled.nodes =
      Function.update s.settled.nodes i (r.1.settled i).1 := by
    funext j
    rcases eq_or_ne j i with rfl | hj
    · simp [ThreadedNetwork.settled, ThreadedNetwork.after]
    · simp [ThreadedNetwork.settled, ThreadedNetwork.after, hj]
  have hsent : (s.after i p r).settled.sent = Function.update s.settled.sent i
      (s.sent i ++ (r.2 ++ (r.1.settled i).2).map (⟨·, p⟩)) := by
    funext j
    rcases eq_or_ne j i with rfl | hj
    · simp [ThreadedNetwork.settled, ThreadedNetwork.after]
    · simp [ThreadedNetwork.settled, ThreadedNetwork.after, hj]
  rw [← hnodes, ← hsent]
  rfl

theorem settled_after_receive (hready : (s.threads i).receiver = .ready) (p : Fin N → ℕ)
    (d : Msg N) : (s.after i p (receiveMsg i d (s.threads i), [])).settled =
      s.settled.after i p (handle i d (s.settled.nodes i)) := by
  have hsent : s.settled.sent i = s.sent i := by
    simp only [ThreadedNetwork.settled, settled_ready hready, List.map_nil, List.append_nil]
  rw [settled_after, settled_receiveMsg hready, List.nil_append, Network.after, hsent]
  rfl

theorem settled_after_handle (s : ThreadedNetwork N) (i : Fin N) :
    (s.after i (s.processed i) (recvThread i (s.threads i))).settled = s.settled := by
  have hsettled := settled_recvThread (i := i) (t := s.threads i)
  have hnode : ((recvThread i (s.threads i)).1.settled i).1 = s.settled.nodes i :=
    (congrArg Prod.fst hsettled).symm
  have hsent : s.sent i ++ ((recvThread i (s.threads i)).2 ++
      ((recvThread i (s.threads i)).1.settled i).2).map (⟨·, s.processed i⟩) =
      s.settled.sent i :=
    congrArg (fun out => s.sent i ++ out.map (⟨·, s.processed i⟩)) (congrArg Prod.snd hsettled).symm
  rw [settled_after, hnode, hsent, Function.update_eq_self, Function.update_eq_self,
    Function.update_eq_self]
  rfl

/-- `send_msg` only changes how many broadcasts it has multicast. -/
theorem settled_sendThread (i : Fin N) (t : Threads N) : (sendThread i t).1.settled i =
    ({ (t.settled i).1 with seqNum := (sendThread i t).1.multicasts },
      (t.settled i).2) := by
  rw [sendThread]
  cases t.sender with
  | ready =>
    simp only [Threads.settled, rest_withSeq]
  | prepareMsg | multicastMsg m => rfl

theorem recvThread_sender : (recvThread i t).1.sender = t.sender := by
  rw [recvThread]
  cases t.receiver <;> rfl

theorem recvThread_seqNum : (recvThread i t).1.node.seqNum = t.node.seqNum := by
  rw [recvThread]
  cases t.receiver with
  | updateVector1 m => exact updateVectorBy_seqNum (· < ·) m t.node
  | update m => exact updateVectorBy_seqNum (· ≤ ·) m t.node
  | ready | saveAck | saveNoAck | count | prepareAck | multicastAck | move | learn => rfl

/-- `ack_num` is written once, last but for the acknowledgement. -/
theorem recvThread_ackNum : (recvThread i t).1.node.ackNum = t.node.ackNum ∨
    (recvThread i t).1.node.ackNum = ((recvThread i t).1.settled i).1.ackNum := by
  rw [recvThread]
  cases t.receiver with
  | count m | learn k => exact .inr rfl
  | updateVector1 m => exact .inl (updateVectorBy_ackNum (· < ·) m t.node)
  | update m => exact .inl (updateVectorBy_ackNum (· ≤ ·) m t.node)
  | ready | saveAck | saveNoAck | prepareAck | multicastAck | move => exact .inl rfl

end Settled

/-! ## Along a run of the threads -/

/-- What `send_msg` holds: its next number, and no more than its node is about to have ordered. -/
structure Prepared (i : Fin N) (t : Threads N) : Prop where
  seq_pos : t.sender ≠ .ready → 0 < t.node.seqNum
  message : ∀ m, t.sender = .multicastMsg m →
    m.idProcess = i ∧ m.seq = t.node.seqNum ∧ m.ack ≤ (t.settled i).1.ackNum
  ackNum_le : t.node.ackNum ≤ (t.settled i).1.ackNum

structure ThreadsInv (hN : 2 ≤ N) (s : ThreadedNetwork N) : Prop where
  inv : Inv hN s.settled
  processed_le : ∀ j x, s.processed j x ≤ (s.sent x).length
  prepared : ∀ i, Prepared i (s.threads i)

section Prepared

variable {i : Fin N} {t : Threads N}

theorem prepared_sendThread (h : Prepared i t) : Prepared i (sendThread i t).1 := by
  have hackNum : ((sendThread i t).1.settled i).1.ackNum =
      (t.settled i).1.ackNum := by rw [settled_sendThread]
  cases ht : t.sender with
  | ready =>
    have hsent : sendThread i t = ({ t with
        node := { t.node with seqNum := t.node.seqNum + 1 }, sender := .prepareMsg }, []) := by
      rw [sendThread, ht]
    refine ⟨fun _ => ?_, fun m hm => ?_, hackNum ▸ ?_⟩
    · rw [hsent]
      exact Nat.succ_pos _
    · rw [hsent] at hm
      cases hm
    · rw [hsent]
      exact h.ackNum_le
  | prepareMsg =>
    have hsent : sendThread i t =
        ({ t with sender := .multicastMsg ⟨i, t.node.seqNum, t.node.ackNum⟩ }, []) := by
      rw [sendThread, ht]
    refine ⟨fun _ => ?_, fun m hm => ?_, hackNum ▸ ?_⟩
    · rw [hsent]
      exact h.seq_pos (by rw [ht]; exact nofun)
    · rw [hackNum]
      rw [hsent] at hm ⊢
      obtain rfl := SendPc.multicastMsg.inj hm
      exact ⟨rfl, rfl, h.ackNum_le⟩
    · rw [hsent]
      exact h.ackNum_le
  | multicastMsg m =>
    have hsent : sendThread i t = ({ t with sender := .ready }, [.b m]) := by
      rw [sendThread, ht]
    refine ⟨fun hne => ?_, fun m' hm => ?_, hackNum ▸ ?_⟩
    · rw [hsent] at hne
      exact absurd rfl hne
    · rw [hsent] at hm
      cases hm
    · rw [hsent]
      exact h.ackNum_le

theorem prepared_recvThread (h : Prepared i t) : Prepared i (recvThread i t).1 := by
  have hsettled : (t.settled i).1 = ((recvThread i t).1.settled i).1 := by
    rw [settled_recvThread]
  refine ⟨fun hne => ?_, fun m hm => ?_, ?_⟩
  · rw [recvThread_seqNum]
    exact h.seq_pos (recvThread_sender ▸ hne)
  · rw [recvThread_seqNum, ← hsettled]
    exact h.message m (recvThread_sender ▸ hm)
  · rcases recvThread_ackNum (i := i) (t := t) with hsame | hdone
    · rw [hsame, ← hsettled]
      exact h.ackNum_le
    · exact hdone.le

theorem prepared_receiveMsg (h : Prepared i t) {d : Msg N}
    (hle : (t.settled i).1.ackNum ≤ ((receiveMsg i d t).settled i).1.ackNum) :
    Prepared i (receiveMsg i d t) := by
  have hsame : (receiveMsg i d t).node = t.node ∧
      (receiveMsg i d t).sender = t.sender := by cases d <;> exact ⟨rfl, rfl⟩
  refine ⟨fun hne => ?_, fun m hm => ?_, ?_⟩
  · rw [hsame.1]
    exact h.seq_pos (hsame.2 ▸ hne)
  · obtain ⟨hid, hseq, hack⟩ := h.message m (hsame.2 ▸ hm)
    exact ⟨hid, hsame.1 ▸ hseq, hack.trans hle⟩
  · rw [hsame.1]
    exact h.ackNum_le.trans hle

/-- A step of `send_msg` changes nothing once the handler ends, or multicasts the next broadcast. -/
theorem sendThread_cases (h : Prepared i t) :
    sendThread i t = ((sendThread i t).1, []) ∧
      (sendThread i t).1.settled i = t.settled i ∨
    ∃ m : Bcast N, m.idProcess = i ∧ m.seq = (t.settled i).1.seqNum + 1 ∧
      m.ack ≤ (t.settled i).1.ackNum ∧
      sendThread i t = ((sendThread i t).1, [.b m]) ∧
      (sendThread i t).1.settled i =
        ({ (t.settled i).1 with seqNum := m.seq }, (t.settled i).2) := by
  rw [settled_sendThread]
  have hcount : t.sender ≠ .ready → t.node.seqNum - 1 + 1 = t.node.seqNum :=
    fun hne => Nat.sub_add_cancel (h.seq_pos hne)
  cases ht : t.sender with
  | ready =>
    refine .inl ⟨by rw [sendThread, ht], ?_⟩
    simp only [sendThread, Threads.settled, Threads.multicasts, ht,
      Nat.add_sub_cancel]
  | prepareMsg =>
    refine .inl ⟨by rw [sendThread, ht], ?_⟩
    simp only [sendThread, Threads.settled, Threads.multicasts, ht]
  | multicastMsg m =>
    obtain ⟨hid, hseq, hack⟩ := h.message m ht
    have hne : t.sender ≠ .ready := by rw [ht]; exact nofun
    have hsettled : (t.settled i).1.seqNum = t.node.seqNum - 1 := by
      simp only [Threads.settled, Threads.multicasts, ht]
    refine .inr ⟨m, hid, ?_, hack, by rw [sendThread, ht], ?_⟩
    · rw [hsettled, hcount hne, hseq]
    · simp only [sendThread, Threads.multicasts, ht, hseq]

end Prepared

section Runs

variable {hN : 2 ≤ N} {s s' : ThreadedNetwork N}

theorem after_prepared {i : Fin N} {p : Fin N → ℕ} {r : Threads N × List (Msg N)}
    (h : ∀ j, Prepared j (s.threads j)) (hi : Prepared i r.1) (j : Fin N) :
    Prepared j ((s.after i p r).threads j) := by
  rw [ThreadedNetwork.after]
  rcases eq_or_ne j i with rfl | hj
  · dsimp only
    rwa [Function.update_self]
  · dsimp only
    rw [Function.update_of_ne hj]
    exact h j

theorem after_processed_le {i : Fin N} {p : Fin N → ℕ} {r : Threads N × List (Msg N)}
    (h : ∀ j x, s.processed j x ≤ (s.sent x).length) (hp : ∀ x, p x ≤ (s.sent x).length)
    (j x : Fin N) : (s.after i p r).processed j x ≤ ((s.after i p r).sent x).length := by
  have hsent : (s.sent x).length ≤ ((s.after i p r).sent x).length := by
    rw [ThreadedNetwork.after]
    rcases eq_or_ne x i with rfl | hx
    · dsimp only
      rw [Function.update_self, List.length_append]
      exact Nat.le_add_right _ _
    · dsimp only
      rw [Function.update_of_ne hx]
  refine Nat.le_trans ?_ hsent
  rw [ThreadedNetwork.after]
  rcases eq_or_ne j i with rfl | hj
  · dsimp only
    rw [Function.update_self]
    exact hp x
  · dsimp only
    rw [Function.update_of_ne hj]
    exact h j x

/-- A datagram that was sent will have been sent once the handlers end. -/
theorem settled_sent {x : Fin N} {c : ℕ} {d : Datagram N} (h : (s.sent x)[c]? = some d) :
    (s.settled.sent x)[c]? = some d := by
  obtain ⟨hc, -⟩ := List.getElem?_eq_some_iff.mp h
  rw [ThreadedNetwork.settled, List.getElem?_append_left hc, h]

theorem step_receive {i x : Fin N} (h : ThreadedNetwork.step s (.receive i x) = some s') :
    ∃ d, (s.sent x)[s.processed i x]? = some d ∧ (s.threads i).receiver = .ready ∧
      (∀ y, d.past y ≤ s.processed i y) ∧
      s' = s.after i (tick (s.processed i) x) (receiveMsg i d.content (s.threads i), []) := by
  simp only [ThreadedNetwork.step] at h
  split at h
  · cases h
  · rename_i d hd
    split at h
    · rename_i hguard
      exact ⟨d, hd, hguard.1, hguard.2, (Option.some.inj h).symm⟩
    · cases h

/-- The step that the receipt of a datagram is once the handlers end. -/
theorem step_settled {i x : Fin N} {d : Datagram N}
    (hd : (s.sent x)[s.processed i x]? = some d) (hpast : ∀ y, d.past y ≤ s.processed i y) :
    step s.settled (.recv i x) = some (s.settled.after i (tick (s.processed i) x)
      (handle i d.content (s.settled.nodes i))) := by
  have hsent : (s.settled.sent x)[s.settled.processed i x]? = some d := settled_sent hd
  have hpast' : ∀ y, d.past y ≤ s.settled.processed i y := hpast
  simp only [step, hsent, if_pos hpast']
  rfl

/-- A step of `send_msg`, once the handlers end: nothing, or the multicast of the next broadcast
before the acknowledgements that wait. -/
theorem settled_after_send (h : ThreadsInv hN s) (i : Fin N) :
    (s.after i (s.processed i) (sendThread i (s.threads i))).settled = s.settled ∨
    ∃ m : Bcast N, m.idProcess = i ∧ m.seq = (s.settled.nodes i).seqNum + 1 ∧
      m.ack ≤ (s.settled.nodes i).ackNum ∧
      NetworkHastened (s.after i (s.processed i) (sendThread i (s.threads i))).settled
        (s.settled.after i (s.settled.processed i)
          ({ s.settled.nodes i with seqNum := m.seq }, [.b m])) := by
  rcases sendThread_cases (h.prepared i) with ⟨hout, hsame⟩ | ⟨m, hid, hseq, hack, hout, hnext⟩
  · left
    rw [settled_after, hsame, hout]
    have hnode : ((s.threads i).settled i).1 = s.settled.nodes i := rfl
    have hsent : s.sent i ++ ([] ++ ((s.threads i).settled i).2).map (⟨·, s.processed i⟩) =
        s.settled.sent i := rfl
    rw [hnode, hsent, Function.update_eq_self, Function.update_eq_self, Function.update_eq_self]
    rfl
  · refine .inr ⟨m, hid, hseq, hack, ?_⟩
    have hpending : ∀ e ∈ ((s.threads i).settled i).2.map (Datagram.mk · (s.processed i)),
        ∃ k, e.content = .a k := by
      intro e he
      obtain ⟨d, hd, rfl⟩ := List.mem_map.mp he
      exact rest_acks _ _ d hd
    rw [settled_after, hnext, hout]
    refine ⟨rfl, rfl, fun x => ⟨(s.sent x).length, fun j => ?_, ?_⟩⟩
    · rw [Network.after]
      dsimp only
      rw [Function.update_eq_self]
      exact h.processed_le j x
    · rw [Network.after]
      rcases eq_or_ne x i with rfl | hx
      · dsimp only
        rw [Function.update_self, Function.update_self]
        have happend : s.settled.sent x ++ [Msg.b m].map (⟨·, s.settled.processed x⟩) =
            s.sent x ++ (((s.threads x).settled x).2.map (⟨·, s.processed x⟩) ++
              [⟨.b m, s.processed x⟩]) := List.append_assoc _ _ _
        rw [happend]
        exact hastened_of_acks _ hpending rfl
      · dsimp only
        rw [Function.update_of_ne hx, Function.update_of_ne hx]
        exact Hastened.refl _ _

theorem threadsInv_initial (hN : 2 ≤ N) : ThreadsInv hN (ThreadedNetwork.initial) where
  inv := inv_initial hN
  processed_le _ _ := Nat.le_refl _
  prepared _ := ⟨fun h => absurd rfl h, nofun, Nat.le_refl _⟩

/-- At a receipt, the network once the handlers end makes the step of the handler. -/
theorem inv_receive (h : ThreadsInv hN s) {i x : Fin N} {d : Datagram N}
    (hd : (s.sent x)[s.processed i x]? = some d) (hpast : ∀ y, d.past y ≤ s.processed i y) :
    Inv hN (s.settled.after i (tick (s.processed i) x)
      (handle i d.content (s.settled.nodes i))) :=
  inv_step h.inv (step_settled hd hpast)

theorem threadsInv_step (h : ThreadsInv hN s) {e : ThreadEvent N}
    (hstep : ThreadedNetwork.step s e = some s') : ThreadsInv hN s' := by
  cases e with
  | send i =>
    obtain rfl : _ = s' := Option.some.inj hstep
    refine ⟨?_, after_processed_le h.processed_le (h.processed_le i),
      after_prepared h.prepared (prepared_sendThread (h.prepared i))⟩
    rcases settled_after_send h i with hsame | ⟨m, hid, hseq, -, hnext⟩
    · exact hsame ▸ h.inv
    · exact (inv_multicast hid h.inv hseq).hastened hnext
  | receive i x =>
    obtain ⟨d, hd, hready, hpast, rfl⟩ := step_receive hstep
    have hinv := inv_receive h hd hpast
    have hsettled := settled_after_receive hready (tick (s.processed i) x) d.content
    refine ⟨hsettled ▸ hinv, after_processed_le h.processed_le fun y => ?_,
      after_prepared h.prepared (prepared_receiveMsg (h.prepared i) ?_)⟩
    · rcases eq_or_ne y x with rfl | hy
      · rw [tick_self]
        exact (List.getElem?_eq_some_iff.mp hd).1
      · rw [tick_of_ne _ hy]
        exact h.processed_le i y
    · -- the order of the node only grows, and `ack_num` is its length
      have hgrows := handle_order_length i d.content (s.settled.nodes i)
      have hnext := hinv.order_length i
      rw [after_nodes_self] at hnext
      rw [h.inv.order_length i, hnext] at hgrows
      rw [settled_receiveMsg hready]
      exact hgrows
  | handle i =>
    obtain ⟨-, rfl⟩ : (s.threads i).receiver ≠ .ready ∧
        s.after i (s.processed i) (recvThread i (s.threads i)) = s' := by
      simpa [ThreadedNetwork.step] using hstep
    exact ⟨(settled_after_handle s i).symm ▸ h.inv,
      after_processed_le h.processed_le (h.processed_le i),
      after_prepared h.prepared (prepared_recvThread (h.prepared i))⟩

/-- The condition on a receipt: the broadcast of another follower that a follower receives meets
no entry exactly at its `ack`. -/
def SoundReceive (s : ThreadedNetwork N) : ThreadEvent N → Prop
  | .send _ | .handle _ => True
  | .receive i x => ∀ d ∈ (s.sent x)[s.processed i x]?, match d.content with
    | .b message => AmongFollowers i message → NoExactAck (s.threads i).node message
    | .a _ => True

instance SoundReceive.decidable (s : ThreadedNetwork N) : ∀ e, Decidable (SoundReceive s e)
  | .send _ | .handle _ => isTrue trivial
  | .receive i x =>
    match h : (s.sent x)[s.processed i x]? with
    | none => isTrue (by simp [SoundReceive, h])
    | some ⟨.a _, _⟩ => isTrue (by simp [SoundReceive, h])
    | some ⟨.b message, _⟩ =>
      decidable_of_iff (AmongFollowers i message → NoExactAck (s.threads i).node message)
        (by simp [SoundReceive, h])

/-- The condition is the one of the step that the network makes once the handlers end. -/
theorem soundAck_settled {i x : Fin N} {d : Datagram N}
    (hd : (s.sent x)[s.processed i x]? = some d) (hready : (s.threads i).receiver = .ready)
    (hok : SoundReceive s (.receive i x)) : SoundAck s.settled (.recv i x) := by
  intro d' hd'
  obtain rfl : d = d' := Option.some.inj ((settled_sent hd).symm.trans hd')
  have hcond := hok d hd
  have hnode : s.settled.nodes i =
      { (s.threads i).node with seqNum := (s.threads i).multicasts } :=
    congrArg Prod.fst (settled_ready (i := i) hready)
  cases hc : d.content with
  | a k => trivial
  | b m =>
    rw [hc] at hcond
    intro hfollowers
    rw [hnode]
    exact hcond hfollowers

theorem threadsSound_step (hmax : N ≤ maxNodes) (h : ThreadsInv hN s) (hsound : Sound s.settled)
    {e : ThreadEvent N} (hok : SoundReceive s e) (hstep : ThreadedNetwork.step s e = some s') :
    Sound s'.settled := by
  cases e with
  | send i =>
    obtain rfl : _ = s' := Option.some.inj hstep
    rcases settled_after_send h i with hsame | ⟨m, hid, -, hack, hnext⟩
    · exact hsame ▸ hsound
    · rw [← h.inv.order_length i] at hack
      exact (sound_multicast hid hsound hack).hastened hnext
  | receive i x =>
    obtain ⟨d, hd, hready, hpast, rfl⟩ := step_receive hstep
    rw [settled_after_receive hready]
    exact sound_recv hmax h.inv hsound (settled_sent hd) (soundAck_settled hd hready hok)
  | handle i =>
    obtain ⟨-, rfl⟩ : (s.threads i).receiver ≠ .ready ∧
        s.after i (s.processed i) (recvThread i (s.threads i)) = s' := by
      simpa [ThreadedNetwork.step] using hstep
    exact (settled_after_handle s i).symm ▸ hsound

end Runs

/-- **Total order.** However the calls of the two threads of each node alternate, the nodes deliver
in total order, and each acknowledgement names the message of its rank in one order that all the
nodes follow. -/
theorem threads_total_order (hN : 2 ≤ N) {es : List (ThreadEvent N)} {s : ThreadedNetwork N}
    (h : exec ThreadedNetwork.step .initial es = some s) :
    TotalOrder (fun i => (s.threads i).node) ∧
    ∃ order, (∀ i, (s.threads i).node.order <+: order) ∧
      ∀ q k, (acks ((s.sent (leader hN)).map Datagram.content))[q]? = some k →
        Names order q k := by
  have hs : ThreadsInv hN s :=
    exec_invariant (fun _ _ _ hs hstep => threadsInv_step hs hstep) (threadsInv_initial hN) h
  have horder : ∀ i, (s.threads i).node.order <+: (s.settled.nodes (leader hN)).order :=
    fun i => (rest_order (s.threads i).receiver (s.threads i).node).trans (hs.inv.order_le i)
  refine ⟨totalOrder_of_order horder hs.inv.order_some hs.inv.numbered_order, _, horder, ?_⟩
  intro q k hk
  refine hs.inv.named q k ?_
  have hcontents : s.settled.contents (leader hN) = (s.sent (leader hN)).map Datagram.content ++
      ((s.threads (leader hN)).settled (leader hN)).2 := by
    simp [Network.contents, ThreadedNetwork.settled, Function.comp_def]
  obtain ⟨hq, -⟩ := List.getElem?_eq_some_iff.mp hk
  rw [hcontents, acks_append, List.getElem?_append_left hq, hk]

/-- The leader `i` broadcasts again before it acknowledges its first broadcast; the follower `j`
treats the three datagrams and broadcasts, and the leader delivers the first message. -/
def overtaking (i j : Fin N) : List (ThreadEvent N) :=
  List.replicate 3 (.send i) ++ .receive i i :: List.replicate 4 (.handle i) ++
    List.replicate 3 (.send i) ++ [.handle i] ++
  (.receive j i :: List.replicate 2 (.handle j)) ++
    (.receive j i :: List.replicate 2 (.handle j)) ++
    (.receive j i :: List.replicate 2 (.handle j)) ++ List.replicate 3 (.send j) ++
  (.receive i i :: List.replicate 5 (.handle i)) ++ [.receive i i] ++
    (.receive i j :: List.replicate 5 (.handle i))

theorem threads_total_order_overtaking :
    let s := (exec ThreadedNetwork.step .initial (overtaking (0 : Fin 2) 1)).get (by decide)
    (TotalOrder (fun i => (s.threads i).node) ∧
      ∃ order, (∀ i, (s.threads i).node.order <+: order) ∧
        ∀ q k, (acks ((s.sent (leader (Nat.le_refl 2))).map Datagram.content))[q]? = some k →
          Names order q k) ∧
      (s.threads 0).node.deliveryQueue = [some ⟨0, 1, 0⟩] :=
  ⟨threads_total_order (Nat.le_refl 2) (Option.some_get _).symm, by decide⟩

/-- **Uniform delivery.** Along the runs whose receipts meet `SoundReceive`, what one node has
delivered, every node has received, or its handler holds it and is about to save it. -/
theorem threads_uniform_delivery (hN : 2 ≤ N) (hmax : N ≤ maxNodes) {es : List (ThreadEvent N)}
    {s : ThreadedNetwork N}
    (hok : Along ThreadedNetwork.step SoundReceive ThreadedNetwork.initial es)
    (h : exec ThreadedNetwork.step .initial es = some s) :
    ∀ j m, some m ∈ (s.threads j).node.deliveryQueue →
      ∀ k, Received (s.threads k).node m ∨ (s.threads k).receiver.unsaved = some m := by
  have hstep : ∀ s e s', ThreadsInv hN s ∧ Sound s.settled → SoundReceive s e →
      ThreadedNetwork.step s e = some s' → ThreadsInv hN s' ∧ Sound s'.settled := by
    intro s e s' hs hok hstep
    exact ⟨threadsInv_step hs.1 hstep, threadsSound_step hmax hs.1 hs.2 hok hstep⟩
  obtain ⟨hs, hsound⟩ :=
    exec_invariant_along hstep ⟨threadsInv_initial hN, sound_initial⟩ hok h
  have huniform := uniformDelivery_of_confirmed hs.inv.order_le hs.inv.delivered hsound.confirmed
  intro j m hm k
  have hdelivered : some m ∈ (s.settled.nodes j).deliveryQueue :=
    (rest_deliveryQueue (s.threads j).receiver (s.threads j).node).subset hm
  exact rest_received (i := k) (huniform j m hdelivered k)

theorem threads_uniform_delivery_overtaking :
    let s := (exec ThreadedNetwork.step .initial (overtaking (0 : Fin 2) 1)).get (by decide)
    ∀ j m, some m ∈ (s.threads j).node.deliveryQueue →
      ∀ k, Received (s.threads k).node m ∨ (s.threads k).receiver.unsaved = some m :=
  threads_uniform_delivery (Nat.le_refl 2) (by decide) (by decide) (Option.some_get _).symm

end UniformBroadcast.UdpMulticast
