import UniformBroadcast.TcpRingInvariant

/-!
# Every event of the TCP ring keeps the invariant

The five kinds of step (a broadcast by the leader or by a follower, the treatment of a
broadcast by either, the treatment of an acknowledgement) are instances of one lemma
about a node that reads some messages, learns some broadcasts and writes some messages.
-/

namespace UniformBroadcast.TcpRing

open Sequencer SequencedStreams

variable {N : ℕ} {hN : 2 ≤ N}

/-- What node `i` does in one step: it reads `popped` and keeps `rest`, becomes `n`,
writes `out`, and `gain` is what it has newly heard. `order` is the leader's order after
the step. -/
structure Effect (hN : 2 ≤ N) (s : Ring N) (i : Fin N) (popped rest : List (Msg N)) (n : Node N)
    (out : List (Msg N)) (gain : List (Option (Bcast N))) (order : List (Option (Bcast N))) :
    Prop where
  read : s.inbox i = popped ++ rest
  heard : ∀ x, n.heard x = (s.nodes i).heard x ++ stream source (some x) gain
  learnt : ∀ x, x ≠ i → stream source (some x) gain = stream source (some x) (bcasts popped)
  written : ∀ x, x ≠ getSuccessor i →
    stream source (some x) (bcasts out) = stream source (some x) gain
  stopped : stream source (some (getSuccessor i)) (bcasts out) = []
  own : Numbered number (n.heard i)
  own_length : (n.heard i).length = n.seqNum
  grows : (s.nodes (leader hN)).order <+: order
  leader_order : i = leader hN → n.order = order
  follower_order : i ≠ leader hN → order = (s.nodes (leader hN)).order
  order_le : n.order <+: order
  order_length : n.order.length = n.ackNum
  order_some : ∀ o ∈ order, o.isSome
  leader_noAck : i = leader hN → ∀ x, n.vectorNoAck x = []
  leader_acks : getSuccessor i = leader hN → ∀ k, Msg.a k ∉ out
  flow_in : i ≠ leader hN → ∀ q,
    Flow order (fun x => ((s.nodes i).heard x).length) (s.nodes i).order.length (s.inbox i) q →
    Flow order (fun x => (n.heard x).length) n.order.length rest q
  flow_out : getSuccessor i ≠ leader hN → ∀ known p,
    Flow order known p (s.inbox (getSuccessor i)) (s.nodes i).order.length →
    (∀ x, (n.heard x).length ≤
      known x + (stream source (some x) (bcasts (s.inbox (getSuccessor i) ++ out))).length) →
    Flow order known p (s.inbox (getSuccessor i) ++ out) n.order.length
  delivered : n.Counted

section Preservation

variable {s : Ring N} {i : Fin N} {popped rest out : List (Msg N)} {n : Node N}
  {gain order : List (Option (Bcast N))}

theorem Effect.leader_order_after (h : Effect hN s i popped rest n out gain order) :
    ((s.after i rest (n, out)).nodes (leader hN)).order = order := by
  by_cases hi : leader hN = i
  · rw [← h.leader_order hi.symm, ← hi, after_nodes_self]
  · rw [after_nodes_of_ne _ _ _ _ _ hi, h.follower_order (Ne.symm hi)]

/-- Every node still has heard no more of a sender than the sender itself. -/
theorem Effect.heard_le_after (hs : Inv hN s) (h : Effect hN s i popped rest n out gain order)
    (j x : Fin N) : ((s.after i rest (n, out)).nodes j).heard x <+:
      ((s.after i rest (n, out)).nodes x).heard x := by
  have hgrow : (s.nodes x).heard x <+: ((s.after i rest (n, out)).nodes x).heard x := by
    by_cases hx : x = i
    · subst hx
      rw [after_nodes_self, h.heard]
      exact List.prefix_append _ _
    · rw [after_nodes_of_ne _ _ _ _ _ hx]
  by_cases hj : j = i
  · subst hj
    by_cases hx : x = j
    · subst hx
      exact List.prefix_refl _
    · -- what the node has just heard was on its connection, so its predecessor had heard it
      refine List.IsPrefix.trans ?_ hgrow
      rw [after_nodes_self, h.heard, h.learnt x hx]
      refine List.IsPrefix.trans ?_ (hs.heard_le (getPredecessor j) x)
      rw [← hs.carried j x hx, h.read, bcasts_append, stream_append, ← List.append_assoc]
      exact List.prefix_append _ _
  · rw [after_nodes_of_ne _ _ _ _ _ hj]
    exact (hs.heard_le j x).trans hgrow

/-- The connections still hold what the predecessor has heard and the node has not. -/
theorem Effect.carried_after (hs : Inv hN s) (h : Effect hN s i popped rest n out gain order)
    (j x : Fin N) (hx : x ≠ j) : ((s.after i rest (n, out)).nodes j).heard x ++
      stream source (some x) (bcasts ((s.after i rest (n, out)).inbox j)) =
      ((s.after i rest (n, out)).nodes (getPredecessor j)).heard x := by
  have hold := hs.carried j x hx
  by_cases hj : j = i
  · subst hj
    have hp := getPredecessor_ne_self hN j
    rw [after_nodes_self, after_inbox_self hN, after_nodes_of_ne _ _ _ _ _ hp, ← hold, h.heard,
      h.learnt x hx, h.read, bcasts_append, stream_append, List.append_assoc]
  · by_cases hj' : j = getSuccessor i
    · subst hj'
      rw [getPredecessor_getSuccessor] at hold ⊢
      rw [after_nodes_of_ne _ _ _ _ _ hj, after_inbox_succ hN, after_nodes_self, h.heard,
        bcasts_append, stream_append, h.written x hx, ← hold, List.append_assoc]
    · have hp : getPredecessor j ≠ i := fun hp => hj' (by rw [← hp]; simp)
      rw [after_nodes_of_ne _ _ _ _ _ hj, after_inbox_of_ne _ _ _ _ _ hj hj',
        after_nodes_of_ne _ _ _ _ _ hp, hold]

theorem Effect.flow_after (hs : Inv hN s) (h : Effect hN s i popped rest n out gain order)
    (j : Fin N) (hj : j ≠ leader hN) : Flow order
      (fun x => (((s.after i rest (n, out)).nodes j).heard x).length)
      ((s.after i rest (n, out)).nodes j).order.length ((s.after i rest (n, out)).inbox j)
      ((s.after i rest (n, out)).nodes (getPredecessor j)).order.length := by
  have hold := (hs.flow j hj).mono h.grows (fun _ => Nat.le_refl _)
  by_cases hji : j = i
  · subst hji
    have hp := getPredecessor_ne_self hN j
    rw [after_inbox_self hN, after_nodes_of_ne _ _ _ _ _ hp]
    simpa only [after_nodes_self] using h.flow_in hj _ hold
  · by_cases hj' : j = getSuccessor i
    · subst hj'
      rw [getPredecessor_getSuccessor] at hold ⊢
      rw [after_nodes_of_ne _ _ _ _ _ hji, after_inbox_succ hN, after_nodes_self]
      refine h.flow_out hj _ _ hold fun x => ?_
      by_cases hx : x = getSuccessor i
      · -- the successor's own broadcasts are not carried, but it knows them all
        have hle := (h.heard_le_after hs i x).length_le
        rw [after_nodes_self, hx, after_nodes_of_ne _ _ _ _ _ hji] at hle
        rw [hx]
        exact hle.trans (Nat.le_add_right _ _)
      · have hc := congrArg List.length (h.carried_after hs (getSuccessor i) x hx)
        rw [getPredecessor_getSuccessor, after_nodes_of_ne _ _ _ _ _ hji, after_inbox_succ hN,
          after_nodes_self, List.length_append] at hc
        exact hc.ge
    · have hp : getPredecessor j ≠ i := fun hp => hj' (by rw [← hp]; simp)
      rw [after_nodes_of_ne _ _ _ _ _ hji, after_inbox_of_ne _ _ _ _ _ hji hj',
        after_nodes_of_ne _ _ _ _ _ hp]
      exact hold

theorem Effect.inv_after (hs : Inv hN s) (h : Effect hN s i popped rest n out gain order) :
    Inv hN (s.after i rest (n, out)) := by
  refine ⟨?_, ?_, h.carried_after hs, ?_, h.heard_le_after hs, ?_, ?_, ?_, ?_, ?_, ?_, ?_⟩
  · intro x
    by_cases hx : x = i
    · subst hx
      simpa using h.own
    · simpa [after_nodes_of_ne _ _ _ _ _ hx] using hs.own x
  · intro x
    by_cases hx : x = i
    · subst hx
      simpa using h.own_length
    · simpa [after_nodes_of_ne _ _ _ _ _ hx] using hs.own_length x
  · intro j
    have hold := hs.not_back j
    by_cases hj : j = i
    · subst hj
      rw [h.read, bcasts_append, stream_append] at hold
      rw [after_inbox_self hN]
      exact (List.append_eq_nil_iff.mp hold).2
    · by_cases hj' : j = getSuccessor i
      · subst hj'
        rw [after_inbox_succ hN, bcasts_append, stream_append, hold, h.stopped]
        rfl
      · rw [after_inbox_of_ne _ _ _ _ _ hj hj', hold]
  · intro x
    by_cases hl : leader hN = i
    · subst hl
      simpa using h.leader_noAck rfl x
    · simpa [after_nodes_of_ne _ _ _ _ _ hl] using hs.leader_noAck x
  · intro j
    rw [h.leader_order_after]
    by_cases hj : j = i
    · subst hj
      simpa using h.order_le
    · rw [after_nodes_of_ne _ _ _ _ _ hj]
      exact (hs.order_le j).trans h.grows
  · intro j
    by_cases hj : j = i
    · subst hj
      simpa using h.order_length
    · simpa [after_nodes_of_ne _ _ _ _ _ hj] using hs.order_length j
  · rw [h.leader_order_after]
    exact h.order_some
  · intro k hk
    by_cases hl : leader hN = i
    · rw [← hl, after_inbox_self hN] at hk
      refine hs.leader_acks k ?_
      rw [hl, h.read]
      exact List.mem_append_right _ hk
    · by_cases hl' : leader hN = getSuccessor i
      · rw [hl', after_inbox_succ hN, List.mem_append] at hk
        rcases hk with hk | hk
        · exact hs.leader_acks k (hl' ▸ hk)
        · exact h.leader_acks hl'.symm k hk
      · rw [after_inbox_of_ne _ _ _ _ _ hl hl'] at hk
        exact hs.leader_acks k hk
  · intro j hj
    rw [h.leader_order_after]
    exact h.flow_after hs j hj
  · intro j
    by_cases hj : j = i
    · subst hj
      simpa using h.delivered
    · simpa [after_nodes_of_ne _ _ _ _ _ hj] using hs.delivered j

end Preservation

/-! ## The handlers -/

/-- At a follower the acknowledgement it reads names the message at the head of the queue
of its sender, which is the next entry of the leader's order. -/
theorem Inv.ack_head {s : Ring N} (hs : Inv hN s) {i : Fin N} (hi : i ≠ leader hN) {k : Ack N}
    {rest : List (Msg N)} (hread : s.inbox i = .a k :: rest) :
    ∃ m held, (s.nodes i).vectorNoAck k.idProcess = m :: held ∧
      (s.nodes i).order ++ [some m] <+: (s.nodes (leader hN)).order ∧
      m.idProcess = k.idProcess ∧ m.seq = k.seq ∧ k.revNum = (s.nodes i).ackNum + 1 := by
  have hflow := hs.flow i hi
  rw [hread] at hflow
  obtain ⟨⟨m, hm, hid, hseq, hrev⟩, hknown, -⟩ := hflow
  have hnext := prefix_concat (hs.order_le i) hm
  have hleader : stream source (some m.idProcess) (s.nodes (leader hN)).order <+:
      (s.nodes m.idProcess).heard m.idProcess := by
    simpa [Node.heard, hs.leader_noAck] using hs.heard_le (leader hN) m.idProcess
  obtain ⟨held, hheld⟩ := held_next hnext hleader (hs.own m.idProcess)
    (hs.heard_le i m.idProcess) (by simpa only [hseq, hid] using hknown)
  exact ⟨m, held, hid ▸ hheld, hnext, hid, hseq, by rw [hrev, hs.order_length]⟩

/-- A broadcast on the connection is not one of the node's own, and it is the next one of
its sender that the node hears. -/
theorem Inv.bcast_next {s : Ring N} (hs : Inv hN s) {i : Fin N} {m : Bcast N}
    {rest : List (Msg N)} (hread : s.inbox i = .b m :: rest) :
    m.idProcess ≠ i ∧
      (s.nodes i).heard m.idProcess ++ [some m] <+: (s.nodes m.idProcess).heard m.idProcess := by
  have hne : m.idProcess ≠ i := by
    intro h
    have hback := hs.not_back i
    rw [hread, bcasts, ← h, ← source_some, stream_cons_self] at hback
    exact List.cons_ne_nil _ _ hback
  refine ⟨hne, List.IsPrefix.trans ?_ (hs.heard_le (getPredecessor i) m.idProcess)⟩
  rw [← hs.carried i m.idProcess hne, hread, bcasts, ← source_some, stream_cons_self]
  exact ⟨stream source (some m.idProcess) (bcasts rest), by simp⟩

/-! What `handle_msg` forwards is what it hears, unless its successor is the sender. -/

theorem transferred_written (i : Fin N) (m : Bcast N) {x : Fin N} (hx : x ≠ getSuccessor i) :
    stream source (some x) (bcasts (transferred i m)) = stream source (some x) [some m] := by
  unfold transferred
  split
  · rfl
  · rename_i h
    have hm : m.idProcess = getSuccessor i := by
      rw [not_not.mp h, getSuccessor_getPredecessor]
    simp [bcasts, stream, hm, Ne.symm hx]

theorem transferred_stopped (i : Fin N) (m : Bcast N) :
    stream source (some (getSuccessor i)) (bcasts (transferred i m)) = [] := by
  unfold transferred
  split
  · rename_i h
    have hm : m.idProcess ≠ getSuccessor i := fun hm => h (by rw [hm, getPredecessor_getSuccessor])
    simp [bcasts, stream, hm]
  · rfl

theorem transferred_acks (i : Fin N) (m : Bcast N) (k : Ack N) : Msg.a k ∉ transferred i m := by
  unfold transferred
  split <;> simp

theorem Flow.transferred {order : List (Option (Bcast N))} {known : Fin N → ℕ} {p q : ℕ}
    {l : List (Msg N)} (hl : Flow order known p l q) (i : Fin N) (m : Bcast N) :
    Flow order known p (l ++ transferred i m) q := by
  unfold TcpRing.transferred
  split
  · exact hl.concat_b m
  · simpa using hl

/-- The leader appends a broadcast to its order, forwards it and acknowledges it. -/
theorem inv_leader {s : Ring N} (hs : Inv hN s) (popped : List (Msg N)) {rest : List (Msg N)}
    {m : Bcast N} {r : Node N × List (Msg N)} (hread : s.inbox (leader hN) = popped ++ rest)
    (hlearnt : ∀ x, x ≠ leader hN →
      stream source (some x) [some m] = stream source (some x) (bcasts popped))
    (hout : r.2 = transferred (leader hN) m ++
      [.a ⟨m.idProcess, m.seq, (s.nodes (leader hN)).ackNum + 1⟩])
    (horder : r.1.order = (s.nodes (leader hN)).order ++ [some m])
    (hack : r.1.ackNum = (s.nodes (leader hN)).ackNum + 1)
    (hnoAck : r.1.vectorNoAck = (s.nodes (leader hN)).vectorNoAck)
    (hown : Numbered number (r.1.heard (leader hN)))
    (hlength : (r.1.heard (leader hN)).length = r.1.seqNum)
    (hseq : m.seq ≤ (r.1.heard m.idProcess).length) (hcount : r.1.Counted) :
    Inv hN (s.after (leader hN) rest r) := by
  have hheard : ∀ x, r.1.heard x =
      (s.nodes (leader hN)).heard x ++ stream source (some x) [some m] := by
    intro x
    simp [Node.heard, horder, hnoAck, hs.leader_noAck]
  have heffect : Effect hN s (leader hN) popped rest r.1 r.2 [some m]
      ((s.nodes (leader hN)).order ++ [some m]) := {
    read := hread
    heard := hheard
    learnt := hlearnt
    written := fun x hx => by simp [hout, bcasts, transferred_written _ m hx]
    stopped := by simp [hout, bcasts, transferred_stopped]
    own := hown
    own_length := hlength
    grows := List.prefix_append _ _
    leader_order := fun _ => horder
    follower_order := fun h => absurd rfl h
    order_le := horder ▸ List.prefix_refl _
    order_length := by rw [horder, List.length_append, hs.order_length, hack]; rfl
    order_some := by
      intro o ho
      rcases List.mem_append.mp ho with ho | ho
      · exact hs.order_some o ho
      · simp [List.mem_singleton.mp ho]
    leader_noAck := fun _ => hnoAck ▸ hs.leader_noAck
    leader_acks := fun h => absurd h (getSuccessor_ne_self hN _)
    flow_in := fun h => absurd rfl h
    flow_out := by
      intro _ known p hflow hknown
      rw [hout, ← List.append_assoc, horder, List.length_append]
      apply (hflow.transferred (leader hN) m).concat_a
      · exact ⟨m, by simp, rfl, rfl, by rw [hs.order_length]⟩
      · have hle := hseq.trans (hknown m.idProcess)
        simpa [hout, bcasts] using hle
    delivered := hcount }
  exact heffect.inv_after hs

theorem inv_send_leader {s : Ring N} (hs : Inv hN s) :
    Inv hN (s.after (leader hN) (s.inbox (leader hN))
      (sendMsg (leader hN) (s.nodes (leader hN)))) := by
  obtain ⟨hout, horder, hseqNum, hack, hnoAck⟩ :=
    sendMsg_leader (val_leader hN) (s.nodes (leader hN))
  have hheard : (sendMsg (leader hN) (s.nodes (leader hN))).1.heard (leader hN) =
      (s.nodes (leader hN)).heard (leader hN) ++
        [some (nextMsg (leader hN) (s.nodes (leader hN)))] := by
    simp [Node.heard, horder, hnoAck, hs.leader_noAck, stream, nextMsg]
  have hlength := hs.own_length (leader hN)
  refine inv_leader hs [] rfl ?_ ?_ horder hack hnoAck ?_ ?_ ?_
    (sendMsg_counted _ (hs.delivered _))
  · intro x hx
    simp [stream, nextMsg, bcasts, Ne.symm hx]
  · have hne : leader hN ≠ getPredecessor (leader hN) := (getPredecessor_ne_self hN _).symm
    simp [hout, transferred, nextMsg, hne]
  · rw [hheard]
    exact numbered_concat.mpr ⟨hs.own _, by simp [nextMsg, hlength]⟩
  · rw [hheard, hseqNum, List.length_append, hlength]
    rfl
  · simp only [nextMsg] at hheard ⊢
    rw [hheard, List.length_append, hlength]
    rfl

theorem inv_bcast_leader {s : Ring N} (hs : Inv hN s) {m : Bcast N} {rest : List (Msg N)}
    (hread : s.inbox (leader hN) = .b m :: rest) :
    Inv hN (s.after (leader hN) rest (handleMsg (leader hN) m (s.nodes (leader hN)))) := by
  obtain ⟨hout, horder, hseqNum, hack, hnoAck⟩ :=
    handleMsg_leader (val_leader hN) m (s.nodes (leader hN))
  obtain ⟨hne, hnext⟩ := hs.bcast_next hread
  have hheard : ∀ x, (handleMsg (leader hN) m (s.nodes (leader hN))).1.heard x =
      (s.nodes (leader hN)).heard x ++ stream source (some x) [some m] := by
    intro x
    simp [Node.heard, horder, hnoAck, hs.leader_noAck]
  have hself : stream source (some (leader hN)) [some m] = [] := by simp [stream, hne]
  have hm : stream source (some m.idProcess) [some m] = [some m] := by simp [stream]
  refine inv_leader hs [.b m] hread (fun _ _ => rfl) hout horder hack hnoAck ?_ ?_ ?_
    (handleMsg_counted _ _ (hs.delivered _))
  · rw [hheard, hself, List.append_nil]
    exact hs.own _
  · rw [hheard, hself, List.append_nil, hseqNum]
    exact hs.own_length _
  · rw [hheard, hm, List.length_append]
    exact (numbered_concat.mp ((hs.own m.idProcess).of_initial hnext)).2.le

/-- A follower holds back a broadcast it hears and forwards it. -/
theorem inv_follower {s : Ring N} (hs : Inv hN s) {i : Fin N} (hi : i ≠ leader hN)
    (popped : List (Msg N)) {rest : List (Msg N)} {m : Bcast N} {n : Node N}
    (hread : s.inbox i = popped ++ rest)
    (hlearnt : ∀ x, x ≠ i →
      stream source (some x) [some m] = stream source (some x) (bcasts popped))
    (horder : n.order = (s.nodes i).order) (hack : n.ackNum = (s.nodes i).ackNum)
    (hnoAck : n.vectorNoAck = (s.nodes i).vectorNoAck)
    (hown : Numbered number ((s.nodes i).heard i ++ stream source (some i) [some m]))
    (hlength : ((s.nodes i).heard i ++ stream source (some i) [some m]).length = n.seqNum)
    (hflow : ∀ q, Flow (s.nodes (leader hN)).order (fun x => ((s.nodes i).heard x).length)
      (s.nodes i).order.length (s.inbox i) q →
      Flow (s.nodes (leader hN)).order
        (fun x => ((s.nodes i).heard x ++ stream source (some x) [some m]).length)
        (s.nodes i).order.length rest q)
    (hcount : n.Counted) :
    Inv hN (s.after i rest (saveMsgInVectorNoAck m n, transferred i m)) := by
  have hheard : ∀ x, (saveMsgInVectorNoAck m n).heard x =
      (s.nodes i).heard x ++ stream source (some x) [some m] := by
    intro x
    rw [saveMsgInVectorNoAck_heard, Node.heard, horder, hnoAck, ← Node.heard]
  have heffect : Effect hN s i popped rest (saveMsgInVectorNoAck m n) (transferred i m) [some m]
      (s.nodes (leader hN)).order := {
    read := hread
    heard := hheard
    learnt := hlearnt
    written := fun x hx => transferred_written i m hx
    stopped := transferred_stopped i m
    own := hheard i ▸ hown
    own_length := by rw [hheard, hlength]; rfl
    grows := List.prefix_refl _
    leader_order := fun h => absurd h hi
    follower_order := fun _ => rfl
    order_le := by rw [saveMsgInVectorNoAck_order, horder]; exact hs.order_le i
    order_length := by
      rw [saveMsgInVectorNoAck_order, horder, hs.order_length, ← hack]
      rfl
    order_some := hs.order_some
    leader_noAck := fun h => absurd h hi
    leader_acks := fun _ => transferred_acks i m
    flow_in := fun _ q hq => by
      simpa only [hheard, saveMsgInVectorNoAck_order, horder] using hflow q hq
    flow_out := fun _ known p hq _ => by
      rw [saveMsgInVectorNoAck_order, horder]
      exact hq.transferred i m
    delivered := hcount }
  exact heffect.inv_after hs

theorem inv_send_follower {s : Ring N} (hs : Inv hN s) {i : Fin N} (hi : i ≠ leader hN) :
    Inv hN (s.after i (s.inbox i) (sendMsg i (s.nodes i))) := by
  have hlength := hs.own_length i
  have hself : stream source (some i) [some (nextMsg i (s.nodes i))] =
      [some (nextMsg i (s.nodes i))] := by simp [stream, nextMsg]
  have hne : i ≠ getPredecessor i := (getPredecessor_ne_self hN i).symm
  have hout : [Msg.b (nextMsg i (s.nodes i))] = transferred i (nextMsg i (s.nodes i)) := by
    simp [transferred, nextMsg, hne]
  rw [sendMsg_follower ((eq_leader_iff hN i).not.mp hi), hout]
  refine inv_follower hs hi [] rfl ?_ rfl rfl rfl ?_ ?_ ?_ (hs.delivered i)
  · intro x hx
    simp [stream, nextMsg, bcasts, Ne.symm hx]
  · rw [hself]
    exact numbered_concat.mpr ⟨hs.own i, by simp [nextMsg, hlength]⟩
  · rw [hself, List.length_append, hlength]
    rfl
  · intro q hq
    exact hq.mono (List.prefix_refl _) (fun x => by simp)

theorem inv_bcast_follower {s : Ring N} (hs : Inv hN s) {i : Fin N} (hi : i ≠ leader hN)
    {m : Bcast N} {rest : List (Msg N)} (hread : s.inbox i = .b m :: rest) :
    Inv hN (s.after i rest (handleMsg i m (s.nodes i))) := by
  obtain ⟨hne, hnext⟩ := hs.bcast_next hread
  have hself : stream source (some i) [some m] = [] := by simp [stream, hne]
  rw [handleMsg_follower ((eq_leader_iff hN i).not.mp hi)]
  refine inv_follower hs hi [.b m] hread (fun _ _ => rfl) (updateVectorBy_order _ _ _)
    (updateVectorBy_ackNum _ _ _) (updateVectorBy_vectorNoAck _ _ _) ?_ ?_ ?_
    (updateVectorBy_counted _ m (hs.delivered i))
  · rw [hself, List.append_nil]
    exact hs.own i
  · rw [hself, List.append_nil, updateVector, updateVectorBy_seqNum]
    exact hs.own_length i
  · intro q hq
    rw [hread] at hq
    refine Flow.mono (List.prefix_refl _) (fun x => ?_) hq
    by_cases hx : x = m.idProcess
    · subst hx
      simp [stream]
    · simp [hx]

theorem inv_ack_follower {s : Ring N} (hs : Inv hN s) {i : Fin N} (hi : i ≠ leader hN)
    {k : Ack N} {rest : List (Msg N)} (hread : s.inbox i = .a k :: rest) :
    Inv hN (s.after i rest (handleAck i k (s.nodes i))) := by
  obtain ⟨m, held, hheld, hnext, hid, hseq, hrev⟩ := hs.ack_head hi hread
  rw [handleAck_follower ((eq_leader_iff hN i).not.mp hi)]
  set n : Node N :=
    { moveMsgInVectorAck (confBits i) k (s.nodes i) with ackNum := k.revNum } with hn
  have horder : n.order = (s.nodes i).order ++ [some m] := by
    have h := moveMsgInVectorAck_order (confBits i) k (s.nodes i)
    rwa [hheld] at h
  have hheard : ∀ x, n.heard x = (s.nodes i).heard x :=
    fun x => moveMsgInVectorAck_heard (confBits i) hheld hid x
  have hbcasts : ∀ x, stream source (some x)
      (bcasts (if (i.val + 1) % N ≠ 0 then [Msg.a k] else [])) = [] := by
    intro x
    split <;> rfl
  have heffect : Effect hN s i [.a k] rest n (if (i.val + 1) % N ≠ 0 then [.a k] else []) []
      (s.nodes (leader hN)).order := {
    read := hread
    heard := fun x => by rw [hheard, stream_nil, List.append_nil]
    learnt := fun _ _ => rfl
    written := fun x _ => hbcasts x
    stopped := hbcasts _
    own := hheard i ▸ hs.own i
    own_length := by rw [hheard]; exact hs.own_length i
    grows := List.prefix_refl _
    leader_order := fun h => absurd h hi
    follower_order := fun _ => rfl
    order_le := horder ▸ hnext
    order_length := by rw [horder, List.length_append, hs.order_length, hn, hrev]; rfl
    order_some := hs.order_some
    leader_noAck := fun h => absurd h hi
    leader_acks := fun h => by
      rw [if_neg (not_not.mpr ((getSuccessor_eq_leader_iff hN i).mp h))]
      simp
    flow_in := fun _ q hq => by
      rw [hread] at hq
      simpa only [hheard, horder, List.length_append, List.length_singleton] using hq.2.2
    flow_out := by
      intro hsucc known p hq hknown
      rw [if_pos ((getSuccessor_eq_leader_iff hN i).not.mp hsucc)] at hknown ⊢
      rw [horder, List.length_append]
      apply hq.concat_a
      · obtain ⟨t, ht⟩ := hnext
        exact ⟨m, by simp [← ht], hid, hseq, by rw [hrev, hs.order_length]⟩
      · have hle := hknown k.idProcess
        have hflow := hs.flow i hi
        rw [hread] at hflow
        rw [hheard] at hle
        exact hflow.2.1.trans (by simpa [bcasts] using hle)
    delivered := handleAck_counted i k (hs.delivered i) |> fun h => by
      simpa only [handleAck_follower ((eq_leader_iff hN i).not.mp hi)] using h }
  exact heffect.inv_after hs

theorem inv_step {s s' : Ring N} (hs : Inv hN s) {e : Event N} (h : step s e = some s') :
    Inv hN s' := by
  cases e with
  | send i =>
    obtain rfl : _ = s' := Option.some.inj h
    by_cases hi : i = leader hN
    · subst hi
      exact inv_send_leader hs
    · exact inv_send_follower hs hi
  | recv i =>
    cases hread : s.inbox i with
    | nil => simp [step, hread] at h
    | cons m rest =>
      cases m with
      | b m =>
        obtain rfl : _ = s' := Option.some.inj (by simpa only [step, hread] using h)
        by_cases hi : i = leader hN
        · subst hi
          exact inv_bcast_leader hs hread
        · exact inv_bcast_follower hs hi hread
      | a k =>
        obtain rfl : _ = s' := Option.some.inj (by simpa only [step, hread] using h)
        by_cases hi : i = leader hN
        · subst hi
          exact absurd (by simp [hread]) (hs.leader_acks k)
        · exact inv_ack_follower hs hi hread

end UniformBroadcast.TcpRing
