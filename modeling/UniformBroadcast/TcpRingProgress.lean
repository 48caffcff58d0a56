import UniformBroadcast.TcpRingUniformity
import UniformBroadcast.TcpRingTraffic
import UniformBroadcast.SequencerProgress

/-!
# Agreement and progress on the TCP ring

When nothing is left on the connections all the nodes have the same order, which holds every
broadcast. An entry is delivered at a node once every other node has ordered it, has then broadcast
again, and this broadcast has been treated: so between two moments of rest with a broadcast of
every node, all that was ordered at the first is delivered at the second.
-/

namespace UniformBroadcast.TcpRing

open Sequencer SequencedStreams TransitionRuns

variable {N : ℕ} {hN : 2 ≤ N}

/-! ## At rest -/

section Rest

variable {s : Ring N}

/-- Every node has heard all that was broadcast. -/
theorem Inv.rest_heard (hs : Inv hN s) (hrest : s.AtRest) (j x : Fin N) :
    (s.nodes j).heard x = (s.nodes x).heard x := by
  refine ring_induction (P := fun j => (s.nodes j).heard x = (s.nodes x).heard x) x rfl ?_ j
  intro j hj ih
  have hcarried := hs.carried j x (Ne.symm hj)
  rw [hrest j, bcasts, stream_nil, List.append_nil] at hcarried
  exact hcarried.trans ih

theorem Inv.rest_order (hs : Inv hN s) (hrest : s.AtRest) (j : Fin N) :
    (s.nodes j).order = (s.nodes (leader hN)).order := by
  have hlength : (s.nodes j).order.length = (s.nodes (leader hN)).order.length := by
    refine ring_induction
      (P := fun j => (s.nodes j).order.length = (s.nodes (leader hN)).order.length)
      (leader hN) rfl ?_ j
    intro j hj ih
    have hflow := hs.flow j hj
    rw [hrest j] at hflow
    exact hflow.trans ih
  exact (hs.order_le j).eq_of_length hlength

/-- Nothing is held back. -/
theorem Inv.rest_noAck (hs : Inv hN s) (hrest : s.AtRest) (j x : Fin N) :
    (s.nodes j).vectorNoAck x = [] := by
  have hleader := heard_length (s.nodes (leader hN)) x
  have hj := heard_length (s.nodes j) x
  rw [hs.rest_heard hrest, hs.leader_noAck, List.length_nil] at hleader
  rw [hs.rest_heard hrest, hs.rest_order hrest] at hj
  exact List.length_eq_zero_iff.mp (by omega)

theorem Inv.rest_stream (hs : Inv hN s) (hrest : s.AtRest) (j x : Fin N) :
    stream source (some x) (s.nodes j).order = (s.nodes x).heard x := by
  rw [← hs.rest_heard hrest j x, Node.heard, hs.rest_noAck hrest, List.map_nil, List.append_nil]

theorem Inv.rest_seqs (hs : Inv hN s) (hrest : s.AtRest) (j x : Fin N) :
    seqsOf x (s.nodes j).order = List.range' 1 (s.nodes x).seqNum := by
  rw [seqsOf, hs.rest_stream hrest, ← hs.own_length]
  exact hs.own x

end Rest

/-- **Agreement at rest.** In every state reached in which nothing is left on the connections, all
the nodes have the same order, nothing is held back, and the order holds the broadcasts of each
node, all of them and in the order in which it made them. -/
theorem ring_rest_agreement (hN : 2 ≤ N) {es : List (Event N)} {s : Ring N}
    (h : exec step Ring.initial es = some s) (hrest : s.AtRest) :
    (∀ i j, (s.nodes i).order = (s.nodes j).order) ∧
      ∀ j x, (s.nodes j).vectorNoAck x = [] ∧
        seqsOf x (s.nodes j).order = List.range' 1 (s.nodes x).seqNum := by
  have hs := inv_exec hN h
  refine ⟨?_, fun j x => ⟨hs.rest_noAck hrest j x, hs.rest_seqs hrest j x⟩⟩
  intro i j
  rw [hs.rest_order hrest i, hs.rest_order hrest j]

/-- Both nodes of a ring of two have broadcast. -/
theorem ring_rest_agreement_exchange :
    seqsOf 1 ((((exec step Ring.initial (exchange (0 : Fin 2) 1)).get (by decide)).nodes 0).order) =
      [1] :=
  ((ring_rest_agreement (Nat.le_refl 2) (Option.some_get _).symm (by decide)).2 0 1).2

/-! ## What a broadcast clears -/

theorem handleMsg_heard_length (i : Fin N) (m : Bcast N) (n : Node N) (x : Fin N) :
    ((handleMsg i m n).1.heard x).length =
      (n.heard x).length + if x = m.idProcess then 1 else 0 := by
  have hone : (stream source (some x) [some m]).length = if x = m.idProcess then 1 else 0 := by
    by_cases hx : x = m.idProcess
    · simp [stream, hx]
    · simp [stream, hx, Ne.symm hx]
  by_cases hi : i.val = 0
  · obtain ⟨-, horder, -, -, hnoAck⟩ := handleMsg_leader hi m n
    rw [heard_length, heard_length, horder, hnoAck, stream_append, List.length_append, hone]
    omega
  · rw [handleMsg_follower hi, saveMsgInVectorNoAck_heard, List.length_append, hone, updateVector,
      updateVectorBy_heard]

/-- A node hears nothing of the others by broadcasting. -/
theorem sendMsg_heard_length (i : Fin N) (n : Node N) {x : Fin N} (hx : x ≠ i) :
    ((sendMsg i n).1.heard x).length = (n.heard x).length := by
  have hnone : stream source (some x) [some (nextMsg i n)] = [] := by
    simp [stream, nextMsg, Ne.symm hx]
  by_cases hi : i.val = 0
  · obtain ⟨-, horder, -, -, hnoAck⟩ := sendMsg_leader hi n
    rw [heard_length, heard_length, horder, hnoAck, stream_append, hnone, List.append_nil]
  · rw [sendMsg_follower hi, saveMsgInVectorNoAck_heard, hnone, List.append_nil]
    rfl

section Handlers

variable {i : Fin N} {n : Node N} {p : ℕ} {seen : Fin N → Prop}

/-- An entry saved by a node waits for other nodes only. -/
theorem confBits_awaited (hmax : N ≤ maxNodes) (i : Fin N) (k : ℕ)
    (h : (confBits i).getLsbD k = true) :
    ∃ x : Fin N, x.val = k ∧ x ≠ i := by
  have hall : ∀ n < 6, ∀ y : Fin n, ∀ k < 32, (confBits y).getLsbD k = true →
      ∃ x : Fin n, x.val = k ∧ x ≠ y := by decide
  refine hall N (Nat.lt_succ_of_le hmax) i k ?_ h
  by_contra hk
  rw [BitVec.getLsbD_of_ge _ _ (Nat.le_of_not_lt hk)] at h
  cases h

theorem confBits_ne_zero (hmax : N ≤ maxNodes) (hN : 2 ≤ N) (i : Fin N) : confBits i ≠ 0#32 := by
  have hall : ∀ n < 6, 2 ≤ n → ∀ y : Fin n, confBits y ≠ 0#32 := by decide
  exact hall N (Nat.lt_succ_of_le hmax) hN i

theorem sendMsg_caughtUp (hN : 2 ≤ N) (hmax : N ≤ maxNodes) (h : CaughtUp (· ≠ i) p seen n)
    (hcount : n.Counted) (hack : n.ackNum = n.order.length) :
    CaughtUp (· ≠ i) p seen (sendMsg i n).1 := by
  by_cases hi : i.val = 0
  · simp only [sendMsg, hi, ↓reduceIte]
    set n₁ : Node N := { n with seqNum := n.seqNum + 1 }
    have h₁ : CaughtUp (· ≠ i) p seen n₁ := h.congr rfl rfl rfl
    have h₂ := CaughtUp.saveMsgInVectorAck (n := n₁) hcount (confBits_awaited hmax i)
      (confBits_ne_zero hmax hN i) h₁ (nextMsg i n)
    -- the leader does not wait for itself
    have h₃ := h₂.updateVectorBy (· ≤ ·) (nextMsg i n) True
      fun _ q hq => (Nat.le_of_lt hq).trans (h.ordered.trans hack.ge)
    exact (h₃.mono fun x _ hx => .inl hx).congr rfl rfl rfl
  · rw [sendMsg_follower hi]
    exact h.congr rfl rfl rfl

theorem handleMsg_caughtUp (hN : 2 ≤ N) (hmax : N ≤ maxNodes) (h : CaughtUp (· ≠ i) p seen n)
    (hcount : n.Counted) {m : Bcast N} {known : Prop} (hack : known → p ≤ m.ack) :
    CaughtUp (· ≠ i) p (fun x => seen x ∨ x = m.idProcess ∧ known) (handleMsg i m n).1 := by
  have hupdated := h.updateVectorBy (· ≤ ·) m known
    fun hknown q hq => (Nat.le_of_lt hq).trans (hack hknown)
  by_cases hi : i.val = 0
  · simp only [handleMsg, hi, ↓reduceIte]
    have hsaved := hupdated.saveMsgInVectorAck (updateVectorBy_counted _ m hcount)
      (confBits_awaited hmax i) (confBits_ne_zero hmax hN i) m
    exact hsaved.congr rfl rfl rfl
  · rw [handleMsg_follower hi]
    exact hupdated.congr rfl rfl rfl

theorem handleAck_caughtUp (hN : 2 ≤ N) (hmax : N ≤ maxNodes) (h : CaughtUp (· ≠ i) p seen n)
    (hcount : n.Counted) (k : Ack N) :
    CaughtUp (· ≠ i) p seen (handleAck i k n).1 := by
  by_cases hi : i.val = 0
  · rwa [handleAck_leader hi]
  · rw [handleAck_follower hi]
    have hmoved := h.moveMsgInVectorAck hcount (confBits_awaited hmax i)
      (confBits_ne_zero hmax hN i) k
    exact hmoved.congr rfl rfl rfl

end Handlers

/-! ## Since a moment when everything was ordered -/

/-- The broadcasts behind the first `sent x` ones of each `x` were made when the first `p` entries
were ordered, and the nodes that have treated one of `x` no longer wait for `x`. -/
structure Since (p : ℕ) (sent : Fin N → ℕ) (s : Ring N) : Prop where
  acks : ∀ j m, Msg.b m ∈ s.inbox j → sent m.idProcess < m.seq → p ≤ m.ack
  caught : ∀ j, CaughtUp (· ≠ j) p (fun x => sent x < ((s.nodes j).heard x).length) (s.nodes j)

section Since

variable {s s' : Ring N} {p : ℕ} {sent : Fin N → ℕ}

theorem since_initial : Since 0 sent (Ring.initial : Ring N) where
  acks _ _ _ _ := Nat.zero_le _
  caught _ := caughtUp_initial

/-- What one step has to guarantee. -/
theorem Since.after (hs : Since p sent s) (hN : 2 ≤ N) {i : Fin N} {rest : List (Msg N)}
    {r : Node N × List (Msg N)} (hrest : rest ⊆ s.inbox i)
    (hout : ∀ m, Msg.b m ∈ r.2 → Msg.b m ∈ s.inbox i ∨ p ≤ m.ack)
    (hnode : CaughtUp (· ≠ i) p (fun x => sent x < (r.1.heard x).length) r.1) :
    Since p sent (s.after i rest r) where
  acks j m hm hsent := by
    by_cases hj : j = i
    · rw [hj, after_inbox_self hN] at hm
      exact hs.acks i m (hrest hm) hsent
    · by_cases hj' : j = getSuccessor i
      · rw [hj', after_inbox_succ hN, List.mem_append] at hm
        rcases hm with hm | hm
        · exact hs.acks _ m hm hsent
        · rcases hout m hm with hread | hle
          · exact hs.acks i m hread hsent
          · exact hle
      · rw [after_inbox_of_ne _ _ _ _ _ hj hj'] at hm
        exact hs.acks j m hm hsent
  caught j := by
    by_cases hj : j = i
    · rw [hj, after_nodes_self]
      exact hnode
    · rw [after_nodes_of_ne _ _ _ _ _ hj]
      exact hs.caught j

variable (hmax : N ≤ maxNodes) (hinv : Inv hN s) (hs : Since p sent s)

include hmax hinv hs

theorem since_send (i : Fin N) : Since p sent (s.after i (s.inbox i) (sendMsg i (s.nodes i))) := by
  refine hs.after hN (List.Subset.refl _) (fun m hm => .inr ?_) ?_
  · have hm' : m = nextMsg i (s.nodes i) := by
      by_cases hi : i.val = 0
      · simpa [(sendMsg_leader hi (s.nodes i)).1] using hm
      · simpa [sendMsg_follower hi] using hm
    rw [hm']
    exact (hs.caught i).ordered.trans (hinv.order_length i).le
  · have hnode := sendMsg_caughtUp hN hmax (hs.caught i) (hinv.delivered i)
      (hinv.order_length i).symm
    refine hnode.mono fun x hx hseen => ?_
    rwa [sendMsg_heard_length i _ hx] at hseen

theorem since_bcast {i : Fin N} {m : Bcast N} {rest : List (Msg N)}
    (hread : s.inbox i = .b m :: rest) :
    Since p sent (s.after i rest (handleMsg i m (s.nodes i))) := by
  refine hs.after hN (by simp [hread]) (fun m' hm' => .inl ?_) ?_
  · have hmem : m' = m := by
      by_cases hi : i.val = 0
      · refine mem_transferred (i := i) ?_
        simpa [(handleMsg_leader hi m (s.nodes i)).1] using hm'
      · refine mem_transferred (i := i) ?_
        simpa [handleMsg_follower hi] using hm'
    rw [hmem, hread]
    exact List.mem_cons_self
  · have hnode := handleMsg_caughtUp hN hmax (hs.caught i) (hinv.delivered i)
      (hs.acks i m (by simp [hread]))
    refine hnode.mono fun x _ hseen => ?_
    rw [handleMsg_heard_length] at hseen
    by_cases hx : x = m.idProcess
    · -- it is as many as the number of the broadcast
      have hnum := (numbered_concat.mp ((hinv.own _).of_initial (hinv.bcast_next hread).2)).2
      rw [number_some] at hnum
      rw [if_pos hx, hx, ← hnum] at hseen
      exact .inr ⟨hx, hseen⟩
    · rw [if_neg hx] at hseen
      exact .inl hseen

theorem since_ack {i : Fin N} {k : Ack N} {rest : List (Msg N)} (hread : s.inbox i = .a k :: rest) :
    Since p sent (s.after i rest (handleAck i k (s.nodes i))) := by
  refine hs.after hN (by simp [hread]) (fun m hm => ?_) ?_
  · by_cases hi : i.val = 0
    · simp [handleAck_leader hi] at hm
    · rw [handleAck_follower hi] at hm
      split at hm <;> simp at hm
  · have hnode := handleAck_caughtUp hN hmax (hs.caught i) (hinv.delivered i) k
    refine hnode.mono fun x _ hseen => ?_
    by_cases hi : i = leader hN
    · have hmem : Msg.a k ∈ s.inbox (leader hN) := by
        rw [← hi, hread]
        exact List.mem_cons_self
      exact absurd hmem (hinv.leader_acks k)
    · obtain ⟨m, held, hheld, -, hid, -⟩ := hinv.ack_head hi hread
      rw [handleAck_follower ((eq_leader_iff hN i).not.mp hi)] at hseen
      have hheard := moveMsgInVectorAck_heard (confBits i) hheld hid x
      exact hheard ▸ hseen

theorem since_step {e : Event N} (h : step s e = some s') : Since p sent s' := by
  cases e with
  | send i =>
    obtain rfl : _ = s' := Option.some.inj h
    exact since_send hmax hinv hs i
  | recv i =>
    cases hread : s.inbox i with
    | nil => simp [step, hread] at h
    | cons m rest =>
      cases m with
      | b m =>
        obtain rfl : _ = s' := Option.some.inj (by simpa only [step, hread] using h)
        exact since_bcast hmax hinv hs hread
      | a k =>
        obtain rfl : _ = s' := Option.some.inj (by simpa only [step, hread] using h)
        exact since_ack hmax hinv hs hread

end Since

/-- A broadcast on a connection is one that its sender has made. -/
theorem Inv.seq_le {s : Ring N} (hs : Inv hN s) {j : Fin N} {m : Bcast N}
    (hm : Msg.b m ∈ s.inbox j) : m.seq ≤ (s.nodes m.idProcess).seqNum := by
  have hmem : ∀ {l : List (Msg N)}, Msg.b m ∈ l →
      some m ∈ stream source (some m.idProcess) (bcasts l) := by
    intro l hl
    induction l with
    | nil => cases hl
    | cons m' l ih =>
      rcases List.mem_cons.mp hl with rfl | hl
      · simp [bcasts, stream]
      · have hrest := ih hl
        cases m' with
        | b m' =>
          rw [stream, List.mem_filter] at hrest ⊢
          exact ⟨List.mem_cons_of_mem _ hrest.1, hrest.2⟩
        | a k => exact hrest
  have hinbox := hmem hm
  have hne : m.idProcess ≠ j := by
    rintro rfl
    rw [hs.not_back] at hinbox
    cases hinbox
  have hheard : some m ∈ (s.nodes m.idProcess).heard m.idProcess := by
    refine (hs.heard_le (getPredecessor j) m.idProcess).subset ?_
    rw [← hs.carried j m.idProcess hne]
    exact List.mem_append_right _ hinbox
  exact (number_le_of_mem (hs.own _) hheard).trans_eq (hs.own_length _)

/-- When all the nodes have ordered `p` entries, those that broadcast from then on cover them. -/
theorem Since.restart {s : Ring N} {p : ℕ} {sent : Fin N → ℕ} (hs : Since 0 sent s)
    (hinv : Inv hN s) (hp : ∀ j, p ≤ (s.nodes j).order.length) :
    Since p (fun x => (s.nodes x).seqNum) s where
  acks j m hm hsent := absurd (hinv.seq_le hm) (Nat.not_le_of_lt hsent)
  caught j := {
    waits := (hs.caught j).waits
    ordered := hp j
    cleared := by
      intro x _ hseen
      have hle := (hinv.heard_le j x).length_le
      rw [hinv.own_length x] at hle
      exact absurd hle (Nat.not_le_of_lt hseen) }

/-! ## Runs -/

section Orders

variable {s s' : Ring N}

theorem sendMsg_order_le (i : Fin N) (n : Node N) : n.order <+: (sendMsg i n).1.order := by
  by_cases hi : i.val = 0
  · obtain ⟨-, horder, -⟩ := sendMsg_leader hi n
    rw [horder]
    exact List.prefix_append _ _
  · rw [sendMsg_follower hi]
    exact List.prefix_refl _

theorem handleMsg_order_le (i : Fin N) (m : Bcast N) (n : Node N) :
    n.order <+: (handleMsg i m n).1.order := by
  by_cases hi : i.val = 0
  · obtain ⟨-, horder, -⟩ := handleMsg_leader hi m n
    rw [horder]
    exact List.prefix_append _ _
  · rw [handleMsg_follower hi, saveMsgInVectorNoAck_order, updateVector, updateVectorBy_order]

theorem handleAck_order_le (i : Fin N) (k : Ack N) (n : Node N) :
    n.order <+: (handleAck i k n).1.order := by
  by_cases hi : i.val = 0
  · rw [handleAck_leader hi]
  · rw [handleAck_follower hi]
    change _ <+: (moveMsgInVectorAck (confBits i) k n).order
    rw [moveMsgInVectorAck_order]
    exact List.prefix_append _ _

/-- The node that broadcasts. -/
def Event.sender : Event N → Option (Fin N)
  | .send i => some i
  | .recv _ => none

theorem step_nodes (e : Event N) (h : step s e = some s') :
    NodeStep e.sender s.nodes s'.nodes := by
  cases e with
  | send i =>
    obtain rfl : _ = s' := Option.some.inj h
    refine ⟨i, _, rfl, sendMsg_order_le i _, fun x hx => Option.some.inj hx, ?_⟩
    by_cases hi : i.val = 0
    · simp [Event.sender, (sendMsg_leader hi (s.nodes i)).2.2.1]
    · simp [Event.sender, sendMsg_follower hi, saveMsgInVectorNoAck]
  | recv i =>
    cases hread : s.inbox i with
    | nil => simp [step, hread] at h
    | cons m rest =>
      cases m with
      | b m =>
        obtain rfl : _ = s' := Option.some.inj (by simpa only [step, hread] using h)
        refine ⟨i, _, rfl, handleMsg_order_le i m _, by simp [Event.sender], ?_⟩
        by_cases hi : i.val = 0
        · simp [Event.sender, (handleMsg_leader hi m (s.nodes i)).2.2.1]
        · simp [Event.sender, handleMsg_follower hi, saveMsgInVectorNoAck, updateVector]
      | a k =>
        obtain rfl : _ = s' := Option.some.inj (by simpa only [step, hread] using h)
        refine ⟨i, _, rfl, handleAck_order_le i k _, by simp [Event.sender], ?_⟩
        by_cases hi : i.val = 0
        · simp [Event.sender, handleAck_leader hi]
        · simp [Event.sender, handleAck_follower hi, moveMsgInVectorAck]

end Orders

theorem since_exec (hN : 2 ≤ N) (hmax : N ≤ maxNodes) {s s' : Ring N} {p : ℕ} {sent : Fin N → ℕ}
    {es : List (Event N)} (hinv : Inv hN s) (hs : Since p sent s) (h : exec step s es = some s') :
    Inv hN s' ∧ Since p sent s' := by
  have hkeep : ∀ t e t', Inv hN t ∧ Since p sent t → step t e = some t' →
      Inv hN t' ∧ Since p sent t' := by
    intro t e t' ht hstep
    exact ⟨inv_step ht.1 hstep, since_step hmax ht.1 ht.2 hstep⟩
  exact exec_invariant hkeep ⟨hinv, hs⟩ h

/-- From a state reached in which every node has ordered `p` entries, a node delivers these entries,
the same at all the nodes, as soon as it has heard a newer broadcast of each other node. -/
theorem exec_delivered (hN : 2 ≤ N) (hmax : N ≤ maxNodes) {es es' : List (Event N)} {s s' : Ring N}
    (h : exec step Ring.initial es = some s) (h' : exec step s es' = some s') {p : ℕ}
    (hp : ∀ i, p ≤ (s.nodes i).order.length) {j : Fin N}
    (hheard : ∀ x, x ≠ j → (s.nodes x).seqNum < ((s'.nodes j).heard x).length) (i : Fin N) :
    (s.nodes i).order.take p <+: (s'.nodes j).deliveryQueue := by
  have hinitial : Since 0 (fun _ => 0) (Ring.initial : Ring N) := since_initial
  obtain ⟨hinv, hs⟩ := since_exec hN hmax (inv_initial hN) hinitial h
  obtain ⟨hinv', hs'⟩ := since_exec hN hmax hinv (hs.restart hinv hp) h'
  have hdelivered : p ≤ (s'.nodes j).highestDelivered :=
    (hs'.caught j).delivered (hinv'.delivered j) hheard
  exact take_delivered (hinv'.delivered j) (hp i)
    ((hinv.order_le i).trans (exec_order_le step_nodes h' (leader hN))) (hinv'.order_le j)
    hdelivered

/-- **Progress.** Between two moments at which nothing is left on the connections, with at least
one broadcast of every node in between, every node delivers all that had been broadcast before. -/
theorem ring_progress (hN : 2 ≤ N) (hmax : N ≤ maxNodes) {es es' : List (Event N)} {s s' : Ring N}
    (h : exec step Ring.initial es = some s) (hrest : s.AtRest) (h' : exec step s es' = some s')
    (hrest' : s'.AtRest) (hall : ∀ x, Event.send x ∈ es') (j : Fin N) :
    (s.nodes j).order <+: (s'.nodes j).deliveryQueue ∧
      ∀ x, List.range' 1 (s.nodes x).seqNum <+: seqsOf x (s'.nodes j).deliveryQueue := by
  have hinv := inv_exec hN h
  have hinv' : Inv hN s' := exec_invariant (fun _ _ _ hs hstep => inv_step hs hstep) hinv h'
  have hheard : ∀ x, x ≠ j → (s.nodes x).seqNum < ((s'.nodes j).heard x).length := by
    intro x _
    have hmore := exec_seqNum_lt step_nodes h' (hall x) rfl
    rwa [hinv'.rest_heard hrest', hinv'.own_length]
  have hdelivered := exec_delivered hN hmax h h'
    (fun i => (congrArg List.length (hinv.rest_order hrest i)).ge) hheard j
  rw [← hinv.rest_order hrest j, List.take_length] at hdelivered
  refine ⟨hdelivered, ?_⟩
  intro x
  rw [← hinv.rest_seqs hrest j x]
  exact (stream_mono source hdelivered (some x)).map number

/-- The two nodes take turns until the connections are empty, twice. -/
def rounds (i j : Fin N) : List (Event N) :=
  [.send i, .recv j, .recv j, .send j, .recv i, .recv j]

theorem ring_progress_rounds :
    (((exec step Ring.initial (rounds (0 : Fin 2) 1)).get (by decide)).nodes 0).order <+:
      (((exec step ((exec step Ring.initial (rounds (0 : Fin 2) 1)).get (by decide))
        (rounds 0 1)).get (by decide)).nodes 0).deliveryQueue :=
  (ring_progress (Nat.le_refl 2) (by decide) (Option.some_get _).symm (by decide)
    (Option.some_get _).symm (by decide) (by decide) 0).1

end UniformBroadcast.TcpRing
