import UniformBroadcast.UdpMulticastUniformity
import UniformBroadcast.SequencerProgress

/-!
# Agreement and progress of the UDP multicast

When every datagram has been treated everywhere, the nodes have the same order, which holds every
broadcast. Here an entry waits for all the nodes, the one that delivers it included: it is
delivered once a broadcast that each node made after ordering it has been treated.
-/

namespace UniformBroadcast.UdpMulticast

open Sequencer SequencedStreams TransitionRuns

variable {N : ℕ} {hN : 2 ≤ N} {s s' : Network N}

/-- Every node has treated every datagram. -/
def Network.AtRest (s : Network N) : Prop := ∀ j x, s.processed j x = (s.sent x).length

instance (s : Network N) : Decidable s.AtRest := inferInstanceAs (Decidable (∀ _ _, _))

/-! ## At rest -/

theorem rest_firsts (hrest : s.AtRest) (j x : Fin N) :
    s.firsts x (s.processed j x) = s.contents x := by
  rw [hrest j x, Network.firsts, List.take_length, Network.contents]

theorem Inv.rest_heard (hs : Inv hN s) (hrest : s.AtRest) (j x : Fin N) :
    (s.nodes j).heard x = bcasts (s.contents x) := by
  rw [hs.heard, rest_firsts hrest]

/-- A follower has treated as many acknowledgements as the leader has sent. -/
theorem Inv.rest_order (hs : Inv hN s) (hrest : s.AtRest) (j : Fin N) :
    (s.nodes j).order = (s.nodes (leader hN)).order := by
  by_cases hj : j = leader hN
  · rw [hj]
  · refine (hs.order_le j).eq_of_length ?_
    rw [hs.acked j hj, rest_firsts hrest, hs.acks_length]

/-- Nothing is held back. -/
theorem Inv.rest_noAck (hs : Inv hN s) (hrest : s.AtRest) (j x : Fin N) :
    (s.nodes j).vectorNoAck x = [] := by
  have hleader := heard_length (s.nodes (leader hN)) x
  have hj := heard_length (s.nodes j) x
  rw [hs.rest_heard hrest, hs.leader_noAck, List.length_nil] at hleader
  rw [hs.rest_heard hrest, hs.rest_order hrest] at hj
  exact List.length_eq_zero_iff.mp (by omega)

theorem Inv.rest_seqs (hs : Inv hN s) (hrest : s.AtRest) (j x : Fin N) :
    seqsOf x (s.nodes j).order = List.range' 1 (s.nodes x).seqNum := by
  have hstream : stream source (some x) (s.nodes j).order = bcasts (s.contents x) := by
    rw [← hs.rest_heard hrest j x, Node.heard, hs.rest_noAck hrest, List.map_nil, List.append_nil]
  rw [seqsOf, hstream, ← hs.seqNum]
  exact hs.numbered x

/-- **Agreement at rest.** In every state reached in which every datagram has been treated, all the
nodes have the same order, nothing is held back, and the order holds the broadcasts of each node,
all of them and in the order in which it made them. -/
theorem multicast_rest_agreement (hN : 2 ≤ N) {es : List (Event N)} {s : Network N}
    (h : exec step Network.initial es = some s) (hrest : s.AtRest) :
    (∀ i j, (s.nodes i).order = (s.nodes j).order) ∧
      ∀ j x, (s.nodes j).vectorNoAck x = [] ∧
        seqsOf x (s.nodes j).order = List.range' 1 (s.nodes x).seqNum := by
  have hs := inv_exec hN h
  refine ⟨?_, fun j x => ⟨hs.rest_noAck hrest j x, hs.rest_seqs hrest j x⟩⟩
  intro i j
  rw [hs.rest_order hrest i, hs.rest_order hrest j]

/-- The leader `i` and the follower `j` take turns until every datagram has been treated. -/
def rounds (i j : Fin N) : List (Event N) :=
  [.send i, .recv i i, .recv j i, .recv i i, .recv j i,
    .send j, .recv i j, .recv j j, .recv i i, .recv j i]

theorem multicast_rest_agreement_rounds : seqsOf 1
    ((((exec step Network.initial (rounds (0 : Fin 2) 1)).get (by decide)).nodes 0).order) = [1] :=
  ((multicast_rest_agreement (Nat.le_refl 2) (Option.some_get _).symm (by decide)).2 0 1).2

/-! ## What a broadcast clears -/

section Handlers

variable {i : Fin N} {n : Node N} {p : ℕ} {seen : Fin N → Prop}

/-- An entry saved by a node waits for nodes only. -/
theorem confBits_awaited (hmax : N ≤ maxNodes) (k : ℕ) (h : (confBits N).getLsbD k = true) :
    ∃ x : Fin N, x.val = k ∧ True := by
  have hall : ∀ n < 6, ∀ k < 32, (confBits n).getLsbD k = true → ∃ x : Fin n, x.val = k ∧ True := by
    decide
  refine hall N (Nat.lt_succ_of_le hmax) k ?_ h
  by_contra hk
  rw [BitVec.getLsbD_of_ge _ _ (Nat.le_of_not_lt hk)] at h
  cases h

theorem confBits_ne_zero (hmax : N ≤ maxNodes) (hN : 2 ≤ N) : confBits N ≠ 0#32 := by
  have hall : ∀ n < 6, 2 ≤ n → confBits n ≠ 0#32 := by decide
  exact hall N (Nat.lt_succ_of_le hmax) hN

theorem handleMsg_caughtUp (hN : 2 ≤ N) (hmax : N ≤ maxNodes) (i : Fin N)
    (h : CaughtUp (fun _ => True) p seen n) (hcount : n.Counted) {m : Bcast N}
    {known : Prop} (hack : known → p ≤ m.ack) :
    CaughtUp (fun _ => True) p (fun x => seen x ∨ x = m.idProcess ∧ known) (handleMsg i m n).1 := by
  have hbits := confBits_awaited hmax
  have hne := confBits_ne_zero hmax hN
  by_cases hi : i.val = 0
  · rw [handleMsg_leader hi, leaderSaved]
    split
    · have hupdated := h.updateVectorBy (· < ·) m known
        fun hknown q hq => hq.trans_le (hack hknown)
      have hsaved := hupdated.saveMsgInVectorAck (updateVectorBy_counted _ m hcount) hbits hne m
      exact hsaved.congr rfl rfl rfl
    · have hsaved := h.saveMsgInVectorAck hcount hbits hne m
      have hupdated := hsaved.updateVectorBy (· ≤ ·) m known
        fun hknown q hq => (Nat.le_of_lt hq).trans (hack hknown)
      exact hupdated.congr rfl rfl rfl
  · rw [handleMsg_follower hi]
    have hsaved : CaughtUp (fun _ => True) p seen (saveMsgInVectorNoAck m n) := h.congr rfl rfl rfl
    exact hsaved.updateVectorBy _ m known fun hknown q hq => (Nat.le_of_lt hq).trans (hack hknown)

theorem handleAck_caughtUp (hN : 2 ≤ N) (hmax : N ≤ maxNodes) (i : Fin N)
    (h : CaughtUp (fun _ => True) p seen n) (hcount : n.Counted) (k : Ack N) :
    CaughtUp (fun _ => True) p seen (handleAck i k n).1 := by
  by_cases hi : i.val = 0
  · rwa [handleAck_leader hi]
  · rw [handleAck_follower hi]
    have hmoved := h.moveMsgInVectorAck hcount (confBits_awaited hmax)
      (confBits_ne_zero hmax hN) k
    exact hmoved.congr rfl rfl rfl

end Handlers

/-! ## Since a moment when everything was ordered -/

/-- The broadcasts behind the first `sent x` ones of each `x` were made when the first `p` entries
were ordered, and the nodes that have treated one of `x` no longer wait for `x`. -/
structure Since (p : ℕ) (sent : Fin N → ℕ) (s : Network N) : Prop where
  acks : ∀ x m, Msg.b m ∈ s.contents x → sent m.idProcess < m.seq → p ≤ m.ack
  caught : ∀ j, CaughtUp (fun _ => True) p (fun x => sent x < ((s.nodes j).heard x).length)
    (s.nodes j)

section Since

variable {p : ℕ} {sent : Fin N → ℕ}

theorem since_initial : Since 0 sent (Network.initial : Network N) where
  acks _ _ _ _ := Nat.zero_le _
  caught _ := caughtUp_initial

/-- What one step has to guarantee. -/
theorem Since.after (hs : Since p sent s) {i : Fin N} {q : Fin N → ℕ} {r : Node N × List (Msg N)}
    (hout : ∀ m, Msg.b m ∈ r.2 → p ≤ m.ack)
    (hnode : CaughtUp (fun _ => True) p (fun x => sent x < (r.1.heard x).length) r.1) :
    Since p sent (s.after i q r) where
  acks x m hm hsent := by
    by_cases hx : x = i
    · rw [hx, after_contents_self, List.mem_append] at hm
      rcases hm with hm | hm
      · exact hs.acks i m hm hsent
      · exact hout m hm
    · rw [after_contents_of_ne _ _ _ _ _ hx] at hm
      exact hs.acks x m hm hsent
  caught j := by
    by_cases hj : j = i
    · rw [hj, after_nodes_self]
      exact hnode
    · rw [after_nodes_of_ne _ _ _ _ _ hj]
      exact hs.caught j

variable (hmax : N ≤ maxNodes) (hinv : Inv hN s) (hs : Since p sent s)

include hinv hs in
theorem since_send (i : Fin N) :
    Since p sent (s.after i (s.processed i) (sendMsg i (s.nodes i))) := by
  refine hs.after ?_ ((hs.caught i).congr rfl rfl rfl)
  intro m hm
  obtain rfl := Msg.b.inj (List.mem_singleton.mp hm)
  exact (hs.caught i).ordered.trans (hinv.order_length i).le

include hmax hinv hs

theorem since_recv {i x : Fin N} {d : Datagram N} (hd : (s.sent x)[s.processed i x]? = some d)
    (hafter : Inv hN (s.after i (tick (s.processed i) x) (handle i d.content (s.nodes i)))) :
    Since p sent (s.after i (tick (s.processed i) x) (handle i d.content (s.nodes i))) := by
  have hheard : ∀ y, (handle i d.content (s.nodes i)).1.heard y =
      bcasts (s.firsts y (tick (s.processed i) x y)) := by
    intro y
    have h := hafter.heard i y
    rwa [after_nodes_self, after_processed_self, after_firsts _ _ _ _ _ (tick_le hinv hd y)] at h
  refine hs.after (fun m hm => absurd hm (handle_bcasts i d.content _ m)) ?_
  cases hc : d.content with
  | b m =>
    obtain ⟨hx, hnext, hseq⟩ := hinv.bcast_next hd hc
    have hcontents : Msg.b m ∈ s.contents x := hc ▸ mem_contents hd
    have hnew : ∀ y, (handle i (.b m) (s.nodes i)).1.heard y =
        (s.nodes i).heard y ++ stream source (some y) [some m] := by
      intro y
      rw [← hnext, ← hheard, hc]
    have hnode := handleMsg_caughtUp hN hmax i (hs.caught i) (hinv.delivered i)
      (hs.acks x m hcontents)
    refine hnode.mono fun y _ hseen => ?_
    rw [hnew y] at hseen
    by_cases hy : y = m.idProcess
    · -- it is as many as the number of the broadcast
      have hself : stream source (some y) [some m] = [some m] := by simp [stream, hy]
      rw [hself, List.length_append, hy, hx, List.length_singleton, ← hseq] at hseen
      exact .inr ⟨hy, hx ▸ hseen⟩
    · have hne : source (some m) ≠ some y := by simpa using Ne.symm hy
      rw [stream_cons_of_ne source hne, stream_nil, List.append_nil] at hseen
      exact .inl hseen
  | a k =>
    have hnode := handleAck_caughtUp hN hmax i (hs.caught i) (hinv.delivered i) k
    have hsame : ∀ y, (handle i (.a k) (s.nodes i)).1.heard y = (s.nodes i).heard y := by
      intro y
      have hnone : bcasts (if y = x then [d.content] else []) = [] := by
        rw [hc]
        split <;> rfl
      have hy := hheard y
      rw [firsts_tick hd, bcasts_append, hnone, List.append_nil, ← hinv.heard, hc] at hy
      exact hy
    refine hnode.mono fun y _ hseen => ?_
    rwa [hsame] at hseen

theorem since_step {e : Event N} (h : step s e = some s') : Since p sent s' := by
  have hafter := inv_step hinv h
  cases e with
  | send i =>
    obtain rfl : _ = s' := Option.some.inj h
    exact since_send hinv hs i
  | recv i x =>
    obtain ⟨d, hd, -, rfl⟩ := step_recv h
    exact since_recv hmax hinv hs hd hafter

omit hmax hinv hs

theorem Inv.seq_le (hinv : Inv hN s) {x : Fin N} {m : Bcast N} (hm : Msg.b m ∈ s.contents x) :
    m.seq ≤ (s.nodes m.idProcess).seqNum := by
  have hmem : some m ∈ bcasts (s.contents x) := mem_bcasts.mpr hm
  have hx : m.idProcess = x := Option.some.inj (hinv.own x _ hmem)
  rw [hx, ← hinv.seqNum]
  exact number_le_of_mem (hinv.numbered x) hmem

/-- When all the nodes have ordered `p` entries, those that broadcast from then on cover them. -/
theorem Since.restart (hs : Since 0 sent s) (hinv : Inv hN s)
    (hp : ∀ j, p ≤ (s.nodes j).order.length) : Since p (fun x => (s.nodes x).seqNum) s where
  acks x m hm hsent := absurd (hinv.seq_le hm) (Nat.not_le_of_lt hsent)
  caught j := {
    waits := (hs.caught j).waits
    ordered := hp j
    cleared := by
      intro x _ hseen
      have hle := (hinv.heard_le j x).length_le
      rw [hinv.seqNum x] at hle
      exact absurd hle (Nat.not_le_of_lt hseen) }

end Since

/-! ## Runs -/

/-- The order of a node only grows. -/
theorem handle_order_le (i : Fin N) (m : Msg N) (n : Node N) :
    n.order <+: (handle i m n).1.order := by
  cases m with
  | b m =>
    by_cases hi : i.val = 0
    · rw [handle, handleMsg_leader hi]
      change _ <+: (leaderSaved i m n).order
      rw [(leaderSaved_spec i m n).1]
      exact List.prefix_append _ _
    · rw [handle, handleMsg_follower hi, updateVector, updateVectorBy_order,
        saveMsgInVectorNoAck_order]
  | a k =>
    by_cases hi : i.val = 0
    · rw [handle, handleAck_leader hi]
    · rw [handle, handleAck_follower hi]
      change _ <+: (moveMsgInVectorAck (confBits N) k n).order
      rw [moveMsgInVectorAck_order]
      exact List.prefix_append _ _

theorem handle_seqNum (i : Fin N) (m : Msg N) (n : Node N) :
    (handle i m n).1.seqNum = n.seqNum := by
  cases m with
  | b m =>
    by_cases hi : i.val = 0
    · rw [handle, handleMsg_leader hi]
      exact (leaderSaved_spec i m n).2.1
    · rw [handle, handleMsg_follower hi, updateVector, updateVectorBy_seqNum]
      rfl
  | a k =>
    by_cases hi : i.val = 0
    · rw [handle, handleAck_leader hi]
    · rw [handle, handleAck_follower hi]
      rfl

/-- The node that broadcasts. -/
def Event.sender : Event N → Option (Fin N)
  | .send i => some i
  | .recv _ _ => none

theorem step_nodes (e : Event N) (h : step s e = some s') :
    NodeStep e.sender s.nodes s'.nodes := by
  cases e with
  | send i =>
    obtain rfl : _ = s' := Option.some.inj h
    exact ⟨i, _, rfl, List.prefix_refl _, fun x hx => Option.some.inj hx,
      by simp [Event.sender, sendMsg]⟩
  | recv i x =>
    obtain ⟨d, -, -, rfl⟩ := step_recv h
    exact ⟨i, _, rfl, handle_order_le i d.content _, by simp [Event.sender],
      by simp [Event.sender, handle_seqNum]⟩

theorem since_exec (hN : 2 ≤ N) (hmax : N ≤ maxNodes) {p : ℕ} {sent : Fin N → ℕ}
    {es : List (Event N)} (hinv : Inv hN s) (hs : Since p sent s) (h : exec step s es = some s') :
    Inv hN s' ∧ Since p sent s' := by
  have hkeep : ∀ t e t', Inv hN t ∧ Since p sent t → step t e = some t' →
      Inv hN t' ∧ Since p sent t' := by
    intro t e t' ht hstep
    exact ⟨inv_step ht.1 hstep, since_step hmax ht.1 ht.2 hstep⟩
  exact exec_invariant hkeep ⟨hinv, hs⟩ h

/-- From a state reached in which every node has ordered `p` entries, a node delivers these entries,
the same at all the nodes, as soon as it has treated a newer broadcast of each node. -/
theorem exec_delivered (hN : 2 ≤ N) (hmax : N ≤ maxNodes) {es es' : List (Event N)}
    (h : exec step Network.initial es = some s) (h' : exec step s es' = some s') {p : ℕ}
    (hp : ∀ i, p ≤ (s.nodes i).order.length) {j : Fin N}
    (hheard : ∀ x, (s.nodes x).seqNum < ((s'.nodes j).heard x).length) (i : Fin N) :
    (s.nodes i).order.take p <+: (s'.nodes j).deliveryQueue := by
  have hinitial : Since 0 (fun _ => 0) (Network.initial : Network N) := since_initial
  obtain ⟨hinv, hs⟩ := since_exec hN hmax (inv_initial hN) hinitial h
  obtain ⟨hinv', hs'⟩ := since_exec hN hmax hinv (hs.restart hinv hp) h'
  have hdelivered : p ≤ (s'.nodes j).highestDelivered :=
    (hs'.caught j).delivered (hinv'.delivered j) fun x _ => hheard x
  exact take_delivered (hinv'.delivered j) (hp i)
    ((hinv.order_le i).trans (exec_order_le step_nodes h' (leader hN))) (hinv'.order_le j)
    hdelivered

/-- **Progress.** Between two moments at which every datagram has been treated, with at least one
broadcast of every node in between, every node delivers all that had been broadcast before. -/
theorem multicast_progress (hN : 2 ≤ N) (hmax : N ≤ maxNodes) {es es' : List (Event N)}
    {s s' : Network N} (h : exec step Network.initial es = some s) (hrest : s.AtRest)
    (h' : exec step s es' = some s') (hrest' : s'.AtRest) (hall : ∀ x, Event.send x ∈ es')
    (j : Fin N) : (s.nodes j).order <+: (s'.nodes j).deliveryQueue ∧
      ∀ x, List.range' 1 (s.nodes x).seqNum <+: seqsOf x (s'.nodes j).deliveryQueue := by
  have hinv := inv_exec hN h
  have hinv' : Inv hN s' := exec_invariant (fun _ _ _ hs hstep => inv_step hs hstep) hinv h'
  have hheard : ∀ x, (s.nodes x).seqNum < ((s'.nodes j).heard x).length := by
    intro x
    have hmore := exec_seqNum_lt step_nodes h' (hall x) rfl
    rwa [hinv'.rest_heard hrest', hinv'.seqNum]
  have hdelivered := exec_delivered hN hmax h h'
    (fun i => (congrArg List.length (hinv.rest_order hrest i)).ge) hheard j
  rw [← hinv.rest_order hrest j, List.take_length] at hdelivered
  refine ⟨hdelivered, ?_⟩
  intro x
  rw [← hinv.rest_seqs hrest j x]
  exact (stream_mono source hdelivered (some x)).map number

theorem multicast_progress_rounds :
    (((exec step Network.initial (rounds (0 : Fin 2) 1)).get (by decide)).nodes 0).order <+:
      (((exec step ((exec step Network.initial (rounds (0 : Fin 2) 1)).get (by decide))
        (rounds 0 1)).get (by decide)).nodes 0).deliveryQueue :=
  (multicast_progress (Nat.le_refl 2) (by decide) (Option.some_get _).symm (by decide)
    (Option.some_get _).symm (by decide) (by decide) 0).1

end UniformBroadcast.UdpMulticast
