import UniformBroadcast.UdpMulticastInvariant

/-!
# Every event of the UDP multicast keeps the invariant

A broadcast that a node processes is the next one it hears of its sender; an
acknowledgement names the next entry of the order, and causal delivery has brought the
broadcast it names before.
-/

namespace UniformBroadcast.UdpMulticast

open Sequencer SequencedStreams

variable {N : ℕ} {hN : 2 ≤ N} {s : Network N}

theorem mem_bcasts {l : List (Msg N)} {m : Bcast N} : some m ∈ bcasts l ↔ Msg.b m ∈ l := by
  induction l with
  | nil => simp [bcasts]
  | cons m' l ih => cases m' <;> simp [bcasts, ih]

theorem mem_acks {l : List (Msg N)} {k : Ack N} : k ∈ acks l ↔ Msg.a k ∈ l := by
  induction l with
  | nil => simp [acks]
  | cons m l ih => cases m <;> simp [acks, ih]

theorem mem_contents {i x : Fin N} {d : Datagram N} (hd : (s.sent x)[s.processed i x]? = some d) :
    d.content ∈ s.contents x :=
  List.mem_map_of_mem (List.mem_of_getElem? hd)

/-- What a node has heard of a sender is a prefix of what that sender broadcast. -/
theorem Inv.heard_le (hs : Inv hN s) (j x : Fin N) :
    (s.nodes j).heard x <+: bcasts (s.contents x) := by
  obtain ⟨t, ht⟩ := firsts_le_contents s x (s.processed j x)
  rw [hs.heard, ← ht, bcasts_append]
  exact List.prefix_append _ _

theorem tick_le {i x : Fin N} {d : Datagram N} (hs : Inv hN s)
    (hd : (s.sent x)[s.processed i x]? = some d) (y : Fin N) :
    tick (s.processed i) x y ≤ (s.sent y).length := by
  rcases eq_or_ne y x with rfl | hy
  · rw [tick_self]
    exact (List.getElem?_eq_some_iff.mp hd).1
  · rw [tick_of_ne _ hy]
    exact hs.processed_le i y

/-- The messages of `y` processed after one more datagram of `x`. -/
theorem firsts_tick {i x : Fin N} {d : Datagram N} (hd : (s.sent x)[s.processed i x]? = some d)
    (y : Fin N) : s.firsts y (tick (s.processed i) x y) =
      s.firsts y (s.processed i y) ++ if y = x then [d.content] else [] := by
  rcases eq_or_ne y x with rfl | hy
  · rw [tick_self, firsts_succ hd, if_pos rfl]
  · rw [tick_of_ne _ hy, if_neg hy, List.append_nil]

/-- A broadcast is the next one of its sender that the node hears. -/
theorem Inv.bcast_next (hs : Inv hN s) {i x : Fin N} {d : Datagram N} {m : Bcast N}
    (hd : (s.sent x)[s.processed i x]? = some d) (hm : d.content = .b m) :
    m.idProcess = x ∧ (∀ y, bcasts (s.firsts y (tick (s.processed i) x y)) =
      (s.nodes i).heard y ++ stream source (some y) [some m]) ∧
      m.seq = ((s.nodes i).heard x).length + 1 := by
  have hx : m.idProcess = x := by
    have hmem : some m ∈ bcasts (s.contents x) := mem_bcasts.mpr (hm ▸ mem_contents hd)
    exact Option.some.inj (hs.own x _ hmem)
  have hheard : ∀ y, bcasts (s.firsts y (tick (s.processed i) x y)) =
      (s.nodes i).heard y ++ stream source (some y) [some m] := by
    intro y
    rw [firsts_tick hd, bcasts_append, hs.heard]
    rcases eq_or_ne y x with hy | hy
    · rw [if_pos hy, hm, hy, ← hx]
      simp [bcasts, stream]
    · rw [if_neg hy, stream_cons_of_ne source (by rw [source_some, hx]; simpa using hy.symm)]
      rfl
  refine ⟨hx, hheard, ?_⟩
  obtain ⟨t, ht⟩ := firsts_le_contents s x (tick (s.processed i) x x)
  have hnum := hs.numbered x
  rw [← ht, bcasts_append, hheard, ← hx] at hnum
  have hself : stream source (some m.idProcess) [some m] = [some m] := by simp [stream]
  rw [hself, List.append_assoc, ← List.append_assoc] at hnum
  have hfirst := hnum.of_initial (List.prefix_append _ _)
  rw [← hx]
  exact (numbered_concat.mp hfirst).2

/-- An acknowledgement comes from the leader and, at a follower, names the message at the
head of the queue of its sender, which is the next entry of the leader's order. -/
theorem Inv.ack_head (hs : Inv hN s) {i x : Fin N} {d : Datagram N} {k : Ack N}
    (hd : (s.sent x)[s.processed i x]? = some d) (hk : d.content = .a k)
    (hpast : ∀ y, d.past y ≤ s.processed i y) (hi : i ≠ leader hN) :
    x = leader hN ∧ ∃ m held, (s.nodes i).vectorNoAck k.idProcess = m :: held ∧
      (s.nodes i).order ++ [some m] <+: (s.nodes (leader hN)).order ∧
      m.idProcess = k.idProcess ∧ k.revNum = (s.nodes i).ackNum + 1 := by
  have hx : x = leader hN := by
    by_contra hne
    have hmem := mem_acks.mpr (hk ▸ mem_contents hd)
    rw [hs.follower_acks x hne] at hmem
    cases hmem
  subst hx
  refine ⟨rfl, ?_⟩
  -- the acknowledgement is the one after those already processed
  have hnext : (acks (s.contents (leader hN)))[(s.nodes i).order.length]? = some k := by
    obtain ⟨t, ht⟩ := firsts_le_contents s (leader hN) (s.processed i (leader hN) + 1)
    rw [firsts_succ hd, hk] at ht
    rw [← ht, hs.acked i hi, acks_append, acks_append]
    simp [acks]
  obtain ⟨m, hm, hid, hseq, hrev⟩ := hs.named _ k hnext
  have horder := prefix_concat (hs.order_le i) hm
  have hleader : stream source (some m.idProcess) (s.nodes (leader hN)).order <+:
      bcasts (s.contents m.idProcess) := by
    have h := hs.heard_le (leader hN) m.idProcess
    rwa [Node.heard, hs.leader_noAck, List.map_nil, List.append_nil] at h
  -- the leader had processed the broadcast before it sent the acknowledgement
  have hknown : m.seq ≤ ((s.nodes i).heard m.idProcess).length := by
    rw [hseq, hid, hs.heard]
    refine (hs.causal d (List.mem_of_getElem? hd) k hk).trans ?_
    exact bcasts_length_mono (firsts_mono s _ (hpast _))
  obtain ⟨held, hheld⟩ := held_next horder hleader (hs.numbered m.idProcess)
    (hs.heard_le i m.idProcess) hknown
  exact ⟨m, held, hid ▸ hheld, horder, hid, by rw [hrev, hs.order_length]⟩

/-! ## The steps -/

theorem inv_send (hs : Inv hN s) (i : Fin N) :
    Inv hN (s.after i (s.processed i) (sendMsg i (s.nodes i))) := by
  have heffect : Effect hN s i (s.processed i) (sendMsg i (s.nodes i)).1 (sendMsg i (s.nodes i)).2
      (s.nodes (leader hN)).order := {
    own := by simp [sendMsg, bcasts]
    numbered := by
      refine numbered_concat.mpr ⟨hs.numbered i, ?_⟩
      rw [hs.seqNum]
      rfl
    seqNum := by
      rw [List.length_append, hs.seqNum]
      rfl
    processed_le := hs.processed_le i
    heard := hs.heard i
    grows := List.prefix_refl _
    leader_order := fun h => h ▸ rfl
    follower_order := fun _ => rfl
    order_le := hs.order_le i
    order_length := hs.order_length i
    order_some := hs.order_some
    leader_noAck := fun h => h ▸ hs.leader_noAck
    acked := hs.acked i
    follower_acks := fun _ => rfl
    acks_length := fun _ => rfl
    named := fun _ q k h => by simp [sendMsg, acks] at h
    causal := fun _ k h => by simp [sendMsg] at h
    delivered := hs.delivered i }
  exact heffect.inv_after hs

theorem inv_bcast_leader (hs : Inv hN s) {x : Fin N} {d : Datagram N} {m : Bcast N}
    (hd : (s.sent x)[s.processed (leader hN) x]? = some d) (hm : d.content = .b m) :
    Inv hN (s.after (leader hN) (tick (s.processed (leader hN)) x)
      (handleMsg (leader hN) m (s.nodes (leader hN)))) := by
  obtain ⟨hx, hheard, hseq⟩ := hs.bcast_next hd hm
  obtain ⟨horder, hseqNum, hack, hnoAck⟩ := leaderSaved_spec (leader hN) m (s.nodes (leader hN))
  rw [handleMsg_leader (val_leader hN), hack]
  set n := leaderSaved (leader hN) m (s.nodes (leader hN))
  have heffect : Effect hN s (leader hN) (tick (s.processed (leader hN)) x)
      { n with ackNum := (s.nodes (leader hN)).ackNum + 1 }
      [.a ⟨m.idProcess, m.seq, (s.nodes (leader hN)).ackNum + 1⟩]
      ((s.nodes (leader hN)).order ++ [some m]) := {
    own := by simp [bcasts]
    numbered := by
      rw [bcasts, bcasts, List.append_nil]
      exact hs.numbered _
    seqNum := by
      rw [bcasts, bcasts, List.append_nil, hs.seqNum]
      exact hseqNum.symm
    processed_le := tick_le hs hd
    heard := fun y => by
      have hy : n.heard y = (s.nodes (leader hN)).heard y ++ stream source (some y) [some m] := by
        simp [Node.heard, horder, hnoAck, hs.leader_noAck]
      exact hy.trans (hheard y).symm
    grows := List.prefix_append _ _
    leader_order := fun _ => horder
    follower_order := fun h => absurd rfl h
    order_le := horder ▸ List.prefix_refl _
    order_length := by
      change n.order.length = _
      rw [horder, List.length_append, hs.order_length]
      rfl
    order_some := by
      intro o ho
      rcases List.mem_append.mp ho with ho | ho
      · exact hs.order_some o ho
      · rw [List.mem_singleton.mp ho]
        rfl
    leader_noAck := fun _ y => (congrFun hnoAck y).trans (hs.leader_noAck y)
    acked := fun h => absurd rfl h
    follower_acks := fun h => absurd rfl h
    acks_length := fun _ => List.length_append
    named := by
      intro _ q k hk
      cases q with
      | succ q => simp [acks] at hk
      | zero =>
        obtain rfl : _ = k := Option.some.inj hk
        exact ⟨m, by simp, rfl, rfl, by rw [hs.order_length]⟩
    causal := by
      intro _ k hk
      obtain rfl := Msg.a.inj (List.mem_singleton.mp hk)
      change m.seq ≤ (bcasts (s.firsts m.idProcess _)).length
      rw [hheard, List.length_append, hseq, ← hx]
      simp [stream]
    delivered := leaderSaved_counted _ m (hs.delivered _) }
  exact heffect.inv_after hs

/-- A follower multicasts nothing, and its order stays within the leader's. -/
theorem inv_follower (hs : Inv hN s) {i x : Fin N} {d : Datagram N} {n : Node N}
    (hd : (s.sent x)[s.processed i x]? = some d) (hi : i ≠ leader hN)
    (hheard : ∀ y, n.heard y = bcasts (s.firsts y (tick (s.processed i) x y)))
    (hseqNum : n.seqNum = (s.nodes i).seqNum) (horder : n.order <+: (s.nodes (leader hN)).order)
    (hlength : n.order.length = n.ackNum)
    (hacked : n.order.length =
      (acks (s.firsts (leader hN) (tick (s.processed i) x (leader hN)))).length)
    (hcount : n.Counted) : Inv hN (s.after i (tick (s.processed i) x) (n, [])) := by
  have heffect : Effect hN s i (tick (s.processed i) x) n [] (s.nodes (leader hN)).order := {
    own := by simp [bcasts]
    numbered := by
      rw [bcasts, List.append_nil]
      exact hs.numbered i
    seqNum := by
      rw [bcasts, List.append_nil, hs.seqNum, hseqNum]
    processed_le := tick_le hs hd
    heard := hheard
    grows := List.prefix_refl _
    leader_order := fun h => absurd h hi
    follower_order := fun _ => rfl
    order_le := horder
    order_length := hlength
    order_some := hs.order_some
    leader_noAck := fun h => absurd h hi
    acked := fun _ => hacked
    follower_acks := fun _ => rfl
    acks_length := fun h => absurd h hi
    named := fun h => absurd h hi
    causal := fun h => absurd h hi
    delivered := hcount }
  exact heffect.inv_after hs

theorem inv_bcast_follower (hs : Inv hN s) {i x : Fin N} {d : Datagram N} {m : Bcast N}
    (hd : (s.sent x)[s.processed i x]? = some d) (hm : d.content = .b m) (hi : i ≠ leader hN) :
    Inv hN (s.after i (tick (s.processed i) x) (handleMsg i m (s.nodes i))) := by
  obtain ⟨-, hheard, -⟩ := hs.bcast_next hd hm
  rw [handleMsg_follower ((eq_leader_iff hN i).not.mp hi), updateVector]
  have horder : (updateVectorBy (· ≤ ·) m (saveMsgInVectorNoAck m (s.nodes i))).order =
      (s.nodes i).order := by
    rw [updateVectorBy_order, saveMsgInVectorNoAck_order]
  refine inv_follower hs hd hi (fun y => ?_) ?_ ?_ ?_ ?_ ?_
  · rw [updateVectorBy_heard, saveMsgInVectorNoAck_heard, hheard]
  · exact updateVectorBy_seqNum _ m _
  · rw [horder]
    exact hs.order_le i
  · rw [horder, updateVectorBy_ackNum]
    exact hs.order_length i
  · rw [horder, hs.acked i hi, firsts_tick hd, acks_append, List.length_append]
    split <;> simp [acks, hm]
  · exact updateVectorBy_counted _ m (n := saveMsgInVectorNoAck m (s.nodes i)) (hs.delivered i)

theorem inv_ack_follower (hs : Inv hN s) {i x : Fin N} {d : Datagram N} {k : Ack N}
    (hd : (s.sent x)[s.processed i x]? = some d) (hk : d.content = .a k)
    (hpast : ∀ y, d.past y ≤ s.processed i y) (hi : i ≠ leader hN) :
    Inv hN (s.after i (tick (s.processed i) x) (handleAck i k (s.nodes i))) := by
  obtain ⟨hx, m, held, hheld, hnext, hid, hrev⟩ := hs.ack_head hd hk hpast hi
  rw [handleAck_follower ((eq_leader_iff hN i).not.mp hi)]
  have horder : (moveMsgInVectorAck (confBits N) k (s.nodes i)).order =
      (s.nodes i).order ++ [some m] := by
    rw [moveMsgInVectorAck_order, hheld]
    rfl
  refine inv_follower hs hd hi (fun y => ?_) rfl ?_ ?_ ?_ (hs.delivered i)
  · refine (moveMsgInVectorAck_heard (confBits N) hheld hid y).trans ?_
    rw [hs.heard, firsts_tick hd, bcasts_append]
    split <;> simp [bcasts, hk]
  · change (moveMsgInVectorAck (confBits N) k (s.nodes i)).order <+: _
    rw [horder]
    exact hnext
  · change (moveMsgInVectorAck (confBits N) k (s.nodes i)).order.length = k.revNum
    rw [horder, List.length_append, hs.order_length, hrev]
    rfl
  · change (moveMsgInVectorAck (confBits N) k (s.nodes i)).order.length = _
    rw [horder, firsts_tick hd, if_pos hx.symm, acks_append, List.length_append, hs.acked i hi, hk,
      List.length_append]
    rfl

/-- The leader ignores its own acknowledgements. -/
theorem inv_ack_leader (hs : Inv hN s) {x : Fin N} {d : Datagram N} {k : Ack N}
    (hd : (s.sent x)[s.processed (leader hN) x]? = some d) (hk : d.content = .a k) :
    Inv hN (s.after (leader hN) (tick (s.processed (leader hN)) x)
      (handleAck (leader hN) k (s.nodes (leader hN)))) := by
  rw [handleAck_leader (val_leader hN)]
  have heffect : Effect hN s (leader hN) (tick (s.processed (leader hN)) x) (s.nodes (leader hN)) []
      (s.nodes (leader hN)).order := {
    own := by simp [bcasts]
    numbered := by
      rw [bcasts, List.append_nil]
      exact hs.numbered _
    seqNum := by
      rw [bcasts, List.append_nil, hs.seqNum]
    processed_le := tick_le hs hd
    heard := fun y => by
      rw [hs.heard, firsts_tick hd, bcasts_append]
      split <;> simp [bcasts, hk]
    grows := List.prefix_refl _
    leader_order := fun _ => rfl
    follower_order := fun _ => rfl
    order_le := List.prefix_refl _
    order_length := hs.order_length _
    order_some := hs.order_some
    leader_noAck := fun _ => hs.leader_noAck
    acked := fun h => absurd rfl h
    follower_acks := fun h => absurd rfl h
    acks_length := fun _ => rfl
    named := fun _ q k h => by simp [acks] at h
    causal := fun _ k h => by cases h
    delivered := hs.delivered _ }
  exact heffect.inv_after hs

theorem inv_step {s' : Network N} (hs : Inv hN s) {e : Event N} (h : step s e = some s') :
    Inv hN s' := by
  cases e with
  | send i =>
    obtain rfl : _ = s' := Option.some.inj h
    exact inv_send hs i
  | recv i x =>
    obtain ⟨d, hd, hpast, rfl⟩ := step_recv h
    cases hc : d.content with
    | b m =>
      rcases eq_or_ne i (leader hN) with rfl | hi
      · exact inv_bcast_leader hs hd hc
      · exact inv_bcast_follower hs hd hc hi
    | a k =>
      rcases eq_or_ne i (leader hN) with rfl | hi
      · exact inv_ack_leader hs hd hc
      · exact inv_ack_follower hs hd hc hpast hi

end UniformBroadcast.UdpMulticast
