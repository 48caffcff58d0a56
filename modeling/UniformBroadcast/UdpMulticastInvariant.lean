import UniformBroadcast.UdpMulticastNetwork

/-!
# The global invariant of the UDP multicast

Every node has heard the broadcasts among the datagrams it has processed. The leader has
sent one acknowledgement for each entry of its order, each after it had processed the
broadcast it names, and a follower has ordered as many entries as it has processed
acknowledgements.
-/

namespace UniformBroadcast.UdpMulticast

open Sequencer SequencedStreams

variable {N : ℕ}

structure Inv (hN : 2 ≤ N) (s : Network N) : Prop where
  own : ∀ x, ∀ o ∈ bcasts (s.contents x), source o = some x
  numbered : ∀ x, Numbered number (bcasts (s.contents x))
  seqNum : ∀ x, (bcasts (s.contents x)).length = (s.nodes x).seqNum
  processed_le : ∀ j x, s.processed j x ≤ (s.sent x).length
  heard : ∀ j x, (s.nodes j).heard x = bcasts (s.firsts x (s.processed j x))
  leader_noAck : ∀ x, (s.nodes (leader hN)).vectorNoAck x = []
  order_le : ∀ j, (s.nodes j).order <+: (s.nodes (leader hN)).order
  order_length : ∀ j, (s.nodes j).order.length = (s.nodes j).ackNum
  order_some : ∀ o ∈ (s.nodes (leader hN)).order, o.isSome
  acked : ∀ j, j ≠ leader hN → (s.nodes j).order.length =
    (acks (s.firsts (leader hN) (s.processed j (leader hN)))).length
  follower_acks : ∀ x, x ≠ leader hN → acks (s.contents x) = []
  acks_length : (acks (s.contents (leader hN))).length = (s.nodes (leader hN)).order.length
  named : ∀ p k, (acks (s.contents (leader hN)))[p]? = some k →
    Names (s.nodes (leader hN)).order p k
  causal : ∀ d ∈ s.sent (leader hN), ∀ k, d.content = .a k →
    k.seq ≤ (bcasts (s.firsts k.idProcess (d.past k.idProcess))).length
  delivered : ∀ j, (s.nodes j).Counted

theorem inv_initial (hN : 2 ≤ N) : Inv hN (Network.initial : Network N) where
  own _ _ h := by cases h
  numbered _ := numbered_nil
  seqNum _ := rfl
  processed_le _ _ := Nat.le_refl _
  heard _ _ := rfl
  leader_noAck _ := rfl
  order_le _ := List.nil_prefix
  order_length _ := rfl
  order_some _ h := by cases h
  acked _ _ := rfl
  follower_acks _ _ := rfl
  acks_length := rfl
  named p k h := by simp [Network.contents, Network.initial, acks] at h
  causal d h := by cases h
  delivered _ := rfl

/-! ## One step -/

/-- What node `i` does in one step: it becomes `n`, has now processed `p` and multicasts
`out`. `order` is the leader's order after the step. -/
structure Effect (hN : 2 ≤ N) (s : Network N) (i : Fin N) (p : Fin N → ℕ) (n : Node N)
    (out : List (Msg N)) (order : List (Option (Bcast N))) : Prop where
  own : ∀ o ∈ bcasts out, source o = some i
  numbered : Numbered number (bcasts (s.contents i) ++ bcasts out)
  seqNum : (bcasts (s.contents i) ++ bcasts out).length = n.seqNum
  processed_le : ∀ x, p x ≤ (s.sent x).length
  heard : ∀ x, n.heard x = bcasts (s.firsts x (p x))
  grows : (s.nodes (leader hN)).order <+: order
  leader_order : i = leader hN → n.order = order
  follower_order : i ≠ leader hN → order = (s.nodes (leader hN)).order
  order_le : n.order <+: order
  order_length : n.order.length = n.ackNum
  order_some : ∀ o ∈ order, o.isSome
  leader_noAck : i = leader hN → ∀ x, n.vectorNoAck x = []
  acked : i ≠ leader hN → n.order.length =
    (acks (s.firsts (leader hN) (p (leader hN)))).length
  follower_acks : i ≠ leader hN → acks out = []
  acks_length : i = leader hN →
    order.length = (s.nodes (leader hN)).order.length + (acks out).length
  named : i = leader hN → ∀ q k, (acks out)[q]? = some k →
    Names order ((s.nodes (leader hN)).order.length + q) k
  causal : i = leader hN → ∀ k, Msg.a k ∈ out →
    k.seq ≤ (bcasts (s.firsts k.idProcess (p k.idProcess))).length
  delivered : n.Counted

section Preservation

variable {hN : 2 ≤ N} {s : Network N} {i : Fin N} {p : Fin N → ℕ} {out : List (Msg N)}
  {n : Node N} {order : List (Option (Bcast N))}

theorem Effect.leader_order_after (h : Effect hN s i p n out order) :
    ((s.after i p (n, out)).nodes (leader hN)).order = order := by
  rcases eq_or_ne (leader hN) i with hi | hi
  · rw [← h.leader_order hi.symm, ← hi, after_nodes_self]
  · rw [after_nodes_of_ne _ _ _ _ _ hi, h.follower_order (Ne.symm hi)]

/-- A longer beginning of what a node sent contains more broadcasts. -/
theorem bcasts_length_mono {l k : List (Msg N)} (h : l <+: k) :
    (bcasts l).length ≤ (bcasts k).length := by
  obtain ⟨t, rfl⟩ := h
  simp

theorem firsts_le_after (s : Network N) (i x : Fin N) (p : Fin N → ℕ) (r : Node N × List (Msg N))
    (c : ℕ) : s.firsts x c <+: (s.after i p r).firsts x c := by
  rcases Nat.le_total c (s.sent x).length with hc | hc
  · rw [after_firsts _ _ _ _ _ hc]
  · rw [Network.firsts, List.take_of_length_le hc, ← List.take_length (l := s.sent x)]
    change s.firsts x _ <+: _
    rw [← after_firsts s i x p r (Nat.le_refl _)]
    exact firsts_mono _ _ hc

theorem Effect.acks_after (hs : Inv hN s) (h : Effect hN s i p n out order) :
    (acks ((s.after i p (n, out)).contents (leader hN))).length = order.length ∧
      ∀ q k, (acks ((s.after i p (n, out)).contents (leader hN)))[q]? = some k →
        Names order q k := by
  rcases eq_or_ne (leader hN) i with hi | hi
  · subst hi
    rw [after_contents_self, acks_append]
    refine ⟨?_, fun q k hk => ?_⟩
    · rw [List.length_append, hs.acks_length, h.acks_length rfl]
    · rcases Nat.lt_or_ge q (acks (s.contents (leader hN))).length with hq | hq
      · rw [List.getElem?_append_left hq] at hk
        exact (hs.named q k hk).mono h.grows
      · rw [List.getElem?_append_right hq] at hk
        have hn := h.named rfl _ k hk
        rw [← hs.acks_length] at hn
        rwa [Nat.add_sub_cancel' hq] at hn
  · rw [after_contents_of_ne _ _ _ _ _ hi, h.follower_order (Ne.symm hi)]
    exact ⟨hs.acks_length, hs.named⟩

theorem Effect.causal_after (hs : Inv hN s) (h : Effect hN s i p n out order) :
    ∀ d ∈ (s.after i p (n, out)).sent (leader hN), ∀ k, d.content = .a k →
      k.seq ≤ (bcasts ((s.after i p (n, out)).firsts k.idProcess (d.past k.idProcess))).length := by
  intro d hd k hk
  have hgrow : ∀ c, (bcasts (s.firsts k.idProcess c)).length ≤
      (bcasts ((s.after i p (n, out)).firsts k.idProcess c)).length :=
    fun c => bcasts_length_mono (firsts_le_after s i k.idProcess p (n, out) c)
  refine le_trans ?_ (hgrow _)
  rcases eq_or_ne (leader hN) i with hi | hi
  · subst hi
    simp only [Network.after, Function.update_self, List.mem_append, List.mem_map] at hd
    rcases hd with hd | ⟨m, hm, rfl⟩
    · exact hs.causal d hd k hk
    · exact h.causal rfl k (hk ▸ hm)
  · simp only [Network.after, Function.update_of_ne hi] at hd
    exact hs.causal d hd k hk

theorem Effect.inv_after (hs : Inv hN s) (h : Effect hN s i p n out order) :
    Inv hN (s.after i p (n, out)) := by
  have hlength : ∀ x, (s.sent x).length ≤ ((s.after i p (n, out)).sent x).length := by
    intro x
    rcases eq_or_ne x i with rfl | hx
    · simp [Network.after]
    · simp [Network.after, hx]
  constructor
  case own =>
    intro x o ho
    rcases eq_or_ne x i with rfl | hx
    · rw [after_contents_self, bcasts_append, List.mem_append] at ho
      exact ho.elim (hs.own x o) (h.own o)
    · rw [after_contents_of_ne _ _ _ _ _ hx] at ho
      exact hs.own x o ho
  case numbered =>
    intro x
    rcases eq_or_ne x i with rfl | hx
    · rw [after_contents_self, bcasts_append]
      exact h.numbered
    · rw [after_contents_of_ne _ _ _ _ _ hx]
      exact hs.numbered x
  case seqNum =>
    intro x
    rcases eq_or_ne x i with rfl | hx
    · rw [after_contents_self, bcasts_append, after_nodes_self]
      exact h.seqNum
    · rw [after_contents_of_ne _ _ _ _ _ hx, after_nodes_of_ne _ _ _ _ _ hx]
      exact hs.seqNum x
  case processed_le =>
    intro j x
    refine le_trans ?_ (hlength x)
    rcases eq_or_ne j i with rfl | hj
    · rw [after_processed_self]
      exact h.processed_le x
    · rw [after_processed_of_ne _ _ _ _ _ hj]
      exact hs.processed_le j x
  case heard =>
    intro j x
    rcases eq_or_ne j i with rfl | hj
    · rw [after_nodes_self, after_processed_self, after_firsts _ _ _ _ _ (h.processed_le x)]
      exact h.heard x
    · rw [after_nodes_of_ne _ _ _ _ _ hj, after_processed_of_ne _ _ _ _ _ hj,
        after_firsts _ _ _ _ _ (hs.processed_le j x)]
      exact hs.heard j x
  case leader_noAck =>
    intro x
    rcases eq_or_ne (leader hN) i with hi | hi
    · subst hi
      rw [after_nodes_self]
      exact h.leader_noAck rfl x
    · rw [after_nodes_of_ne _ _ _ _ _ hi]
      exact hs.leader_noAck x
  case order_le =>
    intro j
    rw [h.leader_order_after]
    rcases eq_or_ne j i with rfl | hj
    · rw [after_nodes_self]
      exact h.order_le
    · rw [after_nodes_of_ne _ _ _ _ _ hj]
      exact (hs.order_le j).trans h.grows
  case order_length =>
    intro j
    rcases eq_or_ne j i with rfl | hj
    · rw [after_nodes_self]
      exact h.order_length
    · rw [after_nodes_of_ne _ _ _ _ _ hj]
      exact hs.order_length j
  case order_some =>
    rw [h.leader_order_after]
    exact h.order_some
  case acked =>
    intro j hj
    rcases eq_or_ne j i with rfl | hji
    · rw [after_nodes_self, after_processed_self, after_firsts _ _ _ _ _ (h.processed_le _)]
      exact h.acked hj
    · rw [after_nodes_of_ne _ _ _ _ _ hji, after_processed_of_ne _ _ _ _ _ hji,
        after_firsts _ _ _ _ _ (hs.processed_le j _)]
      exact hs.acked j hj
  case follower_acks =>
    intro x hx
    rcases eq_or_ne x i with rfl | hxi
    · rw [after_contents_self, acks_append, hs.follower_acks x hx, h.follower_acks hx]
      rfl
    · rw [after_contents_of_ne _ _ _ _ _ hxi]
      exact hs.follower_acks x hx
  case acks_length =>
    rw [h.leader_order_after]
    exact (h.acks_after hs).1
  case named =>
    rw [h.leader_order_after]
    exact (h.acks_after hs).2
  case causal => exact h.causal_after hs
  case delivered =>
    intro j
    rcases eq_or_ne j i with rfl | hj
    · rw [after_nodes_self]
      exact h.delivered
    · rw [after_nodes_of_ne _ _ _ _ _ hj]
      exact hs.delivered j

end Preservation

end UniformBroadcast.UdpMulticast
