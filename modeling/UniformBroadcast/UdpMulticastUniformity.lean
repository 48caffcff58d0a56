import UniformBroadcast.UdpMulticastTotalOrder

/-!
# Uniform delivery in the UDP multicast

The leader treats the broadcasts of the followers with `update_vector_1`, whose strict
comparison is sound. A follower treats every broadcast with `update_vector`, whose
comparison includes position `ack`: this is sound for the leader's broadcasts and for its
own, but another follower that stamped `ack` had ordered the entries before that position
only. Along the runs in which no such broadcast meets a waiting entry exactly at its
`ack`, delivery is uniform.
-/

namespace UniformBroadcast.UdpMulticast

open Sequencer SequencedStreams TransitionRuns

variable {N : ℕ} {hN : 2 ≤ N}

/-- Node `i` is a follower and treats the broadcast of another follower. -/
def AmongFollowers (i : Fin N) (message : Bcast N) : Prop :=
  i.val ≠ 0 ∧ message.idProcess.val ≠ 0 ∧ message.idProcess ≠ i

instance (i : Fin N) (message : Bcast N) : Decidable (AmongFollowers i message) :=
  inferInstanceAs (Decidable (_ ∧ _ ∧ _))

/-- The condition on one step: the broadcast of another follower that a follower treats
meets no entry exactly at its `ack`. -/
def SoundAck (s : Network N) : Event N → Prop
  | .send _ => True
  | .recv i x => ∀ d ∈ (s.sent x)[s.processed i x]?, match d.content with
    | .b message => AmongFollowers i message → NoExactAck (s.nodes i) message
    | .a _ => True

instance SoundAck.decidable (s : Network N) : ∀ e, Decidable (SoundAck s e)
  | .send _ => isTrue trivial
  | .recv i x =>
    match h : (s.sent x)[s.processed i x]? with
    | none => isTrue (by simp [SoundAck, h])
    | some ⟨.a _, _⟩ => isTrue (by simp [SoundAck, h])
    | some ⟨.b message, _⟩ =>
      decidable_of_iff (AmongFollowers i message → NoExactAck (s.nodes i) message)
        (by simp [SoundAck, h])

theorem soundAck_recv {s : Network N} {i x : Fin N} {d : Datagram N} {m : Bcast N}
    (hd : (s.sent x)[s.processed i x]? = some d) (hm : d.content = .b m)
    (h : SoundAck s (.recv i x)) (hfollowers : AmongFollowers i m) : NoExactAck (s.nodes i) m := by
  have hcond := h d hd
  rw [hm] at hcond
  exact hcond hfollowers

/-- A node starts an entry with the bits of all the nodes. -/
theorem confBits_getLsbD (hmax : N ≤ maxNodes) (x : Fin N) : (confBits N).getLsbD x = true := by
  have hall : ∀ n < 6, ∀ y : Fin n, (confBits n).getLsbD y = true := by decide
  exact hall N (Nat.lt_succ_of_le hmax) x

/-! ## The handlers keep a node confirmed -/

section Handlers

variable (hmax : N ≤ maxNodes) {i : Fin N} {n : Node N} {known : Fin N → ℕ} {m : Bcast N}

include hmax

theorem confBits_confirmed (x : Fin N) (hx : (confBits N).getLsbD x = false) :
    n.order.length < known x := by
  rw [confBits_getLsbD hmax x] at hx
  cases hx

theorem leaderSaved_confirmed (h : Confirmed known n) (hcount : n.Counted)
    (hself : known i = (leaderSaved i m n).order.length) (hack : m.ack ≤ known m.idProcess) :
    Confirmed known (leaderSaved i m n) := by
  rw [(leaderSaved_spec i m n).1] at hself
  rw [leaderSaved]
  split
  · have hupdated : Confirmed known (updateVector1 m n) :=
      h.updateVectorBy hmax fun t _ _ _ hlt => hlt.trans_le hack
    exact hupdated.saveMsgInVectorAck (updateVectorBy_counted _ m hcount) (confBits_confirmed hmax)
      m
  · rename_i hid
    have hsaved := h.saveMsgInVectorAck hcount (confBits_confirmed hmax) m
    refine hsaved.updateVectorBy hmax fun t e he _ _ => ?_
    -- the entries of the vector are in the leader's own order
    rw [not_not.mp hid, hself, ← saveMsgInVectorAck_order (confBits N)]
    exact lt_order_length (n := saveMsgInVectorAck (confBits N) m n) hcount he

theorem handleMsg_confirmed (h : Confirmed known n) (hcount : n.Counted)
    (hself : known i = (handleMsg i m n).1.order.length)
    (hleader : i.val = 0 → m.ack ≤ known m.idProcess)
    (hfollower : i.val ≠ 0 → ∀ t e, n.vectorAck[t]? = some e →
      e.bits.getLsbD m.idProcess = true → t + n.highestDelivered ≤ m.ack →
      t + n.highestDelivered < known m.idProcess) :
    Confirmed known (handleMsg i m n).1 := by
  by_cases hi : i.val = 0
  · rw [handleMsg_leader hi] at hself ⊢
    exact (leaderSaved_confirmed hmax h hcount hself (hleader hi)).congr rfl rfl
  · rw [handleMsg_follower hi]
    have hsaved : Confirmed known (saveMsgInVectorNoAck m n) := h.congr rfl rfl
    exact hsaved.updateVectorBy hmax (hfollower hi)

theorem handleAck_confirmed (h : Confirmed known n) (hcount : n.Counted) {k : Ack N} :
    Confirmed known (handleAck i k n).1 := by
  by_cases hi : i.val = 0
  · rwa [handleAck_leader hi]
  · rw [handleAck_follower hi]
    exact (h.moveMsgInVectorAck hcount (confBits_confirmed hmax) k).congr rfl rfl

end Handlers

/-- The order of a node only grows. -/
theorem handle_order_length (i : Fin N) (m : Msg N) (n : Node N) :
    n.order.length ≤ (handle i m n).1.order.length := by
  cases m with
  | b m =>
    by_cases hi : i.val = 0
    · rw [handle, handleMsg_leader hi]
      change _ ≤ (leaderSaved i m n).order.length
      rw [(leaderSaved_spec i m n).1, List.length_append]
      exact Nat.le_add_right _ _
    · rw [handle, handleMsg_follower hi, updateVector, updateVectorBy_order,
        saveMsgInVectorNoAck_order]
  | a k =>
    by_cases hi : i.val = 0
    · rw [handle, handleAck_leader hi]
    · rw [handle, handleAck_follower hi]
      change _ ≤ (moveMsgInVectorAck (confBits N) k n).order.length
      rw [moveMsgInVectorAck_order, List.length_append]
      exact Nat.le_add_right _ _

/-- A handler multicasts acknowledgements only. -/
theorem handle_bcasts (i : Fin N) (m : Msg N) (n : Node N) (m' : Bcast N) :
    Msg.b m' ∉ (handle i m n).2 := by
  cases m with
  | b m => by_cases hi : i.val = 0 <;> simp [handle, handleMsg, hi]
  | a k => by_cases hi : i.val = 0 <;> simp [handle, handleAck, hi]

/-! ## Along a run -/

/-- How many messages each node has ordered. -/
def Network.known (s : Network N) (x : Fin N) : ℕ := (s.nodes x).order.length

/-- No `ack` that was sent exceeds what its sender has ordered, and every node confirms
only what is ordered. -/
structure Sound (s : Network N) : Prop where
  ack_le : ∀ x m, Msg.b m ∈ s.contents x → m.ack ≤ s.known m.idProcess
  confirmed : ∀ j, Confirmed s.known (s.nodes j)

theorem sound_initial : Sound (Network.initial : Network N) where
  ack_le _ _ h := by cases h
  confirmed _ := confirmed_initial _

section Steps

variable {s : Network N}

theorem known_after_self (i : Fin N) (p : Fin N → ℕ) (r : Node N × List (Msg N)) :
    (s.after i p r).known i = r.1.order.length := by
  simp [Network.known]

theorem known_le_after {i : Fin N} {p : Fin N → ℕ} {r : Node N × List (Msg N)}
    (hgrows : (s.nodes i).order.length ≤ r.1.order.length) (x : Fin N) :
    s.known x ≤ (s.after i p r).known x := by
  rcases eq_or_ne x i with rfl | hx
  · rw [known_after_self]
    exact hgrows
  · rw [Network.known, Network.known, after_nodes_of_ne _ _ _ _ _ hx]

/-- What one step has to guarantee: the order grows, a multicast broadcast is stamped
with what its sender has ordered, and the node stays confirmed. -/
theorem Sound.after (hs : Sound s) {i : Fin N} {p : Fin N → ℕ} {r : Node N × List (Msg N)}
    (hgrows : (s.nodes i).order.length ≤ r.1.order.length)
    (hout : ∀ m, Msg.b m ∈ r.2 → m.ack ≤ s.known m.idProcess)
    (hconf : ∀ known, (∀ x, s.known x ≤ known x) → known i = r.1.order.length →
      Confirmed known (s.nodes i) → Confirmed known r.1) :
    Sound (s.after i p r) where
  ack_le x m hm := by
    refine le_trans ?_ (known_le_after hgrows m.idProcess)
    rcases eq_or_ne x i with rfl | hx
    · rw [after_contents_self, List.mem_append] at hm
      exact hm.elim (hs.ack_le x m) (hout m)
    · rw [after_contents_of_ne _ _ _ _ _ hx] at hm
      exact hs.ack_le x m hm
  confirmed j := by
    have hle := known_le_after (p := p) hgrows
    rcases eq_or_ne j i with rfl | hj
    · rw [after_nodes_self]
      exact hconf _ hle (known_after_self j p r) ((hs.confirmed j).mono hle)
    · rw [after_nodes_of_ne _ _ _ _ _ hj]
      exact (hs.confirmed j).mono hle

theorem sound_send (hinv : Inv hN s) (hs : Sound s) (i : Fin N) :
    Sound (s.after i (s.processed i) (sendMsg i (s.nodes i))) := by
  refine hs.after (Nat.le_refl _) (fun m hm => ?_) (fun _ _ _ hconf => hconf.congr rfl rfl)
  obtain rfl := Msg.b.inj (List.mem_singleton.mp hm)
  exact (hinv.order_length i).ge

theorem sound_recv (hmax : N ≤ maxNodes) (hinv : Inv hN s) (hs : Sound s) {i x : Fin N}
    {d : Datagram N} (hd : (s.sent x)[s.processed i x]? = some d) (hok : SoundAck s (.recv i x)) :
    Sound (s.after i (tick (s.processed i) x) (handle i d.content (s.nodes i))) := by
  refine hs.after (handle_order_length i _ _) (fun m hm => absurd hm (handle_bcasts i _ _ m)) ?_
  intro known hle hself hconf
  cases hc : d.content with
  | a k => exact handleAck_confirmed hmax hconf (hinv.delivered i)
  | b m =>
    rw [hc] at hself
    have hack : m.ack ≤ s.known m.idProcess := hs.ack_le x m (hc ▸ mem_contents hd)
    refine handleMsg_confirmed hmax hconf (hinv.delivered i) hself
      (fun _ => hack.trans (hle _)) (fun hi t e he hbit hcovers => ?_)
    refine Nat.lt_of_lt_of_le ?_ (hle m.idProcess)
    have hpos : t + (s.nodes i).highestDelivered < s.known i :=
      lt_order_length (hinv.delivered i) he
    by_cases hm : m.idProcess.val = 0
    · -- the leader has ordered all that any node has
      rw [(eq_leader_iff hN _).mpr hm]
      exact hpos.trans_le (hinv.order_le i).length_le
    · rcases eq_or_ne m.idProcess i with hmi | hmi
      · rwa [hmi]
      · obtain ⟨ht, rfl⟩ := List.getElem?_eq_some_iff.mp he
        have hne := soundAck_recv hd hc hok ⟨hi, hm, hmi⟩ t ht hbit
        exact (Nat.lt_of_le_of_ne hcovers hne).trans_le hack

theorem sound_step {s' : Network N} (hmax : N ≤ maxNodes) (hinv : Inv hN s) (hs : Sound s)
    {e : Event N} (hok : SoundAck s e) (h : step s e = some s') : Sound s' := by
  cases e with
  | send i =>
    obtain rfl : _ = s' := Option.some.inj h
    exact sound_send hinv hs i
  | recv i x =>
    obtain ⟨d, hd, -, rfl⟩ := step_recv h
    exact sound_recv hmax hinv hs hd hok

end Steps

/-- Along the runs whose every step meets `SoundAck`, what one node has delivered, every
node has received. -/
theorem multicast_uniform_delivery (hN : 2 ≤ N) (hmax : N ≤ maxNodes) {es : List (Event N)}
    {s : Network N} (hok : Along step SoundAck Network.initial es)
    (h : exec step Network.initial es = some s) :
    UniformDelivery s.nodes := by
  have hstep : ∀ s e s', Inv hN s ∧ Sound s → SoundAck s e → step s e = some s' →
      Inv hN s' ∧ Sound s' := by
    intro s e s' hs hok hstep
    exact ⟨inv_step hs.1 hstep, sound_step hmax hs.1 hs.2 hok hstep⟩
  obtain ⟨hinv, hs⟩ := exec_invariant_along hstep ⟨inv_initial hN, sound_initial⟩ hok h
  exact uniformDelivery_of_confirmed hinv.order_le hinv.delivered hs.confirmed

theorem multicast_uniform_delivery_exchange :
    UniformDelivery ((exec step Network.initial (exchange (0 : Fin 2) 1)).get (by decide)).nodes :=
  multicast_uniform_delivery (Nat.le_refl 2) (by decide) (by decide) (Option.some_get _).symm

/-- Node `k` broadcasts before it has processed anything, the leader `i` broadcasts twice
and node `j` once; node `j` takes the broadcast of `k` for a confirmation. -/
def crossing (i j k : Fin N) : List (Event N) :=
  [.send k, .send i, .recv i i, .recv j i, .recv j i, .send j, .recv j j, .send i, .recv j i,
    .recv j k]

theorem not_multicast_uniform_delivery : ¬ ∀ N, 2 ≤ N → N ≤ maxNodes → ∀ (es : List (Event N))
    (s : Network N), exec step Network.initial es = some s → UniformDelivery s.nodes := by
  intro h
  have hs := h 3 (by decide) (by decide) (crossing 0 1 2)
    ((exec step Network.initial (crossing 0 1 2)).get (by decide)) (Option.some_get _).symm
  have hr := hs 1 ⟨0, 1, 0⟩ (by decide) 2
  revert hr
  unfold Received
  decide

end UniformBroadcast.UdpMulticast
