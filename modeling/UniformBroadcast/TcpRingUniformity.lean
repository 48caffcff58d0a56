import UniformBroadcast.TcpRingTotalOrder

/-!
# Uniform delivery in the TCP ring

`update_vector` clears the bit of a sender for the entries up to position `ack` included,
but a follower that stamped `ack` had ordered the entries before that position only. So a
node may deliver a message that another has not received. Along the runs in which no
handled broadcast of a follower meets a waiting entry exactly at its `ack`, delivery is
uniform.
-/

namespace UniformBroadcast.TcpRing

open Sequencer TransitionRuns

variable {N : ℕ} {hN : 2 ≤ N}

/-- The condition on one step: a handled broadcast of a follower meets no entry exactly
at its `ack`. -/
def SoundAck (s : Ring N) : Event N → Prop
  | .send _ => True
  | .recv i => ∀ m ∈ (s.inbox i).head?, match m with
    | .b message => message.idProcess.val ≠ 0 → NoExactAck (s.nodes i) message
    | .a _ => True

instance SoundAck.decidable (s : Ring N) : ∀ e, Decidable (SoundAck s e)
  | .send _ => isTrue trivial
  | .recv i =>
    match h : (s.inbox i).head? with
    | none => isTrue (by simp [SoundAck, h])
    | some (.a _) => isTrue (by simp [SoundAck, h])
    | some (.b message) =>
      decidable_of_iff (message.idProcess.val ≠ 0 → NoExactAck (s.nodes i) message)
        (by simp [SoundAck, h])

theorem soundAck_recv {s : Ring N} {i : Fin N} {m : Bcast N} {rest : List (Msg N)}
    (hread : s.inbox i = .b m :: rest) (h : SoundAck s (.recv i)) (hm : m.idProcess.val ≠ 0) :
    NoExactAck (s.nodes i) m :=
  h (.b m) (by simp [hread]) hm

/-- A node starts an entry with the bits of all the other nodes. -/
theorem confBits_getLsbD (hmax : N ≤ maxNodes) (self x : Fin N)
    (h : (confBits self).getLsbD x = false) : x = self := by
  have hall : ∀ n < 6, ∀ y z : Fin n, (confBits y).getLsbD z = false → z = y := by decide
  exact hall N (Nat.lt_succ_of_le hmax) self x h

/-! ## The handlers keep a node confirmed -/

section Handlers

variable (hmax : N ≤ maxNodes) {i : Fin N} {n : Node N} {known : Fin N → ℕ}

include hmax

/-- An entry saved by a node is confirmed by that node alone. -/
theorem confBits_confirmed (hself : n.order.length < known i) (x : Fin N)
    (hx : (confBits i).getLsbD x = false) : n.order.length < known x := by
  rw [confBits_getLsbD hmax i x hx]
  exact hself

theorem sendMsg_confirmed (h : Confirmed known n) (hcount : n.Counted)
    (hack : n.ackNum = n.order.length) (hself : known i = (sendMsg i n).1.order.length) :
    Confirmed known (sendMsg i n).1 := by
  by_cases hi : i.val = 0
  · obtain ⟨-, horder, -⟩ := sendMsg_leader hi n
    rw [horder, List.length_append, List.length_singleton] at hself
    simp only [sendMsg, hi, ↓reduceIte]
    set n₁ : Node N := { n with seqNum := n.seqNum + 1 }
    have h₁ : Confirmed known n₁ := h.congr rfl rfl
    have hlt : n₁.order.length < known i := Nat.lt_of_lt_of_eq (Nat.lt_succ_self _) hself.symm
    have h₂ := h₁.saveMsgInVectorAck hcount (confBits_confirmed hmax hlt) (nextMsg i n)
    -- the leader's own entry is the one at the position that `ack` covers
    have h₃ : Confirmed known
        (updateVector (nextMsg i n) (saveMsgInVectorAck (confBits i) (nextMsg i n) n₁)) :=
      h₂.updateVectorBy hmax fun t _ _ _ hle => Nat.lt_of_le_of_lt (hle.trans_eq hack) hlt
    exact h₃.congr rfl rfl
  · rw [sendMsg_follower hi]
    exact h.congr rfl rfl

theorem handleMsg_confirmed (h : Confirmed known n) (hcount : n.Counted) {m : Bcast N}
    (hself : known i = (handleMsg i m n).1.order.length)
    (hack : ∀ t e, n.vectorAck[t]? = some e → e.bits.getLsbD m.idProcess = true →
      t + n.highestDelivered ≤ m.ack → t + n.highestDelivered < known m.idProcess) :
    Confirmed known (handleMsg i m n).1 := by
  have hupdated : Confirmed known (updateVector m n) := h.updateVectorBy hmax hack
  by_cases hi : i.val = 0
  · obtain ⟨-, horder, -⟩ := handleMsg_leader hi m n
    rw [horder, List.length_append, List.length_singleton] at hself
    simp only [handleMsg, hi, ↓reduceIte]
    have hlt : (updateVector m n).order.length < known i := by
      rw [updateVector, updateVectorBy_order, hself]
      exact Nat.lt_succ_self _
    have hsaved := hupdated.saveMsgInVectorAck (updateVectorBy_counted _ m hcount)
      (confBits_confirmed hmax hlt) m
    exact hsaved.congr rfl rfl
  · rw [handleMsg_follower hi]
    exact hupdated.congr rfl rfl

theorem handleAck_confirmed (h : Confirmed known n) (hcount : n.Counted) {k : Ack N}
    (hself : known i = (handleAck i k n).1.order.length) : Confirmed known (handleAck i k n).1 := by
  by_cases hi : i.val = 0
  · rwa [handleAck_leader hi]
  · rw [handleAck_follower hi] at hself ⊢
    have hlt : n.order.length < known i := by
      rw [hself]
      change _ < (moveMsgInVectorAck (confBits i) k n).order.length
      rw [moveMsgInVectorAck_order, List.length_append]
      exact Nat.lt_succ_self _
    exact (h.moveMsgInVectorAck hcount (confBits_confirmed hmax hlt) k).congr rfl rfl

end Handlers

/-- The order of a node only grows. -/
theorem sendMsg_order_length (i : Fin N) (n : Node N) :
    n.order.length ≤ (sendMsg i n).1.order.length := by
  by_cases hi : i.val = 0
  · obtain ⟨-, horder, -⟩ := sendMsg_leader hi n
    rw [horder, List.length_append]
    exact Nat.le_add_right _ _
  · rw [sendMsg_follower hi]
    exact Nat.le_refl _

theorem handleMsg_order_length (i : Fin N) (m : Bcast N) (n : Node N) :
    n.order.length ≤ (handleMsg i m n).1.order.length := by
  by_cases hi : i.val = 0
  · obtain ⟨-, horder, -⟩ := handleMsg_leader hi m n
    rw [horder, List.length_append]
    exact Nat.le_add_right _ _
  · rw [handleMsg_follower hi, saveMsgInVectorNoAck_order, updateVector, updateVectorBy_order]

theorem handleAck_order_length (i : Fin N) (k : Ack N) (n : Node N) :
    n.order.length ≤ (handleAck i k n).1.order.length := by
  by_cases hi : i.val = 0
  · rw [handleAck_leader hi]
  · rw [handleAck_follower hi]
    change _ ≤ (moveMsgInVectorAck (confBits i) k n).order.length
    rw [moveMsgInVectorAck_order, List.length_append]
    exact Nat.le_add_right _ _

/-! ## Along a run -/

/-- How many messages each node has ordered. -/
def Ring.known (s : Ring N) (x : Fin N) : ℕ := (s.nodes x).order.length

/-- No `ack` on the ring exceeds what its sender has ordered, and every node confirms
only what is ordered. -/
structure Sound (s : Ring N) : Prop where
  ack_le : ∀ j m, Msg.b m ∈ s.inbox j → m.ack ≤ s.known m.idProcess
  confirmed : ∀ j, Confirmed s.known (s.nodes j)

theorem sound_initial : Sound (Ring.initial : Ring N) where
  ack_le _ _ h := by simp [Ring.initial] at h
  confirmed _ := confirmed_initial _

theorem known_after_self (s : Ring N) (i : Fin N) (rest : List (Msg N))
    (r : Node N × List (Msg N)) :
    (s.after i rest r).known i = r.1.order.length := by
  simp [Ring.known]

theorem known_le_after {s : Ring N} {i : Fin N} {rest : List (Msg N)} {r : Node N × List (Msg N)}
    (hgrows : (s.nodes i).order.length ≤ r.1.order.length) (x : Fin N) :
    s.known x ≤ (s.after i rest r).known x := by
  by_cases hx : x = i
  · subst hx
    rw [known_after_self]
    exact hgrows
  · rw [Ring.known, Ring.known, after_nodes_of_ne _ _ _ _ _ hx]

/-- What one step has to guarantee: the order grows, a written broadcast was read or is
stamped with what its sender has ordered, and the node stays confirmed. -/
theorem Sound.after {s : Ring N} (hN : 2 ≤ N) (hs : Sound s) {i : Fin N} {rest : List (Msg N)}
    {r : Node N × List (Msg N)} (hrest : rest ⊆ s.inbox i)
    (hgrows : (s.nodes i).order.length ≤ r.1.order.length)
    (hout : ∀ m, Msg.b m ∈ r.2 → Msg.b m ∈ s.inbox i ∨ m.ack ≤ s.known m.idProcess)
    (hconf : ∀ known, (∀ x, s.known x ≤ known x) → known i = r.1.order.length →
      Confirmed known (s.nodes i) → Confirmed known r.1) :
    Sound (s.after i rest r) where
  ack_le j m hm := by
    refine le_trans ?_ (known_le_after hgrows m.idProcess)
    by_cases hj : j = i
    · rw [hj, after_inbox_self hN] at hm
      exact hs.ack_le i m (hrest hm)
    · by_cases hj' : j = getSuccessor i
      · rw [hj', after_inbox_succ hN, List.mem_append] at hm
        rcases hm with hm | hm
        · exact hs.ack_le _ m hm
        · rcases hout m hm with hread | hle
          · exact hs.ack_le i m hread
          · exact hle
      · rw [after_inbox_of_ne _ _ _ _ _ hj hj'] at hm
        exact hs.ack_le j m hm
  confirmed j := by
    have hle : ∀ x, s.known x ≤ (s.after i rest r).known x := known_le_after hgrows
    by_cases hj : j = i
    · rw [hj, after_nodes_self]
      exact hconf _ hle (known_after_self s i rest r) ((hs.confirmed i).mono hle)
    · rw [after_nodes_of_ne _ _ _ _ _ hj]
      exact (hs.confirmed j).mono hle

theorem mem_transferred {i : Fin N} {m m' : Bcast N} (h : Msg.b m' ∈ transferred i m) : m' = m := by
  rw [transferred] at h
  split at h
  · simpa using h
  · cases h

section Steps

variable {s : Ring N} (hmax : N ≤ maxNodes) (hinv : Inv hN s) (hs : Sound s)

include hmax hinv hs

theorem sound_send (i : Fin N) : Sound (s.after i (s.inbox i) (sendMsg i (s.nodes i))) := by
  refine hs.after hN (List.Subset.refl _) (sendMsg_order_length i _) (fun m hm => .inr ?_) ?_
  · have hm' : m = nextMsg i (s.nodes i) := by
      by_cases hi : i.val = 0
      · simpa [(sendMsg_leader hi (s.nodes i)).1] using hm
      · simpa [sendMsg_follower hi] using hm
    rw [hm']
    exact (hinv.order_length i).ge
  · intro known _ hself hconf
    exact sendMsg_confirmed hmax hconf (hinv.delivered i) (hinv.order_length i).symm hself

theorem sound_bcast {i : Fin N} {m : Bcast N} {rest : List (Msg N)}
    (hread : s.inbox i = .b m :: rest) (hok : SoundAck s (.recv i)) :
    Sound (s.after i rest (handleMsg i m (s.nodes i))) := by
  refine hs.after hN (by simp [hread]) (handleMsg_order_length i m _) (fun m' hm' => .inl ?_) ?_
  · have hmem : m' = m := by
      by_cases hi : i.val = 0
      · refine mem_transferred (i := i) ?_
        simpa [(handleMsg_leader hi m (s.nodes i)).1] using hm'
      · refine mem_transferred (i := i) ?_
        simpa [handleMsg_follower hi] using hm'
    rw [hmem, hread]
    exact List.mem_cons_self
  · intro known hle hself hconf
    refine handleMsg_confirmed hmax hconf (hinv.delivered i) hself fun t e he hbit hcovers => ?_
    refine Nat.lt_of_lt_of_le ?_ (hle m.idProcess)
    by_cases hm : m.idProcess.val = 0
    · -- the leader has ordered all that any node has
      have hpos := lt_order_length (hinv.delivered i) he
      rw [(eq_leader_iff hN _).mpr hm]
      exact hpos.trans_le (hinv.order_le i).length_le
    · obtain ⟨ht, rfl⟩ := List.getElem?_eq_some_iff.mp he
      have hne := soundAck_recv hread hok hm t ht hbit
      exact (Nat.lt_of_le_of_ne hcovers hne).trans_le (hs.ack_le i m (by simp [hread]))

theorem sound_ack {i : Fin N} {k : Ack N} {rest : List (Msg N)} (hread : s.inbox i = .a k :: rest) :
    Sound (s.after i rest (handleAck i k (s.nodes i))) := by
  refine hs.after hN (by simp [hread]) (handleAck_order_length i k _) (fun m hm => ?_) ?_
  · by_cases hi : i.val = 0
    · simp [handleAck_leader hi] at hm
    · rw [handleAck_follower hi] at hm
      split at hm <;> simp at hm
  · intro known _ hself hconf
    exact handleAck_confirmed hmax hconf (hinv.delivered i) hself

theorem sound_step {s' : Ring N} {e : Event N} (hok : SoundAck s e) (h : step s e = some s') :
    Sound s' := by
  cases e with
  | send i =>
    obtain rfl : _ = s' := Option.some.inj h
    exact sound_send hmax hinv hs i
  | recv i =>
    cases hread : s.inbox i with
    | nil => simp [step, hread] at h
    | cons m rest =>
      cases m with
      | b m =>
        obtain rfl : _ = s' := Option.some.inj (by simpa only [step, hread] using h)
        exact sound_bcast hmax hinv hs hread hok
      | a k =>
        obtain rfl : _ = s' := Option.some.inj (by simpa only [step, hread] using h)
        exact sound_ack hmax hinv hs hread

end Steps

/-- Along the runs whose every step meets `SoundAck`, what one node has delivered, every
node has received. -/
theorem ring_uniform_delivery (hN : 2 ≤ N) (hmax : N ≤ maxNodes) {es : List (Event N)} {s : Ring N}
    (hok : Along step SoundAck Ring.initial es) (h : exec step Ring.initial es = some s) :
    UniformDelivery s.nodes := by
  have hstep : ∀ s e s', Inv hN s ∧ Sound s → SoundAck s e → step s e = some s' →
      Inv hN s' ∧ Sound s' := by
    intro s e s' hs hok hstep
    exact ⟨inv_step hs.1 hstep, sound_step hmax hs.1 hs.2 hok hstep⟩
  obtain ⟨hinv, hs⟩ := exec_invariant_along hstep ⟨inv_initial hN, sound_initial⟩ hok h
  exact uniformDelivery_of_confirmed hinv.order_le hinv.delivered hs.confirmed

theorem ring_uniform_delivery_exchange :
    UniformDelivery ((exec step Ring.initial (exchange (0 : Fin 2) 1)).get (by decide)).nodes :=
  ring_uniform_delivery (Nat.le_refl 2) (by decide) (by decide) (Option.some_get _).symm

/-- The follower `j` of a ring of two broadcasts before it has heard the broadcast of the
leader `i`, and the leader takes this for a confirmation. -/
def crossing (i j : Fin N) : List (Event N) := [.send i, .send j, .recv i]

theorem not_ring_uniform_delivery : ¬ ∀ N, 2 ≤ N → N ≤ maxNodes →
    ∀ (es : List (Event N)) (s : Ring N),
      exec step Ring.initial es = some s → UniformDelivery s.nodes := by
  intro h
  have hs := h 2 (by decide) (by decide) (crossing 0 1)
    ((exec step Ring.initial (crossing 0 1)).get (by decide)) (Option.some_get _).symm
  have hr := hs 0 ⟨0, 1, 0⟩ (by decide) 1
  revert hr
  unfold Received
  decide

end UniformBroadcast.TcpRing
