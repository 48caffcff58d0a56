import UniformBroadcast.SequencerNode
import UniformBroadcast.TransitionRuns

/-!
# What a node of the sequencer protocols has to deliver

An entry of `vector_ack` waits for the nodes whose bits are set, and the head of the vector always
waits for some node: a node delivers all that it can. Once every node awaited has sent a broadcast
whose `ack` covers the first `p` entries of the order, and the broadcast has been handled here
after these entries were ordered, they are delivered.
-/

namespace UniformBroadcast.Sequencer

open SequencedStreams TransitionRuns

variable {N : ℕ}

/-- The entries wait for `awaited` nodes only, and the first one waits for one of them. -/
structure Waits (awaited : Fin N → Prop) (n : Node N) : Prop where
  bits : ∀ m ∈ n.vectorAck, ∀ k, m.bits.getLsbD k = true → ∃ x : Fin N, x.val = k ∧ awaited x
  head : ∀ m ∈ n.vectorAck.head?, m.bits ≠ 0#32

/-- The entries before position `p` of the order do not wait for node `x`. -/
def Cleared (p : ℕ) (x : Fin N) (n : Node N) : Prop :=
  ∀ t m, n.vectorAck[t]? = some m → t + n.highestDelivered < p → m.bits.getLsbD x = false

variable {awaited : Fin N → Prop} {n n' : Node N} {p : ℕ} {x : Fin N}

theorem waits_initial : Waits awaited (Node.initial : Node N) where
  bits m hm := by simp [Node.initial] at hm
  head m hm := by simp [Node.initial] at hm

theorem Waits.congr (h : Waits awaited n) (hvector : n'.vectorAck = n.vectorAck) :
    Waits awaited n' where
  bits := hvector ▸ h.bits
  head := hvector ▸ h.head

theorem Cleared.congr (h : Cleared p x n) (hvector : n'.vectorAck = n.vectorAck)
    (hhighest : n'.highestDelivered = n.highestDelivered) : Cleared p x n' := by
  intro t m hm ht
  rw [hvector] at hm
  rw [hhighest] at ht
  exact h t m hm ht

/-- A new entry waits for the nodes of `confBits`, which are awaited. -/
theorem Waits.concat (h : Waits awaited n) {o : Option (Bcast N)} {confBits : BitVec 32}
    (hbits : ∀ k, confBits.getLsbD k = true → ∃ x : Fin N, x.val = k ∧ awaited x)
    (hne : confBits ≠ 0#32) (hvector : n'.vectorAck = n.vectorAck ++ [⟨o, confBits⟩]) :
    Waits awaited n' where
  bits m hm := by
    rw [hvector, List.mem_append, List.mem_singleton] at hm
    rcases hm with hm | rfl
    · exact h.bits m hm
    · exact hbits
  head m hm := by
    rw [hvector, List.head?_append] at hm
    cases hhead : n.vectorAck.head? with
    | none =>
      rw [hhead] at hm
      obtain rfl : _ = m := Option.some.inj hm
      exact hne
    | some m' =>
      rw [hhead] at hm
      obtain rfl : m' = m := Option.some.inj hm
      exact h.head m' hhead

/-- A new entry stands behind the `p` first ones. -/
theorem Cleared.concat (h : Cleared p x n) (hcount : n.Counted) (hp : p ≤ n.order.length)
    {m : MsgInfo N} (hvector : n'.vectorAck = n.vectorAck ++ [m])
    (hhighest : n'.highestDelivered = n.highestDelivered) : Cleared p x n' := by
  intro t m' hm ht
  rw [hvector] at hm
  rw [hhighest] at ht
  rcases Nat.lt_or_ge t n.vectorAck.length with hlt | hge
  · rw [List.getElem?_append_left hlt] at hm
    exact h t m' hm ht
  · rw [Node.order, List.length_append, List.length_map, ← hcount] at hp
    omega

section UpdateVector

variable (covers : ℕ → ℕ → Prop) [DecidableRel covers] (message : Bcast N)

theorem getElem?_clearedVector {t : ℕ} {m : MsgInfo N}
    (hm : (clearedVector covers message n)[t]? = some m) : ∃ m₀, n.vectorAck[t]? = some m₀ ∧
      m = clearBit covers n.highestDelivered message t m₀ := by
  rw [clearedVector, List.getElem?_mapIdx, Option.map_eq_some_iff] at hm
  obtain ⟨m₀, hm₀, rfl⟩ := hm
  exact ⟨m₀, hm₀, rfl⟩

/-- An update sets no bit. -/
theorem getLsbD_of_clearBit {h t : ℕ} {m : MsgInfo N} {k : ℕ}
    (hk : (clearBit covers h message t m).bits.getLsbD k = true) : m.bits.getLsbD k = true := by
  rw [clearBit] at hk
  split at hk
  · rw [BitVec.getLsbD_and, Bool.and_eq_true] at hk
    exact hk.1
  · exact hk

/-- The bit of the sender is cleared where its `ack` covers the position. -/
theorem getLsbD_clearBit_self {h t : ℕ} (m : MsgInfo N) (hcovers : covers (t + h) message.ack) :
    (clearBit covers h message t m).bits.getLsbD message.idProcess = false := by
  rw [clearBit, if_pos hcovers]
  simp

/-- Where an entry stands after the entries in front have gone. -/
theorem getElem?_updateVectorBy {t : ℕ} {m : MsgInfo N}
    (hm : (updateVectorBy covers message n).vectorAck[t]? = some m) :
    ∃ t₀ m₀, n.vectorAck[t₀]? = some m₀ ∧
      m = clearBit covers n.highestDelivered message t₀ m₀ ∧
      t + (updateVectorBy covers message n).highestDelivered = t₀ + n.highestDelivered := by
  rw [updateVectorBy_eq] at hm ⊢
  set l := clearedVector covers message n with hl
  have hsplit : l.takeWhile (·.bits = 0#32) ++ l.dropWhile (·.bits = 0#32) = l :=
    List.takeWhile_append_dropWhile
  have hget : l[(l.takeWhile (·.bits = 0#32)).length + t]? = some m := by
    rw [← hsplit, List.getElem?_append_right (by rw [hsplit]; exact Nat.le_add_right _ _)]
    rw [hsplit, Nat.add_sub_cancel_left]
    exact hm
  obtain ⟨m₀, hm₀, rfl⟩ := getElem?_clearedVector covers message hget
  refine ⟨_, m₀, hm₀, rfl, ?_⟩
  change t + (n.highestDelivered + _) = _
  omega

theorem Waits.updateVectorBy
    (hbits : ∀ m ∈ n.vectorAck, ∀ k, m.bits.getLsbD k = true → ∃ x : Fin N, x.val = k ∧ awaited x) :
    Waits awaited (Sequencer.updateVectorBy covers message n) where
  bits m hm k hk := by
    obtain ⟨t, ht⟩ := List.mem_iff_getElem?.mp hm
    obtain ⟨t₀, m₀, hm₀, rfl, -⟩ := getElem?_updateVectorBy covers message ht
    exact hbits m₀ (List.mem_of_getElem? hm₀) k (getLsbD_of_clearBit covers message hk)
  head m hm := by
    rw [updateVectorBy_eq] at hm
    have hnot := List.head?_dropWhile_not (fun m : MsgInfo N => decide (m.bits = 0#32))
      (clearedVector covers message n)
    simp only at hm
    rw [Option.mem_def.mp hm] at hnot
    simpa using hnot

/-- What was cleared stays so. -/
theorem Cleared.updateVectorBy (h : Cleared p x n) :
    Cleared p x (Sequencer.updateVectorBy covers message n) := by
  intro t m hm ht
  obtain ⟨t₀, m₀, hm₀, rfl, hpos⟩ := getElem?_updateVectorBy covers message hm
  rw [hpos] at ht
  have hclear := h t₀ m₀ hm₀ ht
  cases hbit : (clearBit covers n.highestDelivered message t₀ m₀).bits.getLsbD x with
  | false => rfl
  | true =>
    rw [getLsbD_of_clearBit covers message hbit] at hclear
    cases hclear

/-- A broadcast whose `ack` covers the first `p` positions clears them. -/
theorem cleared_updateVectorBy (hcovers : ∀ q < p, covers q message.ack) :
    Cleared p message.idProcess (Sequencer.updateVectorBy covers message n) := by
  intro t m hm ht
  obtain ⟨t₀, m₀, -, rfl, hpos⟩ := getElem?_updateVectorBy covers message hm
  rw [hpos] at ht
  exact getLsbD_clearBit_self covers message m₀ (hcovers _ ht)

end UpdateVector

/-- What no awaited node holds back is delivered. -/
theorem Waits.delivered (h : Waits awaited n) (hcount : n.Counted) (hp : p ≤ n.order.length)
    (hclear : ∀ x, awaited x → Cleared p x n) : p ≤ n.highestDelivered := by
  by_contra hlt
  cases hvector : n.vectorAck with
  | nil =>
    rw [Node.order, hvector, List.map_nil, List.append_nil, ← hcount] at hp
    exact hlt hp
  | cons m l =>
    have hhead : m ∈ n.vectorAck.head? := by simp [hvector]
    -- the head waits for a node, which is one of those awaited
    obtain ⟨k, hk⟩ : ∃ k, m.bits.getLsbD k = true := by
      by_contra hnone
      refine h.head m hhead ?_
      apply BitVec.eq_of_getLsbD_eq
      intro k _
      simpa using fun hk => hnone ⟨k, hk⟩
    obtain ⟨x, rfl, hx⟩ := h.bits m (by simp [hvector]) k hk
    have hzero := hclear x hx 0 m (by simp [hvector]) (by omega)
    rw [hzero] at hk
    cases hk

/-! ## Since a moment when everything was ordered -/

/-- The node delivers all that it can, the first `p` entries are ordered, and the nodes seen since
do not hold them back. -/
structure CaughtUp (awaited : Fin N → Prop) (p : ℕ) (seen : Fin N → Prop) (n : Node N) : Prop where
  waits : Waits awaited n
  ordered : p ≤ n.order.length
  cleared : ∀ x, awaited x → seen x → Cleared p x n

section CaughtUp

variable {seen seen' : Fin N → Prop}

/-- Of no entry at all any node is seen. -/
theorem caughtUp_initial : CaughtUp awaited 0 seen (Node.initial : Node N) where
  waits := waits_initial
  ordered := Nat.zero_le _
  cleared _ _ _ _ _ _ ht := absurd ht (Nat.not_lt_zero _)

theorem CaughtUp.mono (h : CaughtUp awaited p seen n) (hseen : ∀ x, awaited x → seen' x → seen x) :
    CaughtUp awaited p seen' n where
  waits := h.waits
  ordered := h.ordered
  cleared x hx hx' := h.cleared x hx (hseen x hx hx')

theorem CaughtUp.congr (h : CaughtUp awaited p seen n) (hvector : n'.vectorAck = n.vectorAck)
    (hhighest : n'.highestDelivered = n.highestDelivered) (horder : n'.order = n.order) :
    CaughtUp awaited p seen n' where
  waits := h.waits.congr hvector
  ordered := horder ▸ h.ordered
  cleared x hx hx' := (h.cleared x hx hx').congr hvector hhighest

section Concat

variable {confBits : BitVec 32} (hcount : n.Counted)
  (hbits : ∀ k, confBits.getLsbD k = true → ∃ x : Fin N, x.val = k ∧ awaited x)
  (hne : confBits ≠ 0#32)

include hcount hbits hne

theorem CaughtUp.saveMsgInVectorAck (h : CaughtUp awaited p seen n) (message : Bcast N) :
    CaughtUp awaited p seen (Sequencer.saveMsgInVectorAck confBits message n) where
  waits := h.waits.concat hbits hne rfl
  ordered := by
    rw [saveMsgInVectorAck_order, List.length_append]
    exact h.ordered.trans (Nat.le_add_right _ _)
  cleared x hx hx' := (h.cleared x hx hx').concat hcount h.ordered rfl rfl

theorem CaughtUp.moveMsgInVectorAck (h : CaughtUp awaited p seen n) (acknowledge : Ack N) :
    CaughtUp awaited p seen (Sequencer.moveMsgInVectorAck confBits acknowledge n) where
  waits := h.waits.concat hbits hne rfl
  ordered := by
    rw [moveMsgInVectorAck_order, List.length_append]
    exact h.ordered.trans (Nat.le_add_right _ _)
  cleared x hx hx' := (h.cleared x hx hx').concat hcount h.ordered rfl rfl

end Concat

/-- The sender of a broadcast is seen if the broadcast is known to cover the `p` entries. -/
theorem CaughtUp.updateVectorBy (h : CaughtUp awaited p seen n) (covers : ℕ → ℕ → Prop)
    [DecidableRel covers] (message : Bcast N) (known : Prop)
    (hcovers : known → ∀ q < p, covers q message.ack) :
    CaughtUp awaited p (fun x => seen x ∨ x = message.idProcess ∧ known)
      (Sequencer.updateVectorBy covers message n) where
  waits := Waits.updateVectorBy covers message h.waits.bits
  ordered := by
    rw [updateVectorBy_order]
    exact h.ordered
  cleared x hx hx' := by
    rcases hx' with hseen | ⟨rfl, hknown⟩
    · exact (h.cleared x hx hseen).updateVectorBy covers message
    · exact cleared_updateVectorBy covers message (hcovers hknown)

/-- When all the nodes awaited have been seen, the entries are delivered. -/
theorem CaughtUp.delivered (h : CaughtUp awaited p seen n) (hcount : n.Counted)
    (hseen : ∀ x, awaited x → seen x) : p ≤ n.highestDelivered :=
  h.waits.delivered hcount h.ordered fun x hx => h.cleared x hx (hseen x hx)

end CaughtUp

/-- What is heard of a sender, counted. -/
theorem heard_length (n : Node N) (x : Fin N) : (n.heard x).length =
    (stream source (some x) n.order).length + (n.vectorNoAck x).length := by
  rw [Node.heard, List.length_append, List.length_map]

/-- In a numbered list a number is at most the length. -/
theorem number_le_of_mem {l : List (Option (Bcast N))} (h : Numbered number l) {m : Bcast N}
    (hm : some m ∈ l) : m.seq ≤ l.length := by
  have hmem : number (some m) ∈ l.map number := List.mem_map_of_mem hm
  rw [h, List.mem_range'_1] at hmem
  rw [number_some] at hmem
  omega

/-- What was ordered when a run began is delivered at its end, when as many entries are. -/
theorem take_delivered {order : List (Option (Bcast N))} (hcount : n'.Counted)
    (hp : p ≤ n.order.length) (h : n.order <+: order) (h' : n'.order <+: order)
    (hdelivered : p ≤ n'.highestDelivered) : n.order.take p <+: n'.deliveryQueue := by
  have htake : n.order.take p <+: order := (List.take_prefix _ _).trans h
  have hqueue : n'.deliveryQueue <+: order := (deliveryQueue_prefix_order _).trans h'
  refine List.prefix_of_prefix_length_le htake hqueue ?_
  rw [List.length_take, Nat.min_eq_left hp, ← hcount]
  exact hdelivered

/-! ## Runs of several nodes -/

/-- One node makes a step: its order only grows, and it numbers a broadcast if it is the sender. -/
def NodeStep (sender : Option (Fin N)) (nodes nodes' : Fin N → Node N) : Prop := ∃ i n,
  nodes' = Function.update nodes i n ∧ (nodes i).order <+: n.order ∧
    (∀ x, sender = some x → i = x) ∧
    n.seqNum = (nodes i).seqNum + if sender = some i then 1 else 0

section Runs

universe u v

variable {σ : Type u} {ε : Type v} {step : σ → ε → Option σ} {nodes : σ → Fin N → Node N}
  {sender : ε → Option (Fin N)}
  (hstep : ∀ {s s' : σ} (e : ε), step s e = some s' → NodeStep (sender e) (nodes s) (nodes s'))

include hstep

/-- The order of a node only grows along a run. -/
theorem exec_order_le {s s' : σ} {es : List ε} (h : exec step s es = some s') (j : Fin N) :
    (nodes s j).order <+: (nodes s' j).order := by
  have hkeep : ∀ t e t', (nodes s j).order <+: (nodes t j).order → step t e = some t' →
      (nodes s j).order <+: (nodes t' j).order := by
    intro t e t' ht he
    obtain ⟨i, n, hnodes, hle, -⟩ := hstep e he
    by_cases hj : j = i
    · subst hj
      rw [hnodes, Function.update_self]
      exact ht.trans hle
    · rwa [hnodes, Function.update_of_ne hj]
  exact exec_invariant hkeep (List.prefix_refl _) h

/-- The broadcasts of a node are numbered as it makes them. -/
theorem exec_seqNum {s s' : σ} {es : List ε} (h : exec step s es = some s') (x : Fin N) :
    (nodes s' x).seqNum = (nodes s x).seqNum + es.countP (sender · = some x) := by
  induction es generalizing s with
  | nil =>
    obtain rfl := Option.some.inj h
    rfl
  | cons e es ih =>
    obtain ⟨t, ht, hrest⟩ := Option.bind_eq_some_iff.mp h
    obtain ⟨i, n, hnodes, -, hsend, hseq⟩ := hstep e ht
    have hhead : (nodes t x).seqNum = (nodes s x).seqNum + if sender e = some x then 1 else 0 := by
      by_cases hx : x = i
      · subst hx
        rw [hnodes, Function.update_self, hseq]
      · have hnot : sender e ≠ some x := fun he => hx (hsend x he).symm
        rw [hnodes, Function.update_of_ne hx, if_neg hnot]
        rfl
    rw [ih hrest, hhead, List.countP_cons]
    simp only [decide_eq_true_eq]
    omega

theorem exec_seqNum_lt {s s' : σ} {es : List ε} (h : exec step s es = some s') {e : ε}
    (he : e ∈ es) {x : Fin N} (hx : sender e = some x) :
    (nodes s x).seqNum < (nodes s' x).seqNum := by
  have hpos : 0 < es.countP (sender · = some x) :=
    List.countP_pos_iff.mpr ⟨e, he, by simpa using hx⟩
  rw [exec_seqNum hstep h x]
  omega

end Runs

end UniformBroadcast.Sequencer
