import UniformBroadcast.UdpMulticastNetwork

/-!
# Acknowledgements under losses

A multicast network that may hand a datagram to a node any number of times, at any moment
after it was sent: it loses, duplicates and reorders. A follower that treats an
acknowledgement takes the oldest broadcast it holds of the sender, whatever the
acknowledgement names.
-/

namespace UniformBroadcast.UdpMulticast

open Sequencer TransitionRuns

variable {N : ℕ}

/-- The nodes, what each has sent, and what each was handed. -/
structure LossyNetwork (N : ℕ) where
  nodes : Fin N → Node N
  sent : Fin N → List (Msg N)
  handed : Fin N → List (Msg N)

/-- An iteration of `send_msg` at node `i`, or datagram number `t` of `x` handed to `i`. -/
inductive LossyEvent (N : ℕ) where
  | send (i : Fin N)
  | hand (i x : Fin N) (t : ℕ)
  deriving DecidableEq, Repr

def LossyNetwork.initial : LossyNetwork N where
  nodes := fun _ => Node.initial
  sent := fun _ => []
  handed := fun _ => []

def lossyStep (s : LossyNetwork N) : LossyEvent N → Option (LossyNetwork N)
  | .send i =>
    let r := sendMsg i (s.nodes i)
    some { s with
      nodes := Function.update s.nodes i r.1
      sent := Function.update s.sent i (s.sent i ++ r.2) }
  | .hand i x t => (s.sent x)[t]?.map fun d =>
    let r := handle i d (s.nodes i)
    { nodes := Function.update s.nodes i r.1
      sent := Function.update s.sent i (s.sent i ++ r.2)
      handed := Function.update s.handed i (s.handed i ++ [d]) }

/-- Treating the acknowledgement leaves `vector_ack` unchanged or appends the broadcast that
it names, which the node has received. -/
def MovesNamed (self : Fin N) (received : List (Msg N)) (n : Node N) (k : Ack N) : Prop :=
  (handleAck self k n).1.vectorAck = n.vectorAck ∨
    ∃ m : Bcast N, .b m ∈ received ∧ m.idProcess = k.idProcess ∧ m.seq = k.seq ∧
      (handleAck self k n).1.vectorAck = n.vectorAck ++ [⟨some m, confBits N⟩]

/-- `ok` holds of each acknowledgement that is handed to a node. -/
def AtAck (ok : LossyNetwork N → Fin N → Ack N → Prop) (s : LossyNetwork N) : LossyEvent N → Prop
  | .hand i x t => ∀ k, (s.sent x)[t]? = some (.a k) → ok s i k
  | .send _ => True

/-- The broadcasts of `x` in a list of datagrams. -/
def bcastsOf (x : Fin N) : List (Msg N) → List (Bcast N)
  | [] => []
  | .b m :: l => if m.idProcess = x then m :: bcastsOf x l else bcastsOf x l
  | .a _ :: l => bcastsOf x l

/-- How many acknowledgements of broadcasts of `x` a list of datagrams has. -/
def acksOf (x : Fin N) (l : List (Msg N)) : ℕ := ((acks l).filter (·.idProcess = x)).length

/-- The follower has been handed as many acknowledgements for this sender as broadcasts that
came before the one that `k` names. -/
def NamesNext (handed : List (Msg N)) (k : Ack N) : Prop :=
  ∃ m, (bcastsOf k.idProcess handed)[acksOf k.idProcess handed]? = some m ∧ m.seq = k.seq

theorem bcastsOf_append (x : Fin N) (l l' : List (Msg N)) :
    bcastsOf x (l ++ l') = bcastsOf x l ++ bcastsOf x l' := by
  induction l with
  | nil => rfl
  | cons d l ih =>
    cases d with
    | a k => exact ih
    | b m =>
      rw [List.cons_append, bcastsOf, bcastsOf, ih]
      split <;> rfl

theorem mem_bcastsOf {x : Fin N} {l : List (Msg N)} {m : Bcast N} :
    m ∈ bcastsOf x l ↔ .b m ∈ l ∧ m.idProcess = x := by
  induction l with
  | nil => simp [bcastsOf]
  | cons d l ih =>
    cases d with
    | a k => simpa [bcastsOf] using ih
    | b m' =>
      rw [bcastsOf]
      split
      · rename_i hx
        rw [List.mem_cons, ih, List.mem_cons, Msg.b.injEq, or_and_right]
        apply or_congr_left
        constructor
        · rintro rfl
          exact ⟨rfl, hx⟩
        · exact And.left
      · rename_i hx
        rw [ih, List.mem_cons, Msg.b.injEq, or_and_right, or_iff_right]
        rintro ⟨rfl, hm⟩
        exact hx hm

theorem acksOf_append (x : Fin N) (l : List (Msg N)) (d : Msg N) :
    acksOf x (l ++ [d]) = acksOf x l + match d with
      | .a k => if k.idProcess = x then 1 else 0
      | .b _ => 0 := by
  cases d with
  | a k =>
    rw [acksOf, acksOf, acks_append, List.filter_append, List.length_append]
    by_cases hx : k.idProcess = x <;> simp [acks, hx]
  | b m => simp [acksOf, acks]

/-- The follower holds the broadcasts of each sender that are not yet acknowledged. -/
def Holds (n : Node N) (handed : List (Msg N)) : Prop :=
  ∀ x, n.vectorNoAck x = (bcastsOf x handed).drop (acksOf x handed) ∧
    acksOf x handed ≤ (bcastsOf x handed).length

/-- The first broadcast held is the one that the follower appends. -/
theorem movesNamed_iff {self : Fin N} (hself : self.val ≠ 0) {n : Node N} {handed : List (Msg N)}
    (hn : Holds n handed) (k : Ack N) : MovesNamed self handed n k ↔ NamesNext handed k := by
  have hhead : (n.vectorNoAck k.idProcess).head? =
      (bcastsOf k.idProcess handed)[acksOf k.idProcess handed]? := by
    rw [(hn k.idProcess).1, List.head?_drop]
  have hvector : (handleAck self k n).1.vectorAck = n.vectorAck ++
      [⟨(bcastsOf k.idProcess handed)[acksOf k.idProcess handed]?, confBits N⟩] := by
    rw [handleAck_follower hself, ← hhead]
    rfl
  rw [MovesNamed, hvector, NamesNext]
  constructor
  · rintro (hsame | ⟨m, -, -, hseq, happend⟩)
    · simp at hsame
    · rw [List.append_cancel_left_eq, List.cons.injEq, MsgInfo.mk.injEq] at happend
      exact ⟨m, happend.1.1, hseq⟩
  · rintro ⟨m, hm, hseq⟩
    obtain ⟨hmem, hid⟩ := mem_bcastsOf.mp (List.mem_of_getElem? hm)
    exact .inr ⟨m, hmem, hid, hseq, by rw [hm]⟩

theorem holds_bcast {self : Fin N} (hself : self.val ≠ 0) {n : Node N} {handed : List (Msg N)}
    (hn : Holds n handed) (m : Bcast N) :
    Holds (handle self (.b m) n).1 (handed ++ [.b m]) := by
  intro x
  obtain ⟨hqueue, hle⟩ := hn x
  have hnew : bcastsOf x [.b m] = if x = m.idProcess then [m] else [] := by
    rw [bcastsOf, bcastsOf]
    exact if_congr eq_comm rfl rfl
  rw [handle, handleMsg_follower hself, updateVector, updateVectorBy_vectorNoAck,
    saveMsgInVectorNoAck_vectorNoAck, bcastsOf_append, acksOf_append, hnew, Nat.add_zero,
    List.drop_append_of_le_length hle, hqueue, List.length_append]
  exact ⟨rfl, hle.trans (Nat.le_add_right _ _)⟩

theorem holds_ack {self : Fin N} (hself : self.val ≠ 0) {n : Node N} {handed : List (Msg N)}
    (hn : Holds n handed) {k : Ack N} (hnext : NamesNext handed k) :
    Holds (handle self (.a k) n).1 (handed ++ [.a k]) := by
  intro x
  obtain ⟨hqueue, hle⟩ := hn x
  have hnil : bcastsOf x [.a k] = [] := rfl
  rw [handle, handleAck_follower hself, bcastsOf_append, acksOf_append, hnil, List.append_nil]
  by_cases hx : k.idProcess = x
  · subst hx
    obtain ⟨m, hm, -⟩ := hnext
    have hlt := (List.getElem?_eq_some_iff.mp hm).1
    simp only [moveMsgInVectorAck, Function.update_self, if_true]
    rw [hqueue, List.tail_drop]
    exact ⟨rfl, hlt⟩
  · simp only [moveMsgInVectorAck, if_neg hx, Nat.add_zero]
    rw [Function.update_of_ne (Ne.symm hx)]
    exact ⟨hqueue, hle⟩

/-- Every follower holds what is not yet acknowledged. -/
def AllHold (s : LossyNetwork N) : Prop :=
  ∀ i : Fin N, i.val ≠ 0 → Holds (s.nodes i) (s.handed i)

theorem allHold_initial : AllHold (LossyNetwork.initial : LossyNetwork N) := by
  intro i _ x
  exact ⟨rfl, Nat.le_refl 0⟩

theorem allHold_step {s s' : LossyNetwork N} {e : LossyEvent N} (hs : AllHold s)
    (hok : AtAck (fun s i k => i.val ≠ 0 → NamesNext (s.handed i) k) s e)
    (h : lossyStep s e = some s') : AllHold s' := by
  intro j hj
  cases e with
  | send i =>
    obtain rfl := Option.some.inj h
    by_cases hij : j = i
    · subst hij
      simp only [Function.update_self]
      exact hs j hj
    · simp only [Function.update_of_ne hij]
      exact hs j hj
  | hand i x t =>
    obtain ⟨d, hd, rfl⟩ := Option.map_eq_some_iff.mp h
    by_cases hij : j = i
    · subst hij
      simp only [Function.update_self]
      cases d with
      | b m => exact holds_bcast hj (hs j hj) m
      | a k => exact holds_ack hj (hs j hj) (hok k hd hj)
    · simp only [Function.update_of_ne hij]
      exact hs j hj

/-- The acknowledgements move the broadcasts that they name as long as each of them names the
first broadcast of its sender that the follower holds: as many acknowledgements for this
sender have come as broadcasts of this sender before it. -/
theorem acks_move_what_they_name (es : List (LossyEvent N)) :
    Along lossyStep (AtAck fun s i k => i.val ≠ 0 → MovesNamed i (s.handed i) (s.nodes i) k)
        LossyNetwork.initial es ↔
      Along lossyStep (AtAck fun s i k => i.val ≠ 0 → NamesNext (s.handed i) k)
        LossyNetwork.initial es := by
  have hiff : ∀ (s : LossyNetwork N) (e : LossyEvent N), AllHold s →
      (AtAck (fun s i k => i.val ≠ 0 → MovesNamed i (s.handed i) (s.nodes i) k) s e ↔
        AtAck (fun s i k => i.val ≠ 0 → NamesNext (s.handed i) k) s e) := by
    intro s e hs
    cases e with
    | send i => exact Iff.rfl
    | hand i x t =>
      apply forall_congr'
      intro k
      apply imp_congr_right
      intro _
      apply forall_congr'
      intro hi
      exact movesNamed_iff hi (hs i hi) k
  apply along_congr_of_inv hiff
  · intro s e s' hs hok h
    exact allHold_step hs ((hiff s e hs).mp hok) h
  · exact allHold_initial

/-- Node 1 sends twice, the leader acknowledges both, and the first broadcast does not reach
node 2. -/
def firstLost : List (LossyEvent 4) :=
  [.send 1, .send 1, .hand 0 1 0, .hand 0 1 1, .hand 2 1 1, .hand 2 0 0]

/-- Node 2 takes the second broadcast for the first. -/
theorem not_acks_move_what_they_name : ¬ Along lossyStep
    (AtAck fun s i k => i.val ≠ 0 → MovesNamed i (s.handed i) (s.nodes i) k)
    (LossyNetwork.initial : LossyNetwork 4) firstLost := by
  rintro ⟨-, h⟩
  obtain ⟨-, h⟩ := h _ rfl
  obtain ⟨-, h⟩ := h _ rfl
  obtain ⟨-, h⟩ := h _ rfl
  obtain ⟨-, h⟩ := h _ rfl
  have hmoves := (h _ rfl).1 ⟨1, 1, 1⟩ rfl (by decide)
  rcases hmoves with hsame | ⟨m, -, -, hseq, happend⟩
  · revert hsame
    decide
  · have hm : (⟨1, 2, 0⟩ : Bcast 4) = m :=
      Option.some.inj (congrArg MsgInfo.message (List.cons.inj happend).1)
    subst hm
    cases hseq

end UniformBroadcast.UdpMulticast
