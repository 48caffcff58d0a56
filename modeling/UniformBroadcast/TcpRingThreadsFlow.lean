import UniformBroadcast.TcpRingThreads

/-!
# What each thread has still to do

For each sender, the sequence numbers of the broadcasts and those of the acknowledgements
that a node has read, has written and holds in its vectors differ only by the message that
a thread is about to treat. On every connection the acknowledgements of a sender follow its
broadcasts.
-/

namespace UniformBroadcast.TcpRing

open Sequencer TransitionRuns

variable {N : ℕ}

/-! ## Sequence numbers -/

/-- The sequence numbers of the broadcasts of `x`, in the order of the list. -/
def bseqs (x : Fin N) : List (Msg N) → List ℕ
  | [] => []
  | .b m :: l => if m.idProcess = x then m.seq :: bseqs x l else bseqs x l
  | .a _ :: l => bseqs x l

/-- The sequence numbers of the acknowledgements of broadcasts of `x`. -/
def aseqs (x : Fin N) : List (Msg N) → List ℕ
  | [] => []
  | .b _ :: l => aseqs x l
  | .a k :: l => if k.idProcess = x then k.seq :: aseqs x l else aseqs x l

section Seqs

variable (x : Fin N)

@[simp] theorem bseqs_nil : bseqs x [] = [] := rfl

@[simp] theorem aseqs_nil : aseqs x [] = [] := rfl

@[simp] theorem bseqs_append (l k : List (Msg N)) : bseqs x (l ++ k) = bseqs x l ++ bseqs x k := by
  induction l with
  | nil => rfl
  | cons m l ih =>
    cases m with
    | b m => by_cases h : m.idProcess = x <;> simp [bseqs, ih, h]
    | a k => simp [bseqs, ih]

@[simp] theorem aseqs_append (l k : List (Msg N)) : aseqs x (l ++ k) = aseqs x l ++ aseqs x k := by
  induction l with
  | nil => rfl
  | cons m l ih =>
    cases m with
    | b m => simp [aseqs, ih]
    | a k => by_cases h : k.idProcess = x <;> simp [aseqs, ih, h]

theorem bseqs_b (m : Bcast N) : bseqs x [.b m] = if m.idProcess = x then [m.seq] else [] := rfl

theorem aseqs_a (k : Ack N) : aseqs x [.a k] = if k.idProcess = x then [k.seq] else [] := rfl

@[simp] theorem bseqs_a (k : Ack N) : bseqs x [.a k] = [] := rfl

@[simp] theorem aseqs_b (m : Bcast N) : aseqs x [.b m] = [] := rfl

theorem bseqs_mono {l k : List (Msg N)} (h : l <+: k) : bseqs x l <+: bseqs x k := by
  obtain ⟨t, rfl⟩ := h
  rw [bseqs_append]
  exact List.prefix_append _ _

theorem aseqs_mono {l k : List (Msg N)} (h : l <+: k) : aseqs x l <+: aseqs x k := by
  obtain ⟨t, rfl⟩ := h
  rw [aseqs_append]
  exact List.prefix_append _ _

end Seqs

/-! ## What a thread holds -/

/-- The broadcast of its own that the sender thread has not written yet. -/
def SendPc.unsent : SendPc N → List (Msg N)
  | .broadcastMsg m => [.b m]
  | _ => []

/-- The broadcast that it has written and not saved yet. -/
def SendPc.unsaved : SendPc N → List (Msg N)
  | .save m => [.b m]
  | _ => []

/-- At the leader, the broadcast that it has written and not acknowledged yet. -/
def SendPc.unacked : SendPc N → List (Msg N)
  | .save m | .update m _ | .count m _ | .prepareAck m _ => [.b m]
  | .broadcastAck k => [.b ⟨k.idProcess, k.seq, 0⟩]
  | _ => []

/-- The broadcast that the receiver thread has still to transfer. -/
def RecvPc.untransferred : RecvPc N → List (Msg N)
  | .transferMsg m => [.b m]
  | _ => []

def RecvPc.unsaved : RecvPc N → List (Msg N)
  | .transferMsg m | .update m | .save m => [.b m]
  | _ => []

def RecvPc.unacked : RecvPc N → List (Msg N)
  | .transferMsg m | .update m | .save m | .count m _ | .prepareAck m _ => [.b m]
  | .broadcastAck k => [.b ⟨k.idProcess, k.seq, 0⟩]
  | _ => []

/-- The acknowledgement whose broadcast it has still to move. -/
def RecvPc.unmoved : RecvPc N → List (Msg N)
  | .move k => [.a k]
  | _ => []

/-- The acknowledgement that it has still to transfer. -/
def RecvPc.unforwarded : RecvPc N → List (Msg N)
  | .move k | .learn k | .transferAck k => [.a k]
  | _ => []

/-- The broadcast that the sender thread is about to save. -/
def SendPc.toSave : SendPc N → Option (Bcast N)
  | .save m => some m
  | _ => none

/-- The acknowledgement whose broadcast the receiver thread is about to move. -/
def RecvPc.toMove : RecvPc N → Option (Ack N)
  | .move k => some k
  | _ => none

theorem SendPc.toSave_eq {pc : SendPc N} {m : Bcast N} (h : pc.toSave = some m) :
    pc = .save m := by
  cases pc with
  | save m' => exact congrArg _ (Option.some.inj h)
  | ready | broadcastMsg | update | count | prepareAck | broadcastAck => cases h

theorem RecvPc.toMove_eq {pc : RecvPc N} {k : Ack N} (h : pc.toMove = some k) : pc = .move k := by
  cases pc with
  | move k' => exact congrArg _ (Option.some.inj h)
  | ready | transferMsg | update | save | count | prepareAck | broadcastAck | learn
  | transferAck => cases h

/-- What the sender thread of a node may hold. -/
def SendPc.Fits (self : Fin N) : SendPc N → Prop
  | .ready => True
  | .broadcastMsg m | .save m => m.idProcess = self
  | .update m _ | .count m _ | .prepareAck m _ => m.idProcess = self ∧ self.val = 0
  | .broadcastAck k => k.idProcess = self ∧ self.val = 0

/-- What the receiver thread of a node may hold. -/
def RecvPc.Fits (self : Fin N) : RecvPc N → Prop
  | .ready => True
  | .transferMsg m => m.idProcess ≠ self ∧ m.idProcess ≠ getSuccessor self
  | .update m | .save m => m.idProcess ≠ self
  | .count m _ | .prepareAck m _ => m.idProcess ≠ self ∧ self.val = 0
  | .broadcastAck k => k.idProcess ≠ self ∧ self.val = 0
  | .move _ | .learn _ => self.val ≠ 0
  | .transferAck _ => self.val ≠ 0 ∧ (self.val + 1) % N ≠ 0

/-- What the broadcasts of `x` that a node reaches are compared with: those it has written
when they are its own, else those it has read. -/
def known (self x : Fin N) (wrote took : List (Msg N)) : List ℕ :=
  if x = self then bseqs x wrote else bseqs x took

/-- What a node has read, written and holds. -/
structure Told (i : Fin N) (t : Threads N) (wrote took : List (Msg N)) : Prop where
  sender : t.sender.Fits i
  receiver : t.receiver.Fits i
  own : bseqs i wrote ++ bseqs i t.sender.unsent = List.range' 1 t.node.seqNum
  transferred : ∀ x, x ≠ i → x ≠ getSuccessor i →
    bseqs x wrote ++ bseqs x t.receiver.untransferred = bseqs x took
  notBack : bseqs (getSuccessor i) wrote = []
  acked : i.val = 0 → ∀ x, aseqs x wrote ++
    bseqs x (if x = i then t.sender.unacked else t.receiver.unacked) = known i x wrote took
  forwarded : i.val ≠ 0 → ∀ x, if (i.val + 1) % N = 0 then aseqs x wrote = []
    else aseqs x wrote ++ aseqs x t.receiver.unforwarded = aseqs x took
  held : i.val ≠ 0 → ∀ x, ∃ moved, moved ++ aseqs x t.receiver.unmoved = aseqs x took ∧
    moved ++ (t.node.vectorNoAck x).map Bcast.seq ++
      bseqs x (if x = i then t.sender.unsaved else t.receiver.unsaved) = known i x wrote took
  names : i.val ≠ 0 → ∀ x, ∀ m ∈ t.node.vectorNoAck x, m.idProcess = x

/-- The broadcast that the acknowledgement names heads the queue of its sender. -/
def HeadNamed (n : Node N) (k : Ack N) : Prop :=
  ∃ m held, n.vectorNoAck k.idProcess = m :: held ∧ m.idProcess = k.idProcess ∧ m.seq = k.seq

section Steps

variable {self : Fin N} {t : Threads N} {wrote took : List (Msg N)}

/-- A step of the sender thread. -/
theorem told_sendThread (hN : 2 ≤ N) (ht : Told self t wrote took) :
    Told self (sendThread self t).1 (wrote ++ (sendThread self t).2) took := by
  have hsucc := getSuccessor_ne_self hN self
  obtain ⟨n, sender, receiver⟩ := t
  obtain ⟨hsender, hreceiver, hown, htransferred, hback, hacked, hforwarded, hheld, hnames⟩ := ht
  cases sender with
  | ready =>
    simp only [sendThread, List.append_nil]
    refine ⟨rfl, hreceiver, ?_, htransferred, hback, hacked, hforwarded, hheld, hnames⟩
    have hown' : bseqs self wrote = List.range' 1 n.seqNum := by simpa [SendPc.unsent] using hown
    simp [SendPc.unsent, bseqs_b, hown', List.range'_1_concat, Nat.add_comm]
  | broadcastMsg m =>
    have hid : m.idProcess = self := hsender
    have hother : ∀ x, x ≠ self → bseqs x (wrote ++ [.b m]) = bseqs x wrote := by
      intro x hx
      simp [bseqs_b, hid, Ne.symm hx]
    have hself : bseqs self (wrote ++ [.b m]) = bseqs self wrote ++ [m.seq] := by
      simp [bseqs_b, hid]
    have haseqs : ∀ x, aseqs x (wrote ++ [.b m]) = aseqs x wrote := by
      intro x
      simp
    simp only [sendThread]
    refine ⟨hid, hreceiver, ?_, ?_, ?_, ?_, ?_, ?_, hnames⟩
    · simpa [SendPc.unsent, hself, bseqs_b, hid] using hown
    · intro x hx hx'
      rw [hother x hx]
      exact htransferred x hx hx'
    · rw [hother _ hsucc]
      exact hback
    · intro hleader x
      have h := hacked hleader x
      rw [haseqs]
      by_cases hx : x = self
      · subst hx
        simpa [known, SendPc.unacked, hself, bseqs_b, hid] using h
      · simpa [known, hx] using h
    · intro hleader x
      rw [haseqs]
      exact hforwarded hleader x
    · intro hleader x
      obtain ⟨moved, hmoved, h⟩ := hheld hleader x
      refine ⟨moved, hmoved, ?_⟩
      by_cases hx : x = self
      · subst hx
        have h' : moved ++ (n.vectorNoAck x).map Bcast.seq = bseqs x wrote := by
          simpa [known, SendPc.unsaved] using h
        simp [known, SendPc.unsaved, hself, bseqs_b, hid, h']
      · simpa [known, hx] using h
  | save m =>
    have hid : m.idProcess = self := hsender
    by_cases hleader : self.val = 0
    · simp only [sendThread, hleader, if_true, List.append_nil]
      refine ⟨⟨hid, hleader⟩, hreceiver, hown, htransferred, hback, hacked, hforwarded, ?_, ?_⟩
      · exact fun h => absurd hleader h
      · exact fun h => absurd hleader h
    · simp only [sendThread, hleader, if_false, List.append_nil]
      refine ⟨trivial, hreceiver, hown, htransferred, hback, ?_, hforwarded, ?_, ?_⟩
      · exact fun h => absurd h hleader
      · intro _ x
        obtain ⟨moved, hmoved, h⟩ := hheld hleader x
        refine ⟨moved, hmoved, ?_⟩
        dsimp only at h ⊢
        rw [saveMsgInVectorNoAck_vectorNoAck]
        by_cases hx : x = self
        · subst hx
          simpa [SendPc.unsaved, bseqs_b, hid] using h
        · simpa [hx, hid] using h
      · intro _ x m' hm'
        rw [saveMsgInVectorNoAck_vectorNoAck] at hm'
        rcases List.mem_append.mp hm' with hm' | hm'
        · exact hnames hleader x m' hm'
        · split at hm'
          · rename_i hx
            obtain rfl := List.mem_singleton.mp hm'
            exact hx.symm
          · cases hm'
  | update m p =>
    obtain ⟨hid, hleader⟩ := hsender
    simp only [sendThread, List.append_nil]
    refine ⟨⟨hid, hleader⟩, hreceiver, ?_, htransferred, hback, hacked, hforwarded, ?_, ?_⟩
    · rw [updateVector, updateVectorBy_seqNum]
      exact hown
    · exact fun h => absurd hleader h
    · exact fun h => absurd hleader h
  | count m p =>
    simp only [sendThread, List.append_nil]
    exact ⟨hsender, hreceiver, hown, htransferred, hback, hacked, hforwarded, hheld, hnames⟩
  | prepareAck m p =>
    obtain ⟨hid, hleader⟩ := hsender
    simp only [sendThread, List.append_nil]
    refine ⟨⟨hid, hleader⟩, hreceiver, hown, htransferred, hback, ?_, hforwarded, ?_, ?_⟩
    · intro _ x
      have h := hacked hleader x
      by_cases hx : x = self
      · simpa [hx, SendPc.unacked, bseqs_b] using h
      · simpa [hx] using h
    · exact fun h => absurd hleader h
    · exact fun h => absurd hleader h
  | broadcastAck k =>
    obtain ⟨hid, hleader⟩ := hsender
    have hbseqs : ∀ x, bseqs x (wrote ++ [.a k]) = bseqs x wrote := by
      intro x
      simp
    simp only [sendThread]
    refine ⟨trivial, hreceiver, ?_, ?_, ?_, ?_, ?_, ?_, ?_⟩
    · rw [hbseqs]
      exact hown
    · intro x hx hx'
      rw [hbseqs]
      exact htransferred x hx hx'
    · rw [hbseqs]
      exact hback
    · intro _ x
      have h := hacked hleader x
      by_cases hx : x = self
      · subst hx
        simpa [known, SendPc.unacked, bseqs_b, aseqs_a, hid] using h
      · simpa [known, hx, aseqs_a, hid, Ne.symm hx] using h
    · exact fun h => absurd hleader h
    · exact fun h => absurd hleader h
    · exact fun h => absurd hleader h

/-- The receiver thread takes a message that is not a broadcast of the node itself. -/
theorem told_receiveMsg (ht : Told self t wrote took) (hready : t.receiver = .ready)
    {message : Msg N} (hother : ∀ m, message = .b m → m.idProcess ≠ self) :
    Told self (receiveMsg self message t) wrote (took ++ [message]) := by
  obtain ⟨n, sender, receiver⟩ := t
  obtain ⟨hsender, hreceiver, hown, htransferred, hback, hacked, hforwarded, hheld, hnames⟩ := ht
  obtain rfl : receiver = .ready := hready
  have hlisted : ∀ x, x ≠ self → x ≠ getSuccessor self → bseqs x wrote = bseqs x took := by
    intro x hx hx'
    simpa [RecvPc.untransferred] using htransferred x hx hx'
  cases message with
  | b m =>
    have hne := hother m rfl
    -- the next call of the handler and what it holds
    obtain ⟨pc, hpc, hfits, huntransferred, hunsaved, hunacked, hunmoved, hunforwarded⟩ :
        ∃ pc : RecvPc N, receiveMsg self (.b m) ⟨n, sender, .ready⟩ = ⟨n, sender, pc⟩ ∧
          pc.Fits self ∧
          (∀ x, x ≠ getSuccessor self → bseqs x pc.untransferred = bseqs x [.b m]) ∧
          pc.unsaved = [.b m] ∧ pc.unacked = [.b m] ∧ pc.unmoved = [] ∧ pc.unforwarded = [] := by
      by_cases hsucc : self = getPredecessor m.idProcess
      · have hid : getSuccessor self = m.idProcess := (getSuccessor_eq_iff _ _).mpr hsucc
        refine ⟨.update m, ?_, hne, ?_, rfl, rfl, rfl, rfl⟩
        · rw [receiveMsg, if_neg (not_not.mpr hsucc)]
        · intro x hx
          rw [hid] at hx
          simp [RecvPc.untransferred, bseqs_b, Ne.symm hx]
      · have hid : m.idProcess ≠ getSuccessor self := by
          intro h
          exact hsucc ((getSuccessor_eq_iff _ _).mp h.symm)
        refine ⟨.transferMsg m, ?_, ⟨hne, hid⟩, fun _ _ => rfl, rfl, rfl, rfl, rfl⟩
        rw [receiveMsg, if_pos hsucc]
    rw [hpc]
    refine ⟨hsender, hfits, hown, ?_, hback, ?_, ?_, ?_, hnames⟩
    · intro x hx hx'
      rw [hlisted x hx hx', huntransferred x hx', bseqs_append]
    · intro hleader x
      have h := hacked hleader x
      by_cases hx : x = self
      · simpa [known, hx] using h
      · have h' : aseqs x wrote = bseqs x took := by simpa [known, hx, RecvPc.unacked] using h
        simp [known, hx, hunacked, h']
    · intro hleader x
      have h := hforwarded hleader x
      simp only [hunforwarded, aseqs_append, aseqs_b, aseqs_nil, List.append_nil]
      simpa [RecvPc.unforwarded] using h
    · intro hleader x
      obtain ⟨moved, hmoved, h⟩ := hheld hleader x
      have hall : moved = aseqs x took := by simpa [RecvPc.unmoved] using hmoved
      refine ⟨moved, ?_, ?_⟩
      · simp [hunmoved, hall]
      · by_cases hx : x = self
        · simpa [known, hx] using h
        · have h' : moved ++ (n.vectorNoAck x).map Bcast.seq = bseqs x took := by
            simpa [known, hx, RecvPc.unsaved] using h
          simp [known, hx, hunsaved, ← h']
  | a k =>
    by_cases hleader : self.val = 0
    · have hpc : receiveMsg self (.a k) ⟨n, sender, .ready⟩ = ⟨n, sender, .ready⟩ := by
        rw [receiveMsg, if_neg (not_not.mpr hleader)]
      rw [hpc]
      refine ⟨hsender, trivial, hown, ?_, hback, ?_, ?_, ?_, ?_⟩
      · intro x hx hx'
        simpa [RecvPc.untransferred] using hlisted x hx hx'
      · intro _ x
        simpa [known] using hacked hleader x
      · exact fun h => absurd hleader h
      · exact fun h => absurd hleader h
      · exact fun h => absurd hleader h
    · have hpc : receiveMsg self (.a k) ⟨n, sender, .ready⟩ = ⟨n, sender, .move k⟩ := by
        rw [receiveMsg, if_pos hleader]
      rw [hpc]
      refine ⟨hsender, hleader, hown, ?_, hback, ?_, ?_, ?_, hnames⟩
      · intro x hx hx'
        simpa [RecvPc.untransferred] using hlisted x hx hx'
      · exact fun h => absurd h hleader
      · intro _ x
        have h := hforwarded hleader x
        split
        · rename_i hlast
          rwa [if_pos hlast] at h
        · rename_i hlast
          rw [if_neg hlast] at h
          simpa [RecvPc.unforwarded] using h
      · intro _ x
        obtain ⟨moved, hmoved, h⟩ := hheld hleader x
        refine ⟨moved, ?_, ?_⟩
        · simpa [RecvPc.unmoved] using hmoved
        · simpa [known, RecvPc.unsaved] using h

/-- A step of the receiver thread; a `move` must find the broadcast that it names. -/
theorem told_recvThread (ht : Told self t wrote took) (hbusy : t.receiver ≠ .ready)
    (hmove : ∀ k ∈ t.receiver.toMove, HeadNamed t.node k) :
    Told self (recvThread self t).1 (wrote ++ (recvThread self t).2) took := by
  obtain ⟨n, sender, receiver⟩ := t
  obtain ⟨hsender, hreceiver, hown, htransferred, hback, hacked, hforwarded, hheld, hnames⟩ := ht
  cases receiver with
  | ready => exact absurd rfl hbusy
  | transferMsg m =>
    obtain ⟨hne, hnotsucc⟩ := hreceiver
    have haseqs : ∀ x, aseqs x (wrote ++ [.b m]) = aseqs x wrote := by
      intro x
      simp
    have hself : bseqs self (wrote ++ [.b m]) = bseqs self wrote := by
      simp [bseqs_b, hne]
    have hknown : ∀ x, known self x (wrote ++ [.b m]) took = known self x wrote took := by
      intro x
      by_cases hx : x = self
      · simp only [known, hx, if_true, hself]
      · simp only [known, hx, if_false]
    simp only [recvThread]
    refine ⟨hsender, hne, ?_, ?_, ?_, ?_, ?_, ?_, hnames⟩
    · rw [hself]
      exact hown
    · intro x hx hx'
      simpa [RecvPc.untransferred] using htransferred x hx hx'
    · simpa [bseqs_b, hnotsucc] using hback
    · intro hleader x
      rw [haseqs, hknown]
      exact hacked hleader x
    · intro hleader x
      rw [haseqs]
      exact hforwarded hleader x
    · intro hleader x
      rw [hknown]
      exact hheld hleader x
  | update m =>
    simp only [recvThread, List.append_nil]
    refine ⟨hsender, hreceiver, ?_, htransferred, hback, hacked, hforwarded, ?_, ?_⟩
    · rw [updateVector, updateVectorBy_seqNum]
      exact hown
    · rw [updateVector, updateVectorBy_vectorNoAck]
      exact hheld
    · rw [updateVector, updateVectorBy_vectorNoAck]
      exact hnames
  | save m =>
    by_cases hleader : self.val = 0
    · simp only [recvThread, hleader, if_true, List.append_nil]
      refine ⟨hsender, ⟨hreceiver, hleader⟩, hown, htransferred, hback, hacked, hforwarded, ?_, ?_⟩
      · exact fun h => absurd hleader h
      · exact fun h => absurd hleader h
    · simp only [recvThread, hleader, if_false, List.append_nil]
      refine ⟨hsender, trivial, hown, htransferred, hback, ?_, hforwarded, ?_, ?_⟩
      · exact fun h => absurd h hleader
      · intro _ x
        obtain ⟨moved, hmoved, h⟩ := hheld hleader x
        refine ⟨moved, hmoved, ?_⟩
        dsimp only at h ⊢
        rw [saveMsgInVectorNoAck_vectorNoAck]
        by_cases hx : x = self
        · have hne : self ≠ m.idProcess := fun h => hreceiver h.symm
          simpa [hx, hne] using h
        · by_cases hid : m.idProcess = x
          · simpa [hx, RecvPc.unsaved, bseqs_b, hid] using h
          · simpa [hx, RecvPc.unsaved, bseqs_b, hid, Ne.symm hid] using h
      · intro _ x m' hm'
        rw [saveMsgInVectorNoAck_vectorNoAck] at hm'
        rcases List.mem_append.mp hm' with hm' | hm'
        · exact hnames hleader x m' hm'
        · split at hm'
          · rename_i hx
            obtain rfl := List.mem_singleton.mp hm'
            exact hx.symm
          · cases hm'
  | count m p =>
    simp only [recvThread, List.append_nil]
    exact ⟨hsender, hreceiver, hown, htransferred, hback, hacked, hforwarded, hheld, hnames⟩
  | prepareAck m p =>
    obtain ⟨hid, hleader⟩ := hreceiver
    simp only [recvThread, List.append_nil]
    refine ⟨hsender, ⟨hid, hleader⟩, hown, htransferred, hback, ?_, hforwarded, ?_, ?_⟩
    · intro _ x
      have h := hacked hleader x
      by_cases hx : x = self
      · simpa [hx] using h
      · simpa [hx, RecvPc.unacked, bseqs_b] using h
    · exact fun h => absurd hleader h
    · exact fun h => absurd hleader h
  | broadcastAck k =>
    obtain ⟨hid, hleader⟩ := hreceiver
    have hbseqs : ∀ x, bseqs x (wrote ++ [.a k]) = bseqs x wrote := by
      intro x
      simp
    simp only [recvThread]
    refine ⟨hsender, trivial, ?_, ?_, ?_, ?_, ?_, ?_, ?_⟩
    · rw [hbseqs]
      exact hown
    · intro x hx hx'
      rw [hbseqs]
      exact htransferred x hx hx'
    · rw [hbseqs]
      exact hback
    · intro _ x
      have h := hacked hleader x
      by_cases hx : x = self
      · simpa [known, hx, aseqs_a, hid] using h
      · simpa [known, hx, RecvPc.unacked, bseqs_b, aseqs_a] using h
    · exact fun h => absurd hleader h
    · exact fun h => absurd hleader h
    · exact fun h => absurd hleader h
  | move k =>
    obtain ⟨m, rest, hqueue, hid, hseq⟩ := hmove k rfl
    have hleader : self.val ≠ 0 := hreceiver
    simp only [recvThread, List.append_nil]
    refine ⟨hsender, hleader, hown, htransferred, hback, ?_, hforwarded, ?_, ?_⟩
    · exact fun h => absurd h hleader
    · intro _ x
      obtain ⟨moved, hmoved, h⟩ := hheld hleader x
      refine ⟨moved ++ aseqs x [.a k], ?_, ?_⟩
      · simpa [RecvPc.unmoved] using hmoved
      · rw [← h]
        by_cases hx : x = k.idProcess
        · have hvec : n.vectorNoAck k.idProcess = m :: rest := hqueue
          simp [moveMsgInVectorAck, hx, hvec, aseqs_a, ← hseq, RecvPc.unsaved]
        · simp [moveMsgInVectorAck, hx, aseqs_a, Ne.symm hx, RecvPc.unsaved]
    · intro _ x m' hm'
      by_cases hx : x = k.idProcess
      · subst hx
        have htail : m' ∈ (n.vectorNoAck k.idProcess).tail := by
          simpa [moveMsgInVectorAck] using hm'
        exact hnames hleader _ m' (List.mem_of_mem_tail htail)
      · have hold : m' ∈ n.vectorNoAck x := by simpa [moveMsgInVectorAck, hx] using hm'
        exact hnames hleader x m' hold
  | learn k =>
    have hleader : self.val ≠ 0 := hreceiver
    by_cases hlast : (self.val + 1) % N = 0
    · simp only [recvThread, hlast, ne_eq, not_true_eq_false, if_false, List.append_nil]
      refine ⟨hsender, trivial, hown, htransferred, hback, ?_, ?_, hheld, hnames⟩
      · exact fun h => absurd h hleader
      · intro _ x
        have h := hforwarded hleader x
        rw [if_pos hlast] at h ⊢
        exact h
    · simp only [recvThread, hlast, ne_eq, not_false_eq_true, if_true, List.append_nil]
      refine ⟨hsender, ⟨hleader, hlast⟩, hown, htransferred, hback, ?_, hforwarded, hheld, hnames⟩
      exact fun h => absurd h hleader
  | transferAck k =>
    obtain ⟨hleader, hlast⟩ := hreceiver
    have hbseqs : ∀ x, bseqs x (wrote ++ [.a k]) = bseqs x wrote := by
      intro x
      simp
    simp only [recvThread]
    refine ⟨hsender, trivial, ?_, ?_, ?_, ?_, ?_, ?_, hnames⟩
    · rw [hbseqs]
      exact hown
    · intro x hx hx'
      rw [hbseqs]
      exact htransferred x hx hx'
    · rw [hbseqs]
      exact hback
    · exact fun h => absurd h hleader
    · intro _ x
      have h := hforwarded hleader x
      rw [if_neg hlast] at h ⊢
      simpa [RecvPc.unforwarded] using h
    · intro _ x
      have hknown : known self x (wrote ++ [.a k]) took = known self x wrote took := by
        rw [known, known, hbseqs]
      rw [hknown]
      exact hheld hleader x

end Steps

/-! ## The whole ring -/

/-- Every node has done what its threads tell; on every connection, and around the ring, the
acknowledgements of a sender follow its broadcasts. -/
structure AcksFollow (s : ThreadedRing N) : Prop where
  told : ∀ j, Told j (s.threads j) (s.wrote j) (s.took j)
  flow : ∀ j, s.wrote (getPredecessor j) = s.took j ++ s.inbox j
  upstream : ∀ x j, bseqs x (s.wrote j) <+: bseqs x (s.wrote x)
  returned : ∀ x, aseqs x (s.wrote (getPredecessor x)) <+: bseqs x (s.wrote x)
  behind : ∀ j x, x ≠ getSuccessor j → ∀ l, l <+: s.wrote j → aseqs x l <+: bseqs x l

theorem acksFollow_initial : AcksFollow (ThreadedRing.initial : ThreadedRing N) where
  told j := by
    refine ⟨trivial, trivial, rfl, fun _ _ _ => rfl, rfl, ?_, ?_, ?_, ?_⟩
    · intro _ x
      by_cases hx : x = j <;> simp [known, hx, ThreadedRing.initial, SendPc.unacked, RecvPc.unacked]
    · intro _ x
      split <;> rfl
    · intro _ x
      refine ⟨[], rfl, ?_⟩
      by_cases hx : x = j <;>
        simp [known, hx, ThreadedRing.initial, SendPc.unsaved, RecvPc.unsaved, Node.initial]
    · intro _ x m hm
      cases hm
  flow _ := rfl
  upstream _ _ := List.prefix_rfl
  returned _ := List.prefix_rfl
  behind j x _ l hl := by
    rw [List.prefix_nil.mp hl]
    exact List.prefix_rfl

section Ring

variable {s : ThreadedRing N} {i : Fin N}

theorem AcksFollow.took_prefix (hs : AcksFollow s) (j : Fin N) :
    s.took j <+: s.wrote (getPredecessor j) := ⟨s.inbox j, (hs.flow j).symm⟩

/-- The acknowledgements that a node has read name broadcasts that it has read or, its own,
written. -/
theorem AcksFollow.took_known (hs : AcksFollow s) (j x : Fin N) :
    aseqs x (s.took j) <+: known j x (s.wrote j) (s.took j) := by
  rw [known]
  split
  · rename_i hx
    subst hx
    exact (aseqs_mono x (hs.took_prefix x)).trans (hs.returned x)
  · rename_i hx
    apply hs.behind (getPredecessor j) x _ _ (hs.took_prefix j)
    rwa [getSuccessor_getPredecessor]

/-- No broadcast comes back to its sender. -/
theorem AcksFollow.not_back (hs : AcksFollow s) {j : Fin N} {m : Bcast N} {rest : List (Msg N)}
    (hinbox : s.inbox j = .b m :: rest) : m.idProcess ≠ j := by
  intro hid
  have hback := (hs.told (getPredecessor j)).notBack
  rw [getSuccessor_getPredecessor, hs.flow j, hinbox, bseqs_append, bseqs, if_pos hid] at hback
  simp at hback

theorem acksFollow_receive (hs : AcksFollow s) (hready : (s.threads i).receiver = .ready)
    {message : Msg N} {rest : List (Msg N)} (hinbox : s.inbox i = message :: rest) :
    AcksFollow (s.receive i message rest) where
  told j := by
    by_cases hj : j = i
    · subst hj
      have hother : ∀ m, message = .b m → m.idProcess ≠ j := by
        rintro m rfl
        exact hs.not_back hinbox
      simpa [ThreadedRing.receive] using told_receiveMsg (hs.told j) hready hother
    · simpa [ThreadedRing.receive, hj] using hs.told j
  flow j := by
    by_cases hj : j = i
    · subst hj
      simpa [ThreadedRing.receive, hinbox] using hs.flow j
    · simpa [ThreadedRing.receive, hj] using hs.flow j
  upstream := hs.upstream
  returned := hs.returned
  behind := hs.behind

/-- What a step of a thread may write: no acknowledgement, or one when all broadcasts read
before it have been transferred, unless the node is the leader. -/
def WritesInTurn (i : Fin N) (r : Threads N × List (Msg N)) : Prop :=
  (∀ x, aseqs x r.2 = []) ∨
    ∃ k, r.2 = [.a k] ∧ (i.val = 0 ∨ r.1.receiver.untransferred = [])

/-- After a step the acknowledgements that the node has written name broadcasts that it has
read or written before. -/
theorem AcksFollow.wrote_known (hs : AcksFollow s) {t : Threads N} {wrote : List (Msg N)}
    (ht : Told i t wrote (s.took i)) (hwrote : s.wrote i <+: wrote) (x : Fin N) :
    aseqs x wrote <+: known i x wrote (s.took i) := by
  by_cases hleader : i.val = 0
  · exact ⟨_, ht.acked hleader x⟩
  · have hforwarded := ht.forwarded hleader x
    have htook : aseqs x wrote <+: aseqs x (s.took i) := by
      split at hforwarded
      · rw [hforwarded]
        exact List.nil_prefix
      · exact ⟨_, hforwarded⟩
    apply (htook.trans (hs.took_known i x)).trans
    rw [known, known]
    split
    · exact bseqs_mono x hwrote
    · exact List.prefix_rfl

/-- The acknowledgement of another sender than the successor is behind its broadcast. -/
theorem AcksFollow.wrote_behind (hs : AcksFollow s) {t : Threads N} {wrote : List (Msg N)}
    (ht : Told i t wrote (s.took i)) (hwrote : s.wrote i <+: wrote)
    (hturn : i.val = 0 ∨ t.receiver.untransferred = []) {x : Fin N} (hx : x ≠ getSuccessor i) :
    aseqs x wrote <+: bseqs x wrote := by
  have hknown := hs.wrote_known ht hwrote x
  by_cases hself : x = i
  · rwa [known, if_pos hself] at hknown
  · have hlisted := ht.transferred x hself hx
    by_cases hfree : t.receiver.untransferred = []
    · rw [hfree, bseqs_nil, List.append_nil] at hlisted
      rwa [known, if_neg hself, ← hlisted] at hknown
    · -- the leader has still to transfer a broadcast, which it has not acknowledged either
      have hleader := hturn.resolve_right hfree
      have hacked := ht.acked hleader x
      rw [known, if_neg hself, if_neg hself, ← hlisted] at hacked
      have hsame : t.receiver.unacked = t.receiver.untransferred := by
        cases hpc : t.receiver with
        | transferMsg m => rfl
        | ready | update | save | count | prepareAck | broadcastAck | move | learn | transferAck =>
          rw [hpc] at hfree
          exact absurd rfl hfree
      rw [hsame] at hacked
      rw [List.append_cancel_right hacked]

theorem acksFollow_after (hN : 2 ≤ N) (hs : AcksFollow s) {r : Threads N × List (Msg N)}
    (hr : Told i r.1 (s.wrote i ++ r.2) (s.took i)) (hturn : WritesInTurn i r) :
    AcksFollow (s.after i r) := by
  have hsucc := getSuccessor_ne_self hN i
  have hgrows : s.wrote i <+: s.wrote i ++ r.2 := List.prefix_append _ _
  have hwrote : ∀ j, j ≠ i → (s.after i r).wrote j = s.wrote j := by
    intro j hj
    simp [ThreadedRing.after, hj]
  have hwrote_self : (s.after i r).wrote i = s.wrote i ++ r.2 := by simp [ThreadedRing.after]
  have hwrote_le : ∀ j, s.wrote j <+: (s.after i r).wrote j := by
    intro j
    by_cases hj : j = i
    · subst hj
      rw [hwrote_self]
      exact hgrows
    · rw [hwrote j hj]
  constructor
  case told =>
    intro j
    by_cases hj : j = i
    · subst hj
      simpa [ThreadedRing.after] using hr
    · simpa [ThreadedRing.after, hj] using hs.told j
  case flow =>
    intro j
    by_cases hj : j = getSuccessor i
    · subst hj
      rw [getPredecessor_getSuccessor, hwrote_self]
      have hflow := hs.flow (getSuccessor i)
      rw [getPredecessor_getSuccessor] at hflow
      simp [ThreadedRing.after, hflow]
    · have hpred : getPredecessor j ≠ i := fun h => hj ((getSuccessor_eq_iff i j).mpr h.symm).symm
      rw [hwrote _ hpred]
      simpa [ThreadedRing.after, hj] using hs.flow j
  case upstream =>
    intro x j
    by_cases hj : j = i
    · subst hj
      rw [hwrote_self]
      by_cases hx : x = j
      · subst hx
        rw [hwrote_self]
      · rw [hwrote x hx]
        by_cases hxs : x = getSuccessor j
        · rw [hxs, hr.notBack]
          exact List.nil_prefix
        · have hlisted : bseqs x (s.wrote j ++ r.2) <+: bseqs x (s.took j) :=
            ⟨_, hr.transferred x hx hxs⟩
          exact (hlisted.trans (bseqs_mono x (hs.took_prefix j))).trans (hs.upstream x _)
    · rw [hwrote j hj]
      exact (hs.upstream x j).trans (bseqs_mono x (hwrote_le x))
  case returned =>
    intro x
    by_cases hx : getPredecessor x = i
    · have hxs : x = getSuccessor i := ((getSuccessor_eq_iff i x).mpr hx.symm).symm
      have hne : x ≠ i := hxs ▸ hsucc
      rw [hx, hwrote_self, hwrote x hne]
      have hknown := hs.wrote_known hr hgrows x
      rw [known, if_neg hne] at hknown
      exact (hknown.trans (bseqs_mono x (hs.took_prefix i))).trans (hs.upstream x _)
    · rw [hwrote _ hx]
      exact (hs.returned x).trans (bseqs_mono x (hwrote_le x))
  case behind =>
    intro j x hx l hl
    by_cases hj : j = i
    · subst hj
      rw [hwrote_self] at hl
      rcases hturn with hnone | ⟨k, hk, hturn⟩
      · rcases List.prefix_or_prefix_of_prefix hl hgrows with hbefore | hafter
        · exact hs.behind j x hx l hbefore
        · have hsame : aseqs x l <+: aseqs x (s.wrote j) := by
            have h := aseqs_mono x hl
            rwa [aseqs_append, hnone x, List.append_nil] at h
          exact (hsame.trans (hs.behind j x hx _ List.prefix_rfl)).trans (bseqs_mono x hafter)
      · rw [hk] at hl
        rcases List.prefix_concat_iff.mp hl with rfl | hl
        · have hall := hs.wrote_behind hr hgrows hturn hx
          rwa [hk] at hall
        · exact hs.behind j x hx l hl
    · rw [hwrote j hj] at hl
      exact hs.behind j x hx l hl

end Ring

/-! ## The acknowledgement of one's own broadcast -/

/-- A `move` finds the broadcast that its acknowledgement names at the head of
`vector_no_ack`. -/
def FindsNamed (s : ThreadedRing N) : ThreadEvent N → Prop
  | .send _ => True
  | .recv i => ∀ k ∈ (s.threads i).receiver.toMove, HeadNamed (s.threads i).node k

/-- A `move` does not meet the acknowledgement of the broadcast that the sender thread of the
node has written and not saved yet. -/
def OwnSaved (s : ThreadedRing N) : ThreadEvent N → Prop
  | .send _ => True
  | .recv i => ∀ k ∈ (s.threads i).receiver.toMove, k.idProcess = i →
    ∀ m ∈ (s.threads i).sender.toSave, m.seq ≠ k.seq

instance OwnSaved.decidable (s : ThreadedRing N) :
    ∀ e : ThreadEvent N, Decidable (OwnSaved s e)
  | .send _ => inferInstanceAs (Decidable True)
  | .recv i => inferInstanceAs (Decidable (∀ k ∈ (s.threads i).receiver.toMove,
      k.idProcess = i → ∀ m ∈ (s.threads i).sender.toSave, m.seq ≠ k.seq))

theorem headNamed_iff {s : ThreadedRing N} (hs : AcksFollow s) {i : Fin N} {k : Ack N}
    (hk : (s.threads i).receiver = .move k) :
    HeadNamed (s.threads i).node k ↔
      (k.idProcess = i → ∀ m ∈ (s.threads i).sender.toSave, m.seq ≠ k.seq) := by
  have ht := hs.told i
  have hleader : i.val ≠ 0 := by
    have hfits := ht.receiver
    rwa [hk] at hfits
  obtain ⟨moved, hmoved, hheld⟩ := ht.held hleader k.idProcess
  have hknown := hs.took_known i k.idProcess
  rw [hk, RecvPc.unmoved, aseqs_a, if_pos rfl] at hmoved
  rw [← hmoved, ← hheld, List.append_assoc, List.prefix_append_right_inj] at hknown
  have hunsaved : (s.threads i).receiver.unsaved = [] := by rw [hk]; rfl
  rw [hunsaved] at hknown hheld
  constructor
  · rintro ⟨m', rest, hqueue, -, hseq⟩ hown m hsave heq
    have hsender := SendPc.toSave_eq hsave
    have hid : m.idProcess = i := by
      have hfits := ht.sender
      rwa [hsender] at hfits
    have hnodup : (bseqs i (s.wrote i)).Nodup := by
      have hall : (bseqs i (s.wrote i) ++ bseqs i (s.threads i).sender.unsent).Nodup := by
        rw [ht.own]
        exact List.nodup_range'
      exact (List.nodup_append.mp hall).1
    have hheld' : moved ++ (m' :: rest).map Bcast.seq ++ [m.seq] = bseqs i (s.wrote i) := by
      rw [known, if_pos hown, if_pos hown, hsender, hqueue, hown, SendPc.unsaved, bseqs_b,
        if_pos hid] at hheld
      exact hheld
    rw [← hheld'] at hnodup
    have hnot := (List.nodup_append.mp hnodup).2.2 m'.seq (by simp) m.seq (by simp)
    exact hnot (hseq.trans heq.symm)
  · intro hsaved
    cases hqueue : (s.threads i).node.vectorNoAck k.idProcess with
    | nil =>
      rw [hqueue, List.map_nil, List.nil_append] at hknown
      by_cases hown : k.idProcess = i
      · rw [if_pos hown] at hknown
        cases hsender : (s.threads i).sender with
        | save m =>
          rw [hsender, SendPc.unsaved, bseqs_b] at hknown
          split at hknown
          · have hseq : k.seq = m.seq := by simpa using hknown
            exact absurd hseq.symm (hsaved hown m (by rw [hsender]; rfl))
          · simp at hknown
        | ready | broadcastMsg | update | count | prepareAck | broadcastAck =>
          rw [hsender] at hknown
          simp [SendPc.unsaved] at hknown
      · rw [if_neg hown] at hknown
        simp at hknown
    | cons m rest =>
      rw [hqueue, List.map_cons, List.cons_append, List.cons_prefix_cons] at hknown
      have hid := ht.names hleader k.idProcess m (hqueue ▸ List.mem_cons_self)
      exact ⟨m, rest, hqueue, hid, hknown.1.symm⟩

theorem findsNamed_iff {s : ThreadedRing N} (hs : AcksFollow s) (e : ThreadEvent N) :
    FindsNamed s e ↔ OwnSaved s e := by
  cases e with
  | send i => exact Iff.rfl
  | recv i =>
    constructor
    · intro h k hk
      exact (headNamed_iff hs (RecvPc.toMove_eq hk)).mp (h k hk)
    · intro h k hk
      exact (headNamed_iff hs (RecvPc.toMove_eq hk)).mpr (h k hk)

/-! ## Every step -/

theorem writesInTurn_sendThread {i : Fin N} {t : Threads N} (ht : t.sender.Fits i) :
    WritesInTurn i (sendThread i t) := by
  obtain ⟨n, sender, receiver⟩ := t
  cases sender with
  | broadcastAck k => exact .inr ⟨k, rfl, .inl ht.2⟩
  | save m =>
    left
    intro x
    by_cases hleader : i.val = 0 <;> simp [sendThread, hleader]
  | ready | broadcastMsg | update | count | prepareAck => exact .inl fun _ => rfl

theorem writesInTurn_recvThread {i : Fin N} {t : Threads N} (ht : t.receiver.Fits i) :
    WritesInTurn i (recvThread i t) := by
  obtain ⟨n, sender, receiver⟩ := t
  cases receiver with
  | broadcastAck k => exact .inr ⟨k, rfl, .inl ht.2⟩
  | transferAck k => exact .inr ⟨k, rfl, .inr rfl⟩
  | save m =>
    left
    intro x
    by_cases hleader : i.val = 0 <;> simp [recvThread, hleader]
  | ready | transferMsg | update | count | prepareAck | move | learn => exact .inl fun _ => rfl

theorem acksFollow_step (hN : 2 ≤ N) {s s' : ThreadedRing N} {e : ThreadEvent N}
    (hs : AcksFollow s) (he : FindsNamed s e) (h : s.step e = some s') : AcksFollow s' := by
  cases e with
  | send i =>
    cases h
    have ht := hs.told i
    exact acksFollow_after hN hs (told_sendThread hN ht) (writesInTurn_sendThread ht.sender)
  | recv i =>
    rw [ThreadedRing.step] at h
    split at h
    · rename_i hready
      cases hinbox : s.inbox i with
      | nil =>
        rw [hinbox] at h
        cases h
      | cons message rest =>
        rw [hinbox] at h
        cases h
        exact acksFollow_receive hs hready hinbox
    · rename_i hbusy
      cases h
      have ht := hs.told i
      exact acksFollow_after hN hs (told_recvThread ht hbusy he)
        (writesInTurn_recvThread ht.receiver)

end UniformBroadcast.TcpRing
