import UniformBroadcast.TcpRingThreadsFlow

/-!
# The numbers that the two threads of the leader give

Both threads of the leader save a broadcast, count it and read the counter again to number
its acknowledgement. The numbers follow the order of the saves when a thread counts a
broadcast only after those saved before it, and not between the count and the read of the
other thread.
-/

namespace UniformBroadcast.TcpRing

open Sequencer TransitionRuns

variable {N : ℕ}

/-! ## What a thread of the leader has to number -/

/-- The broadcast that the thread has saved and not counted, with its index in `order`. -/
def SendPc.saved : SendPc N → List (Bcast N × ℕ)
  | .update m p | .count m p => [(m, p)]
  | _ => []

/-- The broadcast that it has counted and whose acknowledgement it has not prepared. -/
def SendPc.counted : SendPc N → List (Bcast N × ℕ)
  | .prepareAck m p => [(m, p)]
  | _ => []

/-- The acknowledgement that it has prepared and not written. -/
def SendPc.prepared : SendPc N → List (Ack N)
  | .broadcastAck k => [k]
  | _ => []

def RecvPc.saved : RecvPc N → List (Bcast N × ℕ)
  | .count m p => [(m, p)]
  | _ => []

def RecvPc.counted : RecvPc N → List (Bcast N × ℕ)
  | .prepareAck m p => [(m, p)]
  | _ => []

def RecvPc.prepared : RecvPc N → List (Ack N)
  | .broadcastAck k => [k]
  | _ => []

/-- The index of the broadcast that the thread is about to count. -/
def SendPc.toCount : SendPc N → Option ℕ
  | .count _ p => some p
  | _ => none

def RecvPc.toCount : RecvPc N → Option ℕ
  | .count _ p => some p
  | _ => none

/-- The acknowledgements among the messages. -/
def acksIn : List (Msg N) → List (Ack N)
  | [] => []
  | .b _ :: l => acksIn l
  | .a k :: l => k :: acksIn l

@[simp] theorem acksIn_append (l k : List (Msg N)) : acksIn (l ++ k) = acksIn l ++ acksIn k := by
  induction l with
  | nil => rfl
  | cons m l ih => cases m <;> simp [acksIn, ih]

/-- What one thread of the leader holds: broadcasts saved, broadcasts counted,
acknowledgements prepared. -/
structure Hand (N : ℕ) where
  saved : List (Bcast N × ℕ)
  counted : List (Bcast N × ℕ)
  prepared : List (Ack N)

def SendPc.hand (pc : SendPc N) : Hand N := ⟨pc.saved, pc.counted, pc.prepared⟩

def RecvPc.hand (pc : RecvPc N) : Hand N := ⟨pc.saved, pc.counted, pc.prepared⟩

/-- The numbers that the acknowledgements of a hand are to carry. -/
def Hand.numbers (h : Hand N) : List ℕ :=
  h.saved.map (fun e => e.2 + 1) ++ h.counted.map (fun e => e.2 + 1) ++ h.prepared.map Ack.revNum

/-- The entries of `order` and the acknowledgements that the leader has sent agree: an
acknowledgement names the entry of its number, no number is given twice, and none is missing
when neither thread has one to give. -/
structure NumbersOrder (t : Threads N) (sent : List (Ack N)) : Prop where
  names : ∀ k ∈ sent, ∃ p, Names t.node.order p k
  once : (sent.map Ack.revNum).Nodup
  all : t.sender.hand.numbers = [] → t.receiver.hand.numbers = [] →
    ∀ p < t.node.order.length, p + 1 ∈ sent.map Ack.revNum

/-! ## The invariant, for two hands in any order -/

/-- The broadcasts of a hand are where it says, the counter has not passed the ones it has
saved and stands just after the one it has counted. -/
structure Hand.Holds (h : Hand N) (order : List (Option (Bcast N))) (ackNum : ℕ) : Prop where
  entries : ∀ e ∈ h.saved ++ h.counted, order[e.2]? = some (some e.1)
  later : ∀ e ∈ h.saved, ackNum ≤ e.2
  last : ∀ e ∈ h.counted, e.2 + 1 = ackNum
  named : ∀ k ∈ h.prepared, ∃ p, Names order p k

/-- The numbers sent and those that the two hands have still to give are those of the entries
of `order`. -/
structure Numbering (order : List (Option (Bcast N))) (ackNum : ℕ) (h g : Hand N)
    (sent : List (Ack N)) : Prop where
  left : h.Holds order ackNum
  right : g.Holds order ackNum
  named : ∀ k ∈ sent, ∃ p, Names order p k
  numbers : (sent.map Ack.revNum ++ h.numbers ++ g.numbers).Perm (List.range' 1 order.length)
  length : order.length = ackNum + h.saved.length + g.saved.length

section Numbering

variable {order : List (Option (Bcast N))} {ackNum p : ℕ} {h g : Hand N} {sent : List (Ack N)}
  {m : Bcast N}

theorem Numbering.symm (hn : Numbering order ackNum h g sent) :
    Numbering order ackNum g h sent where
  left := hn.right
  right := hn.left
  named := hn.named
  numbers := by
    apply List.Perm.trans _ hn.numbers
    rw [List.append_assoc, List.append_assoc]
    exact List.perm_append_comm.append_left _
  length := by
    have := hn.length
    omega

theorem Hand.Holds.concat (hh : h.Holds order ackNum) (e : Option (Bcast N)) :
    h.Holds (order ++ [e]) ackNum where
  entries f hf := by
    have hold := hh.entries f hf
    rw [List.getElem?_append_left (List.getElem?_eq_some_iff.mp hold).1]
    exact hold
  later := hh.later
  last := hh.last
  named k hk := by
    obtain ⟨q, hq⟩ := hh.named k hk
    exact ⟨q, hq.mono (List.prefix_append _ _)⟩

/-- A free thread saves a broadcast. -/
theorem Numbering.save (hn : Numbering order ackNum ⟨[], [], []⟩ g sent) (m : Bcast N) :
    Numbering (order ++ [some m]) ackNum ⟨[(m, order.length)], [], []⟩ g sent where
  left := by
    refine ⟨?_, ?_, ?_, ?_⟩
    · intro e he
      obtain rfl : e = (m, order.length) := by simpa using he
      exact List.getElem?_concat_length
    · intro e he
      obtain rfl := List.mem_singleton.mp he
      rw [hn.length]
      omega
    · exact fun e he => absurd he List.not_mem_nil
    · exact fun k hk => absurd hk List.not_mem_nil
  right := hn.right.concat _
  named k hk := by
    obtain ⟨q, hq⟩ := hn.named k hk
    exact ⟨q, hq.mono (List.prefix_append _ _)⟩
  numbers := by
    have hold : (sent.map Ack.revNum ++ g.numbers).Perm (List.range' 1 order.length) := by
      simpa [Hand.numbers] using hn.numbers
    have hadd : Hand.numbers ⟨[(m, order.length)], [], []⟩ = [1 + order.length] := by
      simp [Hand.numbers, Nat.add_comm]
    rw [List.length_append, List.length_singleton, List.range'_1_concat, hadd]
    apply List.Perm.trans _ (hold.append_right _)
    rw [List.append_assoc, List.append_assoc]
    exact List.perm_append_comm.append_left _
  length := by
    have := hn.length
    simp only [List.length_append, List.length_cons, List.length_nil] at this ⊢
    omega

/-- A thread counts its broadcast, after those saved before it and while the other has no
acknowledgement to prepare. -/
theorem Numbering.count (hn : Numbering order ackNum ⟨[(m, p)], [], []⟩ g sent)
    (hfree : g.counted = []) (hfirst : ∀ e ∈ g.saved, p < e.2) (hone : g.saved.length ≤ 1) :
    Numbering order (ackNum + 1) ⟨[], [(m, p)], []⟩ g sent := by
  have hentry : order[p]? = some (some m) := hn.left.entries (m, p) (by simp)
  have hbound : p < order.length := (List.getElem?_eq_some_iff.mp hentry).1
  have hlater : ackNum ≤ p := hn.left.later (m, p) (by simp)
  have hlength : order.length = ackNum + 1 + g.saved.length := hn.length
  -- the broadcast is the next one to number
  have hnext : p = ackNum := by
    cases hsaved : g.saved with
    | nil =>
      rw [hsaved, List.length_nil] at hlength
      omega
    | cons e l =>
      have hmem : e ∈ g.saved := hsaved ▸ List.mem_cons_self
      have hother := hn.right.entries e (List.mem_append_left _ hmem)
      have hbound' : e.2 < order.length := (List.getElem?_eq_some_iff.mp hother).1
      have hlt := hfirst e hmem
      omega
  constructor
  case left =>
    refine ⟨?_, ?_, ?_, ?_⟩
    · intro e he
      obtain rfl : e = (m, p) := by simpa using he
      exact hentry
    · exact fun e he => absurd he List.not_mem_nil
    · intro e he
      obtain rfl := List.mem_singleton.mp he
      rw [hnext]
    · exact fun k hk => absurd hk List.not_mem_nil
  case right =>
    refine ⟨hn.right.entries, ?_, ?_, hn.right.named⟩
    · intro e he
      have := hfirst e he
      omega
    · intro e he
      rw [hfree] at he
      exact absurd he List.not_mem_nil
  case named => exact hn.named
  case numbers => exact hn.numbers
  case length =>
    simp only [List.length_nil]
    omega

/-- A thread reads the counter and prepares the acknowledgement of the broadcast that it has
counted. -/
theorem Numbering.prepareAck (hn : Numbering order ackNum ⟨[], [(m, p)], []⟩ g sent) :
    Numbering order ackNum ⟨[], [], [⟨m.idProcess, m.seq, ackNum⟩]⟩ g sent := by
  have hentry : order[p]? = some (some m) := hn.left.entries (m, p) (by simp)
  have hlast : p + 1 = ackNum := hn.left.last (m, p) (by simp)
  constructor
  case left =>
    refine ⟨?_, ?_, ?_, ?_⟩
    · exact fun e he => absurd he List.not_mem_nil
    · exact fun e he => absurd he List.not_mem_nil
    · exact fun e he => absurd he List.not_mem_nil
    · intro k hk
      obtain rfl := List.mem_singleton.mp hk
      exact ⟨p, m, hentry, rfl, rfl, hlast.symm⟩
  case right => exact hn.right
  case named => exact hn.named
  case numbers =>
    have hold := hn.numbers
    simp only [Hand.numbers, List.map_cons, List.map_nil, hlast] at hold ⊢
    exact hold
  case length => exact hn.length

/-- A thread writes the acknowledgement that it has prepared. -/
theorem Numbering.broadcastAck {k : Ack N} (hn : Numbering order ackNum ⟨[], [], [k]⟩ g sent) :
    Numbering order ackNum ⟨[], [], []⟩ g (sent ++ [k]) := by
  constructor
  case left =>
    refine ⟨?_, ?_, ?_, ?_⟩
    · exact fun e he => absurd he List.not_mem_nil
    · exact fun e he => absurd he List.not_mem_nil
    · exact fun e he => absurd he List.not_mem_nil
    · exact fun e he => absurd he List.not_mem_nil
  case right => exact hn.right
  case named =>
    intro k' hk'
    rcases List.mem_append.mp hk' with hk' | hk'
    · exact hn.named k' hk'
    · exact hn.left.named k' hk'
  case numbers => simpa [Hand.numbers] using hn.numbers
  case length => exact hn.length

end Numbering

/-! ## The threads of the leader -/

/-- A thread counts its broadcast when the other has no acknowledgement to prepare and holds
no broadcast saved before it. -/
def CountsInOrder (s : ThreadedRing N) : ThreadEvent N → Prop
  | .send i => ∀ p ∈ (s.threads i).sender.toCount,
    (s.threads i).receiver.counted = [] ∧ ∀ e ∈ (s.threads i).receiver.saved, p < e.2
  | .recv i => ∀ p ∈ (s.threads i).receiver.toCount,
    (s.threads i).sender.counted = [] ∧ ∀ e ∈ (s.threads i).sender.saved, p < e.2

instance CountsInOrder.decidable (s : ThreadedRing N) :
    ∀ e : ThreadEvent N, Decidable (CountsInOrder s e)
  | .send i => inferInstanceAs (Decidable (∀ p ∈ (s.threads i).sender.toCount,
      (s.threads i).receiver.counted = [] ∧ ∀ e ∈ (s.threads i).receiver.saved, p < e.2))
  | .recv i => inferInstanceAs (Decidable (∀ p ∈ (s.threads i).receiver.toCount,
      (s.threads i).sender.counted = [] ∧ ∀ e ∈ (s.threads i).sender.saved, p < e.2))

/-- The invariant of the leader. -/
def LeaderNumbers (t : Threads N) (sent : List (Ack N)) : Prop :=
  Numbering t.node.order t.node.ackNum t.sender.hand t.receiver.hand sent

theorem LeaderNumbers.numbersOrder {t : Threads N} {sent : List (Ack N)}
    (hn : LeaderNumbers t sent) : NumbersOrder t sent where
  names := hn.named
  once := by
    have hall := hn.numbers.nodup_iff.mpr List.nodup_range'
    rw [List.append_assoc] at hall
    exact (List.nodup_append.mp hall).1
  all hsender hreceiver p hp := by
    have hall := hn.numbers
    rw [hsender, hreceiver, List.append_nil, List.append_nil] at hall
    rw [hall.mem_iff, List.mem_range'_1]
    omega

section Leader

variable {self : Fin N} {t : Threads N} {sent : List (Ack N)}

/-- The receiver thread is not in `handle_ack`, which does nothing at the leader. -/
def RecvPc.HandlesMsg : RecvPc N → Prop
  | .move _ | .learn _ | .transferAck _ => False
  | _ => True

theorem SendPc.saved_length (pc : SendPc N) : pc.saved.length ≤ 1 := by
  cases pc <;> simp [SendPc.saved]

theorem RecvPc.saved_length (pc : RecvPc N) : pc.saved.length ≤ 1 := by
  cases pc <;> simp [RecvPc.saved]

theorem leaderNumbers_sendThread (hself : self.val = 0) (hn : LeaderNumbers t sent)
    (hcount : ∀ p ∈ t.sender.toCount,
      t.receiver.counted = [] ∧ ∀ e ∈ t.receiver.saved, p < e.2) :
    LeaderNumbers (sendThread self t).1 (sent ++ acksIn (sendThread self t).2) := by
  obtain ⟨n, sender, receiver⟩ := t
  cases sender with
  | ready | broadcastMsg m =>
    rw [show acksIn _ = [] from rfl, List.append_nil]
    exact hn
  | save m =>
    simp only [sendThread, hself, if_true, acksIn, List.append_nil]
    have h := hn.save m
    rw [LeaderNumbers, saveMsgInVectorAck_order]
    exact h
  | update m p =>
    simp only [sendThread, acksIn, List.append_nil]
    rw [LeaderNumbers, updateVector, updateVectorBy_order, updateVectorBy_ackNum]
    exact hn
  | count m p =>
    simp only [sendThread, acksIn, List.append_nil]
    obtain ⟨hfree, hfirst⟩ := hcount p rfl
    exact Numbering.count hn hfree hfirst receiver.saved_length
  | prepareAck m p =>
    simp only [sendThread, acksIn, List.append_nil]
    exact Numbering.prepareAck hn
  | broadcastAck k => exact Numbering.broadcastAck hn

theorem leaderNumbers_recvThread (hself : self.val = 0) (hmsg : t.receiver.HandlesMsg)
    (hn : LeaderNumbers t sent)
    (hcount : ∀ p ∈ t.receiver.toCount,
      t.sender.counted = [] ∧ ∀ e ∈ t.sender.saved, p < e.2) :
    LeaderNumbers (recvThread self t).1 (sent ++ acksIn (recvThread self t).2) := by
  obtain ⟨n, sender, receiver⟩ := t
  cases receiver with
  | ready | transferMsg m =>
    rw [show acksIn _ = [] from rfl, List.append_nil]
    exact hn
  | update m =>
    simp only [recvThread, acksIn, List.append_nil]
    rw [LeaderNumbers, updateVector, updateVectorBy_order, updateVectorBy_ackNum]
    exact hn
  | save m =>
    simp only [recvThread, hself, if_true, acksIn, List.append_nil]
    have h := (Numbering.save hn.symm m).symm
    rw [LeaderNumbers, saveMsgInVectorAck_order]
    exact h
  | count m p =>
    simp only [recvThread, acksIn, List.append_nil]
    obtain ⟨hfree, hfirst⟩ := hcount p rfl
    exact (Numbering.count hn.symm hfree hfirst sender.saved_length).symm
  | prepareAck m p =>
    simp only [recvThread, acksIn, List.append_nil]
    exact (Numbering.prepareAck hn.symm).symm
  | broadcastAck k => exact (Numbering.broadcastAck hn.symm).symm
  | move k | learn k | transferAck k => exact absurd hmsg not_false

end Leader

/-! ## Runs -/

/-- The acknowledgements that the leader has sent number its broadcasts in the order in which
it has saved them. -/
def LeaderInOrder (hN : 2 ≤ N) (s : ThreadedRing N) : Prop :=
  NumbersOrder (s.threads (leader hN)) (acksIn (s.wrote (leader hN)))

/-- The invariant of the ring along the runs that count in order. -/
structure InOrder (hN : 2 ≤ N) (s : ThreadedRing N) : Prop where
  handles : (s.threads (leader hN)).receiver.HandlesMsg
  numbers : LeaderNumbers (s.threads (leader hN)) (acksIn (s.wrote (leader hN)))

theorem inOrder_initial (hN : 2 ≤ N) : InOrder hN (ThreadedRing.initial : ThreadedRing N) where
  handles := trivial
  numbers := by
    have hempty : (⟨[], [], []⟩ : Hand N).Holds [] 0 := by
      refine ⟨?_, ?_, ?_, ?_⟩
      · exact fun e he => absurd he List.not_mem_nil
      · exact fun e he => absurd he List.not_mem_nil
      · exact fun e he => absurd he List.not_mem_nil
      · exact fun k hk => absurd hk List.not_mem_nil
    exact ⟨hempty, hempty, fun k hk => absurd hk List.not_mem_nil, List.Perm.refl _, rfl⟩

theorem handlesMsg_receiveMsg {self : Fin N} (hself : self.val = 0) (message : Msg N)
    (t : Threads N) : (receiveMsg self message t).receiver.HandlesMsg := by
  cases message with
  | b m =>
    simp only [receiveMsg]
    split <;> trivial
  | a k =>
    simp only [receiveMsg, hself]
    trivial

theorem handlesMsg_recvThread {self : Fin N} {t : Threads N} (h : t.receiver.HandlesMsg) :
    (recvThread self t).1.receiver.HandlesMsg := by
  obtain ⟨n, sender, receiver⟩ := t
  cases receiver with
  | save m => by_cases hself : self.val = 0 <;> simp [recvThread, hself, RecvPc.HandlesMsg]
  | ready | transferMsg | update | count | prepareAck | broadcastAck => trivial
  | move | learn | transferAck => exact absurd h not_false

theorem leaderNumbers_receiveMsg {self : Fin N} {message : Msg N} {t : Threads N}
    {sent : List (Ack N)} (hself : self.val = 0) (hready : t.receiver = .ready)
    (hn : LeaderNumbers t sent) : LeaderNumbers (receiveMsg self message t) sent := by
  obtain ⟨n, sender, receiver⟩ := t
  obtain rfl : receiver = .ready := hready
  cases message with
  | b m =>
    by_cases hback : self = getPredecessor m.idProcess
    · rw [receiveMsg, if_neg (not_not.mpr hback)]
      exact hn
    · rw [receiveMsg, if_pos hback]
      exact hn
  | a k =>
    rw [receiveMsg, if_neg (not_not.mpr hself)]
    exact hn

/-- A step of another node leaves the leader as it is. -/
theorem inOrder_step {hN : 2 ≤ N} {s s' : ThreadedRing N} {e : ThreadEvent N}
    (hs : InOrder hN s) (he : CountsInOrder s e) (h : s.step e = some s') : InOrder hN s' := by
  cases e with
  | send i =>
    cases h
    by_cases hi : leader hN = i
    · subst hi
      obtain ⟨hhandles, hnumbers⟩ := hs
      constructor
      · have hsame : (sendThread (leader hN) (s.threads (leader hN))).1.receiver =
            (s.threads (leader hN)).receiver := by
          generalize s.threads (leader hN) = t
          obtain ⟨n, sender, receiver⟩ := t
          cases sender <;> rfl
        simpa [ThreadedRing.after, hsame] using hhandles
      · simpa [ThreadedRing.after] using leaderNumbers_sendThread rfl hnumbers he
    · exact ⟨by simpa [ThreadedRing.after, hi] using hs.handles,
        by simpa [ThreadedRing.after, hi] using hs.numbers⟩
  | recv i =>
    rw [ThreadedRing.step] at h
    split at h
    · rename_i hready
      cases hinbox : s.inbox i with
      | nil =>
        rw [hinbox] at h
        cases h
      | cons message rest =>
        rw [hinbox] at h
        cases h
        by_cases hi : leader hN = i
        · subst hi
          constructor
          · simpa [ThreadedRing.receive] using handlesMsg_receiveMsg rfl message _
          · simpa [ThreadedRing.receive] using leaderNumbers_receiveMsg rfl hready hs.numbers
        · exact ⟨by simpa [ThreadedRing.receive, hi] using hs.handles,
            by simpa [ThreadedRing.receive, hi] using hs.numbers⟩
    · cases h
      by_cases hi : leader hN = i
      · subst hi
        constructor
        · simpa [ThreadedRing.after] using handlesMsg_recvThread hs.handles
        · simpa [ThreadedRing.after] using leaderNumbers_recvThread rfl hs.handles hs.numbers he
      · exact ⟨by simpa [ThreadedRing.after, hi] using hs.handles,
          by simpa [ThreadedRing.after, hi] using hs.numbers⟩

/-- In a run whose threads count in order the leader numbers in order; a run in which no node
meets the acknowledgement of a broadcast that it has not saved yet is one in which every
`move` finds the broadcast that its acknowledgement names. -/
theorem threads_number_and_find (hN : 2 ≤ N) (es : List (ThreadEvent N)) :
    (Along ThreadedRing.step CountsInOrder ThreadedRing.initial es →
      Throughout ThreadedRing.step (LeaderInOrder hN) ThreadedRing.initial es) ∧
    (Along ThreadedRing.step FindsNamed ThreadedRing.initial es ↔
      Along ThreadedRing.step OwnSaved ThreadedRing.initial es) := by
  constructor
  · have hP : ∀ s, InOrder hN s → LeaderInOrder hN s := fun s hs => hs.numbers.numbersOrder
    apply throughout_of_along hP _ (inOrder_initial hN)
    exact fun s e s' hs he h => inOrder_step hs he h
  · have hok : ∀ (s : ThreadedRing N) e, AcksFollow s → (FindsNamed s e ↔ OwnSaved s e) :=
      fun s e hs => findsNamed_iff hs e
    apply along_congr_of_inv hok _ acksFollow_initial
    exact fun s e s' hs he h => acksFollow_step hN hs he h

theorem two_le_five : 2 ≤ 5 := by decide

/-- Node 1 broadcasts and the three nodes after it transfer the broadcast to the leader. -/
def broadcastOfOne : List (ThreadEvent 5) :=
  List.replicate 2 (.send 1) ++ List.replicate 2 (.recv 2) ++ List.replicate 2 (.recv 3) ++
    List.replicate 2 (.recv 4)

/-- The leader broadcasts while its receiver thread is idle, then treats a broadcast that its
successor has saved already. -/
def threadsInTurn : List (ThreadEvent 5) :=
  List.replicate 7 (.send 0) ++ broadcastOfOne ++ [.send 1] ++ List.replicate 6 (.recv 0) ++
    List.replicate 12 (.recv 1)

theorem threads_number_and_find_inTurn :
    (exec ThreadedRing.step ThreadedRing.initial threadsInTurn).isSome ∧
    Throughout ThreadedRing.step (LeaderInOrder two_le_five) ThreadedRing.initial
      threadsInTurn ∧
    Along ThreadedRing.step FindsNamed ThreadedRing.initial threadsInTurn := by
  obtain ⟨hnumber, hfind⟩ := threads_number_and_find two_le_five threadsInTurn
  have hcounts : Along ThreadedRing.step CountsInOrder ThreadedRing.initial threadsInTurn := by
    decide
  have hsaved : Along ThreadedRing.step OwnSaved ThreadedRing.initial threadsInTurn := by
    decide
  exact ⟨by decide, hnumber hcounts, hfind.mpr hsaved⟩

/-- The leader saves a broadcast of its own, then one of its successor, and its receiver
thread counts first. -/
def leaderOvertaken : List (ThreadEvent 5) :=
  broadcastOfOne ++ List.replicate 3 (.send 0) ++ List.replicate 6 (.recv 0)

/-- The acknowledgement comes back before the successor of the leader has saved its broadcast. -/
def acknowledgedUnsaved : List (ThreadEvent 5) :=
  broadcastOfOne ++ List.replicate 6 (.recv 0) ++ [.recv 1]

theorem not_threads_number_and_find :
    (∃ s, exec ThreadedRing.step ThreadedRing.initial leaderOvertaken = some s ∧
      ¬ LeaderInOrder two_le_five s) ∧
    ∃ s, exec ThreadedRing.step ThreadedRing.initial acknowledgedUnsaved = some s ∧
      ¬ FindsNamed s (.recv 1) := by
  constructor
  · refine ⟨_, rfl, ?_⟩
    intro h
    obtain ⟨p, m, hm, hid, -, hnum⟩ := h.names ⟨1, 1, 1⟩ (by decide)
    obtain rfl : p = 0 := by simpa using hnum
    have hfirst : some (some (⟨0, 1, 0⟩ : Bcast 5)) = some (some m) := hm
    cases hfirst
    exact absurd hid (by decide)
  · refine ⟨_, rfl, ?_⟩
    intro h
    obtain ⟨m, held, hqueue, -⟩ := h ⟨1, 1, 1⟩ rfl
    have hempty : ([] : List (Bcast 5)) = m :: held := hqueue
    cases hempty

end UniformBroadcast.TcpRing
