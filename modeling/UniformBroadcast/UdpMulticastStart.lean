import UniformBroadcast.UdpMulticastUniformity

/-!
# The start of a test

Translation of the start of a test in `protocol_udp/mainUDP.c`: the whole dispatch of
`process_msg`, the semaphore that holds `send_msg` back, and the calls of `start_leader` and
`stop_leader` by the main thread of the leader. The network hands a packet to a node any number
of times, at any moment after it was sent, or never.
-/

namespace UniformBroadcast.UdpMulticast

open Sequencer TransitionRuns

variable {N : ℕ}

/-- A datagram: `'m'` or `'a'`, or one of the packets that start and stop a test. -/
inductive Packet (N : ℕ) where
  | message (m : Msg N)
  | y
  | z (digit : ℕ)
  | c
  | n
  deriving DecidableEq, Repr

/-- A process: `processing` until `process_msg` exits, `released` once `send_msg` has passed
`sem_wait`. -/
structure Station (N : ℕ) where
  node : Node N
  prepBits : BitVec 32
  testStarted : Bool
  mySem : ℕ
  processing : Bool
  released : Bool

/-- The globals after `initialize`. -/
def Station.initial (self : Fin N) : Station N where
  node := Node.initial
  prepBits := ((1#32 <<< N) - 1#32) &&& ~~~(1#32 <<< self.val)
  testStarted := false
  mySem := 0
  processing := true
  released := false

def updatePrepareBits (id : ℕ) (prepBits : BitVec 32) : BitVec 32 := prepBits &&& ~~~(1#32 <<< id)

/-- One iteration of the loop of `process_msg`, and what it multicasts. -/
def processMsg (self : Fin N) : Packet N → Station N → Station N × List (Packet N)
  | .message m, t =>
    let r := handle self m t.node
    ({ t with node := r.1 }, r.2.map .message)
  | .y, t =>
    if self.val ≠ 0 then (t, [.z ('0'.toNat + self.val)])
    else if t.prepBits = 0#32 then ({ t with testStarted := true }, [.c])
    else (t, [])
  | .z digit, t =>
    if self.val = 0 then
      ({ t with prepBits := updatePrepareBits (digit - '0'.toNat) t.prepBits }, [])
    else (t, [])
  | .n, t => ({ t with processing := false }, [])
  | .c, t => ({ t with mySem := t.mySem + 1 }, [])

/-- Where the main thread of the leader is: about to test `test_started`, about to send the next
`'y'`, between `start_leader` and `stop_leader`, or past both. -/
inductive MainThread where
  | testing
  | resending
  | waiting
  | stopped
  deriving DecidableEq, Repr

/-- The main thread of the leader, the processes, what each has sent, and what each was handed
by whom. -/
structure Start (N : ℕ) where
  main : MainThread
  stations : Fin N → Station N
  sent : Fin N → List (Packet N)
  handed : Fin N → List (Fin N × Packet N)

def Start.initial : Start N where
  main := .testing
  stations := Station.initial
  sent := fun _ => []
  handed := fun _ => []

/-- Process `i` becomes `r.1`, has been handed `more` and multicasts `r.2`. -/
def Start.after (s : Start N) (i : Fin N) (more : List (Fin N × Packet N))
    (r : Station N × List (Packet N)) : Start N where
  main := s.main
  stations := Function.update s.stations i r.1
  sent := Function.update s.sent i (s.sent i ++ r.2)
  handed := Function.update s.handed i (s.handed i ++ more)

/-- The next step of `start_leader` and `stop_leader`, packet number `t` of `x` handed to `i`,
the end of `sem_wait`, or an iteration of `send_msg`. -/
inductive StartEvent (N : ℕ) where
  | lead
  | hand (i x : Fin N) (t : ℕ)
  | semWait (i : Fin N)
  | send (i : Fin N)
  deriving DecidableEq, Repr

/-- What the main thread of the leader does next, and what it multicasts. -/
def lead (testStarted : Bool) : MainThread → Option (MainThread × List (Packet N))
  | .testing => some (if testStarted then .waiting else .resending, [])
  | .resending => some (.testing, [.y])
  | .waiting => some (.stopped, [.n])
  | .stopped => none

def startStep (hN : 2 ≤ N) (s : Start N) : StartEvent N → Option (Start N)
  | .lead => (lead (s.stations (leader hN)).testStarted s.main).map fun r =>
      { s.after (leader hN) [] (s.stations (leader hN), r.2) with main := r.1 }
  | .hand i x t =>
    if (s.stations i).processing then
      (s.sent x)[t]?.map fun d => s.after i [(x, d)] (processMsg i d (s.stations i))
    else none
  | .semWait i =>
    if 0 < (s.stations i).mySem ∧ (s.stations i).released = false then
      some (s.after i []
        ({ s.stations i with mySem := (s.stations i).mySem - 1, released := true }, []))
    else none
  | .send i =>
    if (s.stations i).released then
      let r := sendMsg i (s.stations i).node
      some (s.after i [] ({ s.stations i with node := r.1 }, r.2.map .message))
    else none

/-! ## The invariant -/

section Barrier

variable {hN : 2 ≤ N} {s s' : Start N} {heard : Fin N → Prop} {i x : Fin N} {t : Station N}
  {sent : List (Packet N)} {handed : List (Fin N × Packet N)}

/-- Every follower has `heard` the leader. -/
def AllHeard (hN : 2 ≤ N) (heard : Fin N → Prop) : Prop := ∀ j, j ≠ leader hN → heard j

/-- What a packet that process `i` has sent says. -/
def Justified (hN : 2 ≤ N) (heard : Fin N → Prop) (i : Fin N) : Packet N → Prop
  | .message (.a _) => True
  | .message (.b _) => AllHeard hN heard
  | .y | .n => i = leader hN
  | .z digit => digit = '0'.toNat + i.val ∧ heard i
  | .c => AllHeard hN heard

/-- What process `i` and the packets it has sent say. -/
structure StationInv (hN : 2 ≤ N) (heard : Fin N → Prop) (i : Fin N) (t : Station N)
    (sent : List (Packet N)) (handed : List (Fin N × Packet N)) : Prop where
  justified : ∀ d ∈ sent, Justified hN heard i d
  bits : i = leader hN → ∀ j, j ≠ leader hN → t.prepBits.getLsbD j = false → heard j
  sem : 0 < t.mySem → AllHeard hN heard
  released : t.released = true → AllHeard hN heard
  processing : t.processing = true ∨ (leader hN, .n) ∈ handed

theorem AllHeard.mono {heard' : Fin N → Prop} (h : AllHeard hN heard)
    (hle : ∀ j, heard j → heard' j) : AllHeard hN heard' :=
  fun j hj => hle j (h j hj)

theorem Justified.mono {heard' : Fin N → Prop} {d : Packet N} (h : Justified hN heard i d)
    (hle : ∀ j, heard j → heard' j) : Justified hN heard' i d := by
  cases d with
  | message m =>
    cases m with
    | a k => trivial
    | b m => exact AllHeard.mono h hle
  | y => exact h
  | n => exact h
  | z digit => exact ⟨h.1, hle i h.2⟩
  | c => exact AllHeard.mono h hle

theorem StationInv.mono {heard' : Fin N → Prop} (h : StationInv hN heard i t sent handed)
    (hle : ∀ j, heard j → heard' j) : StationInv hN heard' i t sent handed where
  justified := fun d hd => (h.justified d hd).mono hle
  bits := fun hi j hj hbit => hle j (h.bits hi j hj hbit)
  sem := fun hsem => (h.sem hsem).mono hle
  released := fun hrel => (h.released hrel).mono hle
  processing := h.processing

/-- Process `j` has been handed a `'y'` of the leader. -/
def Start.Heard (hN : 2 ≤ N) (s : Start N) (j : Fin N) : Prop := (leader hN, .y) ∈ s.handed j

def Start.Inv (hN : 2 ≤ N) (s : Start N) : Prop :=
  ∀ i, StationInv hN (s.Heard hN) i (s.stations i) (s.sent i) (s.handed i)

theorem getLsbD_clear (bits : BitVec 32) (id : ℕ) {j : ℕ} (hj : j < 32) :
    (bits &&& ~~~(1#32 <<< id)).getLsbD j = (bits.getLsbD j && decide (j ≠ id)) := by
  rw [BitVec.getLsbD_and, BitVec.getLsbD_not, BitVec.getLsbD_shiftLeft, BitVec.getLsbD_one]
  rcases Nat.lt_trichotomy j id with h | rfl | h
  · simp [hj, h, h.ne]
  · simp [hj]
  · have hne : j - id ≠ 0 := by omega
    simp [hj, h.ne', hne]

theorem val_lt_32 (hmax : N ≤ maxNodes) (j : Fin N) : j.val < 32 := by
  have := j.isLt
  rw [maxNodes] at hmax
  omega

/-- At first the leader has the bits of all followers set. -/
theorem prepBits_initial (hmax : N ≤ maxNodes) {j : Fin N} (hj : j ≠ leader hN) :
    (Station.initial (leader hN)).prepBits.getLsbD j = true := by
  have hbit : ((1#32 <<< N) - 1#32).getLsbD j = true := confBits_getLsbD hmax j
  have hpos : j.val ≠ (leader hN).val := (eq_leader_iff hN j).not.mp hj
  rw [Station.initial, getLsbD_clear _ _ (val_lt_32 hmax j), hbit, Bool.true_and,
    decide_eq_true hpos]

theorem start_inv_initial (hmax : N ≤ maxNodes) : (Start.initial : Start N).Inv hN := by
  intro i
  refine ⟨nofun, ?_, nofun, nofun, .inl rfl⟩
  rintro rfl j hj hbit
  have hset : ((Start.initial : Start N).stations (leader hN)).prepBits.getLsbD j = true :=
    prepBits_initial hmax hj
  rw [hset] at hbit
  cases hbit

section After

variable {more : List (Fin N × Packet N)} {r : Station N × List (Packet N)}

theorem heard_after {j : Fin N} (h : s.Heard hN j) : (s.after i more r).Heard hN j := by
  rcases eq_or_ne j i with rfl | hji
  · simp only [Start.Heard, Start.after, Function.update_self]
    exact List.mem_append_left _ h
  · simpa only [Start.Heard, Start.after, Function.update_of_ne hji] using h

theorem after_handed : (s.after i more r).handed i = s.handed i ++ more := by
  simp only [Start.after, Function.update_self]

/-- A step of process `i` matters to the others by what they have heard only. -/
theorem inv_after (hs : s.Inv hN)
    (hr : StationInv hN ((s.after i more r).Heard hN) i r.1 (s.sent i ++ r.2)
      (s.handed i ++ more)) : (s.after i more r).Inv hN := by
  intro j
  rcases eq_or_ne j i with rfl | hji
  · simpa only [Start.after, Function.update_self] using hr
  · have hother := (hs j).mono fun _ => @heard_after N hN s i more r _
    simpa only [Start.after, Function.update_of_ne hji] using hother

end After

/-- Treating a datagram never gives a broadcast to multicast. -/
theorem handle_not_bcast (d : Msg N) (n : Node N) (m : Bcast N) : .b m ∉ (handle i d n).2 := by
  cases d with
  | a k =>
    rw [handle, handleAck]
    split <;> simp
  | b m' =>
    rw [handle, handleMsg]
    split <;> simp

theorem processMsg_not_bcast (d : Packet N) (m : Bcast N) :
    .message (.b m) ∉ (processMsg i d t).2 := by
  cases d with
  | message d =>
    intro hm
    obtain ⟨d', hd', heq⟩ := List.mem_map.mp hm
    obtain rfl := Packet.message.inj heq
    exact handle_not_bcast d _ m hd'
  | y =>
    rw [processMsg]
    split
    · simp
    · split <;> simp
  | z digit =>
    rw [processMsg]
    split <;> simp
  | c => exact List.not_mem_nil
  | n => exact List.not_mem_nil

/-! ### One lemma for each packet that `process_msg` treats -/

theorem StationInv.send {more : List (Packet N)} (hi : StationInv hN heard i t sent handed)
    (hmore : ∀ d ∈ more, Justified hN heard i d) :
    StationInv hN heard i t (sent ++ more) handed :=
  ⟨List.forall_mem_append.mpr ⟨hi.justified, hmore⟩, hi.bits, hi.sem, hi.released, hi.processing⟩

theorem StationInv.hand (hi : StationInv hN heard i t sent handed)
    (more : List (Fin N × Packet N)) : StationInv hN heard i t sent (handed ++ more) :=
  ⟨hi.justified, hi.bits, hi.sem, hi.released,
    hi.processing.imp_right (List.mem_append_left more)⟩

theorem StationInv.message (hi : StationInv hN heard i t sent handed) (m : Msg N) :
    StationInv hN heard i (processMsg i (.message m) t).1
      (sent ++ (processMsg i (.message m) t).2) handed := by
  have hi' : StationInv hN heard i (processMsg i (.message m) t).1 sent handed :=
    ⟨hi.justified, hi.bits, hi.sem, hi.released, hi.processing⟩
  refine hi'.send ?_
  intro d hd
  obtain ⟨m', -, rfl⟩ := List.mem_map.mp hd
  cases m' with
  | a k => trivial
  | b m' => exact absurd hd (processMsg_not_bcast (.message m) m')

theorem processMsg_y_cases (t : Station N) :
    i.val ≠ 0 ∧ processMsg i .y t = (t, [.z ('0'.toNat + i.val)]) ∨
      i.val = 0 ∧ t.prepBits = 0#32 ∧ processMsg i .y t = ({ t with testStarted := true }, [.c]) ∨
      i.val = 0 ∧ t.prepBits ≠ 0#32 ∧ processMsg i .y t = (t, []) := by
  by_cases hself : i.val ≠ 0
  · exact .inl ⟨hself, if_pos hself⟩
  · by_cases hbits : t.prepBits = 0#32
    · exact .inr (.inl ⟨not_not.mp hself, hbits, (if_neg hself).trans (if_pos hbits)⟩)
    · exact .inr (.inr ⟨not_not.mp hself, hbits, (if_neg hself).trans (if_neg hbits)⟩)

/-- A `'y'` that has just been heard. -/
theorem StationInv.y (hi : StationInv hN heard i t sent handed) (hheard : heard i) :
    StationInv hN heard i (processMsg i .y t).1 (sent ++ (processMsg i .y t).2) handed := by
  rcases processMsg_y_cases t with ⟨-, hstep⟩ | ⟨hself, hbits, hstep⟩ | ⟨-, -, hstep⟩
  · rw [hstep]
    exact hi.send (List.forall_mem_singleton.mpr ⟨rfl, hheard⟩)
  · -- no bit of a follower is left
    have hall : AllHeard hN heard := by
      intro j hj
      apply hi.bits ((eq_leader_iff hN i).mpr hself) j hj
      rw [hbits]
      simp
    have hi' : StationInv hN heard i { t with testStarted := true } sent handed :=
      ⟨hi.justified, hi.bits, hi.sem, hi.released, hi.processing⟩
    rw [hstep]
    exact hi'.send (List.forall_mem_singleton.mpr hall)
  · rw [hstep, List.append_nil]
    exact hi

/-- A `'z'` of a follower that has heard the leader. -/
theorem StationInv.z (hmax : N ≤ maxNodes) (hi : StationInv hN heard i t sent handed)
    (hx : heard x) : StationInv hN heard i (processMsg i (.z ('0'.toNat + x.val)) t).1
      (sent ++ (processMsg i (.z ('0'.toNat + x.val)) t).2) handed := by
  by_cases hself : i.val = 0
  · have hstep : processMsg i (.z ('0'.toNat + x.val)) t =
        ({ t with prepBits := updatePrepareBits x.val t.prepBits }, []) := by
      rw [processMsg, if_pos hself, Nat.add_sub_cancel_left]
    rw [hstep, List.append_nil]
    refine ⟨hi.justified, ?_, hi.sem, hi.released, hi.processing⟩
    intro hleader j hj hbit
    rw [updatePrepareBits, getLsbD_clear _ _ (val_lt_32 hmax j), Bool.and_eq_false_iff,
      decide_eq_false_iff_not, not_not] at hbit
    rcases hbit with hbit | hjx
    · exact hi.bits hleader j hj hbit
    · obtain rfl := Fin.ext hjx
      exact hx
  · have hstep : processMsg i (.z ('0'.toNat + x.val)) t = (t, []) := if_neg hself
    rw [hstep, List.append_nil]
    exact hi

theorem StationInv.c (hi : StationInv hN heard i t sent handed) (hall : AllHeard hN heard) :
    StationInv hN heard i (processMsg i .c t).1 (sent ++ (processMsg i .c t).2) handed := by
  rw [show (processMsg i .c t).2 = [] from rfl, List.append_nil]
  exact ⟨hi.justified, hi.bits, fun _ => hall, hi.released, hi.processing⟩

theorem StationInv.n (hi : StationInv hN heard i t sent handed) (hn : (leader hN, .n) ∈ handed) :
    StationInv hN heard i (processMsg i .n t).1 (sent ++ (processMsg i .n t).2) handed := by
  rw [show (processMsg i .n t).2 = [] from rfl, List.append_nil]
  exact ⟨hi.justified, hi.bits, hi.sem, hi.released, .inr hn⟩

/-- The treatment of a packet. -/
theorem inv_hand (hmax : N ≤ maxNodes) (hs : s.Inv hN) {d : Packet N} (hd : d ∈ s.sent x) :
    (s.after i [(x, d)] (processMsg i d (s.stations i))).Inv hN := by
  have hjustified := (hs x).justified d hd
  have hmono := fun j => @heard_after N hN s i [(x, d)] (processMsg i d (s.stations i)) j
  have hi := ((hs i).mono hmono).hand [(x, d)]
  have hlast : (x, d) ∈ s.handed i ++ [(x, d)] :=
    List.mem_append_right _ (List.mem_singleton_self _)
  apply inv_after hs
  cases d with
  | message m => exact hi.message m
  | y =>
    obtain rfl : x = leader hN := hjustified
    apply hi.y
    rw [Start.Heard, after_handed]
    exact hlast
  | z digit =>
    obtain ⟨rfl, hx⟩ := hjustified
    exact hi.z hmax (hmono x hx)
  | c => exact hi.c (AllHeard.mono hjustified hmono)
  | n =>
    obtain rfl : x = leader hN := hjustified
    exact hi.n hlast

theorem mem_lead {started : Bool} {main main' : MainThread} {packets : List (Packet N)}
    {d : Packet N} (h : lead started main = some (main', packets)) (hd : d ∈ packets) :
    d = .y ∨ d = .n := by
  cases main with
  | testing =>
    cases h
    cases hd
  | resending =>
    cases h
    exact .inl (List.mem_singleton.mp hd)
  | waiting =>
    cases h
    exact .inr (List.mem_singleton.mp hd)
  | stopped => cases h

theorem start_inv_step (hmax : N ≤ maxNodes) {e : StartEvent N} (hs : s.Inv hN)
    (h : startStep hN s e = some s') : s'.Inv hN := by
  cases e with
  | lead =>
    obtain ⟨⟨main, packets⟩, hlead, rfl⟩ := Option.map_eq_some_iff.mp h
    have hi := (hs (leader hN)).mono fun _ =>
      @heard_after N hN s (leader hN) [] (s.stations (leader hN), packets) _
    have hafter : (s.after (leader hN) [] (s.stations (leader hN), packets)).Inv hN := by
      apply inv_after hs
      rw [List.append_nil]
      refine hi.send ?_
      intro d hd
      rcases mem_lead hlead hd with rfl | rfl
      · exact rfl
      · exact rfl
    exact hafter
  | hand i x t =>
    rw [startStep] at h
    split at h
    · obtain ⟨d, hd, rfl⟩ := Option.map_eq_some_iff.mp h
      exact inv_hand hmax hs (List.mem_of_getElem? hd)
    · cases h
  | semWait i =>
    rw [startStep] at h
    split at h
    · rename_i hsem
      obtain rfl := Option.some.inj h
      apply inv_after hs
      rw [List.append_nil, List.append_nil]
      have hi := (hs i).mono fun _ => @heard_after N hN s i []
        ({ s.stations i with mySem := (s.stations i).mySem - 1, released := true }, []) _
      exact ⟨hi.justified, hi.bits, fun _ => hi.sem hsem.1, fun _ => hi.sem hsem.1, hi.processing⟩
    · cases h
  | send i =>
    rw [startStep] at h
    split at h
    · rename_i hreleased
      obtain rfl := Option.some.inj h
      apply inv_after hs
      rw [List.append_nil]
      have hi := (hs i).mono fun _ => @heard_after N hN s i []
        ({ s.stations i with node := (sendMsg i (s.stations i).node).1 },
          (sendMsg i (s.stations i).node).2.map .message) _
      refine ⟨List.forall_mem_append.mpr ⟨hi.justified, ?_⟩, hi.bits, hi.sem, hi.released,
        hi.processing⟩
      exact List.forall_mem_singleton.mpr (hi.released hreleased)
    · cases h

/-- Only `send_msg` multicasts a broadcast. -/
theorem bcast_sent {e : StartEvent N} {m : Bcast N} (h : startStep hN s e = some s')
    (hm : .message (.b m) ∈ s'.sent i) :
    .message (.b m) ∈ s.sent i ∨ (s.stations i).released = true := by
  have hafter : ∀ {k more r}, .message (.b m) ∈ (s.after k more r).sent i →
      .message (.b m) ∈ s.sent i ∨ k = i ∧ .message (.b m) ∈ r.2 := by
    intro k more r hk
    rcases eq_or_ne i k with rfl | hik
    · simp only [Start.after, Function.update_self] at hk
      exact (List.mem_append.mp hk).imp_right fun hr => ⟨rfl, hr⟩
    · simp only [Start.after, Function.update_of_ne hik] at hk
      exact .inl hk
  cases e with
  | lead =>
    obtain ⟨⟨main, packets⟩, hlead, rfl⟩ := Option.map_eq_some_iff.mp h
    refine (@hafter (leader hN) [] _ hm).imp_right ?_
    rintro ⟨-, hnew⟩
    rcases mem_lead hlead hnew with heq | heq
    · cases heq
    · cases heq
  | hand k x t =>
    rw [startStep] at h
    split at h
    · obtain ⟨d, hd, rfl⟩ := Option.map_eq_some_iff.mp h
      refine (hafter hm).imp_right ?_
      rintro ⟨-, hnew⟩
      exact absurd hnew (processMsg_not_bcast d m)
    · cases h
  | semWait k =>
    rw [startStep] at h
    split at h
    · obtain rfl := Option.some.inj h
      exact (hafter hm).imp_right fun hr => absurd hr.2 List.not_mem_nil
    · cases h
  | send k =>
    rw [startStep] at h
    split at h
    · rename_i hreleased
      obtain rfl := Option.some.inj h
      refine (hafter hm).imp_right ?_
      rintro ⟨rfl, -⟩
      exact hreleased
    · cases h

/-- When a process multicasts its first broadcast, and ever after, each follower has treated a
`'y'` of the leader, and its `process_msg` runs unless it has already been stopped by the leader. -/
theorem start_barrier (hmax : N ≤ maxNodes) {es : List (StartEvent N)}
    (hrun : exec (startStep hN) Start.initial es = some s) {e : StartEvent N}
    (hstep : startStep hN s e = some s') {m : Bcast N} (hm : .message (.b m) ∈ s'.sent i) :
    ∀ j, j ≠ leader hN → (leader hN, .y) ∈ s.handed j ∧
      ((s.stations j).processing = true ∨ (leader hN, .n) ∈ s.handed j) := by
  have hs : s.Inv hN :=
    exec_invariant (fun _ _ _ => start_inv_step hmax) (start_inv_initial hmax) hrun
  have hall : AllHeard hN (s.Heard hN) := by
    rcases bcast_sent hstep hm with hold | hreleased
    · exact (hs i).justified _ hold
    · exact (hs i).released hreleased
  intro j hj
  exact ⟨hall j hj, (hs j).processing⟩

/-- The leader `i` and the follower `j` of two processes: `j` answers the first `'y'`, and `i`
hears its own second one. -/
def twoStart (i j : Fin N) : List (StartEvent N) :=
  [.lead, .lead, .hand j i 0, .hand i j 0, .lead, .lead, .hand i i 1, .hand i i 2, .semWait i]

theorem start_barrier_two : ∃ s s',
    exec (startStep (Nat.le_refl 2)) Start.initial (twoStart 0 1) = some s ∧
    startStep (Nat.le_refl 2) s (.send 0) = some s' ∧
    ∀ j, j ≠ leader (Nat.le_refl 2) → (leader (Nat.le_refl 2), .y) ∈ s.handed j ∧
      ((s.stations j).processing = true ∨ (leader (Nat.le_refl 2), .n) ∈ s.handed j) := by
  have hm : ∃ s s', exec (startStep (Nat.le_refl 2)) Start.initial (twoStart 0 1) = some s ∧
      startStep (Nat.le_refl 2) s (.send 0) = some s' ∧
      .message (.b ⟨0, 1, 0⟩) ∈ s'.sent 0 := ⟨_, _, rfl, rfl, by decide⟩
  obtain ⟨s, s', hrun, hstep, hm⟩ := hm
  exact ⟨s, s', hrun, hstep, start_barrier (by decide) hrun hstep hm⟩

end Barrier

end UniformBroadcast.UdpMulticast
