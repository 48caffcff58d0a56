import UniformBroadcast.FramedConnections
import UniformBroadcast.TcpRingFrames

/-!
# The program of the TCP ring on its connections

`send` hands the bytes of a packet to a connection, which brings them a few at a time.
`process_msg` receives the length of a packet, then the rest of it, and what a handler forwards is
what was received, byte for byte. As long as no counter overflows, this is the program that
exchanges whole packets.
-/

namespace UniformBroadcast.TcpRing

open Sequencer TransitionRuns LittleEndian FramedConnections

variable {N : ℕ}

/-- The processes and the connections into them; `m` is what `process_msg` has received last. -/
structure WireProgram (N : ℕ) where
  main : MainPc
  processes : Fin N → Process N
  m : Fin N → List Byte
  inbox : Fin N → Connection

/-- The steps of the program, and some bytes that arrive. -/
inductive WireEvent (N : ℕ) where
  | main
  | send (i : Fin N)
  | recv (i : Fin N)
  | carry (i : Fin N) (k : ℕ)
  deriving DecidableEq, Repr

/-- `process_msg` is about to call `transfer_msg` or `transfer_ack`. -/
def Process.forwards (t : Process N) : Bool :=
  match t.processMsg, t.threads.receiver with
  | .loop, .transferMsg _ => true
  | .loop, .transferAck _ => true
  | _, _ => false

namespace WireProgram

def initial : WireProgram N where
  main := .preparing
  processes := fun _ => Process.initial
  m := fun _ => []
  inbox := fun _ => .empty

/-- Process `i` becomes `t` and has sent some bytes. -/
def after (s : WireProgram N) (i : Fin N) (t : Process N) (bytes : List Byte) : WireProgram N :=
  { s with
    processes := Function.update s.processes i t
    inbox := Function.update s.inbox (getSuccessor i) ((s.inbox (getSuccessor i)).send bytes) }

/-- The second `recv` of `process_msg`, after the bytes of `len`, and the `switch`. An unexpected
type is only reported. -/
def receiveRest (s : WireProgram N) (i : Fin N) (len : List Byte) : Option (WireProgram N) :=
  (readLen len).bind fun n => ((s.inbox i).takeRest len n).bind fun r =>
    (readPacket r.1).map fun packet => { s with
      processes := Function.update s.processes i
        (packet.elim (s.processes i) ((s.processes i).switch i))
      m := Function.update s.m i r.1
      inbox := Function.update s.inbox i r.2 }

def step (f : Frames N) (hN : 2 ≤ N) (s : WireProgram N) : WireEvent N → Option (WireProgram N)
  | .main => (leadTest s.main).map fun r =>
      { s.after (leader hN) (s.processes (leader hN)) (r.2.bytes f) with main := r.1 }
  | .send i => ((s.processes i).sendMsg i).map fun r =>
      s.after i r.1 (r.2.flatMap (Packet.bytes f))
  | .recv i =>
    if (s.processes i).Reads then
      match (s.inbox i).taken with
      | none => ((s.inbox i).takeHead sizeofLen).map fun c =>
          { s with inbox := Function.update s.inbox i c }
      | some len => s.receiveRest i len
    else ((s.processes i).call i).map fun r =>
      s.after i r.1 (if (s.processes i).forwards then s.m i else r.2.flatMap (Packet.bytes f))
  | .carry i k => some { s with inbox := Function.update s.inbox i ((s.inbox i).carry k) }

end WireProgram

/-- No `int` of a process overflows in the next step. -/
def InRange (processes : Fin N → Process N) : Prop :=
  ∀ i, (processes i).threads.node.seqNum + 1 < 2 ^ 31 ∧
    (processes i).threads.node.ackNum + 1 < 2 ^ 31

instance (processes : Fin N → Process N) : Decidable (InRange processes) :=
  inferInstanceAs (Decidable (∀ _, _ ∧ _))

/-! ## The counters that a thread holds -/

def SendPc.numbers : SendPc N → List ℕ
  | .ready => []
  | .broadcastMsg m | .save m | .update m _ | .count m _ | .prepareAck m _ => [m.seq, m.ack]
  | .broadcastAck k => [k.seq, k.revNum]

def RecvPc.numbers : RecvPc N → List ℕ
  | .ready => []
  | .transferMsg m | .update m | .save m | .count m _ | .prepareAck m _ => [m.seq, m.ack]
  | .broadcastAck k | .move k | .learn k | .transferAck k => [k.seq, k.revNum]

/-- The packet that a handler is to forward. -/
def RecvPc.held : RecvPc N → Option (Packet N)
  | .transferMsg m => some (.message (.b m))
  | .move k | .learn k | .transferAck k => some (.message (.a k))
  | _ => none

section Threads

variable {i : Fin N} {t : Threads N}

theorem small_pair {a b : ℕ} (ha : a < 2 ^ 31) (hb : b < 2 ^ 31) : Small [a, b] := by
  intro n hn
  rcases List.mem_pair.mp hn with rfl | rfl
  · exact ha
  · exact hb

theorem small_nil : Small [] := fun _ h => absurd h List.not_mem_nil

theorem sendThread_small (hseq : t.node.seqNum + 1 < 2 ^ 31) (hack : t.node.ackNum < 2 ^ 31)
    (h : Small t.sender.numbers) : Small (sendThread i t).1.sender.numbers ∧
      ∀ m ∈ (sendThread i t).2, Small (Packet.message m).numbers := by
  have hnone : ∀ m ∈ ([] : List (Msg N)), Small (Packet.message m).numbers :=
    fun _ hm => absurd hm List.not_mem_nil
  have hone {m : Msg N} (hm : Small (Packet.message m).numbers) :
      ∀ m' ∈ [m], Small (Packet.message m').numbers := by
    intro m' hm'
    rwa [List.mem_singleton.mp hm']
  rw [sendThread]
  cases hpc : t.sender with
  | ready => exact ⟨small_pair hseq hack, hnone⟩
  | broadcastMsg m =>
    rw [hpc] at h
    exact ⟨h, hone h⟩
  | save m =>
    rw [hpc] at h
    dsimp only
    split
    · exact ⟨h, hnone⟩
    · exact ⟨small_nil, hnone⟩
  | update m p | count m p =>
    rw [hpc] at h
    exact ⟨h, hnone⟩
  | prepareAck m p =>
    rw [hpc] at h
    exact ⟨small_pair (h m.seq List.mem_cons_self) hack, hnone⟩
  | broadcastAck k =>
    rw [hpc] at h
    exact ⟨small_nil, hone h⟩

theorem recvThread_small (hack : t.node.ackNum < 2 ^ 31) (h : Small t.receiver.numbers) :
    Small (recvThread i t).1.receiver.numbers ∧
      ∀ m ∈ (recvThread i t).2, Small (Packet.message m).numbers := by
  have hnone : ∀ m ∈ ([] : List (Msg N)), Small (Packet.message m).numbers :=
    fun _ hm => absurd hm List.not_mem_nil
  have hone {m : Msg N} (hm : Small (Packet.message m).numbers) :
      ∀ m' ∈ [m], Small (Packet.message m').numbers := by
    intro m' hm'
    rwa [List.mem_singleton.mp hm']
  rw [recvThread]
  cases hpc : t.receiver with
  | ready =>
    dsimp only
    rw [hpc]
    exact ⟨small_nil, hnone⟩
  | transferMsg m =>
    rw [hpc] at h
    exact ⟨h, hone h⟩
  | update m | count m p | move k =>
    rw [hpc] at h
    exact ⟨h, hnone⟩
  | save m =>
    rw [hpc] at h
    dsimp only
    split
    · exact ⟨h, hnone⟩
    · exact ⟨small_nil, hnone⟩
  | prepareAck m p =>
    rw [hpc] at h
    exact ⟨small_pair (h m.seq List.mem_cons_self) hack, hnone⟩
  | broadcastAck k | transferAck k =>
    rw [hpc] at h
    exact ⟨small_nil, hone h⟩
  | learn k =>
    rw [hpc] at h
    dsimp only
    split
    · exact ⟨h, hnone⟩
    · exact ⟨small_nil, hnone⟩

theorem recvThread_held {p : Packet N} (h : (recvThread i t).1.receiver.held = some p) :
    t.receiver.held = some p := by
  rw [recvThread] at h
  cases hpc : t.receiver with
  | ready =>
    rw [hpc] at h
    dsimp only at h
    rwa [hpc] at h
  | transferMsg | update | count | prepareAck | broadcastAck | transferAck =>
    rw [hpc] at h
    cases h
  | save m =>
    rw [hpc] at h
    dsimp only at h
    split at h <;> cases h
  | move k =>
    rw [hpc] at h
    exact h
  | learn k =>
    rw [hpc] at h
    dsimp only at h
    split at h
    · exact h
    · cases h

end Threads

section Processes

variable {i : Fin N} {t : Process N} {r : Process N × List (Packet N)}

theorem sendMsg_small (hseq : t.threads.node.seqNum + 1 < 2 ^ 31)
    (hack : t.threads.node.ackNum < 2 ^ 31) (h : Small t.threads.sender.numbers)
    (hsend : t.sendMsg i = some r) : Small r.1.threads.sender.numbers ∧
      (∀ p ∈ r.2, Small p.numbers) ∧ r.1.processMsg = t.processMsg ∧
      r.1.threads.receiver = t.threads.receiver := by
  rcases sendMsg_spec hsend with ⟨-, rfl⟩ | ⟨-, -, rfl⟩
  · obtain ⟨hsender, hsent⟩ := sendThread_small (i := i) hseq hack h
    refine ⟨hsender, fun p hp => ?_, rfl, ?_⟩
    · obtain ⟨m, hm, rfl⟩ := List.mem_map.mp hp
      exact hsent m hm
    · simp only [sendThread]
      split <;> first | rfl | (split <;> rfl)
  · exact ⟨h, fun _ hp => absurd hp List.not_mem_nil, rfl, rfl⟩

theorem call_small (hack : t.threads.node.ackNum < 2 ^ 31) (h : Small t.threads.receiver.numbers)
    (hcall : t.call i = some r) : Small r.1.threads.receiver.numbers ∧
      (∀ p ∈ r.2, Small p.numbers) ∧ r.1.threads.sender = t.threads.sender ∧
      ∀ p, r.1.threads.receiver.held = some p → t.threads.receiver.held = some p := by
  have hok {p : Packet N} (hp : p.numbers = []) : ∀ q ∈ [p], Small q.numbers := by
    intro q hq
    rw [List.mem_singleton.mp hq, hp]
    exact small_nil
  rw [Process.call] at hcall
  cases hpc : t.processMsg with
  | loop =>
    rw [hpc] at hcall
    cases hcall
    obtain ⟨hreceiver, hsent⟩ := recvThread_small (i := i) hack h
    refine ⟨hreceiver, fun p hp => ?_, ?_, fun p hp => recvThread_held hp⟩
    · obtain ⟨m, hm, rfl⟩ := List.mem_map.mp hp
      exact hsent m hm
    · simp only [recvThread]
      split <;> first | rfl | (split <;> rfl)
  | startLeader | stopLeader =>
    rw [hpc] at hcall
    cases hcall
    exact ⟨h, hok rfl, rfl, fun _ hp => hp⟩
  | post =>
    rw [hpc] at hcall
    cases hcall
    exact ⟨h, fun _ hp => absurd hp List.not_mem_nil, rfl, fun _ hp => hp⟩
  | exited =>
    rw [hpc] at hcall
    cases hcall

/-- A handler forwards the packet that it holds, and nothing else. -/
theorem call_forwards (hforwards : t.forwards = true) (hcall : t.call i = some r) :
    ∃ p, t.threads.receiver.held = some p ∧ r.2 = [p] := by
  rw [Process.forwards] at hforwards
  split at hforwards
  · rename_i m hloop hpc
    rw [Process.call, hloop] at hcall
    cases hcall
    refine ⟨_, by rw [hpc]; rfl, ?_⟩
    simp only [recvThread, hpc]
    rfl
  · rename_i k hloop hpc
    rw [Process.call, hloop] at hcall
    cases hcall
    refine ⟨_, by rw [hpc]; rfl, ?_⟩
    simp only [recvThread, hpc]
    rfl
  · cases hforwards

theorem switch_spec (hready : t.threads.receiver = .ready) {p : Packet N} (hp : Small p.numbers) :
    Small (t.switch i p).threads.receiver.numbers ∧
      (t.switch i p).threads.sender = t.threads.sender ∧
      ∀ q, (t.switch i p).threads.receiver.held = some q → q = p := by
  have hsame {u : Process N} (hu : u.threads = t.threads) : Small u.threads.receiver.numbers ∧
      u.threads.sender = t.threads.sender ∧ ∀ q, u.threads.receiver.held = some q → q = p := by
    rw [hu, hready]
    exact ⟨small_nil, rfl, fun _ hq => by cases hq⟩
  cases p with
  | y => exact hsame (switch_threads i t rfl)
  | n => exact hsame (switch_threads i t rfl)
  | message m =>
    cases m with
    | b m =>
      rw [Process.switch, receiveMsg]
      dsimp only
      split
      · exact ⟨hp, rfl, fun _ hq => (Option.some.inj hq).symm⟩
      · exact ⟨hp, rfl, fun _ hq => by cases hq⟩
    | a k =>
      rw [Process.switch, receiveMsg]
      dsimp only
      split
      · exact ⟨hp, rfl, fun _ hq => (Option.some.inj hq).symm⟩
      · exact ⟨small_nil, rfl, fun _ hq => by cases hq⟩

end Processes

/-! ## Refinement -/

/-- The program of bytes is where that of packets is: its connections carry the packets, and what
a handler is to forward is still in `m`. -/
structure Refines (f : Frames N) (w : WireProgram N) (s : Program N) : Prop where
  main : w.main = s.main
  processes : w.processes = s.processes
  inbox : ∀ i, Holds sizeofLen (Packet.bytes f) (w.inbox i) (s.inbox i)
  reading : ∀ i h, (w.inbox i).taken = some h → (s.processes i).Reads
  held : ∀ i p, (s.processes i).threads.receiver.held = some p → w.m i = p.bytes f
  sender : ∀ i, Small (s.processes i).threads.sender.numbers
  receiver : ∀ i, Small (s.processes i).threads.receiver.numbers
  packets : ∀ i, ∀ p ∈ s.inbox i, Small p.numbers

section Refinement

variable {f : Frames N} {hN : 2 ≤ N} {w w' : WireProgram N} {s s' : Program N} {i : Fin N}

theorem refines_initial : Refines f (WireProgram.initial : WireProgram N) Program.initial where
  main := rfl
  processes := rfl
  inbox _ := holds_empty
  reading _ _ h := by cases h
  held _ _ h := by cases h
  sender _ := small_nil
  receiver _ := small_nil
  packets _ _ h := absurd h List.not_mem_nil

/-- A process takes a step and sends packets. -/
theorem Refines.after (h : Refines f w s) {t : Process N} {out : List (Packet N)}
    (hreading : ∀ len, (w.inbox i).taken = some len → t.Reads)
    (hheld : ∀ p, t.threads.receiver.held = some p → w.m i = p.bytes f)
    (hsender : Small t.threads.sender.numbers) (hreceiver : Small t.threads.receiver.numbers)
    (hout : ∀ p ∈ out, Small p.numbers) :
    Refines f (w.after i t (out.flatMap (Packet.bytes f))) (s.after i (t, out)) := by
  have htaken : ∀ j, ((w.after i t (out.flatMap (Packet.bytes f))).inbox j).taken =
      (w.inbox j).taken := by
    intro j
    by_cases hj : j = getSuccessor i
    · subst hj
      simp [WireProgram.after]
    · simp [WireProgram.after, hj]
  constructor
  case main => exact h.main
  case processes => simp only [WireProgram.after, Program.after, h.processes]
  case inbox =>
    intro j
    by_cases hj : j = getSuccessor i
    · subst hj
      simpa [WireProgram.after, Program.after] using (h.inbox (getSuccessor i)).send out
    · simpa [WireProgram.after, Program.after, hj] using h.inbox j
  case reading =>
    intro j len hlen
    rw [htaken] at hlen
    by_cases hj : j = i
    · subst hj
      simpa [Program.after] using hreading len hlen
    · simpa [Program.after, hj] using h.reading j len hlen
  case held =>
    intro j p hp
    by_cases hj : j = i
    · subst hj
      exact hheld p (by simpa [Program.after] using hp)
    · exact h.held j p (by simpa [Program.after, hj] using hp)
  case sender =>
    intro j
    by_cases hj : j = i
    · subst hj
      simpa [Program.after] using hsender
    · simpa [Program.after, hj] using h.sender j
  case receiver =>
    intro j
    by_cases hj : j = i
    · subst hj
      simpa [Program.after] using hreceiver
    · simpa [Program.after, hj] using h.receiver j
  case packets =>
    intro j p hp
    by_cases hj : j = getSuccessor i
    · subst hj
      simp only [Program.after, Function.update_self] at hp
      rcases List.mem_append.mp hp with hp | hp
      · exact h.packets _ p hp
      · exact hout p hp
    · simp only [Program.after, Function.update_of_ne hj] at hp
      exact h.packets j p hp

/-- Bytes arrive, or the length of a packet is received. -/
theorem Refines.update_inbox (h : Refines f w s) {c : Connection}
    (hholds : Holds sizeofLen (Packet.bytes f) c (s.inbox i))
    (hreading : ∀ len, c.taken = some len → (s.processes i).Reads) :
    Refines f { w with inbox := Function.update w.inbox i c } s where
  main := h.main
  processes := h.processes
  inbox j := by
    by_cases hj : j = i
    · subst hj
      simpa using hholds
    · simpa [hj] using h.inbox j
  reading j len hlen := by
    by_cases hj : j = i
    · subst hj
      exact hreading len (by simpa using hlen)
    · exact h.reading j len (by simpa [hj] using hlen)
  held := h.held
  sender := h.sender
  receiver := h.receiver
  packets := h.packets

/-- The rest of the first packet, once the connection brings it. -/
theorem Refines.receiveRest (hmax : N ≤ maxNodes) (h : Refines f w s) {len : List Byte}
    (hlen : (w.inbox i).taken = some len) {packet : Packet N} {rest : List (Packet N)}
    (hinbox : s.inbox i = packet :: rest) :
    (∀ w', w.receiveRest i len = some w' →
      Refines f w' (s.receive i ((s.processes i).switch i packet) packet rest)) ∧
    ((w.inbox i).flight = [] → (w.receiveRest i len).isSome) := by
  have hholds := hinbox ▸ h.inbox i
  have hle := sizeofLen_le_bytes f packet
  have hsmall : Small packet.numbers := h.packets i packet (hinbox ▸ List.mem_cons_self)
  have hread : readLen len = some (packet.bytes f).length := by
    rw [hholds.head_eq hle hlen, readLen_bytes]
  constructor
  · intro w' hw'
    rw [WireProgram.receiveRest, hread, Option.bind_some] at hw'
    obtain ⟨⟨m, c⟩, htake, hw'⟩ := Option.bind_eq_some_iff.mp hw'
    obtain ⟨rfl, hrest⟩ := hholds.takeRest hle hlen htake
    have hpacket := readPacket_bytes (f := f) hmax hsmall
    dsimp only at hw'
    rw [hpacket, Option.map_some] at hw'
    cases hw'
    obtain ⟨hreceiver, hsender, hheld⟩ := switch_spec (i := i) (h.reading i len hlen).2 hsmall
    have hnone := Connection.takeRest_taken htake
    constructor
    case main => exact h.main
    case processes => simp only [Program.receive, h.processes, Option.elim_some]
    case inbox =>
      intro j
      by_cases hj : j = i
      · subst hj
        simpa [Program.receive] using hrest
      · simpa [Program.receive, hj] using h.inbox j
    case reading =>
      intro j l hl
      by_cases hj : j = i
      · subst hj
        simp [hnone] at hl
      · simp only [Function.update_of_ne hj] at hl
        simpa [Program.receive, hj] using h.reading j l hl
    case held =>
      intro j p hp
      by_cases hj : j = i
      · subst hj
        simp only [Program.receive, Function.update_self] at hp
        simp [hheld p hp]
      · simp only [Program.receive, Function.update_of_ne hj] at hp
        simpa [hj] using h.held j p hp
    case sender =>
      intro j
      by_cases hj : j = i
      · subst hj
        simpa [Program.receive, hsender] using h.sender j
      · simpa [Program.receive, hj] using h.sender j
    case receiver =>
      intro j
      by_cases hj : j = i
      · subst hj
        simpa [Program.receive] using hreceiver
      · simpa [Program.receive, hj] using h.receiver j
    case packets =>
      intro j p hp
      by_cases hj : j = i
      · subst hj
        simp only [Program.receive, Function.update_self] at hp
        exact h.packets j p (hinbox ▸ List.mem_cons_of_mem _ hp)
      · simp only [Program.receive, Function.update_of_ne hj] at hp
        exact h.packets j p hp
  · intro hflight
    obtain ⟨⟨m, c⟩, htake⟩ := Option.isSome_iff_exists.mp (hholds.takeRest_isSome hlen hflight)
    obtain ⟨rfl, -⟩ := hholds.takeRest hle hlen htake
    have hpacket := readPacket_bytes (f := f) hmax hsmall
    rw [WireProgram.receiveRest, hread, Option.bind_some, htake, Option.bind_some, hpacket]
    rfl

theorem Refines.lead (h : Refines f w s) {r : MainPc × Packet N}
    (hlead : leadTest s.main = some r) :
    Refines f { w.after (leader hN) (w.processes (leader hN)) (r.2.bytes f) with main := r.1 }
      { s.after (leader hN) (s.processes (leader hN), [r.2]) with main := r.1 } := by
  have hout : ∀ p ∈ [r.2], Small p.numbers := by
    intro p hp
    rw [List.mem_singleton.mp hp]
    cases hmain : s.main <;> rw [hmain] at hlead <;> cases hlead <;> exact small_nil
  have hafter := h.after (h.reading (leader hN)) (h.held _) (h.sender _) (h.receiver _) hout
  have hbytes : [r.2].flatMap (Packet.bytes f) = r.2.bytes f := by simp
  rw [hbytes] at hafter
  rw [h.processes]
  exact ⟨rfl, hafter.processes, hafter.inbox, hafter.reading, hafter.held, hafter.sender,
    hafter.receiver, hafter.packets⟩

theorem Refines.sendMsg (h : Refines f w s) (hrange : InRange s.processes)
    {r : Process N × List (Packet N)} (hsend : (s.processes i).sendMsg i = some r) :
    Refines f (w.after i r.1 (r.2.flatMap (Packet.bytes f))) (s.after i r) := by
  obtain ⟨hseq, hack⟩ := hrange i
  obtain ⟨hsender, hout, hpc, hreceiver⟩ :=
    sendMsg_small hseq (Nat.lt_of_succ_lt hack) (h.sender i) hsend
  refine h.after (fun len hlen => ?_) (fun p hp => h.held i p (hreceiver ▸ hp)) hsender
    (hreceiver ▸ h.receiver i) hout
  obtain ⟨hloop, hready⟩ := h.reading i len hlen
  exact ⟨hpc.trans hloop, hreceiver.trans hready⟩

theorem Refines.call (h : Refines f w s) (hrange : InRange s.processes)
    {r : Process N × List (Packet N)} (hbusy : ¬ (s.processes i).Reads)
    (hcall : (s.processes i).call i = some r) :
    Refines f (w.after i r.1
      (if (s.processes i).forwards then w.m i else r.2.flatMap (Packet.bytes f)))
      (s.after i r) := by
  obtain ⟨hreceiver, hout, hsender, hheld⟩ :=
    call_small (Nat.lt_of_succ_lt (hrange i).2) (h.receiver i) hcall
  have hafter := h.after (fun len hlen => absurd (h.reading i len hlen) hbusy)
    (fun p hp => h.held i p (hheld p hp)) (hsender ▸ h.sender i) hreceiver hout
  split
  · rename_i hforwards
    obtain ⟨p, hp, hsent⟩ := call_forwards hforwards hcall
    have hbytes : r.2.flatMap (Packet.bytes f) = w.m i := by
      rw [hsent, h.held i p hp]
      simp
    rwa [← hbytes]
  · exact hafter

/-- A step on the bytes is a step on the packets, or none when only some bytes arrive or a length
is received. -/
theorem wire_step_simulates (hmax : N ≤ maxNodes) (h : Refines f w s)
    (hrange : InRange w.processes)
    {e : WireEvent N} (hstep : w.step f hN e = some w') :
    ∃ ds s', exec (Program.step hN) s ds = some s' ∧ Refines f w' s' := by
  rw [h.processes] at hrange
  cases e with
  | main =>
    obtain ⟨r, hlead, rfl⟩ := Option.map_eq_some_iff.mp hstep
    rw [h.main] at hlead
    refine ⟨[.main], _, ?_, h.lead hlead⟩
    rw [exec_cons, Program.step, hlead]
    rfl
  | send i =>
    obtain ⟨r, hsend, rfl⟩ := Option.map_eq_some_iff.mp hstep
    rw [h.processes] at hsend
    refine ⟨[.send i], _, ?_, h.sendMsg hrange hsend⟩
    rw [exec_cons, Program.step, hsend]
    rfl
  | recv i =>
    have hprocess : w.processes i = s.processes i := congrFun h.processes i
    rw [WireProgram.step, hprocess] at hstep
    split at hstep
    · rename_i hreads
      split at hstep
      · rename_i hnone
        obtain ⟨c, htake, rfl⟩ := Option.map_eq_some_iff.mp hstep
        exact ⟨[], s, rfl, h.update_inbox ((h.inbox i).takeHead (by decide) hnone htake)
          fun _ _ => hreads⟩
      · rename_i len hlen
        obtain ⟨packet, rest, hinbox⟩ := List.exists_cons_of_ne_nil ((h.inbox i).taken len hlen).2
        refine ⟨[.recv i], _, ?_, (h.receiveRest hmax hlen hinbox).1 w' hstep⟩
        rw [exec_cons, Program.step, if_pos hreads, hinbox]
        rfl
    · rename_i hbusy
      obtain ⟨r, hcall, rfl⟩ := Option.map_eq_some_iff.mp hstep
      refine ⟨[.recv i], _, ?_, h.call hrange hbusy hcall⟩
      rw [exec_cons, Program.step, if_neg hbusy, hcall]
      rfl
  | carry i k =>
    cases hstep
    exact ⟨[], s, rfl, h.update_inbox ((h.inbox i).carry k) (h.reading i)⟩

/-- Once all its bytes have arrived, the next packet is received and recognised. -/
theorem Refines.recv_isSome (hmax : N ≤ maxNodes) (h : Refines f w s)
    (hreads : (w.processes i).Reads) (hbytes : (w.inbox i).bytes ≠ [])
    (hflight : (w.inbox i).flight = []) : (w.step f hN (.recv i)).isSome := by
  obtain ⟨packet, rest, hinbox⟩ : ∃ packet rest, s.inbox i = packet :: rest := by
    apply List.exists_cons_of_ne_nil
    intro hempty
    rw [(h.inbox i).bytes, hempty] at hbytes
    exact hbytes rfl
  have hholds := hinbox ▸ h.inbox i
  rw [WireProgram.step, if_pos hreads]
  cases htaken : (w.inbox i).taken with
  | none =>
    have htake := hholds.takeHead_isSome (sizeofLen_le_bytes f packet) htaken hflight
    obtain ⟨c, hc⟩ := Option.isSome_iff_exists.mp htake
    simp only [hc, Option.map_some, Option.isSome_some]
  | some len => exact (h.receiveRest hmax htaken hinbox).2 hflight

/-- **Bytes.** In every run without an overflow, the processes are where they are in a run that
exchanges whole packets, each connection carries the bytes of the packets, and a process that is
to read and has bytes to come receives a packet once they have arrived. -/
theorem bytes_simulate (hmax : N ≤ maxNodes) {es : List (WireEvent N)}
    (hrange : Along (WireProgram.step f hN) (fun w _ => InRange w.processes) .initial es)
    (h : exec (WireProgram.step f hN) .initial es = some w) :
    ∃ fs s, exec (Program.step hN) Program.initial fs = some s ∧ w.main = s.main ∧
      w.processes = s.processes ∧
      (∀ i, (w.inbox i).bytes = (s.inbox i).flatMap (Packet.bytes f)) ∧
      ∀ i, (w.processes i).Reads → (w.inbox i).bytes ≠ [] → (w.inbox i).flight = [] →
        (w.step f hN (.recv i)).isSome := by
  obtain ⟨fs, s, hs, hrefines⟩ := exec_simulates
    (fun _ _ _ _ hR hok hstep => wire_step_simulates hmax hR hok hstep) refines_initial hrange h
  exact ⟨fs, s, hs, hrefines.main, hrefines.processes, fun i => (hrefines.inbox i).bytes,
    fun i => hrefines.recv_isSome hmax⟩

/-! ## Every run that exchanges packets -/

/-- Everything sent has arrived, and nothing is half received. -/
def Settled (w : WireProgram N) : Prop :=
  ∀ i, (w.inbox i).taken = none ∧ (w.inbox i).flight = []

/-- A process has taken a step: what it has sent arrives. -/
theorem settle (f : Frames N) (hN : 2 ≤ N) (h : Settled w) (i : Fin N) (t : Process N)
    (bytes : List Byte) (main : MainPc) :
    ∃ ds w', exec (WireProgram.step f hN) { w.after i t bytes with main := main } ds = some w' ∧
      Settled w' ∧ ∀ s, Refines f { w.after i t bytes with main := main } s → Refines f w' s := by
  refine ⟨[.carry (getSuccessor i) bytes.length], _, rfl, fun j => ?_,
    fun s hs => hs.update_inbox ((hs.inbox _).carry _) (hs.reading _)⟩
  obtain ⟨htaken, hflight⟩ := h j
  by_cases hj : j = getSuccessor i
  · subst hj
    simp [WireProgram.after, Connection.carry, Connection.send, htaken, hflight]
  · simp [WireProgram.after, hj, htaken, hflight]

theorem settled_receiveRest {len : List Byte} (hothers : ∀ j ≠ i, (w.inbox j).taken = none)
    (hflight : ∀ j, (w.inbox j).flight = []) (h : w.receiveRest i len = some w') : Settled w' := by
  obtain ⟨n, -, h⟩ := Option.bind_eq_some_iff.mp h
  obtain ⟨⟨m, c⟩, htake, h⟩ := Option.bind_eq_some_iff.mp h
  obtain ⟨packet, -, rfl⟩ := Option.map_eq_some_iff.mp h
  intro j
  by_cases hj : j = i
  · subst hj
    have hsame : c.flight = (w.inbox j).flight := Connection.takeRest_flight htake
    simp [Connection.takeRest_taken htake, hsame, hflight j]
  · simp [hj, hothers j hj, hflight j]

/-- A packet that has arrived is received in two steps. -/
theorem Refines.receive (hN : 2 ≤ N) (hmax : N ≤ maxNodes) (h : Refines f w s)
    (hsettled : Settled w) (hreads : (s.processes i).Reads) {packet : Packet N}
    {rest : List (Packet N)} (hinbox : s.inbox i = packet :: rest) :
    ∃ w', exec (WireProgram.step f hN) w [.recv i, .recv i] = some w' ∧
      Refines f w' (s.receive i ((s.processes i).switch i packet) packet rest) ∧ Settled w' := by
  have hprocess : w.processes i = s.processes i := congrFun h.processes i
  have hholds := hinbox ▸ h.inbox i
  obtain ⟨hnone, hflight⟩ := hsettled i
  -- the head leaves the connection where it was for the program of packets
  obtain ⟨c, htake⟩ := Option.isSome_iff_exists.mp
    (hholds.takeHead_isSome (sizeofLen_le_bytes f packet) hnone hflight)
  obtain ⟨hctaken, hcflight⟩ := Connection.takeHead_eq htake
  have hfirst := h.update_inbox ((h.inbox i).takeHead (by decide) hnone htake) fun _ _ => hreads
  have htaken : (Function.update w.inbox i c i).taken =
      some ((w.inbox i).arrived.take sizeofLen) := by
    rw [Function.update_self, hctaken]
  obtain ⟨hall, hsome⟩ := hfirst.receiveRest hmax htaken hinbox
  obtain ⟨w', hrest⟩ := Option.isSome_iff_exists.mp (hsome (by simp [hcflight, hflight]))
  refine ⟨w', ?_, hall w' hrest, settled_receiveRest (fun j hj => ?_) (fun j => ?_) hrest⟩
  · rw [exec_cons, WireProgram.step, hprocess, if_pos hreads, hnone]
    dsimp only
    rw [htake, Option.map_some, Option.bind_some, exec_cons, WireProgram.step]
    dsimp only
    rw [hprocess, if_pos hreads, htaken]
    dsimp only
    rw [hrest]
    rfl
  · simpa [hj] using (hsettled j).1
  · by_cases hj : j = i
    · subst hj
      simp [hcflight, hflight]
    · simpa [hj] using (hsettled j).2

/-- A step on the packets is one on the bytes, after which what was sent arrives. -/
theorem packet_step_simulates (hmax : N ≤ maxNodes) (h : Refines f w s) (hsettled : Settled w)
    (hrange : InRange s.processes) {e : ProgramEvent N} (hstep : s.step hN e = some s') :
    ∃ ds w', exec (WireProgram.step f hN) w ds = some w' ∧ Refines f w' s' ∧ Settled w' := by
  have hprocess : ∀ i, w.processes i = s.processes i := congrFun h.processes
  cases e with
  | main =>
    obtain ⟨r, hlead, rfl⟩ := Option.map_eq_some_iff.mp hstep
    obtain ⟨ds, w', hcarry, hsettled', hrefines⟩ := settle f hN hsettled (leader hN)
      (w.processes (leader hN)) (r.2.bytes f) r.1
    refine ⟨.main :: ds, w', ?_, hrefines _ (h.lead hlead), hsettled'⟩
    rw [exec_cons, WireProgram.step, h.main, hlead, Option.map_some, Option.bind_some]
    exact hcarry
  | send i =>
    obtain ⟨r, hsend, rfl⟩ := Option.map_eq_some_iff.mp hstep
    obtain ⟨ds, w', hcarry, hsettled', hrefines⟩ := settle f hN hsettled i r.1
      (r.2.flatMap (Packet.bytes f)) w.main
    refine ⟨.send i :: ds, w', ?_, hrefines _ (h.sendMsg hrange hsend), hsettled'⟩
    rw [exec_cons, WireProgram.step, hprocess, hsend, Option.map_some, Option.bind_some]
    exact hcarry
  | recv i =>
    rw [Program.step] at hstep
    split at hstep
    · rename_i hreads
      split at hstep
      · cases hstep
      · rename_i packet rest hinbox
        cases hstep
        obtain ⟨w', hw', hrefines, hsettled'⟩ := h.receive hN hmax hsettled hreads hinbox
        exact ⟨_, w', hw', hrefines, hsettled'⟩
    · rename_i hbusy
      obtain ⟨r, hcall, rfl⟩ := Option.map_eq_some_iff.mp hstep
      obtain ⟨ds, w', hcarry, hsettled', hrefines⟩ := settle f hN hsettled i r.1
        (if (s.processes i).forwards then w.m i else r.2.flatMap (Packet.bytes f)) w.main
      refine ⟨.recv i :: ds, w', ?_, hrefines _ (h.call hrange hbusy hcall), hsettled'⟩
      rw [exec_cons, WireProgram.step, hprocess, if_neg hbusy, hcall, Option.map_some,
        Option.bind_some]
      exact hcarry

/-- **Packets.** Every state that the program reaches by exchanging whole packets, without an
overflow, is reached on the bytes, with all that was sent arrived. -/
theorem bytes_reach (hmax : N ≤ maxNodes) {es : List (ProgramEvent N)}
    (hrange : Along (Program.step hN) (fun s _ => InRange s.processes) .initial es)
    (h : exec (Program.step hN) .initial es = some s) :
    ∃ fs w, exec (WireProgram.step f hN) .initial fs = some w ∧ w.main = s.main ∧
      w.processes = s.processes ∧
      ∀ i, w.inbox i = ⟨none, (s.inbox i).flatMap (Packet.bytes f), []⟩ := by
  have hsim : ∀ (s : Program N) (e : ProgramEvent N) (s' : Program N) (w : WireProgram N),
      Refines f w s ∧ Settled w → InRange s.processes → s.step hN e = some s' →
      ∃ ds w', exec (WireProgram.step f hN) w ds = some w' ∧ Refines f w' s' ∧ Settled w' :=
    fun _ _ _ _ hR hok hstep => packet_step_simulates hmax hR.1 hR.2 hok hstep
  obtain ⟨fs, w, hw, hrefines, hsettled⟩ := exec_simulates hsim
    ⟨refines_initial, fun _ => ⟨rfl, rfl⟩⟩ hrange h
  refine ⟨fs, w, hw, hrefines.main, hrefines.processes, fun i => ?_⟩
  obtain ⟨htaken, hflight⟩ := hsettled i
  have hbytes := (hrefines.inbox i).bytes
  rw [Connection.bytes, htaken, hflight, List.append_nil, Option.getD_none,
    List.nil_append] at hbytes
  rw [← hbytes, ← htaken, ← hflight]

/-- Broadcasts with two bytes of payload. -/
def shortFrames : Frames 2 := ⟨25, fun _ _ => 0#64, by decide, by decide⟩

/-- The leader `i` starts the test, and the first broadcast of the other process reaches it in two
pieces. -/
def startOnWire (i j : Fin 2) : List (WireEvent 2) :=
  [.main, .carry j 5, .recv j, .recv j, .recv j, .recv j, .send j, .send j, .send j, .carry i 7,
    .recv i, .carry i 23, .recv i, .recv i, .recv i, .recv i]

theorem bytes_simulate_start : ∃ w, exec (WireProgram.step shortFrames (Nat.le_refl 2)) .initial
      (startOnWire 0 1) = some w ∧
    ∃ fs s, exec (Program.step (Nat.le_refl 2)) Program.initial fs = some s ∧ w.main = s.main ∧
      w.processes = s.processes ∧
      (∀ i, (w.inbox i).bytes = (s.inbox i).flatMap (Packet.bytes shortFrames)) ∧
      ∀ i, (w.processes i).Reads → (w.inbox i).bytes ≠ [] → (w.inbox i).flight = [] →
        (w.step shortFrames (Nat.le_refl 2) (.recv i)).isSome := by
  let w := (exec (WireProgram.step shortFrames (Nat.le_refl 2)) .initial
    (startOnWire 0 1)).get (by decide)
  have hw : exec (WireProgram.step shortFrames (Nat.le_refl 2)) .initial (startOnWire 0 1) =
    some w := (Option.some_get _).symm
  exact ⟨w, hw, bytes_simulate (by decide) (by decide) hw⟩

/-- The same start by whole packets. -/
def startByPackets (j : Fin 2) : List (ProgramEvent 2) :=
  [.main, .recv j, .recv j, .recv j, .send j, .send j, .send j]

theorem bytes_reach_start : ∃ s, exec (Program.step (Nat.le_refl 2)) .initial
      (startByPackets 1) = some s ∧
    ∃ fs w, exec (WireProgram.step shortFrames (Nat.le_refl 2)) .initial fs = some w ∧
      w.main = s.main ∧ w.processes = s.processes ∧
      ∀ i, w.inbox i = ⟨none, (s.inbox i).flatMap (Packet.bytes shortFrames), []⟩ := by
  let s := (exec (Program.step (Nat.le_refl 2)) .initial (startByPackets 1)).get (by decide)
  have hs : exec (Program.step (Nat.le_refl 2)) .initial (startByPackets 1) = some s :=
    (Option.some_get _).symm
  exact ⟨s, hs, bytes_reach (by decide) (by decide) hs⟩

end Refinement

end UniformBroadcast.TcpRing
