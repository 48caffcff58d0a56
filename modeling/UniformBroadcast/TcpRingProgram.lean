import UniformBroadcast.TcpRingThreads

/-!
# The program of the TCP ring, from its start to its stop

The whole loop of `process_msg`, the semaphore that holds `send_msg` back and the calls of
`start_leader` and `stop_leader`, in the threads of `protocol_tcp/main.c`. Each call that reads or
writes what the threads share, or a connection, is one step. Without the packets `'y'` and `'n'`
a run of the program is a run of the two threads of each node.
-/

namespace UniformBroadcast.TcpRing

open Sequencer TransitionRuns

variable {N : ℕ}

/-- What a connection carries: the two packets `ok`, or a message. -/
inductive Packet (N : ℕ) where
  | y
  | n
  | message (m : Msg N)
  deriving DecidableEq, Repr

/-- Where `process_msg` is, outside `handle_msg` and `handle_ack`. -/
inductive ProcessPc where
  | loop
  | startLeader
  | post
  | stopLeader
  | exited
  deriving DecidableEq, Repr

/-- Where the main thread of the leader is: before `start_leader`, before `stop_leader`, or past
both. -/
inductive MainPc where
  | preparing
  | measuring
  | stopped
  deriving DecidableEq, Repr

/-- A process: `waiting` until `send_msg` has passed `sem_wait`. -/
structure Process (N : ℕ) where
  threads : Threads N
  processMsg : ProcessPc
  started : Bool
  mySem : ℕ
  waiting : Bool

def Process.initial : Process N where
  threads := ⟨Node.initial, .ready, .ready⟩
  processMsg := .loop
  started := false
  mySem := 0
  waiting := true

/-- The processes and the connections into them, with all that was ever written and read. -/
structure Program (N : ℕ) where
  main : MainPc
  processes : Fin N → Process N
  inbox : Fin N → List (Packet N)
  wrote : Fin N → List (Packet N)
  took : Fin N → List (Packet N)

/-- A step of the main thread of the leader, of `send_msg` or of `process_msg`. -/
inductive ProgramEvent (N : ℕ) where
  | main
  | send (i : Fin N)
  | recv (i : Fin N)
  deriving DecidableEq, Repr

namespace Program

def initial : Program N where
  main := .preparing
  processes := fun _ => Process.initial
  inbox := fun _ => []
  wrote := fun _ => []
  took := fun _ => []

/-- Process `i` becomes `r.1` and has written `r.2`. -/
def after (s : Program N) (i : Fin N) (r : Process N × List (Packet N)) : Program N :=
  { s with
    processes := Function.update s.processes i r.1
    inbox := Function.update s.inbox (getSuccessor i) (s.inbox (getSuccessor i) ++ r.2)
    wrote := Function.update s.wrote i (s.wrote i ++ r.2) }

/-- Process `i` becomes `t`, has taken a packet and keeps `rest` to read. -/
def receive (s : Program N) (i : Fin N) (t : Process N) (packet : Packet N)
    (rest : List (Packet N)) : Program N :=
  { s with
    processes := Function.update s.processes i t
    inbox := Function.update s.inbox i rest
    took := Function.update s.took i (s.took i ++ [packet]) }

end Program

/-- The `switch` of `process_msg`. -/
def Process.switch (self : Fin N) (t : Process N) : Packet N → Process N
  | .y =>
    if t.started then t
    else { t with started := true, processMsg := if self.val ≠ 0 then .startLeader else .post }
  | .n => { t with processMsg := if self.val ≠ 0 then .stopLeader else .exited }
  | .message m => { t with threads := receiveMsg self m t.threads }

/-- The next call of `process_msg`, when it is not to read. -/
def Process.call (self : Fin N) (t : Process N) : Option (Process N × List (Packet N)) :=
  match t.processMsg with
  | .loop =>
    let r := recvThread self t.threads
    some ({ t with threads := r.1 }, r.2.map .message)
  | .startLeader => some ({ t with processMsg := .post }, [.y])
  | .post => some ({ t with processMsg := .loop, mySem := t.mySem + 1 }, [])
  | .stopLeader => some ({ t with processMsg := .exited }, [.n])
  | .exited => none

/-- The next step of `send_msg`: `sem_wait`, then its loop. -/
def Process.sendMsg (self : Fin N) (t : Process N) : Option (Process N × List (Packet N)) :=
  if t.waiting then
    if t.mySem = 0 then none else some ({ t with mySem := t.mySem - 1, waiting := false }, [])
  else
    let r := sendThread self t.threads
    some ({ t with threads := r.1 }, r.2.map .message)

/-- `process_msg` is about to read the next packet. -/
def Process.Reads (t : Process N) : Prop := t.processMsg = .loop ∧ t.threads.receiver = .ready

instance (t : Process N) : Decidable t.Reads := inferInstanceAs (Decidable (_ ∧ _))

/-- What the main thread of the leader does next. -/
def leadTest : MainPc → Option (MainPc × Packet N)
  | .preparing => some (.measuring, .y)
  | .measuring => some (.stopped, .n)
  | .stopped => none

namespace Program

def step (hN : 2 ≤ N) (s : Program N) : ProgramEvent N → Option (Program N)
  | .main => (leadTest s.main).map fun r =>
      { s.after (leader hN) (s.processes (leader hN), [r.2]) with main := r.1 }
  | .send i => ((s.processes i).sendMsg i).map (s.after i)
  | .recv i =>
    if (s.processes i).Reads then
      match s.inbox i with
      | [] => none
      | packet :: rest => some (s.receive i ((s.processes i).switch i packet) packet rest)
    else ((s.processes i).call i).map (s.after i)

end Program

/-! ## The threads without their start and their stop -/

/-- The messages among the packets. -/
def messages : List (Packet N) → List (Msg N)
  | [] => []
  | .message m :: l => m :: messages l
  | .y :: l | .n :: l => messages l

@[simp] theorem messages_append (l k : List (Packet N)) :
    messages (l ++ k) = messages l ++ messages k := by
  induction l with
  | nil => rfl
  | cons p l ih => cases p <;> simp [messages, ih]

@[simp] theorem messages_map (l : List (Msg N)) : messages (l.map .message) = l := by
  induction l with
  | nil => rfl
  | cons m l ih => simp [messages, ih]

/-- The two threads of each process, and the messages on the connections. -/
def Program.ring (s : Program N) : ThreadedRing N where
  threads i := (s.processes i).threads
  inbox i := messages (s.inbox i)
  wrote i := messages (s.wrote i)
  took i := messages (s.took i)

theorem update_threads (f : Fin N → Process N) (i : Fin N) (t : Process N) :
    (fun j => (Function.update f i t j).threads) =
      Function.update (fun j => (f j).threads) i t.threads := by
  funext j
  exact Function.apply_update (fun _ p => p.threads) f i t j

theorem update_messages (f : Fin N → List (Packet N)) (i : Fin N) (l : List (Packet N)) :
    (fun j => messages (Function.update f i l j)) =
      Function.update (fun j => messages (f j)) i (messages l) := by
  funext j
  exact Function.apply_update (fun _ => messages) f i l j

section Ring

variable (s : Program N) (i : Fin N)

theorem ring_after (t : Process N) (out : List (Packet N)) : (s.after i (t, out)).ring =
    s.ring.after i (t.threads, messages out) := by
  simp only [Program.ring, Program.after, ThreadedRing.after, update_threads, update_messages,
    messages_append]

/-- A step that only concerns the start and the stop is none of the threads. -/
theorem ring_after_same (t : Process N) (out : List (Packet N))
    (ht : t.threads = (s.processes i).threads) (hout : messages out = []) :
    (s.after i (t, out)).ring = s.ring := by
  have hself : (s.processes i).threads = s.ring.threads i := rfl
  rw [ring_after, ht, hout, hself]
  simp only [ThreadedRing.after, List.append_nil, Function.update_eq_self]

theorem ring_receive (t : Process N) (packet : Packet N) (rest : List (Packet N)) :
    (s.receive i t packet rest).ring = { s.ring with
      threads := Function.update s.ring.threads i t.threads
      inbox := Function.update s.ring.inbox i (messages rest)
      took := Function.update s.ring.took i (s.ring.took i ++ messages [packet]) } := by
  simp only [Program.ring, Program.receive, update_threads, update_messages, messages_append]

end Ring

theorem switch_threads (self : Fin N) (t : Process N) {packet : Packet N}
    (h : messages [packet] = []) : (t.switch self packet).threads = t.threads := by
  cases packet with
  | y =>
    rw [Process.switch]
    split <;> rfl
  | n => rfl
  | message m => cases h

/-- A call of `process_msg` is a step of the receiver thread or concerns the start and the stop
only. -/
theorem call_spec {self : Fin N} {t : Process N} {r : Process N × List (Packet N)}
    (h : t.call self = some r) :
    (t.processMsg = .loop ∧ r = ({ t with threads := (recvThread self t.threads).1 },
      (recvThread self t.threads).2.map .message)) ∨
      (r.1.threads = t.threads ∧ messages r.2 = []) := by
  rw [Process.call] at h
  split at h
  · rename_i hloop
    exact .inl ⟨hloop, (Option.some.inj h).symm⟩
  · obtain rfl := Option.some.inj h
    exact .inr ⟨rfl, rfl⟩
  · obtain rfl := Option.some.inj h
    exact .inr ⟨rfl, rfl⟩
  · obtain rfl := Option.some.inj h
    exact .inr ⟨rfl, rfl⟩
  · cases h

theorem sendMsg_spec {self : Fin N} {t : Process N} {r : Process N × List (Packet N)}
    (h : t.sendMsg self = some r) :
    (t.waiting = false ∧ r = ({ t with threads := (sendThread self t.threads).1 },
      (sendThread self t.threads).2.map .message)) ∨
      (t.waiting = true ∧ t.mySem ≠ 0 ∧
        r = ({ t with mySem := t.mySem - 1, waiting := false }, [])) := by
  rw [Process.sendMsg] at h
  split at h
  · rename_i hwaiting
    split at h
    · cases h
    · rename_i hsem
      exact .inr ⟨hwaiting, hsem, (Option.some.inj h).symm⟩
  · rename_i hpassed
    exact .inl ⟨by simpa using hpassed, (Option.some.inj h).symm⟩

/-- The steps of the threads that a step of the program is: one or none. -/
theorem step_simulates (hN : 2 ≤ N) {s s' : Program N} {e : ProgramEvent N}
    (h : s.step hN e = some s') : ∃ ds, exec ThreadedRing.step s.ring ds = some s'.ring := by
  cases e with
  | main =>
    obtain ⟨⟨main, packet⟩, hlead, rfl⟩ := Option.map_eq_some_iff.mp h
    have hout : messages [packet] = [] := by
      cases hmain : s.main <;> rw [hmain] at hlead <;> cases hlead <;> rfl
    exact ⟨[], congrArg some (ring_after_same s (leader hN) _ _ rfl hout).symm⟩
  | send i =>
    obtain ⟨r, hsend, rfl⟩ := Option.map_eq_some_iff.mp h
    rcases sendMsg_spec hsend with ⟨-, rfl⟩ | ⟨-, -, rfl⟩
    · refine ⟨[.send i], ?_⟩
      rw [ring_after, messages_map]
      rfl
    · have hsame := ring_after_same s i
        { s.processes i with mySem := (s.processes i).mySem - 1, waiting := false } [] rfl rfl
      exact ⟨[], congrArg some hsame.symm⟩
  | recv i =>
    rw [Program.step] at h
    split at h
    · rename_i hreads
      cases hread : s.inbox i with
      | nil =>
        rw [hread] at h
        cases h
      | cons packet rest =>
        rw [hread] at h
        obtain rfl := Option.some.inj h
        have hinbox : s.ring.inbox i = messages [packet] ++ messages rest := by
          rw [← messages_append]
          exact congrArg messages hread
        cases hpacket : messages [packet] with
        | nil =>
          refine ⟨[], congrArg some ?_⟩
          rw [hpacket, List.nil_append] at hinbox
          have hself : (s.processes i).threads = s.ring.threads i := rfl
          rw [ring_receive, switch_threads i _ hpacket, hpacket, ← hinbox, hself, List.append_nil]
          simp only [Function.update_eq_self]
        | cons m l =>
          cases packet with
          | y | n => cases hpacket
          | message m =>
            have hready : (s.ring.threads i).receiver = .ready := hreads.2
            refine ⟨[.recv i], ?_⟩
            rw [exec_cons, ThreadedRing.step, if_pos hready, hinbox]
            exact congrArg some (ring_receive s i
              ((s.processes i).switch i (.message m)) (.message m) rest).symm
    · rename_i hbusy
      obtain ⟨r, hcall, rfl⟩ := Option.map_eq_some_iff.mp h
      rcases call_spec hcall with ⟨hloop, rfl⟩ | ⟨hthreads, hout⟩
      · have hready : (s.ring.threads i).receiver ≠ .ready := fun hready => hbusy ⟨hloop, hready⟩
        refine ⟨[.recv i], ?_⟩
        rw [exec_cons, ThreadedRing.step, if_neg hready, ring_after, messages_map]
        rfl
      · exact ⟨[], congrArg some (ring_after_same s i _ _ hthreads hout).symm⟩

/-- **Refinement.** Every run of the program is one of the threads: without the packets `'y'` and
`'n'` every state reached is one that they reach. -/
theorem program_simulates (hN : 2 ≤ N) {es : List (ProgramEvent N)} {s : Program N}
    (h : exec (Program.step hN) Program.initial es = some s) :
    ∃ fs, exec ThreadedRing.step ThreadedRing.initial fs = some s.ring := by
  have hsim : ∀ (s : Program N) (e : ProgramEvent N) (s' : Program N) (t : ThreadedRing N),
      t = s.ring → True → s.step hN e = some s' →
      ∃ ds t', exec ThreadedRing.step t ds = some t' ∧ t' = s'.ring := by
    rintro s e s' t rfl _ hstep
    obtain ⟨ds, hds⟩ := step_simulates hN hstep
    exact ⟨ds, _, hds, rfl⟩
  have hall : Along (Program.step hN) (fun _ _ => True) Program.initial es :=
    along_of_forall (fun _ _ _ => trivial) _
  obtain ⟨fs, t, hfs, rfl⟩ := exec_simulates hsim rfl hall h
  exact ⟨fs, hfs⟩

/-- The leader has started the test and the follower has read `'y'`. -/
theorem program_simulates_first : ∃ fs, exec ThreadedRing.step ThreadedRing.initial fs =
    some ((exec (Program.step (Nat.le_refl 2)) Program.initial [.main, .recv 1]).get
      (by decide)).ring :=
  program_simulates (Nat.le_refl 2) (Option.some_get _).symm

end UniformBroadcast.TcpRing
