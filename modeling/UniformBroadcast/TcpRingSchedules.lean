import UniformBroadcast.TcpRingStartStop

/-!
# The atomic ring among the schedules of the program

The program can start, let every `send_msg` pass its semaphore, and from then on run each
iteration of `send_msg` and each treatment of a message without interruption. So whatever the ring
of atomic steps reaches, the program reaches.
-/

namespace UniformBroadcast.TcpRing

open Sequencer TransitionRuns

variable {N : ℕ} {hN : 2 ≤ N}

/-! ## One thread that runs alone -/

section Alone

variable {s : Program N} {i : Fin N}

@[simp] theorem after_process (r : Process N × List (Packet N)) :
    (s.after i r).processes i = r.1 := Function.update_self ..

theorem after_process_of_ne (r : Process N × List (Packet N)) {j : Fin N} (h : j ≠ i) :
    (s.after i r).processes j = s.processes j := Function.update_of_ne h ..

@[simp] theorem after_wrote (r : Process N × List (Packet N)) :
    (s.after i r).wrote i = s.wrote i ++ r.2 := Function.update_self ..

theorem after_wrote_of_ne (r : Process N × List (Packet N)) {j : Fin N} (h : j ≠ i) :
    (s.after i r).wrote j = s.wrote j := Function.update_of_ne h ..

@[simp] theorem receive_process (t : Process N) (packet : Packet N) (rest : List (Packet N)) :
    (s.receive i t packet rest).processes i = t := Function.update_self ..

theorem receive_process_of_ne (t : Process N) (packet : Packet N) (rest : List (Packet N))
    {j : Fin N} (h : j ≠ i) : (s.receive i t packet rest).processes j = s.processes j :=
  Function.update_of_ne h ..

/-- Two steps of one process make up one. -/
theorem after_after (hN : 2 ≤ N) (t u : Process N) (k l : List (Packet N)) :
    (s.after i (t, k)).after i (u, l) = s.after i (u, k ++ l) := by
  have hne := getSuccessor_ne_self hN i
  simp only [Program.after, Function.update_idem, Function.update_self, List.append_assoc]

theorem after_nothing : s.after i (s.processes i, []) = s := by
  simp only [Program.after, List.append_nil, Function.update_eq_self]

/-- The process with other threads. -/
def Process.withThreads (t : Process N) (threads : Threads N) : Process N :=
  { t with threads := threads }

@[simp] theorem withThreads_threads (t : Process N) (threads : Threads N) :
    (t.withThreads threads).threads = threads := rfl

@[simp] theorem withThreads_processMsg (t : Process N) (threads : Threads N) :
    (t.withThreads threads).processMsg = t.processMsg := rfl

@[simp] theorem withThreads_waiting (t : Process N) (threads : Threads N) :
    (t.withThreads threads).waiting = t.waiting := rfl

theorem call_loop (self : Fin N) {t : Process N} (h : t.processMsg = .loop) : t.call self =
    some (t.withThreads (recvThread self t.threads).1,
      (recvThread self t.threads).2.map .message) := by
  simp only [Process.call, Process.withThreads, h]

/-- The steps of `send_msg` in a row, behind its semaphore. -/
theorem exec_send (hN : 2 ≤ N) (hpassed : (s.processes i).waiting = false) (k : ℕ) :
    exec (Program.step hN) s (List.replicate k (.send i)) =
      some (s.after i
        ((s.processes i).withThreads (iterate (sendThread i) k (s.processes i).threads).1,
          (iterate (sendThread i) k (s.processes i).threads).2.map .message)) := by
  induction k generalizing s with
  | zero => exact congrArg some after_nothing.symm
  | succ k ih =>
    have hstep : s.step hN (.send i) = some (s.after i
        ((s.processes i).withThreads (sendThread i (s.processes i).threads).1,
          (sendThread i (s.processes i).threads).2.map .message)) := by
      simp [Program.step, Process.sendMsg, hpassed, Process.withThreads]
    rw [List.replicate_succ, exec_cons, hstep, Option.bind_some, ih (by simpa using hpassed),
      after_after hN, ← List.map_append]
    simp only [after_process, iterate]
    rfl

/-- The steps of `process_msg` in a row, until it reads again. -/
theorem exec_recv (hN : 2 ≤ N) (hloop : (s.processes i).processMsg = .loop) (k : ℕ) :
    ∃ fs, exec (Program.step hN) s fs =
      some (s.after i
        ((s.processes i).withThreads (iterate (recvThread i) k (s.processes i).threads).1,
          (iterate (recvThread i) k (s.processes i).threads).2.map .message)) := by
  induction k generalizing s with
  | zero => exact ⟨[], congrArg some after_nothing.symm⟩
  | succ k ih =>
    by_cases hready : (s.processes i).threads.receiver = .ready
    · -- it has nothing to do
      have hsame : recvThread i (s.processes i).threads = ((s.processes i).threads, []) := by
        rw [recvThread, hready]
      obtain ⟨fs, hfs⟩ := ih hloop
      refine ⟨fs, ?_⟩
      rw [hfs, iterate, hsame]
      rfl
    · have hstep : s.step hN (.recv i) = some (s.after i
          ((s.processes i).withThreads (recvThread i (s.processes i).threads).1,
            (recvThread i (s.processes i).threads).2.map .message)) := by
        have hbusy : ¬ (s.processes i).Reads := fun hreads => hready hreads.2
        rw [Program.step, if_neg hbusy, call_loop i hloop]
        rfl
      have hnext : ((s.after i
          ((s.processes i).withThreads (recvThread i (s.processes i).threads).1,
            (recvThread i (s.processes i).threads).2.map .message)).processes i).processMsg =
              .loop := by
        simpa using hloop
      obtain ⟨fs, hfs⟩ := ih hnext
      refine ⟨.recv i :: fs, ?_⟩
      rw [exec_cons, hstep, Option.bind_some, hfs, after_after hN, ← List.map_append]
      simp only [after_process, iterate]
      rfl

end Alone

/-! ## One step of the atomic ring -/

/-- A process whose threads run and hold nothing. -/
def Process.idle (n : Node N) : Process N where
  threads := ⟨n, .ready, .ready⟩
  processMsg := .loop
  started := true
  mySem := 0
  waiting := false

/-- The program between two iterations of every thread. -/
structure Between (s : Program N) (r : Ring N) : Prop where
  idle : ∀ i, s.processes i = Process.idle (r.nodes i)
  inbox : ∀ i, s.inbox i = (r.inbox i).map .message

section Blocks

variable {s : Program N} {r r' : Ring N}

/-- Process `i` has become idle again and has written messages. -/
theorem between_after {i : Fin N} {rest : List (Msg N)}
    (hidle : ∀ j, j ≠ i → s.processes j = Process.idle (r.nodes j))
    (hinbox : ∀ j, s.inbox j = (Function.update r.inbox i rest j).map .message) (n : Node N)
    (out : List (Msg N)) :
    Between (s.after i (Process.idle n, out.map .message)) (r.after i rest (n, out)) where
  idle j := by
    by_cases hj : j = i
    · subst hj
      rw [after_process, after_nodes_self]
    · rw [after_nodes_of_ne _ _ _ _ _ hj, ← hidle j hj]
      exact Function.update_of_ne hj _ _
  inbox j := by
    by_cases hj : j = getSuccessor i
    · subst hj
      simp [Program.after, Ring.after, hinbox]
    · simp [Program.after, Ring.after, hinbox, hj]

theorem exists_block_send (hN : 2 ≤ N) (hs : Between s r) (i : Fin N) :
    ∃ fs s', exec (Program.step hN) s fs = some s' ∧
      Between s' (r.after i (r.inbox i) (sendMsg i (r.nodes i))) := by
  obtain ⟨k, hk⟩ := iterate_sendThread i (r.nodes i) .ready
  refine ⟨List.replicate k (.send i), _, exec_send hN (by rw [hs.idle]; rfl) k, ?_⟩
  rw [hs.idle i, Process.idle, hk]
  refine between_after (fun j _ => hs.idle j) ?_ _ _
  intro j
  rw [Function.update_eq_self]
  exact hs.inbox j

/-- The messages are treated by what `handle` is. -/
theorem exists_block_recv (hN : 2 ≤ N) (hs : Between s r) {i : Fin N} {m : Msg N}
    {rest : List (Msg N)} (hread : r.inbox i = m :: rest) {n : Node N} {out : List (Msg N)}
    (hiterate : ∃ k, iterate (recvThread i) k (receiveMsg i m ⟨r.nodes i, .ready, .ready⟩) =
      (⟨n, .ready, .ready⟩, out)) :
    ∃ fs s', exec (Program.step hN) s fs = some s' ∧ Between s' (r.after i rest (n, out)) := by
  obtain ⟨k, hk⟩ := hiterate
  have hidle := hs.idle i
  have hinbox : s.inbox i = .message m :: rest.map .message := by
    rw [hs.inbox, hread]
    rfl
  let t : Process N := (Process.idle (r.nodes i)).withThreads
    (receiveMsg i m ⟨r.nodes i, .ready, .ready⟩)
  have hstep : s.step hN (.recv i) = some (s.receive i t (.message m) (rest.map .message)) := by
    have hreads : (s.processes i).Reads := by
      rw [hidle]
      exact ⟨rfl, rfl⟩
    rw [Program.step, if_pos hreads, hinbox, hidle]
    rfl
  set u := s.receive i t (.message m) (rest.map .message)
  have hself : u.processes i = t := Function.update_self ..
  obtain ⟨fs, hfs⟩ := exec_recv (s := u) (i := i) hN (by rw [hself]; rfl) k
  rw [hself, withThreads_threads, hk] at hfs
  refine ⟨.recv i :: fs, _, by rw [exec_cons, hstep]; exact hfs, ?_⟩
  refine between_after (s := u) (fun j hj => ?_) (fun j => ?_) n out
  · rw [← hs.idle j]
    exact Function.update_of_ne hj _ _
  · by_cases hj : j = i
    · subst hj
      rw [Function.update_self]
      exact Function.update_self ..
    · rw [Function.update_of_ne hj, ← hs.inbox]
      exact Function.update_of_ne hj _ _

/-- An atomic step is a run of the program. -/
theorem exists_block (hN : 2 ≤ N) (hs : Between s r) {e : Event N}
    (h : TcpRing.step r e = some r') :
    ∃ fs s', exec (Program.step hN) s fs = some s' ∧ Between s' r' := by
  cases e with
  | send i =>
    obtain rfl : _ = r' := Option.some.inj h
    exact exists_block_send hN hs i
  | recv i =>
    cases hread : r.inbox i with
    | nil => simp [TcpRing.step, hread] at h
    | cons m rest =>
      cases m with
      | b m =>
        obtain rfl : _ = r' := Option.some.inj (by simpa only [TcpRing.step, hread] using h)
        exact exists_block_recv hN hs hread (iterate_recvThread_msg i m (r.nodes i) .ready)
      | a k =>
        obtain rfl : _ = r' := Option.some.inj (by simpa only [TcpRing.step, hread] using h)
        exact exists_block_recv hN hs hread (iterate_recvThread_ack i k (r.nodes i) .ready)

theorem exists_blocks (hN : 2 ≤ N) (hs : Between s r) {es : List (Event N)}
    (h : exec TcpRing.step r es = some r') :
    ∃ fs s', exec (Program.step hN) s fs = some s' ∧ Between s' r' := by
  have hsim : ∀ (r : Ring N) (e : Event N) (r' : Ring N) (s : Program N), Between s r → True →
      TcpRing.step r e = some r' →
      ∃ fs s', exec (Program.step hN) s fs = some s' ∧ Between s' r' :=
    fun _ _ _ _ hs _ hstep => exists_block hN hs hstep
  exact exec_simulates hsim hs (along_of_forall (fun _ _ _ => trivial) r) h

end Blocks

/-! ## Before the first block -/

/-- `send_msg` waits and nothing but the start has been treated. -/
structure Process.Starting (t : Process N) : Prop where
  threads : t.threads = ⟨Node.initial, .ready, .ready⟩
  waiting : t.waiting = true
  posted : t.mySem = if t.Held then 0 else 1

/-- The start is on its way. -/
structure Program.Starting (s : Program N) : Prop where
  main : s.main = .measuring
  process : ∀ i, (s.processes i).Starting
  only : ∀ i, ∀ packet ∈ s.wrote i, packet = .y

section Start

variable {s s' : Program N}

theorem starting_main (hN : 2 ≤ N) :
    ∃ s : Program N, (Program.initial : Program N).step hN .main = some s ∧ s.Starting := by
  refine ⟨_, rfl, rfl, ?_, ?_⟩
  · intro i
    have hinitial : ∀ j : Fin N, ((Program.initial : Program N).processes j).Starting :=
      fun _ => ⟨rfl, rfl, rfl⟩
    by_cases hi : i = leader hN
    · subst hi
      simpa using hinitial (leader hN)
    · simpa [Program.after, hi] using hinitial i
  · intro i
    by_cases hi : i = leader hN <;> simp [Program.after, Program.initial, hi]

/-- What one step has to guarantee. -/
theorem Program.Starting.after (hs : s.Starting) {i : Fin N} {r : Process N × List (Packet N)}
    (hr : r.1.Starting) (hout : ∀ packet ∈ r.2, packet = .y) : (s.after i r).Starting where
  main := hs.main
  process j := by
    by_cases hj : j = i
    · subst hj
      rwa [after_process]
    · rw [after_process_of_ne _ hj]
      exact hs.process j
  only j packet hp := by
    by_cases hj : j = i
    · subst hj
      rw [after_wrote, List.mem_append] at hp
      exact hp.elim (hs.only j packet) (hout packet)
    · rw [after_wrote_of_ne _ hj] at hp
      exact hs.only j packet hp

theorem Program.Starting.receive (hs : s.Starting) {i : Fin N} {t : Process N} {packet : Packet N}
    {rest : List (Packet N)} (ht : t.Starting) : (s.receive i t packet rest).Starting where
  main := hs.main
  process j := by
    by_cases hj : j = i
    · subst hj
      rwa [receive_process]
    · rw [receive_process_of_ne _ _ _ hj]
      exact hs.process j
  only := hs.only

/-- No process has read `'n'`. -/
theorem Program.Starting.not_ended (hs : s.Starting) (hinv : ProgramInv s) (j : Fin N) :
    .n ∉ s.took j := by
  intro hn
  have hmem : .n ∈ s.wrote (getPredecessor j) := by
    rw [hinv.flow]
    exact List.mem_append_left _ hn
  cases hs.only _ _ hmem

theorem Program.Starting.processMsg_ne (hs : s.Starting) (hinv : ProgramInv s) (j : Fin N) :
    (s.processes j).processMsg ≠ .stopLeader ∧ (s.processes j).processMsg ≠ .exited := by
  have hnot := hs.not_ended hinv j
  have htaken := (hinv.process j).taken
  have hended : (s.processes j).readStage ≠ .ended := by
    intro hended
    rw [hended] at htaken
    obtain ⟨a, ha⟩ := htaken
    exact hnot (by simp [ha])
  cases hstarted : (s.processes j).started with
  | false =>
    rw [((hinv.process j).idle hstarted).1]
    simp
  | true =>
    rw [Process.readStage, if_neg (by simp [hstarted])] at hended
    split at hended
    · exact absurd rfl hended
    · rename_i hpc
      exact not_or.mp hpc

theorem starting_step (hN : 2 ≤ N) (hinv : ProgramInv s) (hs : s.Starting) {i : Fin N}
    (h : s.step hN (.recv i) = some s') : s'.Starting := by
  obtain ⟨hthreads, hwaiting, hposted⟩ := hs.process i
  rw [Program.step] at h
  split at h
  · rename_i hreads
    cases hread : s.inbox i with
    | nil =>
      rw [hread] at h
      cases h
    | cons packet rest =>
      rw [hread] at h
      obtain rfl := Option.some.inj h
      have hflow := hinv.flow i
      rw [hread] at hflow
      have hy : packet = .y := hs.only (getPredecessor i) packet (by simp [hflow])
      have htook := ((hinv.process (getPredecessor i)).written.next hflow).mpr hy
      have hnot : (s.processes i).started = false := by
        simpa [htook] using (hinv.process i).started_iff
      rw [if_pos (.inl hnot)] at hposted
      have hswitch : (s.processes i).switch i .y = { s.processes i with
          started := true
          processMsg := if i.val ≠ 0 then .startLeader else .post } := by
        simp [Process.switch, hnot]
      rw [hy, hswitch]
      refine hs.receive ⟨hthreads, hwaiting, ?_⟩
      by_cases hi : i.val = 0 <;> simp [Process.Held, hi, hposted]
  · rename_i hbusy
    obtain ⟨r, hr, rfl⟩ := Option.map_eq_some_iff.mp h
    have hstarted : (s.processes i).started = true := by
      by_contra hnot
      exact hbusy ((hinv.process i).idle (by simpa using hnot))
    obtain ⟨hstop, hexited⟩ := hs.processMsg_ne hinv i
    cases hpc : (s.processes i).processMsg with
    | loop =>
      refine absurd ⟨hpc, ?_⟩ hbusy
      rw [hthreads]
    | startLeader =>
      simp only [Process.call, hpc] at hr
      obtain rfl := Option.some.inj hr
      rw [if_pos (.inr (.inl hpc))] at hposted
      refine hs.after ⟨hthreads, hwaiting, ?_⟩ (by simp)
      simp [Process.Held, hposted]
    | post =>
      simp only [Process.call, hpc] at hr
      obtain rfl := Option.some.inj hr
      rw [if_pos (.inr (.inr hpc))] at hposted
      refine hs.after ⟨hthreads, hwaiting, ?_⟩ (by simp)
      simp [Process.Held, hposted, hstarted]
    | stopLeader => exact absurd hpc hstop
    | exited => exact absurd hpc hexited

theorem starting_exec (hN : 2 ≤ N) {es : List (ProgramEvent N)} (hes : Receives es)
    (hinv : ProgramInv s) (hs : s.Starting) (h : exec (Program.step hN) s es = some s') :
    ProgramInv s' ∧ s'.Starting := by
  have hkeep : ∀ (t : Program N) e t', ProgramInv t ∧ t.Starting → (∃ j, e = ProgramEvent.recv j) →
      t.step hN e = some t' → ProgramInv t' ∧ t'.Starting := by
    rintro t e t' ⟨ht, hstarting⟩ ⟨j, rfl⟩ hstep
    exact ⟨programInv_step ht hstep, starting_step hN ht hstarting hstep⟩
  have hall : Along (Program.step hN) (fun _ e => ∃ j, e = ProgramEvent.recv j) s es :=
    along_of_forall (fun e he _ => hes e he) s
  exact exec_invariant_along hkeep ⟨hinv, hs⟩ hall h

/-! ## Past the semaphore -/

/-- A process that is about to pass `sem_wait`. -/
def Process.posted : Process N := { Process.idle Node.initial with mySem := 1, waiting := true }

/-- Every process has been let run, and nothing is on the connections. -/
def Released (s : Program N) : Prop := ∀ i, s.inbox i = [] ∧
  (s.processes i = Process.posted ∨ s.processes i = Process.idle Node.initial)

theorem Program.Starting.released (hs : s.Starting) (hinv : ProgramInv s)
    (hall : ∀ j, ¬ (s.processes j).Held) : Released s := by
  have hone : ∀ {l : List (Msg N)}, (∀ p ∈ Packet.y :: l.map .message, p = .y) → l = [] := by
    intro l hl
    cases l with
    | nil => rfl
    | cons m l => cases hl (.message m) (by simp)
  have hpc : ∀ j, (s.processes j).processMsg = .loop ∧ (s.processes j).started = true := by
    intro j
    obtain ⟨hstop, hexited⟩ := hs.processMsg_ne hinv j
    have hnot := hall j
    simp only [Process.Held, not_or] at hnot
    refine ⟨?_, by simpa using hnot.1⟩
    cases hpc : (s.processes j).processMsg with
    | loop => rfl
    | startLeader => exact absurd hpc hnot.2.1
    | post => exact absurd hpc hnot.2.2
    | stopLeader => exact absurd hpc hstop
    | exited => exact absurd hpc hexited
  have hwrote : ∀ j, s.wrote j = [.y] := by
    intro j
    have hstage : (s.processes j).writeStage j s.main = .running := by
      by_cases hj : j.val = 0
      · rw [writeStage_leader hj, hs.main]
        rfl
      · simp [Process.writeStage, hj, hpc j]
    have hwritten := (hinv.process j).written
    rw [hstage] at hwritten
    obtain ⟨b, hb⟩ := hwritten
    have hnil : b = [] := hone (hb ▸ hs.only j)
    rw [hb, hnil]
    rfl
  intro j
  have htaken := (hinv.process j).taken
  have hreading : (s.processes j).readStage = .running := by simp [Process.readStage, hpc j]
  rw [hreading] at htaken
  obtain ⟨a, ha⟩ := htaken
  have hflow := hinv.flow j
  rw [hwrote, ha] at hflow
  refine ⟨(List.append_eq_nil_iff.mp (List.cons.inj hflow).2.symm).2, .inl ?_⟩
  obtain ⟨hthreads, hwaiting, hposted⟩ := hs.process j
  obtain ⟨hloop, hstarted⟩ := hpc j
  rw [if_neg (hall j)] at hposted
  cases hp : s.processes j
  simp only [hp] at hthreads hwaiting hloop hstarted hposted
  simp [Process.posted, Process.idle, hthreads, hwaiting, hloop, hstarted, hposted]

/-- `send_msg` passes `sem_wait` everywhere. -/
theorem Released.between (hN : 2 ≤ N) (hs : Released s) : ∃ fs s',
    exec (Program.step hN) s fs = some s' ∧ Between s' (Ring.initial : Ring N) := by
  have hmore : ∀ t : Program N, Released t → (∃ j, ¬ t.processes j = Process.idle Node.initial) →
      ∃ j, ¬ t.processes j = Process.idle Node.initial ∧ ∃ es t', (∀ e ∈ es, True) ∧
        exec (Program.step hN) t es = some t' ∧ Released t' ∧
        t'.processes j = Process.idle Node.initial ∧
        ∀ i, t.processes i = Process.idle Node.initial →
          t'.processes i = Process.idle Node.initial := by
    rintro t ht ⟨j, hj⟩
    have hposted : t.processes j = Process.posted := (ht j).2.resolve_right hj
    have hstep : t.step hN (.send j) = some (t.after j (Process.idle Node.initial, [])) := by
      rw [Program.step, hposted]
      rfl
    refine ⟨j, hj, [.send j], _, by simp, by rw [exec_cons, hstep]; rfl, ?_, after_process _, ?_⟩
    · intro i
      refine ⟨?_, ?_⟩
      · by_cases hi : i = getSuccessor j
        · subst hi
          simp [Program.after, (ht _).1]
        · rw [← (ht i).1]
          exact Function.update_of_ne hi ..
      · by_cases hi : i = j
        · subst hi
          exact .inr (after_process _)
        · rw [after_process_of_ne _ hi]
          exact (ht i).2
    · intro i hi
      by_cases hij : i = j
      · subst hij
        exact after_process _
      · rw [after_process_of_ne _ hij, hi]
  obtain ⟨fs, s', -, hexec, hreleased, hidle⟩ := exists_exec_all (Program.step hN) (fun _ => True)
    Released (fun j t => t.processes j = Process.idle Node.initial) hmore hs
  exact ⟨fs, s', hexec, hidle, fun i => (hreleased i).1⟩

end Start

/-- **Schedules.** Every state that the ring of atomic steps reaches is one that the program
reaches: all processes started and past their semaphores, every thread between two iterations, and
the same nodes and messages. -/
theorem program_reaches (hN : 2 ≤ N) {es : List (Event N)} {r : Ring N}
    (h : exec TcpRing.step Ring.initial es = some r) : ∃ fs s,
    exec (Program.step hN) Program.initial fs = some s ∧
      ∀ i, ((s.processes i).threads = ⟨r.nodes i, .ready, .ready⟩ ∧
        (s.processes i).started = true ∧ (s.processes i).processMsg = .loop ∧
        (s.processes i).waiting = false) ∧ s.inbox i = (r.inbox i).map .message := by
  obtain ⟨s₁, hmain, hstarting⟩ := starting_main hN
  have hinv : ProgramInv s₁ := programInv_step programInv_initial hmain
  obtain ⟨es₂, s₂, hes₂, hexec₂, hinv₂, hreleased⟩ := exists_all_released hN hinv
    (by rw [hstarting.main]; simp)
  obtain ⟨-, hstarting₂⟩ := starting_exec hN hes₂ hinv hstarting hexec₂
  obtain ⟨es₃, s₃, hexec₃, hbetween⟩ := (hstarting₂.released hinv₂ hreleased).between hN
  obtain ⟨es₄, s₄, hexec₄, hbetween₄⟩ := exists_blocks hN hbetween h
  refine ⟨.main :: (es₂ ++ (es₃ ++ es₄)), s₄, ?_, fun i => ⟨?_, hbetween₄.inbox i⟩⟩
  · rw [exec_cons, hmain, Option.bind_some, exec_append, hexec₂, Option.bind_some, exec_append,
      hexec₃]
    exact hexec₄
  · rw [hbetween₄.idle]
    exact ⟨rfl, rfl, rfl, rfl⟩

/-- A node has sent its first message, and the next one has forwarded it. -/
def firstForwarded : Ring 2 :=
  (exec TcpRing.step Ring.initial [.send ⟨0, Nat.two_pos⟩, .recv ⟨1, Nat.one_lt_two⟩]).get
    (by decide)

theorem program_reaches_first : ∃ fs s,
    exec (Program.step (Nat.le_refl 2)) Program.initial fs = some s ∧
    ∀ i, ((s.processes i).threads = ⟨firstForwarded.nodes i, .ready, .ready⟩ ∧
      (s.processes i).started = true ∧ (s.processes i).processMsg = .loop ∧
      (s.processes i).waiting = false) ∧
      s.inbox i = (firstForwarded.inbox i).map .message :=
  program_reaches (Nat.le_refl 2) (Option.some_get _).symm

end UniformBroadcast.TcpRing
