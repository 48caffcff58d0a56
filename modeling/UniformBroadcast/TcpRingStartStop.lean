import UniformBroadcast.TcpRingProgram
import UniformBroadcast.TcpRingTraffic
import UniformBroadcast.RunAccounts

/-!
# The start and the stop of the TCP ring

The packet `'y'` goes once around the ring and each process lets its `send_msg` run when it comes
by, so no message ever reaches a process that has not started. The packet `'n'` goes round behind
it, and each process has treated all that its predecessor wrote before it passed `'n'` on.
-/

namespace UniformBroadcast.TcpRing

open Sequencer TransitionRuns

variable {N : ℕ}

/-- How much of the start and of the stop a process has written, or read. -/
inductive Stage where
  | silent
  | running
  | ended
  deriving DecidableEq, Repr

/-- What a process of this stage has written. -/
def Stage.Written : Stage → List (Packet N) → Prop
  | .silent, l => l = []
  | .running, l => ∃ b : List (Msg N), l = .y :: b.map .message
  | .ended, l => ∃ b c : List (Msg N), l = .y :: (b.map .message ++ .n :: c.map .message)

/-- What it has read: nothing behind `'n'`. -/
def Stage.Taken : Stage → List (Packet N) → Prop
  | .silent, l => l = []
  | .running, l => ∃ a : List (Msg N), l = .y :: a.map .message
  | .ended, l => ∃ a : List (Msg N), l = .y :: (a.map .message ++ [.n])

def MainPc.stage : MainPc → Stage
  | .preparing => .silent
  | .measuring => .running
  | .stopped => .ended

/-- The leader has written what its main thread has. -/
def Process.writeStage (self : Fin N) (main : MainPc) (t : Process N) : Stage :=
  if self.val = 0 then main.stage
  else if t.started = false ∨ t.processMsg = .startLeader then .silent
  else if t.processMsg = .exited then .ended
  else .running

def Process.readStage (t : Process N) : Stage :=
  if t.started = false then .silent
  else if t.processMsg = .stopLeader ∨ t.processMsg = .exited then .ended
  else .running

/-- `send_msg` has not been let run yet. -/
def Process.Held (t : Process N) : Prop :=
  t.started = false ∨ t.processMsg = .startLeader ∨ t.processMsg = .post

instance (t : Process N) : Decidable t.Held := inferInstanceAs (Decidable (_ ∨ _ ∨ _))

/-- What a process, the packets it has written and those it has read say. -/
structure ProcessInv (i : Fin N) (main : MainPc) (t : Process N) (wrote took : List (Packet N)) :
    Prop where
  written : (t.writeStage i main).Written wrote
  taken : t.readStage.Taken took
  idle : t.started = false → t.Reads
  held : t.Held → t.waiting = true ∧ t.mySem = 0
  once : t.mySem + (if t.waiting then 0 else 1) ≤ 1
  leader : i.val = 0 → t.processMsg ≠ .startLeader ∧ t.processMsg ≠ .stopLeader

structure ProgramInv (s : Program N) : Prop where
  flow : ∀ j, s.wrote (getPredecessor j) = s.took j ++ s.inbox j
  process : ∀ j, ProcessInv j s.main (s.processes j) (s.wrote j) (s.took j)

theorem programInv_initial : ProgramInv (Program.initial : Program N) where
  flow _ := rfl
  process j := by
    refine ⟨?_, rfl, fun _ => ⟨rfl, rfl⟩, fun _ => ⟨rfl, rfl⟩, Nat.zero_le _, by
      simp [Program.initial, Process.initial]⟩
    by_cases hj : j.val = 0 <;>
      simp [Process.writeStage, hj, Program.initial, Process.initial, MainPc.stage, Stage.Written]

/-! ## What a process has read -/

section Local

variable {self : Fin N} {main : MainPc} {t : Process N} {wrote took : List (Packet N)}

theorem Stage.Written.ne_nil {g : Stage} {l : List (Packet N)} (h : g.Written l) :
    l ≠ [] ↔ g ≠ .silent := by
  cases g with
  | silent => simp [show l = [] from h]
  | running =>
    obtain ⟨b, rfl⟩ := h
    simp
  | ended =>
    obtain ⟨b, c, rfl⟩ := h
    simp

/-- The first packet is `'y'` and the only one. -/
theorem Stage.Written.next {g : Stage} {l took rest : List (Packet N)} {packet : Packet N}
    (h : g.Written l) (hl : l = took ++ packet :: rest) : (took = [] ↔ packet = .y) := by
  have hhead : ∃ k, l = .y :: k ∧ .y ∉ k := by
    cases g with
    | silent =>
      rw [show l = [] from h] at hl
      simp at hl
    | running =>
      obtain ⟨b, rfl⟩ := h
      exact ⟨_, rfl, by simp⟩
    | ended =>
      obtain ⟨b, c, rfl⟩ := h
      exact ⟨_, rfl, by simp⟩
  obtain ⟨k, hk, hy⟩ := hhead
  cases took with
  | nil =>
    rw [hk] at hl
    simp [(List.cons.inj hl).1]
  | cons p took =>
    rw [hk] at hl
    have hmem : packet ∈ k := by
      rw [(List.cons.inj hl).2]
      simp
    simp only [reduceCtorEq, false_iff]
    rintro rfl
    exact hy hmem

/-- A process that has started has read `'y'`. -/
theorem ProcessInv.started_iff (h : ProcessInv self main t wrote took) :
    t.started = true ↔ took ≠ [] := by
  have htook := h.taken
  cases hstarted : t.started with
  | false =>
    rw [Process.readStage, if_pos hstarted] at htook
    simp [show took = [] from htook]
  | true =>
    rw [Process.readStage, if_neg (by simp [hstarted])] at htook
    split at htook
    · obtain ⟨a, rfl⟩ := htook
      simp
    · obtain ⟨a, rfl⟩ := htook
      simp

theorem Stage.Written.concat {g : Stage} {l : List (Packet N)} (h : g.Written l)
    (hg : g ≠ .silent) (ms : List (Msg N)) : g.Written (l ++ ms.map .message) := by
  cases g with
  | silent => exact absurd rfl hg
  | running =>
    obtain ⟨b, rfl⟩ := h
    exact ⟨b ++ ms, by simp⟩
  | ended =>
    obtain ⟨b, c, rfl⟩ := h
    exact ⟨b, c ++ ms, by simp⟩

theorem writeStage_leader (h : self.val = 0) : t.writeStage self main = main.stage := by
  rw [Process.writeStage, if_pos h]

/-- A process writes once it is not held, the leader once its main thread has started. -/
theorem writeStage_ne_silent (hmain : self.val = 0 → main ≠ .preparing) (h : ¬ t.Held) :
    t.writeStage self main ≠ .silent := by
  by_cases hself : self.val = 0
  · rw [writeStage_leader hself]
    cases hm : main with
    | preparing => exact absurd hm (hmain hself)
    | measuring | stopped => simp [MainPc.stage]
  · have hstart : ¬ (t.started = false ∨ t.processMsg = .startLeader) := by
      rintro (hs | hs)
      · exact h (.inl hs)
      · exact h (.inr (.inl hs))
    rw [Process.writeStage, if_neg hself, if_neg hstart]
    split <;> simp

/-- A step of `send_msg`. -/
theorem processInv_sendMsg (h : ProcessInv self main t wrote took)
    (hmain : t.started = true → self.val = 0 → main ≠ .preparing)
    {r : Process N × List (Packet N)} (hr : t.sendMsg self = some r) :
    ProcessInv self main r.1 (wrote ++ r.2) took := by
  have hnot : ¬ t.Held := by
    intro hheld
    obtain ⟨hwaiting, hsem⟩ := h.held hheld
    simp [Process.sendMsg, hwaiting, hsem] at hr
  have hstarted : t.started = true := by
    by_contra hs
    exact hnot (.inl (by simpa using hs))
  rcases sendMsg_spec hr with ⟨hwaiting, rfl⟩ | ⟨hwaiting, hsem, rfl⟩
  · exact {
      written := h.written.concat (writeStage_ne_silent (hmain hstarted) hnot) _
      taken := h.taken
      idle := fun hs => absurd (.inl hs) hnot
      held := fun hheld => absurd hheld hnot
      once := h.once
      leader := h.leader }
  · have honce := h.once
    rw [hwaiting, if_pos rfl] at honce
    exact {
      written := by
        rw [List.append_nil]
        exact h.written
      taken := h.taken
      idle := fun hs => absurd (.inl hs) hnot
      held := fun hheld => absurd hheld hnot
      once := by
        simp only [Bool.false_eq_true, ↓reduceIte]
        omega
      leader := h.leader }

/-- A call of `process_msg`. -/
theorem processInv_call (h : ProcessInv self main t wrote took)
    (hmain : t.started = true → self.val = 0 → main ≠ .preparing) (hbusy : ¬ t.Reads)
    {r : Process N × List (Packet N)} (hr : t.call self = some r) :
    ProcessInv self main r.1 (wrote ++ r.2) took := by
  have hstarted : t.started = true := by
    by_contra hs
    exact hbusy (h.idle (by simpa using hs))
  have hidle : ∀ {P : Prop}, t.started = false → P := by
    intro P hs
    rw [hstarted] at hs
    cases hs
  have hwritten := h.written
  have htaken := h.taken
  rw [Process.call] at hr
  split at hr
  · rename_i hpc
    have hnot : ¬ t.Held := by simp [Process.Held, hstarted, hpc]
    obtain rfl := Option.some.inj hr
    exact {
      written := hwritten.concat (writeStage_ne_silent (hmain hstarted) hnot) _
      taken := htaken
      idle := fun hs => hidle hs
      held := fun hheld => absurd hheld hnot
      once := h.once
      leader := h.leader }
  · -- `start_leader`
    rename_i hpc
    have hself : self.val ≠ 0 := fun hself => (h.leader hself).1 hpc
    have hsilent : t.writeStage self main = .silent := by simp [Process.writeStage, hself, hpc]
    have hreading : t.readStage = .running := by simp [Process.readStage, hstarted, hpc]
    rw [hsilent] at hwritten
    rw [hreading] at htaken
    obtain rfl := Option.some.inj hr
    exact {
      written := by
        have hstage :
            ({ t with processMsg := .post } : Process N).writeStage self main = .running := by
          simp [Process.writeStage, hself, hstarted]
        rw [hstage]
        exact ⟨[], by simp [show wrote = [] from hwritten]⟩
      taken := by
        have hstage : ({ t with processMsg := .post } : Process N).readStage = .running := by
          simp [Process.readStage, hstarted]
        rw [hstage]
        exact htaken
      idle := fun hs => hidle hs
      held := fun _ => h.held (.inr (.inl hpc))
      once := h.once
      leader := fun hs => absurd hs hself }
  · -- `sem_post`
    rename_i hpc
    obtain ⟨hwaiting, hsem⟩ := h.held (.inr (.inr hpc))
    obtain rfl := Option.some.inj hr
    exact {
      written := by
        rw [List.append_nil]
        simpa [Process.writeStage, hpc] using hwritten
      taken := by simpa [Process.readStage, hpc] using htaken
      idle := fun hs => hidle hs
      held := by simp [Process.Held, hstarted]
      once := by simp [hwaiting, hsem]
      leader := by simp }
  · -- `stop_leader`
    rename_i hpc
    have hself : self.val ≠ 0 := fun hself => (h.leader hself).2 hpc
    have hrunning : t.writeStage self main = .running := by
      simp [Process.writeStage, hself, hstarted, hpc]
    have hreading : t.readStage = .ended := by simp [Process.readStage, hstarted, hpc]
    rw [hrunning] at hwritten
    rw [hreading] at htaken
    obtain rfl := Option.some.inj hr
    exact {
      written := by
        have hstage :
            ({ t with processMsg := .exited } : Process N).writeStage self main = .ended := by
          simp [Process.writeStage, hself, hstarted]
        rw [hstage]
        obtain ⟨b, hb⟩ := hwritten
        exact ⟨b, [], by simp [hb]⟩
      taken := by
        have hstage : ({ t with processMsg := .exited } : Process N).readStage = .ended := by
          simp [Process.readStage, hstarted]
        rw [hstage]
        exact htaken
      idle := fun hs => hidle hs
      held := by simp [Process.Held, hstarted]
      once := h.once
      leader := fun hs => absurd hs hself }
  · cases hr

/-- The packet that `process_msg` reads. -/
theorem processInv_switch (h : ProcessInv self main t wrote took) (hreads : t.Reads)
    {packet : Packet N} (hfirst : took = [] ↔ packet = .y) :
    ProcessInv self main (t.switch self packet) wrote (took ++ [packet]) := by
  obtain ⟨hpc, hready⟩ := hreads
  have hstarted := h.started_iff
  have hwritten := h.written
  have htaken := h.taken
  cases packet with
  | y =>
    have htook : took = [] := hfirst.mpr rfl
    have hnot : t.started = false := by simpa [htook] using hstarted
    have hswitch : t.switch self .y =
        { t with started := true, processMsg := if self.val ≠ 0 then .startLeader else .post } := by
      simp [Process.switch, hnot]
    have hreading : (t.switch self .y).readStage = .running := by
      rw [hswitch]
      by_cases hself : self.val = 0 <;> simp [Process.readStage, hself]
    have hwriting : (t.switch self .y).writeStage self main = t.writeStage self main := by
      rw [hswitch]
      by_cases hself : self.val = 0 <;> simp [Process.writeStage, hself, hnot]
    exact {
      written := hwriting ▸ hwritten
      taken := by
        rw [hreading]
        exact ⟨[], by simp [htook]⟩
      idle := by simp [hswitch]
      held := by
        rw [hswitch]
        exact fun _ => h.held (.inl hnot)
      once := by
        rw [hswitch]
        exact h.once
      leader := by
        intro hself
        simp [hswitch, hself] }
  | n =>
    have htrue : t.started = true := hstarted.mpr fun htook => by simpa using hfirst.mp htook
    obtain ⟨a, ha⟩ : Stage.running.Taken took := by
      simpa [Process.readStage, htrue, hpc] using htaken
    have hreading : (t.switch self .n).readStage = .ended := by
      by_cases hself : self.val = 0 <;> simp [Process.switch, Process.readStage, hself, htrue]
    have hwriting : (t.switch self .n).writeStage self main = t.writeStage self main := by
      by_cases hself : self.val = 0 <;>
        simp [Process.switch, Process.writeStage, hself, htrue, hpc]
    exact {
      written := hwriting ▸ hwritten
      taken := by
        rw [hreading]
        exact ⟨a, by simp [ha]⟩
      idle := by simp [Process.switch, htrue]
      held := by
        by_cases hself : self.val = 0 <;> simp [Process.switch, Process.Held, htrue, hself]
      once := h.once
      leader := by
        intro hself
        simp [Process.switch, hself] }
  | message m =>
    have htrue : t.started = true := hstarted.mpr fun htook => by simpa using hfirst.mp htook
    have hreading : t.readStage = .running := by simp [Process.readStage, htrue, hpc]
    rw [hreading] at htaken
    obtain ⟨a, ha⟩ := htaken
    exact {
      written := hwritten
      taken := by
        have hsame : (t.switch self (.message m)).readStage = .running := hreading
        rw [hsame]
        exact ⟨a ++ [m], by simp [ha]⟩
      idle := by simp [Process.switch, htrue]
      held := h.held
      once := h.once
      leader := h.leader }

/-- The main thread of a follower only waits. -/
theorem ProcessInv.follower (h : ProcessInv self main t wrote took) (hself : self.val ≠ 0)
    (main' : MainPc) : ProcessInv self main' t wrote took where
  written := by
    have hsame : t.writeStage self main' = t.writeStage self main := by
      simp [Process.writeStage, hself]
    rw [hsame]
    exact h.written
  taken := h.taken
  idle := h.idle
  held := h.held
  once := h.once
  leader := h.leader

/-- The main thread of the leader goes on. -/
theorem processInv_main (h : ProcessInv self main t wrote took) (hself : self.val = 0)
    {r : MainPc × Packet N} (hr : leadTest main = some r) :
    ProcessInv self r.1 t (wrote ++ [r.2]) took where
  written := by
    have hwritten := h.written
    rw [writeStage_leader hself] at hwritten ⊢
    cases main with
    | preparing =>
      obtain rfl := Option.some.inj hr
      exact ⟨[], by simp [show wrote = [] from hwritten]⟩
    | measuring =>
      obtain rfl := Option.some.inj hr
      obtain ⟨b, hb⟩ := hwritten
      exact ⟨b, [], by simp [hb]⟩
    | stopped => cases hr
  taken := h.taken
  idle := h.idle
  held := h.held
  once := h.once
  leader := h.leader

end Local

/-! ## The whole program -/

section Program

variable {s s' : Program N} {hN : 2 ≤ N}

/-- Until the main thread of the leader has started, nobody writes. -/
theorem ProgramInv.silent (hN : 2 ≤ N) (hs : ProgramInv s) (hmain : s.main = .preparing)
    (j : Fin N) : s.wrote j = [] := by
  refine ring_induction (P := fun j => s.wrote j = []) (leader hN) ?_ ?_ j
  · have hwritten := (hs.process (leader hN)).written
    rwa [writeStage_leader (val_leader hN), hmain] at hwritten
  · intro j hj hpred
    have hflow := hs.flow j
    rw [hpred] at hflow
    have htook : s.took j = [] := (List.append_eq_nil_iff.mp hflow.symm).1
    have hnot : (s.processes j).started = false := by
      simpa [htook] using (hs.process j).started_iff
    have hwritten := (hs.process j).written
    rwa [Process.writeStage, if_neg ((eq_leader_iff hN j).not.mp hj),
      if_pos (.inl hnot)] at hwritten

theorem ProgramInv.main_ne (hN : 2 ≤ N) (hs : ProgramInv s) {j : Fin N}
    (h : (s.processes j).started = true) : s.main ≠ .preparing := by
  intro hmain
  have hflow := hs.flow j
  rw [hs.silent hN hmain] at hflow
  exact (hs.process j).started_iff.mp h (List.append_eq_nil_iff.mp hflow.symm).1

/-- What is written goes to the successor. -/
theorem ProgramInv.flow_after (hs : ProgramInv s) (i : Fin N) (r : Process N × List (Packet N))
    (j : Fin N) : (s.after i r).wrote (getPredecessor j) =
      (s.after i r).took j ++ (s.after i r).inbox j := by
  have hflow := hs.flow j
  by_cases hj : j = getSuccessor i
  · subst hj
    rw [getPredecessor_getSuccessor] at hflow ⊢
    simp [Program.after, hflow]
  · have hpred : getPredecessor j ≠ i := by
      rintro rfl
      simp at hj
    simpa [Program.after, hj, hpred] using hflow

theorem programInv_after (hs : ProgramInv s) {i : Fin N} {r : Process N × List (Packet N)}
    (hr : ProcessInv i s.main r.1 (s.wrote i ++ r.2) (s.took i)) : ProgramInv (s.after i r) where
  flow := hs.flow_after i r
  process j := by
    by_cases hj : j = i
    · subst hj
      simpa [Program.after] using hr
    · simpa [Program.after, hj] using hs.process j

theorem programInv_receive (hs : ProgramInv s) {i : Fin N} {t : Process N} {packet : Packet N}
    {rest : List (Packet N)} (hread : s.inbox i = packet :: rest)
    (ht : ProcessInv i s.main t (s.wrote i) (s.took i ++ [packet])) :
    ProgramInv (s.receive i t packet rest) where
  flow j := by
    by_cases hj : j = i
    · subst hj
      simpa [Program.receive, hread] using hs.flow j
    · simpa [Program.receive, hj] using hs.flow j
  process j := by
    by_cases hj : j = i
    · subst hj
      simpa [Program.receive] using ht
    · simpa [Program.receive, hj] using hs.process j

theorem programInv_step (hs : ProgramInv s) {e : ProgramEvent N} (h : s.step hN e = some s') :
    ProgramInv s' := by
  cases e with
  | main =>
    obtain ⟨r, hr, rfl⟩ := Option.map_eq_some_iff.mp h
    have hleader := processInv_main (hs.process (leader hN)) (val_leader hN) hr
    refine ⟨hs.flow_after (leader hN) (s.processes (leader hN), [r.2]), ?_⟩
    intro j
    by_cases hj : j = leader hN
    · subst hj
      simpa [Program.after] using hleader
    · simpa [Program.after, hj] using
        (hs.process j).follower ((eq_leader_iff hN j).not.mp hj) r.1
  | send i =>
    obtain ⟨r, hr, rfl⟩ := Option.map_eq_some_iff.mp h
    exact programInv_after hs
      (processInv_sendMsg (hs.process i) (fun hstarted _ => hs.main_ne hN hstarted) hr)
  | recv i =>
    rw [Program.step] at h
    split at h
    · rename_i hreads
      cases hread : s.inbox i with
      | nil =>
        rw [hread] at h
        cases h
      | cons packet rest =>
        rw [hread] at h
        obtain rfl := Option.some.inj h
        have hflow := hs.flow i
        rw [hread] at hflow
        exact programInv_receive hs hread (processInv_switch (hs.process i) hreads
          ((hs.process (getPredecessor i)).written.next hflow))
    · rename_i hbusy
      obtain ⟨r, hr, rfl⟩ := Option.map_eq_some_iff.mp h
      exact programInv_after hs
        (processInv_call (hs.process i) (fun hstarted _ => hs.main_ne hN hstarted) hbusy hr)

theorem programInv_exec {es : List (ProgramEvent N)} (hs : ProgramInv s)
    (h : exec (Program.step hN) s es = some s') : ProgramInv s' :=
  exec_invariant (fun _ _ _ hs hstep => programInv_step hs hstep) hs h

/-! ## The start -/

/-- A process that has started has a predecessor that has written. -/
theorem ProgramInv.pred_wrote (hs : ProgramInv s) {j : Fin N}
    (h : (s.processes j).started = true) : s.wrote (getPredecessor j) ≠ [] := by
  intro hnil
  have hflow := hs.flow j
  rw [hnil] at hflow
  exact (hs.process j).started_iff.mp h (List.append_eq_nil_iff.mp hflow.symm).1

/-- A follower that has written has started. -/
theorem ProgramInv.started_of_wrote (hs : ProgramInv s) {j : Fin N} (hj : j.val ≠ 0)
    (h : s.wrote j ≠ []) : (s.processes j).started = true := by
  by_contra hnot
  have hfalse : (s.processes j).started = false := by simpa using hnot
  have hwritten := (hs.process j).written
  rw [Process.writeStage, if_neg hj, if_pos (.inl hfalse)] at hwritten
  exact h hwritten

/-- `'y'` has gone round the ring when the leader has read it. -/
theorem ProgramInv.all_started (hN : 2 ≤ N) (hs : ProgramInv s)
    (h : (s.processes (leader hN)).started = true) (j : Fin N) :
    (s.processes j).started = true := by
  -- backwards around the ring
  refine ring_induction_back (P := fun j => (s.processes j).started = true) (leader hN) h ?_ j
  intro j hj hsucc
  have hwrote := hs.pred_wrote hsucc
  rw [getPredecessor_getSuccessor] at hwrote
  exact hs.started_of_wrote ((eq_leader_iff hN j).not.mp hj) hwrote

/-- What a process has read. -/
theorem ProcessInv.took_cases {i : Fin N} {main : MainPc} {t : Process N}
    {wrote took : List (Packet N)} (h : ProcessInv i main t wrote took) :
    took = [] ∨ ∃ a : List (Msg N), took = .y :: a.map .message ∨
      took = .y :: (a.map .message ++ [.n]) := by
  have htaken := h.taken
  cases hstage : t.readStage with
  | silent =>
    rw [hstage] at htaken
    exact .inl htaken
  | running =>
    rw [hstage] at htaken
    obtain ⟨a, ha⟩ := htaken
    exact .inr ⟨a, .inl ha⟩
  | ended =>
    rw [hstage] at htaken
    obtain ⟨a, ha⟩ := htaken
    exact .inr ⟨a, .inr ha⟩

theorem ProcessInv.started_of_passed {i : Fin N} {main : MainPc} {t : Process N}
    {wrote took : List (Packet N)} (h : ProcessInv i main t wrote took)
    (hpassed : t.waiting = false) : t.started = true := by
  by_contra hnot
  have hwaiting := (h.held (.inl (by simpa using hnot))).1
  rw [hpassed] at hwaiting
  cases hwaiting

/-- **Start.** In every state reached, what a process has read begins with `'y'` and has no other
`'y'`, and a process that has read anything has started; `send_msg` is let run once, after the start
of its process and, at the leader, after the start of all the processes. -/
theorem program_start (hN : 2 ≤ N) {es : List (ProgramEvent N)} {s : Program N}
    (h : exec (Program.step hN) Program.initial es = some s) (j : Fin N) :
    (s.took j ≠ [] → (s.processes j).started = true ∧ ∃ l, s.took j = .y :: l ∧ .y ∉ l) ∧
      ((s.processes j).waiting = false → (s.processes j).started = true ∧
        (j = leader hN → ∀ i, (s.processes i).started = true)) ∧
      (s.processes j).mySem + (if (s.processes j).waiting then 0 else 1) ≤ 1 := by
  have hs := programInv_exec programInv_initial h
  refine ⟨?_, ?_, (hs.process j).once⟩
  · intro htook
    refine ⟨(hs.process j).started_iff.mpr htook, ?_⟩
    rcases (hs.process j).took_cases with hnil | ⟨a, ha | ha⟩
    · exact absurd hnil htook
    · exact ⟨_, ha, by simp⟩
    · exact ⟨_, ha, by simp⟩
  · intro hpassed
    have hstarted := (hs.process j).started_of_passed hpassed
    refine ⟨hstarted, ?_⟩
    rintro rfl
    exact hs.all_started hN hstarted

/-- The leader `i` of two processes starts the test, and both read `'y'`. -/
def startOfTwo (i j : Fin N) : List (ProgramEvent N) :=
  [.main, .recv j, .recv j, .recv j, .recv i, .recv i, .send i]

theorem program_start_ofTwo :
    (((exec (Program.step (Nat.le_refl 2)) Program.initial (startOfTwo 0 1)).get
      (by decide)).processes 1).started = true :=
  ((program_start (Nat.le_refl 2) (Option.some_get _).symm 0).2.1 (by decide)).2 rfl 1

/-! ## The stop -/

theorem Stage.Written.ended_of_mem {g : Stage} {l : List (Packet N)} (h : g.Written l)
    (hn : .n ∈ l) : g = .ended := by
  cases g with
  | silent => simp [show l = [] from h] at hn
  | running =>
    obtain ⟨b, rfl⟩ := h
    simp at hn
  | ended => rfl

theorem Stage.Taken.ended_of_mem {g : Stage} {l : List (Packet N)} (h : g.Taken l)
    (hn : .n ∈ l) : g = .ended := by
  cases g with
  | silent => simp [show l = [] from h] at hn
  | running =>
    obtain ⟨b, rfl⟩ := h
    simp at hn
  | ended => rfl

theorem ProcessInv.mem_took_of_exited {i : Fin N} {main : MainPc} {t : Process N}
    {wrote took : List (Packet N)} (h : ProcessInv i main t wrote took)
    (hexited : t.processMsg = .exited) : .n ∈ took := by
  have hstarted : t.started = true := by
    by_contra hnot
    have hloop := (h.idle (by simpa using hnot)).1
    rw [hexited] at hloop
    cases hloop
  have htaken := h.taken
  rw [Process.readStage, if_neg (by simp [hstarted]), if_pos (.inr hexited)] at htaken
  obtain ⟨a, rfl⟩ := htaken
  simp

theorem writeStage_eq_ended {i : Fin N} {main : MainPc} {t : Process N} :
    t.writeStage i main = .ended ↔
      if i.val = 0 then main = .stopped
      else t.processMsg = .exited ∧ t.started = true := by
  by_cases hi : i.val = 0
  · rw [writeStage_leader hi, if_pos hi]
    cases main <;> simp [MainPc.stage]
  · rw [Process.writeStage, if_neg hi, if_neg hi]
    by_cases hsilent : t.started = false ∨ t.processMsg = .startLeader
    · rw [if_pos hsilent]
      rcases hsilent with hs | hs <;> simp [hs]
    · rw [if_neg hsilent]
      have hstarted : t.started = true := by simpa using fun hs => hsilent (.inl hs)
      by_cases hexited : t.processMsg = .exited <;> simp [hexited, hstarted]

/-- What has read `'n'` has a predecessor that has written it. -/
theorem ProgramInv.pred_ended (hs : ProgramInv s) {j : Fin N} (hn : .n ∈ s.took j) :
    (s.processes (getPredecessor j)).writeStage (getPredecessor j) s.main = .ended := by
  refine (hs.process (getPredecessor j)).written.ended_of_mem ?_
  rw [hs.flow j]
  exact List.mem_append_left _ hn

/-- The processes up to `j`, and all of them for the leader, have ended when `j` has. -/
theorem ProgramInv.exited_before (hs : ProgramInv s) {j : Fin N}
    (h : (s.processes j).processMsg = .exited) {i : Fin N} (hi : i.val ≠ 0)
    (hij : j.val = 0 ∨ i.val ≤ j.val) : (s.processes i).processMsg = .exited := by
  refine ring_induction_back (P := fun i => (i.val ≠ 0 ∨ i = j) → (j.val = 0 ∨ i.val ≤ j.val) →
    (s.processes i).processMsg = .exited) j (fun _ _ => h) ?_ i (.inl hi) hij
  intro i hne hsucc hpos hij
  have hi : i.val ≠ 0 := hpos.resolve_right hne
  have hilt := i.isLt
  have hjlt := j.isLt
  have hval := Fin.val_ne_of_ne hne
  have hexited : (s.processes (getSuccessor i)).processMsg = .exited := by
    refine hsucc ?_ ?_
    · rw [Fin.ext_iff, val_getSuccessor]
      split_ifs <;> omega
    · rw [val_getSuccessor]
      split_ifs <;> omega
  have hended := hs.pred_ended ((hs.process (getSuccessor i)).mem_took_of_exited hexited)
  rw [getPredecessor_getSuccessor, writeStage_eq_ended, if_neg hi] at hended
  exact hended.1

/-- The messages before the first `'n'`. -/
theorem map_message_append_n {a b : List (Msg N)} {k l : List (Packet N)}
    (h : a.map Packet.message ++ .n :: k = b.map .message ++ .n :: l) : a = b ∧ k = l := by
  induction a generalizing b with
  | nil =>
    cases b with
    | nil => exact ⟨rfl, (List.cons.inj h).2⟩
    | cons m b => cases (List.cons.inj h).1
  | cons m a ih =>
    cases b with
    | nil => cases (List.cons.inj h).1
    | cons m' b =>
      obtain ⟨rfl, hkl⟩ := ih (List.cons.inj h).2
      obtain rfl := Packet.message.inj (List.cons.inj h).1
      exact ⟨rfl, hkl⟩

theorem ProgramInv.main_stopped (hN : 2 ≤ N) (hs : ProgramInv s) {j : Fin N}
    (h : (s.processes j).processMsg = .exited) : s.main = .stopped := by
  have hjlt := j.isLt
  have hval : (getSuccessor (leader hN)).val = 1 := by
    rw [val_getSuccessor, val_leader, if_neg (by omega)]
  have hexited := hs.exited_before h (i := getSuccessor (leader hN)) (by omega) (by omega)
  have hended := hs.pred_ended ((hs.process (getSuccessor (leader hN))).mem_took_of_exited hexited)
  rwa [getPredecessor_getSuccessor, writeStage_eq_ended, if_pos (val_leader hN)] at hended

/-- **Stop.** In every state reached in which the `process_msg` of a process has ended, the process
has read `'y'`, messages and `'n'`, and nothing but messages was written behind; the leader has
called `stop_leader`, and all the processes up to this one have ended, all the others if it is the
leader. -/
theorem program_stop (hN : 2 ≤ N) {es : List (ProgramEvent N)} {s : Program N}
    (h : exec (Program.step hN) Program.initial es = some s) {j : Fin N}
    (hexited : (s.processes j).processMsg = .exited) :
    (∃ a c : List (Msg N), s.took j = .y :: (a.map .message ++ [.n]) ∧
      s.wrote (getPredecessor j) = s.took j ++ c.map .message) ∧ s.main = .stopped ∧
      ∀ i : Fin N, i.val ≠ 0 → j.val = 0 ∨ i.val ≤ j.val →
        (s.processes i).processMsg = .exited := by
  have hs := programInv_exec programInv_initial h
  have hn := (hs.process j).mem_took_of_exited hexited
  refine ⟨?_, ?_, fun i hi hij => hs.exited_before hexited hi hij⟩
  · have hended := hs.pred_ended hn
    have hwritten := (hs.process (getPredecessor j)).written
    rw [hended] at hwritten
    obtain ⟨b, c, hbc⟩ := hwritten
    rcases (hs.process j).took_cases with htook | ⟨a, htook | htook⟩
    · simp [htook] at hn
    · simp [htook] at hn
    · refine ⟨a, c, htook, ?_⟩
      have hflow := hs.flow j
      rw [hbc, htook, List.cons_append, List.append_assoc] at hflow
      have hrest := (map_message_append_n (List.cons.inj hflow).2).2
      rw [hs.flow j, hrest]
      rfl
  · exact hs.main_stopped hN hexited

theorem program_stop_ofTwo :
    ((exec (Program.step (Nat.le_refl 2)) Program.initial
      (startOfTwo 0 1 ++ [.main, .recv (1 : Fin 2), .recv 1])).get (by decide)).main = .stopped :=
  (program_stop (Nat.le_refl 2) (Option.some_get _).symm (j := 1) (by decide)).2.1

/-! ## What remains to be done -/

/-- The calls of `process_msg` until it reads again. -/
def RecvPc.remaining : RecvPc N → ℕ
  | .ready => 0
  | .broadcastAck _ | .transferAck _ => 1
  | .prepareAck _ _ | .learn _ => 2
  | .count _ _ | .move _ => 3
  | .save _ => 4
  | .update _ => 5
  | .transferMsg _ => 6

def ProcessPc.remaining : ProcessPc → ℕ
  | .loop | .exited => 0
  | .post | .stopLeader => 1
  | .startLeader => 2

def Process.remaining (t : Process N) : ℕ := t.threads.receiver.remaining + t.processMsg.remaining

theorem recvThread_remaining (self : Fin N) (t : Threads N) (h : t.receiver ≠ .ready) :
    (recvThread self t).1.receiver.remaining < t.receiver.remaining := by
  obtain ⟨n, sender, receiver⟩ := t
  cases receiver with
  | ready => exact absurd rfl h
  | save m =>
    by_cases hself : self.val = 0 <;> simp [recvThread, hself, RecvPc.remaining]
  | learn k =>
    by_cases hlast : (self.val + 1) % N ≠ 0 <;> simp [recvThread, hlast, RecvPc.remaining]
  | transferMsg | update | count | prepareAck | broadcastAck | move | transferAck =>
    simp [recvThread, RecvPc.remaining]

/-- A call is one less to make. -/
theorem call_remaining (self : Fin N) {t : Process N} (hbusy : ¬ t.Reads)
    (hexited : t.processMsg ≠ .exited) :
    ∃ r, t.call self = some r ∧ r.1.remaining < t.remaining := by
  cases hpc : t.processMsg with
  | loop =>
    have hready : t.threads.receiver ≠ .ready := fun hready => hbusy ⟨hpc, hready⟩
    have hless := recvThread_remaining self t.threads hready
    refine ⟨_, by rw [Process.call, hpc], ?_⟩
    simpa [Process.remaining, hpc] using hless
  | startLeader =>
    refine ⟨_, by rw [Process.call, hpc], ?_⟩
    simp [Process.remaining, hpc, ProcessPc.remaining]
  | post =>
    refine ⟨_, by rw [Process.call, hpc], ?_⟩
    simp [Process.remaining, hpc, ProcessPc.remaining]
  | stopLeader =>
    refine ⟨_, by rw [Process.call, hpc], ?_⟩
    simp [Process.remaining, hpc, ProcessPc.remaining]
  | exited => exact absurd hpc hexited

theorem switch_remaining (self : Fin N) {t : Process N} (hreads : t.Reads) (packet : Packet N) :
    (t.switch self packet).remaining ≤ 6 := by
  obtain ⟨hpc, hready⟩ := hreads
  cases packet with
  | y =>
    by_cases hstarted : t.started = true <;> by_cases hself : self.val = 0 <;>
      simp [Process.switch, Process.remaining, ProcessPc.remaining, RecvPc.remaining, hstarted,
        hself, hpc, hready]
  | n =>
    by_cases hself : self.val = 0 <;>
      simp [Process.switch, Process.remaining, ProcessPc.remaining, RecvPc.remaining, hself, hready]
  | message m =>
    cases m with
    | b m =>
      by_cases hback : self = getPredecessor m.idProcess
      · simp [Process.switch, Process.remaining, ProcessPc.remaining, receiveMsg, hpc, ← hback,
          RecvPc.remaining]
      · simp [Process.switch, Process.remaining, ProcessPc.remaining, receiveMsg, hpc, hback,
          RecvPc.remaining]
    | a k =>
      by_cases hself : self.val = 0 <;>
        simp [Process.switch, Process.remaining, ProcessPc.remaining, receiveMsg, hpc, hself,
          RecvPc.remaining]

/-- What process `j` can do with what it has to read. -/
def Program.work (s : Program N) (j : Fin N) : ℕ :=
  7 * (s.inbox j).length + (s.processes j).remaining

/-- `s'` is `s` but for what process `j` does and writes. -/
structure OnlyAt (j : Fin N) (s s' : Program N) : Prop where
  main : s'.main = s.main
  processes : ∀ i, i ≠ j → s'.processes i = s.processes i
  wrote : ∀ i, i ≠ j → s'.wrote i = s.wrote i

theorem OnlyAt.trans {j : Fin N} {s s' s'' : Program N} (h : OnlyAt j s s') (h' : OnlyAt j s' s'') :
    OnlyAt j s s'' where
  main := h'.main.trans h.main
  processes i hi := (h'.processes i hi).trans (h.processes i hi)
  wrote i hi := (h'.wrote i hi).trans (h.wrote i hi)

/-- `process_msg` goes on while it has something to read and has not ended. -/
theorem exists_recv_step (hN : 2 ≤ N) {j : Fin N} (hexited : (s.processes j).processMsg ≠ .exited)
    (hread : (s.processes j).Reads → s.inbox j ≠ []) :
    ∃ s', s.step hN (.recv j) = some s' ∧ OnlyAt j s s' ∧ s'.work j < s.work j := by
  have hsucc := getSuccessor_ne_self hN j
  by_cases hreads : (s.processes j).Reads
  · cases hinbox : s.inbox j with
    | nil => exact absurd hinbox (hread hreads)
    | cons packet rest =>
      have hle := switch_remaining j hreads packet
      refine ⟨s.receive j ((s.processes j).switch j packet) packet rest, ?_, ?_, ?_⟩
      · simp only [Program.step, if_pos hreads, hinbox]
      · exact ⟨rfl, fun i hi => Function.update_of_ne hi _ _, fun _ _ => rfl⟩
      · simp only [Program.work, Program.receive, Function.update_self, hinbox, List.length_cons]
        omega
  · obtain ⟨r, hr, hless⟩ := call_remaining j hreads hexited
    refine ⟨s.after j r, ?_, ?_, ?_⟩
    · simp only [Program.step, if_neg hreads, hr, Option.map_some]
    · exact ⟨rfl, fun i hi => Function.update_of_ne hi _ _,
        fun i hi => Function.update_of_ne hi _ _⟩
    · simp only [Program.work, Program.after, Function.update_self,
        Function.update_of_ne hsucc.symm]
      omega

/-- A run of steps of `process_msg`, whatever the process. -/
def Receives (es : List (ProgramEvent N)) : Prop := ∀ e ∈ es, ∃ j, e = .recv j

/-- A process that goes on reading until it is at the goal gets there. -/
theorem exists_recv_goal (hN : 2 ≤ N) (hs : ProgramInv s) (j : Fin N) (goal : Process N → Prop)
    (hgoal : ∀ t : Program N, ProgramInv t → OnlyAt j s t → ¬ goal (t.processes j) →
      (t.processes j).processMsg ≠ .exited ∧ ((t.processes j).Reads → t.inbox j ≠ [])) :
    ∃ es s', Receives es ∧ exec (Program.step hN) s es = some s' ∧
      (ProgramInv s' ∧ OnlyAt j s s') ∧ goal (s'.processes j) := by
  have hmore : ∀ t : Program N, ProgramInv t ∧ OnlyAt j s t → ¬ goal (t.processes j) →
      ∃ es t', Receives es ∧ exec (Program.step hN) t es = some t' ∧
        (ProgramInv t' ∧ OnlyAt j s t') ∧ t'.work j < t.work j := by
    intro t ht hnot
    obtain ⟨hinv, honly⟩ := ht
    obtain ⟨hexited, hread⟩ := hgoal t hinv honly hnot
    obtain ⟨t', ht', honly', hless⟩ := exists_recv_step hN hexited hread
    refine ⟨[.recv j], t', by simp [Receives], ?_, ⟨programInv_step hinv ht', honly.trans honly'⟩,
      hless⟩
    rw [exec_cons, ht']
    rfl
  exact exists_exec_goal (Program.step hN) (fun t => t.work j) (fun e => ∃ i, e = .recv i)
    (fun t => ProgramInv t ∧ OnlyAt j s t) (fun t => goal (t.processes j)) hmore
    ⟨hs, rfl, fun _ _ => rfl, fun _ _ => rfl⟩

/-- If some process that is not at the goal can always get there, all of them do. -/
theorem exists_all_goal (hN : 2 ≤ N) (goal : Process N → Prop) (main : MainPc → Prop)
    (hnext : ∀ t : Program N, ProgramInv t → main t.main → (∃ j, ¬ goal (t.processes j)) →
      ∃ j, ¬ goal (t.processes j) ∧ ∃ es t', Receives es ∧ exec (Program.step hN) t es = some t' ∧
        (ProgramInv t' ∧ OnlyAt j t t') ∧ goal (t'.processes j))
    (hs : ProgramInv s) (hmain : main s.main) : ∃ es s', Receives es ∧
      exec (Program.step hN) s es = some s' ∧ (ProgramInv s' ∧ main s'.main) ∧
        ∀ j, goal (s'.processes j) := by
  refine exists_exec_all (Program.step hN) (fun e => ∃ i, e = .recv i)
    (fun t => ProgramInv t ∧ main t.main) (fun j t => goal (t.processes j)) ?_ ⟨hs, hmain⟩
  intro t ht hnot
  obtain ⟨j, hj, es, t', hes, hexec, ⟨hinv, honly⟩, hgoal⟩ := hnext t ht.1 ht.2 hnot
  refine ⟨j, hj, es, t', hes, hexec, ⟨hinv, honly.main ▸ ht.2⟩, hgoal, ?_⟩
  intro i hi
  by_cases hij : i = j
  · exact hij ▸ hgoal
  · rwa [honly.processes i hij]

/-- When the leader has written, some process that is held has `'y'` on its way. -/
theorem ProgramInv.exists_held (hN : 2 ≤ N) (hs : ProgramInv s) (hmain : s.main ≠ .preparing)
    (h : ∃ j, (s.processes j).Held) :
    ∃ j, (s.processes j).Held ∧ s.wrote (getPredecessor j) ≠ [] := by
  by_contra hnone
  obtain ⟨k, hk⟩ := h
  refine absurd hk (ring_induction (P := fun j => ¬ (s.processes j).Held)
    (getSuccessor (leader hN)) ?_ ?_ k)
  · intro hheld
    refine hnone ⟨_, hheld, ?_⟩
    rw [getPredecessor_getSuccessor, (hs.process (leader hN)).written.ne_nil,
      writeStage_leader (val_leader hN)]
    cases hm : s.main with
    | preparing => exact absurd hm hmain
    | measuring | stopped => simp [MainPc.stage]
  · intro j hj hpred hheld
    refine hnone ⟨j, hheld, ?_⟩
    have hfollower : (getPredecessor j).val ≠ 0 := by
      intro hzero
      apply hj
      rw [← (eq_leader_iff hN _).mpr hzero, getSuccessor_getPredecessor]
    rw [(hs.process (getPredecessor j)).written.ne_nil]
    exact writeStage_ne_silent (fun hzero => absurd hzero hfollower) hpred

/-- When `stop_leader` has been called, some process that has not ended has `'n'` on its way. -/
theorem ProgramInv.exists_unfinished (hN : 2 ≤ N) (hs : ProgramInv s) (hmain : s.main = .stopped)
    (h : ∃ j, (s.processes j).processMsg ≠ .exited) :
    ∃ j, (s.processes j).processMsg ≠ .exited ∧ .n ∈ s.wrote (getPredecessor j) := by
  have hn : ∀ j, (s.processes j).writeStage j s.main = .ended → .n ∈ s.wrote j := by
    intro j hended
    have hwritten := (hs.process j).written
    rw [hended] at hwritten
    obtain ⟨b, c, hbc⟩ := hwritten
    simp [hbc]
  by_contra hnone
  obtain ⟨k, hk⟩ := h
  refine hk (ring_induction (P := fun j => (s.processes j).processMsg = .exited)
    (getSuccessor (leader hN)) ?_ ?_ k)
  · by_contra hexited
    refine hnone ⟨_, hexited, hn _ ?_⟩
    rw [getPredecessor_getSuccessor, writeStage_leader (val_leader hN), hmain]
    rfl
  · intro j hj hpred
    by_contra hexited
    refine hnone ⟨j, hexited, hn _ ?_⟩
    have hfollower : (getPredecessor j).val ≠ 0 := by
      intro hzero
      apply hj
      rw [← (eq_leader_iff hN _).mpr hzero, getSuccessor_getPredecessor]
    rw [writeStage_eq_ended, if_neg hfollower]
    refine ⟨hpred, ?_⟩
    by_contra hnot
    have hloop := ((hs.process (getPredecessor j)).idle (by simpa using hnot)).1
    rw [hpred] at hloop
    cases hloop

/-- A process that `'y'` is on its way to lets its `send_msg` run when it has read it. -/
theorem exists_released (hN : 2 ≤ N) (hs : ProgramInv s) {j : Fin N}
    (hy : s.wrote (getPredecessor j) ≠ []) : ∃ es s', Receives es ∧
      exec (Program.step hN) s es = some s' ∧ (ProgramInv s' ∧ OnlyAt j s s') ∧
        ¬ (s'.processes j).Held := by
  refine exists_recv_goal hN hs j (fun t => ¬ t.Held) ?_
  intro t ht honly hnot
  rcases not_not.mp hnot with hf | hpc | hpc
  · -- it has read nothing yet
    refine ⟨?_, fun _ hnil => ?_⟩
    · rw [((ht.process j).idle hf).1]
      simp
    · have hflow := ht.flow j
      rw [hnil, List.append_nil, honly.wrote _ (getPredecessor_ne_self hN j)] at hflow
      have hstarted := (ht.process j).started_iff.mpr (hflow ▸ hy)
      rw [hf] at hstarted
      cases hstarted
  · refine ⟨by simp [hpc], fun hreads => ?_⟩
    rw [hreads.1] at hpc
    cases hpc
  · refine ⟨by simp [hpc], fun hreads => ?_⟩
    rw [hreads.1] at hpc
    cases hpc

/-- A process that `'n'` is on its way to ends by reading on. -/
theorem exists_exited (hN : 2 ≤ N) (hs : ProgramInv s) {j : Fin N}
    (hn : .n ∈ s.wrote (getPredecessor j)) : ∃ es s', Receives es ∧
      exec (Program.step hN) s es = some s' ∧ (ProgramInv s' ∧ OnlyAt j s s') ∧
        (s'.processes j).processMsg = .exited := by
  refine exists_recv_goal hN hs j (fun t => t.processMsg = .exited) ?_
  intro t ht honly hexited
  refine ⟨hexited, fun hreads hnil => ?_⟩
  have hflow := ht.flow j
  rw [hnil, List.append_nil, honly.wrote _ (getPredecessor_ne_self hN j)] at hflow
  have hended := (ht.process j).taken.ended_of_mem (hflow ▸ hn)
  rw [Process.readStage, hreads.1] at hended
  split at hended <;> simp at hended

/-- The threads `process_msg` can let every `send_msg` run. -/
theorem exists_all_released (hN : 2 ≤ N) (hs : ProgramInv s) (hmain : s.main ≠ .preparing) :
    ∃ es s', Receives es ∧ exec (Program.step hN) s es = some s' ∧ ProgramInv s' ∧
      ∀ j, ¬ (s'.processes j).Held := by
  have hnext : ∀ t : Program N, ProgramInv t → t.main ≠ .preparing →
      (∃ j, ¬ ¬ (t.processes j).Held) → ∃ j, ¬ ¬ (t.processes j).Held ∧ ∃ es t', Receives es ∧
        exec (Program.step hN) t es = some t' ∧ (ProgramInv t' ∧ OnlyAt j t t') ∧
          ¬ (t'.processes j).Held := by
    intro t ht hm hsome
    simp only [not_not] at hsome ⊢
    obtain ⟨j, hheld, hwrote⟩ := ht.exists_held hN hm hsome
    exact ⟨j, hheld, exists_released hN ht hwrote⟩
  obtain ⟨es, s', hes, hexec, hs', hall⟩ := exists_all_goal hN (fun t => ¬ t.Held)
    (fun m => m ≠ .preparing) hnext hs hmain
  exact ⟨es, s', hes, hexec, hs'.1, hall⟩

/-- They can all end. -/
theorem exists_all_exited (hN : 2 ≤ N) (hs : ProgramInv s) (hmain : s.main = .stopped) :
    ∃ es s', Receives es ∧ exec (Program.step hN) s es = some s' ∧
      ∀ j, (s'.processes j).processMsg = .exited := by
  have hnext : ∀ t : Program N, ProgramInv t → t.main = .stopped →
      (∃ j, (t.processes j).processMsg ≠ .exited) → ∃ j, (t.processes j).processMsg ≠ .exited ∧
        ∃ es t', Receives es ∧ exec (Program.step hN) t es = some t' ∧
          (ProgramInv t' ∧ OnlyAt j t t') ∧ (t'.processes j).processMsg = .exited := by
    intro t ht hm hsome
    obtain ⟨j, hexited, hn⟩ := ht.exists_unfinished hN hm hsome
    exact ⟨j, hexited, exists_exited hN ht hn⟩
  obtain ⟨es, s', hes, hexec, -, hall⟩ := exists_all_goal hN (fun t => t.processMsg = .exited)
    (fun m => m = .stopped) hnext hs hmain
  exact ⟨es, s', hes, hexec, hall⟩

/-- **Progress of the start and the stop.** From every state reached, once the leader has called
`start_leader` the threads `process_msg` alone can let every `send_msg` run, and once it has called
`stop_leader` they alone can end all of them. -/
theorem program_progress (hN : 2 ≤ N) {es : List (ProgramEvent N)} {s : Program N}
    (h : exec (Program.step hN) Program.initial es = some s) :
    (s.main ≠ .preparing → ∃ fs s', Receives fs ∧ exec (Program.step hN) s fs = some s' ∧
      ∀ j, ¬ (s'.processes j).Held) ∧
    (s.main = .stopped → ∃ fs s', Receives fs ∧ exec (Program.step hN) s fs = some s' ∧
      ∀ j, (s'.processes j).processMsg = .exited) := by
  have hs := programInv_exec programInv_initial h
  constructor
  · intro hmain
    obtain ⟨fs, s', hfs, hexec, -, hall⟩ := exists_all_released hN hs hmain
    exact ⟨fs, s', hfs, hexec, hall⟩
  · intro hmain
    exact exists_all_exited hN hs hmain

theorem program_progress_ofTwo : ∃ fs s', Receives fs ∧
    exec (Program.step (Nat.le_refl 2)) ((exec (Program.step (Nat.le_refl 2)) Program.initial
      (startOfTwo 0 1 ++ [.main])).get (by decide)) fs = some s' ∧
      ∀ j : Fin 2, (s'.processes j).processMsg = .exited :=
  (program_progress (Nat.le_refl 2) (Option.some_get _).symm).2 (by decide)

end Program

end UniformBroadcast.TcpRing
