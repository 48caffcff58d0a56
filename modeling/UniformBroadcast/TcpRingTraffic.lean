import UniformBroadcast.TcpRingSystem
import UniformBroadcast.RunAccounts
import Mathlib.Algebra.Order.BigOperators.Group.Finset
import Mathlib.Algebra.BigOperators.Ring.List
import Mathlib.Algebra.Ring.Nat

/-!
# The traffic on the TCP ring

A broadcast is treated by every node but its sender, and so is its acknowledgement by every node
but the leader. The number of treatments to come is known for each message from where it is: a
run that broadcasts nothing more ends, after exactly that many treatments.
-/

namespace UniformBroadcast.TcpRing

open Sequencer TransitionRuns

variable {N : ℕ}

/-- Nothing is on its way. -/
def Ring.AtRest (s : Ring N) : Prop := ∀ j, s.inbox j = []

instance (s : Ring N) : Decidable s.AtRest := inferInstanceAs (Decidable (∀ _, _))

/-- The number of connections from one node to another. -/
def hops (i j : Fin N) : ℕ := if i.val ≤ j.val then j.val - i.val else j.val + N - i.val

/-- The treatments of the acknowledgement that follows a broadcast on its way from `j` to `last`,
when the leader is still to come. -/
def ackTreatments (j last : Fin N) : ℕ := if j.val = 0 ∨ last.val < j.val then N - 1 else 0

/-- The number of treatments that a message causes, from the connection into `j` on. -/
def treatments (j : Fin N) : Msg N → ℕ
  | .b m =>
    let last := getPredecessor m.idProcess
    hops j last + 1 + ackTreatments j last
  | .a _ => if j.val = 0 then 1 else N - j.val

def load (j : Fin N) (l : List (Msg N)) : ℕ := (l.map (treatments j)).sum

/-- The treatments to come. -/
def Ring.toTreat (s : Ring N) : ℕ := ∑ j, load j (s.inbox j)

/-- The broadcasts and the treatments that an event is. -/
def Event.sent : Event N → ℕ
  | .send _ => 1
  | .recv _ => 0

def Event.treated : Event N → ℕ
  | .send _ => 0
  | .recv _ => 1

@[simp] theorem load_nil (j : Fin N) : load j [] = 0 := rfl

@[simp] theorem load_cons (j : Fin N) (m : Msg N) (l : List (Msg N)) :
    load j (m :: l) = treatments j m + load j l := rfl

@[simp] theorem load_append (j : Fin N) (l k : List (Msg N)) :
    load j (l ++ k) = load j l + load j k := by
  simp [load]

/-! ## One step -/

section Step

variable (hN : 2 ≤ N)

/-- Two sums that differ in one term. -/
theorem sum_off {f g : Fin N → ℕ} (i : Fin N) (h : ∀ j, j ≠ i → g j = f j) :
    ∑ j, g j + f i = ∑ j, f j + g i := by
  have hg := Finset.add_sum_erase Finset.univ g (Finset.mem_univ i)
  have hf := Finset.add_sum_erase Finset.univ f (Finset.mem_univ i)
  have hsame : ∑ j ∈ Finset.univ.erase i, g j = ∑ j ∈ Finset.univ.erase i, f j := by
    apply Finset.sum_congr rfl
    intro j hj
    exact h j (Finset.ne_of_mem_erase hj)
  omega

include hN in
theorem after_toTreat (s : Ring N) (i : Fin N) (rest : List (Msg N)) (r : Node N × List (Msg N)) :
    (s.after i rest r).toTreat + load i (s.inbox i) =
      s.toTreat + load i rest + load (getSuccessor i) r.2 := by
  have hne := getSuccessor_ne_self hN i
  -- first what `i` reads, then what it writes
  let g : Fin N → ℕ := Function.update (fun j => load j (s.inbox j)) i (load i rest)
  have hread := @sum_off N (fun j => load j (s.inbox j)) g i fun j hj =>
    Function.update_of_ne hj _ _
  have hwrite := @sum_off N g (fun j => load j ((s.after i rest r).inbox j)) (getSuccessor i) ?_
  · simp only [after_inbox_succ hN, load_append] at hwrite
    simp only [g, Function.update_self, Function.update_of_ne hne] at hread hwrite
    simp only [Ring.toTreat]
    omega
  · intro j hj
    rcases eq_or_ne j i with rfl | hji
    · simp only [g, after_inbox_self hN, Function.update_self]
    · simp only [g, after_inbox_of_ne _ _ _ _ _ hji hj, Function.update_of_ne hji]

theorem val_getSuccessor (i : Fin N) :
    (getSuccessor i).val = if i.val = N - 1 then 0 else i.val + 1 := by
  simp only [getSuccessor, ne_eq, ite_not]

theorem val_getPredecessor (i : Fin N) :
    (getPredecessor i).val = if i.val = 0 then N - 1 else i.val - 1 := rfl

/-- Going on from the successor is one connection less. -/
theorem hops_getSuccessor {i last : Fin N} (h : i ≠ last) :
    hops (getSuccessor i) last + 1 = hops i last := by
  have hi := i.isLt
  have hlast := last.isLt
  have hne := Fin.val_ne_of_ne h
  rw [hops, hops, val_getSuccessor]
  by_cases hend : i.val = N - 1
  · rw [if_pos hend]
    split_ifs <;> omega
  · rw [if_neg hend]
    split_ifs <;> omega

/-- From node `j` back to node `i`. -/
theorem hops_getPredecessor {i j : Fin N} (h : j ≠ i) :
    hops i (getPredecessor j) + 1 = hops i j := by
  have hi := i.isLt
  have hj := j.isLt
  have hne := Fin.val_ne_of_ne h
  rw [hops, hops, val_getPredecessor]
  by_cases hfirst : j.val = 0
  · rw [if_pos hfirst]
    split_ifs <;> omega
  · rw [if_neg hfirst]
    split_ifs <;> omega

theorem eq_of_hops_eq_zero {i j : Fin N} (h : hops i j = 0) : j = i := by
  have hi := i.isLt
  have hj := j.isLt
  ext
  rw [hops] at h
  split_ifs at h <;> omega

/-- What each node but `i` takes over from its predecessor holds all along the ring. -/
theorem ring_induction {P : Fin N → Prop} (i : Fin N) (hi : P i)
    (hstep : ∀ j, j ≠ i → P (getPredecessor j) → P j) (j : Fin N) : P j := by
  induction hk : hops i j generalizing j with
  | zero => exact eq_of_hops_eq_zero hk ▸ hi
  | succ k ih =>
    have hne : j ≠ i := by
      rintro rfl
      simp [hops] at hk
    have hless := hops_getPredecessor hne
    exact hstep j hne (ih (getPredecessor j) (by omega))

/-- What each node but `i` takes over from its successor holds all along the ring. -/
theorem ring_induction_back {P : Fin N → Prop} (i : Fin N) (hi : P i)
    (hstep : ∀ j, j ≠ i → P (getSuccessor j) → P j) (j : Fin N) : P j := by
  induction hk : hops j i generalizing j with
  | zero => exact eq_of_hops_eq_zero hk ▸ hi
  | succ k ih =>
    have hne : j ≠ i := by
      rintro rfl
      simp [hops] at hk
    have hless := hops_getSuccessor hne
    exact hstep j hne (ih (getSuccessor j) (by omega))

/-- The leader is the one that passes from ahead to behind. -/
theorem ackTreatments_getSuccessor {i last : Fin N} (h : i ≠ last) :
    ackTreatments (getSuccessor i) last + (if i.val = 0 then N - 1 else 0) =
      ackTreatments i last := by
  have hi := i.isLt
  have hlast := last.isLt
  have hne := Fin.val_ne_of_ne h
  rw [ackTreatments, ackTreatments, val_getSuccessor]
  by_cases hend : i.val = N - 1
  · rw [if_pos hend]
    split_ifs <;> omega
  · have hahead : (i.val + 1 = 0 ∨ last.val < i.val + 1) ↔ last.val < i.val := by omega
    simp only [if_neg hend, hahead]
    split_ifs <;> omega

/-- A broadcast is treated once more and then forwarded, or has arrived. -/
theorem transferred_load (i : Fin N) (m : Bcast N) :
    load (getSuccessor i) (transferred i m) + 1 + (if i.val = 0 then N - 1 else 0) =
      treatments i (.b m) := by
  rw [transferred, treatments]
  by_cases h : i = getPredecessor m.idProcess
  · have hself : hops i i = 0 := by simp [hops]
    rw [if_neg (not_not.mpr h), ← h, hself, ackTreatments, load_nil]
    split_ifs <;> omega
  · have hhops := hops_getSuccessor h
    have hacks := ackTreatments_getSuccessor h
    rw [if_pos h, load_cons, load_nil, treatments]
    omega

include hN in
theorem treatments_ack {i : Fin N} (hi : i.val = 0) (k : Ack N) :
    treatments (getSuccessor i) (.a k) = N - 1 := by
  have hval := val_getSuccessor i
  rw [if_neg (by omega)] at hval
  rw [treatments, if_neg (by omega)]
  omega

include hN in
/-- A broadcast and its acknowledgement cross `N - 1` connections each. -/
theorem sendMsg_load (i : Fin N) (n : Node N) :
    load (getSuccessor i) (sendMsg i n).2 = 2 * (N - 1) := by
  have hi := i.isLt
  have hid : (nextMsg i n).idProcess = i := rfl
  have hne := getPredecessor_ne_self hN i
  have hhops := hops_getSuccessor (Ne.symm hne)
  have hacks := ackTreatments_getSuccessor (Ne.symm hne)
  have hall : hops i (getPredecessor i) = N - 1 := by
    rw [hops, val_getPredecessor]
    split_ifs <;> omega
  have hled : ackTreatments i (getPredecessor i) = N - 1 := by
    rw [ackTreatments, val_getPredecessor, if_pos]
    split_ifs <;> omega
  by_cases h : i.val = 0
  · rw [if_pos h] at hacks
    rw [(sendMsg_leader h n).1, load_cons, load_cons, load_nil, treatments_ack hN h, treatments,
      hid]
    omega
  · rw [if_neg h] at hacks
    rw [sendMsg_follower h, load_cons, load_nil, treatments, hid]
    omega

include hN in
theorem handleMsg_load (i : Fin N) (m : Bcast N) (n : Node N) :
    load (getSuccessor i) (handleMsg i m n).2 + 1 = treatments i (.b m) := by
  have hpassed := transferred_load i m
  by_cases h : i.val = 0
  · rw [if_pos h] at hpassed
    rw [(handleMsg_leader h m n).1, load_append, load_cons, load_nil, treatments_ack hN h]
    omega
  · rw [if_neg h] at hpassed
    rw [handleMsg_follower h]
    exact hpassed

theorem handleAck_load (i : Fin N) (k : Ack N) (n : Node N) :
    load (getSuccessor i) (handleAck i k n).2 + 1 = treatments i (.a k) := by
  have hi := i.isLt
  by_cases h : i.val = 0
  · rw [handleAck_leader h, treatments, if_pos h, load_nil]
  · rw [handleAck_follower h, treatments, if_neg h]
    by_cases hend : i.val + 1 = N
    · have hmod : ¬ (i.val + 1) % N ≠ 0 := by simp [hend]
      rw [if_neg hmod, load_nil]
      omega
    · have hmod : (i.val + 1) % N ≠ 0 := by
        rw [Nat.mod_eq_of_lt (by omega)]
        exact Nat.succ_ne_zero _
      have hval := val_getSuccessor i
      rw [if_neg (by omega)] at hval
      rw [if_pos hmod, load_cons, load_nil, treatments, if_neg (by omega)]
      omega

include hN in
theorem step_toTreat (s : Ring N) (e : Event N) (s' : Ring N) (h : step s e = some s') :
    s'.toTreat + e.treated = s.toTreat + 2 * (N - 1) * e.sent := by
  cases e with
  | send i =>
    obtain rfl := Option.some.inj h
    have hafter := after_toTreat hN s i (s.inbox i) (sendMsg i (s.nodes i))
    have hout := sendMsg_load hN i (s.nodes i)
    simp only [Event.treated, Event.sent]
    omega
  | recv i =>
    simp only [step] at h
    split at h
    · cases h
    · rename_i m rest hread
      obtain rfl := Option.some.inj h
      have hafter := after_toTreat hN s i rest (handleMsg i m (s.nodes i))
      have hout := handleMsg_load hN i m (s.nodes i)
      rw [hread, load_cons] at hafter
      simp only [Event.treated, Event.sent]
      omega
    · rename_i k rest hread
      obtain rfl := Option.some.inj h
      have hafter := after_toTreat hN s i rest (handleAck i k (s.nodes i))
      have hout := handleAck_load i k (s.nodes i)
      rw [hread, load_cons] at hafter
      simp only [Event.treated, Event.sent]
      omega

end Step

/-! ## Runs -/

theorem treatments_pos (j : Fin N) (m : Msg N) : 0 < treatments j m := by
  have hj := j.isLt
  cases m with
  | b m =>
    simp only [treatments]
    omega
  | a k =>
    simp only [treatments]
    split_ifs <;> omega

/-- The ring is at rest when no treatment is to come. -/
theorem toTreat_eq_zero_iff (s : Ring N) : s.toTreat = 0 ↔ s.AtRest := by
  rw [Ring.toTreat, Finset.sum_eq_zero_iff]
  constructor
  · intro h j
    cases hread : s.inbox j with
    | nil => rfl
    | cons m rest =>
      have hzero := h j (Finset.mem_univ j)
      have hpos := treatments_pos j m
      rw [hread, load_cons] at hzero
      omega
  · intro h j _
    rw [h j, load_nil]

theorem step_recv_isSome {s : Ring N} {j : Fin N} (h : s.inbox j ≠ []) :
    (step s (.recv j)).isSome := by
  cases hread : s.inbox j with
  | nil => exact absurd hread h
  | cons m rest => cases m <;> simp [step, hread]

/-- Until the ring is at rest some node can make a treatment. -/
theorem exists_recv (hN : 2 ≤ N) (s : Ring N) (h : ¬ s.AtRest) : ∃ es s',
    (∀ e ∈ es, ∃ j, e = Event.recv j) ∧ exec step s es = some s' ∧ s'.toTreat < s.toTreat := by
  obtain ⟨j, hj⟩ : ∃ j, s.inbox j ≠ [] := not_forall.mp h
  obtain ⟨t, ht⟩ := Option.isSome_iff_exists.mp (step_recv_isSome hj)
  have hless : t.toTreat + 1 = s.toTreat := step_toTreat hN s (.recv j) t ht
  refine ⟨[.recv j], t, by simp, ?_, by omega⟩
  rw [exec_cons, ht]
  rfl

/-- The treatments alone bring the ring to rest. -/
theorem exists_rest (hN : 2 ≤ N) (s : Ring N) : ∃ js : List (Fin N), ∃ s',
    exec step s (js.map .recv) = some s' ∧ s'.AtRest := by
  have hmore : ∀ s : Ring N, True → ¬ s.AtRest → ∃ es s', (∀ e ∈ es, ∃ j, e = Event.recv j) ∧
      exec step s es = some s' ∧ True ∧ s'.toTreat < s.toTreat := by
    intro s _ hs
    obtain ⟨es, t, hes, ht, hless⟩ := exists_recv hN s hs
    exact ⟨es, t, hes, ht, trivial, hless⟩
  obtain ⟨fs, s', hfs, hexec, -, hrest⟩ := exists_exec_goal step Ring.toTreat
    (fun e => ∃ j, e = .recv j) (fun _ => True) Ring.AtRest hmore trivial
  obtain ⟨js, rfl⟩ : fs ∈ Set.range (List.map Event.recv) := by
    rw [Set.range_list_map]
    intro e he
    obtain ⟨j, rfl⟩ := hfs e he
    exact ⟨j, rfl⟩
  exact ⟨js, s', hexec, hrest⟩

/-- The broadcasts and the treatments of a run. -/
def sends (es : List (Event N)) : ℕ := (es.map Event.sent).sum

def treats (es : List (Event N)) : ℕ := (es.map Event.treated).sum

/-- The treatments made and to come are `2 * (N - 1)` for each broadcast. -/
theorem exec_toTreat (hN : 2 ≤ N) {es : List (Event N)} {s : Ring N}
    (h : exec step Ring.initial es = some s) :
    s.toTreat + treats es = 2 * (N - 1) * sends es := by
  have haccount := exec_account (step_toTreat hN) h
  have hzero : (Ring.initial : Ring N).toTreat = 0 := (toTreat_eq_zero_iff _).mpr fun _ => rfl
  rwa [hzero, Nat.zero_add, List.sum_map_mul_left] at haccount

/-- **Traffic.** In every run the treatments are at most `2 * (N - 1)` for each broadcast, and
exactly so many when nothing is left on the ring. From every state reached the ring comes to rest
without another broadcast. -/
theorem ring_traffic (hN : 2 ≤ N) {es : List (Event N)} {s : Ring N}
    (h : exec step Ring.initial es = some s) :
    treats es ≤ 2 * (N - 1) * sends es ∧ (treats es = 2 * (N - 1) * sends es ↔ s.AtRest) ∧
      ∃ js : List (Fin N), ∃ s', exec step s (js.map .recv) = some s' ∧ s'.AtRest := by
  have haccount := exec_toTreat hN h
  refine ⟨by omega, ?_, ?_⟩
  · rw [← toTreat_eq_zero_iff]
    omega
  · exact exists_rest hN s

/-- One node has broadcast and nobody has treated it. -/
theorem ring_traffic_first :
    ∃ js : List (Fin 2), ∃ s', exec step ((exec step Ring.initial [.send (0 : Fin 2)]).get
      (by decide)) (js.map .recv) = some s' ∧ s'.AtRest :=
  (ring_traffic (Nat.le_refl 2) (Option.some_get _).symm).2.2

end UniformBroadcast.TcpRing
