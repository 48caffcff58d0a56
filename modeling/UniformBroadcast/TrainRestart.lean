import UniformBroadcast.TrainBuffers

/-!
# Leaving the circuit and starting it again

A process that was alone starts the trains with what the last handling of each has left. The
pointers to received wagons are overwritten and that to its own wagon is kept; the references
are not released.
-/

namespace UniformBroadcast.Trains

open TransitionRuns CountedBlocks

variable {ntr : ℕ}

/-! ## The references of the last trains sent -/

/-- The references of `lts[id].w.w_w` and of `lts[id].p_wtosend`, for all trains. -/
def ltsReferences (b : Buffers ntr) : List ℕ :=
  (List.finRange ntr).flatMap fun id => (b.ltsWagons id).toList ++ (b.pWtosend id).toList

/-- The frame sent, if it is that of a train, carries no wagon. -/
def WithoutWagon : Action ntr → Prop
  | .sendTrain _ lts => (trainSent lts).map Train.wagons = some []
  | _ => True

instance : DecidablePred (@WithoutWagon ntr)
  | .sendTrain _ lts => inferInstanceAs (Decidable ((trainSent lts).map Train.wagons = some []))
  | .participate _ | .openConnection _ _ _ | .closeConnection _ _ | .sendOther _ _ _ | .sleep =>
    inferInstanceAs (Decidable True)

/-- The trains sent carry no wagon, the references of `lts` and that of the message are
released, and `lts` is, but for the stamps, as after a `NEWSUCC` that follows
`automatonInit`. -/
structure StartsClean (c : Config) (hntr : 0 < ntr) (s s' : BufferedApp ntr) (womim : ℕ)
    (sent : List (Action ntr)) : Prop where
  frames : ∀ a ∈ sent, WithoutWagon a
  released :
    Heap.releaseAll (ltsReferences s.buffers ++ [womim]) s.buffers.heap = some s'.buffers.heap
  pointers : ltsReferences s'.buffers = []
  lts : ∀ id (st : Stamp ntr), { s'.app.proc.lts id with stamp := st } =
    { emptyTrain c s.app.proc.prec ((Proc.initial c hntr).lts id) with stamp := st }

/-- The last trains sent reference nothing. -/
def ReferenceNothing (s : BufferedApp ntr) : Prop :=
  ∀ id, s.buffers.ltsWagons id = none ∧ s.buffers.pWtosend id = none ∧
    (s.app.proc.lts id).pWtosend = none

section Restart

variable {c : Config} {hntr : 0 < ntr} {dial : Address → Bool} {s s' : BufferedApp ntr}
  {sender : Address} {womim : ℕ} {q : Proc ntr} {sent : List (Action ntr)}

theorem ltsReferences_eq_nil_iff {b : Buffers ntr} :
    ltsReferences b = [] ↔ ∀ id, b.ltsWagons id = none ∧ b.pWtosend id = none := by
  simp [ltsReferences, Option.toList_eq_nil_iff]

/-- The treatment of `NEWSUCC` in `ALONE_CONNECTION_WAIT`. -/
theorem step_newSucc (hstate : s.app.proc.automatonState = .aloneConnectionWait)
    (hstep : s.step c (.treat dial (.newSucc sender) womim) = some s')
    (hsent : stateMachine c dial (.newSucc sender) s.app.proc = some (q, sent)) :
    s.buffers.heap.release womim = some s'.buffers.heap ∧
    s'.buffers.ltsWagons = (fun _ => none) ∧ s'.buffers.pWtosend = s.buffers.pWtosend ∧
    s'.app.proc.lts = (fun id => emptyTrain c s.app.proc.prec (s.app.proc.lts id)) ∧
    sent = (trainsAfter s.app.proc.lis).map fun id =>
      .sendTrain sender (emptyTrain c s.app.proc.prec (s.app.proc.lts id)) := by
  obtain ⟨app, happ, hstep⟩ := Option.bind_eq_some_iff.mp hstep
  obtain ⟨b, hb, rfl⟩ := Option.map_eq_some_iff.mp hstep
  have hmachine : stateMachine c dial (.newSucc sender) s.app.proc =
      some ({ s.app.proc with
        succ := sender
        lts := fun id => emptyTrain c s.app.proc.prec (s.app.proc.lts id)
        automatonState := .several },
      (trainsAfter s.app.proc.lis).map fun id =>
        .sendTrain sender (emptyTrain c s.app.proc.prec (s.app.proc.lts id))) := by
    simp [stateMachine, hstate, aloneConnectionWait, nextState]
  obtain ⟨rfl, rfl⟩ := Prod.mk.inj (Option.some.inj (hsent.symm.trans hmachine))
  have hlts : app.proc.lts = fun id => emptyTrain c s.app.proc.prec (s.app.proc.lts id) := by
    rw [BufferedApp.stepApp] at happ
    split at happ
    · rw [App.step] at happ
      split at happ
      · cases happ
      · rw [hmachine] at happ
        cases happ
        rfl
    · cases happ
  simp only [BufferedApp.stepBuffers, Buffers.stateMachine, Buffers.handle, hstate,
    Option.bind_some, Buffers.freeWomim] at hb
  obtain ⟨heap, hheap, rfl⟩ := Option.map_eq_some_iff.mp hb
  exact ⟨hheap, rfl, rfl, hlts, rfl⟩

theorem startsClean_iff (hstate : s.app.proc.automatonState = .aloneConnectionWait)
    (hstep : s.step c (.treat dial (.newSucc sender) womim) = some s')
    (hsent : stateMachine c dial (.newSucc sender) s.app.proc = some (q, sent)) :
    StartsClean c hntr s s' womim sent ↔ ReferenceNothing s := by
  obtain ⟨hheap, hwagons, hwtosend, hlts, hframes⟩ := step_newSucc hstate hstep hsent
  constructor
  · rintro ⟨-, hreleased, hpointers, hfirst⟩
    have hnone : ltsReferences s.buffers = [] := by
      rw [List.eq_nil_iff_forall_not_mem]
      intro x hx
      have hcode := release_counter hheap x
      have hexpected := releaseAll_counter hreleased x
      have hpos := List.count_pos_iff.mpr hx
      rw [List.count_append, List.count_singleton] at hexpected
      by_cases hxw : x = womim
      · subst hxw
        simp at hcode hexpected
        omega
      · have hne : ¬ womim = x := fun h => hxw h.symm
        simp [hxw, hne] at hcode hexpected
        omega
    intro id
    obtain ⟨hw, hp⟩ := ltsReferences_eq_nil_iff.mp hnone id
    refine ⟨hw, hp, ?_⟩
    have hid := congrArg Lts.pWtosend (hfirst id (s.app.proc.lts id).stamp)
    rwa [hlts] at hid
  · intro hnothing
    have hnone : ltsReferences s.buffers = [] :=
      ltsReferences_eq_nil_iff.mpr fun id => ⟨(hnothing id).1, (hnothing id).2.1⟩
    refine ⟨?_, ?_, ?_, ?_⟩
    · intro a ha
      rw [hframes] at ha
      obtain ⟨id, -, rfl⟩ := List.mem_map.mp ha
      simp [WithoutWagon, trainSent, emptyTrain, carve, ownSent, (hnothing id).2.2]
    · rw [hnone, List.nil_append, Heap.releaseAll, List.foldlM_cons, hheap]
      rfl
    · rw [ltsReferences_eq_nil_iff, hwagons, hwtosend]
      exact fun id => ⟨rfl, (hnothing id).2.1⟩
    · intro id st
      rw [hlts]
      simp only [emptyTrain, (hnothing id).2.2, Proc.initial]

end Restart

/-- Each time that the process leaves `ALONE_CONNECTION_WAIT` on a `NEWSUCC`, it starts clean. -/
def RestartsClean (c : Config) (hntr : 0 < ntr) (s : BufferedApp ntr) : BufferedEvent ntr → Prop
  | .treat dial (.newSucc sender) womim => s.app.proc.automatonState = .aloneConnectionWait →
    ∀ s' ∈ s.step c (.treat dial (.newSucc sender) womim),
      ∀ r ∈ stateMachine c dial (.newSucc sender) s.app.proc, StartsClean c hntr s s' womim r.2
  | _ => True

/-- Each time, the last trains sent reference nothing. -/
def RestartsUnreferenced (s : BufferedApp ntr) : BufferedEvent ntr → Prop
  | .treat _ (.newSucc _) _ => s.app.proc.automatonState = .aloneConnectionWait → ReferenceNothing s
  | _ => True

instance (s : BufferedApp ntr) : DecidablePred (RestartsUnreferenced s)
  | .treat _ (.newSucc _) _ =>
    inferInstanceAs (Decidable (_ → ∀ id, _ ∧ _ ∧ (s.app.proc.lts id).pWtosend = none))
  | .treat _ (.train _ _ _) _ | .treat _ (.insert _) _ | .treat _ (.ackInsert _) _
  | .treat _ (.nakInsert _) _ | .treat _ (.disconnectPred _) _ | .treat _ (.disconnectSucc _) _
  | .receive | .wake _ | .newmsg _ | .utoBroadcast | .unlock | .dequeue | .delivered =>
    inferInstanceAs (Decidable True)

theorem restartsClean_iff {c : Config} {hntr : 0 < ntr} {s s' : BufferedApp ntr}
    {e : BufferedEvent ntr} (hstep : s.step c e = some s') :
    RestartsClean c hntr s e ↔ RestartsUnreferenced s e := by
  cases e with
  | treat dial m womim =>
    cases m with
    | newSucc sender =>
      rw [RestartsClean, RestartsUnreferenced]
      refine forall_congr' fun hstate => ?_
      obtain ⟨⟨q, sent⟩, hsent⟩ :
          ∃ r, stateMachine c dial (.newSucc sender) s.app.proc = some r := by
        rw [stateMachine, hstate]
        exact ⟨_, rfl⟩
      rw [← startsClean_iff hstate hstep hsent]
      constructor
      · intro hclean
        exact hclean s' hstep (q, sent) hsent
      · rintro hclean t ht r hr
        obtain rfl := Option.some.inj (hstep.symm.trans ht)
        obtain rfl := Option.some.inj (hsent.symm.trans hr)
        exact hclean
    | train | insert | ackInsert | nakInsert | disconnectPred | disconnectSucc => exact Iff.rfl
  | receive | wake | newmsg | utoBroadcast | unlock | dequeue | delivered => exact Iff.rfl

/-- In every run of a process, from any state, it starts clean each time that it leaves
`ALONE_CONNECTION_WAIT` exactly when the last trains sent reference nothing each time. -/
theorem newSucc_starts_clean {c : Config} (hntr : 0 < ntr) {s t : BufferedApp ntr}
    {es : List (BufferedEvent ntr)} (hrun : exec (BufferedApp.step c) s es = some t) :
    Along (BufferedApp.step c) (RestartsClean c hntr) s es ↔
      Along (BufferedApp.step c) RestartsUnreferenced s es :=
  along_congr (fun _ _ _ hstep => restartsClean_iff hstep) hrun

/-- The first process of a circuit with one train. -/
def firstBuffered : Option (BufferedApp 1) :=
  BufferedApp.start ⟨1#16, 3, 64⟩ (fun _ => false) Nat.one_pos

/-- A process that is alone takes in process 2, loses it before it handles a train, and takes in
process 4. -/
def shortStay : List (BufferedEvent 1) :=
  exchange.take 6 ++ [.receive, .treat (fun _ => false) (.disconnectPred 2#16) 4, .receive,
    .treat (fun _ => false) (.insert 4#16) 6, .receive,
    .treat (fun _ => false) (.newSucc 4#16) 7]

theorem newSucc_starts_clean_shortStay : Along (BufferedApp.step ⟨1#16, 3, 64⟩)
    (RestartsClean ⟨1#16, 3, 64⟩ Nat.one_pos) (firstBuffered.get (by decide)) shortStay :=
  have hrun : (exec (BufferedApp.step ⟨1#16, 3, 64⟩) (firstBuffered.get (by decide))
      shortStay).isSome := by decide
  (newSucc_starts_clean Nat.one_pos (Option.some_get hrun).symm).mpr (by decide)

/-- After a stay in the circuit with process 2, the process is alone again and has accepted
process 4. -/
def secondStay : List (BufferedEvent 1) :=
  exchange ++ [.receive, .treat (fun _ => false) (.disconnectPred 2#16) 7, .receive,
    .treat (fun _ => false) (.insert 4#16) 9, .receive]

/-- The process before a `NEWSUCC`, after it, and what it sends. -/
def restarted (stay : List (BufferedEvent 1)) (sender : Address) (womim : ℕ) :
    Option (BufferedApp 1 × BufferedApp 1 × Proc 1 × List (Action 1)) := do
  let start ← BufferedApp.start ⟨1#16, 3, 64⟩ (fun _ => false) Nat.one_pos
  let s ← exec (BufferedApp.step ⟨1#16, 3, 64⟩) start stay
  let s' ← s.step ⟨1#16, 3, 64⟩ (.treat (fun _ => false) (.newSucc sender) womim)
  let (q, sent) ← stateMachine ⟨1#16, 3, 64⟩ (fun _ => false) (.newSucc sender) s.app.proc
  return (s, s', q, sent)

/-- The train sent to process 4 carries the last wagon of the first stay, whose reference is
kept. -/
theorem not_newSucc_starts_clean : ∃ s s' q sent,
    restarted secondStay 4#16 10 = some (s, s', q, sent) ∧
      s.app.proc.automatonState = .aloneConnectionWait ∧
      ¬ StartsClean ⟨1#16, 3, 64⟩ Nat.one_pos s s' 10 sent := by
  obtain ⟨⟨s, s', q, sent⟩, h⟩ :=
    Option.isSome_iff_exists.mp (show (restarted secondStay 4#16 10).isSome by decide)
  have hbefore : ∀ r ∈ restarted secondStay 4#16 10,
      r.1.app.proc.automatonState = .aloneConnectionWait ∧
      ∃ a ∈ r.2.2.2, ¬ WithoutWagon a := by
    decide
  obtain ⟨hstate, a, hmem, hwagon⟩ := hbefore _ h
  exact ⟨s, s', q, sent, h, hstate, fun hclean => hwagon (hclean.frames a hmem)⟩

end UniformBroadcast.Trains
