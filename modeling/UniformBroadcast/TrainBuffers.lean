import UniformBroadcast.CountedBlocks
import UniformBroadcast.TrainBroadcasts
import UniformBroadcast.TrainWagonBuffer

/-!
# The buffers of wagons and messages

Every wagon and every message received is in a `womim`, a block with a counter of
references. The references of a process are in `wagonToSend`, in the last trains sent, in
the lists of unstable wagons and in the queue of wagons to deliver. What the code does with
them is followed step by step, the counters with it.
-/

namespace UniformBroadcast.Trains

open TransitionRuns Draining CountedBlocks

variable {ntr : ℕ}

/-- The references of a process to its womims: `p_womim` of each `wiw`, `none` for `NULL`. -/
structure Buffers (ntr : ℕ) where
  heap : Heap
  /-- The messages received and not treated yet. -/
  received : List ℕ
  wagonToSend : ℕ
  /-- `lts[id].w.w_w`. -/
  ltsWagons : Fin ntr → Option ℕ
  /-- `lts[id].p_wtosend`. -/
  pWtosend : Fin ntr → Option ℕ
  /-- `wagonsToDeliver` and `unstableWagons`. -/
  lists : Stock (Fin ntr × Fin nr) ℕ
  /-- The wagon that `utoDeliveries` has taken out of the queue. -/
  delivering : Option ℕ

namespace Buffers

/-- `wagonToSend = newWiw()`. -/
def newWiw (b : Buffers ntr) : Buffers ntr :=
  { b with heap := b.heap.alloc, wagonToSend := b.heap.next }

/-- `realloc` of the womim of `wagonToSend`. -/
def reallocWagonToSend (b : Buffers ntr) : Option (Buffers ntr) :=
  (b.heap.move b.wagonToSend).map fun heap => { b with heap := heap, wagonToSend := b.heap.next }

/-- `releaseWiw` of a pointer that may be `NULL`. -/
def releaseWiw (ww : Option ℕ) (h : Heap) : Option Heap :=
  match ww with
  | none => some h
  | some womim => h.release womim

/-- `releaseWiw(&(lts[id].w.w_w))`. -/
def releaseLtsWagons (id : Fin ntr) (b : Buffers ntr) : Option (Buffers ntr) :=
  (releaseWiw (b.ltsWagons id) b.heap).map fun heap =>
    { b with heap := heap, ltsWagons := setAt b.ltsWagons id none }

/-- `freeWiw(lts[id].p_wtosend)`. -/
def freePWtosend (id : Fin ntr) (b : Buffers ntr) : Option (Buffers ntr) :=
  (releaseWiw (b.pWtosend id) b.heap).map fun heap =>
    { b with heap := heap, pWtosend := setAt b.pWtosend id none }

/-- A wiw on a womim is appended to a list of unstable wagons. -/
def appendUnstable (womim : ℕ) (id : Fin ntr) (round : Fin nr) (b : Buffers ntr) :
    Option (Buffers ntr) :=
  (b.heap.share womim).map fun heap =>
    { b with heap := heap, lists := extend b.lists (id, round) [womim] }

/-- `lts[id].w.w_w` is made to point to a womim. -/
def pointLtsWagons (womim : ℕ) (id : Fin ntr) (b : Buffers ntr) : Option (Buffers ntr) :=
  (b.heap.share womim).map fun heap =>
    { b with heap := heap, ltsWagons := setAt b.ltsWagons id (some womim) }

/-- The part of `trainHandling` on `wagonToSend`, when it holds a message. -/
def putOnTrain (id : Fin ntr) (round : Fin nr) (b : Buffers ntr) : Option (Buffers ntr) :=
  (b.appendUnstable b.wagonToSend id round).map fun b =>
    { b with pWtosend := setAt b.pWtosend id (some b.wagonToSend) }.newWiw

/-- `bqueueEnqueue(wagonsToDeliver, wagonToSend)` and a new wagon. -/
def deliverWagonToSend (b : Buffers ntr) : Buffers ntr :=
  { b with lists := { b.lists with moved := b.lists.moved ++ [b.wagonToSend] } }.newWiw

/-- `freeWomim` of a message that has been treated. -/
def freeWomim (womim : ℕ) (b : Buffers ntr) : Option (Buffers ntr) :=
  (b.heap.release womim).map fun heap =>
    { b with heap := heap, received := b.received.erase womim }

section Operations

variable (c : Config)

def mallocWiw (payloadSize : ℕ) (b : Buffers ntr) : Option (Buffers ntr) :=
  if payloadSize > c.wagonMaxLen then b.reallocWagonToSend else some b

/-- `signalArrivalDepartures` on a wagon. -/
def signal (w : Wagon) (b : Buffers ntr) : Option (Buffers ntr) :=
  (if (c.wagonMaxLen : ℤ) - w.len < sizeofPayloadArrivalDeparture then b.reallocWagonToSend
    else some b).bind (mallocWiw c sizeofPayloadArrivalDeparture)

/-- The loop of `signalDepartures`. -/
def signalAll (circuit : Address) : List Address → Wagon → Buffers ntr → Option (Buffers ntr)
  | [], _, b => some b
  | ad :: ads, w, b => (b.signal c w).bind fun b =>
    signalAll circuit ads (signalArrivalDepartures amDeparture ad circuit w) b

def signalDepartures (goneSet circuit : Address) (w : Wagon) (b : Buffers ntr) :
    Option (Buffers ntr) :=
  if goneSet ≠ 0#16 then
    signalAll c (circuit &&& ~~~goneSet)
      (((List.range np).map rankToAddr).filter fun ad => addrIsMember ad goneSet) w b
  else some b

/-- The loop of `trainHandling` over the wagons of the train. -/
def sortWagons (succ circuit goneProc : Address) (womim : ℕ) (id : Fin ntr) (round : Fin nr) :
    List Wagon → Buffers ntr → Option (Buffers ntr)
  | [], b => some b
  | w :: wagons, b =>
    if isRecorded c.myAddress circuit goneProc w then
      (b.appendUnstable womim id round).bind fun b =>
        (if succ ≠ w.sender ∧ b.ltsWagons id = none then b.pointLtsWagons womim id
          else some b).bind (sortWagons succ circuit goneProc womim id round wagons)
    else sortWagons succ circuit goneProc womim id round wagons b

/-- `trainHandling`, of a train in the womim given. -/
def trainHandling (t : Train ntr) (womim : ℕ) (p : Proc ntr) (b : Buffers ntr) :
    Option (Buffers ntr) :=
  let id := t.stamp.id
  let round := nextRound t.stamp p.lts
  let b := { b with lists := drain b.lists (id, round - 2) }
  let r := updateCircuit id t.circuit p
  (if id.val = 0 then b.signalDepartures c p.goneProc r.1 p.wagonToSend else some b).bind fun b =>
    (b.releaseLtsWagons id).bind fun b =>
      (b.freePWtosend id).bind fun b =>
        (b.sortWagons c r.2.succ r.1 r.2.goneProc womim id round t.wagons).bind fun b =>
          if (firstMsg r.2.wagonToSend).isSome then b.putOnTrain id round else some b

/-- The treatment of a train in `OFFLINE_CONFIRMATION_WAIT`. -/
def forwardTrain (stamp : Stamp ntr) (circuit : Address) (wagons : List Wagon) (womim : ℕ)
    (p : Proc ntr) (b : Buffers ntr) : Option (Buffers ntr) :=
  (b.releaseLtsWagons stamp.id).bind fun b =>
    (if wagons ≠ [] then b.pointLtsWagons womim stamp.id else some b).bind fun b =>
      if isInLts c.myAddress (Trains.forwardTrain c stamp circuit wagons p).lts then
        b.signal c p.wagonToSend
      else some b

/-- A train in `SEVERAL`. -/
def severalTrain (t : Train ntr) (womim : ℕ) (p : Proc ntr) (b : Buffers ntr) :
    Option (Buffers ntr) :=
  if isRecentTrain t.stamp p.lts p.lis then b.trainHandling c t womim p else some b

variable (dial : Address → Bool)

/-- The end of the handler of `DISCONNECT_PRED` for a process that is alone. -/
def becomeAlone (p : Proc ntr) (b : Buffers ntr) : Option (Buffers ntr) :=
  (b.signalDepartures c p.goneProc (p.lts p.lis).circuit p.wagonToSend).map fun b =>
    { b with lists := (flushOrder p).foldl drain b.lists }.deliverWagonToSend

/-- `DISCONNECT_PRED` in `SEVERAL`. -/
def severalDisconnectPred (p : Proc ntr) (b : Buffers ntr) : Option (Buffers ntr) :=
  match searchPrec c dial (np + 2) p with
  | some (q, _, false) => b.becomeAlone c q
  | _ => some b

/-- What the handlers do with the references. -/
def handle (m : Msg ntr) (womim : ℕ) (p : Proc ntr) (b : Buffers ntr) : Option (Buffers ntr) :=
  match p.automatonState, m with
  | .offlineConfirmationWait, .train stamp circuit wagons =>
    b.forwardTrain c stamp circuit (wagons.getD []) womim p
  | .aloneConnectionWait, .newSucc _ => some { b with ltsWagons := fun _ => none }
  | .several, .train stamp circuit wagons =>
    b.severalTrain c ⟨stamp, circuit, wagons.getD []⟩ womim p
  | .several, .disconnectPred _ => b.severalDisconnectPred c dial p
  | _, _ => some b

/-- `stateMachine`, which frees the message in the end. -/
def stateMachine (m : Msg ntr) (womim : ℕ) (p : Proc ntr) (b : Buffers ntr) :
    Option (Buffers ntr) :=
  (b.handle c dial m womim p).bind (freeWomim womim)

def offlineInit (p : Proc ntr) (b : Buffers ntr) : Option (Buffers ntr) :=
  (addrToRank c.myAddress).bind fun rank =>
    if (searchSucc c dial (ranksAfter rank) : List (Action ntr) × Address).2 = c.myAddress then
      (b.signal c p.wagonToSend).map deliverWagonToSend
    else some b

end Operations

/-- `automatonInit`, before its call of `nextState`. -/
def initial : Buffers ntr :=
  { heap := Heap.empty
    received := []
    wagonToSend := 0
    ltsWagons := fun _ => none
    pWtosend := fun _ => none
    lists := ⟨[], fun _ => []⟩
    delivering := none : Buffers ntr }.newWiw

end Buffers

/-! ## A process with its buffers -/

structure BufferedApp (ntr : ℕ) where
  app : App ntr
  buffers : Buffers ntr

/-- The steps of a process. A message treated is one of those received, in any order. -/
inductive BufferedEvent (ntr : ℕ) where
  | receive
  | treat (dial : Address → Bool) (m : Msg ntr) (womim : ℕ)
  | wake (dial : Address → Bool)
  | newmsg (mp : Message)
  | utoBroadcast
  | unlock
  /-- `utoDeliveries` takes a wagon out of the queue. -/
  | dequeue
  /-- `utoDeliveries` frees the wagon that it has delivered. -/
  | delivered

/-- What a step makes of the process; `none` when the step is not enabled. -/
def BufferedApp.stepApp (c : Config) (s : BufferedApp ntr) : BufferedEvent ntr → Option (App ntr)
  | .receive => some s.app
  | .treat dial m womim =>
    if womim ∈ s.buffers.received then s.app.step c (.message dial m) else none
  | .wake dial => s.app.step c (.wake dial)
  | .newmsg mp => s.app.step c (.newmsg mp)
  | .utoBroadcast => s.app.step c .utoBroadcast
  | .unlock => s.app.step c .unlock
  | .dequeue =>
    if s.buffers.delivering = none ∧ s.buffers.lists.moved ≠ [] then some s.app else none
  | .delivered => if s.buffers.delivering.isSome then some s.app else none

/-- What a step makes of the references; `none` when it touches a womim that has been freed. -/
def BufferedApp.stepBuffers (c : Config) (s : BufferedApp ntr) :
    BufferedEvent ntr → Option (Buffers ntr)
  | .receive =>
    some { s.buffers with
      heap := s.buffers.heap.alloc
      received := s.buffers.heap.next :: s.buffers.received }
  | .treat dial m womim => s.buffers.stateMachine c dial m womim s.app.proc
  | .wake dial => s.buffers.offlineInit c dial s.app.proc
  | .newmsg mp => s.buffers.mallocWiw c mp.payload.length
  | .utoBroadcast =>
    some (if s.app.proc.automatonState = .aloneInsertWait then s.buffers.deliverWagonToSend
      else s.buffers)
  | .unlock => some s.buffers
  | .dequeue =>
    some { s.buffers with
      delivering := s.buffers.lists.moved.head?
      lists := { s.buffers.lists with moved := s.buffers.lists.moved.tail } }
  | .delivered => (Buffers.releaseWiw s.buffers.delivering s.buffers.heap).map fun heap =>
    { s.buffers with heap := heap, delivering := none }

def BufferedApp.step (c : Config) (s : BufferedApp ntr) (e : BufferedEvent ntr) :
    Option (BufferedApp ntr) :=
  (s.stepApp c e).bind fun app => (s.stepBuffers c e).map fun buffers => ⟨app, buffers⟩

/-- `automatonInit`. -/
def BufferedApp.start (c : Config) (dial : Address → Bool) (h : 0 < ntr) :
    Option (BufferedApp ntr) :=
  (App.start c dial h).bind fun app =>
    (Buffers.initial.offlineInit c dial (Proc.initial c h)).map fun buffers => ⟨app, buffers⟩

/-! ## Counting references -/

/-- How often a womim is pointed to by a `wiw` that may be `NULL`. -/
def held (ww : Option ℕ) (x : ℕ) : ℕ := if ww = some x then 1 else 0

/-- The references to a womim. -/
def references (b : Buffers ntr) (x : ℕ) : ℕ :=
  held (some b.wagonToSend) x + (∑ id, held (b.ltsWagons id) x) + (∑ id, held (b.pWtosend id) x) +
    weight (List.count x) b.lists + held b.delivering x + b.received.count x

@[simp] theorem held_none (x : ℕ) : held none x = 0 := rfl

@[simp] theorem held_some (a x : ℕ) : held (some a) x = if x = a then 1 else 0 := by
  simp only [held, Option.some.injEq, eq_comm]

/-- The counters are at least the numbers of references, and nothing else refers to the
womim of `wagonToSend`. -/
structure Counted (b : Buffers ntr) : Prop where
  covers : Covers b.heap (references b)
  sole : references b b.wagonToSend = 1

/-- An operation on the references succeeds, and keeps the counters and the messages received. -/
def Runs (received : List ℕ) (o : Option (Buffers ntr)) : Prop :=
  ∃ b, o = some b ∧ Counted b ∧ b.received = received

theorem runs_some {b : Buffers ntr} (hb : Counted b) : Runs b.received (some b) := ⟨b, rfl, hb, rfl⟩

theorem Runs.map {o : Option Heap} {heap : Heap} {f : Heap → Buffers ntr} (ho : o = some heap)
    (hf : Counted (f heap)) : Runs (f heap).received (o.map f) := by
  rw [ho]
  exact ⟨f heap, rfl, hf, rfl⟩

theorem Runs.bind {received : List ℕ} {o : Option (Buffers ntr)}
    {f : Buffers ntr → Option (Buffers ntr)} (ho : Runs received o)
    (hf : ∀ b, Counted b → b.received = received → Runs received (f b)) :
    Runs received (o.bind f) := by
  obtain ⟨b, rfl, hb, hreceived⟩ := ho
  exact hf b hb hreceived

section Counting

variable {b b' : Buffers ntr}

theorem references_setLtsWagons (id : Fin ntr) (ww : Option ℕ) (heap : Heap) (x : ℕ) :
    references { b with heap := heap, ltsWagons := setAt b.ltsWagons id ww } x +
      held (b.ltsWagons id) x = references b x + held ww x := by
  have hsum := sum_update_add (fun ww => held ww x) b.ltsWagons id ww
  simp only [references, setAt]
  omega

theorem references_setPWtosend (id : Fin ntr) (ww : Option ℕ) (heap : Heap) (x : ℕ) :
    references { b with heap := heap, pWtosend := setAt b.pWtosend id ww } x +
      held (b.pWtosend id) x = references b x + held ww x := by
  have hsum := sum_update_add (fun ww => held ww x) b.pWtosend id ww
  simp only [references, setAt]
  omega

theorem references_appendUnstable (womim : ℕ) (k : Fin ntr × Fin nr) (heap : Heap) (x : ℕ) :
    references { b with heap := heap, lists := extend b.lists k [womim] } x =
      references b x + if x = womim then 1 else 0 := by
  have hweight := weight_extend (fun _ _ => List.count_append) b.lists k [womim] (f := List.count x)
  simp only [references, hweight, List.count_singleton, beq_iff_eq, eq_comm (a := womim)]
  omega

theorem references_drain (ks : List (Fin ntr × Fin nr)) (x : ℕ) :
    references { b with lists := ks.foldl drain b.lists } x = references b x := by
  have hweight := weight_foldl_drain (f := List.count x) List.count_nil
    (fun _ _ => List.count_append) b.lists ks
  simp only [references, hweight]

/-- Where only the references to other womims than that of `wagonToSend` change, it remains
the only one to its own. -/
theorem Counted.of_covers (hb : Counted b) (hcovers : Covers b'.heap (references b'))
    (hwagon : b'.wagonToSend = b.wagonToSend)
    (hle : references b' b.wagonToSend ≤ references b b.wagonToSend) : Counted b' where
  covers := hcovers
  sole := by
    have hone : 1 ≤ references b' b'.wagonToSend := by
      rw [references, held_some, if_pos rfl]
      omega
    have hsole := hb.sole
    rw [hwagon] at hone ⊢
    omega

/-- A message received is not in the womim of `wagonToSend`. -/
theorem Counted.received_ne (hb : Counted b) {womim : ℕ} (hw : womim ∈ b.received) :
    0 < references b womim ∧ womim ≠ b.wagonToSend := by
  have hcount := List.count_pos_iff.mpr hw
  constructor
  · rw [references]
    omega
  · rintro rfl
    have hsole := hb.sole
    rw [references, held_some, if_pos rfl] at hsole
    omega

theorem counted_newWiw {heap : Heap} {R : ℕ → ℕ} (hcovers : Covers heap R)
    (hR : ∀ x, references b x = R x + held (some b.wagonToSend) x) (hheap : b.heap = heap) :
    Counted b.newWiw := by
  have hnext := hcovers.not_next
  have href : ∀ x, references b.newWiw x = R x + if x = heap.next then 1 else 0 := by
    intro x
    have hx := hR x
    simp only [references, Buffers.newWiw, held_some, hheap] at hx ⊢
    omega
  constructor
  · have halloc := hcovers.alloc href
    rwa [← hheap] at halloc
  · have hwagon : b.newWiw.wagonToSend = heap.next := congrArg Heap.next hheap
    rw [hwagon, href, hnext, if_pos rfl]

theorem counted_deliverWagonToSend (hb : Counted b) : Counted b.deliverWagonToSend := by
  let b' : Buffers ntr :=
    { b with lists := { b.lists with moved := b.lists.moved ++ [b.wagonToSend] } }
  have href : ∀ x, references b' x = references b x + held (some b.wagonToSend) x := by
    intro x
    simp only [b', references, weight, List.count_append, List.count_singleton, held_some,
      beq_iff_eq, eq_comm (a := b.wagonToSend)]
    omega
  exact counted_newWiw (b := b') hb.covers href rfl

theorem runs_reallocWagonToSend (hb : Counted b) : Runs b.received b.reallocWagonToSend := by
  have hnext := hb.covers.not_next
  have href : ∀ (heap : Heap) (x : ℕ),
      (references { b with heap := heap, wagonToSend := b.heap.next } x +
        if x = b.wagonToSend then 1 else 0) =
          references b x + if x = b.heap.next then 1 else 0 := by
    intro heap x
    simp only [references, held_some]
    omega
  obtain ⟨heap, hmove, -, hcovers⟩ := hb.covers.move hb.sole (href b.heap)
  have hne : b.heap.next ≠ b.wagonToSend := by
    have hsole := hb.sole
    intro heq
    rw [heq, hsole] at hnext
    cases hnext
  apply Runs.map hmove
  constructor
  · exact hcovers
  · have hself := href heap b.heap.next
    rw [if_neg hne, if_pos rfl, hnext] at hself
    exact hself

/-- The release of a `wiw` that holds one of the references. -/
theorem runs_releaseWiw (hb : Counted b) {ww : Option ℕ} {f : Heap → Buffers ntr}
    (href : ∀ heap x, references (f heap) x + held ww x = references b x)
    (hheap : ∀ heap, (f heap).heap = heap) (hwagon : ∀ heap, (f heap).wagonToSend = b.wagonToSend)
    (hreceived : ∀ heap, (f heap).received = b.received) :
    Runs b.received ((Buffers.releaseWiw ww b.heap).map f) := by
  have hle : ∀ heap, references (f heap) b.wagonToSend ≤ references b b.wagonToSend := by
    intro heap
    have hx := href heap b.wagonToSend
    omega
  cases ww with
  | none =>
    refine ⟨f b.heap, rfl, hb.of_covers ?_ (hwagon _) (hle _), hreceived _⟩
    rw [hheap]
    apply hb.covers.drop
    intro x
    have hx := href b.heap x
    omega
  | some womim =>
    have hrelease : ∀ x, references b x =
        references (f b.heap) x + if x = womim then 1 else 0 := by
      intro x
      rw [← href b.heap x, held_some]
    obtain ⟨heap, hheap', -, hcovers⟩ := hb.covers.release hrelease
    rw [← hreceived heap]
    apply Runs.map hheap'
    refine hb.of_covers ?_ (hwagon _) (hle _)
    rw [hheap]
    apply hcovers.drop
    intro x
    have hx := href heap x
    have hx' := href b.heap x
    omega

theorem runs_releaseLtsWagons (hb : Counted b) (id : Fin ntr) :
    Runs b.received (b.releaseLtsWagons id) :=
  runs_releaseWiw hb (fun heap x => references_setLtsWagons id none heap x) (fun _ => rfl)
    (fun _ => rfl) (fun _ => rfl)

theorem runs_freePWtosend (hb : Counted b) (id : Fin ntr) : Runs b.received (b.freePWtosend id) :=
  runs_releaseWiw hb (fun heap x => references_setPWtosend id none heap x) (fun _ => rfl)
    (fun _ => rfl) (fun _ => rfl)

theorem runs_appendUnstable (hb : Counted b) {womim : ℕ} (hw : womim ∈ b.received) (id : Fin ntr)
    (round : Fin nr) : Runs b.received (b.appendUnstable womim id round) := by
  obtain ⟨hpos, hne⟩ := hb.received_ne hw
  have href := references_appendUnstable (b := b) womim (id, round)
  obtain ⟨heap, hshare, -, hcovers⟩ := hb.covers.share hpos (href b.heap)
  apply Runs.map hshare
  refine hb.of_covers hcovers rfl ?_
  rw [href, if_neg hne.symm, Nat.add_zero]

theorem runs_pointLtsWagons (hb : Counted b) {womim : ℕ} (hw : womim ∈ b.received)
    (id : Fin ntr) : Runs b.received (b.pointLtsWagons womim id) := by
  obtain ⟨hpos, hne⟩ := hb.received_ne hw
  have href := references_setLtsWagons (b := b) id (some womim)
  obtain ⟨heap, hshare, -, hcovers⟩ := hb.covers.share hpos fun x => rfl
  apply Runs.map hshare
  refine hb.of_covers ?_ rfl ?_
  rotate_left
  · have hx := href heap b.wagonToSend
    rw [held_some, if_neg hne.symm] at hx
    omega
  · apply hcovers.drop
    intro x
    have hx := href heap x
    rw [held_some] at hx
    omega

theorem runs_putOnTrain (hb : Counted b) (id : Fin ntr) (round : Fin nr) :
    Runs b.received (b.putOnTrain id round) := by
  have hpos : 0 < references b b.wagonToSend := hb.sole ▸ Nat.one_pos
  have href := references_appendUnstable (b := b) b.wagonToSend (id, round)
  obtain ⟨heap, hshare, -, hcovers⟩ := hb.covers.share hpos (href b.heap)
  let b₁ : Buffers ntr :=
    { b with heap := heap, lists := extend b.lists (id, round) [b.wagonToSend] }
  let b₂ : Buffers ntr := { b₁ with pWtosend := setAt b.pWtosend id (some b.wagonToSend) }
  -- all references but that of `wagonToSend` itself, which the new wagon takes away
  let R : ℕ → ℕ := fun x => references b₂ x - held (some b.wagonToSend) x
  have hset : ∀ x, references b₂ x + held (b.pWtosend id) x =
      references b₁ x + held (some b.wagonToSend) x := fun x =>
    references_setPWtosend (b := b₁) id (some b.wagonToSend) heap x
  have hself : ∀ x, held (some b.wagonToSend) x ≤ references b₂ x := by
    intro x
    simp only [references, b₂, b₁]
    omega
  have hcounted : Counted b₂.newWiw := by
    have hR : Covers heap R := by
      apply hcovers.drop
      intro x
      have hx := hset x
      have hx' : references b₁ x = _ := href heap x
      have hx'' := href b.heap x
      simp only [R]
      omega
    apply counted_newWiw hR _ rfl
    intro x
    have hx := hself x
    simp only [R]
    exact (Nat.sub_add_cancel hx).symm
  refine ⟨b₂.newWiw, ?_, hcounted, rfl⟩
  rw [Buffers.putOnTrain, Buffers.appendUnstable, hshare]
  rfl

theorem runs_freeWomim (hb : Counted b) {womim : ℕ} (hw : womim ∈ b.received) :
    Runs (b.received.erase womim) (b.freeWomim womim) := by
  have href : ∀ (heap : Heap) (x : ℕ), references b x =
      references { b with heap := heap, received := b.received.erase womim } x +
        if x = womim then 1 else 0 := by
    intro heap x
    have hcount := List.count_pos_iff.mpr hw
    simp only [references, List.count_erase, beq_iff_eq, eq_comm (a := womim)]
    split
    · rename_i hx
      subst hx
      omega
    · omega
  obtain ⟨heap, hrelease, -, hcovers⟩ := hb.covers.release (href b.heap)
  apply Runs.map hrelease
  refine hb.of_covers hcovers rfl ?_
  have hx := href heap b.wagonToSend
  omega

end Counting

/-! ## The handlers -/

section Handlers

variable {b : Buffers ntr} {c : Config}

theorem runs_drain (hb : Counted b) (ks : List (Fin ntr × Fin nr)) :
    Counted { b with lists := ks.foldl drain b.lists } where
  covers := hb.covers.drop fun x => (references_drain ks x).le
  sole := (references_drain ks b.wagonToSend).trans hb.sole

theorem runs_mallocWiw (hb : Counted b) (payloadSize : ℕ) :
    Runs b.received (b.mallocWiw c payloadSize) := by
  rw [Buffers.mallocWiw]
  split
  · exact runs_reallocWagonToSend hb
  · exact runs_some hb

theorem runs_signal (hb : Counted b) (w : Wagon) : Runs b.received (b.signal c w) := by
  rw [Buffers.signal]
  apply Runs.bind
  · split
    · exact runs_reallocWagonToSend hb
    · exact runs_some hb
  · intro b' hb' hreceived
    rw [← hreceived]
    exact runs_mallocWiw hb' sizeofPayloadArrivalDeparture

theorem runs_signalAll (circuit : Address) (ads : List Address) (w : Wagon) (hb : Counted b) :
    Runs b.received (b.signalAll c circuit ads w) := by
  induction ads generalizing w b with
  | nil => exact runs_some hb
  | cons ad ads ih =>
    rw [Buffers.signalAll]
    apply (runs_signal hb w).bind
    intro b' hb' hreceived
    rw [← hreceived]
    exact ih _ hb'

theorem runs_signalDepartures (hb : Counted b) (goneSet circuit : Address) (w : Wagon) :
    Runs b.received (b.signalDepartures c goneSet circuit w) := by
  rw [Buffers.signalDepartures]
  split
  · exact runs_signalAll _ _ w hb
  · exact runs_some hb

theorem runs_sortWagons {succ circuit goneProc : Address} {womim : ℕ} {id : Fin ntr}
    {round : Fin nr} (wagons : List Wagon) (hb : Counted b) (hw : womim ∈ b.received) :
    Runs b.received (b.sortWagons c succ circuit goneProc womim id round wagons) := by
  induction wagons generalizing b with
  | nil => exact runs_some hb
  | cons w wagons ih =>
    rw [Buffers.sortWagons]
    split
    · apply (runs_appendUnstable hb hw id round).bind
      intro b' hb' hreceived
      have hw' : womim ∈ b'.received := hreceived ▸ hw
      rw [← hreceived]
      apply Runs.bind
      · split
        · exact runs_pointLtsWagons hb' hw' id
        · exact runs_some hb'
      · intro b'' hb'' hreceived'
        rw [← hreceived']
        exact ih hb'' (hreceived' ▸ hw')
    · exact ih hb hw

theorem runs_trainHandling {womim : ℕ} (hb : Counted b) (hw : womim ∈ b.received) (t : Train ntr)
    (p : Proc ntr) : Runs b.received (b.trainHandling c t womim p) := by
  have hdrain := runs_drain hb [(t.stamp.id, nextRound t.stamp p.lts - 2)]
  rw [Buffers.trainHandling]
  apply Runs.bind
  · split
    · exact runs_signalDepartures hdrain _ _ _
    · exact runs_some hdrain
  intro b₁ hb₁ hreceived₁
  rw [← hreceived₁]
  apply (runs_releaseLtsWagons hb₁ t.stamp.id).bind
  intro b₂ hb₂ hreceived₂
  rw [← hreceived₂]
  apply (runs_freePWtosend hb₂ t.stamp.id).bind
  intro b₃ hb₃ hreceived₃
  have hw₃ : womim ∈ b₃.received := by
    rw [hreceived₃, hreceived₂, hreceived₁]
    exact hw
  rw [← hreceived₃]
  apply (runs_sortWagons t.wagons hb₃ hw₃).bind
  intro b₄ hb₄ hreceived₄
  rw [← hreceived₄]
  split
  · exact runs_putOnTrain hb₄ _ _
  · exact runs_some hb₄

theorem runs_forwardTrain {womim : ℕ} (hb : Counted b) (hw : womim ∈ b.received)
    (stamp : Stamp ntr) (circuit : Address) (wagons : List Wagon) (p : Proc ntr) :
    Runs b.received (b.forwardTrain c stamp circuit wagons womim p) := by
  rw [Buffers.forwardTrain]
  apply (runs_releaseLtsWagons hb stamp.id).bind
  intro b₁ hb₁ hreceived₁
  have hw₁ : womim ∈ b₁.received := hreceived₁ ▸ hw
  rw [← hreceived₁]
  apply Runs.bind
  · split
    · exact runs_pointLtsWagons hb₁ hw₁ stamp.id
    · exact runs_some hb₁
  intro b₂ hb₂ hreceived₂
  rw [← hreceived₂]
  split
  · exact runs_signal hb₂ p.wagonToSend
  · exact runs_some hb₂

theorem runs_becomeAlone (hb : Counted b) (p : Proc ntr) :
    Runs b.received (b.becomeAlone c p) := by
  obtain ⟨b', hsignal, hb', hreceived⟩ :=
    runs_signalDepartures hb p.goneProc (p.lts p.lis).circuit p.wagonToSend (c := c)
  have hflush := counted_deliverWagonToSend (runs_drain hb' (flushOrder p))
  refine ⟨_, ?_, hflush, hreceived⟩
  rw [Buffers.becomeAlone, hsignal]
  rfl

/-- In `ALONE_CONNECTION_WAIT` the pointers are overwritten without a release. -/
theorem counted_forgetLtsWagons (hb : Counted b) :
    Counted { b with ltsWagons := fun _ => none } := by
  have hle : ∀ x, references { b with ltsWagons := fun _ => none } x ≤ references b x := by
    intro x
    simp only [references, held_none, Finset.sum_const_zero]
    omega
  exact hb.of_covers (hb.covers.drop hle) rfl (hle _)

theorem runs_handle {dial : Address → Bool} {womim : ℕ} (hb : Counted b)
    (hw : womim ∈ b.received) (m : Msg ntr) (p : Proc ntr) :
    Runs b.received (b.handle c dial m womim p) := by
  unfold Buffers.handle
  split
  · exact runs_forwardTrain hb hw _ _ _ p
  · exact runs_some (counted_forgetLtsWagons hb)
  · rw [Buffers.severalTrain]
    split
    · exact runs_trainHandling hb hw _ p
    · exact runs_some hb
  · rw [Buffers.severalDisconnectPred]
    split
    · exact runs_becomeAlone hb _
    · exact runs_some hb
  · exact runs_some hb

theorem runs_stateMachine {dial : Address → Bool} {womim : ℕ} (hb : Counted b)
    (hw : womim ∈ b.received) (m : Msg ntr) (p : Proc ntr) :
    Runs (b.received.erase womim) (b.stateMachine c dial m womim p) := by
  have hruns : Runs b.received (b.handle c dial m womim p) := runs_handle hb hw m p
  obtain ⟨b', hhandle, hb', hreceived⟩ := hruns
  rw [Buffers.stateMachine, hhandle, Option.bind_some, ← hreceived]
  exact runs_freeWomim hb' (hreceived ▸ hw)

theorem runs_offlineInit {dial : Address → Bool} {rank : ℕ} (hb : Counted b)
    (hrank : addrToRank c.myAddress = some rank) (p : Proc ntr) :
    Runs b.received (b.offlineInit c dial p) := by
  rw [Buffers.offlineInit, hrank, Option.bind_some]
  split
  · obtain ⟨b', hsignal, hb', hreceived⟩ := runs_signal hb p.wagonToSend (c := c)
    refine ⟨b'.deliverWagonToSend, ?_, counted_deliverWagonToSend hb', hreceived⟩
    rw [hsignal, Option.map_some]
  · exact runs_some hb

end Handlers

/-! ## Runs of the process -/

theorem offlineInit_rank {c : Config} {dial : Address → Bool} {p q : Proc ntr}
    {actions : List (Action ntr)} (h : offlineInit c dial p = some (q, actions)) :
    ∃ rank, addrToRank c.myAddress = some rank := by
  obtain ⟨rank, hrank, -⟩ := Option.bind_eq_some_iff.mp h
  exact ⟨rank, hrank⟩

theorem counted_initial : Counted (Buffers.initial : Buffers ntr) := by
  apply counted_newWiw covers_empty _ rfl
  intro x
  simp [references, weight]

/-- A step that the process can make touches no womim that has been freed. -/
theorem counted_step {c : Config} {s : BufferedApp ntr} {e : BufferedEvent ntr} {app : App ntr}
    (hs : Counted s.buffers) (happ : s.stepApp c e = some app) :
    ∃ b, s.stepBuffers c e = some b ∧ Counted b := by
  have hruns : ∀ {received : List ℕ} {o : Option (Buffers ntr)}, Runs received o →
      ∃ b, o = some b ∧ Counted b := by
    rintro received o ⟨b, ho, hb, -⟩
    exact ⟨b, ho, hb⟩
  cases e with
  | receive =>
    refine ⟨_, rfl, ?_⟩
    have hnext := hs.covers.not_next
    have href : ∀ x, references { s.buffers with
        heap := s.buffers.heap.alloc
        received := s.buffers.heap.next :: s.buffers.received } x =
        references s.buffers x + if x = s.buffers.heap.next then 1 else 0 := by
      intro x
      simp only [references, List.count_cons, beq_iff_eq, eq_comm (a := s.buffers.heap.next)]
      omega
    refine hs.of_covers (hs.covers.alloc href) rfl ?_
    have hne : s.buffers.wagonToSend ≠ s.buffers.heap.next := by
      intro heq
      have hsole := hs.sole
      rw [heq, hnext] at hsole
      cases hsole
    rw [href, if_neg hne, Nat.add_zero]
  | treat dial m womim =>
    rw [BufferedApp.stepApp] at happ
    split at happ
    · rename_i hw
      exact hruns (runs_stateMachine hs hw m s.app.proc)
    · cases happ
  | wake dial =>
    rw [BufferedApp.stepApp, App.step] at happ
    split at happ
    · obtain ⟨⟨q, actions⟩, hsleep, -⟩ := Option.map_eq_some_iff.mp happ
      obtain ⟨rank, hrank⟩ := offlineInit_rank hsleep
      exact hruns (runs_offlineInit hs hrank s.app.proc)
    · cases happ
  | newmsg mp => exact hruns (runs_mallocWiw hs mp.payload.length)
  | utoBroadcast =>
    refine ⟨_, rfl, ?_⟩
    split
    · exact counted_deliverWagonToSend hs
    · exact hs
  | unlock => exact ⟨_, rfl, hs⟩
  | dequeue =>
    rw [BufferedApp.stepApp] at happ
    split at happ
    · rename_i hready
      obtain ⟨hidle, hne⟩ := hready
      refine ⟨_, rfl, ?_⟩
      obtain ⟨womim, rest, hmoved⟩ := List.exists_cons_of_ne_nil hne
      have href : ∀ x, references { s.buffers with
          delivering := s.buffers.lists.moved.head?
          lists := { s.buffers.lists with moved := s.buffers.lists.moved.tail } } x =
          references s.buffers x := by
        intro x
        simp only [references, weight, hmoved, hidle, List.head?_cons, List.tail_cons,
          List.count_cons, beq_iff_eq, eq_comm (a := womim), held_some, held_none]
        omega
      exact hs.of_covers (hs.covers.drop fun x => (href x).le) rfl (href _).le
    · cases happ
  | delivered =>
    have href : ∀ (heap : Heap) (x : ℕ),
        references { s.buffers with heap := heap, delivering := none } x +
          held s.buffers.delivering x = references s.buffers x := by
      intro heap x
      simp only [references, held_none]
      omega
    exact hruns (runs_releaseWiw hs href (fun _ => rfl) (fun _ => rfl) (fun _ => rfl))

/-- In every state that a process reaches, the counter of each womim is at least the number of
references to it, and no step releases, frees or reads a womim that has been freed. -/
theorem counter_covers_references {c : Config} {dial : Address → Bool} {hntr : 0 < ntr}
    {s t : BufferedApp ntr} {es : List (BufferedEvent ntr)}
    (hstart : BufferedApp.start c dial hntr = some s)
    (hrun : exec (BufferedApp.step c) s es = some t) :
    (∀ womim, (references t.buffers womim : ℤ) ≤ (t.buffers.heap.counter womim).getD 0) ∧
      ∀ e, (t.stepApp c e).isSome → (t.stepBuffers c e).isSome := by
  have hs : Counted s.buffers := by
    obtain ⟨app, happ, hs⟩ := Option.bind_eq_some_iff.mp hstart
    obtain ⟨buffers, hinit, rfl⟩ := Option.map_eq_some_iff.mp hs
    obtain ⟨⟨p, actions⟩, hp, -⟩ := Option.map_eq_some_iff.mp happ
    obtain ⟨rank, hrank⟩ := offlineInit_rank hp
    obtain ⟨b, hb, hcounted, -⟩ := runs_offlineInit counted_initial hrank (Proc.initial c hntr)
    obtain rfl := Option.some.inj (hinit.symm.trans hb)
    exact hcounted
  have hstep : ∀ (s : BufferedApp ntr) (e : BufferedEvent ntr) (s' : BufferedApp ntr),
      Counted s.buffers → s.step c e = some s' → Counted s'.buffers := by
    intro s e s' hs h
    obtain ⟨app, happ, h⟩ := Option.bind_eq_some_iff.mp h
    obtain ⟨b, hb, rfl⟩ := Option.map_eq_some_iff.mp h
    obtain ⟨b', hb', hcounted⟩ := counted_step hs happ
    obtain rfl := Option.some.inj (hb.symm.trans hb')
    exact hcounted
  have ht : Counted t.buffers := exec_invariant hstep hs hrun
  refine ⟨ht.covers.counter, ?_⟩
  intro e he
  obtain ⟨app, happ⟩ := Option.isSome_iff_exists.mp he
  obtain ⟨b, hb, -⟩ := counted_step ht happ
  rw [hb]
  rfl

/-- A process that is alone delivers its arrival, takes in process 2, handles a train with a
wagon of it, broadcasts and handles the next train. -/
def exchange : List (BufferedEvent 1) :=
  [.dequeue, .delivered, .receive, .treat (fun _ => false) (.insert 2#16) 2, .receive,
    .treat (fun _ => false) (.newSucc 2#16) 3, .receive,
    .treat (fun _ => false)
      (.train ⟨⟨0, Nat.one_pos⟩, 2#8, 1⟩ 3#16
        (some [⟨2#16, 1, [⟨amBroadcast, [5#8]⟩]⟩])) 4,
    .newmsg ⟨amBroadcast, [6#8]⟩, .utoBroadcast, .unlock, .receive,
    .treat (fun _ => false) (.train ⟨⟨0, Nat.one_pos⟩, 4#8, 2⟩ 3#16 (some [])) 5]

def exchanged : Option (BufferedApp 1) :=
  (BufferedApp.start ⟨1#16, 3, 64⟩ (fun _ => false) Nat.one_pos).bind fun s =>
    exec (BufferedApp.step ⟨1#16, 3, 64⟩) s exchange

/-- The wagon received is referenced once, by the list of unstable wagons; the wagon that the
process has put on the train by that list and by the last train sent. -/
theorem counter_covers_exchange : ∃ t, exchanged = some t ∧
    references t.buffers 4 = 1 ∧ references t.buffers 1 = 2 ∧
    ∀ womim, (references t.buffers womim : ℤ) ≤ (t.buffers.heap.counter womim).getD 0 := by
  have hcounts : ∀ t ∈ exchanged, references t.buffers 4 = 1 ∧ references t.buffers 1 = 2 := by
    decide
  obtain ⟨t, ht⟩ := Option.isSome_iff_exists.mp (show exchanged.isSome by decide)
  obtain ⟨s, hs, hrun⟩ := Option.bind_eq_some_iff.mp ht
  obtain ⟨hwagon, hown⟩ := hcounts t ht
  exact ⟨t, ht, hwagon, hown, (counter_covers_references hs hrun).1⟩

end UniformBroadcast.Trains
