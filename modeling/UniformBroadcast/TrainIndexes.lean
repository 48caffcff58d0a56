import UniformBroadcast.TrainStateMachine
import UniformBroadcast.TransitionRuns

/-!
# The indexes of the arrays over trains

The automaton once more, with the stamps as the bytes they are and `lts` and
`unstableWagons` as memory that may be read anywhere: a treatment returns the accesses that it
makes to them. Of the wagons it keeps the senders, and of `wagonToSend` whether it holds a
message; `newmsg` is never blocked.
-/

namespace UniformBroadcast.Trains.Indexes

open TransitionRuns

/-- `stamp`: an `unsigned char` between two `char`s. -/
structure Stamp where
  id : BitVec 8
  lc : BitVec 8
  round : BitVec 8
  deriving DecidableEq, Repr

structure Lts where
  stamp : Stamp
  circuit : Address
  deriving DecidableEq, Repr

structure Proc where
  automatonState : State
  prec : Address
  succ : Address
  cameProc : Address
  goneProc : Address
  waitNb : ℕ
  lis : ℤ
  lts : ℤ → Lts
  hasMsg : Bool

/-- An index used on `lts`, or two used on `unstableWagons`. -/
inductive Access where
  | lts (id : ℤ)
  | unstableWagons (id round : ℤ)
  deriving DecidableEq, Repr

def Access.InRange : Access → Prop
  | .lts id => 0 ≤ id ∧ id < maxNtr
  | .unstableWagons id round => (0 ≤ id ∧ id < maxNtr) ∧ 0 ≤ round ∧ round < nr

instance : DecidablePred Access.InRange
  | .lts _ => inferInstanceAs (Decidable (_ ∧ _))
  | .unstableWagons _ _ => inferInstanceAs (Decidable (_ ∧ _))

inductive Msg where
  | train (st : Stamp) (circuit : Address) (senders : List Address)
  | insert (sender : Address)
  | ackInsert (sender : Address)
  | nakInsert
  | disconnectPred
  | disconnectSucc
  | newSucc (sender : Address)
  deriving DecidableEq, Repr

inductive Event where
  | message (dial : Address → Bool) (m : Msg)
  | wake (dial : Address → Bool)
  | broadcast

/-- The accesses of a treatment, and the process after it unless it has exited. -/
abbrev Outcome := List Access × Option Proc

/-- `ntr` after `trInit`, when it is `1` before. -/
def trInit (trainsNumber : ℤ) : ℤ := if trainsNumber > 0 then trainsNumber else 1

section Automaton

variable (ntr : ℤ) (c : Config)

/-- The indexes of the loop `for (id = 0; id < ntr; id++)`. -/
def trains : List ℤ := (List.range ntr.toNat).map Nat.cast

/-- The indexes `(lis + i) % ntr` of the loop `for (i = 1; i <= ntr; i++)`. -/
def trainsAfter (lis : ℤ) : List ℤ :=
  (List.range' 1 ntr.toNat).map fun i : ℕ => (lis + i).tmod ntr

def offlineInit (dial : Address → Bool) (p : Proc) : Option Proc :=
  (addrToRank c.myAddress).map fun rank =>
    let succ := (((ranksAfter rank).map rankToAddr).find? dial).getD c.myAddress
    if succ = c.myAddress then
      { p with
        succ := succ
        hasMsg := false
        automatonState := .aloneInsertWait
        prec := c.myAddress }
    else { p with succ := succ, automatonState := .offlineConnectionAttempt }

def waitBeforeConnect (p : Proc) : Option Proc :=
  if p.waitNb > c.waitNbMax then none
  else some { p with prec := 0#16, succ := 0#16, automatonState := .wait }

/-- The globals of `automatonInit`, before its call of `nextState`. -/
def Proc.initial : Proc where
  automatonState := .offlineConnectionAttempt
  prec := 0#16
  succ := 0#16
  cameProc := 0#16
  goneProc := 0#16
  waitNb := 0
  lis := ntr - 1
  lts := fun id => ⟨⟨BitVec.ofInt 8 id, 0#8, 0#8⟩, 0#16⟩
  hasMsg := false

def automatonInit (dial : Address → Bool) : Outcome :=
  ((trains ntr).flatMap fun id =>
      .lts id :: (List.range nr).map fun round : ℕ => .unstableWagons id round,
    offlineInit c dial (Proc.initial ntr))

def isInLts (ad : Address) (lts : ℤ → Lts) : Bool :=
  (trains ntr).all fun id => addrIsMember ad (lts id).circuit

/-- `(last_id + 1) % ntr`, where `last_id` is `lis` as a `char`. -/
def waitingId (lis : ℤ) : ℤ := ((BitVec.ofInt 8 lis).toInt + 1).tmod ntr

def isRecentTrain (st : Stamp) (p : Proc) : Bool :=
  if st.id.toInt = waitingId ntr p.lis then
    let diff : ℤ := st.lc.toNat - (p.lts (waitingId ntr p.lis)).stamp.lc.toNat
    if diff > 0 then diff < (1 + clockValues).tdiv 2 else diff < (1 - clockValues).tdiv 2
  else false

/-- The accesses of `isRecentTrain`. -/
def recentAccesses (st : Stamp) (p : Proc) : List Access :=
  if st.id.toInt = waitingId ntr p.lis then [.lts (waitingId ntr p.lis)] else []

/-- The round under which a train is handled. -/
def handledRound (st : Stamp) (p : Proc) : ℤ :=
  if st.round.toInt = (p.lts st.id.toInt).stamp.round.toInt then (st.round.toInt + 1).tmod nr
  else st.round.toInt

/-- `circuit` of the last train sent, and the updates of the process that come with the train
number 0. -/
def updateCircuit (id : ℤ) (circuit : Address) (p : Proc) : Address × Proc :=
  if id = 0 then
    (addrUpdateCircuit circuit p.cameProc p.goneProc,
      { p with
        cameProc := 0#16
        goneProc := 0#16
        hasMsg := p.hasMsg || p.goneProc != 0#16 })
  else ((p.lts 0).circuit, p)

/-- Some wagon is added to the list of the train and of its round: one of those that it carries,
or that of the process. -/
def appends (st : Stamp) (circuit : Address) (senders : List Address) (p : Proc) : Bool :=
  let (circuit, q) := updateCircuit st.id.toInt circuit p
  q.hasMsg || senders.any fun sender =>
    addrIsMember sender circuit && !addrIsMember sender q.goneProc && sender != c.myAddress

def trainHandling (st : Stamp) (circuit : Address) (senders : List Address) (p : Proc) :
    List Access × Proc :=
  let id := st.id.toInt
  let round := handledRound st p
  let (newCircuit, q) := updateCircuit id circuit p
  ([.lts id, .unstableWagons id ((round - 2 + nr).tmod nr), .lts 0] ++
      (if appends c st circuit senders p then [.unstableWagons id round] else []),
    { q with
      lts := Function.update q.lts id
        ⟨{ (q.lts id).stamp with lc := st.lc + 1, round := BitVec.ofInt 8 round }, newCircuit⟩
      hasMsg := false })

/-- The loop on `prec` after the loss of the predecessor, with a predecessor found or not. -/
def searchPrec (dial : Address → Bool) : ℕ → Proc → List Access × Option (Proc × Bool)
  | 0, _ => ([], none)
  | fuel + 1, p =>
    if p.prec = c.myAddress then ([], some (p, false))
    else if dial p.prec then ([], some (p, true))
    else
      let gone := addrAppendGone p.cameProc p.goneProc p.prec
      match addrPrec p.prec (p.lts p.lis).circuit with
      | none => ([.lts p.lis], none)
      | some prec =>
        let (accesses, result) := searchPrec dial fuel
          { p with cameProc := gone.1, goneProc := gone.2, prec := prec }
        (.lts p.lis :: accesses, result)

/-- The accesses of the flush of a process that has become alone. -/
def flushAccesses (p : Proc) : List Access :=
  (List.range' 1 nr).flatMap fun aRound : ℕ => (trainsAfter ntr p.lis).flatMap fun id =>
    [.lts id, .unstableWagons id (((p.lts id).stamp.round.toInt + aRound).tmod nr)]

def offlineConnectionAttempt (m : Msg) (p : Proc) : Outcome :=
  match m with
  | .nakInsert | .disconnectPred | .disconnectSucc => ([], waitBeforeConnect c p)
  | .insert sender => ([], some { p with prec := sender })
  | .ackInsert sender =>
    ([], some { p with prec := sender, automatonState := .offlineConfirmationWait })
  | _ => ([], none)

/-- A train passes through a process that waits for its confirmation. -/
def forwardTrain (st : Stamp) (circuit : Address) (p : Proc) : Proc :=
  { p with
    lts := Function.update p.lts st.id.toInt
      ⟨if addrIsMember c.myAddress circuit then { st with lc := st.lc + 1 } else st, circuit⟩ }

def offlineConfirmationWait (m : Msg) (p : Proc) : Outcome :=
  match m with
  | .newSucc _ | .disconnectPred | .disconnectSucc => ([], waitBeforeConnect c p)
  | .insert _ => ([], some p)
  | .train st circuit _ =>
    let p := forwardTrain c st circuit p
    let accesses := .lts st.id.toInt :: (trains ntr).map Access.lts
    if isInLts ntr c.myAddress p.lts then
      (accesses ++ [.lts st.id.toInt], some { p with
        lis := st.id.toInt
        hasMsg := true
        automatonState := .several })
    else (accesses, some p)
  | _ => ([], none)

def aloneInsertWait (m : Msg) (p : Proc) : Outcome :=
  match m with
  | .disconnectPred | .disconnectSucc => ([], some p)
  | .insert sender => ([], some { p with prec := sender, automatonState := .aloneConnectionWait })
  | _ => ([], none)

def aloneConnectionWait (m : Msg) (p : Proc) : Outcome :=
  match m with
  | .disconnectPred => ([], some { p with
      prec := c.myAddress
      succ := c.myAddress
      automatonState := .aloneInsertWait })
  | .insert _ => ([], some p)
  | .newSucc sender => ((trainsAfter ntr p.lis).map Access.lts, some { p with
      succ := sender
      lts := (trainsAfter ntr p.lis).foldl (fun lts id => Function.update lts id
        ⟨{ (lts id).stamp with lc := (lts id).stamp.lc + 1 }, c.myAddress ||| p.prec⟩) p.lts
      automatonState := .several })
  | _ => ([], none)

def several (dial : Address → Bool) (m : Msg) (p : Proc) : Outcome :=
  match m with
  | .train st circuit senders =>
    if addrIsMember c.myAddress circuit then
      if isRecentTrain ntr st p then
        let (accesses, q) := trainHandling c st circuit senders p
        (recentAccesses ntr st p ++ accesses ++ [.lts st.id.toInt],
          some { q with lis := st.id.toInt })
      else (recentAccesses ntr st p, some p)
    else ([], none)
  | .insert sender =>
    ([], some { p with prec := sender, cameProc := addrAppendArrived p.cameProc sender })
  | .newSucc sender => ((trainsAfter ntr p.lis).map Access.lts, some { p with succ := sender })
  | .disconnectPred =>
    match searchPrec c dial (np + 2) p with
    | (accesses, none) => (accesses, none)
    | (accesses, some (q, true)) => (accesses, some q)
    | (accesses, some (q, false)) => (accesses ++ .lts q.lis :: flushAccesses ntr q, some { q with
        goneProc := 0#16
        hasMsg := false
        prec := c.myAddress
        succ := c.myAddress
        automatonState := .aloneInsertWait })
  | .disconnectSucc => ([], some { p with succ := 0#16 })
  | _ => ([], none)

def stateMachine (dial : Address → Bool) (m : Msg) (p : Proc) : Outcome :=
  match p.automatonState with
  | .offlineConnectionAttempt => offlineConnectionAttempt c m p
  | .offlineConfirmationWait => offlineConfirmationWait ntr c m p
  | .wait => ([], some p)
  | .aloneInsertWait => aloneInsertWait m p
  | .aloneConnectionWait => aloneConnectionWait ntr c m p
  | .several => several ntr c dial m p

def run (p : Proc) : Event → Outcome
  | .message dial m => stateMachine ntr c dial m p
  | .wake dial => ([], if p.automatonState = .wait then
      offlineInit c dial { p with waitNb := p.waitNb + 1 } else none)
  | .broadcast => ([], some { p with hasMsg := decide (p.automatonState ≠ .aloneInsertWait) })

def step (p : Proc) (e : Event) : Option Proc := (run ntr c p e).2

/-- The indexes that the treatment of an event uses are in the bounds of the arrays. -/
def InRange (p : Proc) (e : Event) : Prop := ∀ a ∈ (run ntr c p e).1, a.InRange

instance (p : Proc) (e : Event) : Decidable (InRange ntr c p e) :=
  inferInstanceAs (Decidable (∀ a ∈ (run ntr c p e).1, a.InRange))

end Automaton

/-! ## When the indexes are in range -/

section Bounds

variable (ntr : ℤ) (c : Config)

/-- A train that confirms the process has a number that `lts` has. A train that is handled has a
round that `unstableWagons` has; when nothing is added to its list, `-1`, more than that or the
predecessor of a multiple of `NR` will do. A process that becomes alone has stored no round
below `-1`. -/
def Bounded (p : Proc) : Event → Prop
  | .message dial m =>
    match m with
    | .train st circuit senders =>
      (p.automatonState = .offlineConfirmationWait →
        0 ≤ st.id.toInt ∧ st.id.toInt < maxNtr) ∧
      (p.automatonState = .several → addrIsMember c.myAddress circuit = true →
        isRecentTrain ntr st p = true →
        (-1 ≤ handledRound st p ∨ (nr : ℤ) ∣ handledRound st p + 1) ∧
        (appends c st circuit senders p = true →
          0 ≤ handledRound st p ∧ handledRound st p < nr))
    | .disconnectPred => p.automatonState = .several →
      ∀ q, (searchPrec c dial (np + 2) p).2 = some (q, false) →
        ∀ id, 0 ≤ id → id < ntr → -1 ≤ (p.lts id).stamp.round.toInt
    | _ => True
  | _ => True

/-- The last train handled is one that `lts` has. -/
def Ranged (p : Proc) : Prop := 0 ≤ p.lis ∧ p.lis < maxNtr

end Bounds

section Indexes

variable {ntr : ℤ} {c : Config} {p q : Proc} {dial : Address → Bool}

theorem mem_trains {id : ℤ} : id ∈ trains ntr ↔ 0 ≤ id ∧ id < ntr := by
  rw [trains, List.mem_map]
  constructor
  · rintro ⟨n, hn, rfl⟩
    rw [List.mem_range] at hn
    omega
  · rintro ⟨hpos, hlt⟩
    refine ⟨id.toNat, List.mem_range.mpr ?_, ?_⟩
    · omega
    · omega

/-- The loop that starts after the last train handled goes through all of them. -/
theorem mem_trainsAfter (hntr : 0 < ntr) {lis id : ℤ} (hlis : 0 ≤ lis) :
    id ∈ trainsAfter ntr lis ↔ 0 ≤ id ∧ id < ntr := by
  rw [trainsAfter, List.mem_map]
  constructor
  · rintro ⟨i, -, rfl⟩
    exact ⟨Int.tmod_nonneg ntr (by omega), Int.tmod_lt_of_pos _ hntr⟩
  · rintro ⟨hpos, hlt⟩
    have hoffset : 0 ≤ (id - lis - 1) % ntr := Int.emod_nonneg _ hntr.ne'
    have hbound : (id - lis - 1) % ntr < ntr := Int.emod_lt_of_pos _ hntr
    refine ⟨((id - lis - 1) % ntr).toNat + 1, ?_, ?_⟩
    · rw [List.mem_range'_1]
      omega
    · have hcast : ((((id - lis - 1) % ntr).toNat + 1 : ℕ) : ℤ) = (id - lis - 1) % ntr + 1 := by
        omega
      have hsum : lis + ((id - lis - 1) % ntr + 1) = id + ntr * -((id - lis - 1) / ntr) := by
        have hdiv := Int.emod_add_mul_ediv (id - lis - 1) ntr
        rw [Int.mul_neg]
        omega
      rw [hcast, Int.tmod_eq_emod_of_nonneg (by omega), hsum, Int.add_mul_emod_self_left,
        Int.emod_eq_of_lt hpos hlt]

/-- A small number is the same as a `char`. -/
theorem toInt_ofInt_of_lt {n : ℤ} (hpos : 0 ≤ n) (hlt : n < 128) :
    (BitVec.ofInt 8 n).toInt = n := by
  rw [BitVec.toInt_ofInt, Int.bmod_eq_of_le]
  · omega
  · omega

theorem waitingId_range (hntr : 0 < ntr) (hp : Ranged p) :
    0 ≤ waitingId ntr p.lis ∧ waitingId ntr p.lis < ntr := by
  obtain ⟨hpos, hlt⟩ := hp
  rw [maxNtr] at hlt
  rw [waitingId, toInt_ofInt_of_lt hpos (by omega)]
  exact ⟨Int.tmod_nonneg ntr (by omega), Int.tmod_lt_of_pos _ hntr⟩

theorem isRecentTrain_id {st : Stamp} (h : isRecentTrain ntr st p = true) :
    st.id.toInt = waitingId ntr p.lis := by
  rw [isRecentTrain] at h
  by_contra hne
  rw [if_neg hne] at h
  cases h

theorem recentAccesses_inRange (hntr : 0 < ntr) (hmax : ntr ≤ maxNtr) (hp : Ranged p)
    (st : Stamp) : ∀ a ∈ recentAccesses ntr st p, a.InRange := by
  intro a ha
  rw [recentAccesses] at ha
  split at ha
  · obtain rfl := List.mem_singleton.mp ha
    have hwaiting := waitingId_range hntr hp
    exact ⟨hwaiting.1, by omega⟩
  · cases ha

/-- The round before last is one that `unstableWagons` has. -/
theorem stableRound_range (round : ℤ) :
    (0 ≤ (round - 2 + nr).tmod nr ∧ (round - 2 + nr).tmod nr < nr) ↔
      -1 ≤ round ∨ (nr : ℤ) ∣ round + 1 := by
  have hlt := Int.tmod_lt_of_pos (round - 2 + nr) (show (0 : ℤ) < nr by decide)
  rw [and_iff_left hlt, Int.tmod_eq_emod]
  simp only [nr]
  split
  · omega
  · simp
    omega

theorem trainHandling_inRange {st : Stamp} {circuit : Address} {senders : List Address}
    (hid : 0 ≤ st.id.toInt ∧ st.id.toInt < maxNtr) :
    (∀ a ∈ (trainHandling c st circuit senders p).1, a.InRange) ↔
      (-1 ≤ handledRound st p ∨ (nr : ℤ) ∣ handledRound st p + 1) ∧
      (appends c st circuit senders p = true →
        0 ≤ handledRound st p ∧ handledRound st p < nr) := by
  have hzero : 0 < maxNtr := by decide
  rw [← stableRound_range]
  cases happends : appends c st circuit senders p with
  | true => simp [trainHandling, happends, Access.InRange, hid, hzero]
  | false => simp [trainHandling, happends, Access.InRange, hid, hzero]

theorem searchPrec_spec {fuel : ℕ} :
    (∀ a ∈ (searchPrec c dial fuel p).1, a = .lts p.lis) ∧
    ∀ q found, (searchPrec c dial fuel p).2 = some (q, found) →
      q.lis = p.lis ∧ q.lts = p.lts ∧ q.automatonState = p.automatonState := by
  induction fuel generalizing p with
  | zero => simp [searchPrec]
  | succ fuel ih =>
    rw [searchPrec]
    split
    · simp
    · split
      · simp
      · dsimp only
        split
        · simp
        · rename_i prec _
          obtain ⟨haccesses, hresult⟩ := ih (p := { p with
            cameProc := (addrAppendGone p.cameProc p.goneProc p.prec).1
            goneProc := (addrAppendGone p.cameProc p.goneProc p.prec).2
            prec := prec })
          refine ⟨List.forall_mem_cons.mpr ⟨rfl, haccesses⟩, hresult⟩

theorem flush_inRange (hntr : 0 < ntr) (hmax : ntr ≤ maxNtr) (hp : Ranged p) :
    (∀ a ∈ flushAccesses ntr p, a.InRange) ↔
      ∀ id, 0 ≤ id → id < ntr → -1 ≤ (p.lts id).stamp.round.toInt := by
  constructor
  · intro hall id hpos hlt
    have hid : id ∈ trainsAfter ntr p.lis := (mem_trainsAfter hntr hp.1).mpr ⟨hpos, hlt⟩
    have hround : ∀ aRound ∈ List.range' 1 nr,
        0 ≤ ((p.lts id).stamp.round.toInt + aRound).tmod nr := by
      intro aRound haRound
      have haccess : Access.unstableWagons id
          (((p.lts id).stamp.round.toInt + aRound).tmod nr) ∈ flushAccesses ntr p := by
        simp only [flushAccesses, List.mem_flatMap]
        exact ⟨aRound, haRound, id, hid, by simp⟩
      exact (hall _ haccess).2.1
    have hone := hround 1 (by decide)
    have htwo := hround 2 (by decide)
    rw [Int.tmod_eq_emod] at hone htwo
    simp only [nr] at hone htwo
    split at hone
    · split at htwo
      · omega
      · omega
    · simp at hone
      omega
  · intro hall a ha
    simp only [flushAccesses, List.mem_flatMap] at ha
    obtain ⟨aRound, haRound, id, hid, ha⟩ := ha
    have hid' := (mem_trainsAfter hntr hp.1).mp hid
    have hstored := hall id hid'.1 hid'.2
    have hpos : 1 ≤ aRound := (List.mem_range'_1.mp haRound).1
    have hrange : 0 ≤ id ∧ id < maxNtr := ⟨hid'.1, by omega⟩
    rcases List.mem_pair.mp ha with rfl | rfl
    · exact hrange
    · exact ⟨hrange, Int.tmod_nonneg _ (by omega), Int.tmod_lt_of_pos _ (by decide)⟩

theorem trains_inRange (hmax : ntr ≤ maxNtr) : ∀ a ∈ (trains ntr).map Access.lts, a.InRange := by
  intro a ha
  obtain ⟨id, hid, rfl⟩ := List.mem_map.mp ha
  have hbound := mem_trains.mp hid
  exact ⟨hbound.1, by omega⟩

theorem trainsAfter_inRange (hntr : 0 < ntr) (hmax : ntr ≤ maxNtr) (hp : Ranged p) :
    ∀ a ∈ (trainsAfter ntr p.lis).map Access.lts, a.InRange := by
  intro a ha
  obtain ⟨id, hid, rfl⟩ := List.mem_map.mp ha
  have hbound := (mem_trainsAfter hntr hp.1).mp hid
  exact ⟨hbound.1, by omega⟩

theorem confirmationWait_inRange (hmax : ntr ≤ maxNtr) {st : Stamp} {circuit : Address}
    {senders : List Address} :
    (∀ a ∈ (offlineConfirmationWait ntr c (.train st circuit senders) p).1, a.InRange) ↔
      0 ≤ st.id.toInt ∧ st.id.toInt < maxNtr := by
  have htrains := trains_inRange hmax
  unfold offlineConfirmationWait
  dsimp only
  constructor
  · intro hall
    apply hall (.lts st.id.toInt)
    split
    · exact List.mem_append_left _ List.mem_cons_self
    · exact List.mem_cons_self
  · intro hid
    split
    · rw [List.forall_mem_append, List.forall_mem_cons, List.forall_mem_singleton]
      exact ⟨⟨hid, htrains⟩, hid⟩
    · rw [List.forall_mem_cons]
      exact ⟨hid, htrains⟩

theorem several_train_inRange (hntr : 0 < ntr) (hmax : ntr ≤ maxNtr) (hp : Ranged p) {st : Stamp}
    {circuit : Address} {senders : List Address} :
    (∀ a ∈ (several ntr c dial (.train st circuit senders) p).1, a.InRange) ↔
      (addrIsMember c.myAddress circuit = true → isRecentTrain ntr st p = true →
        (-1 ≤ handledRound st p ∨ (nr : ℤ) ∣ handledRound st p + 1) ∧
        (appends c st circuit senders p = true →
          0 ≤ handledRound st p ∧ handledRound st p < nr)) := by
  have hread := recentAccesses_inRange hntr hmax hp st
  unfold several
  dsimp only
  by_cases hmember : addrIsMember c.myAddress circuit = true
  · by_cases hrecent : isRecentTrain ntr st p = true
    · have hid : 0 ≤ st.id.toInt ∧ st.id.toInt < maxNtr := by
        have hwaiting := waitingId_range hntr hp
        rw [isRecentTrain_id hrecent]
        exact ⟨hwaiting.1, by omega⟩
      rw [if_pos hmember, if_pos hrecent]
      dsimp only
      rw [List.forall_mem_append, List.forall_mem_append, List.forall_mem_singleton,
        trainHandling_inRange hid]
      constructor
      · rintro ⟨⟨-, hround⟩, -⟩ - -
        exact hround
      · intro hround
        exact ⟨⟨hread, hround hmember hrecent⟩, hid⟩
    · rw [if_pos hmember, if_neg hrecent]
      exact iff_of_true hread fun _ h => absurd h hrecent
  · rw [if_neg hmember]
    exact iff_of_true (by simp) fun h => absurd h hmember

theorem several_disconnectPred_inRange (hntr : 0 < ntr) (hmax : ntr ≤ maxNtr) (hp : Ranged p) :
    (∀ a ∈ (several ntr c dial .disconnectPred p).1, a.InRange) ↔
      ∀ q, (searchPrec c dial (np + 2) p).2 = some (q, false) →
        ∀ id, 0 ≤ id → id < ntr → -1 ≤ (p.lts id).stamp.round.toInt := by
  obtain ⟨haccesses, hresult⟩ := @searchPrec_spec c p dial (np + 2)
  have hsearched : ∀ a ∈ (searchPrec c dial (np + 2) p).1, a.InRange := by
    intro a ha
    rw [haccesses a ha]
    exact hp
  unfold several
  dsimp only
  rcases hsearch : searchPrec c dial (np + 2) p with ⟨accesses, _ | ⟨q, found⟩⟩
  · rw [hsearch] at hsearched
    exact iff_of_true hsearched (by simp)
  · rw [hsearch] at hsearched hresult
    cases found with
    | true => exact iff_of_true hsearched (by simp)
    | false =>
      obtain ⟨hlis, hlts, -⟩ := hresult q false rfl
      have hq : Ranged q := by
        rw [Ranged, hlis]
        exact hp
      have hflush := flush_inRange hntr hmax hq
      rw [hlts] at hflush
      rw [List.forall_mem_append, List.forall_mem_cons, hflush]
      constructor
      · rintro ⟨-, -, hround⟩ - -
        exact hround
      · intro hround
        exact ⟨hsearched, hq, hround q rfl⟩

/-- The indexes used in a step are in range exactly when the step is bounded. -/
theorem inRange_iff (hntr : 0 < ntr) (hmax : ntr ≤ maxNtr) (hp : Ranged p) (e : Event) :
    InRange ntr c p e ↔ Bounded ntr c p e := by
  cases e with
  | wake | broadcast => exact iff_of_true (by simp [InRange, run]) trivial
  | message dial m =>
    rw [InRange, run, stateMachine]
    cases m with
    | insert | ackInsert | nakInsert | disconnectSucc =>
      refine iff_of_true ?_ trivial
      cases p.automatonState <;> exact List.forall_mem_nil _
    | newSucc sender =>
      refine iff_of_true ?_ trivial
      cases p.automatonState with
      | aloneConnectionWait | several => exact trainsAfter_inRange hntr hmax hp
      | _ => exact List.forall_mem_nil _
    | disconnectPred =>
      rw [Bounded]
      cases p.automatonState with
      | several =>
        rw [several_disconnectPred_inRange hntr hmax hp]
        exact ⟨fun hround _ => hround, fun hround => hround rfl⟩
      | _ => exact iff_of_true (List.forall_mem_nil _) State.noConfusion
    | train st circuit senders =>
      rw [Bounded]
      cases p.automatonState with
      | offlineConfirmationWait => exact (confirmationWait_inRange hmax).trans (by simp)
      | several => exact (several_train_inRange hntr hmax hp).trans (by simp)
      | _ => exact iff_of_true (List.forall_mem_nil _) (by simp)

/-! ## What a step does to them -/

/-- The round of the last handling of a train. -/
def storedRound (p : Proc) (id : ℤ) : BitVec 8 := (p.lts id).stamp.round

/-- The last train handled and the rounds stay. -/
def Same (p q : Proc) : Prop := q.lis = p.lis ∧ storedRound q = storedRound p

theorem waitBeforeConnect_same (h : waitBeforeConnect c p = some q) : Same p q := by
  rw [waitBeforeConnect] at h
  split at h
  · cases h
  · cases h
    exact ⟨rfl, rfl⟩

theorem offlineInit_same (h : offlineInit c dial p = some q) : Same p q := by
  obtain ⟨rank, -, rfl⟩ := Option.map_eq_some_iff.mp h
  dsimp only
  split
  · exact ⟨rfl, rfl⟩
  · exact ⟨rfl, rfl⟩

theorem storedRound_foldl (prec : Address) (ids : List ℤ) (lts : ℤ → Lts) (id : ℤ) :
    ((ids.foldl (fun lts id => Function.update lts id
      ⟨{ (lts id).stamp with lc := (lts id).stamp.lc + 1 }, prec⟩) lts) id).stamp.round =
      (lts id).stamp.round := by
  induction ids generalizing lts with
  | nil => rfl
  | cons i ids ih =>
    rw [List.foldl_cons, ih]
    by_cases hid : id = i
    · subst hid
      rw [Function.update_self]
    · rw [Function.update_of_ne hid]

/-- The treatments of trains. -/
inductive Trained (ntr : ℤ) (c : Config) (p q : Proc) : Event → Prop where
  | confirming (dial : Address → Bool) (st : Stamp) (circuit : Address) (senders : List Address)
      (waits : p.automatonState = .offlineConfirmationWait)
      (lis : q.lis = p.lis ∨ q.lis = st.id.toInt)
      (rounds : storedRound q = Function.update (storedRound p) st.id.toInt st.round) :
      Trained ntr c p q (.message dial (.train st circuit senders))
  | handled (dial : Address → Bool) (st : Stamp) (circuit : Address) (senders : List Address)
      (several : p.automatonState = .several) (listed : addrIsMember c.myAddress circuit = true)
      (recent : isRecentTrain ntr st p = true) (lis : q.lis = st.id.toInt)
      (rounds : storedRound q = Function.update (storedRound p) st.id.toInt
        (BitVec.ofInt 8 (handledRound st p))) :
      Trained ntr c p q (.message dial (.train st circuit senders))

theorem storedRound_update {lts : ℤ → Lts} {id : ℤ} {l : Lts}
    (hlts : q.lts = Function.update lts id l) :
    storedRound q = Function.update (fun id => (lts id).stamp.round) id l.stamp.round := by
  funext i
  rw [storedRound, hlts]
  by_cases hi : i = id
  · subst hi
    rw [Function.update_self, Function.update_self]
  · rw [Function.update_of_ne hi, Function.update_of_ne hi]

theorem updateCircuit_lts (id : ℤ) (circuit : Address) (p : Proc) :
    (updateCircuit id circuit p).2.lts = p.lts := by
  rw [updateCircuit]
  split <;> rfl

theorem several_cases {m : Msg} (hp : p.automatonState = .several)
    (h : (several ntr c dial m p).2 = some q) :
    Same p q ∨ Trained ntr c p q (.message dial m) := by
  unfold several at h
  cases m with
  | train st circuit senders =>
    dsimp only at h
    split at h
    · rename_i hmember
      split at h
      · rename_i hrecent
        cases h
        refine .inr (.handled dial st circuit senders hp hmember hrecent rfl ?_)
        have hlts := updateCircuit_lts st.id.toInt circuit p
        have hrounds := @storedRound_update
          { (trainHandling c st circuit senders p).2 with lis := st.id.toInt }
          (updateCircuit st.id.toInt circuit p).2.lts _ _ rfl
        rw [hlts] at hrounds
        exact hrounds
      · cases h
        exact .inl ⟨rfl, rfl⟩
    · cases h
  | insert | newSucc | disconnectSucc =>
    cases h
    exact .inl ⟨rfl, rfl⟩
  | disconnectPred =>
    left
    obtain ⟨-, hresult⟩ := @searchPrec_spec c p dial (np + 2)
    dsimp only at h
    rcases hsearch : searchPrec c dial (np + 2) p with ⟨accesses, _ | ⟨r, found⟩⟩
    · rw [hsearch] at h
      cases h
    · rw [hsearch] at h hresult
      obtain ⟨hlis, hlts, -⟩ := hresult r found rfl
      have hsame : Same p r := ⟨hlis, by funext id; rw [storedRound, storedRound, hlts]⟩
      cases found with
      | true =>
        cases h
        exact hsame
      | false =>
        cases h
        exact hsame
  | ackInsert | nakInsert => cases h

theorem offlineConfirmationWait_cases {m : Msg} (hp : p.automatonState = .offlineConfirmationWait)
    (h : (offlineConfirmationWait ntr c m p).2 = some q) :
    Same p q ∨ Trained ntr c p q (.message dial m) := by
  unfold offlineConfirmationWait at h
  cases m with
  | newSucc | disconnectPred | disconnectSucc => exact .inl (waitBeforeConnect_same h)
  | insert =>
    cases h
    exact .inl ⟨rfl, rfl⟩
  | train st circuit senders =>
    right
    have hround : (if addrIsMember c.myAddress circuit = true then { st with lc := st.lc + 1 }
        else st).round = st.round := by
      split <;> rfl
    have hrounds : ∀ {r : Proc}, r.lts = (forwardTrain c st circuit p).lts →
        storedRound r = Function.update (storedRound p) st.id.toInt st.round := by
      intro r hr
      rw [storedRound_update hr]
      exact congrArg _ hround
    dsimp only at h
    split at h
    · cases h
      exact .confirming dial st circuit senders hp (.inr rfl) (hrounds rfl)
    · cases h
      exact .confirming dial st circuit senders hp (.inl rfl) (hrounds rfl)
  | ackInsert | nakInsert => cases h

theorem step_cases {e : Event} (h : step ntr c p e = some q) : Same p q ∨ Trained ntr c p q e := by
  cases e with
  | broadcast =>
    cases h
    exact .inl ⟨rfl, rfl⟩
  | wake dial =>
    left
    rw [step, run] at h
    dsimp only at h
    split at h
    · obtain ⟨hlis, hrounds⟩ := offlineInit_same h
      exact ⟨hlis, hrounds⟩
    · cases h
  | message dial m =>
    rw [step, run, stateMachine] at h
    cases hs : p.automatonState with
    | offlineConnectionAttempt =>
      rw [hs] at h
      left
      cases m with
      | nakInsert | disconnectPred | disconnectSucc => exact waitBeforeConnect_same h
      | insert | ackInsert =>
        cases h
        exact ⟨rfl, rfl⟩
      | train | newSucc => cases h
    | offlineConfirmationWait =>
      rw [hs] at h
      exact offlineConfirmationWait_cases hs h
    | aloneInsertWait =>
      rw [hs] at h
      left
      cases m with
      | disconnectPred | disconnectSucc | insert =>
        cases h
        exact ⟨rfl, rfl⟩
      | train | ackInsert | nakInsert | newSucc => cases h
    | aloneConnectionWait =>
      rw [hs] at h
      left
      cases m with
      | disconnectPred | insert =>
        cases h
        exact ⟨rfl, rfl⟩
      | newSucc =>
        cases h
        refine ⟨rfl, ?_⟩
        funext id
        exact storedRound_foldl _ _ _ id
      | train | ackInsert | nakInsert | disconnectSucc => cases h
    | several =>
      rw [hs] at h
      exact several_cases hs h
    | wait =>
      rw [hs] at h
      cases h
      exact .inl ⟨rfl, rfl⟩

theorem ranged_step {e : Event} (hntr : 0 < ntr) (hmax : ntr ≤ maxNtr) (hp : Ranged p)
    (hbounded : Bounded ntr c p e) (h : step ntr c p e = some q) : Ranged q := by
  rw [Ranged]
  rcases step_cases h with ⟨hlis, -⟩ | htrained
  · rw [hlis]
    exact hp
  · cases htrained with
    | confirming dial st circuit senders waits lis =>
      rcases lis with hlis | hlis
      · rw [hlis]
        exact hp
      · rw [hlis]
        exact hbounded.1 waits
    | handled dial st circuit senders several listed recent lis =>
      have hwaiting := waitingId_range hntr hp
      rw [lis, isRecentTrain_id recent]
      exact ⟨hwaiting.1, by omega⟩

theorem automatonInit_inRange :
    (∀ a ∈ (automatonInit ntr c dial).1, a.InRange) ↔ ntr ≤ maxNtr := by
  constructor
  · intro hall
    by_contra hmax
    have hmem : (maxNtr : ℤ) ∈ trains ntr := mem_trains.mpr ⟨by decide, by omega⟩
    have haccess : Access.lts maxNtr ∈ (automatonInit ntr c dial).1 := by
      rw [automatonInit, List.mem_flatMap]
      exact ⟨_, hmem, List.mem_cons_self⟩
    exact absurd (hall _ haccess).2 (lt_irrefl _)
  · intro hmax a ha
    rw [automatonInit, List.mem_flatMap] at ha
    obtain ⟨id, hid, ha⟩ := ha
    have hbound := mem_trains.mp hid
    have hrange : 0 ≤ id ∧ id < maxNtr := ⟨hbound.1, by omega⟩
    rcases List.mem_cons.mp ha with rfl | ha
    · exact hrange
    · obtain ⟨round, hround, rfl⟩ := List.mem_map.mp ha
      rw [List.mem_range] at hround
      exact ⟨hrange, by omega, by omega⟩

theorem automatonInit_same {p₀ : Proc} (h : (automatonInit ntr c dial).2 = some p₀) :
    Same (Proc.initial ntr) p₀ := offlineInit_same h

theorem trInit_pos (trainsNumber : ℤ) : 0 < trInit trainsNumber := by
  rw [trInit]
  split
  · assumption
  · decide

end Indexes

/-! ## Runs of processes with the same number of trains -/

/-- The stamp of a train that a process with as many trains sends. -/
def ProperStamp (ntr : ℤ) : Event → Prop
  | .message _ (.train st _ _) =>
    (0 ≤ st.id.toInt ∧ st.id.toInt < ntr) ∧ 0 ≤ st.round.toInt ∧ st.round.toInt < nr
  | _ => True

/-- The rounds of the last handlings are rounds. -/
def ProperRounds (p : Proc) : Prop :=
  ∀ id, 0 ≤ (storedRound p id).toInt ∧ (storedRound p id).toInt < nr

section Proper

variable {ntr : ℤ} {c : Config} {p q : Proc} {e : Event}

theorem handledRound_range {st : Stamp} (hp : 0 ≤ st.round.toInt ∧ st.round.toInt < nr) :
    0 ≤ handledRound st p ∧ handledRound st p < nr := by
  rw [handledRound]
  split
  · exact ⟨Int.tmod_nonneg _ (by omega), Int.tmod_lt_of_pos _ (by decide)⟩
  · exact hp

theorem bounded_of_proper (hmax : ntr ≤ maxNtr) (hp : ProperRounds p) (he : ProperStamp ntr e) :
    Bounded ntr c p e := by
  cases e with
  | wake | broadcast => trivial
  | message dial m =>
    cases m with
    | train st circuit senders =>
      obtain ⟨hid, hround⟩ := he
      refine ⟨fun _ => ⟨hid.1, by omega⟩, fun _ _ _ =>
        ⟨.inl ?_, fun _ => handledRound_range hround⟩⟩
      have hhandled := @handledRound_range p st hround
      omega
    | disconnectPred =>
      intro _ q _ id _ _
      have hstored := (hp id).1
      rw [storedRound] at hstored
      omega
    | insert | ackInsert | nakInsert | disconnectSucc | newSucc => trivial

theorem properRounds_update {id : ℤ} {round : BitVec 8} (hp : ProperRounds p)
    (hround : 0 ≤ round.toInt ∧ round.toInt < nr)
    (hq : storedRound q = Function.update (storedRound p) id round) : ProperRounds q := by
  intro i
  rw [hq]
  by_cases hi : i = id
  · subst hi
    rw [Function.update_self]
    exact hround
  · rw [Function.update_of_ne hi]
    exact hp i

theorem properRounds_step (hp : ProperRounds p) (he : ProperStamp ntr e)
    (h : step ntr c p e = some q) : ProperRounds q := by
  rcases step_cases h with ⟨-, hrounds⟩ | htrained
  · intro id
    rw [hrounds]
    exact hp id
  · cases htrained with
    | confirming dial st circuit senders waits lis rounds =>
      exact properRounds_update hp he.2 rounds
    | handled dial st circuit senders several listed recent lis rounds =>
      refine properRounds_update hp ?_ rounds
      have hhandled := @handledRound_range p st he.2
      have hlt : (nr : ℤ) < 128 := by decide
      rw [toInt_ofInt_of_lt hhandled.1 (by omega)]
      exact hhandled

end Proper

theorem along_bounded_of_proper {ntr : ℤ} {c : Config} {p : Proc} {es : List Event}
    (hmax : ntr ≤ maxNtr) (hp : ProperRounds p) (hes : ∀ e ∈ es, ProperStamp ntr e) :
    Along (step ntr c) (Bounded ntr c) p es := by
  induction es generalizing p with
  | nil => trivial
  | cons e es ih =>
    obtain ⟨he, hes⟩ := List.forall_mem_cons.mp hes
    refine ⟨bounded_of_proper hmax hp he, ?_⟩
    intro q hq
    exact ih (properRounds_step hp he hq) hes

/-! ## Runs -/

section Runs

variable {ntr : ℤ} {c : Config} {dial : Address → Bool} {p₀ : Proc}

theorem ranged_start (hntr : 0 < ntr) (hmax : ntr ≤ maxNtr)
    (hinit : (automatonInit ntr c dial).2 = some p₀) : Ranged p₀ := by
  obtain ⟨hlis, -⟩ := automatonInit_same hinit
  rw [Ranged, hlis, Proc.initial]
  dsimp only
  omega

theorem properRounds_start (hinit : (automatonInit ntr c dial).2 = some p₀) : ProperRounds p₀ := by
  obtain ⟨-, hrounds⟩ := automatonInit_same hinit
  intro id
  have hzero : storedRound (Proc.initial ntr) id = 0#8 := rfl
  rw [hrounds, hzero]
  decide

theorem along_inRange_iff (hntr : 0 < ntr) (hmax : ntr ≤ maxNtr) (hp : Ranged p₀)
    (es : List Event) :
    Along (step ntr c) (InRange ntr c) p₀ es ↔ Along (step ntr c) (Bounded ntr c) p₀ es := by
  refine @along_congr_of_inv _ _ _ _ Ranged _ ?_ ?_ p₀ hp es
  · intro p e hp
    exact inRange_iff hntr hmax hp e
  · intro p e q hp hin h
    exact ranged_step hntr hmax hp ((inRange_iff hntr hmax hp e).mp hin) h

/-- Processes with the same number of trains, at most `MAX_NTR`, stay in the arrays. -/
theorem along_inRange_of_proper {es : List Event} (hntr : 0 < ntr) (hmax : ntr ≤ maxNtr)
    (hinit : (automatonInit ntr c dial).2 = some p₀) (hes : ∀ e ∈ es, ProperStamp ntr e) :
    Along (step ntr c) (InRange ntr c) p₀ es := by
  rw [along_inRange_iff hntr hmax (ranged_start hntr hmax hinit)]
  exact along_bounded_of_proper hmax (properRounds_start hinit) hes

end Runs

/-- Whatever number of trains the application gives, `automatonInit` stays in the arrays when
there are at most `MAX_NTR`; then every run stays in them exactly when all its steps are
bounded. -/
theorem indexes_in_range (trainsNumber : ℤ) (c : Config) (dial : Address → Bool) :
    ((∀ a ∈ (automatonInit (trInit trainsNumber) c dial).1, a.InRange) ↔
      trInit trainsNumber ≤ maxNtr) ∧
    (trInit trainsNumber ≤ maxNtr →
      ∀ p₀ ∈ (automatonInit (trInit trainsNumber) c dial).2, ∀ es,
        Along (step (trInit trainsNumber) c) (InRange (trInit trainsNumber) c) p₀ es ↔
          Along (step (trInit trainsNumber) c) (Bounded (trInit trainsNumber) c) p₀ es) := by
  refine ⟨automatonInit_inRange, ?_⟩
  intro hmax p₀ hinit es
  have hntr := trInit_pos trainsNumber
  exact along_inRange_iff hntr hmax (ranged_start hntr hmax hinit) es

/-- Process 4, with one train, joins process 0 and handles a train. -/
def properRun : List Event :=
  [.ackInsert (rankToAddr 0), .train ⟨0#8, 0#8, 0#8⟩ (rankToAddr 4) [],
    .train ⟨0#8, 1#8, 0#8⟩ (rankToAddr 0 ||| rankToAddr 4) [rankToAddr 0]].map
      (.message fun _ => true)

theorem indexes_in_range_properRun :
    ∀ p₀ ∈ (automatonInit (trInit 1) ⟨rankToAddr 4, 3, 8⟩ fun _ => true).2,
      Along (step (trInit 1) ⟨rankToAddr 4, 3, 8⟩) (InRange (trInit 1) ⟨rankToAddr 4, 3, 8⟩) p₀
        properRun := by
  intro p₀ hp₀
  have hmax : trInit 1 ≤ maxNtr := by decide
  rw [(indexes_in_range 1 ⟨rankToAddr 4, 3, 8⟩ fun _ => true).2 hmax p₀ hp₀]
  apply along_bounded_of_proper hmax (properRounds_start hp₀)
  intro e he
  obtain ⟨m, hm, rfl⟩ := List.mem_map.mp he
  simp only [List.mem_cons, List.not_mem_nil, or_false] at hm
  rcases hm with rfl | rfl | rfl
  · trivial
  · exact ⟨by decide, by decide⟩
  · exact ⟨by decide, by decide⟩

/-- More trains than `MAX_NTR` are accepted, and so is a train whose number is negative. -/
theorem not_indexes_in_range :
    (∃ a ∈ (automatonInit (trInit 17) ⟨rankToAddr 4, 3, 8⟩ fun _ => true).1, ¬ a.InRange) ∧
    ∃ p₀ ∈ (automatonInit (trInit 1) ⟨rankToAddr 4, 3, 8⟩ fun _ => true).2,
      ¬ Along (step (trInit 1) ⟨rankToAddr 4, 3, 8⟩) (InRange (trInit 1) ⟨rankToAddr 4, 3, 8⟩) p₀
        [.message (fun _ => true) (.ackInsert (rankToAddr 0)),
          .message (fun _ => true) (.train ⟨255#8, 0#8, 0#8⟩ (rankToAddr 0) [])] := by
  constructor
  · exact ⟨.lts 16, by decide, by decide⟩
  · have hsome : (automatonInit (trInit 1) ⟨rankToAddr 4, 3, 8⟩ fun _ => true).2.isSome := by
      decide
    obtain ⟨p₀, hp₀⟩ := Option.isSome_iff_exists.mp hsome
    refine ⟨p₀, hp₀, ?_⟩
    have hout : ∀ p₀ ∈ (automatonInit (trInit 1) ⟨rankToAddr 4, 3, 8⟩ fun _ => true).2,
        ¬ Along (step (trInit 1) ⟨rankToAddr 4, 3, 8⟩) (InRange (trInit 1) ⟨rankToAddr 4, 3, 8⟩)
          p₀ [.message (fun _ => true) (.ackInsert (rankToAddr 0)),
            .message (fun _ => true) (.train ⟨255#8, 0#8, 0#8⟩ (rankToAddr 0) [])] := by
      decide
    exact hout p₀ hp₀

end UniformBroadcast.Trains.Indexes
