import UniformBroadcast.TrainWagon
import Mathlib.Logic.Function.Basic
import Mathlib.Data.Int.Notation

/-!
# The state of a process and the handling of a train

Translation of the globals and of `trainHandling` in `stateMachine.c`, of `isInLts` and
`isRecentTrain` in `advanced_struct.c` and of the content of the frame that `sendTrain`
writes. There are `ntr` trains; the arrays over trains and over rounds are functions, so
an index is always in range; `TrainIndexSimulation` relates them to the arrays indexed by
bytes. The counters of references to the buffers and the statistics are left out.
-/

namespace UniformBroadcast.Trains

/-- `M`, the number of values of a logical clock. -/
def clockValues : ℤ := 256

/-- `MAX_NTR`, the bound on the number of trains. -/
def maxNtr : ℕ := 16

inductive State where
  | offlineConnectionAttempt
  | offlineConfirmationWait
  | aloneInsertWait
  | aloneConnectionWait
  | several
  | wait
  deriving DecidableEq, Repr

/-- `stamp`. -/
structure Stamp (ntr : ℕ) where
  id : Fin ntr
  lc : BitVec 8
  round : Fin nr
  deriving DecidableEq, Repr

/-- A train as it is received: `train` with its wagons. -/
structure Train (ntr : ℕ) where
  stamp : Stamp ntr
  circuit : Address
  wagons : List Wagon
  deriving DecidableEq, Repr

/-- `ltsStruct`, the last train sent. `pWagon` is what stands in the received train from
the pointer `w.w_w.p_wagon` on, `len` is `w.len`. -/
structure Lts (ntr : ℕ) where
  stamp : Stamp ntr
  circuit : Address
  pWagon : Option (List Wagon)
  len : ℕ
  pWtosend : Option Wagon
  deriving DecidableEq, Repr

/-- The globals of a process. `wagonsToDeliver` lists all that was ever enqueued. -/
structure Proc (ntr : ℕ) where
  automatonState : State
  prec : Address
  succ : Address
  cameProc : Address
  goneProc : Address
  waitNb : ℕ
  lis : Fin ntr
  lts : Fin ntr → Lts ntr
  unstableWagons : Fin ntr → Fin nr → List Wagon
  wagonsToDeliver : List Wagon
  wagonToSend : Wagon

variable {ntr : ℕ}

/-- `(id + i) % ntr`. -/
def idPlus (id : Fin ntr) (i : ℕ) : Fin ntr :=
  ⟨(id.val + i) % ntr, Nat.mod_lt _ (Nat.zero_lt_of_lt id.isLt)⟩

def isInLts (ad : Address) (lts : Fin ntr → Lts ntr) : Bool :=
  (List.finRange ntr).all fun id => addrIsMember ad (lts id).circuit

def isRecentTrain (trSt : Stamp ntr) (lts : Fin ntr → Lts ntr) (lastId : Fin ntr) : Bool :=
  let waitingId := idPlus lastId 1
  if trSt.id = waitingId then
    let diff : ℤ := trSt.lc.toNat - (lts waitingId).stamp.lc.toNat
    if diff > 0 then diff < (1 + clockValues).tdiv 2 else diff < (1 - clockValues).tdiv 2
  else false

/-- A recent train is the one that follows the last train handled. -/
theorem isRecentTrain_id {st : Stamp ntr} {lts : Fin ntr → Lts ntr} {lis : Fin ntr}
    (h : isRecentTrain st lts lis = true) : st.id = idPlus lis 1 := by
  rw [isRecentTrain] at h
  by_contra hne
  rw [if_neg hne] at h
  cases h

/-- The wagon of the process that `sendTrain` adds, unless it is just a header. -/
def ownSent (pWtosend : Option Wagon) : List Wagon :=
  match pWtosend with
  | none => []
  | some w => if (firstMsg w).isSome then [w] else []

/-- The frame that `sendTrain` writes: the `len` bytes from `pWagon` on and the wagon of
the process; `none` when these bytes are not a list of wagons. -/
def trainSent (lts : Lts ntr) : Option (Train ntr) :=
  (carve (lts.pWagon.getD []) lts.len).map fun wagons =>
    ⟨lts.stamp, lts.circuit, wagons ++ ownSent lts.pWtosend⟩

/-! ## Handling a train -/

/-- What the loop of `trainHandling` accumulates: the list of unstable wagons, the
pointer to the first wagon to send on and the length to send on. -/
structure Sorted where
  unstable : List Wagon
  pWagon : Option (List Wagon)
  len : ℕ
  deriving DecidableEq

/-- The wagons that `trainHandling` records. -/
def isRecorded (myAddress circuit goneProc : Address) (w : Wagon) : Bool :=
  addrIsMember w.sender circuit && !addrIsMember w.sender goneProc && w.sender != myAddress

/-- The loop over `firstWagon`, `nextWagon`; the argument is what is left of the train. -/
def sortWagons (myAddress succ circuit goneProc : Address) : List Wagon → Sorted → Sorted
  | [], acc => acc
  | w :: wagons, acc =>
    if isRecorded myAddress circuit goneProc w then
      let acc := { acc with unstable := acc.unstable ++ [w] }
      if succ ≠ w.sender then
        sortWagons myAddress succ circuit goneProc wagons { acc with
          pWagon := match acc.pWagon with
            | none => some (w :: wagons)
            | some p => some p
          len := acc.len + w.len }
      else sortWagons myAddress succ circuit goneProc wagons acc
    else sortWagons myAddress succ circuit goneProc wagons acc

/-- The wagons that `trainHandling` sends on. -/
def isSentOn (myAddress succ circuit goneProc : Address) (w : Wagon) : Bool :=
  isRecorded myAddress circuit goneProc w && succ != w.sender

/-- What stands in a list of wagons from the first one sent on. -/
def fromFirst (sentOn : Wagon → Bool) (wagons : List Wagon) : Option (List Wagon) :=
  match wagons.dropWhile (!sentOn ·) with
  | [] => none
  | w :: rest => some (w :: rest)

theorem fromFirst_getD (sentOn : Wagon → Bool) (wagons : List Wagon) :
    (fromFirst sentOn wagons).getD [] = wagons.dropWhile (!sentOn ·) := by
  rw [fromFirst]
  split
  · rename_i h
    exact h.symm
  · rename_i h
    exact h.symm

/-- What the loop makes of a list of wagons. -/
theorem sortWagons_spec (my succ circuit gone : Address) (wagons : List Wagon) (acc : Sorted) :
    sortWagons my succ circuit gone wagons acc =
      ⟨acc.unstable ++ wagons.filter (isRecorded my circuit gone),
        acc.pWagon.or (fromFirst (isSentOn my succ circuit gone) wagons),
        acc.len + wagonsLen (wagons.filter (isSentOn my succ circuit gone))⟩ := by
  induction wagons generalizing acc with
  | nil =>
    cases acc with
    | mk unstable pWagon len => cases pWagon <;> simp [sortWagons, fromFirst]
  | cons w wagons ih =>
    rw [sortWagons]
    cases hrec : isRecorded my circuit gone w with
    | false =>
      have hsent : isSentOn my succ circuit gone w = false := by simp [isSentOn, hrec]
      rw [if_neg (by simp), ih, List.filter_cons_of_neg (by simp [hrec]),
        List.filter_cons_of_neg (by simp [hsent])]
      simp [fromFirst, hsent]
    | true =>
      rw [if_pos rfl, List.filter_cons_of_pos hrec]
      by_cases hsucc : succ = w.sender
      · have hsent : isSentOn my succ circuit gone w = false := by simp [isSentOn, hsucc]
        rw [if_neg (not_not.mpr hsucc), ih, List.filter_cons_of_neg (by simp [hsent])]
        simp [fromFirst, hsent]
      · have hsent : isSentOn my succ circuit gone w = true := by simp [isSentOn, hrec, hsucc]
        rw [if_pos hsucc, ih, List.filter_cons_of_pos hsent]
        cases acc with
        | mk unstable pWagon len =>
          cases pWagon <;> simp [fromFirst, hsent, Nat.add_assoc]

/-- `f` with the value at `id` replaced. -/
abbrev setAt {α : Type} (f : Fin ntr → α) (id : Fin ntr) (a : α) : Fin ntr → α :=
  Function.update f id a

/-- The round under which a train is handled. -/
def nextRound (trSt : Stamp ntr) (lts : Fin ntr → Lts ntr) : Fin nr :=
  if trSt.round = (lts trSt.id).stamp.round then trSt.round + 1 else trSt.round

/-- `circuit` of the last train sent, and the updates of `cameProc`, `goneProc` and
`wagonToSend` that come with the train number 0. -/
def updateCircuit (id : Fin ntr) (circuit : Address) (p : Proc ntr) : Address × Proc ntr :=
  if id.val = 0 then
    let c := addrUpdateCircuit circuit p.cameProc p.goneProc
    (c, { p with
      cameProc := 0#16
      goneProc := 0#16
      wagonToSend := signalDepartures p.goneProc c p.wagonToSend })
  else ((p.lts ⟨0, Nat.zero_lt_of_lt id.isLt⟩).circuit, p)

def trainHandling (myAddress : Address) (t : Train ntr) (p : Proc ntr) : Proc ntr :=
  let id := t.stamp.id
  let round := nextRound t.stamp p.lts
  let stable := p.unstableWagons id (round - 2)
  let unstableWagons := setAt p.unstableWagons id
    (Function.update (p.unstableWagons id) (round - 2) [])
  let (circuit, p) := updateCircuit id t.circuit p
  let sorted := sortWagons myAddress p.succ circuit p.goneProc t.wagons
    ⟨unstableWagons id round, none, 0⟩
  let full := (firstMsg p.wagonToSend).isSome
  let own : Wagon := { p.wagonToSend with round := round }
  { p with
    wagonsToDeliver := p.wagonsToDeliver ++ stable
    unstableWagons := setAt unstableWagons id (Function.update (unstableWagons id) round
      (sorted.unstable ++ if full then [own] else []))
    lts := setAt p.lts id
      { stamp := ⟨id, t.stamp.lc + 1, round⟩
        circuit := circuit
        pWagon := sorted.pWagon
        len := sorted.len
        pWtosend := if full then some own else none }
    wagonToSend := if full then newWiw myAddress else p.wagonToSend }

/-- The wagon that a process puts on the train it handles. -/
def ownWagon (round : Fin nr) (p : Proc ntr) : Option Wagon :=
  if (firstMsg p.wagonToSend).isSome then some { p.wagonToSend with round := round } else none

/-- The wagon put on the train holds a message, so `sendTrain` adds it. -/
theorem ownSent_ownWagon (round : Fin nr) (p : Proc ntr) :
    ownSent (ownWagon round p) = (ownWagon round p).toList := by
  rw [ownWagon]
  by_cases hfull : (firstMsg p.wagonToSend).isSome
  · have hsame : (firstMsg { p.wagonToSend with round := round }).isSome := by
      rw [firstMsg_isSome_iff] at hfull ⊢
      exact hfull
    simp [ownSent, hfull, hsame]
  · simp [ownSent, hfull]

theorem updateCircuit_succ (id : Fin ntr) (circuit : Address) (p : Proc ntr) :
    (updateCircuit id circuit p).2.succ = p.succ := by
  rw [updateCircuit]
  split <;> rfl

theorem trainHandling_succ (my : Address) (t : Train ntr) (p : Proc ntr) :
    (trainHandling my t p).succ = p.succ :=
  updateCircuit_succ t.stamp.id t.circuit p

theorem trainHandling_automatonState (my : Address) (t : Train ntr) (p : Proc ntr) :
    (trainHandling my t p).automatonState = p.automatonState := by
  simp only [trainHandling, updateCircuit]
  split <;> rfl

end UniformBroadcast.Trains
