import UniformBroadcast.TrainCircuit
import UniformBroadcast.TrainRuns

/-!
# The recovery of a lost predecessor

The handler of `DISCONNECT_PRED` dials the predecessor and then the members of the circuit
downwards, until one answers or the process is alone. Those dialled in vain are taken out of
`cameProc`; a process that came after train 0 passed is not in the circuit, is jumped over
and stays in `cameProc`.
-/

namespace UniformBroadcast.Trains

open SetReplay TransitionRuns

variable {ntr : ℕ}

/-- The processes that the search dials in turn: the predecessor, and what `addrPrec` gives
from one to the next. -/
def candidates (circuit : Address) : ℕ → Address → List Address
  | 0, _ => []
  | k + 1, prec => prec :: (addrPrec prec circuit).elim [] (candidates circuit k)

section Search

variable (my : Address) (dial : Address → Bool) (p : Proc ntr)

/-- The search goes past an address: it is not that of the process and does not answer. -/
def passes (a : Address) : Bool := a != my && !dial a

/-- All that the search may dial. -/
def searched : List Address := candidates (p.lts p.lis).circuit (np + 2) p.prec

/-- The processes dialled in vain. -/
def dialledInVain : List Address := (searched p).takeWhile (passes my dial)

/-- The new predecessor, the process itself when it is alone. -/
def newPrec : Option Address := (searched p).find? (!passes my dial ·)

end Search

/-- Going up from `l` to `me` one meets `i` on the way; from `me` itself, the whole lap. -/
def Between (l i me : Fin np) : Prop :=
  0 < (me - i).val ∧ (me - i).val < if l = me then np else (me - l).val

instance (l i me : Fin np) : Decidable (Between l i me) := inferInstanceAs (Decidable (_ ∧ _))

/-- `cameProc` holds no process between the predecessor and the process, and none at all when
it is alone. -/
def NoneBypassed (me : Fin np) (q : Proc ntr) : Prop :=
  (∀ l i, q.prec = rankToAddr l.val → i ∈ members q.cameProc → ¬ Between l i me) ∧
    (q.automatonState = .aloneInsertWait → q.cameProc = 0#16)

/-- The processes of `cameProc` between the first candidate that answers and the process have
been dialled in vain. -/
def ArrivalsDialled (me : Fin np) (dial : Address → Bool) (p : Proc ntr) : Prop :=
  ∀ l i, newPrec (rankToAddr me.val) dial p = some (rankToAddr l.val) → i ∈ members p.cameProc →
    Between l i me → rankToAddr i.val ∈ dialledInVain (rankToAddr me.val) dial p

instance (me : Fin np) (q : Proc ntr) : Decidable (NoneBypassed me q) :=
  inferInstanceAs (Decidable (_ ∧ _))

instance (me : Fin np) (dial : Address → Bool) (p : Proc ntr) :
    Decidable (ArrivalsDialled me dial p) := inferInstanceAs (Decidable (∀ _ _, _ → _ → _ → _))

/-! ## The search -/

section Spec

variable {c : Config} {dial : Address → Bool} {p q : Proc ntr} {actions : List (Action ntr)}
  {found : Bool}

/-- The search ends at the new predecessor and has settled those dialled in vain. -/
theorem searchPrec_spec {k : ℕ} (h : searchPrec c dial k p = some (q, actions, found)) :
    let tried := candidates (p.lts p.lis).circuit k p.prec
    tried.find? (!passes c.myAddress dial ·) = some q.prec ∧
    (found = true ↔ q.prec ≠ c.myAddress) ∧
    (q.cameProc, q.goneProc) = (tried.takeWhile (passes c.myAddress dial)).foldl
      (fun acc a => addrAppendGone acc.1 acc.2 a) (p.cameProc, p.goneProc) := by
  induction k generalizing p actions with
  | zero => cases h
  | succ k ih =>
    rw [searchPrec] at h
    by_cases hmy : p.prec = c.myAddress
    · have hpass : passes c.myAddress dial p.prec = false := by simp [passes, hmy]
      rw [if_pos hmy] at h
      cases h
      simp only [candidates, List.find?_cons, List.takeWhile_cons, hpass]
      exact ⟨rfl, by simp [hmy], rfl⟩
    · rw [if_neg hmy] at h
      by_cases hdial : dial p.prec = true
      · have hpass : passes c.myAddress dial p.prec = false := by simp [passes, hdial]
        rw [if_pos hdial] at h
        cases h
        simp only [candidates, List.find?_cons, List.takeWhile_cons, hpass]
        exact ⟨rfl, by simp [hmy], rfl⟩
      · have hpass : passes c.myAddress dial p.prec = true := by simp [passes, hdial, hmy]
        rw [if_neg hdial] at h
        obtain ⟨prec, hprec, h⟩ := Option.bind_eq_some_iff.mp h
        obtain ⟨⟨q', actions', found'⟩, hrest, h⟩ := Option.bind_eq_some_iff.mp h
        cases h
        obtain ⟨hfind, hfound, haccount⟩ := ih hrest
        simp only [candidates, hprec, Option.elim_some, List.find?_cons, hpass,
          List.takeWhile_cons]
        exact ⟨hfind, hfound, haccount⟩

end Spec

theorem rankToAddr_injective {i j : Fin np} (h : rankToAddr i.val = rankToAddr j.val) : i = j := by
  have hbit := rankToAddr_getLsbD j i
  rw [← h, rankToAddr_getLsbD] at hbit
  simpa using hbit

/-- The address of one process. -/
def OneBit (a : Address) : Prop := ∃ i : Fin np, a = rankToAddr i.val

theorem addrPrec_oneBit {a circuit prec : Address} (h : addrPrec a circuit = some prec) :
    OneBit prec := by
  obtain ⟨rank, -, hfind⟩ := Option.bind_eq_some_iff.mp h
  obtain ⟨k, -, rfl⟩ := List.mem_map.mp (List.mem_of_find?_eq_some hfind)
  exact ⟨⟨(rank + k * (np - 1)) % np, Nat.mod_lt _ (by decide)⟩, rfl⟩

theorem candidates_oneBit {circuit prec : Address} (hprec : OneBit prec) (k : ℕ) :
    ∀ a ∈ candidates circuit k prec, OneBit a := by
  induction k generalizing prec with
  | zero => simp [candidates]
  | succ k ih =>
    intro a ha
    rcases List.mem_cons.mp ha with rfl | ha
    · exact hprec
    · cases hnext : addrPrec prec circuit with
      | none => simp [hnext] at ha
      | some next =>
        rw [hnext] at ha
        exact ih (addrPrec_oneBit hnext) a ha

/-- Those that are gone are taken out of the arrivals. -/
theorem mem_foldl_addrAppendGone {ads : List Address} (hads : ∀ a ∈ ads, OneBit a)
    (acc : Address × Address) (i : Fin np) :
    i ∈ members (ads.foldl (fun acc a => addrAppendGone acc.1 acc.2 a) acc).1 ↔
      i ∈ members acc.1 ∧ rankToAddr i.val ∉ ads := by
  induction ads generalizing acc with
  | nil => simp
  | cons a ads ih =>
    obtain ⟨j, rfl⟩ := hads a List.mem_cons_self
    have hone : i ∈ members (addrAppendGone acc.1 acc.2 (rankToAddr j.val)).1 ↔
        i ∈ members acc.1 ∧ rankToAddr i.val ≠ rankToAddr j.val := by
      have hne : rankToAddr i.val ≠ rankToAddr j.val ↔ i ≠ j :=
        not_congr ⟨rankToAddr_injective, congrArg fun i : Fin np => rankToAddr i.val⟩
      rw [hne, addrAppendGone, addrIsMember_rankToAddr, mem_members, mem_members]
      split
      · rename_i hj
        rw [BitVec.getLsbD_xor, rankToAddr_getLsbD]
        by_cases hij : i = j
        · subst hij
          simp [hj]
        · simp [hij]
      · rename_i hj
        constructor
        · intro hi
          refine ⟨hi, ?_⟩
          rintro rfl
          exact hj hi
        · exact And.left
    rw [List.foldl_cons, ih (fun a ha => hads a (List.mem_cons_of_mem _ ha)), hone, List.mem_cons,
      not_or, and_assoc]

/-! ## The predecessor and the arrivals -/

/-- The addresses in the messages are those of processes, and no process inserts itself at
itself. -/
def Addressed (me : Fin np) : ProcEvent ntr → Prop
  | .message _ (.insert a) => ∃ i, i ≠ me ∧ a = rankToAddr i.val
  | .message _ (.ackInsert a) => OneBit a
  | _ => True

/-- A process that is in the circuit, or confirmed, has a predecessor; it is not among its own
arrivals. -/
structure Placed (me : Fin np) (p : Proc ntr) : Prop where
  prec : p.automatonState = .offlineConnectionAttempt ∨ p.automatonState = .wait ∨ OneBit p.prec
  came : me ∉ members p.cameProc

theorem trainHandling_prec (my : Address) (t : Train ntr) (p : Proc ntr) :
    (trainHandling my t p).prec = p.prec := by
  simp only [trainHandling, updateCircuit]
  split <;> rfl

/-- Train 0 takes the arrivals with it. -/
theorem trainHandling_cameProc (my : Address) (t : Train ntr) (p : Proc ntr) :
    (trainHandling my t p).cameProc = if t.stamp.id.val = 0 then 0#16 else p.cameProc := by
  simp only [trainHandling, updateCircuit]
  split <;> rfl

section Handler

variable {c : Config} {dial : Address → Bool} {p q : Proc ntr} {actions : List (Action ntr)}

/-- How the handler of `DISCONNECT_PRED` ends: where the search ended. -/
theorem disconnectPred_spec {a : Address}
    (h : several c dial (.disconnectPred a) p = some (q, actions)) :
    newPrec c.myAddress dial p = some q.prec ∧
    (q.automatonState = .several ∨ q.automatonState = .aloneInsertWait) ∧
    (q.automatonState = .aloneInsertWait ↔ q.prec = c.myAddress) ∧
    q.cameProc = ((dialledInVain c.myAddress dial p).foldl
      (fun acc a => addrAppendGone acc.1 acc.2 a) (p.cameProc, p.goneProc)).1 := by
  obtain ⟨⟨r, opens, found⟩, hsearch, h⟩ := Option.bind_eq_some_iff.mp h
  obtain ⟨hfind, hfound, haccount⟩ := searchPrec_spec hsearch
  have hcame := congrArg Prod.fst haccount
  cases found with
  | true =>
    cases h
    have hother : r.prec ≠ c.myAddress := hfound.mp rfl
    exact ⟨hfind, .inl rfl, by simp [hother], hcame⟩
  | false =>
    have halone : r.prec = c.myAddress := by
      by_contra hne
      cases hfound.mpr hne
    rw [halone] at hfind
    cases h
    refine ⟨hfind, .inr rfl, by simp, ?_⟩
    obtain ⟨delivered, unstable, hflush⟩ := flush_frame { r with
      goneProc := 0#16
      wagonToSend := signalDepartures r.goneProc (r.lts r.lis).circuit r.wagonToSend }
    rw [deliverWagonToSend, hflush]
    exact hcame

variable {me : Fin np} {m : Msg ntr}

theorem oneBit_myAddress (hme : c.myAddress = rankToAddr me.val) : OneBit c.myAddress := ⟨me, hme⟩

theorem placed_offlineInit (hme : c.myAddress = rankToAddr me.val) (hcame : me ∉ members p.cameProc)
    (h : offlineInit c dial p = some (q, actions)) : Placed me q := by
  obtain ⟨succ, rfl | rfl⟩ := offlineInit_cases h
  · exact ⟨.inl rfl, hcame⟩
  · exact ⟨.inr (.inr (oneBit_myAddress hme)), hcame⟩

/-- What a transition needs of the predecessor. -/
theorem placed_nextState {s : State} (hme : c.myAddress = rankToAddr me.val)
    (hcame : me ∉ members p.cameProc) (hprec : s ≠ .wait → OneBit p.prec)
    (h : nextState c dial s p = some (q, actions)) : Placed me q := by
  cases s with
  | offlineConnectionAttempt => exact placed_offlineInit hme hcame h
  | wait =>
    obtain ⟨⟨r, closes⟩, hwait, h⟩ := Option.bind_eq_some_iff.mp h
    cases h
    rw [waitBeforeConnect] at hwait
    split at hwait
    · cases hwait
    · cases hwait
      exact ⟨.inr (.inl rfl), hcame⟩
  | aloneInsertWait =>
    cases h
    exact ⟨.inr (.inr (oneBit_myAddress hme)), hcame⟩
  | offlineConfirmationWait | aloneConnectionWait | several =>
    cases h
    exact ⟨.inr (.inr (hprec (by decide))), hcame⟩

theorem placed_offlineConnectionAttempt (hme : c.myAddress = rankToAddr me.val)
    (hm : Addressed me (.message dial m)) (hp : p.automatonState = .offlineConnectionAttempt)
    (hcame : me ∉ members p.cameProc)
    (h : offlineConnectionAttempt c dial m p = some (q, actions)) : Placed me q := by
  cases m with
  | nakInsert | disconnectPred | disconnectSucc =>
    rw [offlineConnectionAttempt] at h
    exact placed_nextState hme hcame (by simp) h
  | insert sender =>
    cases h
    exact ⟨.inl hp, hcame⟩
  | ackInsert sender =>
    rw [offlineConnectionAttempt] at h
    obtain ⟨⟨r, more⟩, hnext, h⟩ := Option.bind_eq_some_iff.mp h
    cases h
    refine placed_nextState hme ?_ ?_ hnext
    · exact hcame
    · exact fun _ => hm
  | train | newSucc => cases h

theorem placed_offlineConfirmationWait (hme : c.myAddress = rankToAddr me.val)
    (hprec : OneBit p.prec) (hcame : me ∉ members p.cameProc)
    (h : offlineConfirmationWait c dial m p = some (q, actions)) : Placed me q := by
  cases m with
  | newSucc | disconnectPred | disconnectSucc =>
    rw [offlineConfirmationWait] at h
    exact placed_nextState hme hcame (by simp) h
  | insert =>
    cases h
    exact ⟨.inr (.inr hprec), hcame⟩
  | train stamp circuit wagons =>
    rw [offlineConfirmationWait] at h
    obtain ⟨w, -, hsome⟩ := Option.bind_eq_some_iff.mp h
    dsimp only at hsome
    split at hsome
    · obtain ⟨⟨r, more⟩, hnext, hsome⟩ := Option.bind_eq_some_iff.mp hsome
      cases hsome
      refine placed_nextState hme ?_ ?_ hnext
      · exact hcame
      · exact fun _ => hprec
    · cases hsome
      exact ⟨.inr (.inr hprec), hcame⟩
  | ackInsert | nakInsert => cases h

theorem placed_aloneInsertWait (hme : c.myAddress = rankToAddr me.val)
    (hm : Addressed me (.message dial m)) (hprec : OneBit p.prec) (hcame : me ∉ members p.cameProc)
    (h : aloneInsertWait c dial m p = some (q, actions)) : Placed me q := by
  cases m with
  | disconnectPred | disconnectSucc =>
    cases h
    exact ⟨.inr (.inr hprec), hcame⟩
  | insert sender =>
    rw [aloneInsertWait] at h
    obtain ⟨⟨r, more⟩, hnext, h⟩ := Option.bind_eq_some_iff.mp h
    cases h
    obtain ⟨i, -, hi⟩ := hm
    refine placed_nextState hme ?_ ?_ hnext
    · exact hcame
    · exact fun _ => ⟨i, hi⟩
  | train | ackInsert | nakInsert | newSucc => cases h

theorem placed_aloneConnectionWait (hme : c.myAddress = rankToAddr me.val)
    (hprec : OneBit p.prec) (hcame : me ∉ members p.cameProc)
    (h : aloneConnectionWait c dial m p = some (q, actions)) : Placed me q := by
  cases m with
  | disconnectPred =>
    rw [aloneConnectionWait] at h
    exact placed_nextState hme hcame (fun _ => hprec) h
  | insert =>
    cases h
    exact ⟨.inr (.inr hprec), hcame⟩
  | newSucc sender =>
    rw [aloneConnectionWait] at h
    obtain ⟨⟨r, more⟩, hnext, h⟩ := Option.bind_eq_some_iff.mp h
    cases h
    refine placed_nextState hme ?_ ?_ hnext
    · exact hcame
    · exact fun _ => hprec
  | train | ackInsert | nakInsert | disconnectSucc => cases h

theorem placed_several
    (hm : Addressed me (.message dial m)) (hprec : OneBit p.prec) (hcame : me ∉ members p.cameProc)
    (h : several c dial m p = some (q, actions)) : Placed me q := by
  cases m with
  | train stamp circuit wagons =>
    rw [several] at h
    split at h
    · split at h
      · obtain ⟨w, rfl, h⟩ := Option.bind_eq_some_iff.mp h
        cases h
        constructor
        · exact .inr (.inr (by rwa [trainHandling_prec]))
        · rw [trainHandling_cameProc]
          split
          · simp
          · exact hcame
      · cases h
        exact ⟨.inr (.inr hprec), hcame⟩
    · cases h
  | insert sender =>
    cases h
    obtain ⟨i, hi, rfl⟩ := hm
    refine ⟨.inr (.inr ⟨i, rfl⟩), ?_⟩
    rw [mem_members] at hcame ⊢
    rw [addrAppendArrived, BitVec.getLsbD_or, rankToAddr_getLsbD]
    simp [hcame, hi.symm]
  | newSucc | disconnectSucc =>
    cases h
    exact ⟨.inr (.inr hprec), hcame⟩
  | disconnectPred sender =>
    obtain ⟨hfirst, -, -, hgone⟩ := disconnectPred_spec h
    have hones : ∀ a ∈ searched p, OneBit a := candidates_oneBit hprec (np + 2)
    constructor
    · exact .inr (.inr (hones q.prec (List.mem_of_find?_eq_some hfirst)))
    · rw [hgone, mem_foldl_addrAppendGone]
      · exact fun h => hcame h.1
      · intro a ha
        exact hones a (List.takeWhile_subset _ ha)
  | ackInsert | nakInsert => cases h

theorem placed_step {e : ProcEvent ntr} (hme : c.myAddress = rankToAddr me.val)
    (hp : Placed me p) (he : Addressed me e) (h : procStep c p e = some q) : Placed me q := by
  obtain ⟨hprec, hcame⟩ := hp
  cases e with
  | message dial m =>
    obtain ⟨⟨r, actions⟩, hm, rfl⟩ := Option.map_eq_some_iff.mp h
    rw [stateMachine] at hm
    split at hm
    · rename_i hs
      exact placed_offlineConnectionAttempt hme he hs hcame hm
    all_goals
      rename_i hs
      rw [hs] at hprec
    · exact placed_offlineConfirmationWait hme (by simpa using hprec) hcame hm
    · cases hm
      exact ⟨.inr (.inl hs), hcame⟩
    · exact placed_aloneInsertWait hme he (by simpa using hprec) hcame hm
    · exact placed_aloneConnectionWait hme (by simpa using hprec) hcame hm
    · exact placed_several he (by simpa using hprec) hcame hm
  | wake dial =>
    rw [procStep] at h
    split at h
    · obtain ⟨⟨r, actions⟩, hinit, rfl⟩ := Option.map_eq_some_iff.mp h
      rw [sleepTreatment] at hinit
      refine placed_offlineInit hme ?_ hinit
      exact hcame
    · cases h
  | broadcast mp =>
    rw [procStep, broadcast] at h
    split at h
    · cases h
    · cases h
      split
      · exact ⟨hprec, hcame⟩
      · exact ⟨hprec, hcame⟩

theorem placed_run {hntr : 0 < ntr} {dial₀ : Address → Bool} {p₀ : Proc ntr}
    {started : List (Action ntr)} {es : List (ProcEvent ntr)}
    (hme : c.myAddress = rankToAddr me.val)
    (hinit : automatonInit c dial₀ hntr = some (p₀, started)) (hes : ∀ e ∈ es, Addressed me e)
    (hrun : exec (procStep c) p₀ es = some p) : Placed me p := by
  have hstart : Placed me p₀ := placed_offlineInit hme (by simp [Proc.initial]) hinit
  have halong : Along (procStep c) (fun _ e => Addressed me e) p₀ es :=
    along_of_forall (fun e he _ => hes e he) p₀
  exact exec_invariant_along (fun _ _ _ => placed_step hme) hstart halong hrun

end Handler

/-! ## Arrivals that the recovery jumps over -/

/-- The handler of `DISCONNECT_PRED` leaves none in `cameProc` exactly when it has dialled
them all. -/
theorem recovery_forgets_bypassed {c : Config} {me : Fin np} {hntr : 0 < ntr}
    {dial₀ dial : Address → Bool} {p₀ p q : Proc ntr} {started actions : List (Action ntr)}
    {es : List (ProcEvent ntr)} {a : Address} (hme : c.myAddress = rankToAddr me.val)
    (hinit : automatonInit c dial₀ hntr = some (p₀, started)) (hes : ∀ e ∈ es, Addressed me e)
    (hrun : exec (procStep c) p₀ es = some p) (hseveral : p.automatonState = .several)
    (h : stateMachine c dial (.disconnectPred a) p = some (q, actions)) :
    NoneBypassed me q ↔ ArrivalsDialled me dial p := by
  have hp := placed_run hme hinit hes hrun
  have hq : Placed me q :=
    placed_step (e := .message dial (.disconnectPred a)) hme hp trivial (by simp [procStep, h])
  have hprec : OneBit p.prec := by simpa [hseveral] using hp.prec
  rw [stateMachine, hseveral] at h
  obtain ⟨hfirst, -, halone, hcame⟩ := disconnectPred_spec h
  rw [hme] at hfirst halone hcame
  have hleft : ∀ i, i ∈ members q.cameProc ↔
      i ∈ members p.cameProc ∧ rankToAddr i.val ∉ dialledInVain (rankToAddr me.val) dial p := by
    intro i
    rw [hcame, mem_foldl_addrAppendGone]
    intro a ha
    exact candidates_oneBit hprec _ a (List.takeWhile_subset _ ha)
  constructor
  · rintro ⟨hnone, -⟩ l i hl hi hbetween
    rw [hfirst] at hl
    by_contra hin
    exact hnone l i (Option.some.inj hl) ((hleft i).mpr ⟨hi, hin⟩) hbetween
  · intro hdialled
    have hnone : ∀ l i, q.prec = rankToAddr l.val → i ∈ members q.cameProc →
        ¬ Between l i me := by
      intro l i hl hi hbetween
      obtain ⟨hi, hin⟩ := (hleft i).mp hi
      exact hin (hdialled l i (by rw [hfirst, hl]) hi hbetween)
    refine ⟨hnone, ?_⟩
    intro hwaits
    apply members_injective
    ext i
    constructor
    · intro hi
      have hne : i ≠ me := by
        rintro rfl
        exact hq.came hi
      have hbetween : Between me i me := by
        have hpos : (me - i).val ≠ 0 := by
          have hi' : i.val < 16 := i.isLt
          have hme' : me.val < 16 := me.isLt
          have hval := Fin.val_ne_of_ne hne
          rw [Fin.val_sub]
          change (16 - i.val + me.val) % 16 ≠ 0
          omega
        exact ⟨Nat.pos_of_ne_zero hpos, by rw [if_pos rfl]; exact (me - i).isLt⟩
      exact absurd hbetween (hnone me i (halone.mp hwaits) hi)
    · simp

/-- Process 4. -/
def fourth : Config := ⟨rankToAddr 4, 3, 8⟩

/-- Process 4 when it starts. -/
def fourthStart : Proc 1 × List (Action 1) :=
  (automatonInit fourth (fun _ => false) Nat.one_pos).get (by decide)

def fourthAlone : Proc 1 := fourthStart.1

theorem automatonInit_fourth :
    automatonInit fourth (fun _ => false) Nat.one_pos = some (fourthAlone, fourthStart.2) := by
  rw [fourthAlone, fourthStart, Prod.mk.eta, Option.some_get]

/-- Process 4 takes in process 0, then others insert themselves. -/
def insertions (ranks : List (Fin np)) : List (ProcEvent 1) :=
  ([Msg.insert (rankToAddr 0), Msg.newSucc (rankToAddr 0)] ++
    ranks.map fun i : Fin np => Msg.insert (rankToAddr i.val)).map (.message fun _ => false)

theorem addressed_insertions {ranks : List (Fin np)} (hranks : 4 ∉ ranks) :
    ∀ e ∈ insertions ranks, Addressed 4 e := by
  intro e he
  obtain ⟨m, hm, rfl⟩ := List.mem_map.mp he
  rcases List.mem_append.mp hm with hm | hm
  · rcases List.mem_pair.mp hm with rfl | rfl
    · exact ⟨0, by decide, rfl⟩
    · trivial
  · obtain ⟨i, hi, rfl⟩ := List.mem_map.mp hm
    exact ⟨i, fun h => hranks (h ▸ hi), rfl⟩

/-- Process 2 has crashed, the others answer. -/
def secondCrashed (a : Address) : Bool := a != rankToAddr 2

/-- Process 2 inserts itself and crashes. -/
theorem recovery_forgets_second : ∃ p q,
    exec (procStep fourth) fourthAlone (insertions [2]) = some p ∧
    (stateMachine fourth secondCrashed (.disconnectPred (rankToAddr 2)) p).map Prod.fst = some q ∧
    NoneBypassed 4 q := by
  have hrun : (exec (procStep fourth) fourthAlone (insertions [2])).isSome := by decide
  obtain ⟨p, hp⟩ := Option.isSome_iff_exists.mp hrun
  have hseveral : ∀ p ∈ exec (procStep fourth) fourthAlone (insertions [2]),
      p.automatonState = .several ∧ ArrivalsDialled 4 secondCrashed p ∧
        (stateMachine fourth secondCrashed (.disconnectPred (rankToAddr 2)) p).isSome := by
    decide
  obtain ⟨hstate, hdialled, hsome⟩ := hseveral p hp
  obtain ⟨⟨q, actions⟩, hq⟩ := Option.isSome_iff_exists.mp hsome
  refine ⟨p, q, hp, by rw [hq]; rfl, ?_⟩
  have haddressed := addressed_insertions (show 4 ∉ ([2] : List (Fin np)) by decide)
  exact (recovery_forgets_bypassed rfl automatonInit_fourth haddressed hp hstate hq).mpr hdialled

/-- Process 1 inserts itself, process 2 does and crashes: process 1 is jumped over. -/
theorem not_recovery_forgets_bypassed : ∃ p q,
    exec (procStep fourth) fourthAlone (insertions [1, 2]) = some p ∧
    p.automatonState = .several ∧
    (stateMachine fourth secondCrashed (.disconnectPred (rankToAddr 2)) p).map Prod.fst = some q ∧
    q.prec = rankToAddr 0 ∧ ¬ NoneBypassed 4 q := by
  have hrun : (exec (procStep fourth) fourthAlone (insertions [1, 2])).isSome := by decide
  obtain ⟨p, hp⟩ := Option.isSome_iff_exists.mp hrun
  have hall : ∀ p ∈ exec (procStep fourth) fourthAlone (insertions [1, 2]),
      p.automatonState = .several ∧
      ((stateMachine fourth secondCrashed (.disconnectPred (rankToAddr 2)) p).map
        Prod.fst).isSome ∧
      ∀ q ∈ (stateMachine fourth secondCrashed (.disconnectPred (rankToAddr 2)) p).map Prod.fst,
        q.prec = rankToAddr 0 ∧ ¬ NoneBypassed 4 q := by
    decide
  obtain ⟨hstate, hsome, hprec⟩ := hall p hp
  obtain ⟨q, hq⟩ := Option.isSome_iff_exists.mp hsome
  exact ⟨p, q, hp, hstate, hq, hprec q hq⟩

end UniformBroadcast.Trains
