import UniformBroadcast.TrainIndexes
import UniformBroadcast.TrainRuns

/-!
# The automaton over bytes follows the automaton

Every step of a process whose numbers are in the bounds of their types is one of the process
whose numbers are bytes, so the arrays over trains and rounds are functions without loss.
-/

namespace UniformBroadcast.Trains.Indexes

open TransitionRuns

variable {ntr : ℕ}

/-! ## Messages and states as bytes -/

def stampBytes (st : Trains.Stamp ntr) : Stamp :=
  ⟨BitVec.ofNat 8 st.id.val, st.lc, BitVec.ofNat 8 st.round.val⟩

def msgOf : Trains.Msg ntr → Msg
  | .train st circuit wagons =>
    .train (stampBytes st) circuit ((wagons.getD []).map Wagon.sender)
  | .insert sender => .insert sender
  | .ackInsert sender => .ackInsert sender
  | .nakInsert _ => .nakInsert
  | .disconnectPred _ => .disconnectPred
  | .disconnectSucc _ => .disconnectSucc
  | .newSucc sender => .newSucc sender

def eventOf : ProcEvent ntr → Event
  | .message dial m => .message dial (msgOf m)
  | .wake dial => .wake dial
  | .broadcast _ => .broadcast

def ltsOf (l : Trains.Lts ntr) : Lts := ⟨stampBytes l.stamp, l.circuit⟩

/-- The same process, its last trains being found at their numbers. -/
structure AsBytes (p : Trains.Proc ntr) (q : Proc) : Prop where
  automatonState : q.automatonState = p.automatonState
  prec : q.prec = p.prec
  succ : q.succ = p.succ
  cameProc : q.cameProc = p.cameProc
  goneProc : q.goneProc = p.goneProc
  waitNb : q.waitNb = p.waitNb
  lis : q.lis = p.lis.val
  lts : ∀ id : Fin ntr, q.lts id.val = ltsOf (p.lts id)
  own : ∀ id, (p.lts id).stamp.id = id
  hasMsg : q.hasMsg = (firstMsg p.wagonToSend).isSome

/-! ## Numbers -/

section Numbers

theorem toInt_ofNat_of_lt {n : ℕ} (h : n < 128) : (BitVec.ofNat 8 n).toInt = n := by
  rw [← BitVec.ofInt_natCast]
  exact toInt_ofInt_of_lt (Int.natCast_nonneg n) (by omega)

theorem stampBytes_id (hmax : ntr ≤ maxNtr) (st : Trains.Stamp ntr) :
    (stampBytes st).id.toInt = st.id.val := by
  have hid := st.id.isLt
  rw [maxNtr] at hmax
  exact toInt_ofNat_of_lt (by omega)

theorem stampBytes_round (st : Trains.Stamp ntr) : (stampBytes st).round.toInt = st.round.val :=
  toInt_ofNat_of_lt (st.round.isLt.trans (by decide))

theorem waitingId_val (hmax : ntr ≤ maxNtr) (lis : Fin ntr) :
    waitingId ntr lis.val = (idPlus lis 1).val := by
  have hlis := lis.isLt
  rw [maxNtr] at hmax
  rw [waitingId, toInt_ofInt_of_lt (by omega) (by omega), idPlus,
    Int.tmod_eq_emod_of_nonneg (by omega)]
  rfl

/-- A loop that updates each train of a list once. -/
theorem foldl_update {ids : List ℤ} (hids : ids.Nodup) (f : Lts → Lts) (lts : ℤ → Lts) (id : ℤ) :
    ids.foldl (fun lts id => Function.update lts id (f (lts id))) lts id =
      if id ∈ ids then f (lts id) else lts id := by
  induction ids generalizing lts with
  | nil => rfl
  | cons i ids ih =>
    obtain ⟨hi, hids⟩ := List.nodup_cons.mp hids
    rw [List.foldl_cons, ih hids]
    by_cases heq : id = i
    · subst heq
      simp [hi]
    · simp [heq]

theorem trains_nodup (ntr : ℤ) : (trains ntr).Nodup :=
  List.nodup_range.map Nat.cast_injective

theorem trainsAfter_nodup {ntr lis : ℤ} (hntr : 0 < ntr) (hlis : 0 ≤ lis) :
    (trainsAfter ntr lis).Nodup := by
  have hsubset : trains ntr ⊆ trainsAfter ntr lis := by
    intro id hid
    exact (mem_trainsAfter hntr hlis).mpr (mem_trains.mp hid)
  have hlength : (trainsAfter ntr lis).length ≤ (trains ntr).length := by
    simp [trains, trainsAfter]
  have hperm := ((trains_nodup ntr).subperm hsubset).perm_of_length_le hlength
  exact hperm.nodup_iff.mp (trains_nodup ntr)

end Numbers

/-! ## The functions of the automaton -/

section Functions

variable {c : Config} {dial : Address → Bool} {p p' : Trains.Proc ntr} {q : Proc}

theorem AsBytes.lts_stamp (h : AsBytes p q) (id : Fin ntr) :
    (q.lts id.val).stamp = stampBytes (p.lts id).stamp := by
  rw [h.lts]
  rfl

theorem AsBytes.isInLts (h : AsBytes p q) (ad : Address) :
    isInLts ntr ad q.lts = Trains.isInLts ad p.lts := by
  rw [Bool.eq_iff_iff, Indexes.isInLts, Trains.isInLts, List.all_eq_true, List.all_eq_true]
  constructor
  · intro hall id _
    have hid := hall id.val (mem_trains.mpr ⟨by omega, by omega⟩)
    rw [h.lts] at hid
    exact hid
  · intro hall id hid
    obtain ⟨hpos, hlt⟩ := mem_trains.mp hid
    have hcast : ((⟨id.toNat, by omega⟩ : Fin ntr).val : ℤ) = id := Int.toNat_of_nonneg hpos
    rw [← hcast, h.lts]
    exact hall _ (List.mem_finRange _)

theorem AsBytes.isRecentTrain (hmax : ntr ≤ maxNtr) (h : AsBytes p q) (st : Trains.Stamp ntr) :
    isRecentTrain ntr (stampBytes st) q = Trains.isRecentTrain st p.lts p.lis := by
  rw [Indexes.isRecentTrain, Trains.isRecentTrain, h.lis, waitingId_val hmax, stampBytes_id hmax,
    h.lts]
  simp only [Nat.cast_inj, Fin.val_inj]
  rfl

theorem AsBytes.handledRound (hmax : ntr ≤ maxNtr) (h : AsBytes p q) (st : Trains.Stamp ntr) :
    handledRound (stampBytes st) q = (nextRound st p.lts).val := by
  rw [Indexes.handledRound, nextRound, stampBytes_id hmax, h.lts_stamp, stampBytes_round,
    stampBytes_round]
  simp only [Nat.cast_inj, Fin.val_inj]
  split
  · rw [Int.tmod_eq_emod_of_nonneg (by omega), Fin.val_add]
    rfl
  · rfl

/-- A set of addresses that is not empty has a member. -/
theorem exists_addrIsMember {adSet : Address} (h : adSet ≠ 0#16) :
    ∃ rank < np, addrIsMember (rankToAddr rank) adSet = true := by
  by_contra hnone
  push Not at hnone
  refine h (BitVec.eq_of_getLsbD_eq fun rank hrank => ?_)
  have hbit := hnone rank hrank
  rw [addrIsMember_rankToAddr ⟨rank, hrank⟩] at hbit
  simpa using hbit

/-- Some process is signalled when some have gone. -/
theorem signalDepartures_isSome (gone circuit : Address) (w : Wagon) :
    (firstMsg (signalDepartures gone circuit w)).isSome =
      ((firstMsg w).isSome || gone != 0#16) := by
  have hfold : ∀ (ads : List Address) (w : Wagon), (firstMsg (ads.foldl (fun w ad =>
      signalArrivalDepartures amDeparture ad (circuit &&& ~~~gone) w) w)).isSome =
        ((firstMsg w).isSome || !ads.isEmpty) := by
    intro ads
    induction ads with
    | nil => simp
    | cons ad ads ih =>
      intro w
      have hfull : (firstMsg
          (signalArrivalDepartures amDeparture ad (circuit &&& ~~~gone) w)).isSome = true :=
        (firstMsg_isSome_iff _).mpr (by simp [signalArrivalDepartures, mallocWiw])
      rw [List.foldl_cons, ih, hfull]
      simp
  rw [signalDepartures]
  split
  · rename_i hgone
    obtain ⟨rank, hrank, hmember⟩ := exists_addrIsMember hgone
    have hfilter : ((List.range np).map rankToAddr).filter (addrIsMember · gone) ≠ [] :=
      List.ne_nil_of_mem (List.mem_filter.mpr
        ⟨List.mem_map_of_mem (List.mem_range.mpr hrank), hmember⟩)
    rw [hfold, List.isEmpty_eq_false_iff.mpr hfilter]
    simp [hgone]
  · rename_i hgone
    simp [not_not.mp hgone]

/-! ## The treatments -/

/-- The last train sent under a number is replaced in both. -/
theorem ltsOf_update {lts : Fin ntr → Trains.Lts ntr} {lts' : ℤ → Lts}
    (h : ∀ id : Fin ntr, lts' id.val = ltsOf (lts id)) (id : Fin ntr) {n : ℤ} (hn : n = id.val)
    (l : Trains.Lts ntr) {l' : Lts} (hl : l' = ltsOf l) (i : Fin ntr) :
    Function.update lts' n l' i.val = ltsOf (setAt lts id l i) := by
  subst hn hl
  rw [setAt]
  by_cases hi : i = id
  · subst hi
    rw [Function.update_self, Function.update_self]
  · have hne : (i.val : ℤ) ≠ id.val := fun heq => hi (Fin.ext (by exact_mod_cast heq))
    rw [Function.update_of_ne hne, Function.update_of_ne hi, h]

theorem own_update {lts : Fin ntr → Trains.Lts ntr} (h : ∀ id, (lts id).stamp.id = id)
    {id : Fin ntr} {l : Trains.Lts ntr} (hl : l.stamp.id = id) (i : Fin ntr) :
    (setAt lts id l i).stamp.id = i := by
  rw [setAt]
  by_cases hi : i = id
  · subst hi
    rw [Function.update_self, hl]
  · rw [Function.update_of_ne hi, h]

theorem AsBytes.offlineInit (h : AsBytes p q) {actions : List (Action ntr)}
    (hp : Trains.offlineInit c dial p = some (p', actions)) :
    ∃ q', offlineInit c dial q = some q' ∧ AsBytes p' q' := by
  rw [Trains.offlineInit] at hp
  obtain ⟨rank, hrank, hp⟩ := Option.bind_eq_some_iff.mp hp
  have hsucc : (searchSucc c dial (ranksAfter rank) : List (Action ntr) × Address).2 =
      (((ranksAfter rank).map rankToAddr).find? dial).getD c.myAddress := by
    rw [searchSucc_snd, List.find?_map]
    rfl
  rw [Indexes.offlineInit, hrank, Option.map_some, ← hsucc]
  refine ⟨_, rfl, ?_⟩
  dsimp only at hp ⊢
  split at hp
  · rename_i halone
    cases hp
    rw [if_pos halone]
    exact { h with automatonState := rfl, prec := rfl, succ := rfl, hasMsg := rfl }
  · rename_i halone
    cases hp
    rw [if_neg halone]
    exact { h with automatonState := rfl, succ := rfl }

theorem AsBytes.waitBeforeConnect (h : AsBytes p q) {actions : List (Action ntr)}
    (hp : nextState c dial .wait p = some (p', actions)) :
    ∃ q', waitBeforeConnect c q = some q' ∧ AsBytes p' q' := by
  rw [nextState] at hp
  obtain ⟨⟨r, more⟩, hr, hp⟩ := Option.bind_eq_some_iff.mp hp
  cases hp
  rw [Trains.waitBeforeConnect] at hr
  split at hr
  · cases hr
  · rename_i hmax
    cases hr
    rw [Indexes.waitBeforeConnect, if_neg (by rwa [h.waitNb])]
    exact ⟨_, rfl, { h with automatonState := rfl, prec := rfl, succ := rfl }⟩

theorem AsBytes.updateCircuit (h : AsBytes p q) (id : Fin ntr) (circuit : Address) {n : ℤ}
    (hn : n = id.val) :
    (updateCircuit n circuit q).1 = (Trains.updateCircuit id circuit p).1 ∧
      AsBytes (Trains.updateCircuit id circuit p).2 (updateCircuit n circuit q).2 := by
  subst hn
  rw [Indexes.updateCircuit, Trains.updateCircuit]
  by_cases hzero : id.val = 0
  · rw [if_pos hzero, if_pos (by exact_mod_cast hzero), h.cameProc, h.goneProc]
    refine ⟨rfl, { h with cameProc := rfl, goneProc := rfl, hasMsg := ?_ }⟩
    rw [signalDepartures_isSome, h.hasMsg]
  · rw [if_neg hzero, if_neg (by exact_mod_cast hzero)]
    have hlts := h.lts ⟨0, Nat.zero_lt_of_lt id.isLt⟩
    exact ⟨congrArg Lts.circuit hlts, h⟩

theorem AsBytes.trainHandling (hmax : ntr ≤ maxNtr) (h : AsBytes p q) (st : Trains.Stamp ntr)
    (circuit : Address) (wagons : List Wagon) (senders : List Address) :
    AsBytes (Trains.trainHandling c.myAddress ⟨st, circuit, wagons⟩ p)
      (trainHandling c (stampBytes st) circuit senders q).2 := by
  have hid := stampBytes_id hmax st
  have hround := h.handledRound hmax st
  obtain ⟨hcircuit, hbytes⟩ := h.updateCircuit st.id circuit hid
  have hstored := hbytes.lts_stamp st.id
  rw [← hid] at hstored
  rw [Indexes.trainHandling, Trains.trainHandling]
  dsimp only
  exact { hbytes with
    lts := by
      apply ltsOf_update hbytes.lts st.id hid
      rw [hcircuit, hround, hstored, stampBytes, hbytes.own, BitVec.ofInt_natCast]
      rfl
    own := own_update hbytes.own rfl
    hasMsg := by
      dsimp only
      split
      · rfl
      · rename_i hempty
        exact (Bool.not_eq_true _ ▸ hempty).symm }

/-- The loop on `prec` dials the same processes and ends in the same way. -/
theorem AsBytes.searchPrec {fuel : ℕ} {actions : List (Action ntr)} {found : Bool}
    (h : AsBytes p q) (hp : Trains.searchPrec c dial fuel p = some (p', actions, found)) :
    ∃ accesses q', searchPrec c dial fuel q = (accesses, some (q', found)) ∧ AsBytes p' q' := by
  induction fuel generalizing p q p' actions found with
  | zero => cases hp
  | succ fuel ih =>
    rw [Trains.searchPrec] at hp
    rw [Indexes.searchPrec, h.prec]
    split at hp
    · rename_i halone
      cases hp
      rw [if_pos halone]
      exact ⟨_, _, rfl, h⟩
    · rename_i halone
      rw [if_neg halone]
      split at hp
      · rename_i hdial
        cases hp
        rw [if_pos hdial]
        exact ⟨_, _, rfl, h⟩
      · rename_i hdial
        rw [if_neg hdial]
        have hcircuit : (q.lts q.lis).circuit = (p.lts p.lis).circuit := by
          rw [h.lis, h.lts]
          rfl
        obtain ⟨prec, hprec, hp⟩ := Option.bind_eq_some_iff.mp hp
        obtain ⟨⟨r, more, ended⟩, hr, hp⟩ := Option.bind_eq_some_iff.mp hp
        cases hp
        have hbytes : AsBytes
            { p with
              cameProc := (addrAppendGone p.cameProc p.goneProc p.prec).1
              goneProc := (addrAppendGone p.cameProc p.goneProc p.prec).2
              prec := prec }
            { q with
              cameProc := (addrAppendGone q.cameProc q.goneProc p.prec).1
              goneProc := (addrAppendGone q.cameProc q.goneProc p.prec).2
              prec := prec } := by
          rw [h.cameProc, h.goneProc]
          exact { h with cameProc := rfl, goneProc := rfl, prec := rfl }
        obtain ⟨accesses, q', hq, hend⟩ := ih hbytes hr
        refine ⟨.lts q.lis :: accesses, q', ?_, hend⟩
        dsimp only
        rw [hcircuit, hprec]
        dsimp only
        rw [hq]

theorem AsBytes.forwardTrain (hmax : ntr ≤ maxNtr) (h : AsBytes p q) (st : Trains.Stamp ntr)
    (circuit : Address) (wagons : List Wagon) :
    AsBytes (Trains.forwardTrain c st circuit wagons p)
      (forwardTrain c (stampBytes st) circuit q) := by
  have hstamp : (if addrIsMember c.myAddress circuit = true then
      { st with lc := st.lc + 1 } else st).id = st.id := by
    split <;> rfl
  rw [Indexes.forwardTrain, Trains.forwardTrain, hstamp]
  exact { h with
    lts := by
      apply ltsOf_update h.lts st.id (stampBytes_id hmax st)
      rw [ltsOf]
      split <;> rfl
    own := own_update h.own hstamp }

theorem AsBytes.offlineConnectionAttempt {m : Trains.Msg ntr} {actions : List (Action ntr)}
    (h : AsBytes p q) (hp : Trains.offlineConnectionAttempt c dial m p = some (p', actions)) :
    ∃ q', (offlineConnectionAttempt c (msgOf m) q).2 = some q' ∧ AsBytes p' q' := by
  cases m with
  | nakInsert | disconnectPred | disconnectSucc =>
    rw [Trains.offlineConnectionAttempt] at hp
    exact h.waitBeforeConnect hp
  | insert sender =>
    cases hp
    exact ⟨_, rfl, { h with prec := rfl }⟩
  | ackInsert sender =>
    cases hp
    exact ⟨_, rfl, { h with prec := rfl, automatonState := rfl }⟩
  | train | newSucc => cases hp

theorem AsBytes.offlineConfirmationWait (hmax : ntr ≤ maxNtr) {m : Trains.Msg ntr}
    {actions : List (Action ntr)} (h : AsBytes p q)
    (hp : Trains.offlineConfirmationWait c dial m p = some (p', actions)) :
    ∃ q', (offlineConfirmationWait ntr c (msgOf m) q).2 = some q' ∧ AsBytes p' q' := by
  cases m with
  | newSucc | disconnectPred | disconnectSucc =>
    rw [Trains.offlineConfirmationWait] at hp
    exact h.waitBeforeConnect hp
  | insert sender =>
    cases hp
    exact ⟨_, rfl, h⟩
  | train st circuit wagons =>
    rw [Trains.offlineConfirmationWait] at hp
    obtain ⟨w, hw, hsome⟩ := Option.bind_eq_some_iff.mp hp
    subst hw
    have hforward := h.forwardTrain (c := c) hmax st circuit w
    have hin := hforward.isInLts c.myAddress
    unfold Indexes.offlineConfirmationWait
    dsimp only [msgOf] at hsome ⊢
    rw [hin]
    split at hsome
    · rename_i hlisted
      obtain ⟨⟨r, more⟩, hnext, hsome⟩ := Option.bind_eq_some_iff.mp hsome
      cases hnext
      cases hsome
      rw [if_pos hlisted]
      have hsignalled := (firstMsg_isSome_iff
        (signalArrival c.myAddress ((Trains.forwardTrain c st circuit w p).lts st.id).circuit
          (Trains.forwardTrain c st circuit w p).wagonToSend)).mpr
        (by simp [signalArrival, signalArrivalDepartures, mallocWiw])
      exact ⟨_, rfl, { hforward with
        automatonState := rfl
        lis := stampBytes_id hmax st
        hasMsg := hsignalled.symm }⟩
    · rename_i hlisted
      cases hsome
      rw [if_neg hlisted]
      exact ⟨_, rfl, hforward⟩
  | ackInsert | nakInsert => cases hp

theorem AsBytes.aloneInsertWait {m : Trains.Msg ntr} {actions : List (Action ntr)}
    (h : AsBytes p q) (hp : Trains.aloneInsertWait c dial m p = some (p', actions)) :
    ∃ q', (aloneInsertWait (msgOf m) q).2 = some q' ∧ AsBytes p' q' := by
  cases m with
  | disconnectPred | disconnectSucc =>
    cases hp
    exact ⟨_, rfl, h⟩
  | insert sender =>
    cases hp
    exact ⟨_, rfl, { h with prec := rfl, automatonState := rfl }⟩
  | train | ackInsert | nakInsert | newSucc => cases hp

/-- The loop that empties the trains does so once to each. -/
theorem AsBytes.emptyTrains (h : AsBytes p q) (id : Fin ntr) :
    (trainsAfter ntr q.lis).foldl (fun lts id => Function.update lts id
      ⟨{ (lts id).stamp with lc := (lts id).stamp.lc + 1 }, c.myAddress ||| q.prec⟩) q.lts id.val =
      ltsOf (emptyTrain c p.prec (p.lts id)) := by
  have hntr : (0 : ℤ) < ntr := by exact_mod_cast Nat.zero_lt_of_lt id.isLt
  have hlis : 0 ≤ q.lis := by
    rw [h.lis]
    exact Int.natCast_nonneg _
  have hmem : (id.val : ℤ) ∈ trainsAfter ntr q.lis :=
    (mem_trainsAfter hntr hlis).mpr ⟨by omega, by omega⟩
  have hfold := foldl_update (trainsAfter_nodup hntr hlis)
    (fun l => ⟨{ l.stamp with lc := l.stamp.lc + 1 }, c.myAddress ||| q.prec⟩) q.lts id.val
  rw [hfold, if_pos hmem, h.lts, h.prec]
  rfl

theorem AsBytes.aloneConnectionWait {m : Trains.Msg ntr} {actions : List (Action ntr)}
    (h : AsBytes p q) (hp : Trains.aloneConnectionWait c dial m p = some (p', actions)) :
    ∃ q', (aloneConnectionWait ntr c (msgOf m) q).2 = some q' ∧ AsBytes p' q' := by
  cases m with
  | disconnectPred =>
    cases hp
    exact ⟨_, rfl, { h with automatonState := rfl, prec := rfl, succ := rfl }⟩
  | insert sender =>
    cases hp
    exact ⟨_, rfl, h⟩
  | newSucc sender =>
    cases hp
    exact ⟨_, rfl, { h with
      automatonState := rfl
      succ := rfl
      lts := h.emptyTrains
      own := h.own }⟩
  | train | ackInsert | nakInsert | disconnectSucc => cases hp

theorem AsBytes.several (hmax : ntr ≤ maxNtr) {m : Trains.Msg ntr} {actions : List (Action ntr)}
    (h : AsBytes p q) (hstate : p.automatonState = .several)
    (hp : Trains.several c dial m p = some (p', actions)) :
    ∃ q', (several ntr c dial (msgOf m) q).2 = some q' ∧ AsBytes p' q' := by
  cases m with
  | train st circuit wagons =>
    have hrecent := h.isRecentTrain hmax st
    rw [Trains.several] at hp
    unfold Indexes.several
    dsimp only [msgOf]
    rw [hrecent]
    split at hp
    · rename_i hlisted
      rw [if_pos hlisted]
      split at hp
      · rename_i hrecent
        rw [if_pos hrecent]
        obtain ⟨wagons, rfl, hp⟩ := Option.bind_eq_some_iff.mp hp
        cases hp
        have hhandled := h.trainHandling (c := c) hmax st circuit wagons (wagons.map Wagon.sender)
        exact ⟨_, rfl, { hhandled with lis := stampBytes_id hmax st }⟩
      · rename_i hrecent
        cases hp
        rw [if_neg hrecent]
        exact ⟨_, rfl, h⟩
    · cases hp
  | insert sender =>
    cases hp
    exact ⟨_, rfl, { h with
      prec := rfl
      cameProc := congrArg (addrAppendArrived · sender) h.cameProc }⟩
  | newSucc sender =>
    cases hp
    exact ⟨_, rfl, { h with succ := rfl }⟩
  | disconnectPred sender =>
    rw [Trains.several] at hp
    obtain ⟨⟨r, more, found⟩, hr, hp⟩ := Option.bind_eq_some_iff.mp hp
    obtain ⟨accesses, s, hs, hbytes⟩ := h.searchPrec hr
    unfold Indexes.several
    dsimp only [msgOf]
    rw [hs]
    cases found with
    | true =>
      cases hp
      have hsearch := (searchPrec_spec.2 s true (congrArg Prod.snd hs)).2.2
      rw [h.automatonState, hstate] at hsearch
      exact ⟨_, rfl, { hbytes with automatonState := hsearch }⟩
    | false =>
      obtain ⟨delivered, unstable, hflush⟩ := flush_frame { r with
        goneProc := 0#16
        wagonToSend := signalDepartures r.goneProc (r.lts r.lis).circuit r.wagonToSend }
      simp only [hflush] at hp
      cases hp
      exact ⟨_, rfl, { hbytes with
        automatonState := rfl
        prec := rfl
        succ := rfl
        goneProc := rfl
        hasMsg := rfl }⟩
  | disconnectSucc sender =>
    cases hp
    exact ⟨_, rfl, { h with succ := rfl }⟩
  | ackInsert | nakInsert => cases hp

theorem AsBytes.stateMachine (hmax : ntr ≤ maxNtr) {m : Trains.Msg ntr}
    {actions : List (Action ntr)} (h : AsBytes p q)
    (hp : Trains.stateMachine c dial m p = some (p', actions)) :
    ∃ q', (stateMachine ntr c dial (msgOf m) q).2 = some q' ∧ AsBytes p' q' := by
  rw [Trains.stateMachine] at hp
  rw [Indexes.stateMachine, h.automatonState]
  cases hs : p.automatonState with
  | offlineConnectionAttempt =>
    rw [hs] at hp
    exact h.offlineConnectionAttempt hp
  | offlineConfirmationWait =>
    rw [hs] at hp
    exact h.offlineConfirmationWait hmax hp
  | wait =>
    rw [hs] at hp
    cases hp
    exact ⟨_, rfl, h⟩
  | aloneInsertWait =>
    rw [hs] at hp
    exact h.aloneInsertWait hp
  | aloneConnectionWait =>
    rw [hs] at hp
    exact h.aloneConnectionWait hp
  | several =>
    rw [hs] at hp
    exact h.several hmax hs hp

/-! ## Steps and runs -/

/-- A step of a process is one of the process whose numbers are bytes. -/
theorem AsBytes.step (hmax : ntr ≤ maxNtr) (h : AsBytes p q) {e : ProcEvent ntr}
    (hp : procStep c p e = some p') :
    ∃ q', step ntr c q (eventOf e) = some q' ∧ AsBytes p' q' := by
  cases e with
  | message dial m =>
    obtain ⟨⟨r, actions⟩, hr, hp⟩ := Option.map_eq_some_iff.mp hp
    cases hp
    exact h.stateMachine hmax hr
  | wake dial =>
    rw [procStep] at hp
    rw [Indexes.step, eventOf, run, h.automatonState]
    dsimp only
    split at hp
    · rename_i hwait
      obtain ⟨⟨r, actions⟩, hr, hp⟩ := Option.map_eq_some_iff.mp hp
      cases hp
      rw [sleepTreatment] at hr
      rw [if_pos hwait]
      have hwoken : AsBytes { p with waitNb := p.waitNb + 1 } { q with waitNb := q.waitNb + 1 } :=
        { h with waitNb := congrArg (· + 1) h.waitNb }
      exact hwoken.offlineInit hr
    · cases hp
  | broadcast mp =>
    rw [procStep, broadcast] at hp
    split at hp
    · cases hp
    · cases hp
      refine ⟨_, rfl, ?_⟩
      dsimp only
      split
      · rename_i halone
        have hnone : decide (q.automatonState ≠ .aloneInsertWait) = false := by
          simp [h.automatonState, halone]
        exact { h with hasMsg := hnone }
      · rename_i hnot
        have hsome : (firstMsg (mallocWiw mp p.wagonToSend)).isSome = true :=
          (firstMsg_isSome_iff _).mpr (by simp [mallocWiw])
        have hdecide : decide (q.automatonState ≠ .aloneInsertWait) = true := by
          simpa [h.automatonState] using hnot
        exact { h with hasMsg := hdecide.trans hsome.symm }

theorem asBytes_initial (hntr : 0 < ntr) :
    AsBytes (Trains.Proc.initial c hntr) (Proc.initial ntr) where
  automatonState := rfl
  prec := rfl
  succ := rfl
  cameProc := rfl
  goneProc := rfl
  waitNb := rfl
  lis := by
    rw [Proc.initial, Trains.Proc.initial]
    dsimp only
    omega
  lts id := by
    rw [Proc.initial, Trains.Proc.initial]
    dsimp only
    rw [BitVec.ofInt_natCast]
    rfl
  own _ := rfl
  hasMsg := rfl

/-- The trains of processes with as many trains have numbers and rounds that the arrays have. -/
theorem properStamp_eventOf (hmax : ntr ≤ maxNtr) (e : ProcEvent ntr) :
    ProperStamp ntr (eventOf e) := by
  cases e with
  | wake | broadcast => trivial
  | message dial m =>
    cases m with
    | train st circuit wagons =>
      have hid := stampBytes_id hmax st
      have hround := stampBytes_round st
      have hlt := st.id.isLt
      have hnr := st.round.isLt
      refine ⟨⟨?_, ?_⟩, ?_, ?_⟩
      · omega
      · omega
      · omega
      · omega
    | insert | ackInsert | nakInsert | disconnectPred | disconnectSucc | newSucc => trivial

/-- **Indexes.** Every run of a process is one of the process whose numbers are bytes, and uses
indexes that the arrays have. -/
theorem run_simulates (hmax : ntr ≤ maxNtr) (hntr : 0 < ntr) {p₀ : Trains.Proc ntr}
    {actions : List (Action ntr)}
    (hinit : Trains.automatonInit c dial hntr = some (p₀, actions)) :
    ∃ q₀, (automatonInit ntr c dial).2 = some q₀ ∧ ∀ es : List (ProcEvent ntr),
      Along (step ntr c) (InRange ntr c) q₀ (es.map eventOf) ∧
      ∀ p, exec (procStep c) p₀ es = some p →
        ∃ q, exec (step ntr c) q₀ (es.map eventOf) = some q ∧ AsBytes p q := by
  obtain ⟨q₀, hq₀, hbytes⟩ := (asBytes_initial (c := c) hntr).offlineInit hinit
  refine ⟨q₀, hq₀, fun es => ⟨?_, ?_⟩⟩
  · apply along_inRange_of_proper (by exact_mod_cast hntr) (by exact_mod_cast hmax) hq₀
    intro e he
    obtain ⟨e, -, rfl⟩ := List.mem_map.mp he
    exact properStamp_eventOf hmax e
  · intro p hp
    exact exec_map_simulates eventOf (fun _ _ _ _ hR hstep => hR.step hmax hstep) hbytes hp

end Functions

end UniformBroadcast.Trains.Indexes
