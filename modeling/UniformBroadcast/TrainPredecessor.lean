import UniformBroadcast.TrainRecovery
import Mathlib.Data.List.TakeWhile

/-!
# The search for a predecessor ends

The loop of the handler of `DISCONNECT_PRED` and that of `addrPrec` have no bound of their
own: they stop because the process is in the circuit of its last train. The processes dialled
are the predecessor, then the members of the circuit that are met on the way down to the
process.
-/

namespace UniformBroadcast.Trains

open TransitionRuns

variable {ntr : ℕ}

/-! ## Going down the ranks -/

/-- The rank `k` places below `l`. -/
def down (l : Fin np) (k : ℕ) : Fin np := ⟨(l.val + k * (np - 1)) % np, Nat.mod_lt _ (by decide)⟩

/-- How many places `me` is below `l`. -/
def below (me l : Fin np) : ℕ := (l.val + (np - me.val)) % np

/-- From `l` down to `me`, which is left out: `l` and then the members of the circuit. -/
def descent (circuit : Address) (me l : Fin np) : List (Fin np) :=
  if l = me then []
  else l :: ((List.range' 1 (below me l - 1)).map (down l)).filter fun i => circuit.getLsbD i.val

/-- The processes that are dialled when they are dialled in this order. -/
def upToFirst (dial : Address → Bool) : List Address → List Address
  | [] => []
  | a :: ads => if dial a then [a] else a :: upToFirst dial ads

/-- The predecessors that these actions try to connect to. -/
def dialled (actions : List (Action ntr)) : List Address :=
  actions.filterMap fun
    | .openConnection a true _ => some a
    | _ => none

theorem down_down (l : Fin np) (j k : ℕ) : down (down l j) k = down l (j + k) := by
  ext
  simp only [down]
  rw [Nat.mod_add_mod, Nat.add_mul, ← Nat.add_assoc]

theorem below_lt (me l : Fin np) : below me l < np := Nat.mod_lt _ (by decide)

theorem below_eq_zero {me l : Fin np} : below me l = 0 ↔ l = me := by
  have hl : l.val < 16 := l.isLt
  have hme : me.val < 16 := me.isLt
  rw [Fin.ext_iff]
  change (l.val + (16 - me.val)) % 16 = 0 ↔ l.val = me.val
  omega

/-- One comes to `me`. -/
theorem down_below (me l : Fin np) : down l (below me l) = me := by
  have hl : l.val < 16 := l.isLt
  have hme : me.val < 16 := me.isLt
  ext
  change (l.val + (l.val + (16 - me.val)) % 16 * 15) % 16 = me.val
  omega

theorem below_down {me l : Fin np} {k : ℕ} (hk : k ≤ below me l) :
    below me (down l k) = below me l - k := by
  have hl : l.val < 16 := l.isLt
  have hme : me.val < 16 := me.isLt
  change k ≤ (l.val + (16 - me.val)) % 16 at hk
  change ((l.val + k * 15) % 16 + (16 - me.val)) % 16 = (l.val + (16 - me.val)) % 16 - k
  omega

theorem down_inj {l : Fin np} {j k : ℕ} (hj : j < np) (hk : k < np) (h : down l j = down l k) :
    j = k := by
  have hl : l.val < 16 := l.isLt
  have hval := congrArg Fin.val h
  change (l.val + j * 15) % 16 = (l.val + k * 15) % 16 at hval
  change j < 16 at hj
  change k < 16 at hk
  omega

theorem down_zero (l : Fin np) : down l 0 = l := by
  ext
  simp [down, Nat.mod_eq_of_lt l.isLt]

/-- No process is met twice. -/
theorem descent_nodup (circuit : Address) (me l : Fin np) : (descent circuit me l).Nodup := by
  rw [descent]
  split
  · exact List.nodup_nil
  · rename_i hne
    have hlt := below_lt me l
    have hpos : below me l ≠ 0 := fun h => hne (below_eq_zero.mp h)
    have hnodup : ((List.range' 0 (below me l)).map (down l)).Nodup := by
      apply List.Nodup.map_on
      · intro j hj k hk h
        rw [List.mem_range'_1] at hj hk
        exact down_inj (by omega) (by omega) h
      · exact List.nodup_range'
    obtain ⟨d, hd⟩ := Nat.exists_eq_succ_of_ne_zero hpos
    rw [hd, List.range'_succ, List.map_cons, down_zero, List.nodup_cons] at hnodup
    rw [hd, Nat.succ_sub_one, List.nodup_cons]
    refine ⟨?_, hnodup.2.filter _⟩
    intro hin
    exact hnodup.1 (List.mem_of_mem_filter hin)

/-! ## What `addrPrec` finds -/

theorem addrToRank_rankToAddr (i : Fin np) : addrToRank (rankToAddr i.val) = some i.val := by
  rw [addrToRank, List.find?_eq_some_iff_getElem]
  refine ⟨by rw [rankToAddr_getLsbD]; simp, i.val, by simp, by simp, ?_⟩
  intro j hj
  have hj' : j < np := Nat.lt_trans hj i.isLt
  have hbit := rankToAddr_getLsbD i ⟨j, hj'⟩
  rw [List.getElem_range, hbit]
  simp [Fin.ext_iff, Nat.ne_of_lt hj]

theorem addrPrec_eq (circuit : Address) (l : Fin np) : addrPrec (rankToAddr l.val) circuit =
    (((List.range' 1 np).map (down l)).find? fun i => circuit.getLsbD i.val).map
      fun i => rankToAddr i.val := by
  rw [addrPrec, addrToRank_rankToAddr, Option.bind_some, List.find?_map, List.find?_map,
    Option.map_map]
  have hmember : (fun a => addrIsMember a circuit) ∘
      (fun k => rankToAddr ((l.val + k * (np - 1)) % np)) =
      (fun i : Fin np => circuit.getLsbD i.val) ∘ down l := by
    funext k
    exact addrIsMember_rankToAddr (down l k) circuit
  rw [hmember]
  rfl

/-- The ranks below `l` down to a member that no other one precedes. -/
theorem filter_down {circuit : Address} {l l' : Fin np} {n : ℕ}
    (hfind : ((List.range' 1 n).map (down l)).find? (fun i => circuit.getLsbD i.val) = some l') :
    ∃ k, k < n ∧ l' = down l (k + 1) ∧
      ((List.range' 1 n).map (down l)).filter (fun i => circuit.getLsbD i.val) =
        l' :: ((List.range' 1 (n - (k + 1))).map (down l')).filter
          fun i => circuit.getLsbD i.val := by
  obtain ⟨hmember, as, bs, hsplit, hnot⟩ := List.find?_eq_some_iff_append.mp hfind
  obtain ⟨ks, ks', hranks, has, hbs⟩ := List.map_eq_append_iff.mp hsplit
  obtain ⟨k, -, rfl, rfl⟩ := List.range'_eq_append_iff.mp hranks
  obtain ⟨k', ks', hcons, hl', rfl⟩ := List.map_eq_cons_iff.mp hbs
  obtain ⟨hk', hlt, rfl⟩ := List.range'_eq_cons_iff.mp hcons
  have hnext : l' = down l (k + 1) := by
    rw [← hl', ← hk', Nat.mul_one, Nat.add_comm]
  have hfirst : as.filter (fun i => circuit.getLsbD i.val) = [] := by
    rw [List.filter_eq_nil_iff]
    intro i hi
    simpa using hnot i hi
  refine ⟨k, by omega, hnext, ?_⟩
  rw [hsplit, List.filter_append, hfirst, List.nil_append, List.filter_cons, hmember, if_pos rfl]
  have hlast : List.range' (k' + 1) (n - k - 1) =
      (List.range' 1 (n - (k + 1))).map (k + 1 + ·) := by
    rw [List.map_add_range', ← hk']
    congr 1
    omega
  rw [hlast, List.map_map]
  congr 3
  funext j
  rw [Function.comp_apply, hnext, down_down]

/-- When the process is in the circuit, `addrPrec` finds the next one of the descent, and the
process at its end. -/
theorem addrPrec_descent {circuit : Address} {me l : Fin np} (hin : circuit.getLsbD me.val = true)
    (hne : l ≠ me) : ∃ l', addrPrec (rankToAddr l.val) circuit = some (rankToAddr l'.val) ∧
      below me l' < below me l ∧ descent circuit me l = l :: descent circuit me l' := by
  have hlt := below_lt me l
  have hpos : below me l ≠ 0 := fun h => hne (below_eq_zero.mp h)
  have hsplit : List.range' 1 np = List.range' 1 (below me l - 1) ++
      below me l :: List.range' (below me l + 1) (np - below me l) := by
    rw [← List.range'_succ, List.range'_eq_append_iff]
    refine ⟨below me l - 1, by omega, rfl, ?_⟩
    congr 1
    · omega
    · omega
  rw [addrPrec_eq, descent, if_neg hne, hsplit, List.map_append, List.find?_append, List.map_cons,
    down_below]
  cases hfind : ((List.range' 1 (below me l - 1)).map (down l)).find?
      fun i => circuit.getLsbD i.val with
  | none =>
    refine ⟨me, ?_, ?_, ?_⟩
    · rw [Option.none_or, List.find?_cons, hin]
      rfl
    · rw [below_eq_zero.mpr rfl]
      omega
    · rw [List.find?_eq_none] at hfind
      rw [descent, if_pos rfl, List.filter_eq_nil_iff.mpr hfind]
  | some l' =>
    obtain ⟨k, hk, rfl, hfilter⟩ := filter_down hfind
    have hbelow : below me (down l (k + 1)) = below me l - (k + 1) := below_down (by omega)
    refine ⟨down l (k + 1), rfl, by omega, ?_⟩
    have hne' : down l (k + 1) ≠ me := by
      intro h
      rw [below_eq_zero.mpr h] at hbelow
      omega
    rw [hfilter, descent, if_neg hne', hbelow]
    congr 5
    omega

/-- The loop of `addrPrec` ends, coming back to its start if need be. -/
theorem addrPrec_isSome {circuit : Address} {me : Fin np} (hin : circuit.getLsbD me.val = true)
    (l : Fin np) : (addrPrec (rankToAddr l.val) circuit).isSome := by
  by_cases hne : l = me
  · subst hne
    have hlap : down l np = l := by
      have hl : l.val < 16 := l.isLt
      ext
      change (l.val + 16 * 15) % 16 = l.val
      omega
    rw [addrPrec_eq, Option.isSome_map, List.find?_isSome]
    refine ⟨down l np, List.mem_map_of_mem ?_, ?_⟩
    · rw [List.mem_range'_1]
      exact ⟨by decide, by decide⟩
    · rw [hlap]
      exact hin
  · obtain ⟨l', hnext, -⟩ := addrPrec_descent hin hne
    rw [hnext]
    rfl

/-! ## The loop -/

section Search

variable {c : Config} {dial : Address → Bool} {p q : Proc ntr} {actions : List (Action ntr)}
  {me : Fin np}

@[simp] theorem dialled_append (actions actions' : List (Action ntr)) :
    dialled (actions ++ actions') = dialled actions ++ dialled actions' :=
  List.filterMap_append

/-- The loop makes a pass for each process dialled. -/
theorem searchPrec_dialled {circuit : Address} (hme : c.myAddress = rankToAddr me.val)
    (hin : circuit.getLsbD me.val = true) {fuel : ℕ} {l : Fin np}
    (hl : p.prec = rankToAddr l.val) (hcircuit : (p.lts p.lis).circuit = circuit)
    (hfuel : below me l < fuel) : ∃ q actions found,
      searchPrec c dial fuel p = some (q, actions, found) ∧
      dialled actions = upToFirst dial ((descent circuit me l).map fun i => rankToAddr i.val) := by
  induction fuel generalizing p l with
  | zero => omega
  | succ fuel ih =>
    rw [searchPrec, hl, hme]
    by_cases hne : l = me
    · subst hne
      rw [if_pos rfl, descent, if_pos rfl]
      exact ⟨_, _, _, rfl, rfl⟩
    · obtain ⟨l', hnext, hlt, hdescent⟩ := addrPrec_descent hin hne
      rw [if_neg (fun h => hne (rankToAddr_injective h)), hdescent, List.map_cons, upToFirst]
      by_cases hdial : dial (rankToAddr l.val) = true
      · rw [if_pos hdial, if_pos hdial]
        exact ⟨_, _, _, rfl, rfl⟩
      · rw [if_neg hdial, if_neg hdial, hcircuit, hnext]
        obtain ⟨q, actions, found, hsearch, hdialled⟩ :=
          ih (p := { p with
            cameProc := (addrAppendGone p.cameProc p.goneProc (rankToAddr l.val)).1
            goneProc := (addrAppendGone p.cameProc p.goneProc (rankToAddr l.val)).2
            prec := rankToAddr l'.val }) rfl hcircuit (by omega)
        simp only [Option.bind_eq_bind, Option.bind_some, hsearch]
        refine ⟨_, _, _, rfl, ?_⟩
        rw [← hdialled]
        rfl

/-- The handler of `DISCONNECT_PRED` comes to its end. -/
theorem disconnectPred_dialled (hme : c.myAddress = rankToAddr me.val)
    (hstate : p.automatonState = .several)
    (hin : (p.lts p.lis).circuit.getLsbD me.val = true) {l : Fin np}
    (hl : p.prec = rankToAddr l.val) (a : Address) : ∃ q actions,
      stateMachine c dial (.disconnectPred a) p = some (q, actions) ∧
      dialled actions = upToFirst dial
        ((descent (p.lts p.lis).circuit me l).map fun i => rankToAddr i.val) := by
  have hlt := below_lt me l
  have hfuel : below me l < np + 2 := by omega
  obtain ⟨q, actions, found, hsearch, hdialled⟩ :=
    @searchPrec_dialled _ _ dial _ _ _ hme hin _ l hl rfl hfuel
  rw [stateMachine, hstate]
  simp only [several, hsearch, Option.bind_eq_bind, Option.bind_some]
  rw [← hdialled]
  cases found with
  | true => exact ⟨_, _, rfl, by simp [dialled]⟩
  | false => exact ⟨_, _, rfl, by simp [dialled]⟩

theorem upToFirst_sublist (dial : Address → Bool) (ads : List Address) :
    (upToFirst dial ads).Sublist ads := by
  induction ads with
  | nil => exact List.Sublist.slnil
  | cons a ads ih =>
    rw [upToFirst]
    split
    · exact List.Sublist.cons_cons a (List.nil_sublist ads)
    · exact List.Sublist.cons_cons a ih

end Search

/-! ## The process is in its circuit -/

/-- The process is not among those that are gone, and it is in the circuit of all its last
trains while it is in `SEVERAL`. -/
structure Listed (me : Fin np) (p : Proc ntr) : Prop where
  gone : me ∉ members p.goneProc
  lts : p.automatonState = .several → ∀ id, me ∈ members (p.lts id).circuit

section Invariant

variable {c : Config} {dial : Address → Bool} {p q : Proc ntr} {actions : List (Action ntr)}
  {me : Fin np} {m : Msg ntr}

/-- Only processes that the search has dialled are added to those that are gone. -/
theorem mem_foldl_gone {ads : List Address} (hads : ∀ a ∈ ads, OneBit a) (acc : Address × Address)
    (hmem : me ∈ members (ads.foldl (fun acc a => addrAppendGone acc.1 acc.2 a) acc).2) :
    me ∈ members acc.2 ∨ rankToAddr me.val ∈ ads := by
  induction ads generalizing acc with
  | nil => exact .inl hmem
  | cons a ads ih =>
    obtain ⟨j, rfl⟩ := hads a List.mem_cons_self
    rcases ih (fun a ha => hads a (List.mem_cons_of_mem _ ha)) _ hmem with hin | hin
    · simp only [addrAppendGone] at hin
      split at hin
      · exact .inl hin
      · rw [mem_members, BitVec.getLsbD_or, rankToAddr_getLsbD, Bool.or_eq_true,
          decide_eq_true_eq] at hin
        rcases hin with hin | rfl
        · exact .inl ((mem_members _ _).mpr hin)
        · exact .inr List.mem_cons_self
    · exact .inr (List.mem_cons_of_mem _ hin)

theorem me_mem_iff (hme : c.myAddress = rankToAddr me.val) (circuit : Address) :
    addrIsMember c.myAddress circuit = true ↔ me ∈ members circuit := by
  rw [hme, addrIsMember_rankToAddr, mem_members]

theorem listed_nextState {s : State} (hgone : me ∉ members p.goneProc)
    (hlts : s = .several → ∀ id, me ∈ members (p.lts id).circuit)
    (h : nextState c dial s p = some (q, actions)) : Listed me q := by
  cases s with
  | offlineConnectionAttempt =>
    obtain ⟨succ, rfl | rfl⟩ := offlineInit_cases h
    · exact ⟨hgone, fun hq => State.noConfusion hq⟩
    · exact ⟨hgone, fun hq => State.noConfusion hq⟩
  | wait =>
    obtain ⟨⟨r, closes⟩, hwait, h⟩ := Option.bind_eq_some_iff.mp h
    cases h
    rw [waitBeforeConnect] at hwait
    split at hwait
    · cases hwait
    · cases hwait
      exact ⟨hgone, fun hq => State.noConfusion hq⟩
  | aloneInsertWait | offlineConfirmationWait | aloneConnectionWait =>
    cases h
    exact ⟨hgone, fun hq => State.noConfusion hq⟩
  | several =>
    cases h
    exact ⟨hgone, fun _ => hlts rfl⟩

theorem listed_offlineConnectionAttempt (hp : p.automatonState = .offlineConnectionAttempt)
    (hgone : me ∉ members p.goneProc)
    (h : offlineConnectionAttempt c dial m p = some (q, actions)) : Listed me q := by
  cases m with
  | nakInsert | disconnectPred | disconnectSucc =>
    rw [offlineConnectionAttempt] at h
    exact listed_nextState hgone (fun hs => State.noConfusion hs) h
  | insert sender =>
    cases h
    exact ⟨hgone, fun hq => absurd (hp.symm.trans hq) (by decide)⟩
  | ackInsert sender =>
    rw [offlineConnectionAttempt] at h
    obtain ⟨⟨r, more⟩, hnext, h⟩ := Option.bind_eq_some_iff.mp h
    cases h
    exact listed_nextState (p := { p with prec := sender }) hgone (fun hs => State.noConfusion hs)
      hnext
  | train | newSucc => cases h

/-- A process is confirmed when all its last trains list it. -/
theorem listed_offlineConfirmationWait (hme : c.myAddress = rankToAddr me.val)
    (hp : p.automatonState = .offlineConfirmationWait) (hgone : me ∉ members p.goneProc)
    (h : offlineConfirmationWait c dial m p = some (q, actions)) : Listed me q := by
  cases m with
  | newSucc | disconnectPred | disconnectSucc =>
    rw [offlineConfirmationWait] at h
    exact listed_nextState hgone (fun hs => State.noConfusion hs) h
  | insert =>
    cases h
    exact ⟨hgone, fun hq => absurd (hp.symm.trans hq) (by decide)⟩
  | train stamp circuit wagons =>
    rw [offlineConfirmationWait] at h
    obtain ⟨w, -, hsome⟩ := Option.bind_eq_some_iff.mp h
    dsimp only at hsome
    split at hsome
    · rename_i hall
      obtain ⟨⟨r, more⟩, hnext, hsome⟩ := Option.bind_eq_some_iff.mp hsome
      cases hnext
      cases hsome
      refine ⟨hgone, ?_⟩
      intro _ id
      rw [isInLts, List.all_eq_true] at hall
      exact (me_mem_iff hme _).mp (hall id (List.mem_finRange id))
    · cases hsome
      exact ⟨hgone, fun hq => absurd (hp.symm.trans hq) (by decide)⟩
  | ackInsert | nakInsert => cases h

theorem listed_aloneInsertWait (hp : p.automatonState = .aloneInsertWait)
    (hgone : me ∉ members p.goneProc)
    (h : aloneInsertWait c dial m p = some (q, actions)) : Listed me q := by
  cases m with
  | disconnectPred | disconnectSucc =>
    cases h
    exact ⟨hgone, fun hq => absurd (hp.symm.trans hq) (by decide)⟩
  | insert sender =>
    rw [aloneInsertWait] at h
    obtain ⟨⟨r, more⟩, hnext, h⟩ := Option.bind_eq_some_iff.mp h
    cases h
    exact listed_nextState (p := { p with prec := sender }) hgone (fun hs => State.noConfusion hs)
      hnext
  | train | ackInsert | nakInsert | newSucc => cases h

/-- A process that was alone starts with the circuit of its predecessor and itself. -/
theorem listed_aloneConnectionWait (hme : c.myAddress = rankToAddr me.val)
    (hp : p.automatonState = .aloneConnectionWait) (hgone : me ∉ members p.goneProc)
    (h : aloneConnectionWait c dial m p = some (q, actions)) : Listed me q := by
  cases m with
  | disconnectPred =>
    rw [aloneConnectionWait] at h
    exact listed_nextState hgone (fun hs => State.noConfusion hs) h
  | insert =>
    cases h
    exact ⟨hgone, fun hq => absurd (hp.symm.trans hq) (by decide)⟩
  | newSucc sender =>
    rw [aloneConnectionWait] at h
    obtain ⟨⟨r, more⟩, hnext, h⟩ := Option.bind_eq_some_iff.mp h
    cases hnext
    cases h
    refine ⟨hgone, ?_⟩
    intro _ id
    rw [mem_members]
    simp [emptyTrain, hme, rankToAddr_getLsbD]
  | train | ackInsert | nakInsert | disconnectSucc => cases h

/-- Train 0 takes those that are gone with it. -/
theorem goneProc_trainHandling (my : Address) (t : Train ntr) (p : Proc ntr) :
    (trainHandling my t p).goneProc = if t.stamp.id.val = 0 then 0#16 else p.goneProc := by
  simp only [trainHandling, updateCircuit]
  split <;> rfl

/-- The circuit of a train handled lists the process when that of the train and the accounts
do. -/
theorem trainHandling_listed {t : Train ntr} (hcircuit : me ∈ members t.circuit)
    (hgone : me ∉ members p.goneProc) (hlts : ∀ id, me ∈ members (p.lts id).circuit) (my : Address)
    (id : Fin ntr) : me ∈ members ((trainHandling my t p).lts id).circuit := by
  have hupdate : me ∈ members (updateCircuit t.stamp.id t.circuit p).1 := by
    rw [updateCircuit]
    split
    · rw [mem_members] at hcircuit hgone ⊢
      simp [addrUpdateCircuit, hcircuit, hgone]
    · exact hlts _
  have hkeep : (updateCircuit t.stamp.id t.circuit p).2.lts = p.lts := by
    rw [updateCircuit]
    split <;> rfl
  simp only [trainHandling, hkeep]
  by_cases hid : id = t.stamp.id
  · rw [hid, setAt, Function.update_self]
    exact hupdate
  · rw [setAt, Function.update_of_ne hid]
    exact hlts id

theorem listed_several (hme : c.myAddress = rankToAddr me.val) (hprec : OneBit p.prec)
    (hp : p.automatonState = .several) (hlisted : Listed me p)
    (h : several c dial m p = some (q, actions)) : Listed me q := by
  obtain ⟨hgone, hlts⟩ := hlisted
  cases m with
  | train stamp circuit wagons =>
    rw [several] at h
    split at h
    · rename_i hmember
      split at h
      · obtain ⟨w, rfl, h⟩ := Option.bind_eq_some_iff.mp h
        cases h
        constructor
        · rw [goneProc_trainHandling]
          split
          · simp
          · exact hgone
        · intro _ id
          exact trainHandling_listed ((me_mem_iff hme _).mp hmember) hgone (hlts hp) c.myAddress id
      · cases h
        exact ⟨hgone, hlts⟩
    · cases h
  | insert sender | newSucc sender | disconnectSucc sender =>
    cases h
    exact ⟨hgone, hlts⟩
  | disconnectPred sender =>
    obtain ⟨⟨r, opens, found⟩, hsearch, h⟩ := Option.bind_eq_some_iff.mp h
    obtain ⟨-, -, haccount⟩ := searchPrec_spec hsearch
    have hkeeps := searchPrec_keeps hsearch
    cases found with
    | true =>
      cases h
      refine ⟨?_, ?_⟩
      · intro hin
        rw [show r.goneProc = _ from congrArg Prod.snd haccount] at hin
        rcases mem_foldl_gone (fun a ha => candidates_oneBit hprec _ a
          (List.takeWhile_subset _ ha)) _ hin with hold | hdialled
        · exact hgone hold
        · have hpasses := List.mem_takeWhile_imp hdialled
          rw [passes, hme] at hpasses
          simp at hpasses
      · intro _ id
        rw [show (_ : Proc ntr).lts = p.lts from hkeeps.lts]
        exact hlts hp id
    | false =>
      cases h
      obtain ⟨delivered, unstable, hflush⟩ := flush_frame { r with
        goneProc := 0#16
        wagonToSend := signalDepartures r.goneProc (r.lts r.lis).circuit r.wagonToSend }
      rw [deliverWagonToSend, hflush]
      refine ⟨?_, fun hq => State.noConfusion hq⟩
      simp
  | ackInsert | nakInsert => cases h

theorem listed_step {e : ProcEvent ntr} (hme : c.myAddress = rankToAddr me.val)
    (hplaced : Placed me p) (hlisted : Listed me p) (h : procStep c p e = some q) :
    Listed me q := by
  have hgone := hlisted.gone
  cases e with
  | message dial m =>
    obtain ⟨⟨r, actions⟩, hm, rfl⟩ := Option.map_eq_some_iff.mp h
    rw [stateMachine] at hm
    split at hm
    · rename_i hs
      exact listed_offlineConnectionAttempt hs hgone hm
    · rename_i hs
      exact listed_offlineConfirmationWait hme hs hgone hm
    · cases hm
      exact hlisted
    · rename_i hs
      exact listed_aloneInsertWait hs hgone hm
    · rename_i hs
      exact listed_aloneConnectionWait hme hs hgone hm
    · rename_i hs
      have hprec : OneBit p.prec := by simpa [hs] using hplaced.prec
      exact listed_several hme hprec hs hlisted hm
  | wake dial =>
    rw [procStep] at h
    split at h
    · obtain ⟨⟨r, actions⟩, hinit, rfl⟩ := Option.map_eq_some_iff.mp h
      rw [sleepTreatment] at hinit
      exact listed_nextState (s := .offlineConnectionAttempt)
        (p := { p with waitNb := p.waitNb + 1 })
        hgone (fun hs => State.noConfusion hs) hinit
    · cases h
  | broadcast mp =>
    rw [procStep, broadcast] at h
    split at h
    · cases h
    · cases h
      split
      · exact ⟨hgone, hlisted.lts⟩
      · exact ⟨hgone, hlisted.lts⟩

theorem listed_run {hntr : 0 < ntr} {dial₀ : Address → Bool} {p₀ : Proc ntr}
    {started : List (Action ntr)} {es : List (ProcEvent ntr)}
    (hme : c.myAddress = rankToAddr me.val)
    (hinit : automatonInit c dial₀ hntr = some (p₀, started)) (hes : ∀ e ∈ es, Addressed me e)
    (hrun : exec (procStep c) p₀ es = some p) : Listed me p := by
  have hplaced : Placed me p₀ := placed_offlineInit hme (by simp [Proc.initial]) hinit
  have hlisted : Listed me p₀ := listed_nextState (s := .offlineConnectionAttempt)
    (by simp [Proc.initial]) (fun hs => State.noConfusion hs) hinit
  have halong : Along (procStep c) (fun _ e => Addressed me e) p₀ es :=
    along_of_forall (fun e he _ => hes e he) p₀
  have hkeep : ∀ (p : Proc ntr) e q, Placed me p ∧ Listed me p → Addressed me e →
      procStep c p e = some q → Placed me q ∧ Listed me q := by
    intro p e q hp he hstep
    exact ⟨placed_step hme hp.1 he hstep, listed_step hme hp.1 hp.2 hstep⟩
  exact (exec_invariant_along hkeep ⟨hplaced, hlisted⟩ halong hrun).2

end Invariant

/-! ## The search in a run -/

/-- Whatever `openConnection` gives, the handler of `DISCONNECT_PRED` ends in every state
`SEVERAL` that a process reaches, and dials no process twice. -/
theorem predecessor_search_ends {c : Config} {me : Fin np} {hntr : 0 < ntr}
    {dial₀ : Address → Bool} {p₀ p : Proc ntr} {started : List (Action ntr)}
    {es : List (ProcEvent ntr)} (hme : c.myAddress = rankToAddr me.val)
    (hinit : automatonInit c dial₀ hntr = some (p₀, started)) (hes : ∀ e ∈ es, Addressed me e)
    (hrun : exec (procStep c) p₀ es = some p) (hseveral : p.automatonState = .several)
    (dial : Address → Bool) (a : Address) :
    addrIsMember c.myAddress (p.lts p.lis).circuit = true ∧
      (∀ i : Fin np, (addrPrec (rankToAddr i.val) (p.lts p.lis).circuit).isSome) ∧
      ∃ l q actions, p.prec = rankToAddr l.val ∧
        stateMachine c dial (.disconnectPred a) p = some (q, actions) ∧
        dialled actions = upToFirst dial
          ((descent (p.lts p.lis).circuit me l).map fun i => rankToAddr i.val) ∧
        (dialled actions).Nodup := by
  have hplaced := placed_run hme hinit hes hrun
  have hlisted := listed_run hme hinit hes hrun
  have hmem := hlisted.lts hseveral p.lis
  have hin : (p.lts p.lis).circuit.getLsbD me.val = true := (mem_members _ _).mp hmem
  obtain ⟨l, hl⟩ : OneBit p.prec := by simpa [hseveral] using hplaced.prec
  obtain ⟨q, actions, hstep, hdialled⟩ :=
    @disconnectPred_dialled _ _ dial _ _ hme hseveral hin l hl a
  refine ⟨(me_mem_iff hme _).mpr hmem, ?_, l, q, actions, hl, hstep, hdialled, ?_⟩
  · exact fun i => addrPrec_isSome hin i
  · rw [hdialled]
    apply (upToFirst_sublist dial _).nodup
    apply (descent_nodup _ me l).map
    exact fun i j h => rankToAddr_injective h

/-- Process 4 has taken in processes 0 and 2, which do not answer any more. -/
theorem predecessor_search_ends_fourth : ∃ p, ∃ l : Fin np, ∃ q actions,
    exec (procStep fourth) fourthAlone (insertions [2]) = some p ∧ p.prec = rankToAddr l.val ∧
      stateMachine fourth (fun _ => false) (.disconnectPred (rankToAddr 2)) p = some (q, actions) ∧
      dialled actions = upToFirst (fun _ => false)
        ((descent (p.lts p.lis).circuit 4 l).map fun i => rankToAddr i.val) := by
  have hrun : (exec (procStep fourth) fourthAlone (insertions [2])).isSome := by decide
  obtain ⟨p, hp⟩ := Option.isSome_iff_exists.mp hrun
  have hseveral : ∀ p ∈ exec (procStep fourth) fourthAlone (insertions [2]),
      p.automatonState = .several := by
    decide
  have haddressed := addressed_insertions (show 4 ∉ ([2] : List (Fin np)) by decide)
  obtain ⟨-, -, l, q, actions, hprec, hstep, hdialled, -⟩ := predecessor_search_ends rfl
    automatonInit_fourth haddressed hp (hseveral p hp) (fun _ => false) (rankToAddr 2)
  exact ⟨p, l, q, actions, hp, hprec, hstep, hdialled⟩

end UniformBroadcast.Trains
