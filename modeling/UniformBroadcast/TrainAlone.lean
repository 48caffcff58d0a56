import UniformBroadcast.Draining
import UniformBroadcast.TrainRuns
import UniformBroadcast.TrainVisits

/-!
# Becoming alone

A process that has lost all others moves its unstable wagons to `wagonsToDeliver`, round
after round. A process that goes on receiving empty trains delivers the same wagons in
the same order in two laps, since of the three lists of a train the one that the next
visit fills is empty.
-/

namespace UniformBroadcast.Trains

open TransitionRuns Draining

variable {ntr : ℕ}

/-! ## One visit -/

section Visit

variable {my : Address} {t : Train ntr} {p : Proc ntr}

/-- The wagons of a train that its visit records. -/
def recorded (my : Address) (t : Train ntr) (p : Proc ntr) : List Wagon :=
  let u := updateCircuit t.stamp.id t.circuit p
  t.wagons.filter (isRecorded my u.1 u.2.goneProc)

/-- The wagon of the process that leaves with a train. -/
def ownOn (t : Train ntr) (p : Proc ntr) : Option Wagon :=
  ownWagon (nextRound t.stamp p.lts) (updateCircuit t.stamp.id t.circuit p).2

theorem updateCircuit_keeps (id : Fin ntr) (circuit : Address) (p : Proc ntr) :
    (updateCircuit id circuit p).2.wagonsToDeliver = p.wagonsToDeliver ∧
    (updateCircuit id circuit p).2.unstableWagons = p.unstableWagons ∧
    (updateCircuit id circuit p).2.lts = p.lts := by
  rw [updateCircuit]
  split <;> exact ⟨rfl, rfl, rfl⟩

theorem trainHandling_wagonsToDeliver :
    (trainHandling my t p).wagonsToDeliver =
      p.wagonsToDeliver ++ p.unstableWagons t.stamp.id (nextRound t.stamp p.lts - 2) := by
  rw [← (updateCircuit_keeps t.stamp.id t.circuit p).1]
  rfl

theorem trainHandling_lastRound :
    lastRound (trainHandling my t p) =
      setAt (lastRound p) t.stamp.id (nextRound t.stamp p.lts) := by
  funext id
  by_cases h : id = t.stamp.id
  · subst h
    simp [lastRound, trainHandling]
  · simp [lastRound, trainHandling, h, (updateCircuit_keeps t.stamp.id t.circuit p).2.2]

/-- A visit empties one list of unstable wagons and extends another one. -/
theorem trainHandling_unstableWagons :
    (trainHandling my t p).unstableWagons =
      setAt p.unstableWagons t.stamp.id
        (Function.update
          (Function.update (p.unstableWagons t.stamp.id) (nextRound t.stamp p.lts - 2) [])
          (nextRound t.stamp p.lts)
          (p.unstableWagons t.stamp.id (nextRound t.stamp p.lts) ++
            (recorded my t p ++ (ownOn t p).toList))) := by
  have hne : ∀ r : Fin nr, r ≠ r - 2 := by decide
  have hold : Function.update (p.unstableWagons t.stamp.id) (nextRound t.stamp p.lts - 2) []
      (nextRound t.stamp p.lts) = p.unstableWagons t.stamp.id (nextRound t.stamp p.lts) :=
    Function.update_of_ne (hne _) _ _
  have hown : (ownOn t p).toList =
      if (firstMsg (updateCircuit t.stamp.id t.circuit p).2.wagonToSend).isSome then
        [{ (updateCircuit t.stamp.id t.circuit p).2.wagonToSend with
          round := nextRound t.stamp p.lts }] else [] := by
    rw [ownOn, ownWagon]
    split <;> rfl
  simp only [trainHandling, sortWagons_spec, setAt, Function.update_self, hold, hown, recorded,
    Function.update_idem, List.append_assoc]

theorem trainHandling_wagonToSend :
    (trainHandling my t p).wagonToSend =
      if (ownOn t p).isSome then newWiw my
      else (updateCircuit t.stamp.id t.circuit p).2.wagonToSend := by
  simp only [trainHandling, ownOn, ownWagon]
  split <;> simp_all

end Visit

/-! ## The list that the next visit fills -/

/-- Of the lists of each train, the one that its next visit fills is empty; all of them are
when the process is not in `SEVERAL`. -/
structure Vacant (p : Proc ntr) : Prop where
  outside : p.automatonState ≠ .several → ∀ id round, p.unstableWagons id round = []
  next : ∀ id, p.unstableWagons id (lastRound p id + 1) = []

theorem Vacant.of_empty {p : Proc ntr} (h : ∀ id round, p.unstableWagons id round = []) :
    Vacant p where
  outside _ := h
  next id := h id _

theorem Vacant.congr {p q : Proc ntr} (h : Vacant p)
    (hunstable : q.unstableWagons = p.unstableWagons)
    (hround : lastRound q = lastRound p)
    (hstate : p.automatonState = .several → q.automatonState = .several) : Vacant q where
  outside hq := by
    rw [hunstable]
    exact h.outside fun hp => hq (hstate hp)
  next id := by
    rw [hunstable, hround]
    exact h.next id

/-- A train in step is handled under the round after the last one. -/
theorem nextRound_inStep {p : Proc ntr} {stamp : Stamp ntr}
    (h : stamp.round = lastRound p stamp.id ∨ stamp.round = lastRound p stamp.id + 1) :
    nextRound stamp p.lts = lastRound p stamp.id + 1 := by
  have hne : ∀ r : Fin nr, r + 1 ≠ r := by decide
  rw [nextRound, ← lastRound]
  rcases h with heq | hsucc
  · rw [if_pos heq, heq]
  · rw [if_neg (by rw [hsucc]; exact hne _), hsucc]

theorem Vacant.handle {my : Address} {t : Train ntr} {p q : Proc ntr} (h : Vacant p)
    (hstep : t.stamp.round = lastRound p t.stamp.id ∨ t.stamp.round = lastRound p t.stamp.id + 1)
    (hunstable : q.unstableWagons = (trainHandling my t p).unstableWagons)
    (hround : lastRound q = lastRound (trainHandling my t p))
    (hstate : q.automatonState = .several) : Vacant q where
  outside hq := absurd hstate hq
  next id := by
    have hne : ∀ r : Fin nr, r + 1 + 1 ≠ r + 1 ∧ r + 1 + 1 = r + 1 - 2 := by decide
    rw [hunstable, hround, trainHandling_unstableWagons, trainHandling_lastRound,
      nextRound_inStep hstep]
    by_cases hid : id = t.stamp.id
    · subst hid
      obtain ⟨hother, hempty⟩ := hne (lastRound p t.stamp.id)
      simp only [setAt, Function.update_self]
      rw [Function.update_of_ne hother, hempty, Function.update_self]
    · simp only [setAt, Function.update_of_ne hid]
      exact h.next id

/-! ## The flush -/

/-- The unstable wagons of a process and those it has moved. -/
def stock (p : Proc ntr) : Stock (Fin ntr × Fin nr) Wagon where
  moved := p.wagonsToDeliver
  table k := p.unstableWagons k.1 k.2

/-- `(round + i) % NR`. -/
def roundPlus (round : Fin nr) (i : ℕ) : Fin nr := ⟨(round.val + i) % nr, Nat.mod_lt _ (by decide)⟩

/-- The order in which the flush loops visit the lists. -/
def flushOrder (p : Proc ntr) : List (Fin ntr × Fin nr) :=
  (List.range' 1 nr).flatMap fun aRound =>
    (trainsAfter p.lis).map fun id => (id, roundPlus (lastRound p id) aRound)

theorem stock_update (p : Proc ntr) (id : Fin ntr) (round : Fin nr) :
    stock { p with
      wagonsToDeliver := p.wagonsToDeliver ++ p.unstableWagons id round
      unstableWagons := setAt p.unstableWagons id
        (Function.update (p.unstableWagons id) round []) } = drain (stock p) (id, round) := by
  rw [stock, drain]
  congr 1
  funext k
  obtain ⟨id', round'⟩ := k
  by_cases hid : id' = id
  · subst hid
    by_cases hround : round' = round
    · subst hround
      simp
    · simp [stock, hround]
  · simp [stock, hid]

theorem stock_trainHandling (my : Address) (t : Train ntr) (p : Proc ntr) :
    stock (trainHandling my t p) =
      extend (drain (stock p) (t.stamp.id, nextRound t.stamp p.lts - 2))
        (t.stamp.id, nextRound t.stamp p.lts) (recorded my t p ++ (ownOn t p).toList) := by
  have hne : ∀ r : Fin nr, r ≠ r - 2 := by decide
  have hold : Function.update (stock p).table
      (t.stamp.id, nextRound t.stamp p.lts - 2) [] (t.stamp.id, nextRound t.stamp p.lts) =
      p.unstableWagons t.stamp.id (nextRound t.stamp p.lts) := by
    apply Function.update_of_ne
    intro h
    exact hne _ (Prod.mk.inj h).2
  rw [stock, trainHandling_wagonsToDeliver, trainHandling_unstableWagons, drain, extend]
  dsimp only
  rw [hold]
  congr 1
  funext k
  obtain ⟨id', round'⟩ := k
  by_cases hid : id' = t.stamp.id
  · subst hid
    by_cases hround : round' = nextRound t.stamp p.lts
    · subst hround
      simp
    · by_cases hround' : round' = nextRound t.stamp p.lts - 2
      · subst hround'
        simp [hround]
      · simp [stock, hround, hround']
  · simp [stock, hid]

theorem foldl_flushRound (aRound : ℕ) (ids : List (Fin ntr)) (p : Proc ntr) :
    stock (ids.foldl (flushRound aRound) p) =
      (ids.map fun id => (id, roundPlus (lastRound p id) aRound)).foldl drain (stock p) ∧
    (ids.foldl (flushRound aRound) p).lts = p.lts ∧
    (ids.foldl (flushRound aRound) p).lis = p.lis := by
  induction ids generalizing p with
  | nil => exact ⟨rfl, rfl, rfl⟩
  | cons id ids ih =>
    obtain ⟨hstock, hlts, hlis⟩ := ih (flushRound aRound p id)
    refine ⟨?_, hlts, hlis⟩
    rw [List.foldl_cons, hstock, List.map_cons, List.foldl_cons, ← stock_update]
    rfl

theorem stock_flush (p : Proc ntr) : stock (flush p) = (flushOrder p).foldl drain (stock p) := by
  have hrounds : ∀ (rounds : List ℕ) (q : Proc ntr), q.lts = p.lts → q.lis = p.lis →
      stock (rounds.foldl (fun p aRound => (trainsAfter p.lis).foldl (flushRound aRound) p) q) =
        (rounds.flatMap fun aRound => (trainsAfter p.lis).map fun id =>
          (id, roundPlus (lastRound p id) aRound)).foldl drain (stock q) := by
    intro rounds
    induction rounds with
    | nil =>
      intro q _ _
      rfl
    | cons aRound rounds ih =>
      intro q hlts hlis
      obtain ⟨hstock, hlts', hlis'⟩ := foldl_flushRound aRound (trainsAfter q.lis) q
      have hround : lastRound q = lastRound p := by
        funext id
        rw [lastRound, lastRound, hlts]
      rw [List.foldl_cons, ih _ (hlts'.trans hlts) (hlis'.trans hlis), List.flatMap_cons,
        List.foldl_append, hstock, hround, hlis]
  exact hrounds _ p rfl rfl

theorem flush_wagonToSend (p : Proc ntr) : (flush p).wagonToSend = p.wagonToSend := by
  obtain ⟨delivered, unstable, hflush⟩ := flush_frame p
  rw [hflush]

theorem flush_lts (p : Proc ntr) : (flush p).lts = p.lts := by
  obtain ⟨delivered, unstable, hflush⟩ := flush_frame p
  rw [hflush]

/-! ## Two more laps -/

theorem idPlus_add (id : Fin ntr) (i j : ℕ) : idPlus (idPlus id i) j = idPlus id (i + j) := by
  ext
  simp [idPlus, Nat.add_assoc]

theorem idPlus_ntr (id : Fin ntr) : idPlus id ntr = id := by
  ext
  simp [idPlus, Nat.mod_eq_of_lt id.isLt]

theorem idPlus_injOn {id : Fin ntr} {i j : ℕ} (hi : i ∈ List.range' 1 ntr)
    (hj : j ∈ List.range' 1 ntr) (h : idPlus id i = idPlus id j) : i = j := by
  have hmod : (id.val + i) % ntr = (id.val + j) % ntr := congrArg Fin.val h
  rw [List.mem_range'_1] at hi hj
  rcases Nat.le_total i j with hle | hle
  · have hsub : (id.val + j - (id.val + i)) % ntr = 0 := Nat.sub_mod_eq_zero_of_mod_eq hmod.symm
    rw [Nat.add_sub_add_left, Nat.mod_eq_of_lt (by omega)] at hsub
    omega
  · have hsub : (id.val + i - (id.val + j)) % ntr = 0 := Nat.sub_mod_eq_zero_of_mod_eq hmod
    rw [Nat.add_sub_add_left, Nat.mod_eq_of_lt (by omega)] at hsub
    omega

theorem trainsAfter_nodup (lis : Fin ntr) : (trainsAfter lis).Nodup := by
  apply List.Nodup.map_on
  · intro i hi j hj h
    exact idPlus_injOn hi hj h
  · exact List.nodup_range'

theorem mem_trainsAfter (lis id : Fin ntr) : id ∈ trainsAfter lis := by
  have hsubset : trainsAfter lis ⊆ List.finRange ntr := fun id _ => List.mem_finRange id
  have hlength : (List.finRange ntr).length ≤ (trainsAfter lis).length := by
    simp [trainsAfter]
  have hperm := ((trainsAfter_nodup lis).subperm hsubset).perm_of_length_le hlength
  exact hperm.mem_iff.mpr (List.mem_finRange id)

/-- The process in `SEVERAL` receives a recent train. -/
def receive (my : Address) (p : Proc ntr) (t : Train ntr) : Option (Proc ntr) :=
  if isRecentTrain t.stamp p.lts p.lis then
    some { trainHandling my t p with lis := t.stamp.id }
  else none

/-- The train carries no wagon, has the round of its last handling and leaves without a
wagon of the process. -/
def Idle (my : Address) (p : Proc ntr) (t : Train ntr) : Prop :=
  t.wagons = [] ∧ t.stamp.round = lastRound p t.stamp.id ∧
    ((trainHandling my t p).lts t.stamp.id).pWtosend = none

instance (my : Address) (p : Proc ntr) (t : Train ntr) : Decidable (Idle my p t) :=
  inferInstanceAs (Decidable (_ ∧ _ ∧ _))

/-- The order in which `k` visits after train `lis` empty the lists. -/
def lapOrder (lis : Fin ntr) (rounds : Fin ntr → Fin nr) (k : ℕ) : List (Fin ntr × Fin nr) :=
  (List.range' 1 k).map fun i => (idPlus lis i, roundPlus (rounds (idPlus lis i)) 2)

theorem receive_idle {my : Address} {p q : Proc ntr} {t : Train ntr}
    (h : receive my p t = some q) (hidle : Idle my p t) :
    t.stamp.id = idPlus p.lis 1 ∧ q.lis = t.stamp.id ∧
    stock q = drain (stock p) (t.stamp.id, roundPlus (lastRound p t.stamp.id) 2) ∧
    lastRound q = setAt (lastRound p) t.stamp.id (lastRound p t.stamp.id + 1) := by
  obtain ⟨hwagons, hround, hown⟩ := hidle
  rw [receive] at h
  split at h
  · rename_i hrecent
    obtain rfl := Option.some.inj h
    have hnext := nextRound_inStep (.inl hround)
    have hnone : ownOn t p = none := by
      rw [← hown]
      simp [trainHandling, ownOn, ownWagon]
    have hrecorded : recorded my t p = [] := by
      rw [recorded, hwagons]
      rfl
    have hplus : ∀ r : Fin nr, r + 1 - 2 = roundPlus r 2 ∧ r + 1 ≠ roundPlus r 2 := by decide
    obtain ⟨hminus, hne⟩ := hplus (lastRound p t.stamp.id)
    refine ⟨isRecentTrain_id hrecent, rfl, ?_, ?_⟩
    · have hsame : Function.update
          (Function.update (p.unstableWagons t.stamp.id) (roundPlus (lastRound p t.stamp.id) 2) [])
          (lastRound p t.stamp.id + 1)
          (p.unstableWagons t.stamp.id (lastRound p t.stamp.id + 1) ++ ([] ++ [])) =
          Function.update (p.unstableWagons t.stamp.id)
            (roundPlus (lastRound p t.stamp.id) 2) [] := by
        have hold := Function.update_of_ne hne [] (p.unstableWagons t.stamp.id)
        rw [List.append_nil, List.append_nil, ← hold, Function.update_eq_self]
      rw [← stock_update]
      simp only [stock, trainHandling_unstableWagons, trainHandling_wagonsToDeliver, hnext, hminus,
        hrecorded, hnone, Option.toList_none, hsame]
    · have hrounds : lastRound (trainHandling my t p) = _ := trainHandling_lastRound
      rw [← hnext, ← hrounds]
      rfl
  · cases h

theorem stock_lap {my : Address} {p q : Proc ntr} {ts : List (Train ntr)} (hle : ts.length ≤ ntr)
    (h : exec (receive my) p ts = some q) (hidle : Along (receive my) (Idle my) p ts) :
    q.lis = idPlus p.lis ts.length ∧
    stock q = (lapOrder p.lis (lastRound p) ts.length).foldl drain (stock p) ∧
    ∀ id, lastRound q id =
      if id ∈ (List.range' 1 ts.length).map (idPlus p.lis) then lastRound p id + 1
      else lastRound p id := by
  induction ts using List.reverseRecOn generalizing q with
  | nil =>
    obtain rfl := Option.some.inj h
    refine ⟨?_, rfl, fun id => rfl⟩
    ext
    simp [idPlus, Nat.mod_eq_of_lt p.lis.isLt]
  | append_singleton ts t ih =>
    rw [exec_append] at h
    obtain ⟨r, hr, hlast⟩ := Option.bind_eq_some_iff.mp h
    obtain ⟨q', hq', hnil⟩ := Option.bind_eq_some_iff.mp hlast
    obtain rfl := Option.some.inj hnil
    obtain ⟨hidle, hidleLast⟩ := (along_append p ts [t]).mp hidle
    rw [List.length_append, List.length_singleton] at hle ⊢
    obtain ⟨hlis, hstock, hround⟩ := ih (by omega) hr hidle
    obtain ⟨hid, hlis', hstock', hround'⟩ := receive_idle hq' (hidleLast r hr).1
    -- the train is not one of those that the lap has handled
    have hnext : t.stamp.id = idPlus p.lis (1 + ts.length) := by
      rw [hid, hlis, idPlus_add, Nat.add_comm]
    have hnew : t.stamp.id ∉ (List.range' 1 ts.length).map (idPlus p.lis) := by
      intro hmem
      obtain ⟨i, hi, heq⟩ := List.mem_map.mp hmem
      rw [hnext] at heq
      rw [List.mem_range'_1] at hi
      have hsame := idPlus_injOn (List.mem_range'_1.mpr ⟨by omega, by omega⟩)
        (List.mem_range'_1.mpr ⟨by omega, by omega⟩) heq
      omega
    have hold := hround t.stamp.id
    rw [if_neg hnew] at hold
    refine ⟨?_, ?_, ?_⟩
    · rw [hlis', hnext, Nat.add_comm]
    · rw [hstock', hstock, hold, lapOrder, lapOrder, List.range'_concat, List.map_append,
        List.foldl_append, hnext]
      simp
    · intro id
      rw [hround']
      simp only [List.range'_concat, List.map_append, List.mem_append]
      by_cases heq : id = t.stamp.id
      · subst heq
        simp [hold, ← hnext]
      · have hlast : id ∉ [1 + 1 * ts.length].map (idPlus p.lis) := by
          simpa [← hnext] using heq
        rw [setAt, Function.update_of_ne heq, hround]
        exact if_congr (or_iff_left hlast).symm rfl rfl

theorem stock_twoLaps {my : Address} {p q : Proc ntr} {ts : List (Train ntr)}
    (hlength : ts.length = 2 * ntr) (h : exec (receive my) p ts = some q)
    (hidle : Along (receive my) (Idle my) p ts) :
    stock q = ((trainsAfter p.lis).map fun id => (id, roundPlus (lastRound p id) 3)).foldl drain
      (((trainsAfter p.lis).map fun id => (id, roundPlus (lastRound p id) 2)).foldl drain
        (stock p)) := by
  have hfirst : (ts.take ntr).length = ntr := by
    rw [List.length_take]
    omega
  have hsecond : (ts.drop ntr).length = ntr := by
    rw [List.length_drop]
    omega
  rw [← List.take_append_drop ntr ts, exec_append] at h
  rw [← List.take_append_drop ntr ts, along_append] at hidle
  obtain ⟨r, hr, hrest⟩ := Option.bind_eq_some_iff.mp h
  obtain ⟨hlis, hstock, hround⟩ := stock_lap (Nat.le_of_eq hfirst) hr hidle.1
  obtain ⟨-, hstock', -⟩ := stock_lap (Nat.le_of_eq hsecond) hrest (hidle.2 r hr)
  rw [hfirst, idPlus_ntr] at hlis
  have hplus : ∀ a : Fin nr, roundPlus (a + 1) 2 = roundPlus a 3 := by decide
  have hround' : ∀ id, lastRound r id = lastRound p id + 1 := by
    intro id
    rw [hround, hfirst]
    exact if_pos (mem_trainsAfter p.lis id)
  rw [hstock', hstock, hfirst, hsecond, hlis]
  simp only [lapOrder, hround', hplus, trainsAfter, List.map_map, Function.comp_def]

/-! ## The two ways -/

theorem flushOrder_eq (p : Proc ntr) :
    flushOrder p = ((trainsAfter p.lis).map fun id => (id, roundPlus (lastRound p id) 1)) ++
      (((trainsAfter p.lis).map fun id => (id, roundPlus (lastRound p id) 2)) ++
        ((trainsAfter p.lis).map fun id => (id, roundPlus (lastRound p id) 3))) := by
  simp [flushOrder, List.range']

theorem mem_flushOrder (p : Proc ntr) (k : Fin ntr × Fin nr) : k ∈ flushOrder p := by
  obtain ⟨id, round⟩ := k
  have hplus : ∀ r r' : Fin nr, r' = roundPlus r 1 ∨ r' = roundPlus r 2 ∨ r' = roundPlus r 3 := by
    decide
  rw [flushOrder_eq, List.mem_append, List.mem_append]
  have hid := mem_trainsAfter p.lis id
  rcases hplus (lastRound p id) round with h | h | h
  · exact .inl (List.mem_map.mpr ⟨id, hid, by rw [h]⟩)
  · exact .inr (.inl (List.mem_map.mpr ⟨id, hid, by rw [h]⟩))
  · exact .inr (.inr (List.mem_map.mpr ⟨id, hid, by rw [h]⟩))

theorem flushOrder_nodup (p : Proc ntr) : (flushOrder p).Nodup := by
  have hplus : ∀ r : Fin nr, ∀ a ∈ List.range' 1 nr, ∀ b ∈ List.range' 1 nr,
      roundPlus r a = roundPlus r b → a = b := by decide
  rw [flushOrder, List.nodup_flatMap]
  constructor
  · intro aRound _
    exact (trainsAfter_nodup p.lis).map fun id id' h => (Prod.mk.inj h).1
  · apply List.Pairwise.imp_of_mem _ List.nodup_range'
    intro a b ha hb hne k hka hkb
    obtain ⟨id, -, rfl⟩ := List.mem_map.mp hka
    obtain ⟨id', -, heq⟩ := List.mem_map.mp hkb
    obtain ⟨rfl, hround⟩ := Prod.mk.inj heq
    exact hne (hplus _ a ha b hb hround.symm)

/-- The flush moves what two more laps would deliver. -/
theorem stock_flush_eq_twoLaps {my : Address} {p q : Proc ntr} {ts : List (Train ntr)}
    (hp : Vacant p) (hlength : ts.length = 2 * ntr) (h : exec (receive my) p ts = some q)
    (hidle : Along (receive my) (Idle my) p ts) : stock (flush p) = stock q := by
  have hempty : ∀ k ∈ (trainsAfter p.lis).map fun id => (id, roundPlus (lastRound p id) 1),
      (stock p).table k = [] := by
    intro k hk
    obtain ⟨id, -, rfl⟩ := List.mem_map.mp hk
    exact hp.next id
  rw [stock_flush, flushOrder_eq, List.foldl_append, foldl_drain_of_empty hempty,
    List.foldl_append, stock_twoLaps hlength h hidle]

theorem flush_unstableWagons (p : Proc ntr) (id : Fin ntr) (round : Fin nr) :
    (flush p).unstableWagons id round = [] := by
  have htable := foldl_drain_table (stock p) (flushOrder p) (id, round)
  rw [← stock_flush, if_pos (mem_flushOrder p _)] at htable
  exact htable

/-- Outside `SEVERAL` there are no unstable wagons. -/
theorem treat_outside {c : Config} {p q : Proc ntr} {m : Msg ntr} (htreat : Treatment c p m q)
    (h : p.automatonState ≠ .several → ∀ id round, p.unstableWagons id round = [])
    (hq : q.automatonState ≠ .several) : ∀ id round, q.unstableWagons id round = [] := by
  cases htreat with
  | kept _ _ keeps stays _ =>
    rw [keeps.unstableWagons]
    exact h fun hp => hq (stays hp)
  | forwarded stamp circuit wagons waits => exact h (by rw [waits]; decide)
  | confirmed => exact absurd rfl hq
  | started => exact absurd rfl hq
  | handled stamp circuit wagons several recent =>
    have hstate := trainHandling_automatonState c.myAddress ⟨stamp, circuit, wagons⟩ p
    exact absurd (hstate.trans several) hq
  | alone sender r several keeps => exact flush_unstableWagons _

theorem Vacant.treat {c : Config} {p q : Proc ntr} {m : Msg ntr} {dial : Address → Bool}
    (h : Vacant p) (hstep : InStep p (.message dial m)) (htreat : Treatment c p m q) :
    Vacant q := by
  have hempty : p.automatonState ≠ .several → q.unstableWagons = p.unstableWagons → Vacant q := by
    intro hstate hunstable
    apply Vacant.of_empty
    rw [hunstable]
    exact h.outside hstate
  have houtside := treat_outside htreat h.outside
  cases htreat with
  | kept _ _ keeps stays _ =>
    refine h.congr keeps.unstableWagons ?_ stays
    funext id
    rw [lastRound, lastRound, keeps.lts]
  | forwarded stamp circuit wagons waits => exact hempty (by rw [waits]; decide) rfl
  | confirmed stamp circuit wagons waits => exact hempty (by rw [waits]; decide) rfl
  | started sender waits => exact hempty (by rw [waits]; decide) rfl
  | handled stamp circuit wagons several recent =>
    exact h.handle (hstep several recent) rfl rfl
      ((trainHandling_automatonState c.myAddress ⟨stamp, circuit, wagons⟩ p).trans several)
  | alone sender r several keeps => exact Vacant.of_empty (houtside (by simp))

theorem vacant_step {c : Config} {p q : Proc ntr} {e : ProcEvent ntr} (h : Vacant p)
    (hstep : InStep p e) (hq : procStep c p e = some q) : Vacant q := by
  cases e with
  | message dial m =>
    obtain ⟨⟨q', actions⟩, hmachine, rfl⟩ := Option.map_eq_some_iff.mp hq
    exact h.treat hstep (stateMachine_treatment hmachine)
  | wake dial =>
    rw [procStep] at hq
    split at hq
    · rename_i hwait
      obtain ⟨⟨q', actions⟩, hsleep, rfl⟩ := Option.map_eq_some_iff.mp hq
      have hempty := h.outside (by rw [hwait]; decide)
      apply Vacant.of_empty
      obtain ⟨succ, rfl | rfl⟩ := offlineInit_cases hsleep
      · exact hempty
      · exact hempty
    · cases hq
  | broadcast mp =>
    rw [procStep, broadcast] at hq
    split at hq
    · cases hq
    · obtain rfl := Option.some.inj hq
      split
      · exact h.congr rfl rfl id
      · exact h.congr rfl rfl id

/-- Alone in `q`, or after two more laps in `r`, the process that was in `p` has moved the same
wagons in the same order, and all its unstable ones. -/
def MovesAlike (p q r : Proc ntr) : Prop :=
  ∃ moved own, q.wagonsToDeliver = p.wagonsToDeliver ++ moved ++ [own] ∧
    r.wagonsToDeliver = p.wagonsToDeliver ++ moved ∧
    (∀ w, moved.count w = unstableCount w p.unstableWagons) ∧
    ∀ id round, q.unstableWagons id round = [] ∧ r.unstableWagons id round = []

/-- A process that becomes alone delivers what it would deliver in two more laps of empty
trains, and then its own wagon. -/
theorem becoming_alone_delivers_as_continuing {c : Config} {p₀ p q r : Proc ntr}
    {es : List (ProcEvent ntr)} {ts : List (Train ntr)} {dial : Address → Bool} {a : Address}
    {actions : List (Action ntr)} (hempty : ∀ id round, p₀.unstableWagons id round = [])
    (hrun : exec (procStep c) p₀ es = some p) (hstep : Along (procStep c) InStep p₀ es)
    (hp : p.automatonState = .several)
    (hlost : stateMachine c dial (.disconnectPred a) p = some (q, actions))
    (hq : q.automatonState = .aloneInsertWait) (hlaps : ts.length = 2 * ntr)
    (hgo : exec (receive c.myAddress) p ts = some r)
    (hidle : Along (receive c.myAddress) (Idle c.myAddress) p ts) :
    MovesAlike p q r := by
  have hvacant : Vacant p :=
    exec_invariant_along (fun _ _ _ => vacant_step) (Vacant.of_empty hempty) hstep hrun
  have hsame := stock_flush_eq_twoLaps hvacant hlaps hgo hidle
  have hmoved : (flush p).wagonsToDeliver =
      p.wagonsToDeliver ++ (flushOrder p).flatMap (stock p).table := by
    have h := foldl_drain_moved (stock p) (flushOrder_nodup p)
    rw [← stock_flush] at h
    exact h
  have hdelivered : (flush p).wagonsToDeliver = r.wagonsToDeliver := congrArg Stock.moved hsame
  have hr : ∀ id round, r.unstableWagons id round = [] := by
    intro id round
    have h := congrFun (congrArg Stock.table hsame) (id, round)
    exact h.symm.trans (flush_unstableWagons p id round)
  have hcount : ∀ w, ((flushOrder p).flatMap (stock p).table).count w =
      unstableCount w p.unstableWagons := by
    intro w
    rw [count_flatMap_table _ (flushOrder_nodup p) (mem_flushOrder p), Fintype.sum_prod_type]
    rfl
  cases stateMachine_treatment hlost with
  | kept _ _ _ stays _ =>
    rw [stays hp] at hq
    cases hq
  | alone _ s _ keeps =>
    have hstock : ∀ t : Proc ntr, stock t = stock p → t.lts = p.lts → t.lis = p.lis →
        stock (flush t) = stock (flush p) := by
      intro t ht hlts hlis
      have hround : lastRound t = lastRound p := by
        funext id
        rw [lastRound, lastRound, hlts]
      rw [stock_flush, stock_flush, flushOrder, flushOrder, ht, hround, hlis]
    let s' : Proc ntr := { s with
      goneProc := 0#16
      wagonToSend := signalDepartures s.goneProc (s.lts s.lis).circuit s.wagonToSend }
    have hflush : (flush s').wagonsToDeliver = (flush p).wagonsToDeliver :=
      congrArg Stock.moved (hstock s'
        (by simp only [s', stock, keeps.wagonsToDeliver, keeps.unstableWagons]) keeps.lts keeps.lis)
    refine ⟨_, (flush s').wagonToSend, ?_, hdelivered ▸ hmoved, hcount,
      fun id round => ⟨flush_unstableWagons s' id round, hr id round⟩⟩
    rw [← hmoved, ← hflush]
    rfl

/-- A process on a circuit of two, with two trains. -/
def paired : Proc 2 :=
  { Proc.initial ⟨1#16, 3, 64⟩ Nat.two_pos with
    automatonState := .several
    prec := 2#16
    succ := 2#16
    lts := fun id => ⟨⟨id, 0#8, 0⟩, 3#16, none, 0, none⟩ }

/-- The trains of a lap and a half, with one wagon of the other process each. -/
def heard : List (ProcEvent 2) :=
  [(⟨0, 1#8, 0⟩, 5#8), (⟨1, 1#8, 0⟩, 6#8), (⟨0, 3#8, 1⟩, 7#8)].map fun x =>
    .message (fun _ => false)
      (.train x.1 3#16 (some [⟨2#16, 0, [⟨amBroadcast, [x.2]⟩]⟩]))

/-- Two laps of empty trains. -/
def silence : List (Train 2) :=
  [⟨1, 3#8, 1⟩, ⟨0, 5#8, 2⟩, ⟨1, 5#8, 2⟩, ⟨0, 7#8, 0⟩].map fun stamp => ⟨stamp, 3#16, []⟩

def pairedHeard : Option (Proc 2) := exec (procStep ⟨1#16, 3, 64⟩) paired heard

/-- The other process is lost and nobody answers. -/
def pairedAlone : Option (Proc 2) := pairedHeard.bind fun p =>
  (stateMachine ⟨1#16, 3, 64⟩ (fun _ => false) (.disconnectPred 2#16) p).map Prod.fst

def pairedOn : Option (Proc 2) := pairedHeard.bind fun p => exec (receive 1#16) p silence

theorem becoming_alone_paired : ∃ p q r, pairedHeard = some p ∧ pairedAlone = some q ∧
    pairedOn = some r ∧ MovesAlike p q r := by
  obtain ⟨q, hq⟩ := Option.isSome_iff_exists.mp (show pairedAlone.isSome by decide)
  obtain ⟨r, hr⟩ := Option.isSome_iff_exists.mp (show pairedOn.isSome by decide)
  obtain ⟨p, hp, hmachine⟩ := Option.bind_eq_some_iff.mp hq
  obtain ⟨p', hp', hgo⟩ := Option.bind_eq_some_iff.mp hr
  obtain rfl := Option.some.inj (hp.symm.trans hp')
  obtain ⟨⟨q', actions⟩, hlost, rfl⟩ := Option.map_eq_some_iff.mp hmachine
  have hstate : ∀ p ∈ pairedHeard, p.automatonState = .several := by decide
  have halone : ∀ q ∈ pairedAlone, q.automatonState = .aloneInsertWait := by decide
  have hidle : ∀ p ∈ pairedHeard, Along (receive 1#16) (Idle 1#16) p silence := by decide
  exact ⟨p, q', r, hp, hq, hr, becoming_alone_delivers_as_continuing (fun _ _ => rfl) hp
    (by decide) (hstate p hp) hlost (halone q' hq) rfl hgo (hidle p hp)⟩

end UniformBroadcast.Trains
