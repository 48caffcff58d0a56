import UniformBroadcast.TrainStateMachine
import UniformBroadcast.TransitionRuns
import UniformBroadcast.LapSchedule

/-!
# A ring of processes with fixed membership

`n` processes joined by reliable FIFO links from each to its successor. One event is a
broadcast by the application of a process, or the treatment by a process of the oldest
message of its incoming link. The state keeps, for each process and each train it has
handled, the wagon it put on the train.
-/

namespace UniformBroadcast.Trains

open LapSchedule

/-- The members of a ring of `n` processes, in the order of the ring. -/
structure Members (n : ℕ) where
  addr : Fin n → Address
  circuit : Address
  waitNbMax : ℕ
  wagonMaxLen : ℕ
  injective : Function.Injective addr
  member : ∀ i, addrIsMember (addr i) circuit = true

variable {n ntr : ℕ}

def Members.config (C : Members n) (i : Fin n) : Config where
  myAddress := C.addr i
  waitNbMax := C.waitNbMax
  wagonMaxLen := C.wagonMaxLen

/-- The successor in the ring. -/
def next (i : Fin n) : Fin n := ⟨(i.val + 1) % n, Nat.mod_lt _ (Nat.zero_lt_of_lt i.isLt)⟩

/-- The predecessor in the ring. -/
def pred (i : Fin n) : Fin n := ⟨(i.val + (n - 1)) % n, Nat.mod_lt _ (Nat.zero_lt_of_lt i.isLt)⟩

structure Ring (n ntr : ℕ) where
  procs : Fin n → Proc ntr
  links : Fin n → List (Msg ntr)
  put : Fin n → List (Option Wagon)

inductive Event (n : ℕ) where
  | broadcast (i : Fin n) (mp : Message)
  | handle (i : Fin n)
  deriving DecidableEq, Repr

/-- The messages that some actions write to the successor. -/
def written : List (Action ntr) → List (Msg ntr) := List.filterMap fun
  | .sendTrain _ lts => some (trainMsg lts)
  | .sendOther _ false msg => some msg
  | _ => none

/-- The process's own wagon on each train sent. -/
def ownWagons : List (Action ntr) → List (Option Wagon) := List.filterMap fun
  | .sendTrain _ lts => some lts.pWtosend
  | _ => none

@[simp] theorem written_nil : written ([] : List (Action ntr)) = [] := rfl

@[simp] theorem ownWagons_nil : ownWagons ([] : List (Action ntr)) = [] := rfl

@[simp] theorem written_sendTrain (addr : Address) (lts : Lts ntr) :
    written [.sendTrain addr lts] = [trainMsg lts] := rfl

@[simp] theorem ownWagons_sendTrain (addr : Address) (lts : Lts ntr) :
    ownWagons [.sendTrain addr lts] = [lts.pWtosend] := rfl

/-- Process `i` becomes `r.1`, keeps `rest` to treat and has done the actions `r.2`. -/
def Ring.after (s : Ring n ntr) (i : Fin n) (rest : List (Msg ntr))
    (r : Proc ntr × List (Action ntr)) : Ring n ntr where
  procs := Function.update s.procs i r.1
  links :=
    let links := Function.update s.links i rest
    Function.update links (next i) (links (next i) ++ written r.2)
  put := Function.update s.put i (s.put i ++ ownWagons r.2)

def step (C : Members n) (s : Ring n ntr) : Event n → Option (Ring n ntr)
  | .broadcast i mp =>
    (broadcast (C.config i) mp (s.procs i)).map fun p =>
      { s with procs := Function.update s.procs i p }
  | .handle i =>
    match s.links i with
    | [] => none
    | m :: rest =>
      (stateMachine (C.config i) (fun _ => false) m (s.procs i)).map (s.after i rest)

/-- A freshly formed ring: nothing is unstable, the processes agree on the rounds of the
last trains sent, and the `ntr` trains head in order towards process `0`, each recent for
every process that waits for it. -/
structure Fresh (C : Members n) (hn : 2 ≤ n) (s : Ring n ntr) : Prop where
  state : ∀ i, (s.procs i).automatonState = .several
  succ : ∀ i, (s.procs i).succ = C.addr (next i)
  cameProc : ∀ i, (s.procs i).cameProc = 0#16
  goneProc : ∀ i, (s.procs i).goneProc = 0#16
  lis : ∀ i, (s.procs i).lis.val = ntr - 1
  rounds : ∀ i j id, ((s.procs i).lts id).stamp.round = ((s.procs j).lts id).stamp.round
  unstable : ∀ i id round, (s.procs i).unstableWagons id round = []
  delivered : ∀ i, (s.procs i).wagonsToDeliver = []
  wagonToSend : ∀ i, (s.procs i).wagonToSend.sender = C.addr i
  put : ∀ i, s.put i = []
  trains : ∃ stamps : List (Stamp ntr), stamps.map Stamp.id = List.finRange ntr ∧
    (∀ st ∈ stamps, ∀ i, isRecentTrain st (s.procs i).lts (idPlus st.id (ntr - 1)) = true) ∧
    s.links ⟨0, Nat.lt_of_lt_of_le Nat.two_pos hn⟩ =
      stamps.map fun st => .train st C.circuit (some [])
  links : ∀ i : Fin n, i.val ≠ 0 → s.links i = []

/-! ## A freshly formed ring -/

/-- The processes of the ranks `0, .., n - 1`. -/
def Members.ofRanks (n : ℕ) (h : n ≤ np) (waitNbMax wagonMaxLen : ℕ) : Members n where
  addr i := rankToAddr i
  circuit := BitVec.ofNat 16 (2 ^ n - 1)
  waitNbMax := waitNbMax
  wagonMaxLen := wagonMaxLen
  injective := by
    have hall : ∀ i j : Fin np, rankToAddr i = rankToAddr j → i = j := by decide
    intro i j hij
    have hfin := hall ⟨i, i.isLt.trans_le h⟩ ⟨j, j.isLt.trans_le h⟩ hij
    exact Fin.ext (Fin.mk.inj hfin)
  member := by
    have hall : ∀ (n : Fin (np + 1)) (i : Fin np), i.val < n.val →
        addrIsMember (rankToAddr i) (BitVec.ofNat 16 (2 ^ n.val - 1)) = true := by decide
    intro i
    exact hall ⟨n, Nat.lt_succ_of_le h⟩ ⟨i, i.isLt.trans_le h⟩ i.isLt

/-- The members as they stand when no train has reached them. -/
def Ring.fresh (C : Members n) (h : 0 < ntr) : Ring n ntr where
  procs i := { Proc.initial (C.config i) h with
    automatonState := .several
    prec := C.addr (pred i)
    succ := C.addr (next i) }
  links i := if i.val = 0 then
    (List.finRange ntr).map fun id => .train ⟨id, 1#8, 0⟩ C.circuit (some []) else []
  put _ := []

/-- A run from there. -/
def runFresh (C : Members n) (h : 0 < ntr) (es : List (Event n)) : Option (Ring n ntr) :=
  TransitionRuns.exec (step C) (Ring.fresh C h) es

theorem fresh_fresh (C : Members n) (hn : 2 ≤ n) (h : 0 < ntr) : Fresh C hn (Ring.fresh C h) where
  state _ := rfl
  succ _ := rfl
  cameProc _ := rfl
  goneProc _ := rfl
  lis _ := rfl
  rounds _ _ _ := rfl
  unstable _ _ _ := rfl
  delivered _ := rfl
  wagonToSend _ := rfl
  put _ := rfl
  trains := by
    refine ⟨(List.finRange ntr).map fun id => ⟨id, 1#8, 0⟩, ?_, ?_, ?_⟩
    · simp [Function.comp_def]
    · intro st hst i
      obtain ⟨id, -, rfl⟩ := List.mem_map.mp hst
      have hid : id = idPlus (idPlus id (ntr - 1)) 1 := by
        have hlt := id.isLt
        ext
        simp only [idPlus]
        rw [Nat.mod_add_mod, Nat.add_assoc, Nat.sub_add_cancel h, Nat.add_mod_right,
          Nat.mod_eq_of_lt hlt]
      simp only [isRecentTrain, ← hid, if_true, Ring.fresh, Proc.initial]
      decide
    · simp [Ring.fresh, Function.comp_def]
  links i hi := if_neg hi

section After

variable (hn : 2 ≤ n) (s : Ring n ntr) (i j : Fin n) (rest : List (Msg ntr))
  (r : Proc ntr × List (Action ntr))

include hn in
theorem next_ne (i : Fin n) : next i ≠ i := by
  intro h
  have hi := i.isLt
  have hv : (i.val + 1) % n = i.val := congrArg Fin.val h
  rcases Nat.lt_or_ge (i.val + 1) n with hlt | hge
  · rw [Nat.mod_eq_of_lt hlt] at hv
    omega
  · rw [show i.val + 1 = n by omega, Nat.mod_self] at hv
    omega

@[simp] theorem after_procs_self : (s.after i rest r).procs i = r.1 := by simp [Ring.after]

theorem after_procs_of_ne (h : j ≠ i) : (s.after i rest r).procs j = s.procs j := by
  simp [Ring.after, h]

@[simp] theorem after_put_self : (s.after i rest r).put i = s.put i ++ ownWagons r.2 := by
  simp [Ring.after]

theorem after_put_of_ne (h : j ≠ i) : (s.after i rest r).put j = s.put j := by
  simp [Ring.after, h]

include hn in
theorem after_links_self : (s.after i rest r).links i = rest := by
  simp [Ring.after, (next_ne hn i).symm]

include hn in
theorem after_links_next : (s.after i rest r).links (next i) = s.links (next i) ++ written r.2 := by
  simp [Ring.after, next_ne hn i]

theorem after_links_of_ne (h : j ≠ i) (h' : j ≠ next i) :
    (s.after i rest r).links j = s.links j := by
  simp [Ring.after, h, h']

end After

/-! ## Handling a train in a ring whose membership does not change -/

/-- The loop records all the wagons when they all pass the filters; it sends on the
wagons that follow those of the successor. -/
theorem sortWagons_eq {my succ circuit gone : Address} {back rest u : List Wagon}
    (hrec : ∀ w ∈ back ++ rest, isRecorded my circuit gone w = true)
    (hback : ∀ w ∈ back, w.sender = succ) (hrest : ∀ w ∈ rest, w.sender ≠ succ) :
    sortWagons my succ circuit gone (back ++ rest) ⟨u, none, 0⟩ =
      ⟨u ++ (back ++ rest), if rest = [] then none else some rest, wagonsLen rest⟩ := by
  have hall : (back ++ rest).filter (isRecorded my circuit gone) = back ++ rest :=
    List.filter_eq_self.mpr hrec
  have hkept : ∀ w ∈ rest, isSentOn my succ circuit gone w = true := by
    intro w hw
    simp [isSentOn, hrec w (List.mem_append_right _ hw), (hrest w hw).symm]
  have hleft : ∀ w ∈ back, isSentOn my succ circuit gone w = false := by
    intro w hw
    simp [isSentOn, hback w hw]
  have hfilter : (back ++ rest).filter (isSentOn my succ circuit gone) = rest := by
    rw [List.filter_append, List.filter_eq_nil_iff.mpr (fun w hw => by simp [hleft w hw]),
      List.filter_eq_self.mpr hkept, List.nil_append]
  have hdrop : (back ++ rest).dropWhile (!isSentOn my succ circuit gone ·) = rest := by
    rw [List.dropWhile_append_of_pos (fun w hw => by simp [hleft w hw])]
    cases rest with
    | nil => rfl
    | cons w rest => rw [List.dropWhile_cons_of_neg (by simp [hkept w List.mem_cons_self])]
  rw [sortWagons_spec, hall, hfilter, fromFirst, hdrop]
  cases rest with
  | nil => simp
  | cons w rest => simp

theorem updateCircuit_steady {p : Proc ntr} (hcame : p.cameProc = 0#16) (hgone : p.goneProc = 0#16)
    (id : Fin ntr) (circuit : Address) : updateCircuit id circuit p =
      (if id.val = 0 then circuit else (p.lts ⟨0, Nat.zero_lt_of_lt id.isLt⟩).circuit, p) := by
  cases p
  simp only at hcame hgone
  subst hcame hgone
  rw [updateCircuit]
  split <;> simp

/-- What handling a train does when no process comes or goes and the wagons are those of
the successor, `back`, followed by others. -/
theorem trainHandling_steady {my circuit : Address} {t : Train ntr} {p : Proc ntr}
    {back rest : List Wagon} (hcame : p.cameProc = 0#16) (hgone : p.goneProc = 0#16)
    (hcircuit : (updateCircuit t.stamp.id t.circuit p).1 = circuit)
    (hwagons : t.wagons = back ++ rest)
    (hrec : ∀ w ∈ t.wagons, isRecorded my circuit 0#16 w = true)
    (hback : ∀ w ∈ back, w.sender = p.succ) (hrest : ∀ w ∈ rest, w.sender ≠ p.succ) :
    let round := nextRound t.stamp p.lts
    let own := ownWagon round p
    trainHandling my t p = { p with
      wagonsToDeliver := p.wagonsToDeliver ++ p.unstableWagons t.stamp.id (round - 2)
      unstableWagons := setAt p.unstableWagons t.stamp.id
        (Function.update (Function.update (p.unstableWagons t.stamp.id) (round - 2) []) round
          ((Function.update (p.unstableWagons t.stamp.id) (round - 2) []) round ++
            (t.wagons ++ own.toList)))
      lts := setAt p.lts t.stamp.id
        ⟨⟨t.stamp.id, t.stamp.lc + 1, round⟩, circuit, if rest = [] then none else some rest,
          wagonsLen rest, own⟩
      wagonToSend := if own.isSome then newWiw my else p.wagonToSend } := by
  intro round own
  have hupdate : updateCircuit t.stamp.id t.circuit p = (circuit, p) := by
    rw [updateCircuit_steady hcame hgone] at hcircuit ⊢
    rw [← hcircuit]
  have hsort := fun u => sortWagons_eq (u := u) (hwagons ▸ hrec) hback hrest
  rw [← hwagons] at hsort
  simp only [trainHandling, hupdate, hgone, hsort, Function.update_self]
  by_cases hfull : (firstMsg p.wagonToSend).isSome
  · simp [own, ownWagon, hfull, round, setAt]
  · simp [own, ownWagon, hfull, round, setAt]

/-- The train that leaves carries on the wagons that were not of the successor, and the
process's own. -/
theorem trainSent_steady {st : Stamp ntr} {circuit : Address} {rest : List Wagon} {round : Fin nr}
    {p : Proc ntr} : trainMsg ⟨st, circuit, if rest = [] then none else some rest, wagonsLen rest,
      ownWagon round p⟩ =
      Msg.train st circuit (some (rest ++ (ownWagon round p).toList)) := by
  have hcarve : carve ((if rest = [] then none else some rest).getD []) (wagonsLen rest) =
      some rest := by
    have h := carve_append rest []
    rw [List.append_nil] at h
    split
    · rename_i hnil
      subst hnil
      exact h
    · exact h
  rw [trainMsg, trainSent, hcarve, ownSent_ownWagon]
  rfl

theorem several_train {c : Config} {dial : Address → Bool} {st : Stamp ntr} {circuit : Address}
    {wagons : List Wagon} {p : Proc ntr} (hstate : p.automatonState = .several)
    (hmember : addrIsMember c.myAddress circuit = true) :
    stateMachine c dial (.train st circuit (some wagons)) p =
      if isRecentTrain st p.lts p.lis then
        let q := { trainHandling c.myAddress ⟨st, circuit, wagons⟩ p with lis := st.id }
        some (q, if q.succ ≠ 0#16 then [.sendTrain q.succ (q.lts st.id)] else [])
      else some (p, []) := by
  rw [stateMachine, hstate]
  simp only [several, hmember, ↓reduceIte, Option.bind_eq_bind, Option.bind_some, Option.pure_def]

end UniformBroadcast.Trains
