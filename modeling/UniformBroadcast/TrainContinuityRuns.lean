import UniformBroadcast.TrainContinuityCrashRun
import UniformBroadcast.TrainContinuityInsertionRun

/-!
# The trains that `front` accepts

From a ring at work, whatever the clocks, whether the relay crashes or comes: the trains that
`front` accepts are those of consecutive visits. A process that comes is inserted behind a
connection that `front` closes, and the trains left on it must not be treated so late that
their clocks look new again.
-/

namespace UniformBroadcast.Trains.Continuity

open TransitionRuns

variable {N ntr : ℕ}

/-- The `k`th train is train `k % ntr` on its lap `k / ntr + 1`. -/
def Continues (hntr : 0 < ntr) (accepted : List (Fin ntr × ℕ)) : Prop :=
  accepted = (List.range accepted.length).map fun k => (trainId hntr k, k / ntr + 1)

instance Continues.decidable (hntr : 0 < ntr) (accepted : List (Fin ntr × ℕ)) :
    Decidable (Continues hntr accepted) :=
  inferInstanceAs (Decidable (accepted = _))

section Formed

variable {M : Members (N + 1)} {hntr : 0 < ntr} {clock : Fin ntr → BitVec 8} {withRelay : Bool}
  {i j : Fin (N + 1)}

/-! ## The ring at the start -/

/-- The clocks of the visits before the start. -/
def clockOf (hntr : 0 < ntr) (clock : Fin ntr → BitVec 8) (k : ℕ) : ℕ :=
  (clock (trainId hntr k)).toNat

theorem formed_lis (hlast : ntr - 1 < ntr) :
    idPlus (⟨ntr - 1, hlast⟩ : Fin ntr) 1 = trainId hntr ntr := by
  ext
  simp only [idPlus, trainId]
  rw [Nat.sub_add_cancel hntr]

theorem clock_add (x : BitVec 8) (n : ℕ) :
    x + BitVec.ofNat 8 n = BitVec.ofNat 8 (x.toNat + n) := by
  rw [BitVec.ofNat_add, BitVec.ofNat_toNat, BitVec.setWidth_eq]

theorem formed_window (i : Fin (N + 1)) :
    Window hntr (clockOf hntr clock) i.val i.val ntr ((formed M hntr withRelay clock).procs i).lts
      ((formed M hntr withRelay clock).tags i) := by
  intro id
  have hid : trainId hntr id.val = id := trainId_of_lt id.isLt
  refine ⟨id.val, hid, id.isLt, by omega, rfl, clock_add _ _, ?_, ?_, ?_⟩
  · rw [clockOf, hid]
    exact Nat.le_refl _
  · rw [clockOf, hid]
    exact Nat.le_refl _
  · rw [Nat.div_eq_of_lt id.isLt]
    rfl

theorem formed_stream (source : Fin (N + 1)) :
    Stream hntr (clockOf hntr clock) source.val source.val 0 ((List.finRange ntr).map fun id =>
      ((.train ⟨id, clock id + BitVec.ofNat 8 source.val, 0⟩ (circuitOf M withRelay) (some []),
        ⟨1, (clock id).toNat + source.val⟩) : Msg ntr × Tag)) := by
  have hrange : List.finRange ntr = (List.range ntr).map (trainId hntr) := by
    apply List.ext_getElem
    · simp
    · intro k hk _
      rw [List.length_finRange] at hk
      ext
      simp [trainId, Nat.mod_eq_of_lt hk]
  rw [hrange, List.map_map]
  apply stream_map
  intro k hk
  rw [Nat.zero_add]
  refine ⟨_, _, _, rfl, rfl, clock_add _ _, Nat.le_refl _, Nat.le_refl _, ?_⟩
  rw [Nat.div_eq_of_lt hk]
  rfl

/-- The channels hold the trains that stand before `front`. -/
theorem formed_chans {c : Chan N} (hne : c ≠ ⟨before withRelay front, front, false⟩) :
    (formed M hntr withRelay clock).chans c = [] :=
  if_neg hne

theorem after_linked (h : Linked i j) : after withRelay i = j := by
  obtain ⟨hnext, hlt⟩ := h
  have hrelay : i ≠ relay := (ne_relay_iff i).mpr (by omega)
  have hrear : i ≠ rear := by
    rintro rfl
    rw [val_rear] at hnext
    omega
  rw [after, if_neg (by simp [hrelay, hrear])]
  ext
  dsimp only
  rw [Nat.mod_eq_of_lt (by omega), hnext]

theorem before_front : before withRelay (front : Fin (N + 1)) = if withRelay then relay else rear :=
  if_pos rfl

theorem formed_core :
    Core M hntr (clockOf hntr clock) (fun _ => ntr) (formed M hntr withRelay clock) where
  alive i hi := by simp [formed, hi]
  state i _ := rfl
  lis i _ := formed_lis _
  window i _ := formed_window i
  full i _ := Nat.le_refl ntr
  le i _ := Nat.le_refl ntr
  succ i j hij := congrArg M.addr (after_linked hij)
  link i j hij := by
    rw [formed_chans fun heq => hij.ne.2 (Chan.mk.inj heq).2.1]
    exact stream_nil
  link_length i j hij := by
    rw [formed_chans fun heq => hij.ne.2 (Chan.mk.inj heq).2.1]
    rfl
  laps := by
    rw [Nat.sub_self]
    intro k hk
    omega
  around := Nat.le_add_left ntr ntr
  accepted := by
    rw [Nat.sub_self]
    rfl
  quiet c hfull := by
    by_cases hc : c = ⟨before withRelay front, front, false⟩
    · right
      rw [hc, before_front]
      cases withRelay with
      | true => exact .inr (.inr (.inl rfl))
      | false => exact .inl rfl
    · exact absurd (formed_chans hc) hfull

theorem formed_inRing (hN : 2 ≤ N) : InRing M hntr (clockOf hntr clock) (ntr - ntr) ntr
    (formed M hntr true clock).view ntr := by
  have hf := front_ne_relay hN
  have hrf := rear_ne_front hN
  have hrr := rear_ne_relay hN
  have hempty : ∀ c : Chan N, c ≠ fromRelay → (formed M hntr true clock).chans c = [] := by
    intro c hc
    apply formed_chans
    rw [before_front]
    exact hc
  have hfrom : (formed M hntr true clock).chans fromRelay = (List.finRange ntr).map fun id =>
      (.train ⟨id, clock id + BitVec.ofNat 8 N, 0⟩ (circuitOf M true) (some []),
        ⟨1, (clock id).toNat + N⟩) := if_pos rfl
  have hlist : (formed M hntr true clock).view.toRelay = [] :=
    hempty _ (by simp [toRelay, fromRelay, hf.symm])
  rw [Nat.sub_self]
  constructor
  case alive => simp [Circle.view, formed]
  case state => rfl
  case succ => exact congrArg M.addr (by simp [after])
  case prec =>
    apply congrArg M.addr
    rw [before, if_neg hf.symm]
    rfl
  case lis => exact formed_lis _
  case full => exact Nat.le_refl ntr
  case window => exact formed_window relay
  case rearSucc =>
    apply congrArg M.addr
    rw [after, if_neg (by simp [hrr])]
    ext
    change (N - 1 + 1) % (N + 1) = N
    rw [Nat.sub_add_cancel (by omega), Nat.mod_eq_of_lt (Nat.lt_succ_self N)]
  case frontPrec => exact congrArg M.addr before_front
  case toRelay =>
    rw [hlist]
    exact stream_nil
  case toRelay_length =>
    rw [hlist]
    rfl
  case fromRelay =>
    change Stream hntr _ N N 0 ((formed M hntr true clock).chans fromRelay)
    rw [hfrom]
    exact formed_stream relay
  case fromRelay_length =>
    change 0 + ((formed M hntr true clock).chans fromRelay).length = ntr
    rw [hfrom, List.length_map, List.length_finRange, Nat.zero_add]
  case direct => exact hempty _ (by simp [direct, fromRelay, hrr])
  case frontToRear => exact hempty _ (by simp [frontToRear, fromRelay])
  case relayToRear => exact hempty _ (by simp [relayToRear, fromRelay])
  case frontToRelay => exact hempty _ (by simp [frontToRelay, fromRelay])
  case shut => exact fun _ => rfl

theorem formed_settled : Settled M (formed M hntr true clock) where
  procs i _ := ⟨rfl, rfl, fun _ => rfl⟩
  chans c m hm := by
    by_cases hc : c = ⟨before true front, front, false⟩
    · simp only [formed, if_pos hc, List.mem_map] at hm
      obtain ⟨id, -, rfl⟩ := hm
      rfl
    · rw [formed_chans hc] at hm
      cases hm

theorem formed_absent (hN : 2 ≤ N) : Absent M hntr (clockOf hntr clock) (ntr - ntr) ntr
    (formed M hntr false clock).view := by
  have hf := front_ne_relay hN
  have hrf := rear_ne_front hN
  have hrr := rear_ne_relay hN
  have hempty : ∀ c : Chan N, c ≠ direct → (formed M hntr false clock).chans c = [] := by
    intro c hc
    apply formed_chans
    rw [before_front]
    exact hc
  have hdirect : (formed M hntr false clock).chans direct = (List.finRange ntr).map fun id =>
      (.train ⟨id, clock id + BitVec.ofNat 8 (N - 1), 0⟩ (circuitOf M false) (some []),
        ⟨1, (clock id).toNat + (N - 1)⟩) := if_pos rfl
  rw [Nat.sub_self]
  constructor
  case alive => simp [Circle.view, formed]
  case fromRelay => exact hempty _ (by simp [direct, fromRelay, hrr.symm])
  case toAdjacent =>
    constructor
    case rearSucc => exact congrArg M.addr (by simp [after])
    case frontPrec => exact congrArg M.addr before_front
    case direct =>
      change Stream hntr _ (N - 1) N 0 ((formed M hntr false clock).chans direct)
      rw [hdirect]
      exact (formed_stream rear).mono (Nat.le_refl _) (Nat.sub_le N 1)
    case direct_length =>
      change 0 + ((formed M hntr false clock).chans direct).length = ntr
      rw [hdirect, List.length_map, List.length_finRange, Nat.zero_add]
    case toRelay => exact hempty _ (by simp [direct, toRelay, hf.symm])
    case frontToRear => exact hempty _ (by simp [direct, frontToRear])
    case relayToRear => exact hempty _ (by simp [direct, relayToRear])
    case frontToRelay => exact hempty _ (by simp [direct, frontToRelay])
    case shut => exact fun _ => rfl

end Formed

/-! ## Without a crash and without an arrival -/

section Steady

variable {M : Members (N + 1)} {hntr : 0 < ntr} {τ : ℕ → ℕ} {h : Fin (N + 1) → ℕ}
  {s s' : Circle N ntr} {c : Chan N} {st : Stamp ntr} {circuit : Address}
  {wagons : Option (List Wagon)} {tag : Tag} {rest : List (Msg ntr × Tag)} {y : ℕ} {e : Event N}

theorem Core.link_accepts (hN : 2 ≤ N) (hnp : N + 1 ≤ np) (hs : Core M hntr τ h s)
    (hlink : OnLink c) (hc : s.chans c = (.train st circuit wagons, tag) :: rest) :
    isRecentTrain st (s.procs c.target).lts (s.procs c.target).lis = true := by
  obtain ⟨source, target, isPred⟩ := c
  obtain ⟨rfl, hlinked⟩ := hlink
  obtain ⟨-, st', circuit', wagons', hmsg, -, hrecent⟩ := hs.link_recent hN hnp hlinked hc
  cases hmsg
  exact hrecent

theorem InRing.accepts (hN : 2 ≤ N) (hnp : N + 1 ≤ np) (hs : Core M hntr τ h s)
    (hv : InRing M hntr τ (h front - ntr) (h rear) s.view y) (e : Event N) : Accepts s e := by
  cases e with
  | treat c =>
    simp only [Accepts]
    split
    · rename_i st circuit wagons tag rest hc
      have hle := hv.le
      have hlt := hs.le rear (rear_ne_relay hN)
      rcases hs.quiet c (by rw [hc]; exact List.cons_ne_nil _ rest) with
        hlink | rfl | rfl | rfl | rfl | rfl | rfl
      · exact hs.link_accepts hN hnp hlink hc
      · rw [show s.chans Continuity.direct = [] from hv.direct] at hc
        cases hc
      · have hread : s.view.toRelay = (.train st circuit wagons, tag) :: rest := hc
        have hstream := hv.toRelay
        have hlength := hv.toRelay_length
        rw [hread] at hstream hlength
        rw [List.length_cons] at hlength
        exact hs.relay_recent hN hnp
          (fun id => (hv.window id).mono (Nat.sub_le N 1) (Nat.le_refl N)) hv.full hv.lis
          hstream.1 (by omega) rfl
      · have hread : s.view.fromRelay = (.train st circuit wagons, tag) :: rest := hc
        have hstream := hv.fromRelay
        rw [hread] at hstream
        exact hs.front_recent hN hnp (hstream.1.mono (Nat.sub_le N 1) (Nat.le_refl N)) rfl
      · rw [show s.chans Continuity.frontToRear = [] from hv.frontToRear] at hc
        cases hc
      · rw [show s.chans Continuity.relayToRear = [] from hv.relayToRear] at hc
        cases hc
      · rw [show s.chans Continuity.frontToRelay = [] from hv.frontToRelay] at hc
        cases hc
    · trivial
  | broadcast | lose | crash | join => trivial

theorem Absent.accepts (hN : 2 ≤ N) (hnp : N + 1 ≤ np) (hs : Core M hntr τ h s)
    (hv : Absent M hntr τ (h front - ntr) (h rear) s.view) (e : Event N) : Accepts s e := by
  cases e with
  | treat c =>
    simp only [Accepts]
    split
    · rename_i st circuit wagons tag rest hc
      rcases hs.quiet c (by rw [hc]; exact List.cons_ne_nil _ rest) with
        hlink | rfl | rfl | rfl | rfl | rfl | rfl
      · exact hs.link_accepts hN hnp hlink hc
      · have hread : s.view.direct = (.train st circuit wagons, tag) :: rest := hc
        exact hs.front_recent hN hnp (hv.toAdjacent.reads hN hread).1 rfl
      · rw [show s.chans Continuity.toRelay = [] from hv.toRelay] at hc
        cases hc
      · rw [show s.chans Continuity.fromRelay = [] from hv.fromRelay] at hc
        cases hc
      · rw [show s.chans Continuity.frontToRear = [] from hv.frontToRear] at hc
        cases hc
      · rw [show s.chans Continuity.relayToRear = [] from hv.relayToRear] at hc
        cases hc
      · rw [show s.chans Continuity.frontToRelay = [] from hv.frontToRelay] at hc
        cases hc
    · trivial
  | broadcast | lose | crash | join => trivial

/-- Only a crash and the arrival of the relay change which processes run. -/
theorem step_alive (hjoin : e.joins = false) (hcrash : e.crashes = false)
    (hstep : step M hntr s e = some s') : s'.alive = s.alive := by
  cases e with
  | broadcast i mp =>
    obtain ⟨-, q, -, rfl⟩ := step_broadcast hstep
    rfl
  | treat c =>
    obtain ⟨-, m, rest, q, actions, -, -, rfl⟩ := step_treat hstep
    exact (sameProcs_actAll M (s.become c m rest q) c.target actions).alive
  | lose c =>
    obtain ⟨-, rfl⟩ := step_lose hstep
    rfl
  | crash kept => cases hcrash
  | join => cases hjoin

/-- The ring stays as it is. -/
def Steady (M : Members (N + 1)) (hntr : 0 < ntr) (s : Circle N ntr) : Prop :=
  Crashing M hntr s ∧ s.alive relay = true ∨ Inserting M hntr s ∧ s.alive relay = false

theorem Steady.stage (hs : Steady M hntr s) : ∃ τ h, Core M hntr τ h s ∧
    ((∃ y, InRing M hntr τ (h front - ntr) (h rear) s.view y) ∨
      Absent M hntr τ (h front - ntr) (h rear) s.view) := by
  rcases hs with ⟨hcrashing, halive⟩ | ⟨hinserting, hdead⟩
  · cases hcrashing with
    | inRing hcore hset hv => exact ⟨_, _, hcore, .inl ⟨_, hv⟩⟩
    | lost hcore hset hv => exact absurd (halive.symm.trans hv.alive) Bool.noConfusion
    | told hcore hv => exact absurd (halive.symm.trans hv.alive) Bool.noConfusion
    | resent hcore hv => exact absurd (halive.symm.trans hv.alive) Bool.noConfusion
  · cases hinserting with
    | absent hcore hv => exact ⟨_, _, hcore, .inr hv⟩
    | asking hcore hv => exact absurd (hdead.symm.trans hv.alive) Bool.noConfusion
    | answered hcore hv => exact absurd (hdead.symm.trans hv.alive) Bool.noConfusion
    | confirming hcore hv => exact absurd (hdead.symm.trans hv.alive) Bool.noConfusion
    | relaying hcore hv => exact absurd (hdead.symm.trans hv.alive) Bool.noConfusion

theorem Steady.accepts (hN : 2 ≤ N) (hnp : N + 1 ≤ np) (hs : Steady M hntr s) (e : Event N) :
    Accepts s e := by
  obtain ⟨τ, h, hcore, ⟨y, hv⟩ | hv⟩ := hs.stage
  · exact hv.accepts hN hnp hcore e
  · exact hv.accepts hN hnp hcore e

/-- Without a closed connection no train can be late. -/
theorem inTime_of_open (hopen : ∀ c, s.shut c = false) (e : Event N) : InTime s e := by
  cases e with
  | treat c =>
    simp only [InTime]
    split
    · trivial
    · intro hshut
      exact absurd ((hopen c).symm.trans hshut) Bool.noConfusion
  | broadcast | lose | crash | join => trivial

theorem Steady.step {rank : Fin (N + 1) → Fin np} (hN : 2 ≤ N) (hnp : N + 1 ≤ np)
    (hM : Placed M rank) (hs : Steady M hntr s) (hjoin : e.joins = false)
    (hcrash : e.crashes = false) (hstep : step M hntr s e = some s') : Steady M hntr s' := by
  have halive := congrFun (step_alive hjoin hcrash hstep) relay
  have hopen : ∀ c, s.shut c = false := by
    obtain ⟨τ, h, -, ⟨y, hv⟩ | hv⟩ := hs.stage
    · exact hv.shut
    · exact hv.shut
  rcases hs with ⟨hcrashing, hrelay⟩ | ⟨hinserting, hrelay⟩
  · exact .inl ⟨hcrashing.step hN hnp (hM.addrPrec_relay hN) hjoin hstep, halive.trans hrelay⟩
  · exact .inr ⟨hinserting.step hN hnp hM hcrash (inTime_of_open hopen e) hstep,
      halive.trans hrelay⟩

end Steady

/-! ## The runs -/

section Continues

variable {M : Members (N + 1)} {hntr : 0 < ntr} {τ : ℕ → ℕ} {h : Fin (N + 1) → ℕ}
  {s : Circle N ntr}

theorem Core.continues (hs : Core M hntr τ h s) : Continues hntr s.accepted := by
  rw [Continues, hs.accepted, List.length_map, List.length_range', List.range'_eq_map_range,
    List.map_map]
  apply List.map_congr_left
  intro k _
  simp only [Function.comp_apply]
  rw [Nat.add_comm ntr k, trainId_add, Nat.add_div_right k hntr]

theorem Crashing.continues (hs : Crashing M hntr s) :
    Continues hntr s.accepted := by
  cases hs with
  | inRing hcore | lost hcore | told hcore | resent hcore => exact hcore.continues

theorem Inserting.continues (hs : Inserting M hntr s) :
    Continues hntr s.accepted := by
  cases hs with
  | absent hcore | asking hcore | answered hcore | confirming hcore | relaying hcore =>
    exact hcore.continues

/-- In a run in which the relay crashes the trains that `front` accepts are those of
consecutive visits. So they are in a run in which it comes, as long as the trains of the
connection that `front` has closed are treated in time. In a run with neither, no train is
ignored. -/
theorem trains_continuity (hN : 2 ≤ N) (hnp : N + 1 ≤ np) (hntr : 0 < ntr)
    (M : Members (N + 1)) (rank : Fin (N + 1) → Fin np) (hM : Placed M rank)
    (clock : Fin ntr → BitVec 8) :
    (∀ es s, (∀ e ∈ es, e.joins = false) →
      exec (step M hntr) (formed M hntr true clock) es = some s → Continues hntr s.accepted) ∧
    (∀ es s, (∀ e ∈ es, e.crashes = false) →
      Along (step M hntr) InTime (formed M hntr false clock) es →
      exec (step M hntr) (formed M hntr false clock) es = some s → Continues hntr s.accepted) ∧
    ∀ withRelay es, (∀ e ∈ es, e.joins = false ∧ e.crashes = false) →
      Along (step M hntr) Accepts (formed M hntr withRelay clock) es := by
  have hcrashing : Crashing M hntr (formed M hntr true clock) :=
    .inRing formed_core formed_settled (formed_inRing hN)
  have hinserting : Inserting M hntr (formed M hntr false clock) :=
    .absent formed_core (formed_absent hN)
  refine ⟨?_, ?_, ?_⟩
  · intro es s hes hrun
    have hs := exec_invariant_along
      (fun s e s' hs he hstep => hs.step hN hnp (hM.addrPrec_relay hN) he hstep) hcrashing
      (along_of_forall (fun e he _ => hes e he) _) hrun
    exact hs.continues
  · intro es s hes htime hrun
    have hs := exec_invariant_along
      (fun s e s' hs he hstep => hs.step hN hnp hM he.1 he.2 hstep) hinserting
      (along_and (along_of_forall (fun e he _ => hes e he) _) htime) hrun
    exact hs.continues
  · intro withRelay es hes
    have hsteady : Steady M hntr (formed M hntr withRelay clock) := by
      cases withRelay with
      | true => exact .inl ⟨hcrashing, by simp [formed]⟩
      | false => exact .inr ⟨hinserting, by simp [formed]⟩
    exact along_of_invariant (fun s e hs => hs.accepts hN hnp e)
      (fun s e s' hs he hstep => hs.step hN hnp hM he.1 he.2 hstep) hsteady hes

theorem Continues.concat {accepted : List (Fin ntr × ℕ)} {id : Fin ntr} {lap : ℕ}
    (hl : Continues hntr (accepted ++ [(id, lap)])) :
    id = trainId hntr accepted.length ∧ lap = accepted.length / ntr + 1 := by
  rw [Continues, List.length_append, List.length_singleton, List.range_succ, List.map_append,
    List.map_singleton] at hl
  have hlast := (List.append_inj' hl rfl).2
  rw [List.singleton_inj, Prod.mk.injEq] at hlast
  exact hlast

/-- A train of the closed connection, that `front` has already accepted, is accepted a second
time when `front` waits for its number and its clock is more than 128 ticks late, and less
than 256. -/
theorem Closed.late (hN : 2 ≤ N) (hs : Core M hntr τ h s) {last : ℕ}
    (hv : Closed hntr τ (h front - ntr) s.view last) {m : Msg ntr × Tag}
    {rest : List (Msg ntr × Tag)} {st : Stamp ntr} {circuit : Address}
    {wagons : Option (List Wagon)} {s' : Circle N ntr} (hc : s.chans Continuity.direct = m :: rest)
    (hmsg : m.1 = .train st circuit wagons) (hid : st.id = idPlus (s.procs front).lis 1)
    (hlate : m.2.clock + 128 < (s.tags front st.id).clock)
    (hclose : (s.tags front st.id).clock < m.2.clock + 256)
    (hstep : Continuity.step M hntr s (.treat Continuity.direct) = some s') :
    ¬ Continues hntr s'.accepted := by
  have hf := front_ne_relay hN
  have hfull := hs.full front hf
  have hid' : st.id = trainId hntr (h front) := hid.trans (hs.lis front hf)
  obtain ⟨o, ⟨st', circuit', wagons', hmsg', ho, hlc, hlo, -, hlap⟩, -⟩ := hv.reads hN hc
  have hst : st' = st := by
    rw [hmsg] at hmsg'
    cases hmsg'
    rfl
  subst hst
  obtain ⟨hown, -, hhi⟩ := (hs.window front hf).clock hfull
  rw [← hid', val_front] at hhi
  have hrecent : isRecentTrain st' (s.procs front).lts (s.procs front).lis = true := by
    apply recent_of_far hid hlc _ hlate hclose
    rw [hid']
    exact hown
  have htaken := taken_recent hmsg (hs.state front hf) hrecent
  obtain ⟨-, m', rest', q, actions, hc', -, rfl⟩ := step_treat hstep
  obtain ⟨rfl, rfl⟩ := List.cons.inj (hc.symm.trans hc')
  have haccepted : ((s.become Continuity.direct m rest q).actAll M front actions).accepted =
      s.accepted ++ [(st'.id, m.2.lap)] := by
    rw [(sameProcs_actAll M _ front actions).accepted,
      become_taken (c := Continuity.direct) htaken]
    dsimp only
    exact if_pos rfl
  intro hcontinues
  change Continues hntr
    ((s.become Continuity.direct m rest q).actAll M front actions).accepted at hcontinues
  rw [haccepted] at hcontinues
  obtain ⟨hnext, hlap'⟩ := hcontinues.concat
  rw [hs.accepted, List.length_map, List.length_range'] at hnext hlap'
  -- so it is the visit that `front` waits for, whose train is not late
  have hmod : o % ntr = (h front - ntr) % ntr := congrArg Fin.val (ho.symm.trans hnext)
  have hdiv : o / ntr = (h front - ntr) / ntr := by omega
  have hsame : o = h front - ntr := by
    rw [← Nat.div_add_mod o ntr, ← Nat.div_add_mod (h front - ntr) ntr, hmod, hdiv]
  rw [← hsame] at hhi
  omega

theorem Inserting.late (hN : 2 ≤ N) (hs : Inserting M hntr s) {m : Msg ntr × Tag}
    {rest : List (Msg ntr × Tag)} {st : Stamp ntr} {circuit : Address}
    {wagons : Option (List Wagon)} {s' : Circle N ntr} (hshut : s.shut direct = true)
    (hc : s.chans direct = m :: rest) (hmsg : m.1 = .train st circuit wagons)
    (hid : st.id = idPlus (s.procs front).lis 1)
    (hlate : m.2.clock + 128 < (s.tags front st.id).clock)
    (hclose : (s.tags front st.id).clock < m.2.clock + 256)
    (hstep : Continuity.step M hntr s (.treat direct) = some s') :
    ¬ Continues hntr s'.accepted := by
  cases hs with
  | absent hcore hv | asking hcore hv =>
    exact absurd ((hv.shut _).symm.trans hshut) Bool.noConfusion
  | answered hcore hv | confirming hcore hv | relaying hcore hv =>
    exact hv.toClosed.late hN hcore hc hmsg hid hlate hclose hstep

end Continues

/-! ## A ring of four -/

/-- Processes numbered by their ranks. -/
theorem ofRanks_placed (hnp : N + 1 ≤ np) (waitNbMax wagonMaxLen : ℕ) :
    Placed (Members.ofRanks (N + 1) hnp waitNbMax wagonMaxLen) (Fin.castLE hnp) where
  addr i := rfl
  circuit r hr := by
    have hall : ∀ (n : Fin (np + 1)) (r : Fin np),
        (BitVec.ofNat 16 (2 ^ n.val - 1)).getLsbD r.val = true → r.val < n.val := by decide
    exact ⟨⟨r.val, hall ⟨N + 1, Nat.lt_succ_of_le hnp⟩ r hr⟩, rfl⟩
  ascending i j hij := by
    have hj : j.val < 16 := Nat.lt_of_lt_of_le j.isLt hnp
    change (i.val + 16) % 16 < (j.val + 16) % 16
    rw [Nat.add_mod_right, Nat.add_mod_right, Nat.mod_eq_of_lt hj, Nat.mod_eq_of_lt]
    · exact hij
    · exact Nat.lt_trans hij hj

instance Timely.decidable (p : Proc ntr) (tags : Fin ntr → Tag) :
    ∀ m : Msg ntr × Tag, Decidable (Timely p tags m)
  | (.train stamp _ _, tag) =>
    inferInstanceAs (Decidable (stamp.id = idPlus p.lis 1 →
      (tags stamp.id).clock < tag.clock + 128))
  | (.insert _, _) | (.ackInsert _, _) | (.nakInsert _, _) | (.disconnectPred _, _)
  | (.disconnectSucc _, _) | (.newSucc _, _) => isTrue trivial

instance InTime.decidable (s : Circle N ntr) : ∀ e : Event N, Decidable (InTime s e)
  | .treat c =>
    match h : s.chans c with
    | [] => isTrue (by simp [InTime, h])
    | m :: _ =>
      decidable_of_iff (s.shut c = true → Timely (s.procs c.target) (s.tags c.target) m)
        (by simp [InTime, h])
  | .broadcast _ _ | .lose _ | .crash _ | .join => isTrue trivial

def four : Members 4 := Members.ofRanks 4 (by decide) 0 64

/-- The train goes from `front` to `rear`. -/
def forth : List (Event 3) :=
  [.treat ⟨⟨0, by decide⟩, ⟨1, by decide⟩, false⟩, .treat ⟨⟨1, by decide⟩, ⟨2, by decide⟩, false⟩]

/-- The relay crashes before it has had the train of the third lap. -/
def loss : List (Event 3) :=
  [.treat fromRelay] ++ forth ++ [.treat toRelay, .treat fromRelay] ++ forth ++
    [.crash 0, .treat fromRelay, .treat relayToRear, .treat frontToRear, .treat direct]

/-- The relay comes when a train stands before `front`, the train makes `laps` laps through it,
and `front` treats what has been left on the connection that it has closed. -/
def arrival (laps : ℕ) : List (Event 3) :=
  [.join, .treat fromRelay, .treat frontToRear, .treat frontToRelay, .treat relayToRear] ++
    (List.replicate laps (.treat toRelay :: .treat fromRelay :: forth)).flatten ++ [.treat direct]

theorem trains_continuity_four :
    Continues Nat.one_pos ((exec (step four Nat.one_pos)
      (formed four Nat.one_pos true fun _ => 250#8) loss).get (by decide +kernel)).accepted ∧
    Continues Nat.one_pos ((exec (step four Nat.one_pos)
      (formed four Nat.one_pos false fun _ => 250#8) (arrival 3)).get
        (by decide +kernel)).accepted ∧
    Along (step four Nat.one_pos) Accepts (formed four Nat.one_pos true fun _ => 250#8)
      (forth ++ forth) := by
  obtain ⟨hcrash, hinsertion, hsteady⟩ := trains_continuity (N := 3) (by decide) (by decide)
    Nat.one_pos four _ (ofRanks_placed _ 0 64) fun _ => 250#8
  refine ⟨?_, ?_, ?_⟩
  · exact hcrash loss _ (by decide) (Option.some_get _).symm
  · exact hinsertion (arrival 3) _ (by decide) (by decide +kernel) (Option.some_get _).symm
  · exact hsteady true (forth ++ forth) (by decide)

/-- The train left on the closed connection is accepted a second time when its clock is 128
ticks late. -/
theorem not_trains_continuity : ¬ ∀ (N ntr : ℕ) (_ : 2 ≤ N) (_ : N + 1 ≤ np) (hntr : 0 < ntr)
    (M : Members (N + 1)) (rank : Fin (N + 1) → Fin np) (_ : Placed M rank)
    (clock : Fin ntr → BitVec 8) (es : List (Event N)) (s : Circle N ntr),
    (∀ e ∈ es, e.crashes = false) →
      exec (step M hntr) (formed M hntr false clock) es = some s → Continues hntr s.accepted := by
  intro hcontinues
  have hrun : ((exec (step four Nat.one_pos) (formed four Nat.one_pos false fun _ => 0#8)
      (arrival 33)).map fun s => decide (Continues Nat.one_pos s.accepted)) = some false := by
    decide +kernel
  obtain ⟨s, hs, hnot⟩ := Option.map_eq_some_iff.mp hrun
  have hrunContinues := hcontinues 3 1 (by decide) (by decide) Nat.one_pos four _
    (ofRanks_placed _ 0 64) (fun _ => 0#8) (arrival 33) s (by decide +kernel) hs
  rw [decide_eq_true hrunContinues] at hnot
  cases hnot

end UniformBroadcast.Trains.Continuity
