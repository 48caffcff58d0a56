import UniformBroadcast.SetReplay
import UniformBroadcast.TrainDisconnections

/-!
# The circuit that train 0 receives

Between two visits of train 0 a process records the arrivals in `cameProc` and the
losses in `goneProc`, and it then applies both to the circuit at once. The result is
compared with the set obtained by applying the changes one after the other.
-/

namespace UniformBroadcast.Trains

open SetReplay TransitionRuns

/-- The ranks of the processes of a set of addresses. -/
def members (adSet : Address) : Finset (Fin np) := Finset.univ.filter fun i => adSet.getLsbD i.val

@[simp] theorem mem_members (adSet : Address) (i : Fin np) :
    i ∈ members adSet ↔ adSet.getLsbD i.val = true := by
  simp [members]

theorem members_injective {c d : Address} (h : members c = members d) : c = d := by
  apply BitVec.eq_of_getLsbD_eq
  intro i hi
  have hbit := Finset.ext_iff.mp h ⟨i, hi⟩
  rw [mem_members, mem_members] at hbit
  exact Bool.eq_iff_iff.mpr hbit

/-- `cameProc` and `goneProc`. -/
abbrev Accounts := Address × Address

/-- What the handlers of `INSERT` and `DISCONNECT_PRED` do with `cameProc` and `goneProc`. -/
def account (accounts : Accounts) : Change (Fin np) → Accounts
  | .arrival i => (addrAppendArrived accounts.1 (rankToAddr i.val), accounts.2)
  | .loss i => addrAppendGone accounts.1 accounts.2 (rankToAddr i.val)

/-- `cameProc` and `goneProc` after some changes. -/
def accounts (es : List (Change (Fin np))) : Accounts := es.foldl account (0#16, 0#16)

theorem accounts_append (es : List (Change (Fin np))) (e : Change (Fin np)) :
    accounts (es ++ [e]) = account (accounts es) e := by
  simp [accounts]

/-! ## The handlers -/

section Handlers

variable {ntr : ℕ} {c : Config} {dial : Address → Bool} {p q : Proc ntr}
  {actions : List (Action ntr)}

theorem several_insert_account {i : Fin np}
    (h : several c dial (.insert (rankToAddr i.val)) p = some (q, actions)) :
    (q.cameProc, q.goneProc) = account (p.cameProc, p.goneProc) (.arrival i) := by
  obtain ⟨rfl, -⟩ := Prod.mk.inj (Option.some.inj h)
  rfl

/-- One pass of the loop that looks for a predecessor. -/
theorem searchPrec_account {fuel : ℕ} {i : Fin np} (hprec : p.prec = rankToAddr i.val)
    (hother : p.prec ≠ c.myAddress) (hdial : dial p.prec = false) :
    searchPrec c dial (fuel + 1) p =
      (addrPrec p.prec (p.lts p.lis).circuit).bind fun prec =>
        (searchPrec c dial fuel
          { p with
            cameProc := (account (p.cameProc, p.goneProc) (.loss i)).1
            goneProc := (account (p.cameProc, p.goneProc) (.loss i)).2
            prec := prec }).map fun r =>
          (r.1, .openConnection p.prec true false :: r.2.1, r.2.2) := by
  rw [searchPrec, if_neg hother, if_neg (by simp [hdial])]
  rw [account, ← hprec]
  cases addrPrec p.prec (p.lts p.lis).circuit with
  | none => rfl
  | some prec =>
    simp only [Option.bind_eq_bind, Option.bind_some]
    cases searchPrec c dial fuel _ with
    | none => rfl
    | some r => rfl

/-- Train 0 receives the accounts. -/
theorem updateCircuit_accounts {id : Fin ntr} (h0 : id.val = 0) (circuit : Address)
    {es : List (Change (Fin np))} (hp : (p.cameProc, p.goneProc) = accounts es) :
    (updateCircuit id circuit p).1 = addrUpdateCircuit circuit (accounts es).1 (accounts es).2 := by
  rw [updateCircuit, if_pos h0, ← hp]

end Handlers

/-! ## What the accounts hold -/

/-- A process is in `cameProc` when its last change is an arrival. -/
theorem mem_cameProc {s t : Finset (Fin np)} {es : List (Change (Fin np))}
    (h : exec change s es = some t) (i : Fin np) :
    (accounts es).1.getLsbD i.val = true ↔ lastOf i es = some (.arrival i) := by
  induction es using List.reverseRecOn generalizing t with
  | nil => simp [accounts]
  | append_singleton es e ih =>
    obtain ⟨r, hr, he⟩ := exec_append_one h
    rw [accounts_append, lastOf_append]
    cases e with
    | arrival j =>
      rw [account, addrAppendArrived, BitVec.getLsbD_or, rankToAddr_getLsbD, Bool.or_eq_true,
        ih hr]
      grind [Change.subject]
    | loss j =>
      rw [account, addrAppendGone, addrIsMember_rankToAddr]
      split
      · rw [BitVec.getLsbD_xor, rankToAddr_getLsbD]
        grind [Change.subject]
      · grind [Change.subject]

/-- A process is in `goneProc` when its first change is a loss. -/
theorem mem_goneProc {s t : Finset (Fin np)} {es : List (Change (Fin np))}
    (h : exec change s es = some t) (i : Fin np) :
    (accounts es).2.getLsbD i.val = true ↔ firstOf i es = some (.loss i) := by
  induction es using List.reverseRecOn generalizing t with
  | nil => simp [accounts]
  | append_singleton es e ih =>
    obtain ⟨r, hr, he⟩ := exec_append_one h
    rw [accounts_append, firstOf_append_eq_some]
    cases e with
    | arrival j =>
      rw [account, ih hr]
      simp
    | loss j =>
      have hmem : j ∈ r := by
        by_contra hj
        simp [change, hj] at he
      have hlast := (mem_exec_iff hr j).mp hmem
      have hnone := firstOf_eq_none_iff j es
      have hcame := mem_cameProc hr j
      rw [account, addrAppendGone, addrIsMember_rankToAddr]
      split
      · -- the process has come since train 0 passed, so its first change is known already
        grind [Change.subject]
      · rw [BitVec.getLsbD_or, rankToAddr_getLsbD, Bool.or_eq_true, ih hr]
        grind [Change.subject]

/-! ## The circuit -/

/-- A process is listed when train 0 leaves if it came last, or has been listed and was not
lost first. -/
theorem mem_addrUpdateCircuit {c : Address} {t : Finset (Fin np)} {es : List (Change (Fin np))}
    (h : exec change (members c) es = some t) (i : Fin np) :
    i ∈ members (addrUpdateCircuit c (accounts es).1 (accounts es).2) ↔
      lastOf i es = some (.arrival i) ∨ (i ∈ members c ∧ firstOf i es ≠ some (.loss i)) := by
  have hfirst := fun hf => mem_of_firstOf_loss h (a := i) hf
  have hcame := mem_cameProc h i
  have hgone := mem_goneProc h i
  rw [mem_members, mem_members, addrUpdateCircuit, BitVec.getLsbD_or, BitVec.getLsbD_xor,
    Bool.or_eq_true, hcame, or_comm]
  apply or_congr_right
  rw [mem_members] at hfirst
  rw [← hgone] at hfirst
  rw [ne_eq, ← hgone]
  cases hc : c.getLsbD i.val with
  | false => simpa [hc] using hfirst
  | true => simp

/-- Process `i` was listed, came again before it was lost, and is lost. -/
def LostAfterReturn (c : Address) (es : List (Change (Fin np))) (i : Fin np) : Prop :=
  i ∈ members c ∧ firstOf i es = some (.arrival i) ∧ lastOf i es = some (.loss i)

instance (c : Address) (es : List (Change (Fin np))) (i : Fin np) :
    Decidable (LostAfterReturn c es i) := inferInstanceAs (Decidable (_ ∧ _))

/-- The circuit that leaves with train 0 is the one obtained by applying the changes one after
the other, unless a listed process came again before it was lost. -/
theorem circuit_replays_changes {c : Address} {t : Finset (Fin np)} {es : List (Change (Fin np))}
    (h : exec change (members c) es = some t) :
    members (addrUpdateCircuit c (accounts es).1 (accounts es).2) = t ↔
      ∀ i, ¬ LostAfterReturn c es i := by
  have hagree : ∀ i, (i ∈ members (addrUpdateCircuit c (accounts es).1 (accounts es).2) ↔ i ∈ t) ↔
      ¬ LostAfterReturn c es i := by
    intro i
    have hnone := firstOf_eq_none_iff i es
    rw [mem_addrUpdateCircuit h, mem_exec_iff h, LostAfterReturn]
    cases hlast : lastOf i es with
    | none =>
      rw [hlast] at hnone
      simp [hnone.mpr rfl]
    | some e =>
      cases hfirst : firstOf i es with
      | none => simp [hlast, hfirst] at hnone
      | some f =>
        rcases lastOf_eq_some hlast with rfl | rfl
        · simp
        · rcases firstOf_eq_some hfirst with rfl | rfl
          · simp
          · simp
  rw [Finset.ext_iff]
  exact forall_congr' hagree

/-- Process 1 is in the circuit, inserts itself again and is lost. -/
def insertedAgainAndLost : List (Change (Fin np)) := [.arrival 1, .loss 1]

theorem circuit_replays_loss_and_return :
    members (addrUpdateCircuit 7#16 (accounts [.loss 1, .arrival 1, .arrival 3]).1
      (accounts [.loss 1, .arrival 1, .arrival 3]).2) = {0, 1, 2, 3} :=
  (circuit_replays_changes (by decide)).mpr (by decide)

theorem not_circuit_replays_changes :
    exec change (members 7#16) insertedAgainAndLost = some {0, 2} ∧
      members (addrUpdateCircuit 7#16 (accounts insertedAgainAndLost).1
        (accounts insertedAgainAndLost).2) = {0, 1, 2} := by
  decide

end UniformBroadcast.Trains
