import UniformBroadcast.TrainContinuityRing
import UniformBroadcast.TrainPredecessor

/-!
# The places of the processes

The processes stand round the ring in the order of their ranks: `addrPrec` finds `rear` when
`front` has lost the relay, and `searchSucc` finds `front` when the relay comes.
-/

namespace UniformBroadcast.Trains.Continuity

variable {N ntr : ℕ}

/-- The processes, all the members of the circuit, have the ranks `rank`, which rise from
`front` on. -/
structure Placed (M : Members (N + 1)) (rank : Fin (N + 1) → Fin np) : Prop where
  addr : ∀ i, M.addr i = rankToAddr (rank i).val
  circuit : ∀ r : Fin np, M.circuit.getLsbD r.val = true → ∃ i, rank i = r
  ascending : ∀ i j, i < j → below (rank front) (rank i) < below (rank front) (rank j)

section Places

variable {M : Members (N + 1)} {rank : Fin (N + 1) → Fin np} {c : Config}
  {dial : Address → Bool} {s : Circle N ntr}

/-- No process is between `rear` and the relay. -/
theorem Placed.not_between (hN : 2 ≤ N) (hM : Placed M rank) (i : Fin (N + 1)) :
    below (rank front) (rank i) ≤ below (rank front) (rank rear) ∨
      below (rank front) (rank i) = below (rank front) (rank relay) := by
  have hi := i.isLt
  by_cases hrelay : i = relay
  · rw [hrelay]
    exact .inr rfl
  · left
    by_cases hrear : i = rear
    · rw [hrear]
    · apply Nat.le_of_lt
      apply hM.ascending
      have hne : i.val ≠ N - 1 := fun h => hrear (Fin.ext h)
      have hne' : i.val ≠ N := fun h => hrelay (Fin.ext h)
      change i.val < N - 1
      omega

theorem Placed.rear_below (hN : 2 ≤ N) (hM : Placed M rank) :
    below (rank front) (rank rear) < below (rank front) (rank relay) := by
  apply hM.ascending
  change N - 1 < N
  omega

theorem below_inj (me : Fin np) {l l' : Fin np} (h : below me l = below me l') : l = l' := by
  have hl : l.val < 16 := l.isLt
  have hl' : l'.val < 16 := l'.isLt
  have hme : me.val < 16 := me.isLt
  ext
  change (l.val + (16 - me.val)) % 16 = (l'.val + (16 - me.val)) % 16 at h
  omega

/-- The member of the circuit that precedes the relay is `rear`. -/
theorem Placed.addrPrec_relay (hN : 2 ≤ N) (hM : Placed M rank) :
    addrPrec (M.addr relay) M.circuit = some (M.addr rear) := by
  have hlt := hM.rear_below hN
  have hbelow := below_lt (rank front) (rank relay)
  obtain ⟨k, hk⟩ : ∃ k, below (rank front) (rank relay) =
      below (rank front) (rank rear) + (1 + k) :=
    ⟨below (rank front) (rank relay) - below (rank front) (rank rear) - 1, by omega⟩
  have hdown : ∀ j ≤ k, below (rank front) (down (rank relay) (1 + j)) =
      below (rank front) (rank relay) - (1 + j) :=
    fun j hj => below_down (by omega)
  have hmember : M.circuit.getLsbD (rank rear).val = true := by
    rw [← addrIsMember_rankToAddr, ← hM.addr rear]
    exact M.member rear
  rw [hM.addr relay, hM.addr rear, addrPrec_eq, Option.map_eq_some_iff]
  refine ⟨rank rear, ?_, rfl⟩
  rw [List.find?_eq_some_iff_getElem]
  refine ⟨hmember, k, by rw [List.length_map, List.length_range']; omega, ?_, ?_⟩
  · rw [List.getElem_map, List.getElem_range', Nat.one_mul]
    apply below_inj (rank front)
    rw [hdown k (Nat.le_refl k)]
    omega
  · intro j hj
    rw [List.getElem_map, List.getElem_range', Nat.one_mul, Bool.not_eq_true', Bool.eq_false_iff]
    intro hin
    obtain ⟨i, hi⟩ := hM.circuit _ hin
    have hplace := hdown j (Nat.le_of_lt hj)
    rw [← hi] at hplace
    rcases hM.not_between hN i with hle | heq <;> omega

/-! ## The search for a successor -/

/-- It only opens connections. -/
theorem mem_searchSucc {ranks : List ℕ} {a : Action ntr} (h : a ∈ (searchSucc c dial ranks).1) :
    ∃ addr opened, a = .openConnection addr false opened := by
  induction ranks with
  | nil => cases h
  | cons i ranks ih =>
    rw [searchSucc] at h
    split at h
    · rw [List.mem_singleton] at h
      exact ⟨_, _, h⟩
    · rcases List.mem_cons.mp h with rfl | h
      · exact ⟨_, _, rfl⟩
      · exact ih h

/-- Between the relay and `front` no process answers. -/
theorem Placed.searchSucc_relay (hN : 2 ≤ N) (hM : Placed M rank)
    (halive : s.alive front = true) :
    (searchSucc (M.config relay) (s.dial M) (ranksAfter (rank relay).val) :
      List (Action ntr) × Address).2 = M.addr front := by
  have hpos := hM.rear_below hN
  have hlt : below (rank front) (rank relay) < 16 := below_lt (rank front) (rank relay)
  have hfront : (rank front).val < 16 := (rank front).isLt
  have hrelay : (rank relay).val < 16 := (rank relay).isLt
  obtain ⟨k, hk⟩ : ∃ k, below (rank front) (rank relay) + (1 + k) = 16 :=
    ⟨15 - below (rank front) (rank relay), by omega⟩
  -- how far above `front` the ranks are that the search tries
  have habove : ∀ j, 1 + j + below (rank front) (rank relay) ≤ 16 →
      (rank relay).val + (1 + j) =
        (rank front).val + (below (rank front) (rank relay) + (1 + j)) ∨
      (rank relay).val + (1 + j) + 16 =
        (rank front).val + (below (rank front) (rank relay) + (1 + j)) := by
    intro j _
    change _ = (rank front).val + (((rank relay).val + (16 - (rank front).val)) % 16 + (1 + j)) ∨
      _ = (rank front).val + (((rank relay).val + (16 - (rank front).val)) % 16 + (1 + j))
    omega
  have hfind : (ranksAfter (rank relay).val).find? (fun i => s.dial M (rankToAddr i)) =
      some (rank front).val := by
    rw [List.find?_eq_some_iff_getElem]
    refine ⟨?_, k, ?_, ?_, ?_⟩
    · rw [← hM.addr front, dial_addr]
      exact halive
    · rw [ranksAfter, List.length_map, List.length_range']
      change k < 15
      omega
    · simp only [ranksAfter, List.getElem_map, List.getElem_range', Nat.one_mul]
      change ((rank relay).val + (1 + k)) % 16 = (rank front).val
      have h := habove k (by omega)
      omega
    · intro j hj
      simp only [ranksAfter, List.getElem_map, List.getElem_range', Nat.one_mul]
      rw [Bool.not_eq_true', Bool.eq_false_iff]
      intro hdial
      rw [Circle.dial, List.any_eq_true] at hdial
      obtain ⟨i, -, hi⟩ := hdial
      rw [Bool.and_eq_true, beq_iff_eq, hM.addr i] at hi
      have hrank : rank i = ⟨((rank relay).val + (1 + j)) % np, Nat.mod_lt _ (by decide)⟩ :=
        rankToAddr_injective hi.2
      have hval : (rank i).val = ((rank relay).val + (1 + j)) % 16 := congrArg Fin.val hrank
      have hplace : below (rank front) (rank i) = below (rank front) (rank relay) + (1 + j) := by
        have h := habove j (by omega)
        change ((rank i).val + (16 - (rank front).val)) % 16 = _
        omega
      rcases hM.not_between hN i with hle | heq <;> omega
  rw [searchSucc_snd, hfind, hM.addr front]
  rfl

end Places

end UniformBroadcast.Trains.Continuity
