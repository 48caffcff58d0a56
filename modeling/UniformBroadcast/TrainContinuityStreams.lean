import UniformBroadcast.ClockWindow
import UniformBroadcast.TrainContinuity

/-!
# Trains of consecutive visits

Visit `k` of a process is that of train `k % ntr` on its lap `k / ntr`; `τ k` is the clock,
not reduced, that `front` gives the train at its visit `k`. A stream is a list of trains of
consecutive visits, a window the last trains that a process has sent. A process that has
made `h` visits accepts from its stream the train of visit `h` and no other, as long as the
clocks are less than half of `M` apart.
-/

namespace UniformBroadcast.Trains.Continuity

open ClockWindow

variable {N ntr : ℕ} (hntr : 0 < ntr) (τ : ℕ → ℕ)

/-! ## Streams -/

/-- The message is the train of visit `k`, with a clock between `τ k + a` and `τ k + b`. -/
def IsVisit (a b k : ℕ) (m : Msg ntr × Tag) : Prop :=
  ∃ st circuit wagons, m.1 = .train st circuit wagons ∧ st.id = trainId hntr k ∧
    st.lc = BitVec.ofNat 8 m.2.clock ∧ τ k + a ≤ m.2.clock ∧ m.2.clock ≤ τ k + b ∧
    m.2.lap = k / ntr + 1

/-- The messages are the trains of the visits `k`, `k + 1`, ... -/
def Stream (a b : ℕ) : ℕ → List (Msg ntr × Tag) → Prop
  | _, [] => True
  | k, m :: l => IsVisit hntr τ a b k m ∧ Stream a b (k + 1) l

section Stream

variable {hntr τ} {a b a' b' k : ℕ} {m : Msg ntr × Tag} {l l' : List (Msg ntr × Tag)}

@[simp] theorem stream_nil : Stream hntr τ a b k [] := trivial

@[simp] theorem stream_cons :
    Stream hntr τ a b k (m :: l) ↔ IsVisit hntr τ a b k m ∧ Stream hntr τ a b (k + 1) l := Iff.rfl

theorem stream_append :
    Stream hntr τ a b k (l ++ l') ↔
      Stream hntr τ a b k l ∧ Stream hntr τ a b (k + l.length) l' := by
  induction l generalizing k with
  | nil => simp
  | cons m l ih =>
    rw [List.cons_append, stream_cons, ih, stream_cons, List.length_cons, and_assoc]
    rw [show k + 1 + l.length = k + (l.length + 1) by omega]

theorem Stream.concat (hl : Stream hntr τ a b k l) (hm : IsVisit hntr τ a b (k + l.length) m) :
    Stream hntr τ a b k (l ++ [m]) :=
  stream_append.mpr ⟨hl, hm, trivial⟩

theorem Stream.of_prefix (hl : Stream hntr τ a b k l) (h : l' <+: l) :
    Stream hntr τ a b k l' := by
  obtain ⟨t, rfl⟩ := h
  exact (stream_append.mp hl).1

theorem IsVisit.mono (hm : IsVisit hntr τ a b k m) (ha : a' ≤ a) (hb : b ≤ b') :
    IsVisit hntr τ a' b' k m := by
  obtain ⟨st, circuit, wagons, hmsg, hid, hlc, hlo, hhi, hlap⟩ := hm
  exact ⟨st, circuit, wagons, hmsg, hid, hlc, by omega, by omega, hlap⟩

theorem Stream.mono (hl : Stream hntr τ a b k l) (ha : a' ≤ a) (hb : b ≤ b') :
    Stream hntr τ a' b' k l := by
  induction l generalizing k with
  | nil => trivial
  | cons m l ih => exact ⟨hl.1.mono ha hb, ih hl.2⟩

theorem IsVisit.congr {τ' : ℕ → ℕ} (hm : IsVisit hntr τ a b k m) (h : τ' k = τ k) :
    IsVisit hntr τ' a b k m := by
  rw [IsVisit, h]
  exact hm

/-- A stream depends on the clocks of its visits. -/
theorem Stream.congr {τ' : ℕ → ℕ} (hl : Stream hntr τ a b k l)
    (h : ∀ i, k ≤ i → i < k + l.length → τ' i = τ i) : Stream hntr τ' a b k l := by
  induction l generalizing k with
  | nil => trivial
  | cons m l ih =>
    rw [List.length_cons] at h
    refine ⟨hl.1.congr (h k (Nat.le_refl k) (by omega)), ih hl.2 ?_⟩
    intro i hi hi'
    exact h i (by omega) (by omega)

/-- Every message of a stream is a train. -/
theorem Stream.train (hl : Stream hntr τ a b k l) (hm : m ∈ l) :
    ∃ st circuit wagons, m.1 = .train st circuit wagons := by
  induction l generalizing k with
  | nil => cases hm
  | cons m' l ih =>
    rcases List.mem_cons.mp hm with rfl | hm
    · obtain ⟨st, circuit, wagons, hmsg, -⟩ := hl.1
      exact ⟨st, circuit, wagons, hmsg⟩
    · exact ih hl.2 hm

end Stream

/-! ## Windows -/

/-- What the last train sent with a number is that of the last visit with this number before
visit `h`. -/
def LastSent (a b h : ℕ) (id : Fin ntr) (l : Lts ntr) (t : Tag) : Prop :=
  ∃ k, trainId hntr k = id ∧ k < h ∧ h ≤ k + ntr ∧ l.stamp.id = id ∧
    l.stamp.lc = BitVec.ofNat 8 t.clock ∧ τ k + a ≤ t.clock ∧ t.clock ≤ τ k + b ∧
    t.lap = k / ntr + 1

/-- The process has made `h` visits and `lts` are the last trains that it has sent. -/
def Window (a b h : ℕ) (lts : Fin ntr → Lts ntr) (tags : Fin ntr → Tag) : Prop :=
  ∀ id, LastSent hntr τ a b h id (lts id) (tags id)

section Window

variable {hntr τ} {a b a' b' h k : ℕ} {lts lts' : Fin ntr → Lts ntr} {tags tags' : Fin ntr → Tag}
  {id : Fin ntr} {l : Lts ntr} {t : Tag}

theorem trainId_inj {k k' : ℕ} (heq : trainId hntr k = trainId hntr k') (hk : k < h)
    (hlap : h ≤ k + ntr) (hk' : k' < h) (hlap' : h ≤ k' + ntr) : k = k' := by
  rcases Nat.lt_trichotomy k k' with hlt | heq' | hlt
  · exact absurd heq (trainId_ne hlt (by omega))
  · exact heq'
  · exact absurd heq.symm (trainId_ne hlt (by omega))

theorem LastSent.congr {τ' : ℕ → ℕ} (hs : LastSent hntr τ a b h id l t)
    (hτ : ∀ k < h, τ' k = τ k) : LastSent hntr τ' a b h id l t := by
  obtain ⟨k, hid, hk, hlap, hrest⟩ := hs
  refine ⟨k, hid, hk, hlap, ?_⟩
  rw [hτ k hk]
  exact hrest

theorem Window.congr {τ' : ℕ → ℕ} (hw : Window hntr τ a b h lts tags)
    (hτ : ∀ k < h, τ' k = τ k) : Window hntr τ' a b h lts tags :=
  fun id => (hw id).congr hτ

theorem LastSent.mono (hs : LastSent hntr τ a b h id l t) (ha : a' ≤ a) (hb : b ≤ b') :
    LastSent hntr τ a' b' h id l t := by
  obtain ⟨k, hid, hk, hlap, hst, hlc, hlo, hhi, htag⟩ := hs
  exact ⟨k, hid, hk, hlap, hst, hlc, by omega, by omega, htag⟩

/-- The train to send again for visit `k`. -/
theorem Window.isVisit (hw : Window hntr τ a b h lts tags) (hk : k < h) (hlap : h ≤ k + ntr) :
    IsVisit hntr τ a b k (trainMsg (lts (trainId hntr k)), tags (trainId hntr k)) := by
  obtain ⟨k', hid, hk', hlap', hst, hlc, hlo, hhi, htag⟩ := hw (trainId hntr k)
  obtain rfl := trainId_inj hid hk' hlap' hk hlap
  exact ⟨_, _, _, rfl, hst, hlc, hlo, hhi, htag⟩

/-- The clock of the train that was sent a lap before visit `h`. -/
theorem Window.clock (hw : Window hntr τ a b h lts tags) (hh : ntr ≤ h) :
    (lts (trainId hntr h)).stamp.lc = BitVec.ofNat 8 (tags (trainId hntr h)).clock ∧
      τ (h - ntr) + a ≤ (tags (trainId hntr h)).clock ∧
      (tags (trainId hntr h)).clock ≤ τ (h - ntr) + b := by
  obtain ⟨k, hid, hk, hlap, -, hlc, hlo, hhi, -⟩ := hw (trainId hntr h)
  have hprev : trainId hntr (h - ntr) = trainId hntr h := by
    rw [← @trainId_add ntr hntr (h - ntr), Nat.sub_add_cancel hh]
  obtain rfl : k = h - ntr :=
    trainId_inj (hid.trans hprev.symm) hk hlap (by omega) (by omega)
  exact ⟨hlc, hlo, hhi⟩

theorem LastSent.succ (hs : LastSent hntr τ a b h id l t) (hid : id ≠ trainId hntr h) :
    LastSent hntr τ a b (h + 1) id l t := by
  obtain ⟨k, hk, hlt, hlap, hrest⟩ := hs
  refine ⟨k, hk, by omega, ?_, hrest⟩
  have hne : h ≠ k + ntr := by
    rintro rfl
    rw [trainId_add] at hid
    exact hid hk.symm
  omega

/-- The train of visit `h` once it has been sent. -/
theorem IsVisit.lastSent (hm : IsVisit hntr τ a b h (trainMsg l, t)) :
    LastSent hntr τ a b (h + 1) (trainId hntr h) l t := by
  obtain ⟨st, circuit, wagons, hmsg, hst, hlc, hlo, hhi, hlap⟩ := hm
  obtain rfl : l.stamp = st := by
    simp only [trainMsg, Msg.train.injEq] at hmsg
    exact hmsg.1
  exact ⟨h, rfl, Nat.lt_succ_self h, by omega, hst, hlc, hlo, hhi, hlap⟩

/-- A process that sends the train of visit `h`. -/
theorem Window.succ (hw : Window hntr τ a b h lts tags)
    (hother : ∀ id, id ≠ trainId hntr h → lts' id = lts id ∧ tags' id = tags id)
    (hnew : IsVisit hntr τ a b h (trainMsg (lts' (trainId hntr h)), tags' (trainId hntr h))) :
    Window hntr τ a b (h + 1) lts' tags' := by
  intro id
  by_cases hid : id = trainId hntr h
  · subst hid
    exact hnew.lastSent
  · obtain ⟨hlts, htags⟩ := hother id hid
    rw [hlts, htags]
    exact (hw id).succ hid

end Window

/-! ## Recent trains -/

section Recent

variable {hntr τ} {st : Stamp ntr} {lts : Fin ntr → Lts ntr} {lis : Fin ntr} {x y : ℕ}

theorem isRecentTrain_eq (hid : st.id = idPlus lis 1) (hx : st.lc = BitVec.ofNat 8 x)
    (hy : (lts st.id).stamp.lc = BitVec.ofNat 8 y) :
    isRecentTrain st lts lis = ahead 256 x y := by
  rw [hid] at hy
  simp only [isRecentTrain, hid, if_true, hx, hy, ahead, BitVec.toNat_ofNat, clockValues]
  split <;> simp

theorem recent_of_lt (hid : st.id = idPlus lis 1) (hx : st.lc = BitVec.ofNat 8 x)
    (hy : (lts st.id).stamp.lc = BitVec.ofNat 8 y) (hlt : y < x) (hclose : x < y + 128) :
    isRecentTrain st lts lis = true := by
  rw [isRecentTrain_eq hid hx hy]
  exact ahead_of_lt (w := 128) hlt hclose

theorem not_recent_of_le (hid : st.id = idPlus lis 1) (hx : st.lc = BitVec.ofNat 8 x)
    (hy : (lts st.id).stamp.lc = BitVec.ofNat 8 y) (hle : x ≤ y) (hclose : y < x + 128) :
    isRecentTrain st lts lis = false := by
  rw [isRecentTrain_eq hid hx hy]
  exact not_ahead (w := 128) hle hclose

theorem recent_of_far (hid : st.id = idPlus lis 1) (hx : st.lc = BitVec.ofNat 8 x)
    (hy : (lts st.id).stamp.lc = BitVec.ofNat 8 y) (hfar : x + 128 < y) (hclose : y < x + 256) :
    isRecentTrain st lts lis = true := by
  rw [isRecentTrain_eq hid hx hy]
  exact ahead_of_far (w := 128) hfar hclose

theorem not_recent_of_id (hid : st.id ≠ idPlus lis 1) : isRecentTrain st lts lis = false := by
  rw [Bool.eq_false_iff]
  intro h
  exact hid (isRecentTrain_id h)

end Recent

/-! ## The clocks of `front` -/

/-- Round the ring, without or with the relay, a train ages by `N` or by `N + 1`. -/
def Laps (N ntr : ℕ) (τ : ℕ → ℕ) (e : ℕ) : Prop :=
  ∀ k < e, τ k + N ≤ τ (k + ntr) ∧ τ (k + ntr) ≤ τ k + N + 1

theorem Laps.le {e : ℕ} (hl : Laps N ntr τ e) {k c : ℕ} (hc : k + c * ntr < e + ntr) :
    τ k ≤ τ (k + c * ntr) := by
  induction c with
  | zero => simp
  | succ c ih =>
    rw [Nat.add_mul, Nat.one_mul] at hc ⊢
    have hlast := hl (k + c * ntr) (by omega)
    have hbefore := ih (by omega)
    rw [← Nat.add_assoc]
    omega

/-- A train of an earlier lap is older than the one that `front` has sent since. -/
theorem Laps.lt {e : ℕ} (hl : Laps N ntr τ e) {k k' : ℕ} (hk : k < k') (hk' : k' < e + ntr)
    (hid : trainId hntr k = trainId hntr k') : τ k + N ≤ τ k' := by
  have hmod : k % ntr = k' % ntr := congrArg Fin.val hid
  obtain ⟨c, hc⟩ : ∃ c, k' = k + ntr + c * ntr := by
    have hdvd : ntr ∣ k' - k :=
      Nat.dvd_of_mod_eq_zero (Nat.sub_mod_eq_zero_of_mod_eq hmod.symm)
    obtain ⟨c, hc⟩ := hdvd
    cases c with
    | zero => omega
    | succ c => exact ⟨c, by rw [Nat.mul_succ, Nat.mul_comm] at hc; omega⟩
  subst hc
  have hfirst := hl k (by omega)
  have hrest := hl.le τ (k := k + ntr) (c := c) hk'
  omega

end UniformBroadcast.Trains.Continuity
