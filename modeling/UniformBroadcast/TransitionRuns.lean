import Mathlib.Logic.Basic
import Mathlib.Data.Option.Basic

/-!
# Runs of a partial step function

A system is a partial step function: an event that is not enabled has no successor
state. A run is a list of events executed in order. Invariants are stated once for
one step and carried over every run, either unconditionally or along the runs whose
every step meets a condition on the state before it.
-/

namespace UniformBroadcast.TransitionRuns

universe u v

variable {σ : Type u} {ε : Type v}

/-- Execute the events in order; `none` as soon as one of them is not enabled. -/
def exec (step : σ → ε → Option σ) : σ → List ε → Option σ
  | s, [] => some s
  | s, e :: es => (step s e).bind fun s' => exec step s' es

/-- Every step of the run meets `ok` in the state before it. -/
def Along (step : σ → ε → Option σ) (ok : σ → ε → Prop) : σ → List ε → Prop
  | _, [] => True
  | s, e :: es => ok s e ∧ ∀ s' ∈ step s e, Along step ok s' es

variable {step : σ → ε → Option σ} {ok : σ → ε → Prop}

@[simp] theorem exec_nil (s : σ) : exec step s [] = some s := rfl

theorem exec_cons (s : σ) (e : ε) (es : List ε) :
    exec step s (e :: es) = (step s e).bind fun s' => exec step s' es := rfl

@[simp] theorem along_nil (s : σ) : Along step ok s [] := trivial

theorem along_cons (s : σ) (e : ε) (es : List ε) :
    Along step ok s (e :: es) ↔ ok s e ∧ ∀ s' ∈ step s e, Along step ok s' es := Iff.rfl

instance Along.decidable [∀ s e, Decidable (ok s e)] :
    ∀ (s : σ) (es : List ε), Decidable (Along step ok s es)
  | _, [] => isTrue trivial
  | s, e :: es =>
    match h : step s e with
    | none => decidable_of_iff (ok s e) (by simp [Along, h])
    | some s' =>
      have := Along.decidable s' es
      decidable_of_iff (ok s e ∧ Along step ok s' es) (by simp [Along, h])

theorem exec_append (s : σ) (es fs : List ε) :
    exec step s (es ++ fs) = (exec step s es).bind fun s' => exec step s' fs := by
  induction es generalizing s with
  | nil => rfl
  | cons e es ih =>
    cases h : step s e with
    | none => simp [exec_cons, h]
    | some s' => simp [exec_cons, h, ih]

theorem along_append (s : σ) (es fs : List ε) :
    Along step ok s (es ++ fs) ↔
      Along step ok s es ∧ ∀ s' ∈ exec step s es, Along step ok s' fs := by
  induction es generalizing s with
  | nil => simp
  | cons e es ih =>
    cases h : step s e with
    | none => simp [along_cons, exec_cons, h]
    | some s' => simp [along_cons, exec_cons, h, ih, and_assoc]

/-- A condition on the events alone. -/
theorem along_of_forall {es : List ε} (h : ∀ e ∈ es, ∀ s, ok s e) (s : σ) :
    Along step ok s es := by
  induction es generalizing s with
  | nil => trivial
  | cons e es ih =>
    refine ⟨h e List.mem_cons_self s, ?_⟩
    intro s' _
    exact ih (fun e he => h e (List.mem_cons_of_mem _ he)) s'

theorem along_and {ok' : σ → ε → Prop} {s : σ} {es : List ε} (h : Along step ok s es)
    (h' : Along step ok' s es) : Along step (fun s e => ok s e ∧ ok' s e) s es := by
  induction es generalizing s with
  | nil => trivial
  | cons e es ih => exact ⟨⟨h.1, h'.1⟩, fun s' hs' => ih (h.2 s' hs') (h'.2 s' hs')⟩

/-- A condition that follows from an invariant that the events of the run keep. -/
theorem along_of_invariant {inv : σ → Prop} {allowed : ε → Prop} (hok : ∀ s e, inv s → ok s e)
    (hstep : ∀ s e s', inv s → allowed e → step s e = some s' → inv s') {s : σ} {es : List ε}
    (hs : inv s) (hes : ∀ e ∈ es, allowed e) : Along step ok s es := by
  induction es generalizing s with
  | nil => trivial
  | cons e es ih =>
    refine ⟨hok s e hs, ?_⟩
    intro s' hs'
    exact ih (hstep s e s' hs (hes e List.mem_cons_self) hs')
      fun e' he' => hes e' (List.mem_cons_of_mem e he')

/-- Two conditions that agree on the enabled steps agree along a run. -/
theorem along_congr {ok' : σ → ε → Prop}
    (hok : ∀ s e s', step s e = some s' → (ok s e ↔ ok' s e)) {s s' : σ} {es : List ε}
    (h : exec step s es = some s') : Along step ok s es ↔ Along step ok' s es := by
  induction es generalizing s with
  | nil => exact Iff.rfl
  | cons e es ih =>
    obtain ⟨t, ht, hrest⟩ := Option.bind_eq_some_iff.mp h
    rw [along_cons, along_cons, hok s e t ht]
    have honly : ∀ {Q : σ → Prop}, (∀ s' ∈ step s e, Q s') ↔ Q t := by
      intro Q
      rw [ht]
      simp
    rw [honly, honly, ih hrest]

/-- Two conditions that agree under an invariant agree along every run, when the steps that
meet them keep the invariant. -/
theorem along_congr_of_inv {inv : σ → Prop} {ok' : σ → ε → Prop}
    (hok : ∀ s e, inv s → (ok s e ↔ ok' s e))
    (hkeep : ∀ s e s', inv s → ok s e → step s e = some s' → inv s')
    {s : σ} (hs : inv s) (es : List ε) : Along step ok s es ↔ Along step ok' s es := by
  induction es generalizing s with
  | nil => exact Iff.rfl
  | cons e es ih =>
    constructor
    · rintro ⟨hhead, hrest⟩
      refine ⟨(hok s e hs).mp hhead, ?_⟩
      intro t ht
      exact (ih (hkeep s e t hs hhead ht)).mp (hrest t ht)
    · rintro ⟨hhead, hrest⟩
      have hhead' := (hok s e hs).mpr hhead
      refine ⟨hhead', ?_⟩
      intro t ht
      exact (ih (hkeep s e t hs hhead' ht)).mpr (hrest t ht)

/-- A property kept by every step that meets `ok` holds after every run along `ok`. -/
theorem exec_invariant_along {inv : σ → Prop}
    (hstep : ∀ s e s', inv s → ok s e → step s e = some s' → inv s')
    {s s' : σ} {es : List ε} (hs : inv s) (hok : Along step ok s es)
    (h : exec step s es = some s') : inv s' := by
  induction es generalizing s with
  | nil => exact Option.some.inj h ▸ hs
  | cons e es ih =>
    obtain ⟨t, ht, hrest⟩ := Option.bind_eq_some_iff.mp h
    exact ih (hstep s e t hs hok.1 ht) (hok.2 t ht) hrest

/-- `P` holds in every state that the run reaches. -/
def Throughout (step : σ → ε → Option σ) (P : σ → Prop) : σ → List ε → Prop
  | s, [] => P s
  | s, e :: es => P s ∧ ∀ s' ∈ step s e, Throughout step P s' es

theorem Throughout.head {P : σ → Prop} {s : σ} {es : List ε} (h : Throughout step P s es) :
    P s := by
  cases es with
  | nil => exact h
  | cons => exact h.1

/-- When the steps that meet `ok` keep an invariant, a run along `ok` stays in what the
invariant gives. -/
theorem throughout_of_along {inv P : σ → Prop} (hP : ∀ s, inv s → P s)
    (hkeep : ∀ s e s', inv s → ok s e → step s e = some s' → inv s')
    {s : σ} {es : List ε} (hs : inv s) (hok : Along step ok s es) :
    Throughout step P s es := by
  induction es generalizing s with
  | nil => exact hP s hs
  | cons e es ih =>
    refine ⟨hP s hs, ?_⟩
    intro t ht
    exact ih (hkeep s e t hs hok.1 ht) (hok.2 t ht)

/-- When the steps that meet `ok` keep an invariant and the others break `P`, a run stays in
`P` exactly when all its steps meet `ok`. -/
theorem throughout_iff_along {inv P : σ → Prop} (hP : ∀ s, inv s → P s)
    (hkeep : ∀ s e s', inv s → step s e = some s' → ok s e → inv s')
    (hbreak : ∀ s e s', inv s → step s e = some s' → ¬ ok s e → ¬ P s')
    {s s' : σ} {es : List ε} (hs : inv s) (h : exec step s es = some s') :
    Throughout step P s es ↔ Along step ok s es := by
  induction es generalizing s with
  | nil => exact iff_of_true (hP s hs) trivial
  | cons e es ih =>
    obtain ⟨t, ht, hrest⟩ := Option.bind_eq_some_iff.mp h
    constructor
    · rintro ⟨-, hall⟩
      have hok : ok s e := by
        by_contra hnot
        exact hbreak s e t hs ht hnot (hall t ht).head
      refine ⟨hok, ?_⟩
      intro t' ht'
      obtain rfl := Option.some.inj (ht.symm.trans ht')
      exact (ih (hkeep s e t hs ht hok) hrest).mp (hall t ht)
    · rintro ⟨hok, hall⟩
      refine ⟨hP s hs, ?_⟩
      intro t' ht'
      obtain rfl := Option.some.inj (ht.symm.trans ht')
      exact (ih (hkeep s e t hs ht hok) hrest).mpr (hall t ht)

/-- Every step of a run that stays in `P` leads to `P`. -/
theorem Throughout.along {P : σ → Prop} {s : σ} {es : List ε} (h : Throughout step P s es) :
    Along step (fun s e => ∀ s' ∈ step s e, P s') s es := by
  induction es generalizing s with
  | nil => trivial
  | cons e es ih => exact ⟨fun s' hs' => (h.2 s' hs').head, fun s' hs' => ih (h.2 s' hs')⟩

/-- A condition that follows from another one under an invariant that the other one keeps. -/
theorem along_imp {inv : σ → Prop} {ok' : σ → ε → Prop} (hok : ∀ s e, inv s → ok s e → ok' s e)
    (hkeep : ∀ s e s', inv s → ok s e → step s e = some s' → inv s') {s : σ} {es : List ε}
    (hs : inv s) (h : Along step ok s es) : Along step ok' s es := by
  induction es generalizing s with
  | nil => trivial
  | cons e es ih =>
    exact ⟨hok s e hs h.1, fun s' hs' => ih (hkeep s e s' hs h.1 hs') (h.2 s' hs')⟩

/-- When the steps that meet `ok` and not `ok'` doom the state, for as long as the steps meet
`ok`, a run along `ok` that does not end doomed is one along `ok'`. -/
theorem along_of_not_doomed {doomed : σ → Prop} {ok' : σ → ε → Prop}
    (hbreak : ∀ s e s', ok s e → ¬ ok' s e → step s e = some s' → doomed s')
    (hdoomed : ∀ s e s', doomed s → ok s e → step s e = some s' → doomed s')
    {s s' : σ} {es : List ε} (hok : Along step ok s es) (h : exec step s es = some s')
    (hend : ¬ doomed s') : Along step ok' s es := by
  induction es generalizing s with
  | nil => trivial
  | cons e es ih =>
    obtain ⟨t, ht, hrest⟩ := Option.bind_eq_some_iff.mp h
    have hnext := hok.2 t ht
    refine ⟨?_, ?_⟩
    · by_contra hnot
      exact hend (exec_invariant_along hdoomed (hbreak s e t hok.1 hnot ht) hnext hrest)
    · intro t' ht'
      obtain rfl := Option.some.inj (ht.symm.trans ht')
      exact ih hnext hrest

/-- A property kept by every step holds after every run. -/
theorem exec_invariant {inv : σ → Prop}
    (hstep : ∀ s e s', inv s → step s e = some s' → inv s')
    {s s' : σ} {es : List ε} (hs : inv s) (h : exec step s es = some s') : inv s' := by
  induction es generalizing s with
  | nil => exact Option.some.inj h ▸ hs
  | cons e es ih =>
    obtain ⟨t, ht, hrest⟩ := Option.bind_eq_some_iff.mp h
    exact ih (hstep s e t hs ht) hrest

/-- When every step that meets `ok` is followed by steps of another system, so is every run along
`ok`. -/
theorem exec_simulates {τ : Type u} {δ : Type v} {step' : τ → δ → Option τ} {R : σ → τ → Prop}
    (hsim : ∀ s e s' t, R s t → ok s e → step s e = some s' →
      ∃ ds t', exec step' t ds = some t' ∧ R s' t')
    {s s' : σ} {t : τ} {es : List ε} (hR : R s t) (hok : Along step ok s es)
    (h : exec step s es = some s') : ∃ ds t', exec step' t ds = some t' ∧ R s' t' := by
  induction es generalizing s t with
  | nil =>
    obtain rfl := Option.some.inj h
    exact ⟨[], t, rfl, hR⟩
  | cons e es ih =>
    obtain ⟨r, hr, hrest⟩ := Option.bind_eq_some_iff.mp h
    obtain ⟨ds, u, hds, hu⟩ := hsim s e r t hR hok.1 hr
    obtain ⟨ds', t', hds', ht'⟩ := ih hu (hok.2 r hr) hrest
    refine ⟨ds ++ ds', t', ?_, ht'⟩
    rw [exec_append, hds]
    exact hds'

/-- When every step is followed by the step of one event of another system, a run is followed
event by event. -/
theorem exec_map_simulates {τ : Type u} {δ : Type v} {step' : τ → δ → Option τ} {R : σ → τ → Prop}
    (f : ε → δ)
    (hsim : ∀ s e s' t, R s t → step s e = some s' → ∃ t', step' t (f e) = some t' ∧ R s' t')
    {s s' : σ} {t : τ} {es : List ε} (hR : R s t) (h : exec step s es = some s') :
    ∃ t', exec step' t (es.map f) = some t' ∧ R s' t' := by
  induction es generalizing s t with
  | nil =>
    obtain rfl := Option.some.inj h
    exact ⟨t, rfl, hR⟩
  | cons e es ih =>
    obtain ⟨r, hr, hrest⟩ := Option.bind_eq_some_iff.mp h
    obtain ⟨u, hu, hRu⟩ := hsim s e r t hR hr
    obtain ⟨t', ht', hRt'⟩ := ih hRu hrest
    refine ⟨t', ?_, hRt'⟩
    rw [List.map_cons, exec_cons, hu]
    exact ht'

end UniformBroadcast.TransitionRuns
