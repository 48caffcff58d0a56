import UniformBroadcast.TrainRingPreservation
import Mathlib.Data.List.ReduceOption
import Mathlib.Algebra.Order.BigOperators.Group.Finset

/-!
# Integrity and uniformity of the ring

A process has delivered what it recorded until two laps ago. Of one sender that is the
beginning of what the sender has put on trains, and it is no more than what the other
processes have recorded of it.
-/

namespace UniformBroadcast.Trains

open LapSchedule TransitionRuns

variable {n ntr : ℕ} {C : Members n} {hntr : 0 < ntr} {r₀ ρ : Fin ntr → Fin nr} {s : Ring n ntr}

/-- What a process delivers comes from the members, and of each member it is a prefix of
the wagons that the member has put on trains. -/
def Integrity (C : Members n) (s : Ring n ntr) : Prop := ∀ p,
  (∀ w ∈ (s.procs p).wagonsToDeliver, ∃ q, w.sender = C.addr q) ∧
  ∀ q, (s.procs p).wagonsToDeliver.filter (·.sender = C.addr q) <+: (s.put q).reduceOption

/-- Every copy of a wagon that a process has delivered, each process has delivered or
holds among its unstable wagons. -/
def UniformDelivery (s : Ring n ntr) : Prop := ∀ p q w,
  (s.procs p).wagonsToDeliver.count w ≤
    (s.procs q).wagonsToDeliver.count w + unstableCount w (s.procs q).unstableWagons

/-! ## The wagons of one sender -/

/-- The address of the process at a position of the ring. -/
def Members.name (C : Members n) (j : ℕ) : Option Address :=
  if h : j < n then some (C.addr ⟨j, h⟩) else none

theorem Members.name_val (C : Members n) (q : Fin n) : C.name q = some (C.addr q) := by
  simp [Members.name]

theorem Members.name_injective (C : Members n) {q : Fin n} {j : ℕ} (hj : j < n)
    (h : C.name j = C.name q) : j = q := by
  rw [C.name_val, Members.name, dif_pos hj] at h
  exact congrArg Fin.val (C.injective (Option.some.inj h))

/-- What process `p` records of process `q` in its first `d` visits. -/
theorem Inv.filter_seen (hs : Inv C hntr r₀ ρ s) (p q : Fin n) (d : ℕ) :
    (upTo (s.seen p) d).filter (·.sender = C.addr q) =
      upTo (s.slot q) (if q ≤ p then d else d - ntr) := by
  have howner : ∀ j < n, ∀ t, ∀ w ∈ s.slot j t, some w.sender = C.name j := by
    intro j hj t w hw
    obtain ⟨_, hsender⟩ := hs.slots.sender hw
    rw [hsender, ← C.name_val ⟨j, hj⟩]
  have h := @filter_upTo_seen _ n ntr s.slot _ _ (fun w : Wagon => some w.sender) C.name p q d
    p.isLt q.isLt (fun j hj => C.name_injective hj) howner
  simp only [C.name_val, Option.some.injEq] at h
  exact h

theorem Inv.sender_seen (hs : Inv C hntr r₀ ρ s) {p : Fin n} {d : ℕ} {w : Wagon}
    (hw : w ∈ upTo (s.seen p) d) : ∃ q, w.sender = C.addr q := by
  obtain ⟨t, -, hw⟩ := List.mem_flatMap.mp hw
  rw [Ring.seen, seen_eq, List.mem_append] at hw
  rcases hw with hw | hw
  · obtain ⟨j, hj, -, t', hw⟩ := mem_aboard p.isLt hw
    obtain ⟨_, hsender⟩ := hs.slots.sender hw
    exact ⟨⟨j, hj⟩, hsender⟩
  · obtain ⟨_, hsender⟩ := hs.slots.sender hw
    exact ⟨_, hsender⟩

/-- The wagons put at the first `d` visits. -/
theorem upTo_slot (s : Ring n ntr) (q : Fin n) (d : ℕ) :
    upTo (s.slot q) d = ((s.put q).take d).reduceOption := by
  induction d with
  | zero => rfl
  | succ d ih =>
    rw [upTo_succ, ih, slot_eq, List.take_add_one, List.reduceOption_append]
    congr 1
    rcases (s.put q)[d]? with _ | _ | w
    · rfl
    · rfl
    · rfl

theorem reduceOption_take {α : Type} (l : List (Option α)) (d : ℕ) :
    (l.take d).reduceOption <+: l.reduceOption := by
  obtain ⟨r, hr⟩ := List.take_prefix d l
  refine ⟨r.reduceOption, ?_⟩
  rw [← List.reduceOption_append, hr]

theorem Inv.count_seen (hs : Inv C hntr r₀ ρ s) (p q : Fin n) (d : ℕ) {w : Wagon}
    (hw : w.sender = C.addr q) : (upTo (s.seen p) d).count w =
      (upTo (s.slot q) (if q ≤ p then d else d - ntr)).count w := by
  rw [← hs.filter_seen, List.count_filter]
  simpa using hw

theorem mem_of_unstableCount {w : Wagon} {unstable : Fin ntr → Fin nr → List Wagon}
    (h : 0 < unstableCount w unstable) : ∃ id round, w ∈ unstable id round := by
  obtain ⟨id, -, hid⟩ := Finset.sum_pos_iff.mp h
  obtain ⟨round, -, hround⟩ := Finset.sum_pos_iff.mp hid
  exact ⟨id, round, List.count_pos_iff.mp hround⟩

/-- What one process has delivered is in a list of each process. -/
theorem UniformDelivery.held (h : UniformDelivery s) {p : Fin n} {w : Wagon}
    (hw : w ∈ (s.procs p).wagonsToDeliver) (q : Fin n) :
    w ∈ (s.procs q).wagonsToDeliver ∨ ∃ id round, w ∈ (s.procs q).unstableWagons id round := by
  have hcount := h p q w
  have hpos := List.count_pos_iff.mpr hw
  rcases Nat.eq_zero_or_pos ((s.procs q).wagonsToDeliver.count w) with hzero | hq
  · exact .inr (mem_of_unstableCount (by omega))
  · exact .inl (List.count_pos_iff.mp hq)

/-! ## The results -/

/-- **Integrity.** In every state reached, no wagon is lost, duplicated, invented or
reordered within those of its sender. -/
theorem trains_integrity {hn : 2 ≤ n} {s₀ : Ring n ntr} {es : List (Event n)} (hntr : 0 < ntr)
    (hfresh : Fresh C hn s₀) (h : exec (step C) s₀ es = some s) : Integrity C s := by
  obtain ⟨r₀, ρ, hs⟩ := inv_exec hntr hfresh h
  intro p
  have hdelivered := (hs.visits p).delivered
  refine ⟨fun w hw => hs.sender_seen (hdelivered ▸ hw), fun q => ?_⟩
  rw [hdelivered, hs.filter_seen, upTo_slot]
  exact reduceOption_take _ _

/-- With two trains both processes broadcast, each before it handles a train, and the trains make
three laps more. -/
def twoSenders (i j : Fin n) (mp mp' : Message) : List (Event n) :=
  [.broadcast i mp, .handle i, .handle i, .broadcast j mp', .handle j, .handle j] ++
    (List.replicate 3 [.handle i, .handle i, .handle j, .handle j]).flatten

theorem trains_integrity_twoSenders : Integrity (Members.ofRanks 2 (by decide) 0 64)
    ((runFresh (Members.ofRanks 2 (by decide) 0 64) Nat.two_pos
      (twoSenders 0 1 ⟨amBroadcast, [5#8]⟩ ⟨amBroadcast, [6#8]⟩)).get (by decide)) :=
  trains_integrity Nat.two_pos (fresh_fresh _ (Nat.le_refl 2) _) (Option.some_get _).symm

/-- **Uniformity.** In every state reached, what one process has delivered every process
has recorded. -/
theorem trains_uniform_delivery {hn : 2 ≤ n} {s₀ : Ring n ntr} {es : List (Event n)}
    (hntr : 0 < ntr) (hfresh : Fresh C hn s₀) (h : exec (step C) s₀ es = some s) :
    UniformDelivery s := by
  obtain ⟨r₀, ρ, hs⟩ := inv_exec hntr hfresh h
  intro p q w
  rw [(hs.visits q).counted w, (hs.visits p).delivered]
  by_cases hw : w ∈ upTo (s.seen p) (s.visits p - 2 * ntr)
  · obtain ⟨x, hx⟩ := hs.sender_seen hw
    rw [hs.count_seen p x _ hx, hs.count_seen q x _ hx]
    refine (upTo_mono _ ?_).sublist.count_le w
    -- the processes are at most a lap apart, and the last two laps are not delivered
    have hlap := hs.visits_le p q
    split <;> split <;> omega
  · rw [List.count_eq_zero_of_not_mem hw]
    exact Nat.zero_le _

theorem trains_uniform_delivery_twoSenders : UniformDelivery
    ((runFresh (Members.ofRanks 2 (by decide) 0 64) Nat.two_pos
      (twoSenders 0 1 ⟨amBroadcast, [5#8]⟩ ⟨amBroadcast, [6#8]⟩)).get (by decide)) :=
  trains_uniform_delivery Nat.two_pos (fresh_fresh _ (Nat.le_refl 2) _) (Option.some_get _).symm

end UniformBroadcast.Trains
