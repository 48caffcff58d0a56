import Mathlib.Data.List.Basic
import Mathlib.Data.List.Infix
import Mathlib.Data.List.Range
import Mathlib.Data.List.Nodup

/-!
# Items carried round a circle

`n` sources stand on a circle and carriers pass all of them again and again; `width`
carriers follow each other, so visit `t` of a source is that of carrier `t % width` on
its lap `t / width`. At visit `t` source `j` puts `slot j t` on the carrier, which keeps
it until it comes back to `j`. The lemmas say what is aboard from one source to the next,
what each source sees of another, and when two sources see the items in the same order.
-/

namespace UniformBroadcast.LapSchedule

universe u v

variable {α : Type u}

/-- The items of the first `d` visits. -/
def upTo (f : ℕ → List α) (d : ℕ) : List α := (List.range d).flatMap f

@[simp] theorem upTo_zero (f : ℕ → List α) : upTo f 0 = [] := rfl

theorem upTo_succ (f : ℕ → List α) (d : ℕ) : upTo f (d + 1) = upTo f d ++ f d := by
  simp [upTo, List.range_succ]

theorem upTo_mono (f : ℕ → List α) {d d' : ℕ} (h : d ≤ d') : upTo f d <+: upTo f d' := by
  induction d' with
  | zero =>
    obtain rfl : d = 0 := Nat.le_zero.mp h
    exact List.prefix_refl _
  | succ d' ih =>
    rcases Nat.le_succ_iff.mp h with h | rfl
    · rw [upTo_succ]
      exact (ih h).trans (List.prefix_append _ _)
    · exact List.prefix_refl _

theorem upTo_congr {f g : ℕ → List α} {d : ℕ} (h : ∀ t < d, f t = g t) : upTo f d = upTo g d := by
  induction d with
  | zero => rfl
  | succ d ih =>
    rw [upTo_succ, upTo_succ, ih fun t ht => h t (Nat.lt_succ_of_lt ht), h d (Nat.lt_succ_self d)]

theorem filter_upTo (p : α → Bool) (f : ℕ → List α) (d : ℕ) :
    (upTo f d).filter p = upTo (fun t => (f t).filter p) d := by
  rw [upTo, List.filter_flatMap]
  rfl

variable (n width : ℕ) (slot : ℕ → ℕ → List α)

/-- What source `j` put on the carrier one lap before visit `t`. -/
def previous (j t : ℕ) : List α := if t < width then [] else slot j (t - width)

/-- What is aboard at visit `t` of source `i` from the lap before. -/
def stale (i t : ℕ) : List α := (List.range' (i + 1) (n - 1 - i)).flatMap (previous width slot · t)

/-- What the sources up to `i` put on the carrier at visit `t`. -/
def fresh (i t : ℕ) : List α := (List.range (i + 1)).flatMap (slot · t)

/-- What is aboard when visit `t` of source `i` begins. -/
def aboard (i t : ℕ) : List α := stale n width slot i t ++ (List.range i).flatMap (slot · t)

/-- What source `i` has seen of visit `t` when it ends, its own items last. -/
def seen (i t : ℕ) : List α := stale n width slot i t ++ fresh slot i t

/-- What all the sources put on the carrier at visit `t`. -/
def lap (t : ℕ) : List α := (List.range n).flatMap (slot · t)

theorem seen_eq (i t : ℕ) : seen n width slot i t = aboard n width slot i t ++ slot i t := by
  simp [seen, aboard, fresh, List.range_succ]

variable {n width slot}

theorem stale_of_lt {i t : ℕ} (h : t < width) : stale n width slot i t = [] := by
  simp [stale, previous, h]

theorem previous_add (j t : ℕ) : previous width slot j (t + width) = slot j t := by
  simp [previous]

theorem mem_previous {j t : ℕ} {a : α} (h : a ∈ previous width slot j t) : ∃ t', a ∈ slot j t' := by
  rw [previous] at h
  split at h
  · cases h
  · exact ⟨_, h⟩

theorem mem_stale {i t : ℕ} {a : α} (h : a ∈ stale n width slot i t) :
    ∃ j, i < j ∧ j < n ∧ ∃ t', a ∈ slot j t' := by
  obtain ⟨j, hj, ha⟩ := List.mem_flatMap.mp h
  rw [List.mem_range'_1] at hj
  exact ⟨j, by omega, by omega, mem_previous ha⟩

/-- A source finds aboard the items of the others. -/
theorem mem_aboard {i t : ℕ} (hi : i < n) {a : α} (h : a ∈ aboard n width slot i t) :
    ∃ j < n, j ≠ i ∧ ∃ t', a ∈ slot j t' := by
  rcases List.mem_append.mp h with h | h
  · obtain ⟨j, hij, hj, ha⟩ := mem_stale h
    exact ⟨j, hj, Nat.ne_of_gt hij, ha⟩
  · obtain ⟨j, hj, ha⟩ := List.mem_flatMap.mp h
    rw [List.mem_range] at hj
    exact ⟨j, hj.trans hi, Nat.ne_of_lt hj, t, ha⟩

/-- From one source to the next the carrier loses what it brings back and takes on what
the source has put. -/
theorem aboard_succ {i : ℕ} (h : i + 1 < n) (t : ℕ) : ∃ rest,
    aboard n width slot i t = previous width slot (i + 1) t ++ rest ∧
    aboard n width slot (i + 1) t = rest ++ slot i t ∧
    ∀ a ∈ rest, ∃ j < n, j ≠ i + 1 ∧ ∃ t', a ∈ slot j t' := by
  refine ⟨stale n width slot (i + 1) t ++ (List.range i).flatMap (slot · t), ?_, ?_, ?_⟩
  · have hlen : n - 1 - i = n - 1 - (i + 1) + 1 := by omega
    rw [aboard, stale, hlen, List.range'_succ, List.flatMap_cons, List.append_assoc]
    rfl
  · simp [aboard, List.range_succ]
  · intro a ha
    rcases List.mem_append.mp ha with ha | ha
    · obtain ⟨j, hij, hj, ha⟩ := mem_stale ha
      exact ⟨j, hj, Nat.ne_of_gt hij, ha⟩
    · obtain ⟨j, hj, ha⟩ := List.mem_flatMap.mp ha
      rw [List.mem_range] at hj
      exact ⟨j, by omega, by omega, t, ha⟩

/-- The same from the last source to the first, where the next lap begins. -/
theorem aboard_last (h : 2 ≤ n) (t : ℕ) : ∃ rest,
    aboard n width slot (n - 1) t = slot 0 t ++ rest ∧
    aboard n width slot 0 (t + width) = rest ++ slot (n - 1) t ∧
    ∀ a ∈ rest, ∃ j < n, j ≠ 0 ∧ ∃ t', a ∈ slot j t' := by
  refine ⟨(List.range' 1 (n - 2)).flatMap (slot · t), ?_, ?_, ?_⟩
  · have hlen : n - 1 = n - 2 + 1 := by omega
    rw [aboard, stale, Nat.sub_self, List.range'_zero, List.flatMap_nil, List.nil_append, hlen,
      List.range_eq_range', List.range'_succ]
    rfl
  · have hlen : n - 1 - 0 = n - 2 + 1 := by omega
    have hlast : 1 + (n - 2) = n - 1 := by omega
    simp only [aboard, stale, previous_add, hlen, List.range_zero, List.flatMap_nil,
      List.append_nil, List.range'_concat, Nat.one_mul, hlast, Nat.zero_add, List.flatMap_append,
      List.flatMap_cons]
  · intro a ha
    obtain ⟨j, hj, ha⟩ := List.mem_flatMap.mp ha
    rw [List.mem_range'_1] at hj
    exact ⟨j, by omega, by omega, t, ha⟩

/-- What is aboard depends on the slots of the visits that the sources have made. -/
theorem stale_congr {slot' : ℕ → ℕ → List α} {i t : ℕ}
    (h : ∀ j < n, i < j → width ≤ t → slot j (t - width) = slot' j (t - width)) :
    stale n width slot i t = stale n width slot' i t := by
  refine List.flatMap_congr fun j hj => ?_
  rw [List.mem_range'_1] at hj
  rw [previous, previous]
  split
  · rfl
  · exact h j (by omega) (by omega) (by omega)

theorem aboard_congr {slot' : ℕ → ℕ → List α} {i t : ℕ} (hbefore : ∀ j < i, slot j t = slot' j t)
    (hafter : ∀ j < n, i < j → width ≤ t → slot j (t - width) = slot' j (t - width)) :
    aboard n width slot i t = aboard n width slot' i t := by
  rw [aboard, aboard, stale_congr hafter]
  congr 1
  exact List.flatMap_congr fun j hj => hbefore j (List.mem_range.mp hj)

/-! ## What a source sees of another -/

section Owners

variable {κ : Type v} [DecidableEq κ] (owner : α → κ) (name : ℕ → κ)

theorem filter_flatMap_owner {f : ℕ → List α} {l : List ℕ} {q : ℕ} (hl : l.Nodup)
    (hname : ∀ j ∈ l, name j = name q → j = q) (howner : ∀ j ∈ l, ∀ a ∈ f j, owner a = name j) :
    (l.flatMap f).filter (owner · = name q) = if q ∈ l then f q else [] := by
  induction l with
  | nil => simp
  | cons j l ih =>
    obtain ⟨hj, hl⟩ := List.nodup_cons.mp hl
    rw [List.flatMap_cons, List.filter_append,
      ih hl (fun k hk => hname k (List.mem_cons_of_mem _ hk))
        (fun k hk => howner k (List.mem_cons_of_mem _ hk))]
    rcases eq_or_ne j q with rfl | hne
    · have hall : (f j).filter (owner · = name j) = f j := by
        refine List.filter_eq_self.mpr fun a ha => ?_
        simpa using howner j List.mem_cons_self a ha
      simp [hall, hj]
    · have hnone : (f j).filter (owner · = name q) = [] := by
        refine List.filter_eq_nil_iff.mpr fun a ha => ?_
        have ha := howner j List.mem_cons_self a ha
        simpa [ha] using fun h => hne (hname j List.mem_cons_self h)
      simp [hnone, Ne.symm hne]

variable {owner name}

/-- Of another source, a source sees the items of this lap or of the lap before. -/
theorem filter_seen {i q t : ℕ} (hi : i < n) (hq : q < n)
    (hname : ∀ j < n, name j = name q → j = q)
    (howner : ∀ j < n, ∀ t, ∀ a ∈ slot j t, owner a = name j) :
    (seen n width slot i t).filter (owner · = name q) =
      if q ≤ i then slot q t else previous width slot q t := by
  have hprev : ∀ j < n, ∀ a ∈ previous width slot j t, owner a = name j := by
    intro j hj a ha
    rw [previous] at ha
    split at ha
    · cases ha
    · exact howner j hj _ a ha
  rw [seen, List.filter_append, stale, fresh,
    filter_flatMap_owner owner name List.nodup_range'
      (fun j hj => hname j (by rw [List.mem_range'_1] at hj; omega))
      (fun j hj => hprev j (by rw [List.mem_range'_1] at hj; omega)),
    filter_flatMap_owner owner name List.nodup_range
      (fun j hj => hname j (by rw [List.mem_range] at hj; omega))
      (fun j hj => howner j (by rw [List.mem_range] at hj; omega) t)]
  rcases Nat.lt_or_ge i q with h | h
  swap
  · have hout : q ∉ List.range' (i + 1) (n - 1 - i) := by
      rw [List.mem_range'_1]
      omega
    rw [if_neg hout, if_pos (List.mem_range.mpr (Nat.lt_succ_of_le h)), if_pos h, List.nil_append]
  · have hin : q ∈ List.range' (i + 1) (n - 1 - i) := by
      rw [List.mem_range'_1]
      omega
    rw [if_pos hin, if_neg (by rw [List.mem_range]; omega), if_neg (by omega), List.append_nil]

theorem upTo_previous (q d : ℕ) :
    upTo (previous width slot q) d = upTo (slot q) (d - width) := by
  induction d with
  | zero => simp
  | succ d ih =>
    rw [upTo_succ, ih, previous]
    split
    · rename_i h
      rw [List.append_nil, Nat.sub_eq_zero_of_le (Nat.le_of_lt h), Nat.sub_eq_zero_of_le h]
    · rename_i h
      rw [Nat.succ_sub (Nat.le_of_not_lt h), upTo_succ]

/-- What a source has seen of another in `d` visits. -/
theorem filter_upTo_seen {i q d : ℕ} (hi : i < n) (hq : q < n)
    (hname : ∀ j < n, name j = name q → j = q)
    (howner : ∀ j < n, ∀ t, ∀ a ∈ slot j t, owner a = name j) :
    (upTo (seen n width slot i) d).filter (owner · = name q) =
      upTo (slot q) (if q ≤ i then d else d - width) := by
  have hvisit : ∀ t, (seen n width slot i t).filter (owner · = name q) =
      if q ≤ i then slot q t else previous width slot q t :=
    fun t => filter_seen hi hq hname howner
  rw [filter_upTo]
  by_cases h : q ≤ i
  · simp only [hvisit, if_pos h]
  · simp only [hvisit, if_neg h]
    exact upTo_previous q d

end Owners

/-! ## When the sources see one order -/

theorem lap_eq {i : ℕ} (hi : i < n) (t : ℕ) :
    lap n slot t = fresh slot i t ++ stale n width slot i (t + width) := by
  have hn : n = i + 1 + (n - 1 - i) := by omega
  simp only [lap, fresh, stale, previous_add]
  rw [← List.flatMap_append, List.range_eq_range', List.range_eq_range']
  conv_lhs => rw [hn]
  rw [← List.range'_append_1, Nat.zero_add]

/-- Where the items of the lap before never meet fresh items of the other carriers seen
since their own was here, a source sees the laps one after the other. -/
theorem upTo_seen_append_stale (hwidth : 0 < width) {i d : ℕ}
    (hsep : ∀ t < d, ∀ s, t < s → s < t + width →
      fresh slot i t = [] ∨ stale n width slot i s = []) :
    upTo (seen n width slot i) d ++ (List.range' d width).flatMap (stale n width slot i) =
      upTo (fun t => fresh slot i t ++ stale n width slot i (t + width)) d := by
  induction d with
  | zero =>
    rw [upTo_zero, upTo_zero, List.nil_append, List.flatMap_eq_nil_iff]
    intro t ht
    rw [List.mem_range'_1] at ht
    exact stale_of_lt (by omega)
  | succ d ih =>
    have hih := ih fun t ht => hsep t (Nat.lt_succ_of_lt ht)
    rw [upTo_succ, upTo_succ, ← hih]
    cases width with
    | zero => cases hwidth
    | succ w =>
      -- the items of the lap before seen by the next `w` visits commute with the fresh ones
      have hswap : fresh slot i d ++ (List.range' (d + 1) w).flatMap (stale n (w + 1) slot i) =
          (List.range' (d + 1) w).flatMap (stale n (w + 1) slot i) ++ fresh slot i d := by
        by_cases hfresh : fresh slot i d = []
        · simp [hfresh]
        · have hnil : (List.range' (d + 1) w).flatMap (stale n (w + 1) slot i) = [] := by
            rw [List.flatMap_eq_nil_iff]
            intro s hs
            rw [List.mem_range'_1] at hs
            exact (hsep d (Nat.lt_succ_self d) s (by omega) (by omega)).resolve_left hfresh
          simp [hnil]
      have hlast : d + 1 + w = d + (w + 1) := by omega
      rw [List.range'_concat, Nat.one_mul, hlast, List.flatMap_append, List.range'_succ,
        List.flatMap_cons, seen]
      simp only [List.append_assoc, List.flatMap_cons, List.flatMap_nil, List.append_nil]
      rw [← List.append_assoc (fresh slot i d), hswap, List.append_assoc]

end UniformBroadcast.LapSchedule
