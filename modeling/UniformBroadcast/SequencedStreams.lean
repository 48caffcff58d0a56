import Mathlib.Data.List.Basic
import Mathlib.Data.List.Infix

/-!
# Streams merged into one order

Several sources each emit a stream. A sequencer merges the streams into one order,
and an observer that holds back what the order has not named yet replays it. The
lemmas say that the next item of the order is the oldest item held back for its
source, and that the part of the order taken by one source is numbered consecutively.
-/

namespace UniformBroadcast.SequencedStreams

universe u v

variable {α : Type u} {ι : Type v} [DecidableEq ι] (src : α → ι)

/-- What one source contributed to a list. -/
def stream (x : ι) (l : List α) : List α := l.filter fun a => src a = x

@[simp] theorem stream_nil (x : ι) : stream src x [] = [] := rfl

@[simp] theorem stream_append (x : ι) (l k : List α) :
    stream src x (l ++ k) = stream src x l ++ stream src x k := List.filter_append ..

theorem stream_cons_self (a : α) (l : List α) :
    stream src (src a) (a :: l) = a :: stream src (src a) l := by
  simp [stream]

theorem stream_cons_of_ne {x : ι} {a : α} (h : src a ≠ x) (l : List α) :
    stream src x (a :: l) = stream src x l := by
  simp [stream, h]

theorem stream_mono {l k : List α} (h : l <+: k) (x : ι) :
    stream src x l <+: stream src x k := h.filter _

/-- The items of `l` numbered `1, 2, ...` by `num`. -/
def Numbered (num : α → ℕ) (l : List α) : Prop := l.map num = List.range' 1 l.length

variable {src} {num : α → ℕ}

@[simp] theorem numbered_nil : Numbered num [] := rfl

theorem Numbered.of_initial {l k : List α} (h : Numbered num k) (hp : l <+: k) :
    Numbered num l := by
  obtain ⟨t, rfl⟩ := hp
  unfold Numbered at h ⊢
  rw [List.map_append, List.length_append, ← List.range'_append_1] at h
  exact (List.append_inj h (by simp)).1

theorem numbered_concat {l : List α} {a : α} :
    Numbered num (l ++ [a]) ↔ Numbered num l ∧ num a = l.length + 1 := by
  unfold Numbered
  rw [List.map_append, List.length_append, ← List.range'_append_1]
  constructor
  · intro h
    obtain ⟨h₁, h₂⟩ := List.append_inj h (by simp)
    refine ⟨h₁, ?_⟩
    simpa [Nat.add_comm] using h₂
  · rintro ⟨h₁, h₂⟩
    simp [h₁, h₂, Nat.add_comm]

theorem prefix_concat {l k : List α} {a : α} (h : l <+: k) (ha : k[l.length]? = some a) :
    l ++ [a] <+: k := by
  obtain ⟨t, rfl⟩ := h
  rw [List.getElem?_append_right (Nat.le_refl _), Nat.sub_self] at ha
  cases t with
  | nil => simp at ha
  | cons b t =>
    obtain rfl : b = a := by simpa using ha
    exact ⟨t, by simp⟩

/-- The observer has replayed `order` up to an item `a`, and what it replayed of the
source of `a` followed by what it holds back of it is a prefix of that source's stream.
If it holds back anything, the oldest item held back is `a`. -/
theorem held_head {order replayed held source : List α} {a : α}
    (hnext : replayed ++ [a] <+: order)
    (horder : stream src (src a) order <+: source)
    (hheld : stream src (src a) replayed ++ held <+: source)
    (hne : held ≠ []) : ∃ rest, held = a :: rest := by
  have ha : stream src (src a) replayed ++ [a] <+: source := by
    have h := (stream_mono src hnext (src a)).trans horder
    rwa [stream_append, stream_cons_self, stream_nil] at h
  cases held with
  | nil => exact absurd rfl hne
  | cons b rest =>
    obtain ⟨t, ht⟩ := ha
    obtain ⟨t', ht'⟩ := hheld
    rw [← ht', List.append_assoc, List.append_assoc] at ht
    have hab : a = b := (List.cons.inj (List.append_cancel_left ht)).1
    exact ⟨rest, by rw [hab]⟩

/-- In an order whose part from each source is numbered, an item's number is one more
than the count of its source's items before it. -/
theorem num_of_next {order replayed : List α} {a : α} (hnext : replayed ++ [a] <+: order)
    (hnum : Numbered num (stream src (src a) order)) :
    num a = (stream src (src a) replayed).length + 1 := by
  have h := hnum.of_initial (stream_mono src hnext (src a))
  rw [stream_append, stream_cons_self, stream_nil] at h
  exact (numbered_concat.mp h).2

end UniformBroadcast.SequencedStreams
