import UniformBroadcast.TcpRingSystem

/-!
# The global invariant of the TCP ring

Every node has heard a prefix of what each sender broadcast, and the connection into a
node holds exactly what its predecessor heard and it has not. The order of a node is a
prefix of the leader's, and the acknowledgements on a connection name the entries of the
leader's order that the predecessor has and the node has not, each one behind the
broadcast it names.
-/

namespace UniformBroadcast.TcpRing

open Sequencer SequencedStreams

variable {N : ℕ}

/-- A node that has heard `known x` broadcasts of each `x` and has ordered `p` entries
reads these messages: each acknowledgement names the next entry and comes behind the
broadcast it names, and after the last message `q` entries are ordered. -/
def Flow (order : List (Option (Bcast N))) : (Fin N → ℕ) → ℕ → List (Msg N) → ℕ → Prop
  | _, p, [], q => p = q
  | known, p, .b m :: l, q =>
    Flow order (Function.update known m.idProcess (known m.idProcess + 1)) p l q
  | known, p, .a k :: l, q =>
    Names order p k ∧ k.seq ≤ known k.idProcess ∧ Flow order known (p + 1) l q

theorem Flow.mono {order order' : List (Option (Bcast N))} (h : order <+: order')
    {known known' : Fin N → ℕ} (hknown : ∀ x, known x ≤ known' x) {p q : ℕ} {l : List (Msg N)}
    (hl : Flow order known p l q) : Flow order' known' p l q := by
  induction l generalizing known known' p with
  | nil => exact hl
  | cons m l ih =>
    cases m with
    | b m =>
      refine ih (fun x => ?_) hl
      by_cases hx : x = m.idProcess
      · subst hx
        simpa using hknown m.idProcess
      · simpa [hx] using hknown x
    | a k => exact ⟨hl.1.mono h, hl.2.1.trans (hknown _), ih hknown hl.2.2⟩

theorem Flow.concat_b {order : List (Option (Bcast N))} {known : Fin N → ℕ} {p q : ℕ}
    {l : List (Msg N)} (hl : Flow order known p l q) (m : Bcast N) :
    Flow order known p (l ++ [.b m]) q := by
  induction l generalizing known p with
  | nil => exact hl
  | cons m l ih =>
    cases m with
    | b m => exact ih hl
    | a k => exact ⟨hl.1, hl.2.1, ih hl.2.2⟩

/-- An acknowledgement may follow once the broadcast it names is known or ahead of it. -/
theorem Flow.concat_a {order : List (Option (Bcast N))} {known : Fin N → ℕ} {p q : ℕ}
    {l : List (Msg N)} (hl : Flow order known p l q) {k : Ack N} (hk : Names order q k)
    (hseq : k.seq ≤ known k.idProcess + (stream source (some k.idProcess) (bcasts l)).length) :
    Flow order known p (l ++ [.a k]) (q + 1) := by
  induction l generalizing known p with
  | nil =>
    obtain rfl : p = q := hl
    exact ⟨hk, by simpa [bcasts] using hseq, rfl⟩
  | cons m l ih =>
    cases m with
    | b m =>
      refine ih hl ?_
      by_cases hx : k.idProcess = m.idProcess
      · simp only [bcasts, stream, List.filter_cons, source_some, hx, decide_true, ↓reduceIte,
          List.length_cons] at hseq ⊢
        simp only [Function.update_self]
        omega
      · have hne : source (some m) ≠ some k.idProcess := by simpa using Ne.symm hx
        rw [bcasts, stream_cons_of_ne source hne] at hseq
        simpa [hx] using hseq
    | a k' => exact ⟨hl.1, hl.2.1, ih hl.2.2 hseq⟩

/-! ## The invariant -/

variable (hN : 2 ≤ N)

structure Inv (s : Ring N) : Prop where
  own : ∀ x, Numbered number ((s.nodes x).heard x)
  own_length : ∀ x, ((s.nodes x).heard x).length = (s.nodes x).seqNum
  carried : ∀ j x, x ≠ j → (s.nodes j).heard x ++ stream source (some x) (bcasts (s.inbox j)) =
    (s.nodes (getPredecessor j)).heard x
  not_back : ∀ j, stream source (some j) (bcasts (s.inbox j)) = []
  heard_le : ∀ j x, (s.nodes j).heard x <+: (s.nodes x).heard x
  leader_noAck : ∀ x, (s.nodes (leader hN)).vectorNoAck x = []
  order_le : ∀ j, (s.nodes j).order <+: (s.nodes (leader hN)).order
  order_length : ∀ j, (s.nodes j).order.length = (s.nodes j).ackNum
  order_some : ∀ o ∈ (s.nodes (leader hN)).order, o.isSome
  leader_acks : ∀ k, Msg.a k ∉ s.inbox (leader hN)
  flow : ∀ j, j ≠ leader hN → Flow (s.nodes (leader hN)).order
    (fun x => ((s.nodes j).heard x).length) (s.nodes j).order.length (s.inbox j)
    (s.nodes (getPredecessor j)).order.length
  delivered : ∀ j, (s.nodes j).Counted

theorem inv_initial : Inv hN (Ring.initial : Ring N) where
  own _ := numbered_nil
  own_length _ := rfl
  carried _ _ _ := rfl
  not_back _ := rfl
  heard_le _ _ := List.nil_prefix
  leader_noAck _ := rfl
  order_le _ := List.nil_prefix
  order_length _ := rfl
  order_some := by simp [Ring.initial]
  leader_acks := by simp [Ring.initial]
  flow _ _ := rfl
  delivered _ := rfl

end UniformBroadcast.TcpRing
