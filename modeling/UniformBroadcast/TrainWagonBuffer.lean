import UniformBroadcast.TransitionRuns
import UniformBroadcast.TrainStateMachine

/-!
# The memory of the wagon to send

`newWiw` allocates `wagonMaxLen` bytes, and `mallocWiw` and `signalArrivalDepartures`
reallocate on conditions of their own. The wagon stays within its memory exactly when
none of the three tests of length is passed by a few bytes only.
-/

namespace UniformBroadcast.Trains

open TransitionRuns

/-- `sizeof(payloadArrivalDeparture)`. -/
def sizeofPayloadArrivalDeparture : ℕ := 4

/-- `INT_MAX`. -/
def intMax : ℕ := 2 ^ 31 - 1

/-- `wagonToSend` and the number of bytes allocated for its wagon. -/
structure WagonBuffer where
  wagon : Wagon
  allocated : ℕ
  deriving DecidableEq

section Operations

-- `sizeof(prefix)` depends on the size of a mutex
variable (sizeofPrefix : ℕ) (c : Config)

def newWagonBuffer : WagonBuffer := ⟨newWiw c.myAddress, c.wagonMaxLen⟩

/-- `realloc` to the length of the wagon and one more message. The new length is an `int`; a
sum that it cannot hold becomes negative, no memory is found and the process ends. -/
def reallocWagon (payloadSize : ℕ) (b : WagonBuffer) : Option WagonBuffer :=
  let wagonLen := b.wagon.len + sizeofMessageHeader + payloadSize
  if sizeofPrefix + wagonLen ≤ intMax then some { b with allocated := wagonLen } else none

/-- `mallocWiw` and the writing of the message. -/
def mallocInBuffer (mp : Message) (b : WagonBuffer) : Option WagonBuffer :=
  (if mp.payload.length > c.wagonMaxLen then reallocWagon sizeofPrefix mp.payload.length b
    else some b).map fun b => { b with wagon := mallocWiw mp b.wagon }

/-- `newmsg`; `none` while it waits. -/
def newmsgInBuffer (payload : List (BitVec 8)) (b : WagonBuffer) : Option WagonBuffer :=
  if newmsgWaits c.wagonMaxLen ⟨amBroadcast, payload⟩ b.wagon then none
  else mallocInBuffer sizeofPrefix c ⟨amBroadcast, payload⟩ b

/-- `signalArrivalDepartures`. -/
def signalInBuffer (typ : BitVec 8) (ad circuit : Address) (b : WagonBuffer) :
    Option WagonBuffer :=
  (if (c.wagonMaxLen : ℤ) - b.wagon.len < sizeofPayloadArrivalDeparture then
      reallocWagon sizeofPrefix sizeofPayloadArrivalDeparture b
    else some b).bind
    (mallocInBuffer sizeofPrefix c ⟨typ, addressBytes ad ++ addressBytes circuit⟩)

/-- The operations on `wagonToSend`. `signalArrival` signals once and `signalDepartures` once
for each process that is gone; a wagon that is taken away is replaced by a new one. -/
inductive BufferEvent where
  | newmsg (payload : List (BitVec 8))
  | signal (typ : BitVec 8) (ad circuit : Address)
  | take
  deriving DecidableEq

def bufferStep (b : WagonBuffer) : BufferEvent → Option WagonBuffer
  | .newmsg payload => newmsgInBuffer sizeofPrefix c payload b
  | .signal typ ad circuit => signalInBuffer sizeofPrefix c typ ad circuit b
  | .take => some (newWagonBuffer c)

end Operations

/-- The signals of `signalDepartures`. -/
def departureEvents (goneSet circuit : Address) : List BufferEvent :=
  (((List.range np).map rankToAddr).filter fun ad => addrIsMember ad goneSet).map fun ad =>
    .signal amDeparture ad (circuit &&& ~~~goneSet)

/-- The wagon is within the memory allocated for it. -/
def WithinMemory (b : WagonBuffer) : Prop := b.wagon.len ≤ b.allocated

/-- No test of length is passed by a few bytes: a message that an empty wagon cannot hold
with its headers is longer than a whole wagon, and a signal finds room for its header too
or no room at all. -/
def RoomOrNone (c : Config) (b : WagonBuffer) : BufferEvent → Prop
  | .newmsg payload => b.wagon.msgs = [] → payload.length ≤ c.wagonMaxLen →
    sizeofWagonHeader + sizeofMessageHeader + payload.length ≤ c.wagonMaxLen
  | .signal _ _ _ => b.wagon.len + sizeofPayloadArrivalDeparture ≤ c.wagonMaxLen →
    b.wagon.len + sizeofMessageHeader + sizeofPayloadArrivalDeparture ≤ c.wagonMaxLen
  | .take => True

instance (b : WagonBuffer) : Decidable (WithinMemory b) := inferInstanceAs (Decidable (_ ≤ _))

instance (c : Config) (b : WagonBuffer) : DecidablePred (RoomOrNone c b)
  | .newmsg _ => inferInstanceAs (Decidable (_ → _ → _))
  | .signal _ _ _ => inferInstanceAs (Decidable (_ → _))
  | .take => inferInstanceAs (Decidable True)

variable {sizeofPrefix : ℕ} {c : Config} {b b' : WagonBuffer}

/-! ## The two kinds of memory -/

/-- The memory is that of a new wagon, or has been reallocated to the length of the wagon,
which is then longer than a new one. -/
def Allotted (c : Config) (b : WagonBuffer) : Prop :=
  (b.allocated = c.wagonMaxLen ∧ b.wagon.len ≤ c.wagonMaxLen) ∨
    (b.allocated = b.wagon.len ∧ c.wagonMaxLen < b.wagon.len)

theorem Allotted.withinMemory (h : Allotted c b) : WithinMemory b := by
  rcases h with ⟨hmax, hlen⟩ | ⟨hself, -⟩
  · exact hlen.trans_eq hmax.symm
  · exact Nat.le_of_eq hself.symm

theorem mallocWiw_len (mp : Message) (w : Wagon) :
    (mallocWiw mp w).len = w.len + (sizeofMessageHeader + mp.payload.length) := by
  simp [Wagon.len, mallocWiw, Message.len, Nat.add_assoc]

theorem allotted_new (h : sizeofWagonHeader ≤ c.wagonMaxLen) : Allotted c (newWagonBuffer c) :=
  .inl ⟨rfl, h⟩

theorem reallocWagon_spec {payloadSize : ℕ}
    (h : reallocWagon sizeofPrefix payloadSize b = some b') :
    b'.wagon = b.wagon ∧ b'.allocated = b.wagon.len + sizeofMessageHeader + payloadSize := by
  rw [reallocWagon] at h
  split at h
  · obtain rfl := Option.some.inj h
    exact ⟨rfl, rfl⟩
  · cases h

/-- What `mallocWiw` makes of the lengths. -/
theorem mallocInBuffer_spec {mp : Message} (h : mallocInBuffer sizeofPrefix c mp b = some b') :
    b'.wagon = mallocWiw mp b.wagon ∧
      b'.allocated = if mp.payload.length > c.wagonMaxLen then
        b.wagon.len + sizeofMessageHeader + mp.payload.length else b.allocated := by
  obtain ⟨r, hr, rfl⟩ := Option.map_eq_some_iff.mp h
  split at hr
  · rename_i hlong
    obtain ⟨hwagon, hallocated⟩ := reallocWagon_spec hr
    rw [if_pos hlong]
    exact ⟨by rw [hwagon], hallocated⟩
  · rename_i hshort
    obtain rfl := Option.some.inj hr
    rw [if_neg hshort]
    exact ⟨rfl, rfl⟩

theorem signalInBuffer_wagon {typ : BitVec 8} {ad circuit : Address}
    (h : signalInBuffer sizeofPrefix c typ ad circuit b = some b') :
    b'.wagon = signalArrivalDepartures typ ad circuit b.wagon := by
  obtain ⟨r, hr, h⟩ := Option.bind_eq_some_iff.mp h
  rw [(mallocInBuffer_spec h).1]
  split at hr
  · rw [(reallocWagon_spec hr).1]
    rfl
  · obtain rfl := Option.some.inj hr
    rfl

/-- The signals write the wagon that `signalDepartures` writes. -/
theorem departureEvents_wagon {goneSet circuit : Address}
    (h : exec (bufferStep sizeofPrefix c) b (departureEvents goneSet circuit) = some b') :
    b'.wagon = signalDepartures goneSet circuit b.wagon := by
  have hfold : ∀ (ads : List Address) (b : WagonBuffer),
      exec (bufferStep sizeofPrefix c) b
        (ads.map fun ad => .signal amDeparture ad (circuit &&& ~~~goneSet)) = some b' →
      b'.wagon = ads.foldl
        (fun w ad => signalArrivalDepartures amDeparture ad (circuit &&& ~~~goneSet) w)
        b.wagon := by
    intro ads
    induction ads with
    | nil =>
      intro b hb
      exact congrArg WagonBuffer.wagon (Option.some.inj hb).symm
    | cons ad ads ih =>
      intro b hb
      obtain ⟨r, hr, hrest⟩ := Option.bind_eq_some_iff.mp hb
      rw [ih r hrest, signalInBuffer_wagon hr]
      rfl
  rw [signalDepartures, hfold _ b h]
  split
  · rfl
  · rename_i hnone
    simp [not_not.mp hnone]

/-- A message that is written keeps the memory in order or overflows it. -/
theorem newmsg_spec {payload : List (BitVec 8)} (hc : sizeofWagonHeader ≤ c.wagonMaxLen)
    (hb : Allotted c b) (h : newmsgInBuffer sizeofPrefix c payload b = some b') :
    (RoomOrNone c b (.newmsg payload) → Allotted c b') ∧
      (¬ RoomOrNone c b (.newmsg payload) → ¬ WithinMemory b') := by
  rw [newmsgInBuffer] at h
  split at h
  · cases h
  · rename_i hwaits
    obtain ⟨hwagon, hallocated⟩ := mallocInBuffer_spec h
    have hlen := mallocWiw_len ⟨amBroadcast, payload⟩ b.wagon
    have hheader := len_eq_header_iff b.wagon
    have hwait : b.wagon.len + (sizeofMessageHeader + payload.length) ≤ c.wagonMaxLen ∨
        b.wagon.len = sizeofWagonHeader := by
      rw [newmsgWaits, not_and_or, not_not] at hwaits
      exact hwaits.imp_left Nat.le_of_not_lt
    rw [← hwagon] at hlen
    rw [RoomOrNone, ← hheader, Allotted, WithinMemory]
    dsimp only at hlen hallocated
    unfold Allotted at hb
    split at hallocated
    · omega
    · omega

theorem signal_spec {typ : BitVec 8} {ad circuit : Address} (hc : sizeofWagonHeader ≤ c.wagonMaxLen)
    (hb : Allotted c b) (h : signalInBuffer sizeofPrefix c typ ad circuit b = some b') :
    (RoomOrNone c b (.signal typ ad circuit) → Allotted c b') ∧
      (¬ RoomOrNone c b (.signal typ ad circuit) → ¬ WithinMemory b') := by
  obtain ⟨r, hr, h⟩ := Option.bind_eq_some_iff.mp h
  obtain ⟨hwagon, hallocated⟩ := mallocInBuffer_spec h
  have hlen := mallocWiw_len ⟨typ, addressBytes ad ++ addressBytes circuit⟩ r.wagon
  have hpayload : (addressBytes ad ++ addressBytes circuit).length =
      sizeofPayloadArrivalDeparture := rfl
  have hfour : sizeofPayloadArrivalDeparture < sizeofWagonHeader := by decide
  dsimp only at hlen hallocated
  rw [← hwagon, hpayload] at hlen
  rw [hpayload, if_neg (by omega)] at hallocated
  rw [RoomOrNone, Allotted, WithinMemory]
  unfold Allotted at hb
  split at hr
  · rename_i hroom
    obtain ⟨hwagon', hallocated'⟩ := reallocWagon_spec hr
    rw [hwagon'] at hlen
    omega
  · obtain rfl := Option.some.inj hr
    omega

/-! ## Runs -/

theorem bufferStep_spec {e : BufferEvent} (hc : sizeofWagonHeader ≤ c.wagonMaxLen)
    (hb : Allotted c b) (h : bufferStep sizeofPrefix c b e = some b') :
    (RoomOrNone c b e → Allotted c b') ∧ (¬ RoomOrNone c b e → ¬ WithinMemory b') := by
  cases e with
  | newmsg payload => exact newmsg_spec hc hb h
  | signal typ ad circuit => exact signal_spec hc hb h
  | take =>
    obtain rfl := Option.some.inj h
    exact ⟨fun _ => allotted_new hc, fun hnot => absurd trivial hnot⟩

/-- The wagon never overflows its memory exactly when a new wagon can hold its header and no
test of length is passed by a few bytes only. -/
theorem wagon_within_memory {es : List BufferEvent}
    (h : exec (bufferStep sizeofPrefix c) (newWagonBuffer c) es = some b) :
    Throughout (bufferStep sizeofPrefix c) WithinMemory (newWagonBuffer c) es ↔
      sizeofWagonHeader ≤ c.wagonMaxLen ∧
        Along (bufferStep sizeofPrefix c) (RoomOrNone c) (newWagonBuffer c) es := by
  by_cases hc : sizeofWagonHeader ≤ c.wagonMaxLen
  · rw [and_iff_right hc]
    exact throughout_iff_along (fun _ => Allotted.withinMemory)
      (fun _ _ _ hs hstep hok => (bufferStep_spec hc hs hstep).1 hok)
      (fun _ _ _ hs hstep hnot => (bufferStep_spec hc hs hstep).2 hnot) (allotted_new hc) h
  · refine iff_of_false ?_ fun hall => hc hall.1
    intro hall
    apply hc
    cases es with
    | nil => exact hall
    | cons => exact hall.1

/-- Wagons of 32 bytes, and a message that fills one of them. -/
def fullWagon : List BufferEvent :=
  [.newmsg (List.replicate 20 0#8), .signal amArrival 2#16 3#16, .take,
    .newmsg (List.replicate 40 0#8)]

theorem wagon_within_memory_fullWagon : Throughout (bufferStep 48 ⟨1#16, 3, 32⟩) WithinMemory
    (newWagonBuffer ⟨1#16, 3, 32⟩) fullWagon :=
  have hrun :
      (exec (bufferStep 48 ⟨1#16, 3, 32⟩) (newWagonBuffer ⟨1#16, 3, 32⟩) fullWagon).isSome := by
    decide
  (wagon_within_memory (Option.some_get hrun).symm).mpr (by decide)

/-- A message of 30 bytes is shorter than a wagon of 32 bytes, but not with its headers. -/
theorem not_wagon_within_memory : ¬ Throughout (bufferStep 48 ⟨1#16, 3, 32⟩) WithinMemory
    (newWagonBuffer ⟨1#16, 3, 32⟩) [.newmsg (List.replicate 30 0#8)] := by
  rintro ⟨-, h⟩
  have hwithin : WithinMemory _ := h _ rfl
  revert hwithin
  decide

end UniformBroadcast.Trains
