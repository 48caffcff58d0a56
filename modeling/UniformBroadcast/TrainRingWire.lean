import UniformBroadcast.FramedConnections
import UniformBroadcast.TrainReadBack
import UniformBroadcast.TrainRingProgress

/-!
# The ring of processes on its connections

`sendTrain` and `sendOther` give bytes to a connection, which brings them a few at a time, and
`receive` reads the length of a message, then the rest of it. As long as the trains fit an `int`,
this is the ring that exchanges whole messages.
-/

namespace UniformBroadcast.Trains

open LapSchedule TransitionRuns LittleEndian FramedConnections
open Framing (msgBytes msgOf Framed isFrame_msgBytes msgOf_msgBytes readInt_intBytes)

variable {n ntr : ℕ}

/-- The processes and the connections into them. -/
structure WireRing (n ntr : ℕ) where
  procs : Fin n → Proc ntr
  links : Fin n → Connection

inductive WireEvent (n : ℕ) where
  | broadcast (i : Fin n) (mp : Message)
  | receive (i : Fin n)
  | carry (i : Fin n) (k : ℕ)
  deriving DecidableEq, Repr

/-- `sizeof(length)`. -/
def sizeofLength : ℕ := 4

/-- The bytes that some actions write to the successor. -/
def writtenBytes : List (Action ntr) → List Byte := List.flatMap fun
  | .sendTrain _ lts => sendTrain lts
  | .sendOther _ false msg => msgBytes msg
  | _ => []

namespace WireRing

def fresh (C : Members n) (h : 0 < ntr) : WireRing n ntr where
  procs := (Ring.fresh C h).procs
  links i := Connection.empty.send (((Ring.fresh C h).links i).flatMap msgBytes)

/-- Process `i` becomes `r.1`, has read a message from `c` and has done the actions `r.2`. -/
def after (s : WireRing n ntr) (i : Fin n) (c : Connection) (r : Proc ntr × List (Action ntr)) :
    WireRing n ntr where
  procs := Function.update s.procs i r.1
  links :=
    let links := Function.update s.links i c
    Function.update links (next i) ((links (next i)).send (writtenBytes r.2))

/-- The second `commReadFully` of `receive`, after the bytes of `length`, and `stateMachine`. A
length that does not count itself makes `receive` read beyond its buffer. -/
def receiveRest (C : Members n) (s : WireRing n ntr) (i : Fin n) (head : List Byte) :
    Option (WireRing n ntr) :=
  (readInt head).bind fun length =>
    if length < sizeofLength then none
    else ((s.links i).takeRest head length.toNat).bind fun m => (msgOf m.1).bind fun msg =>
      (stateMachine (C.config i) (fun _ => false) msg (s.procs i)).map (s.after i m.2)

def step (C : Members n) (s : WireRing n ntr) : WireEvent n → Option (WireRing n ntr)
  | .broadcast i mp =>
    (broadcast (C.config i) mp (s.procs i)).map fun p =>
      { s with procs := Function.update s.procs i p }
  | .receive i =>
    match (s.links i).taken with
    | none => ((s.links i).takeHead sizeofLength).map fun c =>
        { s with links := Function.update s.links i c }
    | some head => s.receiveRest C i head
  | .carry i k => some { s with links := Function.update s.links i ((s.links i).carry k) }

end WireRing

/-- The message fits a wagon of length `L`. -/
def Message.Fits (L : ℕ) (mp : Message) : Prop := sizeofWagonHeader + mp.len ≤ L

instance (L : ℕ) (mp : Message) : Decidable (mp.Fits L) := inferInstanceAs (Decidable (_ ≤ _))

def WireEvent.Fits (L : ℕ) : WireEvent n → Prop
  | .broadcast _ mp => mp.Fits L
  | .receive _ | .carry _ _ => True

instance (L : ℕ) : (e : WireEvent n) → Decidable (e.Fits L)
  | .broadcast _ mp => inferInstanceAs (Decidable (mp.Fits L))
  | .receive _ | .carry _ _ => isTrue trivial

/-! ## The lengths of the trains -/

/-- No wagon with messages is longer than `L`. -/
structure Light (L : ℕ) (s : Ring n ntr) : Prop where
  wagonToSend : ∀ i, (s.procs i).wagonToSend.msgs ≠ [] → (s.procs i).wagonToSend.len ≤ L
  put : ∀ i w, some w ∈ s.put i → w.len ≤ L

section Lengths

variable {C : Members n} {hntr : 0 < ntr} {r₀ ρ : Fin ntr → Fin nr} {L : ℕ} {s s' : Ring n ntr}
  {i : Fin n}

theorem wagonsLen_flatMap_le {f : ℕ → List Wagon} (h : ∀ k, wagonsLen (f k) ≤ L) (l : List ℕ) :
    wagonsLen (l.flatMap f) ≤ l.length * L := by
  induction l with
  | nil => exact Nat.zero_le _
  | cons k l ih =>
    rw [List.flatMap_cons, wagonsLen_append, List.length_cons, Nat.succ_mul, Nat.add_comm]
    exact Nat.add_le_add ih (h k)

theorem Light.slot (h : Light L s) (j t : ℕ) : wagonsLen (s.slot j t) ≤ L := by
  rw [Ring.slot]
  split
  · rename_i hj
    cases hw : ((s.put ⟨j, hj⟩)[t]?).join with
    | none => exact Nat.zero_le _
    | some w =>
      have hmem : some w ∈ s.put ⟨j, hj⟩ := List.mem_of_getElem? (Option.join_eq_some_iff.mp hw)
      rw [Option.toList_some, wagonsLen_cons, wagonsLen_nil, Nat.add_zero]
      exact h.put _ w hmem
  · exact Nat.zero_le _

/-- A train carries at most a wagon of each other process. -/
theorem Light.aboard (h : Light L s) (i : Fin n) (t : ℕ) :
    wagonsLen (s.aboard i t) ≤ (n - 1) * L := by
  have hi := i.isLt
  have hprevious : ∀ j, wagonsLen (previous ntr s.slot j t) ≤ L := by
    intro j
    rw [previous]
    split
    · exact Nat.zero_le _
    · exact h.slot _ _
  have hstale := wagonsLen_flatMap_le hprevious (List.range' (i + 1) (n - 1 - i))
  have hfresh := wagonsLen_flatMap_le (fun j => h.slot j t) (List.range i)
  rw [List.length_range'] at hstale
  rw [List.length_range] at hfresh
  calc wagonsLen (s.aboard i t)
      = wagonsLen (stale n ntr s.slot i t) +
          wagonsLen ((List.range i).flatMap (s.slot · t)) := by
        rw [Ring.aboard, LapSchedule.aboard, wagonsLen_append]
    _ ≤ (n - 1 - i) * L + i * L := Nat.add_le_add hstale hfresh
    _ = (n - 1) * L := by rw [← Nat.add_mul, Nat.sub_add_cancel (by omega)]

theorem Light.update_procs (h : Light L s) {p : Proc ntr}
    (hp : p.wagonToSend.msgs ≠ [] → p.wagonToSend.len ≤ L) :
    Light L { s with procs := Function.update s.procs i p } where
  wagonToSend j := by
    rcases eq_or_ne j i with rfl | hj
    · simpa using hp
    · simpa [hj] using h.wagonToSend j
  put := h.put

theorem Light.broadcast (h : Light L s) (hL : C.wagonMaxLen ≤ L)
    (hstate : (s.procs i).automatonState = .several) {mp : Message} (hmp : mp.Fits L)
    {p : Proc ntr} (hp : broadcast (C.config i) mp (s.procs i) = some p) :
    Light L { s with procs := Function.update s.procs i p } := by
  refine h.update_procs fun _ => ?_
  rw [Trains.broadcast] at hp
  split at hp
  · cases hp
  · rename_i hroom
    have hlen := mallocWiw_len mp (s.procs i).wagonToSend
    have hmplen : mp.len = sizeofMessageHeader + mp.payload.length := rfl
    rw [hstate] at hp
    cases hp
    -- `newmsg` has waited for the room, or the wagon had no message
    change (mallocWiw mp (s.procs i).wagonToSend).len ≤ L
    rw [newmsgWaits, not_and_or, not_lt, not_not] at hroom
    rcases hroom with hroom | hempty
    · have hmax : (C.config i).wagonMaxLen = C.wagonMaxLen := rfl
      omega
    · rw [Message.Fits] at hmp
      omega

theorem Light.reject (h : Light L s) (rest : List (Msg ntr)) :
    Light L (s.after i rest (s.procs i, [])) where
  wagonToSend j := by
    have hprocs : (s.after i rest (s.procs i, [])).procs = s.procs :=
      Function.update_eq_self i s.procs
    rw [hprocs]
    exact h.wagonToSend j
  put j w hw := by
    rcases eq_or_ne j i with rfl | hj
    · rw [after_put_self, ownWagons_nil, List.append_nil] at hw
      exact h.put j w hw
    · rw [after_put_of_ne _ _ _ _ _ hj] at hw
      exact h.put j w hw

/-- The wagon put on a train was the wagon to send, and a new one has no message. -/
theorem Light.accept (hn : 2 ≤ n) (hs : Inv C hntr r₀ ρ s) (h : Light L s) (lc : BitVec 8)
    (rest : List (Msg ntr)) : Light L (s.accepted i lc C hntr r₀ ρ rest) := by
  obtain ⟨hi, hother⟩ := hs.accepted_put hn i lc rest
  constructor
  case wagonToSend =>
    intro j
    rcases eq_or_ne j i with rfl | hj
    · have hwagon : (s.handled j lc C hntr r₀ ρ).wagonToSend =
          if (firstMsg (s.procs j).wagonToSend).isSome then newWiw (C.addr j)
          else (s.procs j).wagonToSend :=
        trainHandling_wagonToSend_steady (hs.cameProc j) (hs.goneProc j)
      rw [Ring.accepted, after_procs_self, hwagon]
      split
      · intro hne
        exact absurd rfl hne
      · exact h.wagonToSend j
    · rw [Ring.accepted, after_procs_of_ne _ _ _ _ _ hj]
      exact h.wagonToSend j
  case put =>
    intro j w hw
    rcases eq_or_ne j i with rfl | hj
    · rw [hi] at hw
      rcases List.mem_append.mp hw with hw | hw
      · exact h.put j w hw
      · have hown := (List.mem_singleton.mp hw).symm
        rw [Ring.own, ownWagon] at hown
        split at hown
        · rename_i hfull
          cases hown
          exact h.wagonToSend j ((firstMsg_isSome_iff _).mp hfull)
        · cases hown
    · rw [hother j hj] at hw
      exact h.put j w hw

def Event.Fits (L : ℕ) : Event n → Prop
  | .broadcast _ mp => mp.Fits L
  | .handle _ => True

instance (L : ℕ) : (e : Event n) → Decidable (e.Fits L)
  | .broadcast _ mp => inferInstanceAs (Decidable (mp.Fits L))
  | .handle _ => isTrue trivial

theorem light_step (hn : 2 ≤ n) (hL : C.wagonMaxLen ≤ L) (hs : Inv C hntr r₀ ρ s) (h : Light L s)
    {e : Event n} (he : e.Fits L) (hstep : Trains.step C s e = some s') : Light L s' := by
  cases e with
  | broadcast i mp =>
    obtain ⟨p, hp, rfl⟩ := Option.map_eq_some_iff.mp hstep
    exact h.broadcast hL (hs.state i) he hp
  | handle i =>
    cases hlink : s.links i with
    | nil => simp [Trains.step, hlink] at hstep
    | cons m rest =>
      rcases hs.handle_cases hn hlink with hreject | ⟨lc, -, -, haccept, -⟩
      · obtain rfl := Option.some.inj (hreject.symm.trans hstep)
        exact h.reject rest
      · obtain rfl := Option.some.inj (haccept.symm.trans hstep)
        exact h.accept hn hs lc rest

theorem light_fresh (C : Members n) (hntr : 0 < ntr) : Light L (Ring.fresh C hntr) where
  wagonToSend _ hne := absurd rfl hne
  put _ _ hw := absurd hw List.not_mem_nil

theorem framed_train {stamp : Stamp ntr} {circuit : Address} {wagons : List Wagon}
    (h : sizeofTrainHeader + wagonsLen wagons < 2 ^ 31) :
    Framed (.train stamp circuit (some wagons)) := by
  change (Train.bytes _).length < 2 ^ 31
  rwa [Framing.length_trainBytes]

/-- The trains on the links fit an `int`. -/
theorem Inv.framed (hs : Inv C hntr r₀ ρ s) (h : Light L s)
    (hint : sizeofTrainHeader + (n - 1) * L < 2 ^ 31) {m : Msg ntr} (hm : m ∈ s.links i) :
    Framed m := by
  obtain ⟨pending, -, -, hcarries⟩ := hs.links i
  obtain ⟨k, hk, hget⟩ := List.getElem_of_mem hm
  obtain ⟨lc, htrain⟩ := hcarries.get (hcarries.length_eq.symm ▸ hk) hk
  rw [List.get_eq_getElem, hget] at htrain
  rw [htrain]
  exact framed_train ((Nat.add_le_add_left (h.aboard i _) _).trans_lt hint)

end Lengths

/-! ## What is written and read -/

section Frames

variable {frame head : List Byte}

theorem msgBytes_trainMsg {lts : Lts ntr} (h : Framed (trainMsg lts)) :
    msgBytes (trainMsg lts) = sendTrain lts := by
  rw [trainMsg] at h ⊢
  cases hsent : trainSent lts with
  | none =>
    rw [hsent] at h
    exact h.elim
  | some t =>
    rw [sendTrain_eq_bytes hsent]
    obtain ⟨wagons, -, rfl⟩ := Option.map_eq_some_iff.mp hsent
    rfl

theorem writtenBytes_eq {as : List (Action ntr)} (h : ∀ m ∈ written as, Framed m) :
    writtenBytes as = (written as).flatMap msgBytes := by
  induction as with
  | nil => rfl
  | cons a as ih =>
    rw [writtenBytes, List.flatMap_cons, ← writtenBytes]
    cases a with
    | sendTrain addr lts =>
      have hcons : written (.sendTrain addr lts :: as) = trainMsg lts :: written as := rfl
      rw [hcons, List.forall_mem_cons] at h
      rw [hcons, List.flatMap_cons, ← ih h.2, msgBytes_trainMsg h.1]
    | sendOther addr isPred msg =>
      cases isPred with
      | false =>
        have hcons : written (.sendOther addr false msg :: as) = msg :: written as := rfl
        rw [hcons, List.forall_mem_cons] at h
        rw [hcons, List.flatMap_cons, ← ih h.2]
      | true => exact ih h
    | participate | openConnection | closeConnection | sleep => exact ih h

theorem sizeofLength_le (h : Framing.IsFrame frame) : sizeofLength ≤ frame.length := by
  obtain ⟨-, rest, hrest⟩ := h
  rw [hrest, List.length_append, length_intBytes]
  exact Nat.le_add_right _ _

/-- The head of a frame is its length. -/
theorem readInt_head (h : Framing.IsFrame frame) :
    readInt (frame.take sizeofLength) = some (frame.length : ℤ) := by
  obtain ⟨hfits, rest, hrest⟩ := h
  have hlength : frame.length = 4 + rest.length := by
    rw [hrest, List.length_append, length_intBytes]
  have htake : frame.take sizeofLength = intBytes frame.length := by
    rw [hlength, hrest]
    exact List.take_left' (length_intBytes _)
  rw [htake, readInt_intBytes hfits]

end Frames

/-! ## Refinement -/

/-- The connections carry the messages of the ring. -/
structure Carried (C : Members n) (hntr : 0 < ntr) (r₀ ρ : Fin ntr → Fin nr) (L : ℕ)
    (w : WireRing n ntr) (s : Ring n ntr) : Prop where
  procs : w.procs = s.procs
  links : ∀ i, Holds sizeofLength msgBytes (w.links i) (s.links i)
  inv : Inv C hntr r₀ ρ s
  light : Light L s

section Refinement

variable {C : Members n} {hntr : 0 < ntr} {r₀ ρ : Fin ntr → Fin nr} {L : ℕ} {w w' : WireRing n ntr}
  {s s' : Ring n ntr} {i : Fin n}

variable (C hntr L) in
theorem carried_fresh (hn : 2 ≤ n) : ∃ r₀ ρ,
    Carried C hntr r₀ ρ L (WireRing.fresh C hntr) (Ring.fresh C hntr) := by
  obtain ⟨r₀, ρ, hs⟩ := inv_fresh hntr (fresh_fresh C hn hntr)
  exact ⟨r₀, ρ, rfl, fun i => holds_empty.send ((Ring.fresh C hntr).links i), hs,
    light_fresh C hntr⟩

/-- Bytes arrive, or the length of a message is read. -/
theorem Carried.update_links (h : Carried C hntr r₀ ρ L w s) {c : Connection}
    (hc : Holds sizeofLength msgBytes c (s.links i)) :
    Carried C hntr r₀ ρ L { w with links := Function.update w.links i c } s where
  procs := h.procs
  links j := by
    rcases eq_or_ne j i with rfl | hj
    · simpa using hc
    · simpa [hj] using h.links j
  inv := h.inv
  light := h.light

theorem Carried.broadcast (h : Carried C hntr r₀ ρ L w s) (hL : C.wagonMaxLen ≤ L) {mp : Message}
    (hmp : mp.Fits L) {p : Proc ntr} (hp : broadcast (C.config i) mp (s.procs i) = some p) :
    Carried C hntr r₀ ρ L { w with procs := Function.update w.procs i p }
      { s with procs := Function.update s.procs i p } where
  procs := by simp only [h.procs]
  links := h.links
  inv := inv_broadcast h.inv hp
  light := h.light.broadcast hL (h.inv.state i) hmp hp

/-- A process can treat the first message of its link. -/
theorem Inv.stateMachine_eq (hn : 2 ≤ n) (hs : Inv C hntr r₀ ρ s) {m : Msg ntr}
    {rest : List (Msg ntr)} (hlink : s.links i = m :: rest) :
    ∃ r, stateMachine (C.config i) (fun _ => false) m (s.procs i) = some r := by
  have hstep : Trains.step C s (.handle i) =
      (stateMachine (C.config i) (fun _ => false) m (s.procs i)).map (s.after i rest) := by
    simp only [Trains.step, hlink]
  rcases hs.handle_cases hn hlink with h | ⟨lc, -, -, h, -⟩
  · obtain ⟨r, hr, -⟩ := Option.map_eq_some_iff.mp (hstep.symm.trans h)
    exact ⟨r, hr⟩
  · obtain ⟨r, hr, -⟩ := Option.map_eq_some_iff.mp (hstep.symm.trans h)
    exact ⟨r, hr⟩

variable (hn : 2 ≤ n) (hmax : ntr ≤ maxNtr) (hL : C.wagonMaxLen ≤ L)
  (hint : sizeofTrainHeader + (n - 1) * L < 2 ^ 31)

include hn hL hint in
/-- A process treats a message, and what it writes are frames. -/
theorem Carried.after (h : Carried C hntr r₀ ρ L w s) {rest : List (Msg ntr)} {c : Connection}
    (hc : Holds sizeofLength msgBytes c rest) {r : Proc ntr × List (Action ntr)}
    (hstep : Trains.step C s (.handle i) = some (s.after i rest r)) :
    Carried C hntr r₀ ρ L (w.after i c r) (s.after i rest r) := by
  have hinv := inv_step hn h.inv hstep
  have hlight := light_step hn hL h.inv h.light (e := .handle i) trivial hstep
  have hwritten : ∀ m ∈ written r.2, Framed m := by
    intro m hm
    refine hinv.framed (i := next i) hlight hint ?_
    rw [after_links_next hn]
    exact List.mem_append_right _ hm
  refine ⟨?_, fun j => ?_, hinv, hlight⟩
  · simp only [WireRing.after, Ring.after, h.procs]
  · rcases eq_or_ne j (next i) with rfl | hj
    · rw [after_links_next hn]
      simpa [WireRing.after, next_ne hn i, writtenBytes_eq hwritten] using
        (h.links (next i)).send (written r.2)
    · rcases eq_or_ne j i with rfl | hji
      · rw [after_links_self hn]
        simpa [WireRing.after, hj] using hc
      · rw [after_links_of_ne _ _ _ _ _ hji hj]
        simpa [WireRing.after, hj, hji] using h.links j

include hn hmax hint in
/-- Once the first message has been read it is treated. -/
theorem Carried.receiveRest_eq (h : Carried C hntr r₀ ρ L w s) {head : List Byte}
    (hhead : (w.links i).taken = some head) {m : Msg ntr} {rest : List (Msg ntr)}
    (hlink : s.links i = m :: rest) : ∃ r,
      Trains.step C s (.handle i) = some (s.after i rest r) ∧
      w.receiveRest C i head = ((w.links i).takeRest head (msgBytes m).length).map fun m =>
        w.after i m.2 r := by
  have hframed : Framed m := h.inv.framed h.light hint (hlink ▸ List.mem_cons_self)
  have hframe := isFrame_msgBytes hframed
  have hholds := hlink ▸ h.links i
  have hle := sizeofLength_le hframe
  have hread : readInt head = some ((msgBytes m).length : ℤ) := by
    rw [hholds.head_eq hle hhead, readInt_head hframe]
  obtain ⟨r, hr⟩ := h.inv.stateMachine_eq hn hlink
  refine ⟨r, ?_, ?_⟩
  · simp only [Trains.step, hlink, hr, Option.map_some]
  · rw [WireRing.receiveRest, hread, Option.bind_some, if_neg (by omega), Int.toNat_natCast]
    cases htake : (w.links i).takeRest head (msgBytes m).length with
    | none => rfl
    | some b =>
      obtain ⟨bytes, c⟩ := b
      obtain ⟨rfl, -⟩ := hholds.takeRest hle hhead htake
      rw [Option.bind_some, msgOf_msgBytes hmax hframed, Option.bind_some, h.procs, hr]
      rfl

include hn hmax hL hint in
/-- A step on the bytes is a step on the messages, or none when only some bytes arrive or a length
is read. -/
theorem Carried.simulates (h : Carried C hntr r₀ ρ L w s) {e : WireEvent n} (he : e.Fits L)
    (hstep : w.step C e = some w') :
    ∃ ds s', exec (Trains.step C) s ds = some s' ∧ Carried C hntr r₀ ρ L w' s' := by
  cases e with
  | broadcast i mp =>
    obtain ⟨p, hp, rfl⟩ := Option.map_eq_some_iff.mp hstep
    rw [h.procs] at hp
    refine ⟨[.broadcast i mp], { s with procs := Function.update s.procs i p }, ?_,
      h.broadcast hL he hp⟩
    rw [exec_cons, Trains.step, hp]
    rfl
  | receive i =>
    rw [WireRing.step] at hstep
    split at hstep
    · rename_i hnone
      obtain ⟨c, htake, rfl⟩ := Option.map_eq_some_iff.mp hstep
      exact ⟨[], s, rfl, h.update_links ((h.links i).takeHead (by decide) hnone htake)⟩
    · rename_i head hhead
      obtain ⟨m, rest, hlink⟩ := List.exists_cons_of_ne_nil ((h.links i).taken head hhead).2
      obtain ⟨r, hhandle, hreceive⟩ := h.receiveRest_eq hn hmax hint hhead hlink
      obtain ⟨⟨bytes, c⟩, htake, rfl⟩ := Option.map_eq_some_iff.mp (hreceive.symm.trans hstep)
      have hholds := hlink ▸ h.links i
      have hframe := isFrame_msgBytes (h.inv.framed h.light hint (hlink ▸ List.mem_cons_self))
      obtain ⟨-, hrest⟩ := hholds.takeRest (sizeofLength_le hframe) hhead htake
      refine ⟨[.handle i], _, ?_, h.after hn hL hint hrest hhandle⟩
      rw [exec_cons, hhandle]
      rfl
  | carry i k =>
    cases hstep
    exact ⟨[], s, rfl, h.update_links ((h.links i).carry k)⟩

include hn hmax hint in
/-- Once all its bytes have arrived, the next message is read and treated. -/
theorem Carried.receive_isSome (h : Carried C hntr r₀ ρ L w s) (hbytes : (w.links i).bytes ≠ [])
    (hflight : (w.links i).flight = []) : (w.step C (.receive i)).isSome := by
  obtain ⟨m, rest, hlink⟩ : ∃ m rest, s.links i = m :: rest := by
    apply List.exists_cons_of_ne_nil
    intro hempty
    rw [(h.links i).bytes, hempty] at hbytes
    exact hbytes rfl
  have hholds := hlink ▸ h.links i
  have hframe := isFrame_msgBytes (h.inv.framed h.light hint (hlink ▸ List.mem_cons_self))
  rw [WireRing.step]
  cases htaken : (w.links i).taken with
  | none =>
    have htake := hholds.takeHead_isSome (sizeofLength_le hframe) htaken hflight
    simpa using htake
  | some head =>
    obtain ⟨r, -, hreceive⟩ := h.receiveRest_eq hn hmax hint htaken hlink
    have htake := hholds.takeRest_isSome htaken hflight
    dsimp only
    rw [hreceive]
    simpa using htake

include hn hmax hL hint in
/-- **Bytes.** In every run whose messages fit wagons of length `L`, the processes are where they
are in a run that exchanges whole trains, each connection carries the frames of the trains, and a
process that has bytes to come reads a train and treats it once they have arrived. -/
theorem train_bytes_simulate (hntr : 0 < ntr) {es : List (WireEvent n)}
    (hes : ∀ e ∈ es, e.Fits L)
    (h : exec (WireRing.step C) (WireRing.fresh C hntr) es = some w) :
    ∃ fs s, runFresh C hntr fs = some s ∧ w.procs = s.procs ∧
      (∀ i, (w.links i).bytes = (s.links i).flatMap msgBytes) ∧
      ∀ i, (w.links i).bytes ≠ [] → (w.links i).flight = [] → (w.step C (.receive i)).isSome := by
  obtain ⟨r₀, ρ, hfresh⟩ := carried_fresh C hntr L hn
  have hok : Along (WireRing.step C) (fun _ e => e.Fits L) (WireRing.fresh C hntr) es :=
    along_of_forall (fun e he _ => hes e he) _
  obtain ⟨fs, s, hs, hcarried⟩ := exec_simulates
    (fun _ _ _ _ hR he hstep => hR.simulates hn hmax hL hint he hstep) hfresh hok h
  exact ⟨fs, s, hs, hcarried.procs, fun i => (hcarried.links i).bytes,
    fun i => hcarried.receive_isSome hn hmax hint⟩

/-! ## Every run that exchanges trains -/

/-- Everything written has arrived, and nothing is half read. -/
def WireRing.Settled (w : WireRing n ntr) : Prop :=
  ∀ i, (w.links i).taken = none ∧ (w.links i).flight = []

/-- What is on its way on one connection arrives. -/
theorem Carried.settle (h : Carried C hntr r₀ ρ L w s) (htaken : ∀ j, (w.links j).taken = none)
    (hflight : ∀ j, j ≠ i → (w.links j).flight = []) : ∃ ds w',
      exec (WireRing.step C) w ds = some w' ∧ Carried C hntr r₀ ρ L w' s ∧ w'.Settled := by
  refine ⟨[.carry i (w.links i).flight.length], _, rfl, h.update_links ((h.links i).carry _),
    fun j => ?_⟩
  rcases eq_or_ne j i with rfl | hj
  · simp [htaken]
  · simp [hj, htaken, hflight j hj]

include hn hmax hL hint in
/-- A process reads the head of a message, then the rest, and treats it. -/
theorem Carried.handle (h : Carried C hntr r₀ ρ L w s) (hsettled : w.Settled) {m : Msg ntr}
    {rest : List (Msg ntr)} (hlink : s.links i = m :: rest) : ∃ c r,
      Trains.step C s (.handle i) = some (s.after i rest r) ∧
      exec (WireRing.step C) w [.receive i, .receive i] = some (w.after i c r) ∧
      Carried C hntr r₀ ρ L (w.after i c r) (s.after i rest r) ∧ c.taken = none ∧
      c.flight = [] := by
  obtain ⟨hnone, hflight⟩ := hsettled i
  have hframe := isFrame_msgBytes (h.inv.framed h.light hint (hlink ▸ List.mem_cons_self))
  have hle := sizeofLength_le hframe
  -- the head leaves the connection where it was for the ring of messages
  obtain ⟨b, hhead⟩ := Option.isSome_iff_exists.mp
    ((hlink ▸ h.links i).takeHead_isSome hle hnone hflight)
  obtain ⟨hbtaken, hbflight⟩ := Connection.takeHead_eq hhead
  have hfirst := h.update_links ((h.links i).takeHead (by decide) hnone hhead)
  have htaken : (Function.update w.links i b i).taken =
      some ((w.links i).arrived.take sizeofLength) := by
    rw [Function.update_self, hbtaken]
  have harrived : (Function.update w.links i b i).flight = [] := by
    rw [Function.update_self, hbflight, hflight]
  -- then the rest
  have hholds := hlink ▸ hfirst.links i
  obtain ⟨r, hhandle, hreceive⟩ := hfirst.receiveRest_eq hn hmax hint htaken hlink
  obtain ⟨⟨bytes, c⟩, hrest⟩ := Option.isSome_iff_exists.mp
    (hholds.takeRest_isSome htaken harrived)
  obtain ⟨-, hc⟩ := hholds.takeRest hle htaken hrest
  refine ⟨c, r, hhandle, ?_, h.after hn hL hint hc hhandle, Connection.takeRest_taken hrest,
    (Connection.takeRest_flight hrest).trans harrived⟩
  dsimp only at hreceive
  rw [hrest, Option.map_some, WireRing.after, Function.update_idem] at hreceive
  rw [exec_cons, WireRing.step, hnone]
  dsimp only
  rw [hhead, Option.map_some, Option.bind_some, exec_cons, WireRing.step]
  dsimp only
  rw [htaken]
  dsimp only
  rw [hreceive]
  rfl

/-- Only what process `i` has written is on its way. -/
theorem settled_after (hn : 2 ≤ n) (hsettled : w.Settled) {c : Connection} (htaken : c.taken = none)
    (hflight : c.flight = []) (r : Proc ntr × List (Action ntr)) :
    (∀ j, ((w.after i c r).links j).taken = none) ∧
      ∀ j, j ≠ next i → ((w.after i c r).links j).flight = [] := by
  constructor
  · intro j
    rcases eq_or_ne j (next i) with rfl | hj
    · simpa [WireRing.after, next_ne hn i] using (hsettled (next i)).1
    · rcases eq_or_ne j i with rfl | hji
      · simpa [WireRing.after, hj] using htaken
      · simpa [WireRing.after, hj, hji] using (hsettled j).1
  · intro j hj
    rcases eq_or_ne j i with rfl | hji
    · simpa [WireRing.after, hj] using hflight
    · simpa [WireRing.after, hj, hji] using (hsettled j).2

include hn hmax hL hint in
/-- A step on the messages is one on the bytes, after which what was written arrives. -/
theorem Carried.simulated (h : Carried C hntr r₀ ρ L w s) (hsettled : w.Settled) {e : Event n}
    (he : e.Fits L) (hstep : Trains.step C s e = some s') : ∃ ds w',
      exec (WireRing.step C) w ds = some w' ∧ Carried C hntr r₀ ρ L w' s' ∧ w'.Settled := by
  cases e with
  | broadcast i mp =>
    obtain ⟨p, hp, rfl⟩ := Option.map_eq_some_iff.mp hstep
    refine ⟨[.broadcast i mp], { w with procs := Function.update w.procs i p }, ?_,
      h.broadcast hL he hp, hsettled⟩
    rw [exec_cons, WireRing.step, h.procs, hp]
    rfl
  | handle i =>
    cases hlink : s.links i with
    | nil => simp [Trains.step, hlink] at hstep
    | cons m rest =>
      obtain ⟨c, r, hhandle, hexec, hafter, htaken, hflight⟩ :=
        h.handle hn hmax hL hint hsettled hlink
      obtain rfl := Option.some.inj (hhandle.symm.trans hstep)
      obtain ⟨htakens, hflights⟩ := settled_after hn hsettled htaken hflight r
      obtain ⟨ds, w', hds, hcarried, hsettled'⟩ := hafter.settle htakens hflights
      refine ⟨[.receive i, .receive i] ++ ds, w', ?_, hcarried, hsettled'⟩
      rw [exec_append, hexec]
      exact hds

include hn hmax hL hint in
/-- **Trains.** Every state that the ring reaches by exchanging whole trains, with messages that
fit wagons of length `L`, is reached on the bytes, with all that was written arrived. -/
theorem train_bytes_reach (hntr : 0 < ntr) {es : List (Event n)} (hes : ∀ e ∈ es, e.Fits L)
    (h : runFresh C hntr es = some s) :
    ∃ fs w, exec (WireRing.step C) (WireRing.fresh C hntr) fs = some w ∧ w.procs = s.procs ∧
      ∀ i, w.links i = ⟨none, (s.links i).flatMap msgBytes, []⟩ := by
  obtain ⟨r₀, ρ, hfresh⟩ := carried_fresh C hntr L hn
  have hok : Along (Trains.step C) (fun _ e => e.Fits L) (Ring.fresh C hntr) es :=
    along_of_forall (fun e he _ => hes e he) _
  -- the trains head towards process `0`
  obtain ⟨fs, w₀, hfs, hw₀⟩ := hfresh.settle (i := ⟨0, Nat.lt_of_lt_of_le Nat.two_pos hn⟩)
    (fun _ => rfl) fun j hj => by
      have hzero : j.val ≠ 0 := fun h => hj (Fin.ext h)
      simp [WireRing.fresh, Ring.fresh, hzero, Connection.send, Connection.empty]
  have hsim : ∀ (s : Ring n ntr) (e : Event n) (s' : Ring n ntr) (w : WireRing n ntr),
      Carried C hntr r₀ ρ L w s ∧ w.Settled → e.Fits L → Trains.step C s e = some s' →
      ∃ ds w', exec (WireRing.step C) w ds = some w' ∧ Carried C hntr r₀ ρ L w' s' ∧ w'.Settled :=
    fun _ _ _ _ hR he hstep => hR.1.simulated hn hmax hL hint hR.2 he hstep
  obtain ⟨gs, w, hgs, hcarried, hsettled⟩ := exec_simulates hsim hw₀ hok h
  refine ⟨fs ++ gs, w, ?_, hcarried.procs, fun i => ?_⟩
  · rw [exec_append, hfs]
    exact hgs
  · obtain ⟨htaken, hflight⟩ := hsettled i
    have hbytes := (hcarried.links i).bytes
    rw [Connection.bytes, htaken, hflight, List.append_nil, Option.getD_none,
      List.nil_append] at hbytes
    rw [← hbytes, ← htaken, ← hflight]

/-- A message goes from `i` to `j` on a train that arrives in two pieces. -/
def circulateOnWire (i j : Fin n) (mp : Message) : List (WireEvent n) :=
  [.broadcast i mp, .carry i 3, .carry i 7, .receive i, .receive i, .carry j 12, .receive j,
    .carry j 11, .receive j]

theorem train_bytes_simulate_circulate : ∃ w,
    exec (WireRing.step (Members.ofRanks 2 (by decide) 0 64))
      (WireRing.fresh (Members.ofRanks 2 (by decide) 0 64) Nat.one_pos)
      (circulateOnWire 0 1 ⟨amBroadcast, [5#8]⟩) = some w ∧
    ∃ fs s, runFresh (Members.ofRanks 2 (by decide) 0 64) Nat.one_pos fs = some s ∧
      w.procs = s.procs ∧ (∀ i, (w.links i).bytes = (s.links i).flatMap msgBytes) ∧
      ∀ i, (w.links i).bytes ≠ [] → (w.links i).flight = [] →
        (w.step (Members.ofRanks 2 (by decide) 0 64) (.receive i)).isSome := by
  let w := (exec (WireRing.step (Members.ofRanks 2 (by decide) 0 64))
    (WireRing.fresh (Members.ofRanks 2 (by decide) 0 64) Nat.one_pos)
    (circulateOnWire 0 1 ⟨amBroadcast, [5#8]⟩)).get (by decide)
  have hw : exec (WireRing.step (Members.ofRanks 2 (by decide) 0 64))
    (WireRing.fresh (Members.ofRanks 2 (by decide) 0 64) Nat.one_pos)
    (circulateOnWire 0 1 ⟨amBroadcast, [5#8]⟩) = some w := (Option.some_get _).symm
  exact ⟨w, hw, train_bytes_simulate (L := 64) (Nat.le_refl 2) (by decide) (Nat.le_refl 64)
    (by decide) Nat.one_pos (by decide) hw⟩

/-- Process `i` broadcasts, and the trains make the laps after which both deliver. -/
def circulate (i j : Fin n) (mp : Message) : List (Event n) :=
  [.broadcast i mp, .handle i, .handle j, .handle i, .handle j, .handle i, .handle j]

theorem train_bytes_reach_circulate : ∃ s,
    runFresh (Members.ofRanks 2 (by decide) 0 64) Nat.one_pos
      (circulate 0 1 ⟨amBroadcast, [5#8]⟩) = some s ∧
    ∃ fs w, exec (WireRing.step (Members.ofRanks 2 (by decide) 0 64))
        (WireRing.fresh (Members.ofRanks 2 (by decide) 0 64) Nat.one_pos) fs = some w ∧
      w.procs = s.procs ∧ ∀ i, w.links i = ⟨none, (s.links i).flatMap msgBytes, []⟩ := by
  let s := (runFresh (Members.ofRanks 2 (by decide) 0 64) Nat.one_pos
    (circulate 0 1 ⟨amBroadcast, [5#8]⟩)).get (by decide)
  have hs : runFresh (Members.ofRanks 2 (by decide) 0 64) Nat.one_pos
    (circulate 0 1 ⟨amBroadcast, [5#8]⟩) = some s := (Option.some_get _).symm
  exact ⟨s, hs, train_bytes_reach (L := 64) (Nat.le_refl 2) (by decide) (Nat.le_refl 64)
    (by decide) Nat.one_pos (by decide) hs⟩

end Refinement

end UniformBroadcast.Trains
