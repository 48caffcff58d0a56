import UniformBroadcast.TrainStateMachine
import UniformBroadcast.TrainWagonLayout

/-!
# Messages read back from their frames

What `stateMachine` reads of a received frame: the type, the sender of a message that `sendOther`
has sent, and the stamp, the circuit, the wagons and their messages of a train. The frame of a
message gives back the message.
-/

namespace UniformBroadcast.Trains.Framing

open LittleEndian LengthScans

variable {ntr : ℕ}

/-- An address at a position. -/
def addressAt (frame : List Byte) (x : ℕ) : Option Address := do
  let low ← frame[x]?
  let high ← frame[x + 1]?
  return high ++ low

/-- The wagon at a position, with its messages. -/
def wagonOf (frame : List Byte) (w : ℕ) : Option Wagon := do
  let sender ← addressAt frame (w + 4)
  let round ← frame[w + 6]?
  let msgs ← messages frame w
  if h : round.toNat < nr then return ⟨sender, ⟨round.toNat, h⟩, msgs⟩ else none

/-- A train. Its identifier and its round are indexes of arrays. -/
def trainOf (frame : List Byte) : Option (Msg ntr) := do
  let id ← frame[5]?
  let lc ← frame[6]?
  let round ← frame[7]?
  let circuit ← addressAt frame 8
  let ws ← wagons frame
  let wagons ← ws.mapM (wagonOf frame)
  if h : id.toNat < ntr ∧ round.toNat < nr then
    return .train ⟨⟨id.toNat, h.1⟩, lc, ⟨round.toNat, h.2⟩⟩ circuit (some wagons)
  else none

/-- A received frame, by its type. -/
def msgOf (frame : List Byte) : Option (Msg ntr) := do
  let type ← frame[4]?
  if type = mtypeTrain then trainOf frame
  else
    let sender ← addressAt frame 5
    if type = mtypeInsert then return .insert sender
    else if type = mtypeAckInsert then return .ackInsert sender
    else if type = mtypeNakInsert then return .nakInsert sender
    else if type = mtypeDisconnectPred then return .disconnectPred sender
    else if type = mtypeDisconnectSucc then return .disconnectSucc sender
    else if type = mtypeNewSucc then return .newSucc sender
    else none

/-- What `newMsg` makes and `sendOther` sends. -/
def otherBytes (type : Byte) (sender : Address) : List Byte :=
  intBytes 7 ++ type :: addressBytes sender

/-- The frame of a message. A train whose bytes are no wagons has none. -/
def msgBytes : Msg ntr → List Byte
  | .train stamp circuit (some wagons) => Train.bytes ⟨stamp, circuit, wagons⟩
  | .train _ _ none => []
  | .insert sender => otherBytes mtypeInsert sender
  | .ackInsert sender => otherBytes mtypeAckInsert sender
  | .nakInsert sender => otherBytes mtypeNakInsert sender
  | .disconnectPred sender => otherBytes mtypeDisconnectPred sender
  | .disconnectSucc sender => otherBytes mtypeDisconnectSucc sender
  | .newSucc sender => otherBytes mtypeNewSucc sender

variable {frame rest : List Byte} {x : ℕ}

/-! ## Other messages -/

theorem addressBytes_append (ad : Address) :
    (ad.extractLsb' 8 8 ++ ad.extractLsb' 0 8 : BitVec 16) = ad := by
  ext i hi
  rw [BitVec.getElem_append]
  by_cases hlow : i < 8
  · simp [hlow, BitVec.getLsbD_eq_getElem hi]
  · have hsum : 8 + (i - 8) = i := by omega
    simp [hlow, hsum, BitVec.getLsbD_eq_getElem hi]

theorem addressAt_of_drop {ad : Address} (h : frame.drop x = addressBytes ad ++ rest) :
    addressAt frame x = some ad := by
  have hlow : frame[x]? = some (ad.extractLsb' 0 8) := by
    rw [← Nat.add_zero x, ← List.getElem?_drop, h]
    rfl
  have hhigh : frame[x + 1]? = some (ad.extractLsb' 8 8) := by
    rw [← List.getElem?_drop, h]
    rfl
  rw [addressAt, hlow, hhigh]
  exact congrArg some (addressBytes_append ad)

/-- `sendOther` sends these bytes. -/
theorem sendOther_eq (junk : Fin sizeofBody → Byte) {type : Byte} (sender : Address)
    (htype : type ∈ [mtypeInsert, mtypeAckInsert, mtypeNakInsert, mtypeNewSucc,
      mtypeDisconnectPred, mtypeDisconnectSucc]) :
    sendOther junk type sender = some (otherBytes type sender) := by
  have hother : ∀ t ∈ [mtypeInsert, mtypeAckInsert, mtypeNakInsert, mtypeNewSucc,
      mtypeDisconnectPred, mtypeDisconnectSucc], t ≠ mtypeTrain ∧ t ≠ mtypeDefault := by decide
  obtain ⟨htrain, hdefault⟩ := hother type htype
  rw [sendOther, if_neg htrain, newMsg]
  dsimp only
  rw [if_neg hdefault, if_neg htrain, if_pos htype]
  rfl

theorem msgOf_otherBytes {type : Byte} {sender : Address} {m : Msg ntr}
    (htype : type ≠ mtypeTrain)
    (hm : (if type = mtypeInsert then some (.insert sender)
      else if type = mtypeAckInsert then some (.ackInsert sender)
      else if type = mtypeNakInsert then some (.nakInsert sender)
      else if type = mtypeDisconnectPred then some (.disconnectPred sender)
      else if type = mtypeDisconnectSucc then some (.disconnectSucc sender)
      else if type = mtypeNewSucc then some (.newSucc sender) else none) = some m) :
    msgOf (otherBytes type sender) = some m := by
  have hget : (otherBytes type sender)[4]? = some type := rfl
  have hsender : addressAt (otherBytes type sender) 5 = some sender :=
    addressAt_of_drop (List.append_nil _).symm
  rw [msgOf, hget]
  simp only [Option.bind_eq_bind, Option.bind_some]
  rw [if_neg htype, hsender]
  exact hm

/-! ## Trains -/

theorem toNat_round : ∀ r : Fin nr, (BitVec.ofNat 8 r.val).toNat = r.val := by decide

theorem wagonOf_of_drop {w : Wagon} (hlen : w.len < 2 ^ 31)
    (hdrop : frame.drop x = w.bytes ++ rest) : wagonOf frame x = some w := by
  have hsplit : w.bytes ++ rest = (intBytes w.len ++ addressBytes w.sender ++
      [BitVec.ofNat 8 w.round]) ++ (w.msgs.flatMap Message.bytes ++ rest) := by
    simp [Wagon.bytes]
  have hheader : (intBytes w.len ++ addressBytes w.sender ++
      [BitVec.ofNat 8 w.round.val]).length = sizeofWagonHeader := by
    simp [sizeofWagonHeader]
  have hread : readInt (intBytes w.len ++ addressBytes w.sender ++ [BitVec.ofNat 8 w.round.val]) =
      some ((sizeofWagonHeader + (w.msgs.map Message.len).sum : ℕ) : ℤ) := by
    rw [List.append_assoc, intBytes, readInt_toBytes, toInt_ofNat hlen]
    rfl
  have hmsgs := (readsBack_of_drop hheader hread (hdrop.trans hsplit)).messages_eq
  have hdropped : frame.drop (x + 4) = addressBytes w.sender ++
      (BitVec.ofNat 8 w.round.val :: (w.msgs.flatMap Message.bytes ++ rest)) := by
    rw [← List.drop_drop, hdrop, hsplit, List.append_assoc, List.append_assoc]
    exact (List.drop_left' (length_intBytes _)).trans (by simp)
  have hsender : addressAt frame (x + 4) = some w.sender := addressAt_of_drop hdropped
  have hround : frame[x + 6]? = some (BitVec.ofNat 8 w.round) := by
    have hsix : x + 6 = x + 4 + 2 := rfl
    rw [hsix, ← List.getElem?_drop, hdropped]
    rfl
  have hlt : (BitVec.ofNat 8 w.round.val).toNat < nr := by
    rw [toNat_round]
    exact w.round.isLt
  rw [wagonOf, hsender, hround, hmsgs]
  simp only [Option.bind_eq_bind, Option.bind_some]
  rw [dif_pos hlt]
  have heq : (⟨(BitVec.ofNat 8 w.round.val).toNat, hlt⟩ : Fin nr) = w.round :=
    Fin.ext (toNat_round w.round)
  rw [heq]
  rfl

theorem mapM_wagonOf {ws : List Wagon} (hlens : ∀ w ∈ ws, w.len < 2 ^ 31)
    (hdrop : frame.drop x = ws.flatMap Wagon.bytes ++ rest) :
    (positions x (ws.map Wagon.bytes)).mapM (wagonOf frame) = some ws := by
  induction ws generalizing x with
  | nil => rfl
  | cons w ws ih =>
    obtain ⟨hw, hws⟩ := List.forall_mem_cons.mp hlens
    rw [List.flatMap_cons, List.append_assoc] at hdrop
    have hnext : frame.drop (x + w.bytes.length) = ws.flatMap Wagon.bytes ++ rest := by
      rw [← List.drop_drop, hdrop, List.drop_left]
    rw [List.map_cons, positions, List.mapM_cons, wagonOf_of_drop hw hdrop, ih hws hnext]
    rfl

variable {t : Train ntr}

theorem length_trainBytes (t : Train ntr) :
    t.bytes.length = sizeofTrainHeader + wagonsLen t.wagons := by
  rw [Train.bytes, List.length_append, length_headerBytes, length_wagonsBytes]

theorem isFrame_bytes (h : t.bytes.length < 2 ^ 31) : IsFrame t.bytes := by
  obtain ⟨more, hmore⟩ : ∃ more, t.bytes =
      intBytes (sizeofTrainHeader + wagonsLen t.wagons) ++ more := by
    rw [Train.bytes, headerBytes, List.append_assoc, List.append_assoc]
    exact ⟨_, rfl⟩
  refine ⟨h, more, ?_⟩
  have hlength := length_trainBytes t
  rw [hmore, List.length_append, length_intBytes] at hlength
  rw [hmore, hlength]

/-- The loop over the wagons of a train comes to each of them. -/
theorem wagons_bytes (h : t.bytes.length < 2 ^ 31) :
    wagons t.bytes = some (positions sizeofTrainHeader (t.wagons.map Wagon.bytes)) := by
  have hframe := isFrame_bytes h
  have htype : t.bytes[4]? = some mtypeTrain := rfl
  have hlength := length_trainBytes t
  have hdrop : t.bytes.drop sizeofTrainHeader = (t.wagons.map Wagon.bytes).flatten := by
    rw [Train.bytes, List.drop_left' (length_headerBytes _ _ _), List.flatMap_def]
  rw [wagons, firstWagon_frame hframe htype]
  rcases eq_or_ne t.wagons [] with hnil | hne
  · rw [hnil, wagonsLen_nil] at hlength
    rw [if_neg (by omega), hnil]
    rfl
  · have hpos := List.length_pos_iff.mpr hne
    have hcount := length_le_wagonsLen t.wagons
    have hlens : ∀ b ∈ t.wagons.map Wagon.bytes, TellsLength b := by
      intro b hb
      obtain ⟨w, hw, rfl⟩ := List.mem_map.mp hb
      have hle := Wagon.len_le_wagonsLen hw
      refine ⟨?_, readInt_bytes (by omega)⟩
      rw [Wagon.length_bytes, Wagon.len]
      exact Nat.le_add_right _ _
    have hblocks := blocks_flatten (by decide) hlens []
    rw [List.append_nil, ← hdrop] at hblocks
    have hbody : (t.bytes.drop sizeofTrainHeader).length = wagonsLen t.wagons := by
      rw [List.length_drop, hlength, Nat.add_sub_cancel_left]
    have hfuel : (t.wagons.map Wagon.bytes).length ≤ t.bytes.length + 1 := by
      rw [List.length_map]
      omega
    have hvisits := visits_of_blocks (by decide) (by omega) hblocks hfuel
    rw [hbody, ← hlength, ← nextWagon_eq hframe] at hvisits
    rw [if_pos (by omega)]
    exact hvisits

/-- **Round trip.** The frame of a train is read back. -/
theorem msgOf_trainBytes (hntr : ntr ≤ maxNtr) (h : t.bytes.length < 2 ^ 31) :
    msgOf t.bytes = some (.train t.stamp t.circuit (some t.wagons)) := by
  have hlength := length_trainBytes t
  have hlens : ∀ w ∈ t.wagons, w.len < 2 ^ 31 := by
    intro w hw
    have hle := Wagon.len_le_wagonsLen hw
    omega
  have hdrop : t.bytes.drop sizeofTrainHeader = t.wagons.flatMap Wagon.bytes ++ [] := by
    rw [Train.bytes, List.drop_left' (length_headerBytes _ _ _), List.append_nil]
  have hwagons := mapM_wagonOf hlens hdrop
  have hcircuit : addressAt t.bytes 8 = some t.circuit := addressAt_of_drop rfl
  have hid : (BitVec.ofNat 8 t.stamp.id.val).toNat = t.stamp.id.val := by
    have hlt := t.stamp.id.isLt
    rw [maxNtr] at hntr
    rw [BitVec.toNat_ofNat, Nat.mod_eq_of_lt (by omega)]
  have hround := toNat_round t.stamp.round
  have hbounds : (BitVec.ofNat 8 t.stamp.id.val).toNat < ntr ∧
      (BitVec.ofNat 8 t.stamp.round.val).toNat < nr := by
    rw [hid, hround]
    exact ⟨t.stamp.id.isLt, t.stamp.round.isLt⟩
  have htrain : trainOf t.bytes = some (.train t.stamp t.circuit (some t.wagons)) := by
    have hid? : t.bytes[5]? = some (BitVec.ofNat 8 t.stamp.id) := rfl
    have hlc? : t.bytes[6]? = some t.stamp.lc := rfl
    have hround? : t.bytes[7]? = some (BitVec.ofNat 8 t.stamp.round) := rfl
    rw [trainOf, hid?, hlc?, hround?, hcircuit, wagons_bytes h]
    simp only [Option.bind_eq_bind, Option.bind_some, hwagons]
    rw [dif_pos hbounds]
    have hstamp : (⟨⟨_, hbounds.1⟩, t.stamp.lc, ⟨_, hbounds.2⟩⟩ : Stamp ntr) = t.stamp := by
      have hi : (⟨_, hbounds.1⟩ : Fin ntr) = t.stamp.id := Fin.ext hid
      have hr : (⟨_, hbounds.2⟩ : Fin nr) = t.stamp.round := Fin.ext hround
      rw [hi, hr]
    rw [hstamp]
    rfl
  have htype : t.bytes[4]? = some mtypeTrain := rfl
  rw [msgOf, htype]
  simp only [Option.bind_eq_bind, Option.bind_some]
  rw [if_pos trivial]
  exact htrain

/-- The message has a frame whose length fits an `int`. -/
def Framed : Msg ntr → Prop
  | .train _ _ none => False
  | m => (msgBytes m).length < 2 ^ 31

theorem msgOf_msgBytes (hntr : ntr ≤ maxNtr) {m : Msg ntr} (h : Framed m) :
    msgOf (msgBytes m) = some m := by
  cases m with
  | train stamp circuit wagons =>
    cases wagons with
    | none => exact h.elim
    | some wagons => exact msgOf_trainBytes hntr h
  | insert | ackInsert | nakInsert | disconnectPred | disconnectSucc | newSucc =>
    exact msgOf_otherBytes (by decide) rfl

/-- The frame of a message begins with its length. -/
theorem isFrame_msgBytes {m : Msg ntr} (h : Framed m) : IsFrame (msgBytes m) := by
  cases m with
  | train stamp circuit wagons =>
    cases wagons with
    | none => exact h.elim
    | some wagons => exact isFrame_bytes h
  | insert sender | ackInsert sender | nakInsert sender | disconnectPred sender
  | disconnectSucc sender | newSucc sender =>
    exact ⟨h, _ :: addressBytes sender, rfl⟩

end UniformBroadcast.Trains.Framing
