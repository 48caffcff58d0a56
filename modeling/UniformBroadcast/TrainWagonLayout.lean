import UniformBroadcast.FallibleSteps
import UniformBroadcast.TrainScans
import UniformBroadcast.TrainWagonBuffer

/-!
# The bytes of the wagon to send

Translation of `newWiw`, `mallocWiw`, `newmsg` and `signalArrivalDepartures` on the bytes of the
memory they write, and of the loop of `utoDeliveries` that reads the messages back. The memory of
`wagonToSend` may move when it is reallocated, and what `malloc` and `realloc` leave in new bytes
is arbitrary.
-/

namespace UniformBroadcast.Trains.Framing

open LittleEndian LengthScans FallibleSteps

/-! ## Reading messages -/

/-- The type and the payload of the message at a position; `payloadSize` is the length less the
size of the header. `none` is a read outside the bytes. -/
def messageAt (frame : List Byte) (mp : ℕ) : Option Message := do
  let len ← readInt (frame.drop mp)
  let typ ← frame[mp + 4]?
  let payloadSize := (len - sizeofMessageHeader).toNat
  let payload := (frame.drop (mp + sizeofMessageHeader)).take payloadSize
  if payload.length = payloadSize then some ⟨typ, payload⟩ else none

/-- `for (mp = firstMsg(w); mp != NULL; mp = nextMsg(w, mp))`. A loop that ends visits each
position at most once. -/
def messages (frame : List Byte) (w : ℕ) : Option (List Message) := do
  let first ← firstMsg frame w
  let mps ← visits (nextMsg frame w) (frame.length + 1) first
  mps.mapM (messageAt frame)

/-- The positions of the wagons that the loop over `firstWagon` and `nextWagon` visits. -/
def wagons (frame : List Byte) : Option (List ℕ) := do
  let first ← firstWagon frame
  visits (nextWagon frame) (frame.length + 1) first

/-- The messages are read in the wagon at a position. -/
structure ReadsBack (frame : List Byte) (w : ℕ) (msgs : List Message) : Prop where
  messages_eq : messages frame w = some msgs
  firstMsg_null : firstMsg frame w = some none ↔ msgs = []

theorem scanFrom_eq_mapM (frame : List Byte) (fuel x : ℕ) :
    scanFrom frame fuel x =
      (visits (nextWagon frame) fuel (some x)).bind fun ws => ws.mapM (wagonAt frame) := by
  induction fuel generalizing x with
  | zero => rfl
  | succ fuel ih =>
    rw [scanFrom, visits]
    cases hnext : nextWagon frame x with
    | none => cases wagonAt frame x <;> rfl
    | some next =>
      cases next with
      | none =>
        have hend : visits (nextWagon frame) fuel none = some [] := by
          cases fuel <;> rfl
        cases hat : wagonAt frame x with
        | none => simp [hend, hat]
        | some bytes => simp [hend, hat]
      | some x2 =>
        have hrest := ih x2
        cases hvisits : visits (nextWagon frame) fuel (some x2) with
        | none =>
          rw [hvisits] at hrest
          cases wagonAt frame x with
          | none => simp [hvisits]
          | some bytes => simp [hrest, hvisits]
        | some ws =>
          rw [hvisits] at hrest
          cases hat : wagonAt frame x with
          | none => simp [hvisits, hat]
          | some bytes => simp [hrest, hvisits, hat]

/-- The bytes that the scan of a frame gives are those of the wagons at these positions. -/
theorem scan_eq_mapM (frame : List Byte) :
    scan frame = (wagons frame).bind fun ws => ws.mapM (wagonAt frame) := by
  rw [scan, wagons]
  cases firstWagon frame with
  | none => rfl
  | some first =>
    cases first with
    | none => rfl
    | some x => exact scanFrom_eq_mapM frame _ x

section Reading

variable {frame header rest : List Byte} {msgs : List Message} {x : ℕ}

theorem messageAt_bytes {mp : Message} (hint : mp.len < 2 ^ 31)
    (hdrop : frame.drop x = mp.bytes ++ rest) : messageAt frame x = some mp := by
  have hread : readInt (frame.drop x) = some (mp.len : ℤ) := by
    have hfour : 4 ≤ mp.bytes.length := by
      rw [Message.length_bytes, Message.len, sizeofMessageHeader]
      omega
    rw [hdrop, readInt_append hfour, readInt_message hint, Message.length_bytes]
  have hsplit : mp.bytes ++ rest = (intBytes mp.len ++ [mp.typ]) ++ (mp.payload ++ rest) := by
    simp [Message.bytes]
  have htyp : frame[x + 4]? = some mp.typ := by
    rw [← List.getElem?_drop, hdrop, hsplit, List.append_assoc,
      List.getElem?_append_right (by rw [length_intBytes])]
    rfl
  have hpayload : frame.drop (x + sizeofMessageHeader) = mp.payload ++ rest := by
    rw [← List.drop_drop, hdrop, hsplit]
    exact List.drop_left' rfl
  have hsize : ((mp.len : ℤ) - sizeofMessageHeader).toNat = mp.payload.length := by
    rw [Message.len]
    omega
  rw [messageAt, hread, htyp]
  simp only [Option.bind_eq_bind, Option.bind_some, hpayload, hsize]
  rw [List.take_left' rfl, if_pos rfl]

theorem mapM_messageAt (hint : ∀ mp ∈ msgs, mp.len < 2 ^ 31)
    (hdrop : frame.drop x = msgs.flatMap Message.bytes ++ rest) :
    (positions x (msgs.map Message.bytes)).mapM (messageAt frame) = some msgs := by
  induction msgs generalizing x with
  | nil => rfl
  | cons mp msgs ih =>
    obtain ⟨hmp, hmsgs⟩ := List.forall_mem_cons.mp hint
    rw [List.flatMap_cons, List.append_assoc] at hdrop
    have hnext : frame.drop (x + mp.bytes.length) = msgs.flatMap Message.bytes ++ rest := by
      rw [← List.drop_drop, hdrop, List.drop_left]
    rw [List.map_cons, positions, List.mapM_cons, messageAt_bytes hmp hdrop, ih hmsgs hnext]
    rfl

theorem length_msgsBytes (msgs : List Message) :
    (msgs.flatMap Message.bytes).length = (msgs.map Message.len).sum := by
  rw [List.length_flatMap]
  exact congrArg List.sum (List.map_congr_left fun mp _ => Message.length_bytes mp)

/-- The readers give back the messages behind a header with the length of the whole wagon. -/
theorem readsBack_of_drop (hheader : header.length = sizeofWagonHeader)
    (hread : readInt header = some ((sizeofWagonHeader + (msgs.map Message.len).sum : ℕ) : ℤ))
    (hdrop : frame.drop x = header ++ (msgs.flatMap Message.bytes ++ rest)) :
    ReadsBack frame x msgs := by
  have hfits := readInt_lt hread
  have hlen : readInt (frame.drop x) =
      some ((sizeofWagonHeader + (msgs.map Message.len).sum : ℕ) : ℤ) := by
    rw [hdrop, readInt_append (by rw [hheader]; decide), hread]
  have hbody : frame.drop (x + sizeofWagonHeader) = msgs.flatMap Message.bytes ++ rest := by
    rw [← List.drop_drop, hdrop, List.drop_left' hheader]
  cases msgs with
  | nil =>
    have hfirst : firstMsg frame x = some none := by
      rw [firstMsg, hlen]
      rfl
    refine ⟨?_, iff_of_true hfirst rfl⟩
    rw [messages, hfirst]
    rfl
  | cons mp msgs =>
    have hpos := mp.len_pos
    rw [List.map_cons, List.sum_cons] at hlen hfits
    have hfirst : firstMsg frame x = some (some (x + sizeofWagonHeader)) := by
      rw [firstMsg, hlen, Option.bind_eq_bind, Option.bind_some, if_neg (by omega)]
      rfl
    have hint : ∀ mp' ∈ mp :: msgs, mp'.len < 2 ^ 31 := by
      intro mp' hmp'
      have hle := List.single_le_sum (l := (mp :: msgs).map Message.len) (fun _ _ => Nat.zero_le _)
        mp'.len (List.mem_map_of_mem hmp')
      rw [List.map_cons, List.sum_cons] at hle
      omega
    have hblocks := blocks_messages hint rest
    rw [← hbody] at hblocks
    have hlength := length_msgsBytes (mp :: msgs)
    rw [List.map_cons, List.sum_cons] at hlength
    have hfuel : ((mp :: msgs).map Message.bytes).length ≤ frame.length + 1 := by
      have hdroplen := congrArg List.length hbody
      have hcount := List.length_le_sum_of_one_le ((mp :: msgs).map Message.len)
        (List.forall_mem_map.mpr fun mp' _ => mp'.len_pos)
      rw [List.length_drop, List.length_append, hlength] at hdroplen
      rw [List.length_map, List.map_cons, List.sum_cons] at hcount
      rw [List.length_map]
      omega
    have hvisits := visits_of_blocks (by decide) (by omega) hblocks hfuel
    have hstop : x + sizeofWagonHeader + ((mp :: msgs).flatMap Message.bytes).length =
        x + (sizeofWagonHeader + (mp.len + (msgs.map Message.len).sum)) := by
      omega
    rw [hstop, ← nextMsg_eq hlen] at hvisits
    refine ⟨?_, iff_of_false (by rw [hfirst]; simp) (List.cons_ne_nil _ _)⟩
    rw [messages, hfirst, Option.bind_eq_bind, Option.bind_some, hvisits]
    exact mapM_messageAt hint hbody

/-- A block that tells its length can be scanned as a wagon. -/
def TellsLength (b : List Byte) : Prop :=
  sizeofWagonHeader ≤ b.length ∧ readInt b = some (b.length : ℤ)

/-- In a train the loop over the wagons comes to each of them. -/
theorem wagons_of_drop (hframe : IsFrame frame) (htype : frame[4]? = some mtypeTrain)
    {before after : List (List Byte)} {w : List Byte}
    (hdrop : frame.drop sizeofTrainHeader = before.flatten ++ (w ++ after.flatten))
    (hlens : ∀ b ∈ before ++ w :: after, TellsLength b) :
    ∃ ws, wagons frame = some ws ∧
      ws[before.length]? = some (sizeofTrainHeader + before.flatten.length) := by
  have hflatten : (before ++ w :: after).flatten = frame.drop sizeofTrainHeader := by
    rw [hdrop, List.flatten_append, List.flatten_cons]
  have hblocks := blocks_flatten (by decide) hlens []
  rw [List.append_nil, hflatten] at hblocks
  have hw : sizeofWagonHeader ≤ w.length :=
    (hlens w (List.mem_append_right _ List.mem_cons_self)).1
  have hpos : 0 < (frame.drop sizeofTrainHeader).length := by
    rw [sizeofWagonHeader] at hw
    rw [hdrop, List.length_append, List.length_append]
    omega
  have hfuel : (before ++ w :: after).length ≤ frame.length + 1 := by
    have hcount := List.length_le_sum_of_one_le ((before ++ w :: after).map List.length)
      (List.forall_mem_map.mpr fun b hb => Nat.one_le_of_lt (hlens b hb).1)
    rw [List.length_map, ← List.length_flatten, hflatten, List.length_drop] at hcount
    omega
  have hvisits := visits_of_blocks (by decide) hpos hblocks hfuel
  have hstop : sizeofTrainHeader + (frame.drop sizeofTrainHeader).length = frame.length := by
    rw [List.length_drop] at hpos ⊢
    omega
  rw [hstop, ← nextWagon_eq hframe] at hvisits
  refine ⟨positions sizeofTrainHeader (before ++ w :: after), ?_, ?_⟩
  · rw [wagons, firstWagon_frame hframe htype, if_pos (by omega)]
    exact hvisits
  · rw [positions_append, List.getElem?_append_right (by rw [length_positions]),
      length_positions, Nat.sub_self]
    rfl

end Reading

/-! ## Writing messages -/

/-- Why the code stops: it reads memory that is freed or was never allocated, it writes outside
the allocated bytes, `realloc` finds no memory, or `newmsg` waits. -/
inductive Stop where
  | badRead
  | overflow
  | noMemory
  | waits
  deriving DecidableEq, Repr

/-- The bytes of the womims, from the wagon on, and the two pointers of `wagonToSend`: `p_wagon`
points to the wagon of a womim. -/
structure Memory where
  blocks : ℕ → Option (List Byte)
  pWagon : ℕ
  pWomim : ℕ

/-- Where the allocator finds memory, and what it leaves there. -/
structure Place where
  address : Option ℕ
  garbage : ℕ → Byte

def Place.bytes (a : Place) (size : ℕ) : List Byte := (List.range size).map a.garbage

/-- `header.len` of a wagon. -/
def headerLen (bytes : List Byte) : Except Stop ℕ :=
  match readInt bytes with
  | some (Int.ofNat len) => .ok len
  | _ => .error .badRead

def overwrite (x : ℕ) (new bytes : List Byte) : Except Stop (List Byte) :=
  if x + new.length ≤ bytes.length then
    .ok (bytes.take x ++ (new ++ bytes.drop (x + new.length)))
  else .error .overflow

namespace Memory

def load (m : Memory) (p : ℕ) : Except Stop (List Byte) :=
  match m.blocks p with
  | some bytes => .ok bytes
  | none => .error .badRead

def store (p : ℕ) (bytes : List Byte) (m : Memory) : Memory :=
  { m with blocks := Function.update m.blocks p (some bytes) }

/-- The bytes `new` at position `x` of the wagon to send. -/
def write (x : ℕ) (new : List Byte) (m : Memory) : Except Stop Memory := do
  let bytes ← m.load m.pWagon
  let bytes ← overwrite x new bytes
  return m.store m.pWagon bytes

/-- `p_womim = realloc(p_womim, ..)`: the memory grows where it is or moves. -/
def realloc (a : Place) (size : ℕ) (m : Memory) : Except Stop Memory := do
  let bytes ← m.load m.pWomim
  match a.address with
  | none => .error .noMemory
  | some p =>
    if p = m.pWomim ∨ m.blocks p = none then
      let freed := { m with blocks := Function.update m.blocks m.pWomim none }
      let kept := bytes.take size ++ a.bytes (size - bytes.length)
      return { freed.store p kept with pWomim := p }
    else .error .noMemory

section Operations

variable (sizeofPrefix : ℕ) (c : Config)

def newWiw (a : Place) : Except Stop Memory := do
  match a.address with
  | none => .error .noMemory
  | some p =>
    let m : Memory := ⟨Function.update (fun _ => none) p (some (a.bytes c.wagonMaxLen)), p, p⟩
    let m ← m.write 0 (intBytes sizeofWagonHeader)
    let m ← m.write 4 (addressBytes c.myAddress)
    m.write 6 [0#8]

/-- The reallocation of `mallocWiw` and of `signalArrivalDepartures`. The new length is an
`int`; a sum that it cannot hold becomes negative. -/
def reallocWagon (payloadSize : ℕ) (a : Place) (m : Memory) : Except Stop Memory := do
  let w ← m.load m.pWagon
  let len ← headerLen w
  let wagonLen := len + sizeofMessageHeader + payloadSize
  if sizeofPrefix + wagonLen ≤ intMax then m.realloc a wagonLen else .error .noMemory

/-- The position of the new message. -/
def mallocWiw (payloadSize : ℕ) (a : Place) (m : Memory) : Except Stop (ℕ × Memory) := do
  let m ← (if payloadSize > c.wagonMaxLen then m.reallocWagon sizeofPrefix payloadSize a else .ok m)
  let m := { m with pWagon := m.pWomim }
  let w ← m.load m.pWagon
  let mp ← headerLen w
  let m ← m.write mp (intBytes (sizeofMessageHeader + payloadSize))
  let m ← m.write 0 (intBytes (mp + (sizeofMessageHeader + payloadSize)))
  return (mp, m)

def newmsg (payloadSize : ℕ) (a : Place) (m : Memory) : Except Stop (ℕ × Memory) := do
  let w ← m.load m.pWagon
  let len ← headerLen w
  if len + sizeofMessageHeader + payloadSize > c.wagonMaxLen ∧ len ≠ sizeofWagonHeader then
    .error .waits
  else do
    let (mp, m) ← m.mallocWiw sizeofPrefix c payloadSize a
    let m ← m.write (mp + 4) [amBroadcast]
    return (mp, m)

/-- The type and the payload of the message at `mp`. -/
def fill (mp : ℕ) (mess : Message) (m : Memory) : Except Stop Memory := do
  let m ← m.write (mp + 4) [mess.typ]
  m.write (mp + sizeofMessageHeader) mess.payload

def signalArrivalDepartures (typ : Byte) (ad circuit : Address) (a a' : Place) (m : Memory) :
    Except Stop Memory := do
  let w ← m.load m.pWagon
  let len ← headerLen w
  let m ← (if (c.wagonMaxLen : ℤ) - len < sizeofPayloadArrivalDeparture then
      m.reallocWagon sizeofPrefix sizeofPayloadArrivalDeparture a
    else .ok m)
  let (mp, m) ← m.mallocWiw sizeofPrefix c sizeofPayloadArrivalDeparture a'
  m.fill mp ⟨typ, addressBytes ad ++ addressBytes circuit⟩

/-- What places a message in the wagon: the application with `newmsg`, whatever type and payload
it then writes, or the middleware. -/
inductive Placement where
  | newmsg (mess : Message) (a : Place)
  | signal (typ : Byte) (ad circuit : Address) (a a' : Place)

def Placement.message : Placement → Message
  | .newmsg mess _ => mess
  | .signal typ ad circuit _ _ => ⟨typ, addressBytes ad ++ addressBytes circuit⟩

def place (m : Memory) : Placement → Except Stop Memory
  | .newmsg mess a => do
    let (mp, m) ← m.newmsg sizeofPrefix c mess.payload.length a
    m.fill mp mess
  | .signal typ ad circuit a a' => m.signalArrivalDepartures sizeofPrefix c typ ad circuit a a'

/-- Messages placed in a new wagon. -/
def placed (a : Place) (ps : List Placement) : Except Stop Memory := do
  let m ← newWiw c a
  ps.foldlM (place sizeofPrefix c) m

end Operations

/-! ## The layout -/

section Layout

variable {sizeofPrefix n x : ℕ} {c : Config} {m : Memory} {b : WagonBuffer} {a : Place}
  {before after new : List Byte}

/-- The memory of `p_womim` holds the wagon, and has the size of the buffer. -/
def HasBlock (m : Memory) (b : WagonBuffer) : Prop :=
  b.allocated ≤ intMax ∧ ∃ rest, m.blocks m.pWomim = some (b.wagon.bytes ++ rest) ∧
    (b.wagon.bytes ++ rest).length = b.allocated

/-- Between two messages both pointers are to the same womim. -/
def Lays (m : Memory) (b : WagonBuffer) : Prop := m.pWagon = m.pWomim ∧ m.HasBlock b

/-- The bytes of a wagon where a message of `n` bytes has been made room for. -/
def openedBytes (w : Wagon) (n : ℕ) : List Byte :=
  intBytes (w.len + (sizeofMessageHeader + n)) ++
    (w.bytes.drop 4 ++ intBytes (sizeofMessageHeader + n))

/-- What `mallocWiw` leaves: the type and the payload of the last message are still to come. -/
def Opened (m : Memory) (n : ℕ) (b : WagonBuffer) : Prop :=
  m.pWagon = m.pWomim ∧ b.allocated ≤ intMax ∧
    ∃ rest, m.blocks m.pWomim = some (openedBytes b.wagon n ++ rest) ∧
      (openedBytes b.wagon n ++ rest).length = b.allocated

theorem wagon_bytes_eq (w : Wagon) : w.bytes = intBytes w.len ++ w.bytes.drop 4 := by
  have htake : w.bytes.take 4 = intBytes w.len := by
    rw [Wagon.bytes, List.append_assoc]
    exact List.take_left' (length_intBytes _)
  rw [← htake, List.take_append_drop]

theorem length_openedBytes (w : Wagon) (n : ℕ) : (openedBytes w n).length = w.len + 4 := by
  have hlength := congrArg List.length (wagon_bytes_eq w)
  rw [List.length_append, length_intBytes, Wagon.length_bytes] at hlength
  rw [openedBytes, List.length_append, List.length_append, length_intBytes, length_intBytes]
  omega

/-- With its type and its payload the message is one more message of the wagon. -/
theorem openedBytes_fill (w : Wagon) (mess : Message) :
    openedBytes w mess.payload.length ++ ([mess.typ] ++ mess.payload) =
      (Trains.mallocWiw mess w).bytes := by
  have hlen : (Trains.mallocWiw mess w).len = w.len + (sizeofMessageHeader + mess.payload.length) :=
    mallocWiw_len mess w
  have htail : w.bytes.drop 4 = addressBytes w.sender ++
      BitVec.ofNat 8 w.round :: w.msgs.flatMap Message.bytes := by
    rw [Wagon.bytes, List.append_assoc]
    exact List.drop_left' (length_intBytes _)
  rw [openedBytes, htail, Wagon.bytes, hlen]
  simp [Trains.mallocWiw, Message.bytes, Message.len]

theorem headerLen_ensures {w : Wagon} {rest : List Byte} (h : w.len ≤ intMax) :
    Ensures (· = Stop.badRead) (headerLen (w.bytes ++ rest)) (· = w.len) := by
  have hlt : w.len < 2 ^ 31 := by
    rw [intMax] at h
    omega
  rw [headerLen, readInt_wagon hlt]
  rfl

theorem overwrite_ensures (hx : x = before.length) :
    Ensures (· = Stop.badRead) (overwrite x new (before ++ after)) fun bytes =>
      bytes = before ++ (new ++ after.drop new.length) ∧ new.length ≤ after.length := by
  subst hx
  rw [overwrite]
  split
  · rename_i hle
    rw [List.length_append] at hle
    refine ensures_ok ⟨?_, by omega⟩
    rw [List.take_left' rfl, ← List.drop_drop, List.drop_left' rfl]
  · exact ensures_error nofun

theorem load_ensures {p : ℕ} {bytes : List Byte} (hblock : m.blocks p = some bytes) :
    Ensures (· = Stop.badRead) (m.load p) (· = bytes) := by
  rw [load, hblock]
  rfl

theorem write_ensures (hpointers : m.pWagon = m.pWomim)
    (hblock : m.blocks m.pWomim = some (before ++ after)) (hx : x = before.length) :
    Ensures (· = Stop.badRead) (m.write x new) fun m' => m'.pWagon = m'.pWomim ∧
      m'.blocks m'.pWomim = some (before ++ (new ++ after.drop new.length)) ∧
      new.length ≤ after.length := by
  rw [← hpointers] at hblock
  refine (load_ensures hblock).bind ?_
  rintro bytes rfl
  refine (overwrite_ensures hx).bind ?_
  rintro bytes ⟨rfl, hle⟩
  refine ensures_ok ⟨hpointers, ?_, hle⟩
  simp only [store, ← hpointers, Function.update_self]

theorem realloc_ensures {bytes : List Byte} {size : ℕ} (hblock : m.blocks m.pWomim = some bytes) :
    Ensures (· = Stop.badRead) (m.realloc a size) fun m' =>
      m'.blocks m'.pWomim = some (bytes.take size ++ a.bytes (size - bytes.length)) := by
  refine (load_ensures hblock).bind ?_
  rintro bytes rfl
  cases a.address with
  | none => exact ensures_error nofun
  | some p =>
    dsimp only
    split
    · refine ensures_ok ?_
      simp only [store, Function.update_self]
    · exact ensures_error nofun

/-- The length in the header can be read. -/
theorem HasBlock.len_le (hm : m.HasBlock b) : b.wagon.len ≤ intMax := by
  obtain ⟨hfits, rest, -, hlength⟩ := hm
  rw [List.length_append, Wagon.length_bytes] at hlength
  exact (Nat.le_add_right _ _).trans (hlength.trans_le hfits)

theorem reallocWagon_ensures (hm : m.Lays b) :
    Ensures (· = Stop.badRead) (m.reallocWagon sizeofPrefix n a) fun m' =>
      ∃ b', Trains.reallocWagon sizeofPrefix n b = some b' ∧ m'.HasBlock b' := by
  have hle := hm.2.len_le
  obtain ⟨hpointers, -, rest, hblock, -⟩ := hm
  refine (load_ensures (hpointers ▸ hblock)).bind ?_
  rintro bytes rfl
  refine (headerLen_ensures hle).bind ?_
  rintro len rfl
  dsimp only
  split
  · rename_i hint
    refine (realloc_ensures hblock).mono ?_
    intro m' hm'
    refine ⟨_, if_pos hint, (Nat.le_add_left _ _).trans hint, ?_⟩
    have hsize : b.wagon.bytes.length ≤ b.wagon.len + sizeofMessageHeader + n := by
      rw [Wagon.length_bytes, Nat.add_assoc]
      exact Nat.le_add_right _ _
    rw [List.take_append, List.take_of_length_le hsize, List.append_assoc] at hm'
    refine ⟨_, hm', ?_⟩
    simp only [List.length_append, List.length_take, Place.bytes, List.length_map,
      List.length_range]
    omega
  · exact ensures_error nofun

/-- `mallocWiw` makes room behind the wagon, in the memory that it has or reallocates. It follows
`p_wagon` only where it reallocates. -/
theorem mallocWiw_ensures (hm : m.HasBlock b)
    (hpointers : n > c.wagonMaxLen → m.pWagon = m.pWomim) :
    Ensures (· = Stop.badRead) (m.mallocWiw sizeofPrefix c n a) fun r =>
      ∃ b', (if n > c.wagonMaxLen then Trains.reallocWagon sizeofPrefix n b else some b) = some b' ∧
        r.1 = b'.wagon.len ∧ r.2.Opened n b' := by
  have hroom : Ensures (· = Stop.badRead)
      (if n > c.wagonMaxLen then m.reallocWagon sizeofPrefix n a else .ok m) fun m' =>
      ∃ b', (if n > c.wagonMaxLen then Trains.reallocWagon sizeofPrefix n b else some b) = some b' ∧
        m'.HasBlock b' := by
    split
    · rename_i hlong
      exact reallocWagon_ensures ⟨hpointers hlong, hm⟩
    · exact ensures_ok ⟨b, rfl, hm⟩
  refine hroom.bind ?_
  rintro m' ⟨b', hb', hm'⟩
  have hle := hm'.len_le
  obtain ⟨hfits, rest, hblock, hlength⟩ := hm'
  refine (load_ensures hblock).bind ?_
  rintro bytes rfl
  refine (headerLen_ensures hle).bind ?_
  rintro mp rfl
  refine (@write_ensures _ { m' with pWagon := m'.pWomim } _ _ _ rfl hblock
    b'.wagon.length_bytes.symm).bind ?_
  rintro m₁ ⟨hpointers₁, hblock₁, hwritten⟩
  rw [wagon_bytes_eq, List.append_assoc] at hblock₁
  refine (@write_ensures 0 m₁ [] (intBytes _ ++ _) _ hpointers₁ hblock₁ rfl).bind ?_
  rintro m₂ ⟨hpointers₂, hblock₂, -⟩
  rw [List.nil_append, length_intBytes, List.drop_left' (length_intBytes _)] at hblock₂
  refine ensures_ok ⟨b', hb', rfl, hpointers₂, hfits, rest.drop 4, ?_, ?_⟩
  · rw [hblock₂, openedBytes, length_intBytes, List.append_assoc, List.append_assoc]
  · rw [length_intBytes] at hwritten
    rw [List.length_append, Wagon.length_bytes] at hlength
    rw [List.length_append, length_openedBytes, List.length_drop]
    omega

theorem write_typ_ensures {typ : Byte} (hm : m.Opened n b) :
    Ensures (· = Stop.badRead) (m.write (b.wagon.len + 4) [typ]) fun m' =>
      m'.pWagon = m'.pWomim ∧ ∃ rest, m'.blocks m'.pWomim =
        some (openedBytes b.wagon n ++ ([typ] ++ rest)) ∧
      (openedBytes b.wagon n ++ ([typ] ++ rest)).length = b.allocated := by
  obtain ⟨hpointers, hfits, rest, hblock, hlength⟩ := hm
  refine (write_ensures hpointers hblock (length_openedBytes _ _).symm).mono ?_
  rintro m' ⟨hpointers', hblock', hle⟩
  refine ⟨hpointers', _, hblock', ?_⟩
  simp only [List.length_append, List.length_drop, List.length_singleton] at hlength hle ⊢
  omega

theorem fill_ensures {mess : Message} (hm : m.Opened mess.payload.length b) :
    Ensures (· = Stop.badRead) (m.fill b.wagon.len mess) fun m' =>
      m'.Lays { b with wagon := Trains.mallocWiw mess b.wagon } := by
  refine (write_typ_ensures hm).bind ?_
  rintro m' ⟨hpointers', rest, hblock', hlength⟩
  rw [← List.append_assoc] at hblock'
  have hposition : b.wagon.len + sizeofMessageHeader =
      (openedBytes b.wagon mess.payload.length ++ [mess.typ]).length := by
    rw [List.length_append, length_openedBytes]
    rfl
  refine (write_ensures hpointers' hblock' hposition).mono ?_
  rintro m'' ⟨hpointers'', hblock'', hle⟩
  rw [← List.append_assoc, List.append_assoc _ [mess.typ], openedBytes_fill] at hblock''
  refine ⟨hpointers'', hm.2.1, _, hblock'', ?_⟩
  have hbytes := congrArg List.length (openedBytes_fill b.wagon mess)
  simp only [List.length_append, List.length_drop] at hlength hle hbytes ⊢
  omega

/-- The length that is read through `p_wagon` is that of the wagon. -/
theorem len_ensures (hm : m.Lays b) : Ensures (· = Stop.badRead)
    (m.load m.pWagon >>= headerLen) (· = b.wagon.len) := by
  have hle := hm.2.len_le
  obtain ⟨hpointers, -, rest, hblock, -⟩ := hm
  refine (load_ensures (hpointers ▸ hblock)).bind ?_
  rintro bytes rfl
  exact headerLen_ensures hle

theorem newmsg_ensures (hm : m.Lays b) : Ensures (· = Stop.badRead)
    (m.newmsg sizeofPrefix c n a) fun r =>
      ∃ b', (if n > c.wagonMaxLen then Trains.reallocWagon sizeofPrefix n b else some b) = some b' ∧
        r.1 = b'.wagon.len ∧ r.2.Opened n b' := by
  rw [newmsg, ← bind_assoc]
  refine (len_ensures hm).bind ?_
  rintro len rfl
  split
  · exact ensures_error nofun
  · refine (mallocWiw_ensures hm.2 fun _ => hm.1).bind ?_
    rintro ⟨mp, m'⟩ ⟨b', hb', rfl, hm'⟩
    refine (write_typ_ensures hm').bind ?_
    rintro m'' ⟨hpointers, rest, hblock, hlength⟩
    exact ensures_ok ⟨b', hb', rfl, hpointers, hm'.2.1, _, hblock, hlength⟩

theorem place_newmsg_ensures {mess : Message} (hm : m.Lays b) : Ensures (· = Stop.badRead)
    (m.place sizeofPrefix c (.newmsg mess a)) fun m' =>
      ∃ b', mallocInBuffer sizeofPrefix c mess b = some b' ∧ m'.Lays b' := by
  refine (newmsg_ensures hm).bind ?_
  rintro ⟨mp, m'⟩ ⟨b', hb', rfl, hm'⟩
  refine (fill_ensures hm').mono ?_
  intro m'' hm''
  exact ⟨_, congrArg (Option.map _) hb', hm''⟩

/-- A wagon that has room for its own header has room for four bytes: after its own reallocation
`signalArrivalDepartures` leaves `mallocWiw` none to make. -/
theorem signalArrivalDepartures_ensures {typ : Byte} {ad circuit : Address} {a' : Place}
    (hc : sizeofWagonHeader ≤ c.wagonMaxLen) (hm : m.Lays b) : Ensures (· = Stop.badRead)
    (m.signalArrivalDepartures sizeofPrefix c typ ad circuit a a') fun m' =>
      ∃ b', signalInBuffer sizeofPrefix c typ ad circuit b = some b' ∧ m'.Lays b' := by
  have hshort : ¬ sizeofPayloadArrivalDeparture > c.wagonMaxLen := by
    rw [sizeofWagonHeader] at hc
    rw [sizeofPayloadArrivalDeparture]
    omega
  rw [signalArrivalDepartures, ← bind_assoc]
  refine (len_ensures hm).bind ?_
  rintro len rfl
  have hroom : Ensures (· = Stop.badRead)
      (if (c.wagonMaxLen : ℤ) - b.wagon.len < sizeofPayloadArrivalDeparture then
        m.reallocWagon sizeofPrefix sizeofPayloadArrivalDeparture a else .ok m) fun m' =>
      ∃ b', (if (c.wagonMaxLen : ℤ) - b.wagon.len < sizeofPayloadArrivalDeparture then
        Trains.reallocWagon sizeofPrefix sizeofPayloadArrivalDeparture b else some b) = some b' ∧
        m'.HasBlock b' := by
    split
    · exact reallocWagon_ensures hm
    · exact ensures_ok ⟨b, rfl, hm.2⟩
  refine hroom.bind ?_
  rintro m₁ ⟨b₁, hb₁, hm₁⟩
  refine (mallocWiw_ensures hm₁ fun hlong => absurd hlong hshort).bind ?_
  rintro ⟨mp, m₂⟩ ⟨b₂, hb₂, rfl, hm₂⟩
  have hopened : m₂.Opened (addressBytes ad ++ addressBytes circuit).length b₂ := hm₂
  refine (@fill_ensures m₂ b₂ ⟨typ, addressBytes ad ++ addressBytes circuit⟩ hopened).mono ?_
  intro m' hm'
  refine ⟨_, ?_, hm'⟩
  rw [signalInBuffer, hb₁, Option.bind_some]
  exact congrArg (Option.map _) hb₂

theorem newWiw_ensures (hmax : c.wagonMaxLen ≤ intMax) : Ensures (· = Stop.badRead) (newWiw c a)
    fun m => sizeofWagonHeader ≤ c.wagonMaxLen ∧ m.Lays (newWagonBuffer c) := by
  rw [newWiw]
  cases a.address with
  | none => exact ensures_error nofun
  | some p =>
    have hlength : (a.bytes c.wagonMaxLen).length = c.wagonMaxLen := by
      rw [Place.bytes, List.length_map, List.length_range]
    have hblock : Function.update (fun _ => none) p (some (a.bytes c.wagonMaxLen)) p =
        some ([] ++ a.bytes c.wagonMaxLen) := by
      rw [Function.update_self, List.nil_append]
    dsimp only
    refine (@write_ensures 0 ⟨_, p, p⟩ [] (a.bytes c.wagonMaxLen) _ rfl hblock rfl).bind ?_
    rintro m₁ ⟨hpointers₁, hblock₁, hle₁⟩
    rw [List.nil_append] at hblock₁
    refine (write_ensures hpointers₁ hblock₁ (length_intBytes _).symm).bind ?_
    rintro m₂ ⟨hpointers₂, hblock₂, hle₂⟩
    rw [← List.append_assoc] at hblock₂
    refine (write_ensures hpointers₂ hblock₂ rfl).mono ?_
    rintro m₃ ⟨hpointers₃, hblock₃, hle₃⟩
    have hlen : (newWagonBuffer c).wagon.bytes.length = sizeofWagonHeader := by
      rw [Wagon.length_bytes]
      rfl
    simp only [List.length_drop, length_intBytes, length_addressBytes, List.length_singleton,
      hlength] at hle₁ hle₂ hle₃
    have hroom : sizeofWagonHeader ≤ c.wagonMaxLen := by
      rw [sizeofWagonHeader]
      omega
    refine ⟨hroom, hpointers₃, hmax, _, hblock₃, ?_⟩
    simp only [List.length_append, List.length_drop, length_intBytes, length_addressBytes,
      List.length_singleton, hlength, hlen]
    rw [sizeofWagonHeader] at hroom ⊢
    exact Nat.add_sub_cancel' hroom

theorem placed_ensures (hmax : c.wagonMaxLen ≤ intMax) (ps : List Placement) :
    Ensures (· = Stop.badRead) (placed sizeofPrefix c a ps) fun m =>
      ∃ b, b.wagon.msgs = ps.map Placement.message ∧ m.Lays b := by
  refine (newWiw_ensures hmax).bind ?_
  rintro m₀ ⟨hroom, hm₀⟩
  refine Ensures.foldlM (I := fun ps (m : Memory) => ∃ b : WagonBuffer,
    b.wagon.msgs = ps.map Placement.message ∧ m.Lays b) ?_ ⟨_, rfl, hm₀⟩ ps
  rintro ps p m ⟨b, hmsgs, hm⟩
  rw [List.map_append, ← hmsgs]
  cases p with
  | newmsg mess a =>
    refine (place_newmsg_ensures hm).mono ?_
    rintro m' ⟨b', hb', hm'⟩
    exact ⟨b', by rw [(mallocInBuffer_spec hb').1]; rfl, hm'⟩
  | signal typ ad circuit a a' =>
    refine (signalArrivalDepartures_ensures hroom hm).mono ?_
    rintro m' ⟨b', hb', hm'⟩
    exact ⟨b', by rw [signalInBuffer_wagon hb']; rfl, hm'⟩

end Layout

/-! ## The round trip -/

section RoundTrip

variable {sizeofPrefix : ℕ} {c : Config} {m : Memory} {b : WagonBuffer}

/-- The header of a wagon, with any round. -/
def headerOf (w : Wagon) (round : Byte) : List Byte :=
  intBytes w.len ++ (addressBytes w.sender ++ [round])

theorem wagon_bytes_header (w : Wagon) :
    w.bytes = headerOf w (BitVec.ofNat 8 w.round) ++ w.msgs.flatMap Message.bytes := by
  simp [Wagon.bytes, headerOf]

theorem readInt_headerOf {w : Wagon} (h : w.len ≤ intMax) (round : Byte) :
    readInt (headerOf w round) = some (w.len : ℤ) := by
  have hlt : w.len < 2 ^ 31 := by
    rw [intMax] at h
    omega
  rw [headerOf, intBytes, readInt_toBytes, toInt_ofNat hlt]

theorem length_headerOf (w : Wagon) (round : Byte) :
    (headerOf w round ++ w.msgs.flatMap Message.bytes).length = w.len := by
  rw [List.length_append, length_msgsBytes]
  rfl

theorem set_round (w : Wagon) (round : Byte) (rest : List Byte) :
    ((w.bytes ++ rest).set 6 round).take w.len =
      headerOf w round ++ w.msgs.flatMap Message.bytes := by
  have hset : (w.bytes ++ rest).set 6 round =
      (headerOf w round ++ w.msgs.flatMap Message.bytes) ++ rest := by
    rw [wagon_bytes_header]
    rfl
  rw [hset, List.take_left' (length_headerOf w round)]

/-- The frame of a train, whose wagons are `w` and others that tell their lengths. -/
structure Carries (frame : List Byte) (before : List (List Byte)) (w : List Byte)
    (after : List (List Byte)) : Prop where
  isFrame : IsFrame frame
  isTrain : frame[4]? = some mtypeTrain
  body : frame.drop sizeofTrainHeader = before.flatten ++ (w ++ after.flatten)
  others : ∀ b ∈ before ++ after, TellsLength b

/-- The messages are read back in memory, and from any train that carries the wagon, whatever its
round, among others. -/
structure GivesBack (m : Memory) (msgs : List Message) : Prop where
  inMemory : ∃ bytes, m.blocks m.pWagon = some bytes ∧ ReadsBack bytes 0 msgs
  inTrain : ∀ bytes, m.blocks m.pWagon = some bytes → ∀ len : ℕ, readInt bytes = some (len : ℤ) →
    ∀ round frame before after, Carries frame before ((bytes.set 6 round).take len) after →
      ∃ ws w, wagons frame = some ws ∧ ws[before.length]? = some w ∧ ReadsBack frame w msgs

/-- A wagon that has left is found in the train and read there. -/
theorem readsBack_of_carries {w : Wagon} (hle : w.len ≤ intMax) {round : Byte} {frame : List Byte}
    {before after : List (List Byte)}
    (h : Carries frame before (headerOf w round ++ w.msgs.flatMap Message.bytes) after) :
    ∃ ws x, wagons frame = some ws ∧ ws[before.length]? = some x ∧ ReadsBack frame x w.msgs := by
  have hread := readInt_headerOf hle round
  have htells : TellsLength (headerOf w round ++ w.msgs.flatMap Message.bytes) := by
    rw [TellsLength, length_headerOf, readInt_append (by exact Nat.le_add_right 4 3), hread]
    exact ⟨Nat.le_add_right _ _, rfl⟩
  have hlens : ∀ b ∈ before ++ (headerOf w round ++ w.msgs.flatMap Message.bytes) :: after,
      TellsLength b := by
    obtain ⟨hbefore, hafter⟩ := List.forall_mem_append.mp h.others
    exact List.forall_mem_append.mpr ⟨hbefore, List.forall_mem_cons.mpr ⟨htells, hafter⟩⟩
  obtain ⟨ws, hws, hw⟩ := wagons_of_drop h.isFrame h.isTrain h.body hlens
  have hdrop : frame.drop (sizeofTrainHeader + before.flatten.length) =
      headerOf w round ++ (w.msgs.flatMap Message.bytes ++ after.flatten) := by
    rw [drop_before h.body rfl, List.append_assoc]
  exact ⟨ws, _, hws, hw, readsBack_of_drop rfl hread hdrop⟩

theorem Lays.givesBack (hm : m.Lays b) : m.GivesBack b.wagon.msgs := by
  have hle := hm.2.len_le
  obtain ⟨hpointers, -, rest, hblock, -⟩ := hm
  rw [← hpointers] at hblock
  constructor
  · have hdrop : (b.wagon.bytes ++ rest).drop 0 = headerOf b.wagon (BitVec.ofNat 8 b.wagon.round) ++
        (b.wagon.msgs.flatMap Message.bytes ++ rest) := by
      rw [List.drop_zero, wagon_bytes_header, List.append_assoc]
    exact ⟨_, hblock, readsBack_of_drop rfl (readInt_headerOf hle _) hdrop⟩
  · intro bytes hbytes len hlen round frame before after hcarries
    obtain rfl := Option.some.inj (hblock.symm.trans hbytes)
    obtain rfl : b.wagon.len = len := by
      rw [wagon_bytes_header, List.append_assoc, readInt_append (by exact Nat.le_add_right 4 3),
        readInt_headerOf hle] at hlen
      exact_mod_cast Option.some.inj hlen
    rw [set_round] at hcarries
    exact readsBack_of_carries hle hcarries

/-- Placing messages in a new wagon never reads freed memory, and as long as every write is inside
the allocated bytes the messages are given back. -/
theorem wagon_layout (hmax : c.wagonMaxLen ≤ intMax) (a : Place) (ps : List Placement) :
    placed sizeofPrefix c a ps ≠ .error .badRead ∧
      ∀ m, placed sizeofPrefix c a ps = .ok m → m.GivesBack (ps.map Placement.message) := by
  have hplaced := @placed_ensures sizeofPrefix c a hmax ps
  constructor
  · intro hbad
    exact hplaced.not_bad hbad rfl
  · intro m hm
    obtain ⟨b, hmsgs, hlays⟩ := hplaced.of_eq_ok hm
    rw [← hmsgs]
    exact hlays.givesBack

/-- In 24 bytes: an empty message, a signal, and one for which the memory moves. -/
def threePlacements : List Placement :=
  [.newmsg ⟨amBroadcast, []⟩ ⟨none, fun _ => 1#8⟩,
    .signal amArrival 2#16 3#16 ⟨none, fun _ => 1#8⟩ ⟨none, fun _ => 1#8⟩,
    .signal amDeparture 2#16 1#16 ⟨some 5, fun _ => 2#8⟩ ⟨none, fun _ => 1#8⟩]

theorem wagon_layout_three : ∃ m,
    placed 48 ⟨1#16, 3, 24⟩ ⟨some 0, fun _ => 9#8⟩ threePlacements = .ok m ∧
    m.GivesBack (threePlacements.map Placement.message) := by
  have hrun : (placed 48 ⟨1#16, 3, 24⟩ ⟨some 0, fun _ => 9#8⟩ threePlacements).isOk = true := by
    decide +kernel
  cases hm : placed 48 ⟨1#16, 3, 24⟩ ⟨some 0, fun _ => 9#8⟩ threePlacements with
  | ok m => exact ⟨m, rfl, (wagon_layout (by decide) _ _).2 m hm⟩
  | error e =>
    rw [hm] at hrun
    cases hrun

end RoundTrip

end Memory

end UniformBroadcast.Trains.Framing
