import UniformBroadcast.TrainConnections
import UniformBroadcast.TrainFrame

/-!
# The frames on a connection

Translation of `newMsg` in `msg.c`, of `sendOther` and `receive` in `iomsg.c` and of
`commRead` and `commReadFully` in `comm.c`. A connection is what is left of its stream of
bytes; the calls of `read` that are interrupted, or return less than they could, are given by
a list of attempts. The connection is not aborted.
-/

namespace UniformBroadcast.Trains.Framing

open LittleEndian

/-! ## Sending -/

def mtypeDefault : Byte := 0#8
def mtypeInsert : Byte := 2#8
def mtypeAckInsert : Byte := 3#8
def mtypeNakInsert : Byte := 4#8
def mtypeDisconnectPred : Byte := 5#8
def mtypeDisconnectSucc : Byte := 6#8
def mtypeNewSucc : Byte := 7#8

/-- The struct `Msg`: its length, its type and the bytes of its union. -/
structure RawMsg where
  len : ℕ
  type : Byte
  body : List Byte
  deriving DecidableEq, Repr

/-- `sizeof(msg.body)`: the union is aligned as the `int` in it. -/
def sizeofBody : ℕ := 8

/-- `sizeof(Msg)`. -/
def sizeofMsg : ℕ := 4 + 1 + sizeofBody

/-- Write a member of the union. -/
def RawMsg.setBody (bytes : List Byte) (msg : RawMsg) : RawMsg :=
  { msg with body := bytes ++ msg.body.drop bytes.length }

/-- What `junk` holds is not initialised. -/
def initMsg (junk : Fin sizeofBody → Byte) : RawMsg :=
  { len := sizeofMsg, type := mtypeDefault, body := List.ofFn junk : RawMsg }.setBody (intBytes 0)

def newMsg (junk : Fin sizeofBody → Byte) (mtype : Byte) (addrID : Address) : RawMsg :=
  let msg := initMsg junk
  if mtype = mtypeDefault then msg
  else if mtype = mtypeTrain then msg.setBody (intBytes 1)
  else if mtype ∈ [mtypeInsert, mtypeAckInsert, mtypeNakInsert, mtypeNewSucc, mtypeDisconnectPred,
      mtypeDisconnectSucc] then
    { msg.setBody (addressBytes addrID) with type := mtype, len := 4 + 1 + 2 }
  else msg.setBody (intBytes (2 ^ 32 - 1))

/-- The first `len` bytes of the struct. -/
def RawMsg.bytes (msg : RawMsg) : List Byte :=
  (intBytes msg.len ++ msg.type :: msg.body).take msg.len

/-- What `sendOther` gives to `commWritev`; it does not send trains. -/
def sendOther (junk : Fin sizeofBody → Byte) (type : Byte) (sender : Address) :
    Option (List Byte) :=
  if type = mtypeTrain then none else some (newMsg junk type sender).bytes

variable {ntr : ℕ}

/-- `lts.lng` when `sendTrain` writes it. -/
def trainLng (lts : Lts ntr) : ℕ := sizeofTrainHeader + lts.len + wagonsLen (ownSent lts.pWtosend)

/-- A call of `sendOther` or `sendTrain` whose `writev` writes every byte: there are as many as
`lts.lng` says, and the result fits an `int`. -/
inductive Sent (ntr : ℕ) where
  | other (junk : Fin sizeofBody → Byte) (type : Byte) (sender : Address) (bytes : List Byte)
      (sent : sendOther junk type sender = some bytes)
  | train (lts : Lts ntr) (whole : (sendTrain lts).length = trainLng lts)
      (fits : trainLng lts < 2 ^ 31)

/-- The bytes on the connection. -/
def Sent.bytes : Sent ntr → List Byte
  | .other _ _ _ bytes _ => bytes
  | .train lts _ _ => sendTrain lts

/-! ## Receiving -/

/-- A call of `read` is interrupted, or returns at most so many bytes and one. -/
inductive Attempt where
  | interrupted
  | upTo (n : ℕ)
  deriving DecidableEq, Repr

/-- What is left of a stream; once there are no more attempts listed, `read` returns all that
it is asked for. -/
structure Source where
  stream : List Byte
  attempts : List Attempt
  deriving DecidableEq, Repr

/-- `commRead`: what is read, nothing at the end of the stream. -/
def commRead (count : ℕ) (stream : List Byte) : List Attempt → List Byte × Source
  | [] => (stream.take count, ⟨stream.drop count, []⟩)
  | .interrupted :: attempts => commRead count stream attempts
  | .upTo n :: attempts =>
    (stream.take (min count (n + 1)), ⟨stream.drop (min count (n + 1)), attempts⟩)

/-- The loop of `commReadFully`. Every pass but the last one reads a byte. -/
def readLoop : ℕ → ℕ → Source → List Byte × Source
  | 0, _, s => ([], s)
  | fuel + 1, count, s =>
    let (buf, s) := commRead count s.stream s.attempts
    if buf ≠ [] ∧ buf.length < count then
      let (rest, s) := readLoop fuel (count - buf.length) s
      (buf ++ rest, s)
    else (buf, s)

def commReadFully (count : ℕ) (s : Source) : List Byte × Source := readLoop (count + 1) count s

/-- What `receive` returns: the message read, the `DISCONNECT` it makes, or `NULL`. -/
inductive Received where
  | msg (bytes : List Byte)
  | disconnect (isPred : Bool) (sender : Address)
  | null
  deriving DecidableEq, Repr

/-- The end of `receive` when the connection has been closed. -/
def closing (tcomm : ℕ) (array : AddrArray) : Received :=
  match searchTComm tcomm array with
  | none => .null
  | some (j, isPred) => .disconnect isPred (rankToAddr j)

/-- `receive`. A length that does not count itself makes it read beyond its buffer. -/
def receive (tcomm : ℕ) (array : AddrArray) (s : Source) : Option (Received × Source) :=
  let (head, s) := commReadFully 4 s
  if head.length = 4 then
    (readInt head).bind fun length =>
      if length < 4 then none
      else
        let (rest, s) := commReadFully (length - 4).toNat s
        if rest.length = length - 4 then some (.msg (intBytes length.toNat ++ rest), s)
        else some (closing tcomm array, s)
  else some (closing tcomm array, s)

/-- Successive calls of `receive`, each with what stands in `globalAddrArray` at that time. -/
def receives (tcomm : ℕ) : List AddrArray → Source → Option (List Received)
  | [], _ => some []
  | array :: arrays, s =>
    (receive tcomm array s).bind fun r => (receives tcomm arrays r.2).map (r.1 :: ·)

/-! ## Reading fully -/

/-- What is read comes first in the stream; nothing is read only at its end. -/
theorem commRead_spec (count : ℕ) (stream : List Byte) (attempts : List Attempt) :
    ∃ buf rest attempts', commRead count stream attempts = (buf, ⟨rest, attempts'⟩) ∧
      stream = buf ++ rest ∧ buf.length ≤ count ∧ (buf = [] → count = 0 ∨ rest = []) := by
  have hcut : ∀ k, k ≤ count → (0 < count → 0 < k) → stream = stream.take k ++ stream.drop k ∧
      (stream.take k).length ≤ count ∧ (stream.take k = [] → count = 0 ∨ stream.drop k = []) := by
    intro k hk hpos
    refine ⟨(List.take_append_drop k stream).symm, (List.length_take_le k stream).trans hk, ?_⟩
    intro hnil
    rcases List.take_eq_nil_iff.mp hnil with rfl | rfl
    · left
      by_contra hne
      exact absurd (hpos (Nat.pos_of_ne_zero hne)) (Nat.lt_irrefl 0)
    · exact .inr List.drop_nil
  induction attempts with
  | nil => exact ⟨_, _, _, rfl, hcut count (Nat.le_refl _) id⟩
  | cons attempt attempts ih =>
    cases attempt with
    | interrupted => exact ih
    | upTo n =>
      refine ⟨_, _, _, rfl, hcut _ (Nat.min_le_left _ _) ?_⟩
      intro hpos
      exact Nat.lt_min.mpr ⟨hpos, Nat.succ_pos n⟩

theorem readLoop_spec {fuel count : ℕ} (hfuel : count < fuel) (s : Source) :
    ∃ attempts, readLoop fuel count s = (s.stream.take count, ⟨s.stream.drop count, attempts⟩) := by
  induction fuel generalizing count s with
  | zero => cases hfuel
  | succ fuel ih =>
    obtain ⟨buf, rest, attempts, hread, hstream, hle, hend⟩ :=
      commRead_spec count s.stream s.attempts
    rw [readLoop, hread, hstream]
    dsimp only
    split
    · rename_i hgo
      obtain ⟨hne, hlt⟩ := hgo
      have hpos := List.length_pos_iff.mpr hne
      have hless : count - buf.length < fuel := by omega
      obtain ⟨attempts', hloop⟩ := ih hless ⟨rest, attempts⟩
      refine ⟨attempts', ?_⟩
      rw [hloop, List.take_append, List.take_of_length_le hle, List.drop_append,
        List.drop_eq_nil_of_le hle, List.nil_append]
    · rename_i hstop
      refine ⟨attempts, ?_⟩
      by_cases hnil : buf = []
      · rw [hnil, List.nil_append]
        rcases hend hnil with rfl | rfl
        · rw [List.take_zero, List.drop_zero]
        · rw [List.take_nil, List.drop_nil]
      · have hlen : buf.length = count := by
          by_contra hlen
          exact hstop ⟨hnil, by omega⟩
        rw [List.take_left' hlen, List.drop_left' hlen]

/-- However the stream is cut, `commReadFully` reads what it is asked for, or to the end. -/
theorem commReadFully_spec (count : ℕ) (s : Source) : ∃ attempts,
    commReadFully count s = (s.stream.take count, ⟨s.stream.drop count, attempts⟩) :=
  readLoop_spec (Nat.lt_succ_self count) s

/-! ## Receiving a frame -/

/-- A length that counts itself and what follows. -/
structure IsFrame (bytes : List Byte) : Prop where
  fits : bytes.length < 2 ^ 31
  lng : ∃ rest, bytes = intBytes (4 + rest.length) ++ rest

theorem readInt_intBytes {n : ℕ} (h : n < 2 ^ 31) : readInt (intBytes n) = some (n : ℤ) := by
  have hread := readInt_toBytes n []
  rwa [List.append_nil, toInt_ofNat h] at hread

/-- A whole frame is returned byte for byte, whatever follows it. -/
theorem receive_frame {frame : List Byte} (hframe : IsFrame frame) (tcomm : ℕ) (array : AddrArray)
    (more : List Byte) (attempts : List Attempt) : ∃ attempts',
      receive tcomm array ⟨frame ++ more, attempts⟩ = some (.msg frame, ⟨more, attempts'⟩) := by
  obtain ⟨hfits, rest, hrest⟩ := hframe
  have hlength : frame.length = 4 + rest.length := by
    rw [hrest, List.length_append, length_intBytes]
  obtain ⟨attempts₁, hhead⟩ := commReadFully_spec 4 ⟨frame ++ more, attempts⟩
  obtain ⟨attempts₂, hbody⟩ := commReadFully_spec rest.length ⟨rest ++ more, attempts₁⟩
  have htake : (frame ++ more).take 4 = intBytes (4 + rest.length) := by
    rw [hrest, List.append_assoc]
    exact List.take_left' (length_intBytes _)
  have hdrop : (frame ++ more).drop 4 = rest ++ more := by
    rw [hrest, List.append_assoc]
    exact List.drop_left' (length_intBytes _)
  have hcount : ((4 + rest.length : ℕ) - 4 : ℤ).toNat = rest.length := by omega
  rw [List.take_left, List.drop_left] at hbody
  refine ⟨attempts₂, ?_⟩
  rw [receive, hhead]
  simp only [htake, hdrop, length_intBytes, if_true, readInt_intBytes (hlength ▸ hfits),
    Option.bind_some, hcount, hbody]
  rw [if_neg (by omega), if_pos (by omega), Int.toNat_natCast, ← hrest]

/-- A frame that the end of the stream cuts is not returned. -/
theorem receive_truncated {frame tail lost : List Byte} (hframe : IsFrame frame)
    (hcut : tail ++ lost = frame) (hlost : lost ≠ []) (tcomm : ℕ) (array : AddrArray)
    (attempts : List Attempt) : ∃ attempts',
      receive tcomm array ⟨tail, attempts⟩ = some (closing tcomm array, ⟨[], attempts'⟩) := by
  obtain ⟨hfits, rest, hrest⟩ := hframe
  obtain ⟨attempts₁, hhead⟩ := commReadFully_spec 4 ⟨tail, attempts⟩
  rcases Nat.lt_or_ge tail.length 4 with hshort | hlong
  · have hdrop : tail.drop 4 = [] := List.drop_eq_nil_of_le hshort.le
    refine ⟨attempts₁, ?_⟩
    rw [receive, hhead]
    dsimp only
    rw [hdrop, if_neg]
    rw [List.length_take]
    omega
  · obtain ⟨tail', htail⟩ : ∃ tail', tail = intBytes (4 + rest.length) ++ tail' := by
      have hhead' : intBytes (4 + rest.length) <+: tail := by
        have hlng : intBytes (4 + rest.length) <+: frame := ⟨rest, hrest.symm⟩
        have hbefore : tail <+: frame := ⟨lost, hcut⟩
        apply List.prefix_of_prefix_length_le hlng hbefore
        rwa [length_intBytes]
      obtain ⟨tail', htail'⟩ := hhead'
      exact ⟨tail', htail'.symm⟩
    have hrest' : tail' ++ lost = rest := by
      rw [htail, hrest, List.append_assoc] at hcut
      exact List.append_cancel_left hcut
    have hpos := List.length_pos_iff.mpr hlost
    have hlength : rest.length = tail'.length + lost.length := by
      rw [← hrest', List.length_append]
    have hlng : 4 + rest.length < 2 ^ 31 := by
      have hall : frame.length = 4 + rest.length := by
        rw [hrest, List.length_append, length_intBytes]
      omega
    obtain ⟨attempts₂, hbody⟩ := commReadFully_spec rest.length ⟨tail', attempts₁⟩
    have htake : tail.take 4 = intBytes (4 + rest.length) := by
      rw [htail]
      exact List.take_left' (length_intBytes _)
    have hdrop : tail.drop 4 = tail' := by
      rw [htail]
      exact List.drop_left' (length_intBytes _)
    have hcount : ((4 + rest.length : ℕ) - 4 : ℤ).toNat = rest.length := by omega
    have hle : tail'.length ≤ rest.length := by omega
    rw [List.take_of_length_le hle, List.drop_eq_nil_of_le hle] at hbody
    refine ⟨attempts₂, ?_⟩
    rw [receive, hhead]
    simp only [htake, hdrop, length_intBytes, if_true, readInt_intBytes hlng, Option.bind_some,
      hcount, hbody]
    rw [if_neg (by omega), if_neg (by omega)]

/-- At the end of the stream there is nothing to return. -/
theorem receive_nil (tcomm : ℕ) (array : AddrArray) (attempts : List Attempt) : ∃ attempts',
    receive tcomm array ⟨[], attempts⟩ = some (closing tcomm array, ⟨[], attempts'⟩) := by
  obtain ⟨attempts', hhead⟩ := commReadFully_spec 4 ⟨[], attempts⟩
  refine ⟨attempts', ?_⟩
  rw [receive, hhead]
  rfl

/-- After the end of the stream `receive` only finds the connection closed. -/
theorem receives_closed {tcomm : ℕ} {tail : List Byte}
    (htail : tail = [] ∨ ∃ lost frame, IsFrame frame ∧ tail ++ lost = frame ∧ lost ≠ [])
    (arrays : List AddrArray) (attempts : List Attempt) :
    receives tcomm arrays ⟨tail, attempts⟩ = some (arrays.map (closing tcomm)) := by
  induction arrays generalizing tail attempts with
  | nil => rfl
  | cons array arrays ih =>
    have hclosed : ∃ attempts', receive tcomm array ⟨tail, attempts⟩ =
        some (closing tcomm array, ⟨[], attempts'⟩) := by
      rcases htail with rfl | ⟨lost, frame, hframe, hcut, hlost⟩
      · exact receive_nil tcomm array attempts
      · exact receive_truncated hframe hcut hlost tcomm array attempts
    obtain ⟨attempts', hreceive⟩ := hclosed
    rw [receives, hreceive, Option.bind_some, ih (.inl rfl), Option.map_some, List.map_cons]

/-- Frames, and what the end of the stream has left of one more, are received as these frames;
what is left of the last one is not. -/
theorem receives_frames (tcomm : ℕ) {frames : List (List Byte)} {tail : List Byte}
    (hframes : ∀ frame ∈ frames, IsFrame frame)
    (htail : tail = [] ∨ ∃ lost frame, IsFrame frame ∧ tail ++ lost = frame ∧ lost ≠ [])
    (arrays : List AddrArray) (attempts : List Attempt) :
    receives tcomm arrays ⟨frames.flatten ++ tail, attempts⟩ =
      some ((frames.take arrays.length).map .msg ++
        (arrays.drop frames.length).map (closing tcomm)) := by
  induction frames generalizing arrays attempts with
  | nil => simpa using receives_closed htail arrays attempts
  | cons frame frames ih =>
    cases arrays with
    | nil => rfl
    | cons array arrays =>
      obtain ⟨attempts', hreceive⟩ := receive_frame (hframes frame List.mem_cons_self) tcomm array
        (frames.flatten ++ tail) attempts
      have hrest := ih (fun f hf => hframes f (List.mem_cons_of_mem _ hf)) arrays attempts'
      rw [receives, List.flatten_cons, List.append_assoc, hreceive, Option.bind_some, hrest]
      rfl

/-! ## What is sent are frames -/

theorem newMsg_len (junk : Fin sizeofBody → Byte) (mtype : Byte) (addrID : Address) :
    4 < (newMsg junk mtype addrID).len ∧ (newMsg junk mtype addrID).len ≤ sizeofMsg ∧
      (newMsg junk mtype addrID).body.length = sizeofBody := by
  have hlen : (initMsg junk).len = sizeofMsg := rfl
  have hbody : (initMsg junk).body.length = sizeofBody := by
    rw [initMsg, RawMsg.setBody, List.length_append, List.length_drop, List.length_ofFn]
    rfl
  have hset : ∀ (bytes : List Byte) (msg : RawMsg), bytes.length ≤ 4 →
      msg.body.length = sizeofBody → (msg.setBody bytes).body.length = sizeofBody := by
    intro bytes msg hle hmsg
    rw [RawMsg.setBody, List.length_append, List.length_drop, hmsg, sizeofBody]
    omega
  rw [newMsg]
  generalize initMsg junk = msg at hlen hbody
  dsimp only
  split_ifs
  · exact ⟨by rw [hlen]; decide, hlen.le, hbody⟩
  · refine ⟨?_, hlen.le, hset _ _ (by simp) hbody⟩
    exact lt_of_lt_of_eq (by decide) hlen.symm
  · have hlng : 4 < 4 + 1 + 2 ∧ 4 + 1 + 2 ≤ sizeofMsg := by decide
    exact ⟨hlng.1, hlng.2, hset _ _ (by simp) hbody⟩
  · refine ⟨?_, hlen.le, hset _ _ (by simp) hbody⟩
    exact lt_of_lt_of_eq (by decide) hlen.symm

theorem isFrame_newMsg (junk : Fin sizeofBody → Byte) (mtype : Byte) (addrID : Address) :
    IsFrame (newMsg junk mtype addrID).bytes := by
  obtain ⟨hpos, hle, hbody⟩ := newMsg_len junk mtype addrID
  rw [sizeofMsg, sizeofBody] at hle
  rw [sizeofBody] at hbody
  have hbytes : (newMsg junk mtype addrID).bytes = intBytes (newMsg junk mtype addrID).len ++
      ((newMsg junk mtype addrID).type :: (newMsg junk mtype addrID).body).take
        ((newMsg junk mtype addrID).len - 4) := by
    rw [RawMsg.bytes, List.take_append, length_intBytes,
      List.take_of_length_le (by rw [length_intBytes]; omega)]
  have hrest : (((newMsg junk mtype addrID).type :: (newMsg junk mtype addrID).body).take
      ((newMsg junk mtype addrID).len - 4)).length = (newMsg junk mtype addrID).len - 4 := by
    rw [List.length_take, List.length_cons, hbody]
    omega
  constructor
  · rw [hbytes, List.length_append, length_intBytes, hrest]
    omega
  · have hlng := congrArg intBytes (Nat.add_sub_cancel' hpos.le)
    refine ⟨_, hbytes.trans (congrArg (· ++ _) ?_)⟩
    rw [hrest, hlng]

theorem isFrame_sent (f : Sent ntr) : IsFrame f.bytes := by
  cases f with
  | other junk type sender bytes sent =>
    rw [sendOther] at sent
    split at sent
    · cases sent
    · cases sent
      exact isFrame_newMsg junk type sender
  | train lts whole fits =>
    rw [← whole] at fits
    refine ⟨fits, ?_⟩
    obtain ⟨rest, hrest⟩ : ∃ rest, sendTrain lts = intBytes (trainLng lts) ++ rest := by
      rw [sendTrain, headerBytes, trainLng, List.append_assoc, List.append_assoc]
      exact ⟨_, rfl⟩
    refine ⟨rest, ?_⟩
    have hlength : trainLng lts = 4 + rest.length := by
      rw [← whole, hrest, List.length_append, length_intBytes]
    rw [← hlength]
    exact hrest

/-- Whatever is sent on a connection, and however `read` cuts it, the calls of `receive` return
the frames sent, in order, and find the connection closed only after the last of them. -/
theorem receive_returns_frames (tcomm : ℕ) (sent : List (Sent ntr)) (arrays : List AddrArray)
    (attempts : List Attempt) :
    receives tcomm arrays ⟨sent.flatMap Sent.bytes, attempts⟩ =
      some ((sent.take arrays.length).map (fun f => .msg f.bytes) ++
        (arrays.drop sent.length).map (closing tcomm)) := by
  have hframes : ∀ frame ∈ sent.map Sent.bytes, IsFrame frame := by
    intro frame hframe
    obtain ⟨f, -, rfl⟩ := List.mem_map.mp hframe
    exact isFrame_sent f
  have hall := receives_frames tcomm hframes (.inl rfl) arrays attempts
  rw [List.append_nil, ← List.flatMap_def, List.length_map, ← List.map_take, List.map_map] at hall
  exact hall

/-- An `INSERT` of process 3 read in four pieces, with a connection that is not registered. -/
example : receives 0 [fun _ => ⟨none, none⟩, fun _ => ⟨none, none⟩]
    ⟨(newMsg (fun _ => 0xff#8) mtypeInsert (rankToAddr 3)).bytes,
      [.upTo 1, .interrupted, .upTo 0, .upTo 7, .interrupted, .upTo 1]⟩ =
    some [.msg [7#8, 0#8, 0#8, 0#8, 2#8, 8#8, 0#8], .null] := by
  decide

end UniformBroadcast.Trains.Framing
