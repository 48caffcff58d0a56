import Mathlib.Algebra.Ring.Nat
import UniformBroadcast.LittleEndian
import UniformBroadcast.TcpRingProgram

/-!
# The packets of the TCP ring as bytes

The packed structs of `type.h` as `prepare_msg`, `prepare_ack`, `start_leader` and `stop_leader`
fill them, and what `process_msg` and the handlers read of them. What `send_msg` hands to `send` is
read back as long as its counters fit an `int`.
-/

namespace UniformBroadcast.TcpRing

open Sequencer LittleEndian

variable {N : ℕ}

/-- `offsetof(bcast, payload)`. -/
def offsetofPayload : ℕ := 23

/-- `ACK_SIZE`. -/
def ackSize : ℕ := 15

/-- `sizeof(ok)`. -/
def sizeofOk : ℕ := 5

/-- `sizeof(len)`. -/
def sizeofLen : ℕ := 4

/-- `total_size`, which is at least that of a `bcast` without payload, and what `get_mili_seconds`
gives to each broadcast of each process. -/
structure Frames (N : ℕ) where
  totalSize : ℕ
  startMiliSeconds : Fin N → ℕ → BitVec 64
  payload : offsetofPayload ≤ totalSize
  fits : totalSize < 2 ^ 31

/-- The members that `bcast` and `ack` have in common: `len`, `type`, `id_process`, `seq`, and
`ack` or `revNum`. -/
def commonBytes (len : ℕ) (type : Byte) (idProcess : Fin N) (seq number : ℕ) : List Byte :=
  toBytes 4 len ++ type :: (toBytes 2 idProcess ++ (toBytes 4 seq ++ toBytes 4 number))

def prepareMsg (f : Frames N) (m : Bcast N) : List Byte :=
  commonBytes f.totalSize 98#8 m.idProcess m.seq m.ack ++
    (toBytes 8 (f.startMiliSeconds m.idProcess m.seq).toNat ++
      List.replicate (f.totalSize - offsetofPayload) 0#8)

def prepareAck (k : Ack N) : List Byte := commonBytes ackSize 97#8 k.idProcess k.seq k.revNum

/-- The packet of `start_leader` and of `stop_leader`. -/
def okBytes (type : Byte) : List Byte := toBytes 4 sizeofOk ++ [type]

def Packet.bytes (f : Frames N) : Packet N → List Byte
  | .y => okBytes 121#8
  | .n => okBytes 110#8
  | .message (.b m) => prepareMsg f m
  | .message (.a k) => prepareAck k

/-- The length that `process_msg` has received; nothing good comes of one that does not count
itself. -/
def readLen (h : List Byte) : Option ℕ :=
  (readInt h).bind fun len => if sizeofLen ≤ len then some len.toNat else none

/-- An `int` counter of the packet; the counters of the model are not negative. -/
def readCounter (offset : ℕ) (m : List Byte) : Option ℕ :=
  (readInt (m.drop offset)).bind fun n => if 0 ≤ n then some n.toNat else none

/-- `id_process`, which is the index of an array, `seq`, and `ack` or `revNum`. -/
def readNumbers (m : List Byte) : Option (Fin N × ℕ × ℕ) :=
  if h : ofBytes ((m.drop 5).take 2) < N then do
    let seq ← readCounter 7 m
    let number ← readCounter 11 m
    return (⟨_, h⟩, seq, number)
  else none

/-- What the `switch` of `process_msg` treats; `some none` for an unexpected type, `none` when the
packet is too short for what is read of it. -/
def readPacket (m : List Byte) : Option (Option (Packet N)) :=
  m[sizeofLen]?.bind fun type =>
    if type = 121#8 then some (some .y)
    else if type = 98#8 then
      (readNumbers m).map fun r => some (.message (.b ⟨r.1, r.2.1, r.2.2⟩))
    else if type = 97#8 then
      (readNumbers m).map fun r => some (.message (.a ⟨r.1, r.2.1, r.2.2⟩))
    else if type = 110#8 then some (some .n)
    else some none

/-- The counters of a packet. -/
def Packet.numbers : Packet N → List ℕ
  | .y | .n => []
  | .message (.b m) => [m.seq, m.ack]
  | .message (.a k) => [k.seq, k.revNum]

/-- The counters fit an `int`. -/
def Small (l : List ℕ) : Prop := ∀ n ∈ l, n < 2 ^ 31

/-! ## Lengths -/

section Lengths

variable (f : Frames N) (len : ℕ) (type : Byte) (idProcess : Fin N) (seq number : ℕ)

theorem length_commonBytes : (commonBytes len type idProcess seq number).length = ackSize := by
  simp [commonBytes, ackSize]

theorem length_prepareMsg (m : Bcast N) : (prepareMsg f m).length = f.totalSize := by
  have hpayload := f.payload
  rw [prepareMsg, List.length_append, length_commonBytes, List.length_append, length_toBytes,
    List.length_replicate]
  simp only [ackSize, offsetofPayload] at hpayload ⊢
  omega

theorem length_okBytes : (okBytes type).length = sizeofOk := by
  simp [okBytes, sizeofOk]

theorem sizeofLen_le_bytes (p : Packet N) : sizeofLen ≤ (p.bytes f).length := by
  have hpayload := f.payload
  cases p with
  | y | n =>
    rw [Packet.bytes, length_okBytes]
    decide
  | message m =>
    cases m with
    | b m =>
      rw [Packet.bytes, length_prepareMsg]
      exact Nat.le_trans (by decide) hpayload
    | a k =>
      rw [Packet.bytes, prepareAck, length_commonBytes]
      decide

/-- Each packet begins with its length. -/
theorem bytes_take (p : Packet N) :
    (p.bytes f).take sizeofLen = toBytes 4 (p.bytes f).length := by
  cases p with
  | y | n =>
    rw [Packet.bytes, length_okBytes, okBytes]
    exact List.take_left' (length_toBytes 4 _)
  | message m =>
    cases m with
    | b m =>
      have hlength := length_prepareMsg f m
      rw [Packet.bytes, hlength, prepareMsg, commonBytes, List.append_assoc]
      exact List.take_left' (length_toBytes 4 _)
    | a k =>
      rw [Packet.bytes, prepareAck, length_commonBytes, commonBytes]
      exact List.take_left' (length_toBytes 4 _)

theorem length_bytes_lt (p : Packet N) : (p.bytes f).length < 2 ^ 31 := by
  cases p with
  | y | n =>
    rw [Packet.bytes, length_okBytes]
    decide
  | message m =>
    cases m with
    | b m =>
      rw [Packet.bytes, length_prepareMsg]
      exact f.fits
    | a k =>
      rw [Packet.bytes, prepareAck, length_commonBytes]
      decide

/-- `process_msg` reads the length of the packet. -/
theorem readLen_bytes (p : Packet N) :
    readLen ((p.bytes f).take sizeofLen) = some (p.bytes f).length := by
  have hle := sizeofLen_le_bytes f p
  have hread := (readInt_eq_iff (p.bytes f).length []).mpr (length_bytes_lt f p)
  rw [List.append_nil] at hread
  rw [readLen, bytes_take, hread, Option.bind_some, if_pos (by exact_mod_cast hle)]
  rfl

end Lengths

/-! ## Reading back -/

section Reading

variable {f : Frames N} (len : ℕ) (type : Byte) (idProcess : Fin N) {seq number : ℕ}
  (rest : List Byte)

theorem readCounter_of_drop {offset n : ℕ} {m rest : List Byte}
    (hdrop : m.drop offset = toBytes 4 n ++ rest) (hn : n < 2 ^ 31) :
    readCounter offset m = some n := by
  rw [readCounter, hdrop, (readInt_eq_iff n rest).mpr hn, Option.bind_some, if_pos (by omega)]
  rfl

theorem readNumbers_commonBytes (hN : N ≤ maxNodes) (hsmall : Small [seq, number]) :
    readNumbers (commonBytes len type idProcess seq number ++ rest) =
      some (idProcess, seq, number) := by
  have hlt : idProcess.val < 256 ^ 2 :=
    Nat.lt_of_lt_of_le idProcess.isLt (Nat.le_trans hN (by decide))
  have hdrop {k : ℕ} {m : List Byte} (front back : List Byte) (heq : m = front ++ back)
      (hlen : front.length = k) : m.drop k = back := heq ▸ List.drop_left' hlen
  have hid : (commonBytes len type idProcess seq number ++ rest).drop 5 =
      toBytes 2 idProcess ++ (toBytes 4 seq ++ (toBytes 4 number ++ rest)) :=
    hdrop (toBytes 4 len ++ [type]) _ (by simp [commonBytes]) (by simp)
  have hseq : (commonBytes len type idProcess seq number ++ rest).drop 7 =
      toBytes 4 seq ++ (toBytes 4 number ++ rest) :=
    hdrop (toBytes 4 len ++ type :: toBytes 2 idProcess) _ (by simp [commonBytes]) (by simp)
  have hnumber : (commonBytes len type idProcess seq number ++ rest).drop 11 =
      toBytes 4 number ++ rest :=
    hdrop (toBytes 4 len ++ type :: (toBytes 2 idProcess ++ toBytes 4 seq)) _
      (by simp [commonBytes]) (by simp)
  have hindex : ofBytes (((commonBytes len type idProcess seq number ++ rest).drop 5).take 2) =
      idProcess.val := by
    rw [hid, List.take_left' (length_toBytes 2 _), ofBytes_toBytes, Nat.mod_eq_of_lt hlt]
  rw [readNumbers, dif_pos (hindex ▸ idProcess.isLt),
    readCounter_of_drop hseq (hsmall seq (by simp)),
    readCounter_of_drop hnumber (hsmall number (by simp))]
  exact congrArg (fun i => some (i, seq, number)) (Fin.ext hindex)

theorem commonBytes_type :
    (commonBytes len type idProcess seq number ++ rest)[sizeofLen]? = some type := by
  have hlen : (toBytes 4 len).length = sizeofLen := length_toBytes 4 len
  rw [commonBytes, List.append_assoc, List.getElem?_append_right (Nat.le_of_eq hlen), hlen]
  rfl

/-- **Round trip.** `process_msg` reads a packet back when its counters fit an `int`. -/
theorem readPacket_bytes (hN : N ≤ maxNodes) {p : Packet N} (hp : Small p.numbers) :
    readPacket (p.bytes f) = some (some p) := by
  cases p with
  | y | n => rfl
  | message m =>
    cases m with
    | b m =>
      have hread := readNumbers_commonBytes f.totalSize 98#8 m.idProcess
        (toBytes 8 (f.startMiliSeconds m.idProcess m.seq).toNat ++
          List.replicate (f.totalSize - offsetofPayload) 0#8) hN hp
      rw [Packet.bytes, readPacket, prepareMsg, commonBytes_type, Option.bind_some, hread]
      rfl
    | a k =>
      have hread := readNumbers_commonBytes ackSize 97#8 k.idProcess [] hN hp
      have htype : (commonBytes ackSize 97#8 k.idProcess k.seq k.revNum)[sizeofLen]? =
          some 97#8 := by
        rw [← List.append_nil (commonBytes _ _ _ _ _)]
        exact commonBytes_type ackSize 97#8 k.idProcess []
      rw [List.append_nil] at hread
      rw [Packet.bytes, readPacket, prepareAck, htype, Option.bind_some, hread]
      rfl

end Reading

end UniformBroadcast.TcpRing
