import UniformBroadcast.TrainAddress

/-!
# Wagons and the messages they carry

Translation of `wagon.c`, of the wagon part of `advanced_struct.c` and of
`signalArrival.c`. A wagon is the sender, the round and the messages it carries; its
length is the exact number of bytes of its header and of its messages.
-/

namespace UniformBroadcast.Trains

/-- `sizeof(messageHeader)`. -/
def sizeofMessageHeader : ℕ := 5

/-- `sizeof(wagonHeader)`. -/
def sizeofWagonHeader : ℕ := 7

/-- `NR`, the number of rounds. -/
abbrev nr : ℕ := 3

instance neZero_nr : NeZero nr := ⟨by decide⟩

/-- The types of message that the middleware itself handles. -/
def amBroadcast : BitVec 8 := 0#8
def amArrival : BitVec 8 := 1#8
def amDeparture : BitVec 8 := 2#8

/-- `message`. -/
structure Message where
  typ : BitVec 8
  payload : List (BitVec 8)
  deriving DecidableEq, Repr

/-- `header.len` of a message. -/
def Message.len (mp : Message) : ℕ := sizeofMessageHeader + mp.payload.length

/-- `wagon`. -/
structure Wagon where
  sender : Address
  round : Fin nr
  msgs : List Message
  deriving DecidableEq, Repr

/-- `header.len` of a wagon. -/
def Wagon.len (w : Wagon) : ℕ := sizeofWagonHeader + (w.msgs.map Message.len).sum

/-- `firstMsg` returns `NULL` when the length is that of the header alone. -/
def firstMsg (w : Wagon) : Option Message :=
  if w.len = sizeofWagonHeader then none else w.msgs.head?

def newWiw (myAddress : Address) : Wagon where
  sender := myAddress
  round := 0
  msgs := []

/-- `mallocWiw` followed by the writing of the message. -/
def mallocWiw (mp : Message) (w : Wagon) : Wagon := { w with msgs := w.msgs ++ [mp] }

/-- The condition on which `newmsg` waits. -/
def newmsgWaits (wagonMaxLen : ℕ) (mp : Message) (w : Wagon) : Prop :=
  w.len + mp.len > wagonMaxLen ∧ w.len ≠ sizeofWagonHeader

instance (wagonMaxLen : ℕ) (mp : Message) (w : Wagon) : Decidable (newmsgWaits wagonMaxLen mp w) :=
  inferInstanceAs (Decidable (_ ∧ _))

/-- The bytes of an address, least significant first. -/
def addressBytes (ad : Address) : List (BitVec 8) := [ad.extractLsb' 0 8, ad.extractLsb' 8 8]

def signalArrivalDepartures (typ : BitVec 8) (ad circuit : Address) (w : Wagon) : Wagon :=
  mallocWiw ⟨typ, addressBytes ad ++ addressBytes circuit⟩ w

def signalArrival (arrived circuit : Address) (w : Wagon) : Wagon :=
  signalArrivalDepartures amArrival arrived (circuit ||| arrived) w

def signalDepartures (goneSet circuit : Address) (w : Wagon) : Wagon :=
  if goneSet ≠ 0#16 then
    (((List.range np).map rankToAddr).filter fun ad => addrIsMember ad goneSet).foldl
      (fun w ad => signalArrivalDepartures amDeparture ad (circuit &&& ~~~goneSet) w) w
  else w

theorem Message.len_pos (mp : Message) : 0 < mp.len := by
  rw [Message.len, sizeofMessageHeader]
  omega

theorem Wagon.len_pos (w : Wagon) : 0 < w.len := by
  rw [Wagon.len, sizeofWagonHeader]
  omega

/-- A wagon has the length of its header exactly when it carries no message. -/
theorem len_eq_header_iff (w : Wagon) : w.len = sizeofWagonHeader ↔ w.msgs = [] := by
  cases h : w.msgs with
  | nil => simp [Wagon.len, h]
  | cons mp msgs =>
    have := mp.len_pos
    simp [Wagon.len, h]
    omega

theorem firstMsg_isSome_iff (w : Wagon) : (firstMsg w).isSome ↔ w.msgs ≠ [] := by
  rw [firstMsg]
  split
  · rename_i h
    simp [(len_eq_header_iff w).mp h]
  · cases h : w.msgs with
    | nil => simp_all [len_eq_header_iff]
    | cons => simp

@[simp] theorem signalDepartures_none (circuit : Address) (w : Wagon) :
    signalDepartures 0#16 circuit w = w := by
  simp [signalDepartures]

/-! ## The bytes behind a pointer -/

/-- The whole wagons in the first bytes, as many as the second argument says; `none` when
these bytes end inside a wagon or beyond the last one. -/
def carve : List Wagon → ℕ → Option (List Wagon)
  | [], 0 => some []
  | [], _ + 1 => none
  | _ :: _, 0 => some []
  | w :: wagons, len + 1 =>
    if w.len ≤ len + 1 then (carve wagons (len + 1 - w.len)).map (w :: ·) else none

/-- The total length of a list of wagons. -/
def wagonsLen (wagons : List Wagon) : ℕ := (wagons.map Wagon.len).sum

@[simp] theorem wagonsLen_nil : wagonsLen [] = 0 := rfl

@[simp] theorem wagonsLen_cons (w : Wagon) (wagons : List Wagon) :
    wagonsLen (w :: wagons) = w.len + wagonsLen wagons := by
  simp [wagonsLen]

theorem wagonsLen_append (wagons wagons' : List Wagon) :
    wagonsLen (wagons ++ wagons') = wagonsLen wagons + wagonsLen wagons' := by
  simp [wagonsLen]

/-- The bytes of some wagons are carved into these wagons. -/
theorem carve_append (wagons rest : List Wagon) :
    carve (wagons ++ rest) (wagonsLen wagons) = some wagons := by
  induction wagons with
  | nil => cases rest <;> rfl
  | cons w wagons ih =>
    have hpos := w.len_pos
    obtain ⟨k, hk⟩ : ∃ k, wagonsLen (w :: wagons) = k + 1 :=
      ⟨w.len + wagonsLen wagons - 1, by rw [wagonsLen_cons]; omega⟩
    have hle : w.len ≤ k + 1 := by rw [← hk, wagonsLen_cons]; omega
    have hsub : k + 1 - w.len = wagonsLen wagons := by rw [← hk, wagonsLen_cons]; omega
    rw [hk, List.cons_append, carve, if_pos hle, hsub, ih]
    rfl

end UniformBroadcast.Trains
