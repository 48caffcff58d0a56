import UniformBroadcast.LittleEndian

/-!
# Records on a connection of bytes

A connection carries bytes, which arrive a few at a time. Each record begins with a head of fixed
length that tells the length of the whole, so a reader takes the head first and then the rest.
Such a connection is a queue of records.
-/

namespace UniformBroadcast.FramedConnections

open LittleEndian

universe u

/-- A connection: the head that the reader has taken while it has not taken the rest, the bytes
that have arrived and those on their way. -/
structure Connection where
  taken : Option (List Byte)
  arrived : List Byte
  flight : List Byte
  deriving DecidableEq, Repr

namespace Connection

def empty : Connection := ⟨none, [], []⟩

def send (bytes : List Byte) (c : Connection) : Connection := { c with flight := c.flight ++ bytes }

/-- The next `k` bytes arrive. -/
def carry (k : ℕ) (c : Connection) : Connection :=
  { c with arrived := c.arrived ++ c.flight.take k, flight := c.flight.drop k }

/-- The reader waits for a head and takes it. -/
def takeHead (head : ℕ) (c : Connection) : Option Connection :=
  if head ≤ c.arrived.length then
    some { c with taken := some (c.arrived.take head), arrived := c.arrived.drop head }
  else none

/-- After the head `h`, the reader waits for the rest of the `length` bytes and takes it. -/
def takeRest (h : List Byte) (length : ℕ) (c : Connection) : Option (List Byte × Connection) :=
  if length - h.length ≤ c.arrived.length then
    some (h ++ c.arrived.take (length - h.length),
      { c with taken := none, arrived := c.arrived.drop (length - h.length) })
  else none

/-- All the bytes that the reader has not treated. -/
def bytes (c : Connection) : List Byte := c.taken.getD [] ++ (c.arrived ++ c.flight)

@[simp] theorem send_taken (b : List Byte) (c : Connection) : (c.send b).taken = c.taken := rfl

@[simp] theorem send_bytes (b : List Byte) (c : Connection) : (c.send b).bytes = c.bytes ++ b := by
  simp [bytes, send]

@[simp] theorem carry_taken (k : ℕ) (c : Connection) : (c.carry k).taken = c.taken := rfl

@[simp] theorem carry_bytes (k : ℕ) (c : Connection) : (c.carry k).bytes = c.bytes := by
  simp [bytes, carry]

theorem takeHead_eq {c d : Connection} {head : ℕ} (htake : c.takeHead head = some d) :
    d.taken = some (c.arrived.take head) ∧ d.flight = c.flight := by
  rw [takeHead] at htake
  split at htake
  · cases htake
    exact ⟨rfl, rfl⟩
  · cases htake

theorem takeRest_flight {c d : Connection} {h m : List Byte} {length : ℕ}
    (htake : c.takeRest h length = some (m, d)) : d.flight = c.flight := by
  rw [takeRest] at htake
  split at htake
  · cases htake
    rfl
  · cases htake

theorem takeRest_taken {c d : Connection} {h m : List Byte} {length : ℕ}
    (htake : c.takeRest h length = some (m, d)) : d.taken = none := by
  rw [takeRest] at htake
  split at htake
  · cases htake
    rfl
  · cases htake

@[simp] theorem carry_flight (c : Connection) : (c.carry c.flight.length).flight = [] :=
  List.drop_length

end Connection

/-! ## The queue of the records -/

section Queue

variable {α : Type u} {head : ℕ} {format : α → List Byte} {c d : Connection} {l : List α}

/-- The connection carries the records of the queue; the reader has taken the head of the first or
nothing. -/
structure Holds (head : ℕ) (format : α → List Byte) (c : Connection) (l : List α) : Prop where
  bytes : c.bytes = l.flatMap format
  taken : ∀ h, c.taken = some h → h.length = head ∧ l ≠ []

theorem holds_empty : Holds head format .empty ([] : List α) := ⟨rfl, fun _ h => by cases h⟩

theorem Holds.send (h : Holds head format c l) (as : List α) :
    Holds head format (c.send (as.flatMap format)) (l ++ as) where
  bytes := by rw [Connection.send_bytes, h.bytes, List.flatMap_append]
  taken p hp := ⟨(h.taken p hp).1, List.append_ne_nil_of_left_ne_nil (h.taken p hp).2 as⟩

theorem Holds.carry (h : Holds head format c l) (k : ℕ) : Holds head format (c.carry k) l where
  bytes := by rw [Connection.carry_bytes, h.bytes]
  taken := h.taken

/-- Taking a head takes no record from the queue. -/
theorem Holds.takeHead (hpos : 0 < head) (h : Holds head format c l) (hnone : c.taken = none)
    (htake : c.takeHead head = some d) : Holds head format d l := by
  rw [Connection.takeHead] at htake
  split at htake
  · rename_i henough
    cases htake
    have hbytes := h.bytes
    simp only [Connection.bytes, hnone, Option.getD_none, List.nil_append] at hbytes
    constructor
    case bytes =>
      rw [← hbytes, Connection.bytes]
      simp only [Option.getD_some, ← List.append_assoc, List.take_append_drop]
    case taken =>
      intro p hp
      cases hp
      refine ⟨List.length_take_of_le henough, ?_⟩
      rintro rfl
      have hlength := congrArg List.length hbytes
      rw [List.length_append, List.flatMap_nil, List.length_nil] at hlength
      omega
  · cases htake

variable {a : α}

/-- The head that was taken is that of the first record. -/
theorem Holds.head_eq (h : Holds head format c (a :: l)) (hle : head ≤ (format a).length)
    {p : List Byte} (hp : c.taken = some p) : p = (format a).take head := by
  have hbytes := h.bytes
  have hlen := (h.taken p hp).1
  rw [Connection.bytes, hp, Option.getD_some, List.flatMap_cons] at hbytes
  have htake := congrArg (List.take head) hbytes
  rwa [List.take_left' hlen, List.take_append_of_le_length hle] at htake

/-- Taking the rest takes the first record. -/
theorem Holds.takeRest (h : Holds head format c (a :: l)) (hle : head ≤ (format a).length)
    {p m : List Byte} (hp : c.taken = some p)
    (htake : c.takeRest p (format a).length = some (m, d)) :
    m = format a ∧ Holds head format d l := by
  have hbytes := h.bytes
  have hlen := (h.taken p hp).1
  have hhead := h.head_eq hle hp
  rw [Connection.bytes, hp, Option.getD_some, List.flatMap_cons] at hbytes
  rw [Connection.takeRest, hlen] at htake
  split at htake
  · rename_i henough
    cases htake
    have hrest : c.arrived ++ c.flight = (format a).drop head ++ l.flatMap format := by
      have hdrop := congrArg (List.drop head) hbytes
      rwa [List.drop_left' hlen, List.drop_append_of_le_length hle] at hdrop
    have hdroplen : ((format a).drop head).length = (format a).length - head := List.length_drop
    have hm : c.arrived.take ((format a).length - head) = (format a).drop head := by
      have htake := congrArg (List.take ((format a).length - head)) hrest
      rwa [List.take_append_of_le_length henough, List.take_left' hdroplen] at htake
    refine ⟨?_, ?_, fun _ hq => by cases hq⟩
    · rw [hm, hhead, List.take_append_drop]
    · have hdrop := congrArg (List.drop ((format a).length - head)) hrest
      rw [List.drop_append_of_le_length henough, List.drop_left' hdroplen] at hdrop
      exact hdrop
  · cases htake

/-- Once its bytes have arrived, the reader takes the head of the next record. -/
theorem Holds.takeHead_isSome (h : Holds head format c (a :: l)) (hle : head ≤ (format a).length)
    (hnone : c.taken = none) (hflight : c.flight = []) : (c.takeHead head).isSome := by
  have hlength := congrArg List.length h.bytes
  rw [Connection.bytes, hnone, hflight, List.append_nil, Option.getD_none, List.nil_append,
    List.flatMap_cons, List.length_append] at hlength
  rw [Connection.takeHead, if_pos (by omega)]
  rfl

/-- Once its bytes have arrived, the reader takes the rest of the record. -/
theorem Holds.takeRest_isSome (h : Holds head format c (a :: l)) {p : List Byte}
    (hp : c.taken = some p) (hflight : c.flight = []) :
    (c.takeRest p (format a).length).isSome := by
  have hlen := (h.taken p hp).1
  have hlength := congrArg List.length h.bytes
  rw [Connection.bytes, hp, hflight, List.append_nil, Option.getD_some, List.flatMap_cons,
    List.length_append, List.length_append] at hlength
  rw [Connection.takeRest, if_pos (by omega)]
  rfl

end Queue

end UniformBroadcast.FramedConnections
