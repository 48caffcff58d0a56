import UniformBroadcast.TrainProcess
import UniformBroadcast.LittleEndian

/-!
# The frames of trains

The bytes of a train as they are laid out in memory and on a connection, their scan by
`firstWagon` and `nextWagon`, and the bytes that `sendTrain` writes from the last train
sent. `none` stands for a read outside the frame or a scan that does not end.
-/

namespace UniformBroadcast.Trains

open LittleEndian

variable {ntr : ℕ}

/-- The bytes of an `int`. -/
def intBytes (n : ℕ) : List Byte := toBytes 4 n

def Message.bytes (mp : Message) : List Byte := intBytes mp.len ++ mp.typ :: mp.payload

def Wagon.bytes (w : Wagon) : List Byte :=
  intBytes w.len ++ addressBytes w.sender ++
    BitVec.ofNat 8 w.round :: w.msgs.flatMap Message.bytes

/-- `TRAIN`. -/
def mtypeTrain : Byte := 1#8

/-- `sizeof(int) + sizeof(MType) + sizeof(stamp) + sizeof(addressSet)`. -/
def sizeofTrainHeader : ℕ := 10

/-- What stands before the wagons. -/
def headerBytes (lng : ℕ) (st : Stamp ntr) (circuit : Address) : List Byte :=
  intBytes lng ++ [mtypeTrain, BitVec.ofNat 8 st.id, st.lc, BitVec.ofNat 8 st.round] ++
    addressBytes circuit

/-- The frame of a train. -/
def Train.bytes (t : Train ntr) : List Byte :=
  headerBytes (sizeofTrainHeader + wagonsLen t.wagons) t.stamp t.circuit ++
    t.wagons.flatMap Wagon.bytes

/-- The three pieces that `sendTrain` gives to `commWritev`, and the length it writes. -/
def sendTrain (lts : Lts ntr) : List Byte :=
  let wagons := if lts.len ≠ 0 then ((lts.pWagon.getD []).flatMap Wagon.bytes).take lts.len else []
  let own := ownSent lts.pWtosend
  let lng := sizeofTrainHeader + lts.len + wagonsLen own
  headerBytes lng lts.stamp lts.circuit ++ (wagons ++ own.flatMap Wagon.bytes)

/-! ## The scan -/

/-- The position of the first wagon. The length is compared as an unsigned number. -/
def firstWagon (frame : List Byte) : Option (Option ℕ) := do
  let len ← readInt frame
  if frame[4]? ≠ some mtypeTrain then none
  else return if len > sizeofTrainHeader ∨ len < 0 then some sizeofTrainHeader else none

def nextWagon (frame : List Byte) (w : ℕ) : Option (Option ℕ) := do
  let msgLen ← readInt frame
  let len ← readInt (frame.drop w)
  let w2 : ℤ := w + len
  if w2 ≥ msgLen then return none else if w2 < 0 then none else return some w2.toNat

/-- The bytes of the wagon at a position. -/
def wagonAt (frame : List Byte) (w : ℕ) : Option (List Byte) := do
  let len ← readInt (frame.drop w)
  return (frame.drop w).take len.toNat

def scanFrom (frame : List Byte) : ℕ → ℕ → Option (List (List Byte))
  | 0, _ => none
  | fuel + 1, w => do
    let bytes ← wagonAt frame w
    match ← nextWagon frame w with
    | none => return [bytes]
    | some w2 => do
      let rest ← scanFrom frame fuel w2
      return bytes :: rest

/-- The wagons that the loop over `firstWagon` and `nextWagon` visits. A scan that ends
visits each position at most once. -/
def scan (frame : List Byte) : Option (List (List Byte)) := do
  match ← firstWagon frame with
  | none => return []
  | some w => scanFrom frame (frame.length + 1) w

/-! ## Lengths -/

@[simp] theorem length_addressBytes (ad : Address) : (addressBytes ad).length = 2 := rfl

@[simp] theorem length_intBytes (n : ℕ) : (intBytes n).length = 4 := length_toBytes 4 n

@[simp] theorem Message.length_bytes (mp : Message) : mp.bytes.length = mp.len := by
  simp [Message.bytes, Message.len, sizeofMessageHeader]
  omega

@[simp] theorem Wagon.length_bytes (w : Wagon) : w.bytes.length = w.len := by
  have hmsgs : (w.msgs.flatMap Message.bytes).length = (w.msgs.map Message.len).sum := by
    simp [List.length_flatMap]
  simp only [Wagon.bytes, List.length_append, List.length_cons, length_intBytes,
    length_addressBytes, hmsgs, Wagon.len, sizeofWagonHeader]
  omega

@[simp] theorem length_headerBytes (lng : ℕ) (st : Stamp ntr) (circuit : Address) :
    (headerBytes lng st circuit).length = sizeofTrainHeader := by
  simp [headerBytes, sizeofTrainHeader]

theorem length_wagonsBytes (wagons : List Wagon) :
    (wagons.flatMap Wagon.bytes).length = wagonsLen wagons := by
  induction wagons with
  | nil => rfl
  | cons w wagons ih =>
    rw [List.flatMap_cons, List.length_append, ih, Wagon.length_bytes, wagonsLen_cons]

theorem length_le_wagonsLen (wagons : List Wagon) : wagons.length ≤ wagonsLen wagons := by
  induction wagons with
  | nil => exact Nat.le_refl _
  | cons w wagons ih =>
    have hpos := w.len_pos
    rw [wagonsLen_cons, List.length_cons]
    omega

theorem Wagon.len_le_wagonsLen {w : Wagon} {wagons : List Wagon} (h : w ∈ wagons) :
    w.len ≤ wagonsLen wagons := by
  induction wagons with
  | nil => cases h
  | cons v wagons ih =>
    rw [wagonsLen_cons]
    rcases List.mem_cons.mp h with rfl | h
    · exact Nat.le_add_right _ _
    · exact (ih h).trans (Nat.le_add_left _ _)

theorem readInt_wagon {w : Wagon} (h : w.len < 2 ^ 31) (bytes : List Byte) :
    readInt (w.bytes ++ bytes) = some (w.len : ℤ) := by
  rw [Wagon.bytes, List.append_assoc, List.append_assoc, intBytes, readInt_toBytes, toInt_ofNat h]

/-- The sender of a wagon is told by its bytes. -/
theorem sender_of_take {v w : Wagon} (h : v.bytes.take 6 = w.bytes.take 6) :
    v.sender = w.sender := by
  have hcut : ∀ w : Wagon, w.bytes.take 6 = intBytes w.len ++ addressBytes w.sender := by
    intro w
    rw [Wagon.bytes, List.take_left' (by simp)]
  rw [hcut, hcut] at h
  have haddress := List.append_inj_right h (by simp)
  simp only [addressBytes, List.cons.injEq, and_true] at haddress
  obtain ⟨hlow, hhigh⟩ := haddress
  ext i hi
  rcases Nat.lt_or_ge i 8 with hi' | hi'
  · have hbit := congrArg (·.getLsbD i) hlow
    simpa [hi', hi] using hbit
  · have hbit := congrArg (·.getLsbD (i - 8)) hhigh
    have hadd : 8 + (i - 8) = i := by omega
    simpa [hadd, show i - 8 < 8 by omega, hi] using hbit

/-! ## Scanning wagons -/

/-- The scan of a frame from a position where wagons stand to its end. -/
theorem scanFrom_wagons {frame before : List Byte} {wagons : List Wagon} (hne : wagons ≠ [])
    (hframe : frame = before ++ wagons.flatMap Wagon.bytes)
    (hlen : readInt frame = some (frame.length : ℤ)) (hint : frame.length < 2 ^ 31) {fuel : ℕ}
    (hfuel : wagons.length ≤ fuel) :
    scanFrom frame fuel before.length = some (wagons.map Wagon.bytes) := by
  induction wagons generalizing before fuel with
  | nil => exact absurd rfl hne
  | cons w wagons ih =>
    have hdrop : frame.drop before.length = w.bytes ++ wagons.flatMap Wagon.bytes := by
      rw [hframe, List.drop_left, List.flatMap_cons]
    have hlength : frame.length = before.length + w.len + wagonsLen wagons := by
      rw [hframe, List.length_append, length_wagonsBytes, wagonsLen_cons, Nat.add_assoc]
    have hread : readInt (frame.drop before.length) = some (w.len : ℤ) := by
      rw [hdrop, readInt_wagon (by omega)]
    have hat : wagonAt frame before.length = some w.bytes := by
      have htake : (w.bytes ++ wagons.flatMap Wagon.bytes).take w.len = w.bytes :=
        List.take_left' w.length_bytes
      rw [wagonAt, hread, hdrop]
      exact congrArg some htake
    cases fuel with
    | zero => cases hfuel
    | succ fuel =>
      cases wagons with
      | nil =>
        have hnext : nextWagon frame before.length = some none := by
          rw [wagonsLen_nil] at hlength
          simp only [nextWagon, hlen, hread, Option.bind_eq_bind, Option.bind_some]
          rw [if_pos (by omega)]
          rfl
        rw [scanFrom, hat, hnext]
        rfl
      | cons v wagons =>
        have hpos := v.len_pos
        have hnext : nextWagon frame before.length = some (some (before ++ w.bytes).length) := by
          rw [wagonsLen_cons] at hlength
          simp only [nextWagon, hlen, hread, Option.bind_eq_bind, Option.bind_some]
          rw [if_neg (by omega), if_neg (by omega), List.length_append, Wagon.length_bytes]
          rfl
        have hbefore : frame = (before ++ w.bytes) ++ (v :: wagons).flatMap Wagon.bytes := by
          rw [hframe, List.flatMap_cons, List.append_assoc]
        have hrest := ih (List.cons_ne_nil _ _) hbefore (Nat.le_of_succ_le_succ hfuel)
        rw [scanFrom, hat, hnext]
        simp only [Option.bind_eq_bind, Option.bind_some, hrest]
        rfl

theorem drop_of_wagonAt {frame : List Byte} {w : ℕ} {v : Wagon} (hint : v.len < 2 ^ 31)
    (h : wagonAt frame w = some v.bytes) : readInt (frame.drop w) = some (v.len : ℤ) ∧
      frame.drop w = v.bytes ++ frame.drop (w + v.len) := by
  obtain ⟨len, hread, htake⟩ := Option.bind_eq_some_iff.mp h
  have htake : (frame.drop w).take len.toNat = v.bytes := Option.some.inj htake
  have hsplit : frame.drop w = v.bytes ++ (frame.drop w).drop len.toNat := by
    rw [← htake, List.take_append_drop]
  have hlen : readInt (frame.drop w) = some (v.len : ℤ) := by
    rw [hsplit, readInt_wagon hint]
  obtain rfl := Option.some.inj (hread.symm.trans hlen)
  rw [List.drop_drop] at hsplit
  exact ⟨hlen, hsplit⟩

/-- Wagons found by a scan stand one after the other in the frame. -/
theorem wagons_of_scanFrom {frame : List Byte} {fuel w : ℕ} {wagons : List Wagon}
    (hint : ∀ v ∈ wagons, v.len < 2 ^ 31)
    (h : scanFrom frame fuel w = some (wagons.map Wagon.bytes)) :
    wagons.flatMap Wagon.bytes <+: frame.drop w := by
  induction fuel generalizing w wagons with
  | zero => cases h
  | succ fuel ih =>
    obtain ⟨bytes, hat, h⟩ := Option.bind_eq_some_iff.mp h
    obtain ⟨next, hnext, h⟩ := Option.bind_eq_some_iff.mp h
    cases wagons with
    | nil => exact List.nil_prefix
    | cons v wagons =>
      have hv : v.len < 2 ^ 31 := hint v List.mem_cons_self
      cases next with
      | none =>
        obtain ⟨hbytes, hnil⟩ := List.cons.inj (Option.some.inj h)
        subst hbytes
        obtain ⟨-, hsplit⟩ := drop_of_wagonAt hv hat
        obtain rfl : wagons = [] := List.map_eq_nil_iff.mp hnil.symm
        rw [hsplit, List.flatMap_cons, List.flatMap_nil, List.append_nil]
        exact List.prefix_append _ _
      | some w2 =>
        obtain ⟨rest, hrest, h⟩ := Option.bind_eq_some_iff.mp h
        obtain ⟨hbytes, hmap⟩ := List.cons.inj (Option.some.inj h)
        subst hbytes hmap
        obtain ⟨hread, hsplit⟩ := drop_of_wagonAt hv hat
        have hw2 : w2 = w + v.len := by
          obtain ⟨msgLen, -, hnext⟩ := Option.bind_eq_some_iff.mp hnext
          rw [hread] at hnext
          simp only [Option.bind_eq_bind, Option.bind_some] at hnext
          split at hnext
          · cases hnext
          · split at hnext
            · cases hnext
            · have h := Option.some.inj (Option.some.inj hnext)
              omega
        rw [hw2] at hrest
        rw [hsplit, List.flatMap_cons, List.prefix_append_right_inj]
        exact ih (fun u hu => hint u (List.mem_cons_of_mem _ hu)) hrest

/-! ## Whole frames -/

/-- The first wagon stands behind the header, or there is none. -/
theorem firstWagon_eq {frame : List Byte} {first : Option ℕ} (h : firstWagon frame = some first) :
    ∀ w ∈ first, w = sizeofTrainHeader := by
  obtain ⟨len, -, h⟩ := Option.bind_eq_some_iff.mp h
  split at h
  · cases h
  · obtain rfl := Option.some.inj h
    intro w hw
    split at hw
    · exact (Option.some.inj hw).symm
    · cases hw

theorem wagons_of_scan {frame : List Byte} {wagons : List Wagon}
    (hint : ∀ v ∈ wagons, v.len < 2 ^ 31) (h : scan frame = some (wagons.map Wagon.bytes)) :
    wagons.flatMap Wagon.bytes <+: frame.drop sizeofTrainHeader := by
  rw [scan] at h
  obtain ⟨first, hfirst, h⟩ := Option.bind_eq_some_iff.mp h
  cases first with
  | none =>
    have hnil : wagons = [] := List.map_eq_nil_iff.mp (Option.some.inj h).symm
    rw [hnil]
    exact List.nil_prefix
  | some w =>
    obtain rfl := firstWagon_eq hfirst w rfl
    exact wagons_of_scanFrom hint h

/-- A frame with a correct length is scanned into its wagons. -/
theorem scan_of_readInt {frame : List Byte} {lng : ℕ} {st : Stamp ntr} {circuit : Address}
    {wagons : List Wagon}
    (hframe : frame = headerBytes lng st circuit ++ wagons.flatMap Wagon.bytes)
    (hlen : readInt frame = some (frame.length : ℤ)) (hint : frame.length < 2 ^ 31) :
    scan frame = some (wagons.map Wagon.bytes) := by
  have hlength : frame.length = sizeofTrainHeader + wagonsLen wagons := by
    rw [hframe, List.length_append, length_headerBytes, length_wagonsBytes]
  have htype : frame[4]? = some mtypeTrain := by
    rw [hframe]
    rfl
  rcases eq_or_ne wagons [] with rfl | hne
  · have hfirst : firstWagon frame = some none := by
      rw [wagonsLen_nil] at hlength
      simp only [firstWagon, hlen, Option.bind_eq_bind, Option.bind_some]
      rw [if_neg (not_not.mpr htype), if_neg (by omega)]
      rfl
    rw [scan, hfirst]
    rfl
  · have hle := length_le_wagonsLen wagons
    have hpos := List.length_pos_iff.mpr hne
    have hfirst : firstWagon frame = some (some sizeofTrainHeader) := by
      simp only [firstWagon, hlen, Option.bind_eq_bind, Option.bind_some]
      rw [if_neg (not_not.mpr htype), if_pos (by omega)]
      rfl
    rw [scan, hfirst]
    have hscan : scanFrom frame (frame.length + 1) (headerBytes lng st circuit).length =
        some (wagons.map Wagon.bytes) := scanFrom_wagons hne hframe hlen hint (by omega)
    rwa [length_headerBytes] at hscan

/-! ## What `sendTrain` writes -/

theorem take_of_carve {wagons cut : List Wagon} {len : ℕ} (h : carve wagons len = some cut) :
    (wagons.flatMap Wagon.bytes).take len = cut.flatMap Wagon.bytes ∧ wagonsLen cut = len := by
  induction wagons generalizing len cut with
  | nil =>
    cases len with
    | zero =>
      obtain rfl := Option.some.inj h
      exact ⟨rfl, rfl⟩
    | succ len => cases h
  | cons w wagons ih =>
    cases len with
    | zero =>
      obtain rfl := Option.some.inj h
      exact ⟨List.take_zero, rfl⟩
    | succ len =>
      rw [carve] at h
      split at h
      · rename_i hle
        obtain ⟨cut, hcut, rfl⟩ := Option.map_eq_some_iff.mp h
        obtain ⟨htake, hlen⟩ := ih hcut
        constructor
        · rw [List.flatMap_cons, List.flatMap_cons, List.take_append, Wagon.length_bytes, htake,
            List.take_of_length_le (by rw [Wagon.length_bytes]; exact hle)]
        · rw [wagonsLen_cons, hlen]
          omega
      · cases h

/-- Where the bytes sent are whole wagons, `sendTrain` writes the frame of a train. -/
theorem sendTrain_eq_bytes {lts : Lts ntr} {t : Train ntr} (h : trainSent lts = some t) :
    sendTrain lts = t.bytes := by
  obtain ⟨wagons, hcarve, rfl⟩ := Option.map_eq_some_iff.mp h
  obtain ⟨htake, hlen⟩ := take_of_carve hcarve
  have hwagons : (if lts.len ≠ 0 then ((lts.pWagon.getD []).flatMap Wagon.bytes).take lts.len
      else []) = wagons.flatMap Wagon.bytes := by
    split
    · exact htake
    · rename_i hzero
      rw [← htake, not_not.mp hzero, List.take_zero]
  rw [sendTrain, hwagons, Train.bytes, List.flatMap_append, wagonsLen_append, hlen, Nat.add_assoc]

end UniformBroadcast.Trains
