import UniformBroadcast.LengthScans
import UniformBroadcast.TrainFraming

/-!
# Scans of received trains

Translation of `firstMsg` and `nextMsg` on the bytes of a frame. The wagons of a train that
`receive` returns are scanned by `trainHandling`, and the messages of each of them by
`utoDeliveries`, after lengths that no one has checked.
-/

namespace UniformBroadcast.Trains.Framing

open LittleEndian LengthScans

/-- The first message of the wagon at a position. -/
def firstMsg (frame : List Byte) (w : ℕ) : Option (Option ℕ) := do
  let len ← readInt (frame.drop w)
  return if len = sizeofWagonHeader then none else some (w + sizeofWagonHeader)

def nextMsg (frame : List Byte) (w mp : ℕ) : Option (Option ℕ) := do
  let len ← readInt (frame.drop mp)
  let mp2 : ℤ := mp + len
  let wagonLen ← readInt (frame.drop w)
  if mp2 - w ≥ wagonLen then return none else if mp2 < 0 then none else return some mp2.toNat

/-- Both loops end, and the wagons and messages that they meet lie inside the frame. -/
def ScansInside (frame : List Byte) : Prop :=
  ∃ first, firstWagon frame = some first ∧
    Ends (nextWagon frame) first fun w => Inside sizeofWagonHeader frame w ∧
      ∃ mp, firstMsg frame w = some mp ∧
        Ends (nextMsg frame w) mp (Inside sizeofMessageHeader frame)

/-- The bytes after the header of a train are wagons that tell their lengths. What follows the
header of each wagon is messages that tell their lengths and come to its end; the last one may
go beyond it, in the frame. -/
def WagonsOfMessages (body : List Byte) : Prop :=
  ∃ wagons, Blocks sizeofWagonHeader body body.length wagons ∧
    ∀ before w after, wagons = before ++ w :: after →
      ∃ msgs, Blocks sizeofMessageHeader ((w ++ after.flatten).drop sizeofWagonHeader)
        (w.length - sizeofWagonHeader) msgs

section Scans

variable {frame : List Byte}

theorem isFrame_of_receive {tcomm : ℕ} {array : AddrArray} {s s' : Source}
    (h : receive tcomm array s = some (.msg frame, s')) : IsFrame frame := by
  have hclosing : ∀ {s s' : Source}, some (closing tcomm array, s) ≠
      some (Received.msg frame, s') := by
    intro s s' heq
    have hmsg := congrArg Prod.fst (Option.some.inj heq)
    rw [closing] at hmsg
    split at hmsg
    · cases hmsg
    · cases hmsg
  rw [receive] at h
  split at h
  dsimp only at h
  split at h
  · obtain ⟨length, hlength, h⟩ := Option.bind_eq_some_iff.mp h
    split at h
    · cases h
    · split at h
      · rename_i hrest
        cases h
        have hlt := readInt_lt hlength
        constructor
        · rw [List.length_append, length_intBytes]
          omega
        · refine ⟨_, congrArg (intBytes · ++ _) ?_⟩
          omega
      · exact absurd h hclosing
  · exact absurd h hclosing

theorem readInt_frame (hframe : IsFrame frame) : readInt frame = some (frame.length : ℤ) := by
  obtain ⟨hfits, rest, hrest⟩ := hframe
  have hlength : frame.length = 4 + rest.length := by
    rw [hrest, List.length_append, length_intBytes]
  rw [hlength] at hfits ⊢
  rw [hrest, intBytes, readInt_toBytes, toInt_ofNat hfits]

theorem nextWagon_eq (hframe : IsFrame frame) :
    nextWagon frame = LengthScans.next frame (frame.length : ℤ) := by
  funext w
  rw [nextWagon, readInt_frame hframe]
  rfl

theorem nextMsg_eq {w n : ℕ} (hread : readInt (frame.drop w) = some (n : ℤ)) :
    nextMsg frame w = LengthScans.next frame ((w + n : ℕ) : ℤ) := by
  funext mp
  rw [nextMsg, LengthScans.next, hread]
  cases readInt (frame.drop mp) with
  | none => rfl
  | some len =>
    have hcompare : ((mp : ℤ) + len - w ≥ n) = ((mp : ℤ) + len ≥ (w + n : ℕ)) := by
      rw [eq_iff_iff]
      omega
    simp only [Option.bind_eq_bind, Option.bind_some, hcompare]

theorem ends_none {step : ℕ → Option (Option ℕ)} {P : ℕ → Prop} : Ends step none P :=
  ⟨0, [], rfl, by simp⟩

/-- The messages of the wagon at a position. -/
theorem msgs_iff {pos : ℕ} {w after : List Byte} (hpos : frame.drop pos = w ++ after)
    (hhdr : sizeofWagonHeader ≤ w.length) (hread : readInt w = some (w.length : ℤ)) :
    (∃ mp, firstMsg frame pos = some mp ∧
      Ends (nextMsg frame pos) mp (Inside sizeofMessageHeader frame)) ↔
    ∃ msgs, Blocks sizeofMessageHeader ((w ++ after).drop sizeofWagonHeader)
      (w.length - sizeofWagonHeader) msgs := by
  rw [sizeofWagonHeader] at hhdr
  have hlen : readInt (frame.drop pos) = some (w.length : ℤ) := by
    rw [hpos, readInt_append (by omega), hread]
  by_cases hone : w.length = sizeofWagonHeader
  · refine iff_of_true ⟨none, ?_, ends_none⟩ ⟨[], ?_⟩
    · rw [firstMsg, hlen, hone]
      rfl
    · rw [Blocks.nil_iff, hone, Nat.sub_self]
  · have hfirst : firstMsg frame pos = some (some (pos + sizeofWagonHeader)) := by
      have hne : (w.length : ℤ) ≠ sizeofWagonHeader := by exact_mod_cast hone
      rw [firstMsg, hlen, Option.bind_eq_bind, Option.bind_some, if_neg hne]
      rfl
    rw [sizeofWagonHeader] at hone
    have hlimit : 0 < w.length - sizeofWagonHeader := by
      rw [sizeofWagonHeader]
      omega
    have hstop : pos + w.length = pos + sizeofWagonHeader + (w.length - sizeofWagonHeader) := by
      rw [sizeofWagonHeader]
      omega
    have hends := @ends_iff sizeofMessageHeader _ frame (fun _ => True)
      (by decide) (pos + sizeofWagonHeader) hlimit
    rw [← hstop, ← nextMsg_eq hlen, ← List.drop_drop, hpos] at hends
    simp only [hfirst, Option.some.injEq, exists_eq_left']
    simpa using hends

/-- What is left of the frame at a wagon. -/
theorem drop_before {body before w after : List Byte} (hbody : body = before ++ (w ++ after))
    {x : ℕ} (hdrop : frame.drop x = body) : frame.drop (x + before.length) = w ++ after := by
  rw [← List.drop_drop, hdrop, hbody, List.drop_left]

/-- Wagons that come to the end of the body are all of it. -/
theorem flatten_of_blocks {body : List Byte} {wagons : List (List Byte)}
    (h : Blocks sizeofWagonHeader body body.length wagons) : wagons.flatten = body :=
  h.starts.eq_of_length_le (Fills.le_length h.fills)

/-- The messages of the wagons found. -/
theorem wagons_iff {body : List Byte} {x : ℕ} {wagons : List (List Byte)}
    (hdrop : frame.drop x = body) (h : Blocks sizeofWagonHeader body body.length wagons) :
    (∀ before w after, wagons = before ++ w :: after →
      ∃ mp, firstMsg frame (x + before.flatten.length) = some mp ∧
        Ends (nextMsg frame (x + before.flatten.length)) mp (Inside sizeofMessageHeader frame)) ↔
    ∀ before w after, wagons = before ++ w :: after →
      ∃ msgs, Blocks sizeofMessageHeader ((w ++ after.flatten).drop sizeofWagonHeader)
        (w.length - sizeofWagonHeader) msgs := by
  have hone : ∀ before w after, wagons = before ++ w :: after →
      ((∃ mp, firstMsg frame (x + before.flatten.length) = some mp ∧
        Ends (nextMsg frame (x + before.flatten.length)) mp (Inside sizeofMessageHeader frame)) ↔
      ∃ msgs, Blocks sizeofMessageHeader ((w ++ after.flatten).drop sizeofWagonHeader)
        (w.length - sizeofWagonHeader) msgs) := by
    intro before w after heq
    have hw : w ∈ wagons := heq ▸ List.mem_append_right before List.mem_cons_self
    obtain ⟨hhdr, hread⟩ := h.lens w hw
    have hbody : body = before.flatten ++ (w ++ after.flatten) := by
      rw [← flatten_of_blocks h, heq, List.flatten_append, List.flatten_cons]
    exact msgs_iff (drop_before hbody hdrop) hhdr hread
  constructor
  · intro hall before w after heq
    exact (hone before w after heq).mp (hall before w after heq)
  · intro hall before w after heq
    exact (hone before w after heq).mpr (hall before w after heq)

end Scans

theorem firstWagon_frame {frame : List Byte} (hframe : IsFrame frame)
    (htype : frame[4]? = some mtypeTrain) : firstWagon frame =
      some (if frame.length > sizeofTrainHeader then some sizeofTrainHeader else none) := by
  have hcompare : ((frame.length : ℤ) > (sizeofTrainHeader : ℤ) ∨ (frame.length : ℤ) < 0) =
      (frame.length > sizeofTrainHeader) := by
    rw [eq_iff_iff]
    omega
  rw [firstWagon, readInt_frame hframe, Option.bind_eq_bind, Option.bind_some, htype,
    if_neg (by simp)]
  simp only [hcompare]
  rfl

/-- The scans of a train that has been received end inside its frame exactly when its body is
made of wagons of messages. -/
theorem scan_ends_inside {tcomm : ℕ} {array : AddrArray} {s s' : Source} {frame : List Byte}
    (hreceive : receive tcomm array s = some (.msg frame, s'))
    (htype : frame[4]? = some mtypeTrain) :
    ScansInside frame ↔ WagonsOfMessages (frame.drop sizeofTrainHeader) := by
  have hframe := isFrame_of_receive hreceive
  rw [ScansInside, firstWagon_frame hframe htype]
  simp only [Option.some.injEq, exists_eq_left']
  by_cases hlong : frame.length > sizeofTrainHeader
  · have hlength : (frame.drop sizeofTrainHeader).length = frame.length - sizeofTrainHeader :=
      List.length_drop
    have hlimit : 0 < (frame.drop sizeofTrainHeader).length := by omega
    have hstop : sizeofTrainHeader + (frame.drop sizeofTrainHeader).length = frame.length := by
      omega
    have hends := @ends_iff sizeofWagonHeader _ frame
      (fun w => ∃ mp, firstMsg frame w = some mp ∧
        Ends (nextMsg frame w) mp (Inside sizeofMessageHeader frame))
      (by decide) sizeofTrainHeader hlimit
    rw [hstop, ← nextWagon_eq hframe] at hends
    rw [if_pos hlong, hends, WagonsOfMessages]
    refine exists_congr fun wagons => and_congr_right fun hwagons => ?_
    exact wagons_iff rfl hwagons
  · have hnil : frame.drop sizeofTrainHeader = [] := List.drop_eq_nil_of_le (by omega)
    rw [if_neg hlong, hnil]
    refine iff_of_true ends_none ⟨[], Blocks.nil_iff.mpr rfl, ?_⟩
    intro before w after heq
    simp at heq

/-! ## Wagons that the processes write -/

theorem readInt_message {mp : Message} (h : mp.len < 2 ^ 31) :
    readInt mp.bytes = some (mp.bytes.length : ℤ) := by
  rw [Message.bytes, intBytes, readInt_toBytes, toInt_ofNat h, ← intBytes, ← Message.bytes,
    Message.length_bytes]

theorem Message.len_le_len {mp : Message} {w : Wagon} (h : mp ∈ w.msgs) : mp.len ≤ w.len := by
  have hsum := List.single_le_sum (l := w.msgs.map Message.len) (fun _ _ => Nat.zero_le _) mp.len
    (List.mem_map_of_mem h)
  rw [Wagon.len]
  omega

theorem readInt_bytes {w : Wagon} (h : w.len < 2 ^ 31) :
    readInt w.bytes = some (w.bytes.length : ℤ) := by
  have hread := readInt_wagon h []
  rwa [List.append_nil, ← Wagon.length_bytes] at hread

/-- Messages one after the other are blocks, whatever follows them. -/
theorem blocks_messages {msgs : List Message} (hint : ∀ mp ∈ msgs, mp.len < 2 ^ 31)
    (rest : List Byte) : Blocks sizeofMessageHeader (msgs.flatMap Message.bytes ++ rest)
      (msgs.flatMap Message.bytes).length (msgs.map Message.bytes) := by
  rw [List.flatMap_def]
  apply blocks_flatten (by decide)
  intro b hb
  obtain ⟨mp, hmp, rfl⟩ := List.mem_map.mp hb
  refine ⟨?_, readInt_message (hint mp hmp)⟩
  rw [Message.length_bytes, Message.len]
  exact Nat.le_add_right _ _

/-- The wagons of the model, as they are laid out, are wagons of messages. -/
theorem wagonsOfMessages_bytes {wagons : List Wagon} (hint : ∀ w ∈ wagons, w.len < 2 ^ 31) :
    WagonsOfMessages (wagons.flatMap Wagon.bytes) := by
  refine ⟨wagons.map Wagon.bytes, ?_, ?_⟩
  · have hblocks := @blocks_flatten sizeofWagonHeader (wagons.map Wagon.bytes) (by decide) ?_ []
    · rwa [List.append_nil, ← List.flatMap_def] at hblocks
    · intro b hb
      obtain ⟨w, hw, rfl⟩ := List.mem_map.mp hb
      refine ⟨?_, readInt_bytes (hint w hw)⟩
      rw [Wagon.length_bytes, Wagon.len]
      exact Nat.le_add_right _ _
  · intro before b after heq
    obtain ⟨ws, us, rfl, -, htail⟩ := List.map_eq_append_iff.mp heq
    obtain ⟨w, vs, rfl, rfl, rfl⟩ := List.map_eq_cons_iff.mp htail
    have hw : w.len < 2 ^ 31 := hint w (List.mem_append_right ws List.mem_cons_self)
    have hbytes : w.bytes = (intBytes w.len ++ addressBytes w.sender ++ [BitVec.ofNat 8 w.round]) ++
        w.msgs.flatMap Message.bytes := by
      simp [Wagon.bytes]
    have hdrop : (w.bytes ++ (vs.map Wagon.bytes).flatten).drop sizeofWagonHeader =
        w.msgs.flatMap Message.bytes ++ (vs.map Wagon.bytes).flatten := by
      rw [hbytes, List.append_assoc]
      exact List.drop_left' (by simp [sizeofWagonHeader])
    have hlimit : w.bytes.length - sizeofWagonHeader = (w.msgs.flatMap Message.bytes).length := by
      have hlength := congrArg List.length hbytes
      simp only [List.length_append, length_intBytes, length_addressBytes, List.length_cons,
        List.length_nil] at hlength
      rw [sizeofWagonHeader]
      omega
    refine ⟨w.msgs.map Message.bytes, ?_⟩
    rw [hdrop, hlimit]
    exact blocks_messages (fun mp hmp => (Message.len_le_len hmp).trans_lt hw) _

/-- A train with one wagon of one message. -/
def oneWagon : Train 1 where
  stamp := ⟨0, 0#8, 0⟩
  circuit := rankToAddr 0
  wagons := [⟨rankToAddr 0, 0, [⟨amBroadcast, [5#8]⟩]⟩]

theorem scan_ends_inside_oneWagon : ScansInside oneWagon.bytes := by
  have hreceive : receive 0 (fun _ => ⟨none, none⟩) ⟨oneWagon.bytes, []⟩ =
      some (.msg oneWagon.bytes, ⟨[], []⟩) := by
    decide
  have hbody : oneWagon.bytes.drop sizeofTrainHeader = oneWagon.wagons.flatMap Wagon.bytes := by
    decide
  rw [scan_ends_inside hreceive (by decide), hbody]
  exact wagonsOfMessages_bytes (by decide)

/-- A train with a wagon whose length is zero. -/
def zeroWagon : List Byte :=
  headerBytes (sizeofTrainHeader + sizeofWagonHeader) (⟨0, 0#8, 0⟩ : Stamp 1) (rankToAddr 0) ++
    List.replicate sizeofWagonHeader 0#8

/-- The loop on the wagons does not leave it. -/
theorem not_scan_ends_inside :
    receive 0 (fun _ => ⟨none, none⟩) ⟨zeroWagon, []⟩ = some (.msg zeroWagon, ⟨[], []⟩) ∧
    zeroWagon[4]? = some mtypeTrain ∧ firstWagon zeroWagon = some (some sizeofTrainHeader) ∧
    (∀ fuel, visits (nextWagon zeroWagon) fuel (some sizeofTrainHeader) = none) ∧
    ¬ ScansInside zeroWagon := by
  have hfirst : firstWagon zeroWagon = some (some sizeofTrainHeader) := by decide
  have hnext : nextWagon zeroWagon sizeofTrainHeader = some (some sizeofTrainHeader) := by decide
  have hforever : ∀ fuel, visits (nextWagon zeroWagon) fuel (some sizeofTrainHeader) = none := by
    intro fuel
    induction fuel with
    | zero => rfl
    | succ fuel ih =>
      rw [visits, hnext, Option.bind_eq_bind, Option.bind_some, ih]
      rfl
  refine ⟨by decide, by decide, hfirst, hforever, ?_⟩
  rintro ⟨first, heq, fuel, xs, hvisits, -⟩
  obtain rfl := Option.some.inj (hfirst.symm.trans heq)
  rw [hforever fuel] at hvisits
  cases hvisits

end UniformBroadcast.Trains.Framing
