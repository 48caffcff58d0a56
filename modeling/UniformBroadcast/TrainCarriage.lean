import UniformBroadcast.TrainFrame
import UniformBroadcast.TrainStateMachine

/-!
# What a train carries on

`trainHandling` keeps a pointer to the first wagon to send on and the sum of the lengths
of all of them, and `sendTrain` writes as many bytes from the pointer on. These are the
bytes of the wagons to send on only when no other wagon stands between two of them.
-/

namespace UniformBroadcast.Trains

open LittleEndian

variable {ntr : ℕ}

/-- The process's own wagon, if it holds a message when the process handles the train. -/
def boarding (t : Train ntr) (p : Proc ntr) : List Wagon :=
  (ownWagon (nextRound t.stamp p.lts) (updateCircuit t.stamp.id t.circuit p).2).toList

/-- The wagons that the train is to carry on once a process has handled it: those of the
members of the new circuit that are not gone, not of the process and not of its
successor, then the process's own if it held a message. -/
def carriedOn (myAddress : Address) (t : Train ntr) (p : Proc ntr) : List Wagon :=
  let q := trainHandling myAddress t p
  t.wagons.filter (fun w => addrIsMember w.sender (q.lts t.stamp.id).circuit &&
    !addrIsMember w.sender q.goneProc && w.sender != myAddress && w.sender != q.succ) ++
    boarding t p

/-- The frame that the process sends is scanned into these wagons, and carries its own
length. -/
def CarriesOn (myAddress : Address) (t : Train ntr) (p : Proc ntr) : Prop :=
  let frame := sendTrain ((trainHandling myAddress t p).lts t.stamp.id)
  scan frame = some ((carriedOn myAddress t p).map Wagon.bytes) ∧
    readInt frame = some (frame.length : ℤ)

instance (myAddress : Address) (t : Train ntr) (p : Proc ntr) :
    Decidable (CarriesOn myAddress t p) := inferInstanceAs (Decidable (_ ∧ _))

/-- The wagons of the received train that are sent on, from the values of the process
when it begins to handle it. -/
def sentOn (myAddress : Address) (t : Train ntr) (p : Proc ntr) : Wagon → Bool :=
  let (circuit, q) := updateCircuit t.stamp.id t.circuit p
  isSentOn myAddress p.succ circuit q.goneProc

/-- From the first wagon that is sent on, no wagon that is not stands before one that is. -/
def SentTogether (sentOn : Wagon → Bool) (wagons : List Wagon) : Prop :=
  wagons.filter sentOn <+: wagons.dropWhile (!sentOn ·)

instance (sentOn : Wagon → Bool) (wagons : List Wagon) : Decidable (SentTogether sentOn wagons) :=
  inferInstanceAs (Decidable (_ <+: _))

section Handling

variable (my : Address) (t : Train ntr) (p : Proc ntr)

/-- The last train sent, when a train has been handled. -/
theorem trainHandling_lts : (trainHandling my t p).lts t.stamp.id =
    ⟨⟨t.stamp.id, t.stamp.lc + 1, nextRound t.stamp p.lts⟩,
      (updateCircuit t.stamp.id t.circuit p).1, fromFirst (sentOn my t p) t.wagons,
      wagonsLen (t.wagons.filter (sentOn my t p)),
      ownWagon (nextRound t.stamp p.lts) (updateCircuit t.stamp.id t.circuit p).2⟩ := by
  have hsucc := updateCircuit_succ t.stamp.id t.circuit p
  simp only [trainHandling, sortWagons_spec, Function.update_self, Option.none_or, Nat.zero_add,
    ownWagon, sentOn, hsucc]

theorem trainHandling_lts_of_ne {my : Address} {t : Train ntr} {p : Proc ntr} {id : Fin ntr}
    (h : id ≠ t.stamp.id) : (trainHandling my t p).lts id = p.lts id := by
  have hlts : (updateCircuit t.stamp.id t.circuit p).2.lts = p.lts := by
    rw [updateCircuit]
    split <;> rfl
  simp only [trainHandling, setAt, Function.update_of_ne h, hlts]

theorem trainHandling_goneProc : (trainHandling my t p).goneProc =
    (updateCircuit t.stamp.id t.circuit p).2.goneProc := rfl

theorem carriedOn_eq : carriedOn my t p = t.wagons.filter (sentOn my t p) ++ boarding t p := by
  have hsent : sentOn my t p = fun w =>
      addrIsMember w.sender (updateCircuit t.stamp.id t.circuit p).1 &&
      !addrIsMember w.sender (updateCircuit t.stamp.id t.circuit p).2.goneProc &&
      w.sender != my && w.sender != p.succ := by
    funext w
    have hcomm : (p.succ != w.sender) = (w.sender != p.succ) := bne_comm
    simp only [sentOn, isSentOn, isRecorded, hcomm]
  rw [carriedOn, trainHandling_lts, trainHandling_succ, trainHandling_goneProc, hsent]

theorem sentOn_congr {v w : Wagon} (h : v.sender = w.sender) :
    sentOn my t p v = sentOn my t p w := by
  simp only [sentOn, isSentOn, isRecorded, h]

end Handling

/-! ## The bytes sent on -/

theorem filter_dropWhile (keep : Wagon → Bool) (wagons : List Wagon) :
    (wagons.dropWhile (!keep ·)).filter keep = wagons.filter keep := by
  induction wagons with
  | nil => rfl
  | cons w wagons ih =>
    cases h : keep w with
    | true => rw [List.dropWhile_cons_of_neg (by simp [h])]
    | false => rw [List.dropWhile_cons_of_pos (by simp [h]), ih,
      List.filter_cons_of_neg (by simp [h])]

theorem wagonsLen_filter_le (keep : Wagon → Bool) (wagons : List Wagon) :
    wagonsLen (wagons.filter keep) ≤ wagonsLen wagons := by
  induction wagons with
  | nil => exact Nat.le_refl _
  | cons w wagons ih =>
    rw [List.filter_cons, wagonsLen_cons]
    split
    · rw [wagonsLen_cons]
      exact Nat.add_le_add_left ih _
    · exact ih.trans (Nat.le_add_left _ _)

section Frame

variable {my : Address} {t : Train ntr} {p : Proc ntr}

/-- The bytes that `sendTrain` takes from the received frame. -/
def piece (my : Address) (t : Train ntr) (p : Proc ntr) : List Byte :=
  ((t.wagons.dropWhile (!sentOn my t p ·)).flatMap Wagon.bytes).take
    (wagonsLen (t.wagons.filter (sentOn my t p)))

theorem length_piece : (piece my t p).length = wagonsLen (t.wagons.filter (sentOn my t p)) := by
  have hle := wagonsLen_filter_le (sentOn my t p) (t.wagons.dropWhile (!sentOn my t p ·))
  rw [filter_dropWhile] at hle
  rw [piece, List.length_take, length_wagonsBytes, Nat.min_eq_left hle]

/-- The bytes are those of the wagons to send on exactly when these stand together. -/
theorem piece_eq_iff : piece my t p = (t.wagons.filter (sentOn my t p)).flatMap Wagon.bytes ↔
    SentTogether (sentOn my t p) t.wagons := by
  have htell : ∀ v w : Wagon, sentOn my t p v = true → sentOn my t p w = false →
      v.bytes.take 6 ≠ w.bytes.take 6 := by
    intro v w hv hw h
    rw [sentOn_congr my t p (sender_of_take h), hw] at hv
    cases hv
  have hlen : ∀ w : Wagon, 6 ≤ w.bytes.length := by
    intro w
    rw [Wagon.length_bytes, Wagon.len, sizeofWagonHeader]
    omega
  have hiff := flatMap_filter_prefix_iff Wagon.bytes (sentOn my t p) hlen htell
    (t.wagons.dropWhile (!sentOn my t p ·))
  rw [filter_dropWhile, List.prefix_iff_eq_take, length_wagonsBytes] at hiff
  rw [SentTogether, ← hiff, piece]
  exact eq_comm

theorem sendTrain_trainHandling : ∃ st circuit, sendTrain ((trainHandling my t p).lts t.stamp.id) =
    headerBytes (sizeofTrainHeader + wagonsLen (carriedOn my t p)) (st : Stamp ntr) circuit ++
      (piece my t p ++ (boarding t p).flatMap Wagon.bytes) := by
  have hpiece : (if wagonsLen (t.wagons.filter (sentOn my t p)) ≠ 0 then
      (((fromFirst (sentOn my t p) t.wagons).getD []).flatMap Wagon.bytes).take
        (wagonsLen (t.wagons.filter (sentOn my t p))) else []) = piece my t p := by
    rw [fromFirst_getD]
    split
    · rfl
    · rename_i hzero
      rw [piece, not_not.mp hzero, List.take_zero]
  refine ⟨⟨t.stamp.id, t.stamp.lc + 1, nextRound t.stamp p.lts⟩,
    (updateCircuit t.stamp.id t.circuit p).1, ?_⟩
  rw [trainHandling_lts, sendTrain]
  simp only [hpiece, ownSent_ownWagon]
  rw [carriedOn_eq, wagonsLen_append, Nat.add_assoc]
  rfl

end Frame

/-- The frame sent is the one expected exactly when the wagons to send on stand together
in the received train and the length of the frame is an `int`. -/
theorem carriesOn_iff (my : Address) (t : Train ntr) (p : Proc ntr) : CarriesOn my t p ↔
    SentTogether (sentOn my t p) t.wagons ∧
      sizeofTrainHeader + wagonsLen (t.wagons.filter (sentOn my t p) ++ boarding t p) < 2 ^ 31 := by
  obtain ⟨st, circuit, hframe⟩ := @sendTrain_trainHandling _ my t p
  have hcarried := carriedOn_eq my t p
  rw [CarriesOn, hframe, ← hcarried]
  generalize boarding t p = own at *
  have hlength : (headerBytes (sizeofTrainHeader + wagonsLen (carriedOn my t p)) st circuit ++
      (piece my t p ++ own.flatMap Wagon.bytes)).length =
      sizeofTrainHeader + wagonsLen (carriedOn my t p) := by
    rw [List.length_append, List.length_append, length_headerBytes, length_piece,
      length_wagonsBytes, hcarried, wagonsLen_append]
  have hread : readInt (headerBytes (sizeofTrainHeader + wagonsLen (carriedOn my t p)) st circuit ++
      (piece my t p ++ own.flatMap Wagon.bytes)) =
        some ((sizeofTrainHeader + wagonsLen (carriedOn my t p) : ℕ) : ℤ) ↔
      sizeofTrainHeader + wagonsLen (carriedOn my t p) < 2 ^ 31 := by
    rw [headerBytes, List.append_assoc, List.append_assoc]
    exact readInt_eq_iff _ _
  constructor
  · rintro ⟨hscan, hlen⟩
    rw [hlength, hread] at hlen
    refine ⟨?_, hlen⟩
    have hint : ∀ v ∈ carriedOn my t p, v.len < 2 ^ 31 := by
      intro v hv
      have hle := Wagon.len_le_wagonsLen hv
      omega
    have hfound := wagons_of_scan hint hscan
    rw [List.drop_left' (length_headerBytes _ st circuit), hcarried, List.flatMap_append] at hfound
    have hsame := hfound.eq_of_length (by
      rw [List.length_append, List.length_append, length_piece, length_wagonsBytes])
    have hpiece : (t.wagons.filter (sentOn my t p)).flatMap Wagon.bytes = piece my t p :=
      List.append_inj_left hsame (by rw [length_piece, length_wagonsBytes])
    exact piece_eq_iff.mp hpiece.symm
  · rintro ⟨htogether, hint⟩
    have hpiece := piece_eq_iff.mpr htogether
    have hparts : headerBytes (sizeofTrainHeader + wagonsLen (carriedOn my t p)) st circuit ++
        (piece my t p ++ own.flatMap Wagon.bytes) =
        headerBytes (sizeofTrainHeader + wagonsLen (carriedOn my t p)) st circuit ++
          (carriedOn my t p).flatMap Wagon.bytes := by
      rw [hpiece, hcarried, List.flatMap_append]
    rw [hlength, hread]
    refine ⟨scan_of_readInt hparts ?_ ?_, hint⟩
    · rw [hlength, hread]
      exact hint
    · rw [hlength]
      exact hint

/-- A process `a` between `d` and `b` whose successor is `c` since `b` crashed, all with
clocks at their initial values. -/
def bypassing (conf : Config) (h : 0 < ntr) (c circuit : Address) : Proc ntr :=
  { Proc.initial conf h with
    automatonState := .several
    succ := c
    lts := fun id => ⟨⟨id, 0#8, 0⟩, circuit, none, 0, none⟩ }

/-- The train that comes to `a` when each of the three others has put a wagon on it. -/
def comingRound (h : 0 < ntr) (b c d circuit : Address) (mp : Message) : Train ntr :=
  ⟨⟨⟨0, h⟩, 1#8, 0⟩, circuit, [⟨b, 0, [mp]⟩, ⟨c, 0, [mp]⟩, ⟨d, 0, [mp]⟩]⟩

/-- The wagon of `c` stands between those of `b` and `d`, and goes in the place of the
last. -/
theorem not_carriesOn : ¬ ∀ (ntr : ℕ) (conf : Config) (t : Train ntr) (p : Proc ntr),
    p.automatonState = .several → addrIsMember conf.myAddress t.circuit = true →
    isRecentTrain t.stamp p.lts p.lis = true → t.bytes.length < 2 ^ 31 →
    CarriesOn conf.myAddress t p := by
  intro h
  have hcarries := h 1 ⟨1#16, 0, 64⟩ (comingRound Nat.one_pos 2#16 4#16 8#16 15#16
    ⟨amBroadcast, [5#8]⟩)
    (bypassing ⟨1#16, 0, 64⟩ Nat.one_pos 4#16 15#16) rfl (by decide) (by decide) (by decide)
  revert hcarries
  decide

end UniformBroadcast.Trains
