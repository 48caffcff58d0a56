import UniformBroadcast.TrainFraming

/-!
# The writes on a connection

Translation of `commWritev`, and of the pieces that `sendOther` and `sendTrain` give to it. The
results of the calls of `writev` are given by a list of attempts, as those of `read`; the
connection is not aborted. `commWritev` calls `writev` again when it has been interrupted, and
only then.
-/

namespace UniformBroadcast.Trains.Framing

open LittleEndian

variable {ntr : ℕ}

/-- A call of `sendOther`, which does not send trains, or of `sendTrain`. -/
inductive Call (ntr : ℕ) where
  | other (junk : Fin sizeofBody → Byte) (type : {type : Byte // type ≠ mtypeTrain})
      (sender : Address)
  | train (lts : Lts ntr)

/-- The pieces given to `commWritev`: one for a message, and for a train its header, its wagons
and the wagon of the process. -/
def Call.iov : Call ntr → List (List Byte)
  | .other junk type sender => [(newMsg junk type.val sender).bytes]
  | .train lts =>
    [headerBytes (trainLng lts) lts.stamp lts.circuit,
      if lts.len ≠ 0 then ((lts.pWagon.getD []).flatMap Wagon.bytes).take lts.len else [],
      (ownSent lts.pWtosend).flatMap Wagon.bytes]

/-- The frame. -/
def Call.bytes : Call ntr → List Byte
  | .other junk type sender => (newMsg junk type.val sender).bytes
  | .train lts => sendTrain lts

/-- `commWritev`: the bytes that it writes, the number of which is its result. Once there are no
more attempts listed, `writev` writes all. -/
def commWritev (iov : List (List Byte)) : List Attempt → List Byte × List Attempt
  | [] => (iov.flatten, [])
  | .interrupted :: attempts => commWritev iov attempts
  | .upTo n :: attempts => (iov.flatten.take (n + 1), attempts)

/-- The bytes that successive calls write on a connection. -/
def written : List (Call ntr) → List Attempt → List Byte
  | [], _ => []
  | call :: calls, attempts =>
    let (bytes, attempts) := commWritev call.iov attempts
    bytes ++ written calls attempts

/-- The results of `writev`, without the interruptions. -/
def results : List Attempt → List ℕ
  | [] => []
  | .interrupted :: attempts => results attempts
  | .upTo n :: attempts => (n + 1) :: results attempts

/-- The first call of `writev` for a frame that is not interrupted writes all of it. -/
def WritesWhole (calls : List (Call ntr)) (attempts : List Attempt) : Prop :=
  ∀ p ∈ calls.zip (results attempts), p.1.bytes.length ≤ p.2

instance (calls : List (Call ntr)) (attempts : List Attempt) :
    Decidable (WritesWhole calls attempts) :=
  inferInstanceAs (Decidable (∀ p ∈ calls.zip (results attempts), p.1.bytes.length ≤ p.2))

/-! ## One frame -/

theorem Call.flatten_iov (call : Call ntr) : call.iov.flatten = call.bytes := by
  cases call with
  | other junk type sender => simp [Call.iov, Call.bytes]
  | train lts =>
    simp only [Call.iov, Call.bytes, sendTrain, trainLng, List.flatten_cons, List.flatten_nil,
      List.append_nil]

/-- One result that is not an interruption makes `commWritev` return. -/
theorem commWritev_spec (iov : List (List Byte)) (attempts : List Attempt) :
    results attempts = [] ∧ commWritev iov attempts = (iov.flatten, []) ∨
    ∃ r rest, results attempts = r :: results rest ∧
      commWritev iov attempts = (iov.flatten.take r, rest) := by
  induction attempts with
  | nil => exact .inl ⟨rfl, rfl⟩
  | cons attempt attempts ih =>
    cases attempt with
    | interrupted => exact ih
    | upTo n => exact .inr ⟨n + 1, attempts, rfl, rfl⟩

theorem commWritev_start (iov : List (List Byte)) (attempts : List Attempt) :
    (commWritev iov attempts).1 <+: iov.flatten := by
  rcases commWritev_spec iov attempts with ⟨-, hwrite⟩ | ⟨r, rest, -, hwrite⟩
  · rw [hwrite]
  · rw [hwrite]
    exact List.take_prefix r iov.flatten

/-! ## Many frames -/

theorem written_cons (call : Call ntr) (calls : List (Call ntr)) (attempts : List Attempt) :
    written (call :: calls) attempts = (commWritev call.iov attempts).1 ++
      written calls (commWritev call.iov attempts).2 := rfl

theorem length_written_le (calls : List (Call ntr)) (attempts : List Attempt) :
    (written calls attempts).length ≤ (calls.flatMap Call.bytes).length := by
  induction calls generalizing attempts with
  | nil => exact Nat.le_refl _
  | cons call calls ih =>
    have hhead := (commWritev_start call.iov attempts).length_le
    have hrest := ih (commWritev call.iov attempts).2
    rw [call.flatten_iov] at hhead
    rw [written_cons, List.flatMap_cons, List.length_append, List.length_append]
    omega

/-- A frame that is cut is missed at the end. -/
theorem written_cons_iff (call : Call ntr) (calls : List (Call ntr)) (attempts : List Attempt) :
    written (call :: calls) attempts = (call :: calls).flatMap Call.bytes ↔
      (commWritev call.iov attempts).1 = call.bytes ∧
        written calls (commWritev call.iov attempts).2 = calls.flatMap Call.bytes := by
  rw [written_cons, List.flatMap_cons]
  constructor
  · intro hall
    have hhead := commWritev_start call.iov attempts
    rw [call.flatten_iov] at hhead
    have hlength := congrArg List.length hall
    have hrest := length_written_le calls (commWritev call.iov attempts).2
    rw [List.length_append, List.length_append] at hlength
    have hwhole : (commWritev call.iov attempts).1 = call.bytes := by
      apply hhead.eq_of_length_le
      omega
    refine ⟨hwhole, ?_⟩
    rw [hwhole] at hall
    exact List.append_cancel_left hall
  · rintro ⟨hhead, hrest⟩
    rw [hhead, hrest]

/-- Whatever the calls and the results of `writev`, the bytes on the connection are those of the
frames exactly when each frame is written by one call of `writev`. -/
theorem frames_written (calls : List (Call ntr)) (attempts : List Attempt) :
    written calls attempts = calls.flatMap Call.bytes ↔ WritesWhole calls attempts := by
  induction calls generalizing attempts with
  | nil => simp [written, WritesWhole]
  | cons call calls ih =>
    rw [written_cons_iff, ih]
    rcases commWritev_spec call.iov attempts with ⟨hnone, hwrite⟩ | ⟨r, rest, hsome, hwrite⟩
    · rw [hwrite, WritesWhole, WritesWhole, hnone, call.flatten_iov]
      simp [results]
    · rw [hwrite, WritesWhole, WritesWhole, hsome, call.flatten_iov, List.zip_cons_cons,
        List.forall_mem_cons, List.take_eq_self_iff]

theorem mtypeInsert_ne_train : mtypeInsert ≠ mtypeTrain := by decide

/-- An `INSERT` of process 3. -/
def thirdInserts : Call 1 := .other (fun _ => 0#8) ⟨mtypeInsert, mtypeInsert_ne_train⟩
    (rankToAddr 3)

/-- Three bytes of an `INSERT` are written: the next frame does not follow a frame. -/
theorem not_frames_written :
    written [thirdInserts, thirdInserts] [.interrupted, .upTo 2] =
      [7#8, 0#8, 0#8] ++ thirdInserts.bytes ∧
    ¬ ∀ (ntr : ℕ) (calls : List (Call ntr)) (attempts : List Attempt),
      written calls attempts = calls.flatMap Call.bytes := by
  constructor
  · decide
  · intro hall
    exact absurd (hall 1 [thirdInserts] [.interrupted, .upTo 2]) (by decide)

end UniformBroadcast.Trains.Framing
