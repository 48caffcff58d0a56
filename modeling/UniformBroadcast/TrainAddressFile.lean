import UniformBroadcast.CStrings
import UniformBroadcast.TrainAddress

/-!
# The file of addresses

Translation of `addrGenerator` in `management_addr.c`, which fills the array of the addresses
of the participants. `EOF` in a `char` is the byte 255.
-/

namespace UniformBroadcast.Trains.AddressFile

open CStrings

/-- `MAX_LEN_LINE_IN_FILE`. -/
def maxLenLineInFile : ℕ := 1024

/-- `MAX_LEN_IP`. -/
def maxLenIp : ℕ := 64

/-- `MAX_LEN_CHAN`. -/
def maxLenChan : ℕ := 64

def colon : Char8 := 58#8

def hash : Char8 := 35#8

/-- `EOF` stored in a `char`. -/
def eof : Char8 := 255#8

/-- The delimiters of the third token of a line. -/
def portDelims : List Char8 := [colon, newline, blank, hash]

/-- `ADDR`; the connections are left out. -/
structure Addr where
  ip : List Char8
  chan : List Char8
  deriving DecidableEq, Repr

/-- `array` and `alreadyExist`. -/
structure AddrList where
  array : Fin np → Addr
  alreadyExist : Fin np → Bool

/-- `initAddrList`. -/
def initAddrList : AddrList := ⟨fun _ => ⟨[], []⟩, fun _ => false⟩

/-- Why `addrGenerator` exits. -/
inductive AddrError where
  | lineTooLong
  | rank
  | syntaxError
  | hostnameTooLong
  | portTooLong
  | rankExists
  | participantExists
  | hostname
  /-- `atoi(NULL)`. -/
  | noToken
  deriving DecidableEq, Repr

/-- The texts of the errors; `none` where the process does not write one of its own. -/
def AddrError.text : AddrError → Option String
  | lineTooLong => some "LINE too long (should be at most 1024 char)"
  | rank => some "RANK error : should be between 0 and 15"
  | syntaxError => some "RANK:HOSTNAME:PORT Syntax error"
  | hostnameTooLong => some "HOSTNAME too long"
  | portTooLong => some "PORT too long"
  | rankExists => some "RANK already exists in a previous line"
  | participantExists => some "This participant already exists in a previous line"
  | hostname => some "Error getting hostname"
  | noToken => none

/-- `fgetc`. -/
def fgetc : List Char8 → Char8 × List Char8
  | [] => (eof, [])
  | b :: file => (b, file)

def ungetc (b : Char8) (file : List Char8) : List Char8 := if b = eof then file else b :: file

/-- `while ((blank = fgetc(addrFile)) == ' ') {}; ungetc(blank, addrFile)`. -/
def deleteBlanks : List Char8 → List Char8
  | [] => []
  | b :: file => if b = blank then deleteBlanks file else ungetc b file

theorem toNat_lt_np {rank : ℤ} (h : ¬ (rank < 0 ∨ rank ≥ 16)) : rank.toNat < np := by
  rw [np]
  omega

/-- The bytes of `"localhost"`. -/
def localhost : List Char8 := [108#8, 111#8, 99#8, 97#8, 108#8, 104#8, 111#8, 115#8, 116#8]

section Generator

-- the result of `gethostname`
variable (gethostname : Option (List Char8))

/-- The participant of a line takes its place in the array. -/
def addParticipant (rank : Fin np) (ipOnly addrFull : List Char8) (l : AddrList) :
    Except AddrError AddrList :=
  match if ipOnly = localhost then gethostname else some ipOnly with
  | none => .error .hostname
  | some ipOnly =>
    if ∃ i, (l.array i).ip = ipOnly ∧ (l.array i).chan = addrFull then .error .participantExists
    else .ok {
      array := Function.update l.array rank ⟨ipOnly, addrFull⟩
      alreadyExist := Function.update l.alreadyExist rank true }

/-- A line that is neither a comment nor empty; `blank` is the first character after it. -/
def readParticipant (line : List Char8) (blank : Char8) (l : AddrList) :
    Except AddrError AddrList :=
  let string := cstr line
  match string.getLast?, strtok [colon] string with
  | some lastLineChar, some (rankStr, rest) =>
    let rank := atoi rankStr
    let ipOnly := strtok [colon] rest
    let addrFull := strtok portDelims ((ipOnly.map Prod.snd).getD [])
    if lastLineChar ≠ newline ∧ blank ≠ eof then .error .lineTooLong
    else if h : rank < 0 ∨ rank ≥ 16 then .error .rank
    else match ipOnly, addrFull with
      | some (ipOnly, _), some (addrFull, _) =>
        if ipOnly.length ≥ maxLenIp then .error .hostnameTooLong
        else if addrFull.length ≥ maxLenChan then .error .portTooLong
        else if l.alreadyExist ⟨rank.toNat, toNat_lt_np h⟩ then .error .rankExists
        else addParticipant gethostname ⟨rank.toNat, toNat_lt_np h⟩ ipOnly addrFull l
      | _, _ => .error .syntaxError
  | _, _ => .error .noToken

/-- The loop over the lines, at most `n` of them, else `none`; an error comes with the number
of its line. -/
def readLines : ℕ → ℕ → List Char8 → AddrList → Option (Except (ℕ × AddrError) AddrList)
  | 0, _, _, _ => none
  | n + 1, currentLine, file, l =>
    match fgets (maxLenLineInFile - 1) file with
    | ([], _) => some (.ok l)
    | (b :: line, file) =>
      if b ≠ hash ∧ b ≠ newline then
        let (blank, file) := fgetc file
        match readParticipant gethostname (b :: line) blank l with
        | .error e => some (.error (currentLine + 1, e))
        | .ok l => readLines n (currentLine + 1) (deleteBlanks (ungetc blank file)) l
      else readLines n (currentLine + 1) (deleteBlanks file) l

/-- A fake participant in the empty cells of the array. -/
def emptyCells (l : AddrList) : Fin np → Addr :=
  fun i => if l.alreadyExist i then l.array i else ⟨[], []⟩

def addrGenerator (file : List Char8) : Option (Except (ℕ × AddrError) (Fin np → Addr)) :=
  (readLines gethostname (file.length + 1) 0 (deleteBlanks file) initAddrList).map
    (Except.map emptyCells)

end Generator

/-! ## Every file is read to its end -/

theorem length_ungetc_le (b : Char8) (file : List Char8) :
    (ungetc b file).length ≤ file.length + 1 := by
  rw [ungetc]
  split
  · exact Nat.le_succ _
  · exact Nat.le_refl _

theorem length_deleteBlanks_le (file : List Char8) :
    (deleteBlanks file).length ≤ file.length := by
  induction file with
  | nil => exact Nat.le_refl _
  | cons b file ih =>
    rw [deleteBlanks]
    split
    · exact ih.trans (Nat.le_succ _)
    · exact length_ungetc_le b file

theorem length_ungetc_fgetc_le (file : List Char8) :
    (ungetc (fgetc file).1 (fgetc file).2).length ≤ file.length := by
  cases file with
  | nil => exact Nat.le_refl _
  | cons b file => exact length_ungetc_le b file

theorem readLines_ends {gethostname : Option (List Char8)} {n currentLine : ℕ}
    {file : List Char8} {l : AddrList} (h : file.length < n) :
    (readLines gethostname n currentLine file l).isSome := by
  induction n generalizing currentLine file l with
  | zero => exact absurd h (Nat.not_lt_zero _)
  | succ n ih =>
    have hlength := length_fgets (maxLenLineInFile - 1) file
    rw [readLines]
    split
    · rfl
    · rename_i b line rest hfgets
      rw [hfgets] at hlength
      have hshort : rest.length < n := by
        simp only [List.length_cons] at hlength
        omega
      split
      · dsimp only
        split
        · rfl
        · have hunget := length_ungetc_fgetc_le rest
          have hdelete := length_deleteBlanks_le (ungetc (fgetc rest).1 (fgetc rest).2)
          exact ih (by omega)
      · have hdelete := length_deleteBlanks_le rest
        exact ih (by omega)

/-- `addrGenerator` returns or exits. -/
theorem addrGenerator_ends (gethostname : Option (List Char8)) (file : List Char8) :
    (addrGenerator gethostname file).isSome := by
  have hdelete := length_deleteBlanks_le file
  rw [addrGenerator, Option.isSome_map]
  exact readLines_ends (by omega)

end UniformBroadcast.Trains.AddressFile
