import UniformBroadcast.TrainAddressFile
import Mathlib.Data.List.Forall2

/-!
# The documented lines of the file of addresses

A line that is neither empty nor a comment should be `RANK:HOSTNAME:PORT`, followed at most by
a comment. `strtok` passes over repeated delimiters, `atoi` makes a number of any text, what
follows the port is not looked at, and the rest of a comment that does not fit the buffer is
taken for a line. The lines that pass for documented ones are described by their text, and the
calls of `strtok` and `atoi` are shown to find them.
-/

namespace UniformBroadcast.Trains.AddressFile

open CStrings

structure Participant where
  rank : Fin np
  ip : List Char8
  chan : List Char8
  deriving DecidableEq, Repr

/-- No rank and no pair of hostname and port occurs twice. -/
def Distinct (qs : List Participant) : Prop :=
  (qs.map Participant.rank).Nodup ∧ (qs.map fun q => (q.ip, q.chan)).Nodup

/-! ## What is documented -/

/-- A line without the spaces at its beginning. -/
def strip (line : List Char8) : List Char8 := line.dropWhile (· = blank)

def isParticipantLine : List Char8 → Bool
  | [] => false
  | b :: _ => b ≠ newline ∧ b ≠ hash

/-- The lines that are neither empty nor comments. -/
def participantLines (file : List Char8) : List (List Char8) :=
  ((lines file).map strip).filter isParticipantLine

/-- `RANK:HOSTNAME:PORT`, then blanks and a comment at most. -/
structure HasForm (line rankStr ip chan tail : List Char8) : Prop where
  parts : line = rankStr ++ colon :: (ip ++ colon :: (chan ++ tail))
  rank_ne : rankStr ≠ []
  digits : ∀ b ∈ rankStr, isDigit b = true
  ip_ne : ip ≠ []
  ip_plain : colon ∉ ip
  chan_ne : chan ≠ []
  chan_plain : ∀ b ∈ chan, b ∉ portDelims
  comment : ∀ b ∈ (strip tail).head?, b = hash ∨ b = newline

/-- The line documents the participant. -/
def Documents (line : List Char8) (q : Participant) : Prop :=
  ∃ rankStr tail, HasForm line rankStr q.ip q.chan tail ∧ decimal rankStr = q.rank.val ∧
    q.ip.length ≤ 63 ∧ q.chan.length ≤ 63

def IsDocumented (file : List Char8) : Prop :=
  ∃ qs, List.Forall₂ Documents (participantLines file) qs ∧ Distinct qs

/-- The file is read to its end or refused, it is accepted when it is documented, and each
participant then stands at its rank and nothing elsewhere. -/
def ReadAsDocumented (gethostname : Option (List Char8)) (file : List Char8) : Prop :=
  (addrGenerator gethostname file).isSome ∧
  ((∃ array, addrGenerator gethostname file = some (.ok array)) ↔ IsDocumented file) ∧
    ∀ array, addrGenerator gethostname file = some (.ok array) → ∀ i,
      (∀ line ∈ participantLines file, ∀ q, Documents line q → q.rank = i →
        array i = ⟨q.ip, q.chan⟩) ∧
      ((∀ line ∈ participantLines file, ∀ q, Documents line q → q.rank ≠ i) →
        array i = ⟨[], []⟩)

/-! ## What is read -/

theorem length_strip_le (line : List Char8) : (strip line).length ≤ line.length :=
  (List.dropWhile_sublist _).length_le

/-- The lines that are taken for those of participants: the rest of a comment longer than the
buffer is a line. -/
def linesRead (line : List Char8) : List (List Char8) :=
  match line with
  | [] => []
  | b :: line =>
    if b = newline then []
    else if b = hash then linesRead (strip ((b :: line).drop (maxLenLineInFile - 1)))
    else [b :: line]
termination_by line.length
decreasing_by
  have hstrip := length_strip_le ((b :: line).drop (maxLenLineInFile - 1))
  have hdrop : ((b :: line).drop (maxLenLineInFile - 1)).length < (b :: line).length := by
    rw [List.length_drop, maxLenLineInFile, List.length_cons]
    omega
  exact hstrip.trans_lt hdrop

def fileRead (file : List Char8) : List (List Char8) :=
  (lines file).flatMap fun line => linesRead (strip line)

/-- What stands in a line between delimiters, however many there are, whatever follows. -/
structure HasLooseForm (line rankStr ip chan : List Char8) : Prop where
  parts : ∃ colons colons' delims tail,
    line = colons ++
      (rankStr ++ colon :: (colons' ++ (ip ++ colon :: (delims ++ (chan ++ tail))))) ∧
      (∀ b ∈ colons ++ colons', b = colon) ∧ (∀ b ∈ delims, b ∈ portDelims) ∧
      ∀ b ∈ tail.head?, b ∈ portDelims
  rank_ne : rankStr ≠ []
  rank_plain : colon ∉ rankStr
  ip_ne : ip ≠ []
  ip_plain : colon ∉ ip
  chan_ne : chan ≠ []
  chan_plain : ∀ b ∈ chan, b ∉ portDelims

/-- The line passes for one that documents the participant. -/
def Suggests (line : List Char8) (q : Participant) : Prop :=
  ∃ rankStr, HasLooseForm line rankStr q.ip q.chan ∧ IsReadAs rankStr q.rank.val ∧
    q.ip.length ≤ 63 ∧ q.chan.length ≤ 63

/-- The lines, and the rests of comments among them, all fit the buffer and pass for documented
ones. -/
def IsLoose (file : List Char8) : Prop :=
  ∃ qs, List.Forall₂ (fun line q => line.length < maxLenLineInFile ∧ Suggests line q)
    (fileRead file) qs ∧ Distinct qs

/-- No hostname is that of the process itself. -/
def NoLocalhost (file : List Char8) : Prop :=
  ∀ line ∈ fileRead file, ∀ q, Suggests line q → q.ip ≠ localhost

/-- What `fgets` reads from here on does not start with a byte that looks like `EOF`; a line of a
participant holds no null byte, and no such byte just after the buffer. -/
def Clean (line : List Char8) : Prop :=
  match line with
  | [] => True
  | b :: line =>
    b ≠ eof ∧
      if b = newline then True
      else if b = hash then Clean (strip ((b :: line).drop (maxLenLineInFile - 1)))
      else 0#8 ∉ b :: line ∧ ((b :: line).drop (maxLenLineInFile - 1)).head? ≠ some eof
termination_by line.length
decreasing_by
  have hstrip := length_strip_le ((b :: line).drop (maxLenLineInFile - 1))
  have hdrop : ((b :: line).drop (maxLenLineInFile - 1)).length < (b :: line).length := by
    rw [List.length_drop, maxLenLineInFile, List.length_cons]
    omega
  exact hstrip.trans_lt hdrop

def IsClean (file : List Char8) : Prop := ∀ line ∈ lines file, Clean (strip line)

/-- No rest of a comment is taken for a line, and each line fits the buffer and has the form
documented, of which the rank is an `int`. -/
def IsPlain (file : List Char8) : Prop :=
  fileRead file = participantLines file ∧ ∀ line ∈ participantLines file,
    line.length < maxLenLineInFile ∧ ∃ rankStr ip chan tail,
      HasForm line rankStr ip chan tail ∧ decimal rankStr < 2 ^ 31

/-! ## One line -/

/-- The participant that `strtok` and `atoi` find in a line. -/
def participantOf (line : List Char8) : Option Participant :=
  (strtok [colon] line).bind fun (rankStr, rest) =>
    (strtok [colon] rest).bind fun (ip, rest) =>
      (strtok portDelims rest).bind fun (chan, _) =>
        if h : atoi rankStr < 0 ∨ atoi rankStr ≥ 16 then none
        else if ip.length ≥ maxLenIp ∨ chan.length ≥ maxLenChan then none
        else some ⟨⟨(atoi rankStr).toNat, toNat_lt_np h⟩, ip, chan⟩

/-- The line fits the buffer and a participant is found in it. -/
def Reads (line : List Char8) (q : Participant) : Prop :=
  line.length < maxLenLineInFile ∧ participantOf line = some q

section Loose

variable {line rankStr ip chan : List Char8} {q : Participant}

/-- The three calls of `strtok`. -/
theorem hasLooseForm_iff : HasLooseForm line rankStr ip chan ↔
    ∃ rest₁ rest₂ rest₃, strtok [colon] line = some (rankStr, rest₁) ∧
      strtok [colon] rest₁ = some (ip, rest₂) ∧ strtok portDelims rest₂ = some (chan, rest₃) := by
  constructor
  · intro h
    obtain ⟨colons, colons', delims, tail, hline, hcolons, hdelims, htail⟩ := h.parts
    refine ⟨_, _, tail.drop 1, (strtok_singleton_iff ?_).mpr ⟨colons, hline, ?_, h.rank_ne,
      h.rank_plain⟩, (strtok_singleton_iff ?_).mpr ⟨colons', rfl, ?_, h.ip_ne, h.ip_plain⟩, ?_⟩
    · simp [h.ip_ne]
    · exact fun b hb => hcolons b (List.mem_append_left _ hb)
    · simp [h.chan_ne]
    · exact fun b hb => hcolons b (List.mem_append_right _ hb)
    · exact strtok_eq_some_iff.mpr ⟨delims, tail, rfl, hdelims, h.chan_ne, h.chan_plain, htail, rfl⟩
  · rintro ⟨rest₁, rest₂, rest₃, hfirst, hsecond, hthird⟩
    have hne₁ : rest₁ ≠ [] := by
      rintro rfl
      cases hsecond
    have hne₂ : rest₂ ≠ [] := by
      rintro rfl
      cases hthird
    obtain ⟨colons, rfl, hcolons, hrank, hrankPlain⟩ := (strtok_singleton_iff hne₁).mp hfirst
    obtain ⟨colons', rfl, hcolons', hip, hipPlain⟩ := (strtok_singleton_iff hne₂).mp hsecond
    obtain ⟨delims, tail, rfl, hdelims, hchan, hchanPlain, htail, -⟩ :=
      strtok_eq_some_iff.mp hthird
    refine ⟨⟨colons, colons', delims, tail, rfl, ?_, hdelims, htail⟩, hrank, hrankPlain, hip,
      hipPlain, hchan, hchanPlain⟩
    intro b hb
    exact (List.mem_append.mp hb).elim (hcolons b) (hcolons' b)

theorem participantOf_eq_some_iff : participantOf line = some q ↔ Suggests line q := by
  constructor
  · intro hq
    obtain ⟨⟨rankStr, rest₁⟩, hfirst, hq⟩ := Option.bind_eq_some_iff.mp hq
    obtain ⟨⟨ip, rest₂⟩, hsecond, hq⟩ := Option.bind_eq_some_iff.mp hq
    obtain ⟨⟨chan, rest₃⟩, hthird, hq⟩ := Option.bind_eq_some_iff.mp hq
    dsimp only at hq
    split at hq
    · cases hq
    · rename_i hrange
      split at hq
      · cases hq
      · rename_i hlong
        rw [maxLenIp, maxLenChan] at hlong
        cases hq
        refine ⟨rankStr, hasLooseForm_iff.mpr ⟨rest₁, rest₂, rest₃, hfirst, hsecond, hthird⟩,
          atoi_eq_iff.mp ?_, ?_, ?_⟩
        · dsimp only
          omega
        · dsimp only
          omega
        · dsimp only
          omega
  · rintro ⟨rankStr, hform, hread, hip, hchan⟩
    obtain ⟨rest₁, rest₂, rest₃, hfirst, hsecond, hthird⟩ := hasLooseForm_iff.mp hform
    have hrank := atoi_eq_iff.mpr hread
    have hlt : q.rank.val < 16 := q.rank.isLt
    simp only [participantOf, hfirst, hsecond, hthird, Option.bind_some, hrank]
    rw [dif_neg (by omega), if_neg (by rw [maxLenIp, maxLenChan]; omega)]
    congr

theorem forall₂_reads_iff {read : List (List Char8)} {qs : List Participant} :
    List.Forall₂ (fun line q => line.length < maxLenLineInFile ∧ Suggests line q) read qs ↔
      List.Forall₂ Reads read qs := by
  have hsame : (fun line q => line.length < maxLenLineInFile ∧ Suggests line q) = Reads := by
    funext line q
    rw [Reads, participantOf_eq_some_iff]
  rw [hsame]

theorem noLocalhost_iff {file : List Char8} : NoLocalhost file ↔
    ∀ line ∈ fileRead file, ∀ q ∈ participantOf line, q.ip ≠ localhost := by
  refine forall_congr' fun line => imp_congr_right fun _ => forall_congr' fun q => ?_
  rw [Option.mem_def, participantOf_eq_some_iff]

end Loose

section Line

variable {line file rankStr ip chan tail : List Char8} {q : Participant}

theorem HasForm.tail_head (h : HasForm line rankStr ip chan tail) :
    ∀ b ∈ tail.head?, b ∈ portDelims := by
  intro b hb
  cases tail with
  | nil => cases hb
  | cons c tail =>
    obtain rfl := Option.some.inj hb
    by_cases hblank : c = blank
    · rw [hblank]
      decide
    · have hcomment := h.comment
      rw [strip, List.dropWhile_cons_of_neg (by simpa using hblank)] at hcomment
      rcases hcomment c rfl with rfl | rfl
      · decide
      · decide

theorem HasForm.tokens (h : HasForm line rankStr ip chan tail) :
    strtok [colon] line = some (rankStr, ip ++ colon :: (chan ++ tail)) ∧
      strtok [colon] (ip ++ colon :: (chan ++ tail)) = some (ip, chan ++ tail) ∧
      strtok portDelims (chan ++ tail) = some (chan, tail.drop 1) := by
  have hcolon : ∀ rest : List Char8, ∀ b ∈ (colon :: rest).head?, b ∈ [colon] := by
    intro rest b hb
    rw [← Option.some.inj hb]
    exact List.mem_singleton_self _
  have hrank : ∀ b ∈ rankStr, b ∉ [colon] := by
    intro b hb hmem
    have hdigit := h.digits b hb
    rw [List.mem_singleton.mp hmem] at hdigit
    revert hdigit
    decide
  have hip : ∀ b ∈ ip, b ∉ [colon] := by
    intro b hb hmem
    exact h.ip_plain (List.mem_singleton.mp hmem ▸ hb)
  refine ⟨?_, ?_, strtok_append h.chan_ne h.chan_plain h.tail_head⟩
  · rw [h.parts]
    exact strtok_append h.rank_ne hrank (hcolon _)
  · exact strtok_append h.ip_ne hip (hcolon _)

theorem HasForm.atoi (h : HasForm line rankStr ip chan tail) (hint : decimal rankStr < 2 ^ 31) :
    atoi rankStr = decimal rankStr := atoi_decimal h.digits hint

/-- What `strtok` and `atoi` make of a line of the form documented. -/
theorem HasForm.participantOf (h : HasForm line rankStr ip chan tail)
    (hint : decimal rankStr < 2 ^ 31) : participantOf line = some q ↔
      decimal rankStr = q.rank.val ∧ ip = q.ip ∧ chan = q.chan ∧
        ip.length ≤ 63 ∧ chan.length ≤ 63 := by
  obtain ⟨hfirst, hsecond, hthird⟩ := h.tokens
  simp only [AddressFile.participantOf, hfirst, hsecond, hthird, Option.bind_some, h.atoi hint]
  cases q with
  | mk rank ip' chan' =>
    have hlt : rank.val < 16 := rank.isLt
    constructor
    · intro hq
      split at hq
      · cases hq
      · split at hq
        · cases hq
        · rename_i hlong
          rw [maxLenIp, maxLenChan] at hlong
          cases hq
          refine ⟨by simp, rfl, rfl, by omega, by omega⟩
    · rintro ⟨hrank, rfl, rfl, hip, hchan⟩
      dsimp only at hrank
      rw [dif_neg (by omega), if_neg (by rw [maxLenIp, maxLenChan]; omega)]
      congr

theorem Documents.participantOf (h : Documents line q) : participantOf line = some q := by
  obtain ⟨rankStr, tail, hform, hrank, hip, hchan⟩ := h
  have hlt : q.rank.val < 16 := q.rank.isLt
  exact (hform.participantOf (by omega)).mpr ⟨hrank, rfl, rfl, hip, hchan⟩

theorem HasForm.documents (h : HasForm line rankStr ip chan tail)
    (hint : decimal rankStr < 2 ^ 31) (hq : AddressFile.participantOf line = some q) :
    Documents line q := by
  obtain ⟨hrank, rfl, rfl, hip, hchan⟩ := (h.participantOf hint).mp hq
  exact ⟨rankStr, tail, h, hrank, hip, hchan⟩

end Line

/-! ## The loop -/

/-- The line of a participant is read. -/
def addLine (gethostname : Option (List Char8)) (l : AddrList) (line : List Char8) :
    Option AddrList :=
  if line.length < maxLenLineInFile then
    (participantOf line).bind fun q =>
      if l.alreadyExist q.rank then none
      else (addParticipant gethostname q.rank q.ip q.chan l).toOption
  else none

section Loop

variable {gethostname : Option (List Char8)} {line file : List Char8} {l : AddrList}

/-- The checks of a string that holds a line. -/
theorem toOption_readParticipant {string : List Char8} {blank c : Char8}
    (hstring : cstr string = string) (hlast : string.getLast? = some c)
    (hend : c = newline ∨ blank = eof) :
    (readParticipant gethostname string blank l).toOption =
      (participantOf string).bind fun q => if l.alreadyExist q.rank then none
        else (addParticipant gethostname q.rank q.ip q.chan l).toOption := by
  have hfits : ¬ (c ≠ newline ∧ blank ≠ eof) := by
    rintro ⟨hc, hblank⟩
    exact hend.elim hc hblank
  rw [readParticipant, hstring, hlast, participantOf]
  cases hfirst : strtok [colon] string with
  | none => rfl
  | some token =>
    obtain ⟨rankStr, rest⟩ := token
    dsimp only
    rw [if_neg hfits, Option.bind_some]
    dsimp only
    cases hsecond : strtok [colon] rest with
    | none => split <;> rfl
    | some token =>
      obtain ⟨ip, rest⟩ := token
      simp only [Option.map_some, Option.getD_some, Option.bind_some]
      cases hthird : strtok portDelims rest with
      | none => split <;> rfl
      | some token =>
        obtain ⟨chan, rest⟩ := token
        dsimp only
        rw [Option.bind_some]
        dsimp only
        split
        · rfl
        · by_cases hip : ip.length ≥ maxLenIp
          · rw [if_pos hip, if_pos (.inl hip)]
            rfl
          · by_cases hchan : chan.length ≥ maxLenChan
            · rw [if_neg hip, if_pos hchan, if_pos (.inr hchan)]
              rfl
            · rw [if_neg hip, if_neg hchan, if_neg (not_or.mpr ⟨hip, hchan⟩), Option.bind_some]
              split <;> rfl

theorem toOption_readParticipant_of_long {string : List Char8} {blank c : Char8}
    (hstring : cstr string = string) (hlast : string.getLast? = some c) (hend : c ≠ newline)
    (hblank : blank ≠ eof) : (readParticipant gethostname string blank l).toOption = none := by
  rw [readParticipant, hstring, hlast]
  cases hfirst : strtok [colon] string with
  | none => rfl
  | some token =>
    dsimp only
    rw [if_pos ⟨hend, hblank⟩]
    rfl

/-- A line that fits the buffer is read whole, and only the beginning of a longer one, which is
refused. -/
theorem readParticipant_line (h : Line line file) (hne : line ≠ []) (hnull : 0#8 ∉ line)
    (hcut : (line.drop (maxLenLineInFile - 1)).head? ≠ some eof) :
    (readParticipant gethostname (line.take (maxLenLineInFile - 1))
      (fgetc (line.drop (maxLenLineInFile - 1) ++ file)).1 l).toOption =
      addLine gethostname l line := by
  rw [addLine]
  by_cases hfits : line.length < maxLenLineInFile
  · have htake : line.take (maxLenLineInFile - 1) = line :=
      List.take_of_length_le (Nat.le_sub_one_of_lt hfits)
    have hdrop : line.drop (maxLenLineInFile - 1) = [] :=
      List.drop_of_length_le (Nat.le_sub_one_of_lt hfits)
    rw [if_pos hfits, htake, hdrop, List.nil_append]
    refine toOption_readParticipant (cstr_of_notMem hnull) (List.getLast?_eq_some_getLast hne) ?_
    rcases h.getLast with hlast | rfl
    · left
      rw [List.getLast?_eq_some_getLast hne] at hlast
      exact Option.some.inj hlast
    · exact .inr rfl
  · rw [if_neg hfits]
    have hlong : maxLenLineInFile - 1 < line.length := by
      rw [maxLenLineInFile] at *
      omega
    have htake : line.take (maxLenLineInFile - 1) ≠ [] := by
      rw [← List.length_pos_iff, List.length_take, maxLenLineInFile]
      omega
    have hsub : (line.take (maxLenLineInFile - 1)).Sublist line.dropLast := by
      rw [List.dropLast_eq_take]
      exact (List.take_prefix_take_left (by omega)).sublist
    have hplain : (line.take (maxLenLineInFile - 1)).getLast htake ≠ newline := by
      intro heq
      exact h.notMem_dropLast (hsub.subset (heq ▸ List.getLast_mem htake))
    refine toOption_readParticipant_of_long (cstr_of_notMem ?_)
      (List.getLast?_eq_some_getLast htake) hplain ?_
    · exact fun hmem => hnull (List.mem_of_mem_take hmem)
    · cases hdrop : line.drop (maxLenLineInFile - 1) with
      | nil =>
        have hlength := List.drop_eq_nil_iff.mp hdrop
        omega
      | cons b rest =>
        rintro rfl
        exact hcut (by rw [hdrop]; rfl)

/-! ### The lines read -/

theorem Clean.head {b : Char8} (h : Clean (b :: line)) : b ≠ eof := by
  rw [Clean] at h
  exact h.1

theorem deleteBlanks_line (h : Line line file) (hclean : Clean (strip line)) :
    deleteBlanks (line ++ file) = strip line ++ file := by
  induction h with
  | ended file => rfl
  | unended => rfl
  | @cons b line file plain rest ih =>
    rw [strip] at hclean
    rw [List.cons_append, deleteBlanks, strip]
    by_cases hb : b = blank
    · rw [List.dropWhile_cons_of_pos (by simpa using hb)] at hclean ⊢
      rw [if_pos hb]
      exact ih hclean
    · rw [List.dropWhile_cons_of_neg (by simpa using hb)] at hclean ⊢
      rw [if_neg hb, ungetc, if_neg hclean.head]
      rfl

theorem isClean_line (h : Line line file) :
    IsClean (line ++ file) ↔ Clean (strip line) ∧ IsClean file := by
  cases line with
  | nil =>
    cases h
    simp [IsClean, lines, strip, Clean]
  | cons b line =>
    rw [IsClean, lines_append h (List.cons_ne_nil b line), List.forall_mem_cons]
    exact Iff.rfl

theorem isClean_drop (h : Line line file) {n : ℕ} (hclean : Clean (strip (line.drop n)))
    (hfile : IsClean file) : IsClean (line.drop n ++ file) := by
  by_cases hne : line.drop n = []
  · rw [hne]
    exact hfile
  · exact (isClean_line (h.drop hne)).mpr ⟨hclean, hfile⟩

/-- The character after a line is put back. -/
theorem ungetc_fgetc (hclean : IsClean file) : ungetc (fgetc file).1 (fgetc file).2 = file := by
  cases file with
  | nil => rfl
  | cons b file =>
    refine if_neg ?_
    rintro rfl
    obtain ⟨line, rest, hfile, hline⟩ := exists_line (eof :: file)
    cases line with
    | nil => cases hline; cases hfile
    | cons c line =>
      obtain ⟨rfl, -⟩ := List.cons.inj hfile
      rw [hfile, isClean_line hline, strip, List.dropWhile_cons_of_neg (by decide)] at hclean
      exact hclean.1.head rfl

theorem fileRead_line (h : Line line file) :
    fileRead (line ++ file) = linesRead (strip line) ++ fileRead file := by
  cases line with
  | nil =>
    cases h
    simp [strip, linesRead]
  | cons b line => rw [fileRead, lines_append h (List.cons_ne_nil b line)]; rfl

theorem fileRead_drop (h : Line line file) (n : ℕ) :
    fileRead (line.drop n ++ file) = linesRead (strip (line.drop n)) ++ fileRead file := by
  by_cases hne : line.drop n = []
  · simp [hne, strip, linesRead]
  · exact fileRead_line (h.drop hne)

variable (gethostname) in
theorem readLines_fileRead {n currentLine : ℕ} (hn : file.length < n) (hclean : IsClean file) :
    (readLines gethostname n currentLine (deleteBlanks file) l).map Except.toOption =
      some ((fileRead file).foldlM (addLine gethostname) l) := by
  induction n generalizing currentLine file l with
  | zero => exact absurd hn (Nat.not_lt_zero _)
  | succ n ih =>
    obtain ⟨line, rest, rfl, hline⟩ := exists_line file
    have hstrip : Line (strip line) rest := hline.dropWhile_blank
    have hlength := length_strip_le line
    obtain ⟨hfirst, hrest⟩ := (isClean_line hline).mp hclean
    rw [List.length_append] at hn
    rw [deleteBlanks_line hline hfirst, fileRead_line hline, readLines, fgets_append hstrip]
    generalize strip line = line' at *
    cases line' with
    | nil =>
      cases hstrip
      rw [linesRead]
      rfl
    | cons b line' =>
      have htake : (b :: line').take (maxLenLineInFile - 1) =
          b :: line'.take (maxLenLineInFile - 2) := rfl
      have hdrop : ((b :: line').drop (maxLenLineInFile - 1)).length ≤ line'.length := by
        rw [List.length_drop, List.length_cons, maxLenLineInFile]
        omega
      rw [List.length_cons] at hlength
      have hnext := fileRead_drop hstrip (maxLenLineInFile - 1)
      rw [Clean] at hfirst
      rw [linesRead, htake]
      dsimp only
      by_cases hnewline : b = newline
      · subst hnewline
        cases hstrip with
        | ended => exact @ih rest l (currentLine + 1) (by omega) hrest
        | cons plain => exact absurd rfl plain
      · by_cases hhash : b = hash
        · rw [if_neg hnewline, if_pos hhash] at hfirst
          rw [if_neg (by simp [hhash]), if_neg hnewline, if_pos hhash, ← hnext]
          refine ih ?_ (isClean_drop hstrip hfirst.2 hrest)
          rw [List.length_append]
          omega
        · rw [if_neg hnewline, if_neg hhash] at hfirst
          obtain ⟨-, hnull, hcut⟩ := hfirst
          rw [if_pos ⟨hhash, hnewline⟩, if_neg hnewline, if_neg hhash, List.singleton_append,
            List.foldlM_cons]
          have hparticipant := @readParticipant_line gethostname _ rest l hstrip
            (List.cons_ne_nil b line') hnull hcut
          rw [htake] at hparticipant
          rw [← hparticipant]
          cases hresult : readParticipant gethostname (b :: line'.take (maxLenLineInFile - 2))
              (fgetc ((b :: line').drop (maxLenLineInFile - 1) ++ rest)).1 l with
          | error e => rfl
          | ok l' =>
            have hwhole : (b :: line').drop (maxLenLineInFile - 1) = [] := by
              rw [hresult, addLine] at hparticipant
              split at hparticipant
              · rename_i hfits
                exact List.drop_of_length_le (Nat.le_sub_one_of_lt hfits)
              · cases hparticipant
            rw [hwhole, List.nil_append, ungetc_fgetc hrest]
            exact ih (by omega) hrest

end Loop

/-! ## The array -/

/-- The participants stand at their ranks and all other cells are empty. -/
structure Lists (l : AddrList) (qs : List Participant) : Prop where
  listed : ∀ q ∈ qs, l.alreadyExist q.rank = true ∧ l.array q.rank = ⟨q.ip, q.chan⟩
  empty : ∀ i, i ∉ qs.map Participant.rank → l.alreadyExist i = false ∧ l.array i = ⟨[], []⟩

theorem lists_initAddrList : Lists initAddrList [] :=
  ⟨fun _ hq => absurd hq List.not_mem_nil, fun _ _ => ⟨rfl, rfl⟩⟩

theorem distinct_concat {qs : List Participant} {q : Participant} : Distinct (qs ++ [q]) ↔
    Distinct qs ∧ q.rank ∉ qs.map Participant.rank ∧
      (q.ip, q.chan) ∉ qs.map fun q => (q.ip, q.chan) := by
  have hconcat : ∀ {α : Type} (f : Participant → α),
      ((qs ++ [q]).map f).Nodup ↔ (qs.map f).Nodup ∧ f q ∉ qs.map f := by
    intro α f
    rw [List.map_append, List.map_singleton, ← List.concat_eq_append, List.nodup_concat,
      and_comm]
  rw [Distinct, Distinct, hconcat, hconcat]
  tauto

theorem Distinct.of_append {qs qs' : List Participant} (h : Distinct (qs ++ qs')) :
    Distinct qs := by
  rw [Distinct, List.map_append, List.map_append] at h
  exact ⟨h.1.of_append_left, h.2.of_append_left⟩

theorem ip_ne_of_participantOf {line : List Char8} {q : Participant}
    (h : participantOf line = some q) : q.ip ≠ [] := by
  obtain ⟨⟨rankStr, rest⟩, -, h⟩ := Option.bind_eq_some_iff.mp h
  obtain ⟨⟨ip, rest⟩, hip, h⟩ := Option.bind_eq_some_iff.mp h
  obtain ⟨⟨chan, rest⟩, -, h⟩ := Option.bind_eq_some_iff.mp h
  dsimp only at h
  split at h
  · cases h
  · split at h
    · cases h
    · cases h
      exact (strtok_token hip).1

section Array

variable {gethostname : Option (List Char8)} {line : List Char8} {l l' : AddrList}
  {qs : List Participant} {q : Participant}

/-- The array with one participant more. -/
def AddrList.place (l : AddrList) (q : Participant) : AddrList where
  array := Function.update l.array q.rank ⟨q.ip, q.chan⟩
  alreadyExist := Function.update l.alreadyExist q.rank true

theorem Lists.place (h : Lists l qs) (hrank : q.rank ∉ qs.map Participant.rank) :
    Lists (l.place q) (qs ++ [q]) := by
  constructor
  · intro q' hq'
    rcases List.mem_append.mp hq' with hq' | hq'
    · have hne : q'.rank ≠ q.rank := fun heq => hrank (heq ▸ List.mem_map_of_mem hq')
      simpa [AddrList.place, hne] using h.listed q' hq'
    · obtain rfl := List.mem_singleton.mp hq'
      simp [AddrList.place]
  · intro i hi
    rw [List.map_append, List.mem_append, not_or] at hi
    have hne : i ≠ q.rank := fun heq => hi.2 (List.mem_singleton.mpr heq)
    simpa [AddrList.place, hne] using h.empty i hi.1

theorem Lists.alreadyExist_iff (h : Lists l qs) (i : Fin np) :
    l.alreadyExist i = true ↔ i ∈ qs.map Participant.rank := by
  constructor
  · intro hi
    by_contra hnot
    rw [(h.empty i hnot).1] at hi
    cases hi
  · intro hi
    obtain ⟨q, hq, rfl⟩ := List.mem_map.mp hi
    exact (h.listed q hq).1

theorem Lists.participant_iff (h : Lists l qs) (hip : q.ip ≠ []) :
    (∃ i, (l.array i).ip = q.ip ∧ (l.array i).chan = q.chan) ↔
      (q.ip, q.chan) ∈ qs.map fun q => (q.ip, q.chan) := by
  constructor
  · rintro ⟨i, hi, hchan⟩
    by_cases hrank : i ∈ qs.map Participant.rank
    · obtain ⟨q', hq', rfl⟩ := List.mem_map.mp hrank
      rw [(h.listed q' hq').2] at hi hchan
      exact List.mem_map.mpr ⟨q', hq', Prod.ext hi hchan⟩
    · rw [(h.empty i hrank).2] at hi
      exact absurd hi.symm hip
  · intro hmem
    obtain ⟨q', hq', hpair⟩ := List.mem_map.mp hmem
    obtain ⟨hi, hchan⟩ := Prod.mk.inj hpair
    refine ⟨q'.rank, ?_⟩
    rw [(h.listed q' hq').2]
    exact ⟨hi, hchan⟩

variable (gethostname) in
/-- A line is read when its participant is a new one. -/
theorem Lists.addLine (h : Lists l qs) (hqs : Distinct qs)
    (hlocal : ∀ q ∈ participantOf line, q.ip ≠ localhost) :
    addLine gethostname l line = some l' ↔
      ∃ q, Reads line q ∧ Distinct (qs ++ [q]) ∧ l' = l.place q := by
  have hstep : ∀ q, participantOf line = some q →
      ((if l.alreadyExist q.rank then none
        else (addParticipant gethostname q.rank q.ip q.chan l).toOption) = some l' ↔
        Distinct (qs ++ [q]) ∧ l' = l.place q) := by
    intro q hq
    have hrank := h.alreadyExist_iff q.rank
    have hpair := h.participant_iff (ip_ne_of_participantOf hq)
    rw [distinct_concat, ← hrank, ← hpair, addParticipant, if_neg (hlocal q hq)]
    dsimp only
    by_cases hexist : l.alreadyExist q.rank
    · simp [hexist]
    · by_cases hsame : ∃ i, (l.array i).ip = q.ip ∧ (l.array i).chan = q.chan
      · rw [if_neg hexist, if_pos hsame]
        simp [hsame, Except.toOption]
      · rw [if_neg hexist, if_neg hsame]
        constructor
        · intro heq
          cases heq
          exact ⟨⟨hqs, hexist, hsame⟩, rfl⟩
        · rintro ⟨-, rfl⟩
          rfl
  rw [AddressFile.addLine]
  by_cases hfits : line.length < maxLenLineInFile
  · rw [if_pos hfits, Option.bind_eq_some_iff]
    constructor
    · rintro ⟨q, hq, hadd⟩
      exact ⟨q, ⟨hfits, hq⟩, (hstep q hq).mp hadd⟩
    · rintro ⟨q, ⟨-, hq⟩, hadd⟩
      exact ⟨q, hq, (hstep q hq).mpr hadd⟩
  · rw [if_neg hfits]
    simp [Reads, hfits]

theorem foldlM_addLine {read : List (List Char8)} {r : AddrList} (h : Lists l qs)
    (hqs : Distinct qs)
    (hlocal : ∀ line ∈ read, ∀ q ∈ participantOf line, q.ip ≠ localhost)
    (hfold : read.foldlM (AddressFile.addLine gethostname) l = some r) :
    ∃ qs', List.Forall₂ Reads read qs' ∧ Distinct (qs ++ qs') ∧ Lists r (qs ++ qs') := by
  induction read generalizing l qs with
  | nil =>
    obtain rfl := Option.some.inj hfold
    refine ⟨[], .nil, ?_, ?_⟩
    · rw [List.append_nil]
      exact hqs
    · rw [List.append_nil]
      exact h
  | cons line read ih =>
    obtain ⟨l', hline, hrest⟩ := Option.bind_eq_some_iff.mp hfold
    obtain ⟨q, hreads, hdistinct, rfl⟩ :=
      (h.addLine gethostname hqs (hlocal line List.mem_cons_self)).mp hline
    obtain ⟨qs', hqs', hall, hlists⟩ := ih (h.place (distinct_concat.mp hdistinct).2.1) hdistinct
      (fun line hline => hlocal line (List.mem_cons_of_mem _ hline)) hrest
    refine ⟨q :: qs', .cons hreads hqs', ?_, ?_⟩
    · rw [List.append_cons]
      exact hall
    · rw [List.append_cons]
      exact hlists

variable (gethostname) in
theorem foldlM_addLine_isSome {read : List (List Char8)} {qs' : List Participant}
    (h : Lists l qs) (hlocal : ∀ line ∈ read, ∀ q ∈ participantOf line, q.ip ≠ localhost)
    (hreads : List.Forall₂ Reads read qs') (hdistinct : Distinct (qs ++ qs')) :
    (read.foldlM (AddressFile.addLine gethostname) l).isSome := by
  induction hreads generalizing l qs with
  | nil => rfl
  | @cons line q read qs' hline _ ih =>
    rw [List.append_cons] at hdistinct
    have hfirst := hdistinct.of_append
    have hadd := (h.addLine gethostname (distinct_concat.mp hfirst).1
      (hlocal line List.mem_cons_self)).mpr ⟨q, hline, hfirst, rfl⟩
    rw [List.foldlM_cons, hadd]
    exact ih (h.place (distinct_concat.mp hfirst).2.1)
      (fun line hline => hlocal line (List.mem_cons_of_mem _ hline)) hdistinct

end Array

/-! ## The file -/

section File

variable {gethostname : Option (List Char8)} {file : List Char8} {qs : List Participant}

/-- A file is accepted when all its lines pass for documented ones, and only then; its
participants stand in the array. -/
theorem addrGenerator_lists (hclean : IsClean file) (hlocal : NoLocalhost file)
    {array : Fin np → Addr} (h : addrGenerator gethostname file = some (.ok array)) :
    ∃ qs, List.Forall₂ Reads (fileRead file) qs ∧ Distinct qs ∧
      (∀ q ∈ qs, array q.rank = ⟨q.ip, q.chan⟩) ∧
      ∀ i, i ∉ qs.map Participant.rank → array i = ⟨[], []⟩ := by
  obtain ⟨result, hlines, hcells⟩ := Option.map_eq_some_iff.mp h
  cases result with
  | error e => cases hcells
  | ok l =>
    have hfold := @readLines_fileRead gethostname file initAddrList _ 0 (Nat.lt_succ_self _) hclean
    rw [hlines] at hfold
    obtain ⟨qs, hreads, hdistinct, hlists⟩ := foldlM_addLine lists_initAddrList
      ⟨List.nodup_nil, List.nodup_nil⟩ (noLocalhost_iff.mp hlocal) (Option.some.inj hfold).symm
    obtain rfl : emptyCells l = array := Except.ok.inj hcells
    refine ⟨qs, hreads, hdistinct, ?_, ?_⟩
    · intro q hq
      obtain ⟨hexist, hq⟩ := hlists.listed q hq
      rw [emptyCells, if_pos hexist]
      exact hq
    · intro i hi
      have hempty := (hlists.empty i hi).1
      rw [emptyCells, if_neg (by simp [hempty])]

theorem addrGenerator_accepts (hclean : IsClean file) (hlocal : NoLocalhost file)
    (h : IsLoose file) : ∃ array, addrGenerator gethostname file = some (.ok array) := by
  obtain ⟨qs, hreads, hdistinct⟩ := h
  have hsome := foldlM_addLine_isSome gethostname lists_initAddrList (noLocalhost_iff.mp hlocal)
    (forall₂_reads_iff.mp hreads) hdistinct
  obtain ⟨l, hl⟩ := Option.isSome_iff_exists.mp hsome
  have hfold := @readLines_fileRead gethostname file initAddrList _ 0 (Nat.lt_succ_self _) hclean
  rw [hl] at hfold
  obtain ⟨result, hlines, hresult⟩ := Option.map_eq_some_iff.mp hfold
  cases result with
  | error e => cases hresult
  | ok l' =>
    refine ⟨emptyCells l', ?_⟩
    rw [addrGenerator, hlines]
    rfl

/-- The lines of the participants are among those read. -/
theorem participantLines_sublist (file : List Char8) :
    (participantLines file).Sublist (fileRead file) := by
  rw [participantLines, fileRead]
  induction lines file with
  | nil => exact .slnil
  | cons line rest ih =>
    rw [List.map_cons, List.flatMap_cons, List.filter_cons]
    split
    · rename_i hline
      have hread : linesRead (strip line) = [strip line] := by
        revert hline
        generalize strip line = line
        intro hline
        cases line with
        | nil => cases hline
        | cons b line =>
          have hb : b ≠ newline ∧ b ≠ hash := by simpa [isParticipantLine] using hline
          rw [linesRead, if_neg hb.1, if_neg hb.2]
      rw [hread]
      exact ih.cons_cons _
    · exact List.sublist_append_of_sublist_right ih

theorem exists_of_forall₂ {α β : Type} {R : α → β → Prop} {as : List α} {bs : List β}
    (h : List.Forall₂ R as bs) : (∀ a ∈ as, ∃ b ∈ bs, R a b) ∧ ∀ b ∈ bs, ∃ a ∈ as, R a b := by
  rw [List.forall₂_iff_get] at h
  obtain ⟨hlength, hget⟩ := h
  constructor
  · intro a ha
    obtain ⟨i, hi, rfl⟩ := List.mem_iff_getElem.mp ha
    exact ⟨bs[i], List.getElem_mem _, hget i hi (hlength ▸ hi)⟩
  · intro b hb
    obtain ⟨i, hi, rfl⟩ := List.mem_iff_getElem.mp hb
    exact ⟨as[i], List.getElem_mem _, hget i (hlength ▸ hi) hi⟩

theorem IsPlain.isLoose (hplain : IsPlain file) (h : IsDocumented file) : IsLoose file := by
  obtain ⟨qs, hdocuments, hdistinct⟩ := h
  refine ⟨qs, forall₂_reads_iff.mpr ?_, hdistinct⟩
  rw [hplain.1]
  have hboth := (List.forall₂_and_left _ _).mpr ⟨hplain.2, hdocuments⟩
  exact hboth.imp fun line q h => ⟨h.1.1, h.2.participantOf⟩

theorem IsPlain.documents (hplain : IsPlain file)
    (hreads : List.Forall₂ Reads (fileRead file) qs) :
    List.Forall₂ Documents (participantLines file) qs := by
  rw [hplain.1] at hreads
  have hboth := (List.forall₂_and_left _ _).mpr ⟨hplain.2, hreads⟩
  refine hboth.imp ?_
  rintro line q ⟨⟨-, rankStr, ip, chan, tail, hform, hint⟩, -, hq⟩
  exact hform.documents hint hq

/-- An array that lists the participants read, and only those documented, has been read from
plain lines. -/
theorem isPlain_of_documented {array : Fin np → Addr}
    (hreads : List.Forall₂ Reads (fileRead file) qs) (hdistinct : Distinct qs)
    (hlisted : ∀ q ∈ qs, array q.rank = ⟨q.ip, q.chan⟩) (hdocumented : IsDocumented file)
    (hempty : ∀ i, (∀ line ∈ participantLines file, ∀ q, Documents line q → q.rank ≠ i) →
      array i = ⟨[], []⟩) : IsPlain file := by
  obtain ⟨qs', hdocuments, -⟩ := hdocumented
  have hranks : qs.map Participant.rank ⊆ qs'.map Participant.rank := by
    intro i hi
    obtain ⟨q, hq, rfl⟩ := List.mem_map.mp hi
    by_contra hnot
    have hcell := hempty q.rank (by
      intro line hline q' hq' hrank
      obtain ⟨q'', hmem, hq''⟩ := (exists_of_forall₂ hdocuments).1 line hline
      have hsame := Option.some.inj (hq'.participantOf.symm.trans hq''.participantOf)
      exact hnot (List.mem_map.mpr ⟨q'', hmem, hsame ▸ hrank⟩))
    obtain ⟨line, -, hread⟩ := (exists_of_forall₂ hreads).2 q hq
    rw [hlisted q hq] at hcell
    exact ip_ne_of_participantOf hread.2 (Addr.mk.inj hcell).1
  have hlength := (hdistinct.1.subperm hranks).length_le
  rw [List.length_map, List.length_map, ← hreads.length_eq, ← hdocuments.length_eq] at hlength
  have hsame := (participantLines_sublist file).eq_of_length_le hlength
  refine ⟨hsame.symm, ?_⟩
  intro line hline
  obtain ⟨q, -, hread⟩ := (exists_of_forall₂ hreads).1 line (hsame ▸ hline)
  obtain ⟨q', -, rankStr, tail, hform, hrank, -⟩ := (exists_of_forall₂ hdocuments).1 line hline
  have hlt : q'.rank.val < 16 := q'.rank.isLt
  exact ⟨hread.1, rankStr, q'.ip, q'.chan, tail, hform, by omega⟩

/-- A file is read as documented exactly when it has plain lines, or is neither documented nor
passes for it. -/
theorem addrGenerator_as_documented (hclean : IsClean file) (hlocal : NoLocalhost file) :
    ReadAsDocumented gethostname file ↔ IsPlain file ∨ ¬ IsDocumented file ∧ ¬ IsLoose file := by
  constructor
  · rintro ⟨-, haccepts, hcells⟩
    by_cases haccepted : ∃ array, addrGenerator gethostname file = some (.ok array)
    · obtain ⟨array, harray⟩ := haccepted
      obtain ⟨qs, hreads, hdistinct, hlisted, -⟩ := addrGenerator_lists hclean hlocal harray
      exact .inl (isPlain_of_documented hreads hdistinct hlisted (haccepts.mp ⟨array, harray⟩)
        fun i => (hcells array harray i).2)
    · refine .inr ⟨fun hdocumented => haccepted (haccepts.mpr hdocumented), ?_⟩
      exact fun hloose => haccepted (addrGenerator_accepts hclean hlocal hloose)
  · intro h
    -- a file that is accepted has plain lines
    have hplain : ∀ qs, List.Forall₂ Reads (fileRead file) qs → Distinct qs → IsPlain file := by
      intro qs hreads hdistinct
      exact h.resolve_right fun hnot => hnot.2 ⟨qs, forall₂_reads_iff.mpr hreads, hdistinct⟩
    refine ⟨addrGenerator_ends gethostname file, ?_, ?_⟩
    · constructor
      · rintro ⟨array, harray⟩
        obtain ⟨qs, hreads, hdistinct, -⟩ := addrGenerator_lists hclean hlocal harray
        exact ⟨qs, (hplain qs hreads hdistinct).documents hreads, hdistinct⟩
      · intro hdocumented
        have hlines := h.resolve_right fun hnot => hnot.1 hdocumented
        exact addrGenerator_accepts hclean hlocal (hlines.isLoose hdocumented)
    · intro array harray i
      obtain ⟨qs, hreads, hdistinct, hlisted, hempty⟩ := addrGenerator_lists hclean hlocal harray
      have hdocuments := (hplain qs hreads hdistinct).documents hreads
      constructor
      · rintro line hline q hq rfl
        obtain ⟨q', hmem, hq'⟩ := (exists_of_forall₂ hdocuments).1 line hline
        obtain rfl := Option.some.inj (hq.participantOf.symm.trans hq'.participantOf)
        exact hlisted q hmem
      · intro hnone
        apply hempty
        intro hi
        obtain ⟨q, hq, hrank⟩ := List.mem_map.mp hi
        obtain ⟨line, hline, hdocument⟩ := (exists_of_forall₂ hdocuments).2 q hq
        exact hnone line hline q hdocument hrank

end File

/-- `"3:ab:80 #c\n# \xff\0\n"`. -/
def commentedFile : List Char8 :=
  [51#8, 58#8, 97#8, 98#8, 58#8, 56#8, 48#8, 32#8, 35#8, 99#8, 10#8, 35#8, 32#8, 255#8, 0#8, 10#8]

theorem commentedFile_as_documented : ReadAsDocumented none commentedFile := by
  have hlines : participantLines commentedFile = [commentedFile.take 11] := by decide
  have hread : fileRead commentedFile = [commentedFile.take 11] := by
    simp [fileRead, commentedFile, lines, strip, linesRead, newline, blank, hash, maxLenLineInFile]
  have hclean : IsClean commentedFile := by
    simp [IsClean, commentedFile, lines, strip, Clean, newline, blank, hash, eof, maxLenLineInFile]
  have hlocal : NoLocalhost commentedFile := by
    rw [noLocalhost_iff, hread]
    decide
  have hform : HasForm (commentedFile.take 11) [51#8] [97#8, 98#8] [56#8, 48#8]
      [32#8, 35#8, 99#8, 10#8] := by
    constructor <;> decide
  refine (addrGenerator_as_documented hclean hlocal).mpr (.inl ⟨hread.trans hlines.symm, ?_⟩)
  rw [hlines]
  intro line hline
  obtain rfl := List.mem_singleton.mp hline
  exact ⟨by decide, _, _, _, _, hform, by decide⟩

/-- `"a:h:80"`. -/
def lettersForRank : List Char8 := [97#8, 58#8, 104#8, 58#8, 56#8, 48#8]

/-- `"\xff0:h:80"`. -/
def startsLikeEof : List Char8 := [255#8, 48#8, 58#8, 104#8, 58#8, 56#8, 48#8]

/-- `"0:h:80#\0\n1:g:81"`. -/
def nullInComment : List Char8 :=
  [48#8, 58#8, 104#8, 58#8, 56#8, 48#8, 35#8, 0#8, 10#8, 49#8, 58#8, 103#8, 58#8, 56#8, 49#8]

/-- A line that does not start with a digit is not documented. -/
theorem not_isDocumented {file line : List Char8} {b : Char8}
    (hlines : participantLines file = [b :: line]) (hb : isDigit b = false) :
    ¬ IsDocumented file := by
  rintro ⟨qs, hdocuments, -⟩
  rw [hlines] at hdocuments
  cases hdocuments with
  | cons hdocument =>
    obtain ⟨rankStr, tail, hform, -⟩ := hdocument
    cases rankStr with
    | nil => exact hform.rank_ne rfl
    | cons c rankStr =>
      obtain ⟨rfl, -⟩ := List.cons.inj hform.parts
      rw [hform.digits b List.mem_cons_self] at hb
      cases hb

theorem accepts_of_isSome {gethostname : Option (List Char8)} {file : List Char8}
    (h : ((addrGenerator gethostname file).bind Except.toOption).isSome) :
    ∃ array, addrGenerator gethostname file = some (.ok array) := by
  obtain ⟨array, harray⟩ := Option.isSome_iff_exists.mp h
  obtain ⟨result, hresult, hok⟩ := Option.bind_eq_some_iff.mp harray
  cases result with
  | error e => cases hok
  | ok array' => exact ⟨array', hresult⟩

/-- A rank that is not a number is read as 0. So is a line after a byte that looks like `EOF`, and
a null byte in a comment makes its line too long. -/
theorem not_addrGenerator_as_documented :
    (¬ ∀ (gethostname : Option (List Char8)) (file : List Char8), IsClean file →
      NoLocalhost file → ReadAsDocumented gethostname file) ∧
    ¬ ReadAsDocumented none startsLikeEof ∧ ¬ ReadAsDocumented none nullInComment := by
  refine ⟨?_, ?_, ?_⟩
  · intro h
    have hread : fileRead lettersForRank = [lettersForRank] := by
      simp [fileRead, lettersForRank, lines, strip, linesRead, newline, blank, hash]
    have hclean : IsClean lettersForRank := by
      simp [IsClean, lettersForRank, lines, strip, Clean, newline, blank, hash, eof,
        maxLenLineInFile]
    have hlocal : NoLocalhost lettersForRank := by
      rw [noLocalhost_iff, hread]
      decide
    have haccepted := @accepts_of_isSome none lettersForRank (by decide)
    exact @not_isDocumented lettersForRank lettersForRank.tail 97#8 (by decide) (by decide)
      ((h none lettersForRank hclean hlocal).2.1.mp haccepted)
  · intro h
    have haccepted := @accepts_of_isSome none startsLikeEof (by decide)
    exact @not_isDocumented startsLikeEof startsLikeEof.tail 255#8 (by decide) (by decide)
      (h.2.1.mp haccepted)
  · intro h
    have hlines : participantLines nullInComment =
        [nullInComment.take 9, nullInComment.drop 9] := by decide
    have hfirst : HasForm (nullInComment.take 9) [48#8] [104#8] [56#8, 48#8] [35#8, 0#8, 10#8] := by
      constructor <;> decide
    have hsecond : HasForm (nullInComment.drop 9) [49#8] [103#8] [56#8, 49#8] [] := by
      constructor <;> decide
    have hdocumented : IsDocumented nullInComment := by
      refine ⟨[⟨⟨0, by decide⟩, [104#8], [56#8, 48#8]⟩, ⟨⟨1, by decide⟩, [103#8], [56#8, 49#8]⟩],
        ?_, by decide, by decide⟩
      rw [hlines]
      exact .cons ⟨_, _, hfirst, by decide, by decide, by decide⟩
        (.cons ⟨_, _, hsecond, by decide, by decide, by decide⟩ .nil)
    obtain ⟨array, harray⟩ := h.2.1.mpr hdocumented
    have hrefused : ((addrGenerator none nullInComment).bind Except.toOption).isNone := by decide
    rw [harray] at hrefused
    cases hrefused

end UniformBroadcast.Trains.AddressFile
