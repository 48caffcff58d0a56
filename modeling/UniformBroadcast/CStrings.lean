import Mathlib.Data.List.Basic
import Mathlib.Data.List.TakeWhile
import Mathlib.Algebra.BigOperators.Fin
import Mathlib.Algebra.Order.BigOperators.Group.Finset
import Mathlib.Tactic.Common

/-!
# Strings and lines of C

Characters are bytes and a string ends at its first null byte. Functions that read a file take
what is left of it and return what is left after them.
-/

namespace UniformBroadcast.CStrings

abbrev Char8 := BitVec 8

def newline : Char8 := 10#8

def blank : Char8 := 32#8

/-- The string that a buffer holds. -/
def cstr (buffer : List Char8) : List Char8 := buffer.takeWhile (· ≠ 0#8)

theorem cstr_of_notMem {s : List Char8} (h : 0#8 ∉ s) : cstr s = s := by
  rw [cstr, List.takeWhile_eq_self_iff]
  intro b hb
  have hne : b ≠ 0#8 := fun hzero => h (hzero ▸ hb)
  simpa using hne

/-! ## Tokens -/

/-- `strtok`: the token, and the rest of the string for the next call. -/
def strtok (delims s : List Char8) : Option (List Char8 × List Char8) :=
  match s.dropWhile (· ∈ delims) with
  | [] => none
  | b :: rest => some ((b :: rest).takeWhile (· ∉ delims),
      ((b :: rest).dropWhile (· ∉ delims)).drop 1)

section Tokens

variable {delims token : List Char8}

/-- A token and what stands from the next delimiter on. -/
theorem strtok_append (hne : token ≠ []) (hfree : ∀ b ∈ token, b ∉ delims) {rest : List Char8}
    (hrest : ∀ b ∈ rest.head?, b ∈ delims) :
    strtok delims (token ++ rest) = some (token, rest.drop 1) := by
  have hstart : (token ++ rest).dropWhile (· ∈ delims) = token ++ rest := by
    cases token with
    | nil => exact absurd rfl hne
    | cons b token =>
      rw [List.cons_append, List.dropWhile_cons_of_neg]
      simpa using hfree b List.mem_cons_self
  have htake : (token ++ rest).takeWhile (· ∉ delims) = token := by
    rw [List.takeWhile_append_of_pos (by simpa using hfree)]
    cases rest with
    | nil => simp
    | cons b rest => simp [hrest b rfl]
  have hdrop : (token ++ rest).dropWhile (· ∉ delims) = rest := by
    rw [List.dropWhile_append_of_pos (by simpa using hfree)]
    cases rest with
    | nil => rfl
    | cons b rest => simp [hrest b rfl]
  rw [strtok, hstart]
  cases htoken : token ++ rest with
  | nil => exact absurd (List.append_eq_nil_iff.mp htoken).1 hne
  | cons b s =>
    dsimp only
    rw [← htoken, htake, hdrop]

/-- A token is not empty and has no delimiter. -/
theorem strtok_token {s rest : List Char8} (h : strtok delims s = some (token, rest)) :
    token ≠ [] ∧ ∀ b ∈ token, b ∉ delims := by
  rw [strtok] at h
  split at h
  · cases h
  · rename_i b tail hdrop
    obtain ⟨rfl, -⟩ := Prod.mk.inj (Option.some.inj h)
    have hb : b ∉ delims := by
      have hhead := List.head?_dropWhile_not (· ∈ delims) s
      rw [hdrop] at hhead
      simpa using hhead
    constructor
    · simp [hb]
    · intro c hc
      simpa using List.mem_takeWhile_imp hc

/-- A token stands after some delimiters, and ends at the next one. -/
theorem strtok_eq_some_iff {s rest : List Char8} : strtok delims s = some (token, rest) ↔
    ∃ skipped after, s = skipped ++ (token ++ after) ∧ (∀ b ∈ skipped, b ∈ delims) ∧ token ≠ [] ∧
      (∀ b ∈ token, b ∉ delims) ∧ (∀ b ∈ after.head?, b ∈ delims) ∧ rest = after.drop 1 := by
  constructor
  · intro h
    obtain ⟨hne, hfree⟩ := strtok_token h
    rw [strtok] at h
    split at h
    · cases h
    · rename_i b tail hdrop
      obtain ⟨htoken, hrest⟩ := Prod.mk.inj (Option.some.inj h)
      refine ⟨s.takeWhile (· ∈ delims), (b :: tail).dropWhile (· ∉ delims), ?_, ?_, hne, hfree, ?_,
        hrest.symm⟩
      · rw [← htoken, List.takeWhile_append_dropWhile, ← hdrop, List.takeWhile_append_dropWhile]
      · intro c hc
        simpa using List.mem_takeWhile_imp hc
      · intro c hc
        have hhead := List.head?_dropWhile_not (· ∉ delims) (b :: tail)
        rw [Option.mem_def.mp hc] at hhead
        simpa using hhead
  · rintro ⟨skipped, after, rfl, hskipped, hne, hfree, hafter, rfl⟩
    have hsame : strtok delims (skipped ++ (token ++ after)) = strtok delims (token ++ after) := by
      rw [strtok, strtok, List.dropWhile_append_of_pos (by simpa using hskipped)]
    rw [hsame, strtok_append hne hfree hafter]

/-- With one delimiter, a token that something follows. -/
theorem strtok_singleton_iff {d : Char8} {s rest : List Char8} (hrest : rest ≠ []) :
    strtok [d] s = some (token, rest) ↔ ∃ skipped, s = skipped ++ (token ++ d :: rest) ∧
      (∀ b ∈ skipped, b = d) ∧ token ≠ [] ∧ d ∉ token := by
  rw [strtok_eq_some_iff]
  constructor
  · rintro ⟨skipped, after, rfl, hskipped, hne, hfree, hafter, rfl⟩
    cases after with
    | nil => exact absurd rfl hrest
    | cons b after =>
      obtain rfl := List.mem_singleton.mp (hafter b rfl)
      refine ⟨skipped, rfl, fun c hc => List.mem_singleton.mp (hskipped c hc), hne, ?_⟩
      intro hmem
      exact hfree b hmem (List.mem_singleton_self b)
  · rintro ⟨skipped, rfl, hskipped, hne, hfree⟩
    refine ⟨skipped, d :: rest, rfl, fun c hc => List.mem_singleton.mpr (hskipped c hc), hne,
      ?_, ?_, rfl⟩
    · intro c hc hmem
      exact hfree (List.mem_singleton.mp hmem ▸ hc)
    · intro c hc
      exact List.mem_singleton.mpr (Option.some.inj hc).symm

end Tokens

/-! ## Fields between blanks -/

/-- The field with a number, from 0 on, between single blanks; empty when there is none. -/
def field : ℕ → List Char8 → List Char8
  | 0, s => s.takeWhile (· ≠ blank)
  | i + 1, s => field i ((s.dropWhile (· ≠ blank)).drop 1)

theorem ne_blank {word : List Char8} (hword : blank ∉ word) :
    ∀ b ∈ word, decide (b ≠ blank) = true := by
  intro b hb
  simpa using fun heq : b = blank => hword (heq ▸ hb)

theorem field_zero_append {word : List Char8} (hword : blank ∉ word) (rest : List Char8) :
    field 0 (word ++ blank :: rest) = word := by
  rw [field, List.takeWhile_append_of_pos (ne_blank hword)]
  simp

theorem field_succ_append {word : List Char8} (hword : blank ∉ word) (i : ℕ)
    (rest : List Char8) : field (i + 1) (word ++ blank :: rest) = field i rest := by
  rw [field, List.dropWhile_append_of_pos (ne_blank hword)]
  simp

theorem field_zero_of_notMem {word : List Char8} (hword : blank ∉ word) : field 0 word = word := by
  rw [field, List.takeWhile_eq_self_iff]
  exact ne_blank hword

/-! ## Numbers -/

def isSpace (b : Char8) : Bool := b = 32#8 || (9#8 ≤ b && b ≤ 13#8)

def isDigit (b : Char8) : Bool := 48#8 ≤ b && b ≤ 57#8

/-- The number that some digits write. -/
def decimal (digits : List Char8) : ℕ := digits.foldl (fun n b => 10 * n + (b.toNat - 48)) 0

/-- What `strtol` returns at most and at least, and an `int` of it. -/
def toInt (v : ℤ) : ℤ := (BitVec.ofInt 32 (max (-2 ^ 63) (min (2 ^ 63 - 1) v))).toInt

/-- `(int) strtol(s, NULL, 10)`. -/
def atoi (s : List Char8) : ℤ :=
  match s.dropWhile (isSpace ·) with
  | [] => 0
  | b :: rest =>
    if b = 45#8 then toInt (-decimal (rest.takeWhile (isDigit ·)))
    else if b = 43#8 then toInt (decimal (rest.takeWhile (isDigit ·)))
    else toInt (decimal ((b :: rest).takeWhile (isDigit ·)))

theorem toInt_of_lt {n : ℕ} (h : n < 2 ^ 31) : toInt n = n := by
  have hmin : max (-2 ^ 63) (min (2 ^ 63 - 1) (n : ℤ)) = n := by omega
  rw [toInt, hmin, BitVec.toInt_ofInt, Int.bmod_eq_of_le (by omega) (by omega)]

/-- Blanks, a sign, digits and something else: the parts of a text that is read as a number. -/
structure IsNumeral (s white sign digits rest : List Char8) : Prop where
  parts : s = white ++ (sign ++ (digits ++ rest))
  white_space : ∀ b ∈ white, isSpace b = true
  sign_mem : sign = [] ∨ sign = [43#8] ∨ sign = [45#8]
  digits_only : ∀ b ∈ digits, isDigit b = true
  rest_head : ∀ b ∈ rest.head?, isDigit b = false
  /-- Blanks and a sign are not left to what follows. -/
  whole : sign = [] → digits = [] → ∀ b ∈ rest.head?, isSpace b = false ∧ b ≠ 43#8 ∧ b ≠ 45#8

def signed (sign : List Char8) (n : ℕ) : ℤ := if sign = [45#8] then -n else n

/-- A text is read as a number, 0 when it has no digits. -/
def IsReadAs (s : List Char8) (v : ℤ) : Prop :=
  ∃ white sign digits rest, IsNumeral s white sign digits rest ∧
    v = toInt (signed sign (decimal digits))

section Numerals

variable {s white sign digits rest : List Char8}

theorem isDigit_plain : ∀ b : Char8, isDigit b = true →
    isSpace b = false ∧ b ≠ 43#8 ∧ b ≠ 45#8 := by decide

theorem takeWhile_digits (hdigits : ∀ b ∈ digits, isDigit b = true)
    (hrest : ∀ b ∈ rest.head?, isDigit b = false) :
    (digits ++ rest).takeWhile (isDigit ·) = digits := by
  rw [List.takeWhile_append_of_pos (by simpa using hdigits)]
  cases rest with
  | nil => simp
  | cons b rest => simp [hrest b rfl]

theorem IsNumeral.atoi (h : IsNumeral s white sign digits rest) :
    atoi s = toInt (signed sign (decimal digits)) := by
  have htake := takeWhile_digits h.digits_only h.rest_head
  rw [h.parts, CStrings.atoi, List.dropWhile_append_of_pos (by simpa using h.white_space)]
  rcases h.sign_mem with rfl | rfl | rfl
  · -- without a sign the number begins with its first digit
    have hstart : ∀ b ∈ (digits ++ rest).head?, isSpace b = false ∧ b ≠ 43#8 ∧ b ≠ 45#8 := by
      intro b hb
      cases digits with
      | nil => exact h.whole rfl rfl b hb
      | cons c digits =>
        obtain rfl := Option.some.inj hb
        exact isDigit_plain c (h.digits_only c List.mem_cons_self)
    rw [List.nil_append]
    cases hnumber : digits ++ rest with
    | nil =>
      obtain ⟨rfl, -⟩ := List.append_eq_nil_iff.mp hnumber
      decide
    | cons b tail =>
      rw [hnumber] at hstart htake
      obtain ⟨hspace, hplus, hminus⟩ := hstart b rfl
      rw [List.dropWhile_cons_of_neg (by simp [hspace])]
      dsimp only
      rw [if_neg hminus, if_neg hplus, htake]
      rfl
  · rw [List.singleton_append, List.dropWhile_cons_of_neg (by decide)]
    dsimp only
    rw [if_neg (by decide), if_pos rfl, htake]
    rfl
  · rw [List.singleton_append, List.dropWhile_cons_of_neg (by decide)]
    dsimp only
    rw [if_pos rfl, htake]
    rfl

theorem exists_isNumeral (s : List Char8) :
    ∃ white sign digits rest, IsNumeral s white sign digits rest := by
  have hsplit : ∀ t : List Char8, ∃ digits rest, t = digits ++ rest ∧
      (∀ b ∈ digits, isDigit b = true) ∧ ∀ b ∈ rest.head?, isDigit b = false := by
    intro t
    refine ⟨t.takeWhile (isDigit ·), t.dropWhile (isDigit ·), ?_, ?_, ?_⟩
    · rw [List.takeWhile_append_dropWhile]
    · intro b hb
      exact List.mem_takeWhile_imp hb
    · intro b hb
      have hhead := List.head?_dropWhile_not (isDigit ·) t
      rw [Option.mem_def.mp hb] at hhead
      simpa using hhead
  have hwhite : ∀ b ∈ s.takeWhile (isSpace ·), isSpace b = true :=
    fun b hb => List.mem_takeWhile_imp hb
  have hparts : s = s.takeWhile (isSpace ·) ++ s.dropWhile (isSpace ·) :=
    List.takeWhile_append_dropWhile.symm
  have hhead := List.head?_dropWhile_not (isSpace ·) s
  generalize s.takeWhile (isSpace ·) = white at hwhite hparts
  generalize s.dropWhile (isSpace ·) = t at hparts hhead
  by_cases hsign : ∃ b u, t = b :: u ∧ (b = 43#8 ∨ b = 45#8)
  · obtain ⟨b, u, rfl, hb⟩ := hsign
    obtain ⟨digits, rest, rfl, hdigits, hrest⟩ := hsplit u
    refine ⟨white, [b], digits, rest, hparts, hwhite, ?_, hdigits, hrest, fun hnil => nomatch hnil⟩
    rcases hb with rfl | rfl
    · exact .inr (.inl rfl)
    · exact .inr (.inr rfl)
  · obtain ⟨digits, rest, rfl, hdigits, hrest⟩ := hsplit t
    refine ⟨white, [], digits, rest, hparts, hwhite, .inl rfl, hdigits, hrest, ?_⟩
    rintro - rfl b hb
    rw [List.nil_append] at hhead hsign
    cases rest with
    | nil => cases hb
    | cons c rest =>
      obtain rfl := Option.some.inj hb
      refine ⟨by simpa using hhead, ?_, ?_⟩
      · exact fun hplus => hsign ⟨c, rest, rfl, .inl hplus⟩
      · exact fun hminus => hsign ⟨c, rest, rfl, .inr hminus⟩

theorem atoi_eq_iff {v : ℤ} : atoi s = v ↔ IsReadAs s v := by
  constructor
  · rintro rfl
    obtain ⟨white, sign, digits, rest, h⟩ := exists_isNumeral s
    exact ⟨white, sign, digits, rest, h, h.atoi⟩
  · rintro ⟨white, sign, digits, rest, h, rfl⟩
    exact h.atoi

/-- Digits and what is not a digit after them. -/
theorem atoi_digits (hdigits : ∀ b ∈ digits, isDigit b = true)
    (hrest : ∀ b ∈ rest.head?, isDigit b = false) (hne : digits = [] → rest = []) :
    atoi (digits ++ rest) = toInt (decimal digits) := by
  have hwhole : digits = [] → ∀ b ∈ rest.head?, isSpace b = false ∧ b ≠ 43#8 ∧ b ≠ 45#8 := by
    intro hnil b hb
    rw [hne hnil] at hb
    cases hb
  have hnumeral : IsNumeral (digits ++ rest) [] [] digits rest :=
    ⟨rfl, fun _ hb => absurd hb List.not_mem_nil, .inl rfl, hdigits, hrest, fun _ => hwhole⟩
  rw [hnumeral.atoi, signed, if_neg (by decide)]

theorem atoi_decimal (hdigits : ∀ b ∈ digits, isDigit b = true)
    (hint : decimal digits < 2 ^ 31) : atoi digits = decimal digits := by
  have hatoi := @atoi_digits digits [] hdigits (fun _ hb => nomatch hb) fun _ => rfl
  rw [List.append_nil, toInt_of_lt hint] at hatoi
  exact hatoi

theorem decimal_concat (digits : List Char8) (b : Char8) :
    decimal (digits ++ [b]) = 10 * decimal digits + (b.toNat - 48) := by
  rw [decimal, List.foldl_append]
  rfl

/-- Without its last digit. -/
theorem decimal_dropLast (hdigits : ∀ b ∈ digits, isDigit b = true) :
    decimal digits.dropLast = decimal digits / 10 := by
  rcases List.eq_nil_or_concat digits with rfl | ⟨front, b, rfl⟩
  · rfl
  · have hb : b.toNat - 48 < 10 := by
      have hall : ∀ b : Char8, isDigit b = true → b.toNat - 48 < 10 := by decide
      exact hall b (hdigits b (by simp))
    rw [List.concat_eq_append, List.dropLast_concat, decimal_concat]
    omega

end Numerals

/-! ## Lines -/

/-- `fgets(buffer, n + 1, file)`: the characters read, none at the end of the file, and the
rest of the file. -/
def fgets : ℕ → List Char8 → List Char8 × List Char8
  | 0, file => ([], file)
  | _ + 1, [] => ([], [])
  | n + 1, b :: file =>
    if b = newline then ([b], file)
    else
      let (line, file) := fgets n file
      (b :: line, file)

theorem length_fgets (n : ℕ) (file : List Char8) :
    (fgets n file).1.length + (fgets n file).2.length = file.length := by
  induction n generalizing file with
  | zero => simp [fgets]
  | succ n ih =>
    cases file with
    | nil => rfl
    | cons b file =>
      rw [fgets]
      split
      · simp [Nat.add_comm]
      · have h := ih file
        simp only [List.length_cons]
        omega

/-- The lines of a file, each with its newline if it has one. -/
def lines : List Char8 → List (List Char8)
  | [] => []
  | b :: file =>
    if b = newline then [b] :: lines file
    else match lines file with
      | [] => [[b]]
      | line :: rest => (b :: line) :: rest

theorem ne_nil_of_mem_lines {file line : List Char8} (h : line ∈ lines file) : line ≠ [] := by
  induction file generalizing line with
  | nil => cases h
  | cons b file ih =>
    rw [lines] at h
    split at h
    · rcases List.mem_cons.mp h with rfl | h
      · exact List.cons_ne_nil b []
      · exact ih h
    · split at h
      · rw [List.mem_singleton.mp h]
        exact List.cons_ne_nil b []
      · rename_i first rest hlines
        rcases List.mem_cons.mp h with rfl | h
        · exact List.cons_ne_nil b first
        · exact ih (hlines ▸ List.mem_cons_of_mem first h)

/-- A line in pieces of at most `n + 1` characters. -/
def pieces (n : ℕ) (line : List Char8) : List (List Char8) :=
  match line with
  | [] => []
  | b :: line => (b :: line).take (n + 1) :: pieces n ((b :: line).drop (n + 1))
termination_by line.length
decreasing_by
  rw [List.length_drop, List.length_cons]
  omega

/-- What is left of a line and the lines that follow. -/
inductive Line : List Char8 → List Char8 → Prop where
  | ended (file : List Char8) : Line [newline] file
  | unended : Line [] []
  | cons {b : Char8} {line file : List Char8} (plain : b ≠ newline) (rest : Line line file) :
      Line (b :: line) file

section Lines

variable {line file : List Char8}

theorem exists_line (file : List Char8) : ∃ line rest, file = line ++ rest ∧ Line line rest := by
  induction file with
  | nil => exact ⟨[], [], rfl, .unended⟩
  | cons b file ih =>
    by_cases hb : b = newline
    · subst hb
      exact ⟨[newline], file, rfl, .ended file⟩
    · obtain ⟨line, rest, rfl, hline⟩ := ih
      exact ⟨b :: line, rest, rfl, .cons hb hline⟩

theorem lines_append (h : Line line file) (hne : line ≠ []) :
    lines (line ++ file) = line :: lines file := by
  induction h with
  | ended file => simp [lines]
  | unended => exact absurd rfl hne
  | @cons b line file plain rest ih =>
    rw [List.cons_append, lines, if_neg plain]
    cases rest with
    | unended => rfl
    | ended => rw [ih (by simp)]
    | cons => rw [ih (by simp)]

/-- `fgets` reads a line, or as much of it as the buffer takes. -/
theorem fgets_append (h : Line line file) (n : ℕ) :
    fgets n (line ++ file) = (line.take n, line.drop n ++ file) := by
  induction h generalizing n with
  | ended file =>
    cases n with
    | zero => rfl
    | succ n => simp [fgets]
  | unended => cases n <;> rfl
  | cons plain rest ih =>
    cases n with
    | zero => rfl
    | succ n => rw [List.cons_append, fgets, if_neg plain, ih]; rfl

theorem Line.drop (h : Line line file) (hne : line.drop n ≠ []) : Line (line.drop n) file := by
  induction h generalizing n with
  | ended file =>
    cases n with
    | zero => exact .ended file
    | succ n => simp at hne
  | unended => simp at hne
  | cons plain rest ih =>
    cases n with
    | zero => exact .cons plain rest
    | succ n => exact ih hne

theorem Line.dropWhile_blank (h : Line line file) : Line (line.dropWhile (· = blank)) file := by
  induction h with
  | ended file => exact .ended file
  | unended => exact .unended
  | @cons b line file plain rest ih =>
    by_cases hb : b = blank
    · rw [List.dropWhile_cons_of_pos (by simpa using hb)]
      exact ih
    · rw [List.dropWhile_cons_of_neg (by simpa using hb)]
      exact .cons plain rest

/-- A line that is followed by others ends with a newline. -/
theorem Line.getLast (h : Line line file) : line.getLast? = some newline ∨ file = [] := by
  induction h with
  | ended => exact .inl rfl
  | unended => exact .inr rfl
  | cons plain rest ih =>
    rcases ih with hlast | rfl
    · left
      rw [List.getLast?_cons, hlast]
      rfl
    · exact .inr rfl

theorem Line.notMem_dropLast (h : Line line file) : newline ∉ line.dropLast := by
  induction h with
  | ended => simp
  | unended => simp
  | @cons b line file plain rest ih =>
    cases line with
    | nil => simp
    | cons b' line =>
      rw [List.dropLast_cons_cons, List.mem_cons, not_or]
      exact ⟨plain.symm, ih⟩

end Lines

end UniformBroadcast.CStrings
