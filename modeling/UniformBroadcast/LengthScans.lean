import UniformBroadcast.LittleEndian

/-!
# Scans of blocks that tell their length

A block starts with its length, a signed number of four bytes. A scan jumps from a block to
the next one by this length, whatever it is, and stops where a jump comes to a limit. It ends,
and all the blocks it meets lie inside the bytes, exactly when the bytes are blocks up to the
limit.
-/

namespace UniformBroadcast.LengthScans

open LittleEndian

/-- The next position, or the end of the scan; `none` is a read outside the bytes. -/
def next (bytes : List Byte) (stop : ℤ) (x : ℕ) : Option (Option ℕ) := do
  let len ← readInt (bytes.drop x)
  let x2 : ℤ := x + len
  if x2 ≥ stop then return none else if x2 < 0 then none else return some x2.toNat

/-- The positions that a scan meets, when it ends within so many jumps. -/
def visits (step : ℕ → Option (Option ℕ)) : ℕ → Option ℕ → Option (List ℕ)
  | _, none => some []
  | 0, some _ => none
  | fuel + 1, some x => do
    let next ← step x
    let rest ← visits step fuel next
    return x :: rest

/-- The scan ends, and `P` holds of the positions that it meets. -/
def Ends (step : ℕ → Option (Option ℕ)) (start : Option ℕ) (P : ℕ → Prop) : Prop :=
  ∃ fuel xs, visits step fuel start = some xs ∧ ∀ x ∈ xs, P x

/-- The block at a position has at least a header, and lies inside the bytes. -/
def Inside (hdr : ℕ) (bytes : List Byte) (x : ℕ) : Prop :=
  ∃ n : ℕ, readInt (bytes.drop x) = some (n : ℤ) ∧ hdr ≤ n ∧ x + n ≤ bytes.length

/-- The blocks come to the limit, and not before the last one. -/
def Fills : ℕ → List (List Byte) → Prop
  | limit, [] => limit = 0
  | limit, b :: blocks => 0 < limit ∧ Fills (limit - b.length) blocks

/-- The positions of blocks that stand one after the other. -/
def positions : ℕ → List (List Byte) → List ℕ
  | _, [] => []
  | x, b :: blocks => x :: positions (x + b.length) blocks

/-- The bytes start with blocks that tell their lengths and come to the limit. -/
structure Blocks (hdr : ℕ) (bytes : List Byte) (limit : ℕ) (blocks : List (List Byte)) : Prop where
  starts : blocks.flatten <+: bytes
  lens : ∀ b ∈ blocks, hdr ≤ b.length ∧ readInt b = some (b.length : ℤ)
  fills : Fills limit blocks

variable {hdr limit : ℕ} {bytes : List Byte}

theorem readInt_append {b : List Byte} (hb : 4 ≤ b.length) (rest : List Byte) :
    readInt (b ++ rest) = readInt b := by
  match b, hb with
  | _ :: _ :: _ :: _ :: _, _ => rfl

theorem readInt_take {n : ℕ} (hn : 4 ≤ n) (hle : n ≤ bytes.length) :
    readInt (bytes.take n) = readInt bytes := by
  have hlength : 4 ≤ (bytes.take n).length := by
    rw [List.length_take]
    omega
  have happend := readInt_append hlength (bytes.drop n)
  rw [List.take_append_drop] at happend
  exact happend.symm

theorem Blocks.nil_iff : Blocks hdr bytes limit [] ↔ limit = 0 :=
  ⟨fun h => h.fills, fun h => ⟨List.nil_prefix, by simp, h⟩⟩

theorem Blocks.cons_iff {b : List Byte} {blocks : List (List Byte)} :
    Blocks hdr bytes limit (b :: blocks) ↔
      0 < limit ∧ hdr ≤ b.length ∧ readInt b = some (b.length : ℤ) ∧ b <+: bytes ∧
        Blocks hdr (bytes.drop b.length) (limit - b.length) blocks := by
  constructor
  · rintro ⟨hstarts, hlens, hlimit, hfills⟩
    obtain ⟨hhdr, hread⟩ := hlens b List.mem_cons_self
    obtain ⟨rest, hrest⟩ := hstarts
    rw [List.flatten_cons, List.append_assoc] at hrest
    refine ⟨hlimit, hhdr, hread, ⟨_, hrest⟩, ⟨?_, ?_, hfills⟩⟩
    · rw [← hrest, List.drop_left]
      exact List.prefix_append _ _
    · exact fun c hc => hlens c (List.mem_cons_of_mem _ hc)
  · rintro ⟨hlimit, hhdr, hread, ⟨rest, hrest⟩, ⟨hstarts, hlens, hfills⟩⟩
    refine ⟨?_, ?_, ⟨hlimit, hfills⟩⟩
    · rw [← hrest, List.drop_left] at hstarts
      rw [List.flatten_cons, ← hrest]
      exact (List.prefix_append_right_inj b).mpr hstarts
    · exact List.forall_mem_cons.mpr ⟨⟨hhdr, hread⟩, hlens⟩

theorem Fills.le_length {limit : ℕ} {blocks : List (List Byte)} (h : Fills limit blocks) :
    limit ≤ blocks.flatten.length := by
  induction blocks generalizing limit with
  | nil => exact (h : limit = 0).le
  | cons b blocks ih =>
    have hrest := ih h.2
    rw [List.flatten_cons, List.length_append]
    omega

/-- Blocks that are not empty come to their total length. -/
theorem fills_flatten {blocks : List (List Byte)} (hpos : ∀ b ∈ blocks, 0 < b.length) :
    Fills blocks.flatten.length blocks := by
  induction blocks with
  | nil => rfl
  | cons b blocks ih =>
    obtain ⟨hb, hblocks⟩ := List.forall_mem_cons.mp hpos
    rw [List.flatten_cons, List.length_append]
    refine ⟨by omega, ?_⟩
    rw [Nat.add_sub_cancel_left]
    exact ih hblocks

theorem blocks_flatten {blocks : List (List Byte)} (hhdr : 0 < hdr)
    (hlens : ∀ b ∈ blocks, hdr ≤ b.length ∧ readInt b = some (b.length : ℤ)) (rest : List Byte) :
    Blocks hdr (blocks.flatten ++ rest) blocks.flatten.length blocks where
  starts := List.prefix_append _ _
  lens := hlens
  fills := fills_flatten fun b hb => hhdr.trans_le (hlens b hb).1

@[simp] theorem length_positions (x : ℕ) (blocks : List (List Byte)) :
    (positions x blocks).length = blocks.length := by
  induction blocks generalizing x with
  | nil => rfl
  | cons b blocks ih => rw [positions, List.length_cons, ih, List.length_cons]

theorem positions_append (x : ℕ) (blocks more : List (List Byte)) :
    positions x (blocks ++ more) =
      positions x blocks ++ positions (x + blocks.flatten.length) more := by
  induction blocks generalizing x with
  | nil => rfl
  | cons b blocks ih =>
    rw [List.cons_append, positions, ih, positions, List.flatten_cons, List.length_append,
      Nat.add_assoc, List.cons_append]

theorem next_eq {x n : ℕ} (hread : readInt (bytes.drop x) = some (n : ℤ)) :
    next bytes ((x + limit : ℕ) : ℤ) x =
      if limit ≤ n then some none else some (some (x + n)) := by
  rw [next, hread, Option.bind_eq_bind, Option.bind_some]
  dsimp only
  by_cases hlast : limit ≤ n
  · rw [if_pos hlast, if_pos (by omega)]
    rfl
  · have hto : ((x : ℤ) + n).toNat = x + n := by omega
    rw [if_neg hlast, if_neg (by omega), if_neg (by omega), hto]
    rfl

section Scan

variable {Q : ℕ → Prop}

/-- The positions of the blocks that follow the first one. -/
theorem starts_cons_iff {x : ℕ} {b : List Byte} {blocks : List (List Byte)} :
    (∀ before c after, b :: blocks = before ++ c :: after → Q (x + before.flatten.length)) ↔
      Q x ∧ ∀ before c after, blocks = before ++ c :: after →
        Q (x + b.length + before.flatten.length) := by
  constructor
  · intro h
    refine ⟨h [] b blocks rfl, ?_⟩
    intro before c after heq
    have hlater := h (b :: before) c after (by rw [heq, List.cons_append])
    rwa [List.flatten_cons, List.length_append, ← Nat.add_assoc] at hlater
  · rintro ⟨hx, h⟩ before c after heq
    cases before with
    | nil => exact hx
    | cons b' before =>
      obtain ⟨rfl, htail⟩ := List.cons.inj heq
      have hlater := h before c after htail
      rwa [List.flatten_cons, List.length_append, ← Nat.add_assoc]

theorem blocks_of_visits (hhdr : 4 ≤ hdr) {x fuel : ℕ} {xs : List ℕ} (hlimit : 0 < limit)
    (hvisits : visits (next bytes ((x + limit : ℕ) : ℤ)) fuel (some x) = some xs)
    (hall : ∀ y ∈ xs, Inside hdr bytes y ∧ Q y) :
    ∃ blocks, Blocks hdr (bytes.drop x) limit blocks ∧
      ∀ before b after, blocks = before ++ b :: after → Q (x + before.flatten.length) := by
  induction fuel generalizing x limit xs with
  | zero => cases hvisits
  | succ fuel ih =>
    obtain ⟨r, hnext, hvisits⟩ := Option.bind_eq_some_iff.mp hvisits
    obtain ⟨ys, hys, hxs⟩ := Option.bind_eq_some_iff.mp hvisits
    obtain rfl := Option.some.inj hxs
    obtain ⟨⟨⟨n, hread, hn, hinside⟩, hx⟩, hrest⟩ := List.forall_mem_cons.mp hall
    have hlength : ((bytes.drop x).take n).length = n := by
      rw [List.length_take, List.length_drop]
      omega
    have htake : readInt ((bytes.drop x).take n) = some (n : ℤ) := by
      rw [readInt_take (hhdr.trans hn) (by rw [List.length_drop]; omega), hread]
    rw [next_eq hread] at hnext
    by_cases hlast : limit ≤ n
    · refine ⟨[(bytes.drop x).take n], ?_, ?_⟩
      · rw [Blocks.cons_iff, Blocks.nil_iff, hlength]
        refine ⟨hlimit, hn, htake, List.take_prefix _ _, ?_⟩
        omega
      · rw [starts_cons_iff]
        exact ⟨hx, by simp⟩
    · rw [if_neg hlast] at hnext
      obtain rfl := Option.some.inj hnext
      have hstop : x + limit = (x + n) + (limit - n) := by omega
      rw [hstop] at hys
      obtain ⟨blocks, hblocks, hQ⟩ := ih (by omega) hys hrest
      refine ⟨(bytes.drop x).take n :: blocks, ?_, ?_⟩
      · rw [Blocks.cons_iff, hlength, List.drop_drop]
        exact ⟨hlimit, hn, htake, List.take_prefix _ _, hblocks⟩
      · rw [starts_cons_iff, hlength]
        exact ⟨hx, hQ⟩

theorem readInt_at_block (hhdr : 4 ≤ hdr) {b : List Byte} (hb : hdr ≤ b.length)
    (hread : readInt b = some (b.length : ℤ)) {x : ℕ} (hbegins : b <+: bytes.drop x) :
    readInt (bytes.drop x) = some (b.length : ℤ) := by
  obtain ⟨rest, hbytes⟩ := hbegins
  rw [← hbytes, readInt_append (hhdr.trans hb), hread]

/-- A scan of blocks meets their positions. -/
theorem visits_of_blocks (hhdr : 4 ≤ hdr) {x fuel : ℕ} {blocks : List (List Byte)}
    (hlimit : 0 < limit) (hblocks : Blocks hdr (bytes.drop x) limit blocks)
    (hfuel : blocks.length ≤ fuel) :
    visits (next bytes ((x + limit : ℕ) : ℤ)) fuel (some x) = some (positions x blocks) := by
  induction blocks generalizing x limit fuel with
  | nil =>
    rw [Blocks.nil_iff] at hblocks
    omega
  | cons b blocks ih =>
    obtain ⟨-, hb, hread, hbegins, hrest⟩ := Blocks.cons_iff.mp hblocks
    have hstep := @next_eq limit bytes x b.length (readInt_at_block hhdr hb hread hbegins)
    obtain ⟨fuel, rfl⟩ := Nat.exists_eq_add_of_le' (Nat.one_le_iff_ne_zero.mpr
      (Nat.ne_of_gt ((Nat.succ_pos blocks.length).trans_le hfuel)))
    by_cases hlast : limit ≤ b.length
    · rw [Nat.sub_eq_zero_of_le hlast] at hrest
      obtain rfl : blocks = [] := by
        cases blocks with
        | nil => rfl
        | cons c blocks => exact absurd hrest.fills.1 (Nat.lt_irrefl 0)
      rw [visits, hstep, if_pos hlast]
      cases fuel <;> rfl
    · rw [if_neg hlast] at hstep
      rw [List.drop_drop] at hrest
      have hys := ih (by omega) hrest (Nat.le_of_succ_le_succ hfuel)
      have hstop : x + b.length + (limit - b.length) = x + limit := by omega
      rw [hstop] at hys
      rw [visits, hstep, Option.bind_eq_bind, Option.bind_some, hys]
      rfl

theorem inside_of_blocks (hhdr : 4 ≤ hdr) {x : ℕ} {blocks : List (List Byte)}
    (hblocks : Blocks hdr (bytes.drop x) limit blocks)
    (hQ : ∀ before b after, blocks = before ++ b :: after → Q (x + before.flatten.length)) :
    ∀ y ∈ positions x blocks, Inside hdr bytes y ∧ Q y := by
  induction blocks generalizing x limit with
  | nil => exact fun y hy => absurd hy List.not_mem_nil
  | cons b blocks ih =>
    obtain ⟨-, hb, hread, hbegins, hrest⟩ := Blocks.cons_iff.mp hblocks
    obtain ⟨hx, hlater⟩ := starts_cons_iff.mp hQ
    have hle := hbegins.length_le
    rw [List.length_drop] at hle
    have hfound := readInt_at_block hhdr hb hread hbegins
    rw [List.drop_drop] at hrest
    exact List.forall_mem_cons.mpr ⟨⟨⟨b.length, hfound, hb, by omega⟩, hx⟩, ih hrest hlater⟩

theorem ends_of_blocks (hhdr : 4 ≤ hdr) {x : ℕ} {blocks : List (List Byte)} (hlimit : 0 < limit)
    (hblocks : Blocks hdr (bytes.drop x) limit blocks)
    (hQ : ∀ before b after, blocks = before ++ b :: after → Q (x + before.flatten.length)) :
    Ends (next bytes ((x + limit : ℕ) : ℤ)) (some x) fun y => Inside hdr bytes y ∧ Q y :=
  ⟨blocks.length, positions x blocks, visits_of_blocks hhdr hlimit hblocks (Nat.le_refl _),
    inside_of_blocks hhdr hblocks hQ⟩

/-- A scan that ends stays inside the bytes exactly when they are blocks up to the limit. -/
theorem ends_iff (hhdr : 4 ≤ hdr) {x : ℕ} (hlimit : 0 < limit) :
    Ends (next bytes ((x + limit : ℕ) : ℤ)) (some x) (fun y => Inside hdr bytes y ∧ Q y) ↔
      ∃ blocks, Blocks hdr (bytes.drop x) limit blocks ∧
        ∀ before b after, blocks = before ++ b :: after → Q (x + before.flatten.length) := by
  constructor
  · rintro ⟨fuel, xs, hvisits, hall⟩
    exact blocks_of_visits hhdr hlimit hvisits hall
  · rintro ⟨blocks, hblocks, hQ⟩
    exact ends_of_blocks hhdr hlimit hblocks hQ

end Scan

end UniformBroadcast.LengthScans
