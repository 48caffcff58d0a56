import UniformBroadcast.CStrings
import UniformBroadcast.SequencerNode
import Mathlib.Algebra.Order.BigOperators.Group.Finset
import Mathlib.Data.Fintype.Perm
import Mathlib.Data.List.Forall2

/-!
# The configuration file of the TCP ring

Translation of `get_ip_port` and `get_substr` in `protocol_tcp/main.c`. The entries are stored
in the order of their lines and read by their ids; the last character of a line is left out,
whatever it is, and nothing ends the string that is copied to `IP`.
-/

namespace UniformBroadcast.TcpRing

open CStrings Sequencer

/-- `STRING_SIZE`. -/
def stringSize : ℕ := 1024

def hash : Char8 := 35#8

def carriageReturn : Char8 := 13#8

/-- `node_info`; `IP` is an array of 16 bytes. -/
structure NodeInfo where
  selfId : BitVec 16
  ip : List Char8
  ip_length : ip.length = 16
  port : ℤ

/-- The index at which the loop stops and `result_to_return`. -/
def getSubstr (startIndex endIndex : ℕ) (source : List Char8) : ℕ × List Char8 :=
  let word := ((source.take endIndex).drop startIndex).takeWhile (· ≠ blank)
  (startIndex + word.length, word)

theorem length_memcpy {word bytes : List Char8} (hbytes : bytes.length = 16)
    (hword : word.length ≤ 16) : (word ++ bytes.drop word.length).length = 16 := by
  rw [List.length_append, List.length_drop]
  omega

/-- `memcpy` to `IP`; `none` when it writes over the end. -/
def NodeInfo.setIp (word : List Char8) (n : NodeInfo) : Option NodeInfo :=
  if h : word.length ≤ 16 then
    some { n with ip := word ++ n.ip.drop word.length, ip_length := length_memcpy n.ip_length h }
  else none

/-- A line that is not a comment. -/
def readNode (line : List Char8) (n : NodeInfo) : Option NodeInfo :=
  let string := cstr line
  let endIndex := string.length - 1
  let (lastIndex, word) := getSubstr 0 endIndex string
  let n := { n with selfId := BitVec.ofInt 16 (atoi word) }
  let (lastIndex, word) := getSubstr (lastIndex + 1) endIndex string
  (n.setIp word).map fun n =>
    let (_, word) := getSubstr (lastIndex + 1) endIndex string
    { n with port := atoi word }

abbrev Nodes := Fin maxNodes → NodeInfo

/-- The loop over the lines, at most as many as the first argument; `none` also when a node is
stored after the end of `nodes`. -/
def readNodes : ℕ → ℕ → List Char8 → Nodes → Option Nodes
  | 0, _, _, _ => none
  | n + 1, nodeCounter, file, nodes =>
    match fgets (stringSize - 1) file with
    | ([], _) => some nodes
    | (b :: line, file) =>
      if b = hash then readNodes n nodeCounter file nodes
      else if h : nodeCounter < maxNodes then
        (readNode (b :: line) (nodes ⟨nodeCounter, h⟩)).bind fun node =>
          readNodes n (nodeCounter + 1) file (Function.update nodes ⟨nodeCounter, h⟩ node)
      else none

/-- `get_ip_port`; `malloc` has left `nodes` as it is. -/
def getIpPort (file : List Char8) (nodes : Nodes) : Option Nodes :=
  readNodes (file.length + 1) 0 file nodes

/-! ## The file described -/

structure Entry where
  id : ℕ
  ip : List Char8
  port : ℕ
  deriving DecidableEq, Repr

/-- The line `id ip port` and the characters that end it, none at the end of the file. -/
structure Writes (line idStr portStr ending : List Char8) (e : Entry) : Prop where
  parts : line = idStr ++ blank :: (e.ip ++ blank :: (portStr ++ ending))
  id_ne : idStr ≠ []
  id_digits : ∀ b ∈ idStr, isDigit b = true
  id_eq : decimal idStr = e.id
  ip_length : e.ip.length ≤ 15
  ip_plain : ∀ b ∈ e.ip, b ≠ blank ∧ b ≠ newline ∧ b ≠ 0#8
  port_ne : portStr ≠ []
  port_digits : ∀ b ∈ portStr, isDigit b = true
  port_eq : decimal portStr = e.port
  port_int : e.port < 2 ^ 31
  ending_mem : ending = [] ∨ ending = [newline] ∨ ending = [carriageReturn, newline]

def isComment (line : List Char8) : Bool := line.head? = some hash

def entryLines (file : List Char8) : List (List Char8) := (lines file).filter (!isComment ·)

/-- Comments and at most `MAX_NODES` entries, with each id once. -/
structure IsConfig (file : List Char8) (es : List Entry) : Prop where
  entries : List.Forall₂ (fun line e => ∃ idStr portStr ending,
    Writes line idStr portStr ending e) (entryLines file) es
  count : es.length ≤ maxNodes
  ids : (es.map Entry.id).Perm (List.range es.length)

/-- The node has the ip, as a string, and the port of the entry. -/
def NodeInfo.Holds (node : NodeInfo) (e : Entry) : Prop :=
  e.ip ++ [0#8] <+: node.ip ∧ node.port = e.port

/-- Each node has what the line with its id says. -/
def ReadById (nodes : Nodes) (file : List Char8) (es : List Entry) : Prop :=
  ∃ nodes', getIpPort file nodes = some nodes' ∧
    ∀ e ∈ es, ∀ i : Fin maxNodes, i.val = e.id → (nodes' i).Holds e

/-! ## The file as it should be -/

/-- The pieces of the lines that the buffer takes and that do not start as comments. -/
def linesTaken (file : List Char8) : List (List Char8) :=
  ((lines file).flatMap (pieces (stringSize - 2))).filter (!isComment ·)

/-- The buffer takes the lines of the entries whole. The rests of longer comments, if any, come
after them, find nodes left and fit in them. -/
def IsWhole (file : List Char8) : Prop :=
  entryLines file <+: linesTaken file ∧ (linesTaken file).length ≤ maxNodes ∧
    ∀ line ∈ linesTaken file, (field 1 (cstr line).dropLast).length ≤ 16

instance (file : List Char8) : Decidable (IsWhole file) :=
  inferInstanceAs (Decidable (_ ∧ _))

/-- The condition on the file and on the memory that it is read to. -/
structure InPlace (nodes : Nodes) (file : List Char8) (es : List Entry) : Prop where
  whole : IsWhole file
  /-- The entries stand in the order of their ids, or those exchanged say the same. -/
  order : ∀ e ∈ es, ∃ e' ∈ es[e.id]?, e'.ip = e.ip ∧ e'.port = e.port
  /-- The last line has its newline, or is that of the port 0. -/
  terminated : List.Forall₂ (fun line e => line.getLast? = some newline ∨ e.port = 0)
    (entryLines file) es
  /-- A null byte happens to stand after each ip. -/
  null : ∀ e ∈ es, ∀ i : Fin maxNodes, i.val = e.id → (nodes i).ip[e.ip.length]? = some 0#8

/-! ## The lines read -/

/-- The pieces taken, without their last characters. -/
def rowsRead (file : List Char8) : List (List Char8) :=
  (linesTaken file).map fun line => (cstr line).dropLast

section Rows

variable {file line : List Char8} {nodes nodes' : Nodes}

/-- A row is stored. -/
def storeRow (row : List Char8) (n : NodeInfo) : Option NodeInfo :=
  (NodeInfo.setIp (field 1 row) { n with selfId := BitVec.ofInt 16 (atoi (field 0 row)) }).map
    fun n => { n with port := atoi (field 2 row) }

/-- A call that starts at the field `i` returns it and stops before the next one. -/
theorem getSubstr_field {startIndex i : ℕ} {string : List Char8}
    (h : ∀ j, field j (string.dropLast.drop startIndex) = field (i + j) string.dropLast) :
    (getSubstr startIndex (string.length - 1) string).2 = field i string.dropLast ∧
      ∀ j, field j (string.dropLast.drop
        ((getSubstr startIndex (string.length - 1) string).1 + 1)) =
          field (i + 1 + j) string.dropLast := by
  rw [getSubstr, ← List.dropLast_eq_take]
  generalize string.dropLast = s at *
  constructor
  · exact h 0
  · intro j
    have hdrop := @List.drop_left _ ((s.drop startIndex).takeWhile (· ≠ blank))
      ((s.drop startIndex).dropWhile (· ≠ blank))
    rw [List.takeWhile_append_dropWhile] at hdrop
    have hnext := h (j + 1)
    rw [field, ← hdrop, List.drop_drop, List.drop_drop, ← Nat.add_assoc] at hnext
    rw [Nat.add_assoc i 1 j, Nat.add_comm 1 j, ← hnext]

theorem readNode_eq_storeRow (line : List Char8) (n : NodeInfo) :
    readNode line n = storeRow (cstr line).dropLast n := by
  have hfirst := @getSubstr_field 0 0 (cstr line) (by simp)
  have hsecond := getSubstr_field hfirst.2
  have hthird := getSubstr_field hsecond.2
  simp only [readNode, storeRow, hfirst.1, hsecond.1, hthird.1]

/-- The rows are stored from a node on. -/
def storeRows : List (List Char8) → ℕ → Nodes → Option Nodes
  | [], _, nodes => some nodes
  | row :: rows, nodeCounter, nodes =>
    if h : nodeCounter < maxNodes then
      (storeRow row (nodes ⟨nodeCounter, h⟩)).bind fun node =>
        storeRows rows (nodeCounter + 1) (Function.update nodes ⟨nodeCounter, h⟩ node)
    else none

theorem rowsRead_line (h : Line line file) : rowsRead (line ++ file) =
    ((pieces (stringSize - 2) line).filter (!isComment ·)).map (fun line => (cstr line).dropLast) ++
      rowsRead file := by
  cases line with
  | nil =>
    cases h
    rw [pieces]
    rfl
  | cons b line =>
    rw [rowsRead, linesTaken, lines_append h (List.cons_ne_nil b line), List.flatMap_cons,
      List.filter_append, List.map_append]
    rfl

/-- The loop stores the rows read. -/
theorem readNodes_rowsRead {n nodeCounter : ℕ} (hn : file.length < n) :
    readNodes n nodeCounter file nodes = storeRows (rowsRead file) nodeCounter nodes := by
  induction n generalizing nodeCounter file nodes with
  | zero => exact absurd hn (Nat.not_lt_zero _)
  | succ n ih =>
    obtain ⟨line, rest, rfl, hline⟩ := exists_line file
    rw [readNodes, fgets_append hline, rowsRead_line hline]
    cases line with
    | nil =>
      cases hline
      rw [pieces]
      rfl
    | cons b line =>
      have hrest : ((b :: line).drop (stringSize - 1) ++ rest).length < n := by
        rw [List.length_append, List.length_cons] at hn
        rw [List.length_append, List.length_drop, List.length_cons, stringSize]
        omega
      have hnext : rowsRead ((b :: line).drop (stringSize - 1) ++ rest) =
          ((pieces (stringSize - 2) ((b :: line).drop (stringSize - 1))).filter
            (!isComment ·)).map (fun line => (cstr line).dropLast) ++ rowsRead rest := by
        by_cases hne : (b :: line).drop (stringSize - 1) = []
        · rw [hne, pieces]
          rfl
        · exact rowsRead_line (hline.drop hne)
      have htake : (b :: line).take (stringSize - 1) = b :: line.take (stringSize - 2) := rfl
      have hpiece : pieces (stringSize - 2) (b :: line) = (b :: line.take (stringSize - 2)) ::
          pieces (stringSize - 2) ((b :: line).drop (stringSize - 1)) := by
        rw [pieces]
        rfl
      rw [hpiece, htake]
      dsimp only
      by_cases hhash : b = hash
      · have hcomment : isComment (b :: line.take (stringSize - 2)) = true := by
          simp [isComment, hhash]
        rw [if_pos hhash, List.filter_cons_of_neg (by simp [hcomment]), ← hnext]
        exact ih hrest
      · have hentry : isComment (b :: line.take (stringSize - 2)) = false := by
          simp [isComment, hhash]
        rw [if_neg hhash, List.filter_cons_of_pos (by simp [hentry]), List.map_cons,
          List.cons_append, ← hnext, storeRows]
        split
        · rw [readNode_eq_storeRow]
          congr
          funext node
          exact ih hrest
        · rfl

/-! ### The nodes stored -/

theorem storeRow_eq_some {row : List Char8} {n n' : NodeInfo} (h : storeRow row n = some n') :
    n'.ip = field 1 row ++ n.ip.drop (field 1 row).length ∧ n'.port = atoi (field 2 row) := by
  obtain ⟨m, hm, rfl⟩ := Option.map_eq_some_iff.mp h
  rw [NodeInfo.setIp] at hm
  split at hm
  · cases hm
    exact ⟨rfl, rfl⟩
  · cases hm

theorem storeRow_isSome {row : List Char8} {n : NodeInfo} :
    (storeRow row n).isSome ↔ (field 1 row).length ≤ 16 := by
  rw [storeRow, Option.isSome_map, NodeInfo.setIp]
  by_cases hword : (field 1 row).length ≤ 16
  · rw [dif_pos hword]
    exact iff_of_true rfl hword
  · rw [dif_neg hword]
    exact iff_of_false Bool.false_ne_true hword

/-- The rows are stored when there are nodes enough and each fits. -/
theorem storeRows_isSome {rows : List (List Char8)} {nodeCounter : ℕ}
    (h : nodeCounter ≤ maxNodes) : (storeRows rows nodeCounter nodes).isSome ↔
      nodeCounter + rows.length ≤ maxNodes ∧ ∀ row ∈ rows, (field 1 row).length ≤ 16 := by
  induction rows generalizing nodeCounter nodes with
  | nil => simpa [storeRows] using h
  | cons row rows ih =>
    rw [storeRows, List.forall_mem_cons, List.length_cons]
    by_cases hroom : nodeCounter < maxNodes
    · rw [dif_pos hroom]
      have hrow := @storeRow_isSome row (nodes ⟨nodeCounter, hroom⟩)
      cases hstore : storeRow row (nodes ⟨nodeCounter, hroom⟩) with
      | none =>
        rw [hstore] at hrow
        have hlong : ¬ (field 1 row).length ≤ 16 := fun hle => Bool.false_ne_true (hrow.mpr hle)
        exact iff_of_false Bool.false_ne_true fun hall => hlong hall.2.1
      | some node =>
        rw [hstore] at hrow
        have hshort := hrow.mp rfl
        rw [Option.bind_some, ih (Nat.succ_le_of_lt hroom)]
        constructor
        · rintro ⟨hlength, hall⟩
          exact ⟨by omega, hshort, hall⟩
        · rintro ⟨hlength, -, hall⟩
          exact ⟨by omega, hall⟩
    · rw [dif_neg hroom]
      exact iff_of_false Bool.false_ne_true fun hall => by omega

/-- Each row is stored in the next node, and no node before is touched. -/
theorem storeRows_eq_some {rows : List (List Char8)} {nodeCounter : ℕ}
    (h : storeRows rows nodeCounter nodes = some nodes') (i : Fin maxNodes) :
    (i.val < nodeCounter → nodes' i = nodes i) ∧
      ∀ k row, rows[k]? = some row → i.val = nodeCounter + k →
        storeRow row (nodes i) = some (nodes' i) := by
  induction rows generalizing nodeCounter nodes with
  | nil =>
    obtain rfl := Option.some.inj h
    exact ⟨fun _ => rfl, fun k row hrow => by simp at hrow⟩
  | cons row rows ih =>
    rw [storeRows] at h
    split at h
    · rename_i hroom
      obtain ⟨node, hnode, hrest⟩ := Option.bind_eq_some_iff.mp h
      obtain ⟨hbefore, hrows⟩ := ih hrest
      constructor
      · intro hi
        have hne : i ≠ ⟨nodeCounter, hroom⟩ := by
          rintro rfl
          exact Nat.lt_irrefl _ hi
        rw [hbefore (Nat.lt_succ_of_lt hi), Function.update_of_ne hne]
      · intro k row' hrow' hi
        cases k with
        | zero =>
          obtain rfl : row = row' := by simpa using hrow'
          obtain rfl : i = ⟨nodeCounter, hroom⟩ := Fin.ext hi
          rw [hbefore (Nat.lt_succ_self _), Function.update_self]
          exact hnode
        | succ k =>
          have hne : i ≠ ⟨nodeCounter, hroom⟩ := by
            rintro rfl
            dsimp only at hi
            omega
          have hstore := hrows k row' (by simpa using hrow') (by omega)
          rw [Function.update_of_ne hne] at hstore
          exact hstore
    · cases h

end Rows

/-! ## The entries and their nodes -/

/-- A permutation that never increases a number changes none. -/
theorem eq_of_perm_le {ι : Type} [Fintype ι] {σ : Equiv.Perm ι} {f : ι → ℕ}
    (h : ∀ i, f (σ i) ≤ f i) (i : ι) : f (σ i) = f i := by
  have hsum : ∑ i, f (σ i) = ∑ i, f i := Equiv.sum_comp σ f
  exact (Finset.sum_eq_sum_iff_of_le fun i _ => h i).mp hsum i (Finset.mem_univ i)

section Entries

variable {file line idStr portStr ending : List Char8} {e : Entry} {es : List Entry}
  {nodes : Nodes}

theorem blank_notMem_digits {digits : List Char8} (h : ∀ b ∈ digits, isDigit b = true) :
    blank ∉ digits := by
  intro hmem
  have hdigit := h blank hmem
  revert hdigit
  decide

theorem null_notMem_digits {digits : List Char8} (h : ∀ b ∈ digits, isDigit b = true) :
    0#8 ∉ digits := by
  intro hmem
  have hdigit := h 0#8 hmem
  revert hdigit
  decide

theorem Writes.cstr_eq (h : Writes line idStr portStr ending e) : cstr line = line := by
  apply cstr_of_notMem
  have hid := null_notMem_digits h.id_digits
  have hport := null_notMem_digits h.port_digits
  have hip : 0#8 ∉ e.ip := fun hmem => (h.ip_plain _ hmem).2.2 rfl
  have hblank : (0#8 : Char8) ≠ blank := by decide
  have hending : 0#8 ∉ ending := by
    rcases h.ending_mem with rfl | rfl | rfl <;> decide
  rw [h.parts]
  simp [hid, hport, hip, hblank, hending]

/-- The port that is read: a line without its newline loses a digit. -/
def portRead (line : List Char8) (e : Entry) : ℕ :=
  if line.getLast? = some newline then e.port else e.port / 10

/-- The ip and the port read from the line of an entry. -/
theorem Writes.fields (h : Writes line idStr portStr ending e) :
    field 1 (cstr line).dropLast = e.ip ∧
      atoi (field 2 (cstr line).dropLast) = portRead line e := by
  have hid := blank_notMem_digits h.id_digits
  have hip : blank ∉ e.ip := fun hmem => (h.ip_plain _ hmem).1 rfl
  have hrow : ∀ word, blank ∉ word → line.dropLast = idStr ++ blank :: (e.ip ++ blank :: word) →
      field 1 (cstr line).dropLast = e.ip ∧ field 2 (cstr line).dropLast = word := by
    intro word hword hline
    rw [h.cstr_eq, hline, field_succ_append hid, field_zero_append hip, field_succ_append hid,
      field_succ_append hip, field_zero_of_notMem hword]
    exact ⟨rfl, rfl⟩
  have hport := blank_notMem_digits h.port_digits
  have hatoi := atoi_decimal h.port_digits (h.port_eq ▸ h.port_int)
  rw [h.port_eq] at hatoi
  have hsplit : ∀ last, last ≠ [] →
      (idStr ++ blank :: (e.ip ++ blank :: (portStr ++ last))).dropLast =
        idStr ++ blank :: (e.ip ++ blank :: (portStr ++ last.dropLast)) := by
    intro last hlast
    have hassoc : ∀ l, idStr ++ blank :: (e.ip ++ blank :: (portStr ++ l)) =
        (idStr ++ blank :: (e.ip ++ blank :: portStr)) ++ l := by simp
    rw [hassoc, hassoc, List.dropLast_append_of_ne_nil hlast]
  have hlast : ∀ front : List Char8, (idStr ++ blank :: (e.ip ++ blank :: (portStr ++
      (front ++ [newline])))).getLast? = some newline := by
    intro front
    have hassoc : idStr ++ blank :: (e.ip ++ blank :: (portStr ++ (front ++ [newline]))) =
        (idStr ++ blank :: (e.ip ++ blank :: (portStr ++ front))) ++ [newline] := by simp
    rw [hassoc, List.getLast?_concat]
  rcases h.ending_mem with rfl | rfl | rfl
  · -- the last digit of the port is taken for the newline
    have hline : line = (idStr ++ blank :: (e.ip ++ [blank])) ++ portStr := by simp [h.parts]
    have hdrop : line.dropLast = idStr ++ blank :: (e.ip ++ blank :: portStr.dropLast) := by
      rw [hline, List.dropLast_append_of_ne_nil h.port_ne]
      simp
    have hdigits : ∀ b ∈ portStr.dropLast, isDigit b = true :=
      fun b hb => h.port_digits b (List.dropLast_subset portStr hb)
    obtain ⟨hfirst, hsecond⟩ := hrow _ (blank_notMem_digits hdigits) hdrop
    have hvalue := decimal_dropLast h.port_digits
    rw [h.port_eq] at hvalue
    have hint := h.port_int
    have hshort := atoi_decimal hdigits (by omega)
    have hnot : line.getLast? ≠ some newline := by
      intro hend
      rw [hline, List.getLast?_append_of_ne_nil _ h.port_ne] at hend
      exact absurd (h.port_digits newline (List.mem_of_getLast? hend)) (by decide)
    rw [portRead, if_neg hnot, hsecond, hshort, hvalue]
    exact ⟨hfirst, rfl⟩
  · obtain ⟨hfirst, hsecond⟩ := hrow portStr hport (by
      rw [h.parts, hsplit _ (List.cons_ne_nil _ _)]
      simp)
    rw [portRead, if_pos (h.parts ▸ hlast []), hsecond, hatoi]
    exact ⟨hfirst, rfl⟩
  · have hword : blank ∉ portStr ++ [carriageReturn] := by
      rw [List.mem_append, not_or]
      exact ⟨hport, by decide⟩
    obtain ⟨hfirst, hsecond⟩ := hrow _ hword (by
      rw [h.parts, hsplit _ (List.cons_ne_nil _ _)]
      rfl)
    have hreturn := @atoi_digits portStr [carriageReturn] h.port_digits (by decide)
      fun hnil => absurd hnil h.port_ne
    rw [h.port_eq, toInt_of_lt h.port_int] at hreturn
    rw [portRead, if_pos (h.parts ▸ hlast [carriageReturn]), hsecond, hreturn]
    exact ⟨hfirst, rfl⟩

theorem portRead_le (line : List Char8) (e : Entry) : portRead line e ≤ e.port := by
  rw [portRead]
  split
  · exact Nat.le_refl _
  · exact Nat.div_le_self _ _

theorem portRead_eq_iff : portRead line e = e.port ↔
    line.getLast? = some newline ∨ e.port = 0 := by
  rw [portRead]
  split
  · simp [*]
  · simp only [*, false_or]
    omega

/-- The line at the position of each entry is that of another, or of itself. -/
theorem IsConfig.exists_perm (h : IsConfig file es) :
    ∃ σ : Equiv.Perm (Fin es.length), ∀ k, (es.get k).id = (σ k).val := by
  have hlt : ∀ k : Fin es.length, (es.get k).id < es.length := by
    intro k
    exact List.mem_range.mp (h.ids.subset (List.mem_map_of_mem (List.get_mem es k)))
  have hnodup : (es.map Entry.id).Nodup := h.ids.nodup_iff.mpr List.nodup_range
  have hinj : Function.Injective fun k => (⟨(es.get k).id, hlt k⟩ : Fin es.length) := by
    intro k l hkl
    have hid : (es.get k).id = (es.get l).id := congrArg Fin.val hkl
    have hsame := List.inj_on_of_nodup_map hnodup (List.get_mem es k) (List.get_mem es l) hid
    exact List.nodup_iff_injective_get.mp hnodup.of_map hsame
  exact ⟨Equiv.ofBijective _ (Finite.injective_iff_bijective.mp hinj), fun k => rfl⟩

/-- The row at the position of an entry. -/
theorem IsConfig.row (h : IsConfig file es) (hwhole : IsWhole file) (k : Fin es.length) :
    ∃ line row, (entryLines file)[k.val]? = some line ∧ (rowsRead file)[k.val]? = some row ∧
      field 1 row = (es.get k).ip ∧ atoi (field 2 row) = portRead line (es.get k) ∧
      (es.get k).ip.length ≤ 15 ∧ 0#8 ∉ (es.get k).ip := by
  obtain ⟨hlength, hget⟩ := List.forall₂_iff_get.mp h.entries
  have hk : k.val < (entryLines file).length := by
    rw [hlength]
    exact k.isLt
  obtain ⟨idStr, portStr, ending, hwrites⟩ := hget k.val hk k.isLt
  obtain ⟨hip, hport⟩ := hwrites.fields
  have hline := List.getElem?_eq_getElem hk
  have hrow : (rowsRead file)[k.val]? = some (cstr (entryLines file)[k.val]).dropLast := by
    obtain ⟨rests, hrests⟩ := hwhole.1
    rw [rowsRead, ← hrests, List.getElem?_map, List.getElem?_append_left hk, hline]
    rfl
  exact ⟨_, _, hline, hrow, hip, hport, hwrites.ip_length,
    fun hmem => (hwrites.ip_plain _ hmem).2.2 rfl⟩

/-- The node of an entry gets its ip and its port from the entry that stands at its position. -/
def Stored (nodes : Nodes) (file : List Char8) (e e' : Entry) : Prop :=
  (∀ i : Fin maxNodes, i.val = e.id →
    e.ip ++ [0#8] <+: e'.ip ++ (nodes i).ip.drop e'.ip.length) ∧
    ∀ line ∈ (entryLines file)[e.id]?, portRead line e' = e.port

theorem readById_iff (h : IsConfig file es) (hwhole : IsWhole file)
    {σ : Equiv.Perm (Fin es.length)} (hσ : ∀ k, (es.get k).id = (σ k).val) :
    ReadById nodes file es ↔ ∀ k, Stored nodes file (es.get k) (es.get (σ k)) := by
  have hrun : getIpPort file nodes = storeRows (rowsRead file) 0 nodes :=
    readNodes_rowsRead (Nat.lt_succ_self _)
  have hcount := h.count
  have hsome : (storeRows (rowsRead file) 0 nodes).isSome := by
    obtain ⟨-, hroom, hfits⟩ := hwhole
    refine (storeRows_isSome (Nat.zero_le maxNodes)).mpr ⟨?_, ?_⟩
    · rw [Nat.zero_add, rowsRead, List.length_map]
      exact hroom
    · intro row hrow
      obtain ⟨line, hline, rfl⟩ := List.mem_map.mp hrow
      exact hfits line hline
  obtain ⟨nodes', hnodes⟩ := Option.isSome_iff_exists.mp hsome
  -- a node holds its entry when the line at its position says the same
  have hnode : ∀ k, ∀ i : Fin maxNodes, i.val = (es.get k).id →
      ((nodes' i).Holds (es.get k) ↔
        (es.get k).ip ++ [0#8] <+:
          (es.get (σ k)).ip ++ (nodes i).ip.drop (es.get (σ k)).ip.length ∧
        ∀ line ∈ (entryLines file)[(es.get k).id]?, portRead line (es.get (σ k)) =
          (es.get k).port) := by
    intro k i hi
    obtain ⟨line, row, hline, hrow, hip, hport, -⟩ := h.row hwhole (σ k)
    rw [← hσ k] at hline hrow
    rw [← hi] at hrow
    have hstore := (storeRows_eq_some hnodes i).2 i.val row hrow (Nat.zero_add _).symm
    obtain ⟨hip', hport'⟩ := storeRow_eq_some hstore
    rw [NodeInfo.Holds, hip', hport', hip, hport, hline]
    simp
  rw [ReadById, hrun, hnodes]
  constructor
  · rintro ⟨_, hsame, hall⟩ k
    obtain rfl := Option.some.inj hsame
    have hlt : (es.get k).id < maxNodes := by
      rw [hσ k]
      exact (σ k).isLt.trans_le hcount
    have hholds := hall (es.get k) (List.get_mem es k)
    refine ⟨fun i hi => ((hnode k i hi).mp (hholds i hi)).1, ?_⟩
    exact ((hnode k ⟨_, hlt⟩ rfl).mp (hholds ⟨_, hlt⟩ rfl)).2
  · intro hall
    refine ⟨nodes', rfl, ?_⟩
    intro e he i hi
    obtain ⟨k, rfl⟩ := List.mem_iff_get.mp he
    exact (hnode k i hi).mpr ⟨(hall k).1 i hi, (hall k).2⟩

/-- A string without null bytes is no longer than one that it starts and a null byte ends. -/
theorem length_le_of_prefix {ip ip' bytes : List Char8} (hnull : 0#8 ∉ ip')
    (h : ip ++ [0#8] <+: ip' ++ bytes) : ip'.length ≤ ip.length := by
  by_contra hlong
  have hlt : ip.length < ip'.length := by omega
  have hget := List.prefix_iff_getElem?.mp h ip.length (by simp)
  rw [List.getElem?_append_left hlt, List.getElem?_eq_getElem hlt] at hget
  have hzero : ip'[ip.length] = 0#8 := by simpa using hget
  exact hnull (hzero ▸ List.getElem_mem hlt)

/-- When the two strings are as long as each other, they are the same. -/
theorem prefix_iff_of_length {ip ip' bytes : List Char8} (hlength : ip'.length = ip.length) :
    ip ++ [0#8] <+: ip' ++ bytes.drop ip'.length ↔
      ip' = ip ∧ bytes[ip.length]? = some 0#8 := by
  constructor
  · rintro ⟨t, ht⟩
    rw [List.append_assoc] at ht
    obtain ⟨rfl, hrest⟩ := List.append_inj ht hlength.symm
    refine ⟨rfl, ?_⟩
    have hhead : (bytes.drop ip.length)[0]? = bytes[ip.length + 0]? := List.getElem?_drop
    rw [← hrest] at hhead
    exact hhead.symm
  · rintro ⟨rfl, hnull⟩
    obtain ⟨hlt, hzero⟩ := List.getElem?_eq_some_iff.mp hnull
    rw [List.prefix_append_right_inj, List.drop_eq_getElem_cons hlt, hzero]
    exact List.prefix_append [0#8] _

theorem linesTaken_of_short (hshort : ∀ line ∈ lines file, line.length < stringSize) :
    linesTaken file = entryLines file := by
  have hne : ∀ line ∈ lines file, line ≠ [] := fun line hline => ne_nil_of_mem_lines hline
  rw [linesTaken, entryLines]
  congr 1
  generalize lines file = all at hne hshort
  induction all with
  | nil => rfl
  | cons line rest ih =>
    rw [List.flatMap_cons, ih (fun line hline => hne line (List.mem_cons_of_mem _ hline))
      (fun line hline => hshort line (List.mem_cons_of_mem _ hline))]
    have hlength := hshort line List.mem_cons_self
    rw [stringSize] at hlength
    cases line with
    | nil => exact absurd rfl (hne [] List.mem_cons_self)
    | cons b line =>
      rw [pieces, List.take_of_length_le (by rw [stringSize]; omega),
        List.drop_of_length_le (by rw [stringSize]; omega), pieces]
      rfl

/-- Lines that fit the buffer are not cut. -/
theorem IsConfig.isWhole (h : IsConfig file es)
    (hshort : ∀ line ∈ lines file, line.length < stringSize) : IsWhole file := by
  rw [IsWhole, linesTaken_of_short hshort]
  refine ⟨List.prefix_rfl, h.entries.length_eq ▸ h.count, ?_⟩
  intro line hline
  obtain ⟨hlength, hget⟩ := List.forall₂_iff_get.mp h.entries
  obtain ⟨k, hk, rfl⟩ := List.mem_iff_getElem.mp hline
  obtain ⟨idStr, portStr, ending, hwrites⟩ := hget k hk (hlength ▸ hk)
  have hip := hwrites.fields.1
  rw [List.get_eq_getElem] at hip
  rw [hip]
  exact hwrites.ip_length.trans (Nat.le_succ 15)

/-- A file and a memory in place give each node what its line says. -/
theorem InPlace.stored (hplace : InPlace nodes file es) {σ : Equiv.Perm (Fin es.length)}
    (hat : ∀ k, es[(es.get k).id]? = some (es.get (σ k)))
    (hσ : ∀ k, (es.get k).id = (σ k).val) (k : Fin es.length) :
    Stored nodes file (es.get k) (es.get (σ k)) := by
  obtain ⟨e', he', hip, hport⟩ := hplace.order _ (List.get_mem es k)
  obtain rfl := Option.some.inj ((hat k).symm.trans he')
  constructor
  · intro i hi
    have hnull := hplace.null _ (List.get_mem es k) i hi
    exact (prefix_iff_of_length (congrArg List.length hip)).mpr ⟨hip, hnull⟩
  · intro line hline
    rw [hσ k] at hline
    obtain ⟨hlt, hline⟩ := List.getElem?_eq_some_iff.mp hline
    have hend := (List.forall₂_iff_get.mp hplace.terminated).2 (σ k).val hlt (σ k).isLt
    rw [List.get_eq_getElem, hline] at hend
    exact (portRead_eq_iff.mpr hend).trans hport

/-- What all nodes get can only have grown on the way, so the entries that are exchanged have
ips of the same length. -/
theorem IsConfig.ip_length (h : IsConfig file es) (hwhole : IsWhole file)
    {σ : Equiv.Perm (Fin es.length)} (hσ : ∀ k, (es.get k).id = (σ k).val)
    (hall : ∀ k, Stored nodes file (es.get k) (es.get (σ k))) (k : Fin es.length) :
    (es.get (σ k)).ip.length = (es.get k).ip.length := by
  refine eq_of_perm_le (f := fun k => (es.get k).ip.length) (fun k => ?_) k
  obtain ⟨line, row, -, -, -, -, -, hplain⟩ := h.row hwhole (σ k)
  have hlt : (es.get k).id < maxNodes := by
    rw [hσ k]
    exact (σ k).isLt.trans_le h.count
  exact length_le_of_prefix hplain ((hall k).1 ⟨_, hlt⟩ rfl)

/-- No port is read larger than it stands in the file, so those that are exchanged are the same. -/
theorem IsConfig.port (h : IsConfig file es) {σ : Equiv.Perm (Fin es.length)}
    (hσ : ∀ k, (es.get k).id = (σ k).val)
    (hall : ∀ k, Stored nodes file (es.get k) (es.get (σ k))) (k : Fin es.length) :
    (es.get k).port = (es.get (σ k)).port := by
  have hlength := h.entries.length_eq
  have hle : ∀ k, (es.get (σ.symm k)).port ≤ (es.get k).port := by
    intro k
    have hk : k.val < (entryLines file).length := by
      rw [hlength]
      exact k.isLt
    have hline : (entryLines file)[(es.get (σ.symm k)).id]? = some (entryLines file)[k.val] := by
      rw [hσ, σ.apply_symm_apply]
      exact List.getElem?_eq_getElem hk
    have hread := (hall (σ.symm k)).2 _ hline
    rw [σ.apply_symm_apply] at hread
    exact hread ▸ portRead_le _ _
  have hsame := eq_of_perm_le (f := fun k => (es.get k).port) hle (σ k)
  rw [σ.symm_apply_apply] at hsame
  exact hsame

/-- Only a file and a memory in place give each node what its line says. -/
theorem IsConfig.inPlace (h : IsConfig file es) (hwhole : IsWhole file)
    {σ : Equiv.Perm (Fin es.length)} (hat : ∀ k, es[(es.get k).id]? = some (es.get (σ k)))
    (hσ : ∀ k, (es.get k).id = (σ k).val)
    (hall : ∀ k, Stored nodes file (es.get k) (es.get (σ k))) : InPlace nodes file es := by
  have hports := h.port hσ hall
  have hmatches : ∀ k, ∀ i : Fin maxNodes, i.val = (es.get k).id →
      (es.get (σ k)).ip = (es.get k).ip ∧
        (nodes i).ip[(es.get k).ip.length]? = some 0#8 :=
    fun k i hi => (prefix_iff_of_length (h.ip_length hwhole hσ hall k)).mp ((hall k).1 i hi)
  have hlt : ∀ k, (es.get k).id < maxNodes := by
    intro k
    rw [hσ k]
    exact (σ k).isLt.trans_le h.count
  constructor
  case whole => exact hwhole
  case order =>
    intro e he
    obtain ⟨k, rfl⟩ := List.mem_iff_get.mp he
    exact ⟨_, hat k, (hmatches k ⟨_, hlt k⟩ rfl).1, (hports k).symm⟩
  case terminated =>
    refine List.forall₂_iff_get.mpr ⟨h.entries.length_eq, ?_⟩
    intro k hk hk'
    obtain ⟨j, hj⟩ := σ.surjective ⟨k, hk'⟩
    have hline : (entryLines file)[(es.get j).id]? = some (entryLines file)[k] := by
      rw [hσ, hj]
      exact List.getElem?_eq_getElem hk
    have hport := (hall j).2 _ hline
    rw [hports j, hj] at hport
    exact portRead_eq_iff.mp hport
  case null =>
    intro e he i hi
    obtain ⟨k, rfl⟩ := List.mem_iff_get.mp he
    exact (hmatches k i hi).2

/-- **The configuration file.** Each node gets what the line with its id says when the file and
the memory are in place, and only then if the file is whole. -/
theorem getIpPort_by_id (h : IsConfig file es) :
    (InPlace nodes file es → ReadById nodes file es) ∧
      (IsWhole file → ReadById nodes file es → InPlace nodes file es) := by
  obtain ⟨σ, hσ⟩ := h.exists_perm
  have hat : ∀ k, es[(es.get k).id]? = some (es.get (σ k)) := by
    intro k
    rw [hσ k]
    exact List.getElem?_eq_getElem (σ k).isLt
  constructor
  · intro hplace
    exact (readById_iff h hplace.whole hσ).mpr (hplace.stored hat hσ)
  · intro hwhole hread
    exact h.inPlace hwhole hat hσ ((readById_iff h hwhole hσ).mp hread)

end Entries

/-- What `malloc` returns in fresh memory. -/
def zeroNodes : Nodes := fun _ => ⟨0#16, List.replicate 16 0#8, List.length_replicate, 0⟩

/-- `"#\r\n0 a 7\r\n1 b 8\r\n"`. -/
def sortedFile : List Char8 :=
  [35#8, 13#8, 10#8, 48#8, 32#8, 97#8, 32#8, 55#8, 13#8, 10#8,
    49#8, 32#8, 98#8, 32#8, 56#8, 13#8, 10#8]

theorem sortedFile_by_id :
    ReadById zeroNodes sortedFile [⟨0, [97#8], 7⟩, ⟨1, [98#8], 8⟩] := by
  have hlines : entryLines sortedFile =
      [[48#8, 32#8, 97#8, 32#8, 55#8, 13#8, 10#8],
        [49#8, 32#8, 98#8, 32#8, 56#8, 13#8, 10#8]] := by decide
  have hconfig : IsConfig sortedFile [⟨0, [97#8], 7⟩, ⟨1, [98#8], 8⟩] := by
    refine ⟨?_, by decide, by decide⟩
    rw [hlines]
    refine .cons ⟨[48#8], [55#8], [13#8, 10#8], ?_⟩ (.cons ⟨[49#8], [56#8], [13#8, 10#8], ?_⟩ .nil)
    · constructor <;> decide
    · constructor <;> decide
  refine (getIpPort_by_id hconfig).1 ⟨hconfig.isWhole (by decide), by decide, ?_, ?_⟩
  · rw [hlines]
    exact .cons (.inl rfl) (.cons (.inl rfl) .nil)
  · intro e he i hi
    rcases List.mem_cons.mp he with rfl | he
    · rfl
    · obtain rfl := List.mem_singleton.mp he
      rfl

/-- `"1 a 5\n0 b 6\n"`. -/
def reversedFile : List Char8 :=
  [49#8, 32#8, 97#8, 32#8, 53#8, 10#8, 48#8, 32#8, 98#8, 32#8, 54#8, 10#8]

/-- The entry of node 1 is stored for node 0. -/
theorem not_getIpPort_by_id : ¬ ∀ (nodes : Nodes) (file : List Char8) (es : List Entry),
    IsConfig file es → ReadById nodes file es := by
  intro h
  have hconfig : IsConfig reversedFile [⟨1, [97#8], 5⟩, ⟨0, [98#8], 6⟩] := by
    have hlines : entryLines reversedFile =
        [[49#8, 32#8, 97#8, 32#8, 53#8, 10#8], [48#8, 32#8, 98#8, 32#8, 54#8, 10#8]] := by decide
    refine ⟨?_, by decide, by decide⟩
    rw [hlines]
    refine .cons ⟨[49#8], [53#8], [10#8], ?_⟩ (.cons ⟨[48#8], [54#8], [10#8], ?_⟩ .nil)
    · constructor <;> decide
    · constructor <;> decide
  obtain ⟨nodes, hnodes, hall⟩ := h zeroNodes reversedFile _ hconfig
  have hfirst : (getIpPort reversedFile zeroNodes).map (fun nodes => (nodes ⟨0, by decide⟩).port) =
      some 5 := by decide
  rw [hnodes] at hfirst
  have hport := (hall ⟨0, [98#8], 6⟩ (by decide) ⟨0, by decide⟩ rfl).2
  have hsame := hport.symm.trans (Option.some.inj hfirst)
  revert hsame
  decide

end UniformBroadcast.TcpRing
