import UniformBroadcast.CellChains
import UniformBroadcast.FallibleSteps
import UniformBroadcast.TransitionRuns

/-!
# Lists and blocking queues

Translation of `list.c` and `bqueue.c` on an explicit memory of cells. A list always ends with a
cell without a value, which `listAppend` fills and `cleanList` keeps. `malloc` may find any
address that is not allocated, whatever is written there, or none.
-/

namespace UniformBroadcast.Trains.Queues

open CellChains FallibleSteps TransitionRuns

/-- `trList`. -/
structure TrList (A : Type) where
  first : Option A
  last : Option A
  deriving DecidableEq, Repr

/-- A list that `newList` has made for the application, or the list of a queue. -/
inductive Ref where
  | list (l : ℕ)
  | queue (q : ℕ)
  deriving DecidableEq, Repr

/-- Why the code stops: it follows a pointer to a cell that is not allocated, a loop goes on for
more turns than cells were ever allocated, `malloc` finds no memory, the semaphore is at
`SEM_VALUE_MAX`, `sem_wait` waits, or there is no such list. -/
inductive Stop where
  | fault
  | endless
  | noMemory
  | semFull
  | waits
  | noList
  deriving DecidableEq, Repr

/-- What is wrong in any call. -/
def Stop.Bad (e : Stop) : Prop := e = .fault ∨ e = .endless

theorem Stop.not_bad {e : Stop} (hfault : e ≠ .fault) (hendless : e ≠ .endless) : ¬ e.Bad :=
  not_or.mpr ⟨hfault, hendless⟩

/-- `SEM_VALUE_MAX`. -/
def semValueMax : ℕ := 2147483647

/-- The cells, the lists and the semaphores of the queues. `enqueued` and `dequeued` list what
`bqueueEnqueue` was given and what `bqueueDequeue` returned. -/
structure State (A V : Type) where
  cells : Cells A V
  mallocs : ℕ
  lists : Ref → Option (TrList A)
  readSem : ℕ → ℕ
  enqueued : ℕ → List (Option V)
  dequeued : ℕ → List (Option V)

variable {A V : Type} [DecidableEq A]

def State.initial : State A V where
  cells := fun _ => none
  mallocs := 0
  lists := fun _ => none
  readSem := fun _ => 0
  enqueued := fun _ => []
  dequeued := fun _ => []

namespace State

/-- The cell behind a pointer. -/
def load (s : State A V) : Option A → Except Stop (Cell A V)
  | none => .error .fault
  | some p =>
    match s.cells p with
    | none => .error .fault
    | some c => .ok c

def setCell (s : State A V) (p : A) (c : Option (Cell A V)) : State A V :=
  { s with cells := Function.update s.cells p c }

/-- An assignment to a field of the cell behind a pointer. -/
def store (s : State A V) (assign : Cell A V → Cell A V) : Option A → Except Stop (State A V)
  | none => .error .fault
  | some p =>
    match s.cells p with
    | none => .error .fault
    | some c => .ok (s.setCell p (some (assign c)))

def free (s : State A V) : Option A → Except Stop (State A V)
  | none => .error .fault
  | some p =>
    match s.cells p with
    | none => .error .fault
    | some _ => .ok (s.setCell p none)

def getList (s : State A V) (r : Ref) : Except Stop (TrList A) :=
  match s.lists r with
  | none => .error .noList
  | some t => .ok t

def setList (s : State A V) (r : Ref) (t : TrList A) : State A V :=
  { s with lists := Function.update s.lists r (some t) }

section Operations

-- where each call of `malloc` finds memory, and what is written there
variable (alloc : ℕ → Option (A × Cell A V))

/-- `malloc` and the assertion that it has found memory. -/
def malloc (s : State A V) : Except Stop (Option A × State A V) :=
  match alloc s.mallocs with
  | none => .error .noMemory
  | some (p, garbage) =>
    if (s.cells p).isNone then
      .ok (some p, { s.setCell p (some garbage) with mallocs := s.mallocs + 1 })
    else .error .noMemory

def newList (r : Ref) (s : State A V) : Except Stop (State A V) := do
  let (first, s) ← s.malloc alloc
  let t : TrList A := ⟨first, first⟩
  let s ← s.store (fun c => { c with value := none }) t.last
  let s ← s.store (fun c => { c with next := none }) t.last
  let s ← s.store (fun c => { c with previous := none }) t.last
  return s.setList r t

/-- `listRemoveFirst` and the value that it returns. -/
def listRemoveFirst (r : Ref) (s : State A V) : Except Stop (Option V × State A V) := do
  let t ← s.getList r
  match t.first with
  | none => return (none, s)
  | some link => do
    let c ← s.load link
    match c.value with
    | none => return (none, s)
    | some _ => do
      let c ← s.load link
      let s ← s.store (fun c => { c with previous := none }) c.next
      let c ← s.load link
      let s := s.setList r { t with first := c.next }
      let c ← s.load link
      let s ← s.free link
      return (c.value, s)

def listAppend (r : Ref) (anElt : Option V) (s : State A V) : Except Stop (State A V) :=
  match anElt with
  | none => return s
  | some _ => do
    let (link, s) ← s.malloc alloc
    let s ← s.store (fun c => { c with next := none }) link
    let s ← s.store (fun c => { c with value := none }) link
    let t ← s.getList r
    let exLast := t.last
    let s := s.setList r { t with last := link }
    let s ← s.store (fun c => { c with next := link }) exLast
    let s ← s.store (fun c => { c with previous := exLast }) link
    s.store (fun c => { c with value := anElt }) exLast

/-- The loop of `cleanList`, within so many turns; the pointer is `link`. -/
def cleanLoop : ℕ → Option A → State A V → Except Stop (Option A × State A V)
  | 0, _, _ => .error .endless
  | turns + 1, link, s => do
    let c ← s.load link
    match c.value with
    | none => return (link, s)
    | some _ => do
      let c ← s.load link
      let s ← s.free link
      cleanLoop turns c.next s

def cleanList (r : Ref) (s : State A V) : Except Stop (State A V) := do
  let t ← s.getList r
  let (link, s) ← cleanLoop (s.mallocs + 1) t.first s
  return s.setList r { t with first := link, last := link }

def newBqueue (q : ℕ) (s : State A V) : Except Stop (State A V) := do
  let s ← s.newList alloc (.queue q)
  return { s with readSem := Function.update s.readSem q 0 }

def semPost (q : ℕ) (s : State A V) : Except Stop (State A V) :=
  if s.readSem q < semValueMax then
    .ok { s with readSem := Function.update s.readSem q (s.readSem q + 1) }
  else .error .semFull

def bqueueEnqueue (q : ℕ) (anElt : Option V) (s : State A V) : Except Stop (State A V) := do
  let s ← s.listAppend alloc (.queue q) anElt
  let s := { s with enqueued := Function.update s.enqueued q (s.enqueued q ++ [anElt]) }
  s.semPost q

def bqueueDequeue (q : ℕ) (s : State A V) : Except Stop (State A V) :=
  if s.readSem q = 0 then .error .waits
  else do
    let s := { s with readSem := Function.update s.readSem q (s.readSem q - 1) }
    let (val, s) ← s.listRemoveFirst (.queue q)
    return { s with dequeued := Function.update s.dequeued q (s.dequeued q ++ [val]) }

/-- The loop of `bqueueExtend`. -/
def extendLoop (q : ℕ) : ℕ → Option A → State A V → Except Stop (State A V)
  | 0, _, _ => .error .endless
  | turns + 1, link, s =>
    match link with
    | none => return s
    | some p => do
      let c ← s.load p
      match c.value with
      | none => return s
      | some _ => do
        let c ← s.load p
        let s ← s.bqueueEnqueue alloc q c.value
        let c ← s.load p
        extendLoop q turns c.next s

def bqueueExtend (q l : ℕ) (s : State A V) : Except Stop (State A V) := do
  let t ← s.getList (.list l)
  s.extendLoop alloc q (s.mallocs + 1) t.first

end Operations

end State

/-- A call. The application and the middleware only give values that are not `NULL`. -/
inductive Event (V : Type) where
  | newList (l : ℕ)
  | listAppend (l : ℕ) (v : V)
  | listRemoveFirst (l : ℕ)
  | cleanList (l : ℕ)
  | newBqueue (q : ℕ)
  | bqueueEnqueue (q : ℕ) (v : V)
  | bqueueExtend (q l : ℕ)
  | bqueueDequeue (q : ℕ)
  deriving DecidableEq, Repr

section Step

variable (alloc : ℕ → Option (A × Cell A V))

def step (s : State A V) : Event V → Except Stop (State A V)
  | .newList l => if (s.lists (.list l)).isNone then s.newList alloc (.list l) else .error .noList
  | .listAppend l v => s.listAppend alloc (.list l) (some v)
  | .listRemoveFirst l => do
    let (_, s) ← s.listRemoveFirst (.list l)
    return s
  | .cleanList l => s.cleanList (.list l)
  | .newBqueue q => if (s.lists (.queue q)).isNone then s.newBqueue alloc q else .error .noList
  | .bqueueEnqueue q v => s.bqueueEnqueue alloc q (some v)
  | .bqueueExtend q l =>
    if (s.lists (.queue q)).isSome then s.bqueueExtend alloc q l else .error .noList
  | .bqueueDequeue q => s.bqueueDequeue q

def run (es : List (Event V)) : Except Stop (State A V) := es.foldlM (step alloc) .initial

end Step

/-! ## What the lists and queues are for -/

/-- The elements of each list and queue. -/
abbrev Fifos (V : Type) : Type := Ref → Option (List V)

namespace Fifos

def set (f : Fifos V) (r : Ref) (vs : List V) : Fifos V := Function.update f r (some vs)

def step (f : Fifos V) : Event V → Option (Fifos V)
  | .newList l => some (f.set (.list l) [])
  | .listAppend l v => (f (.list l)).map fun vs => f.set (.list l) (vs ++ [v])
  | .listRemoveFirst l => (f (.list l)).map fun vs => f.set (.list l) vs.tail
  | .cleanList l => (f (.list l)).map fun _ => f.set (.list l) []
  | .newBqueue q => some (f.set (.queue q) [])
  | .bqueueEnqueue q v => (f (.queue q)).map fun vs => f.set (.queue q) (vs ++ [v])
  | .bqueueExtend q l => do
    let moved ← f (.list l)
    let vs ← f (.queue q)
    return f.set (.queue q) (vs ++ moved)
  | .bqueueDequeue q =>
    match f (.queue q) with
    | some (_ :: vs) => some (f.set (.queue q) vs)
    | _ => none

end Fifos

/-! ## The invariant -/

namespace State

variable {s s' : State A V} {alloc : ℕ → Option (A × Cell A V)} {ps : Ref → List A}
  {vs : Ref → List V} {r : Ref} {t : TrList A} {p : A} {c : Cell A V}

/-- The list starts and ends where the chain does. -/
structure ListAt (cells : Cells A V) (t : TrList A) (ps : List A) (vs : List V) : Prop where
  chain : Chain cells ps vs
  nodup : ps.Nodup
  first : t.first = ps.head?
  last : t.last = ps.getLast?

/-- The lists are apart from each other, and no longer than the number of cells allocated. -/
structure Laid (s : State A V) (ps : Ref → List A) (vs : Ref → List V) : Prop where
  lists : ∀ r t, s.lists r = some t → ListAt s.cells t (ps r) (vs r)
  unused : ∀ r, s.lists r = none → ps r = [] ∧ vs r = []
  apart : ∀ r r', r ≠ r' → (ps r).Disjoint (ps r')
  short : ∀ r, (ps r).length ≤ s.mallocs

/-- The semaphores count the elements, and all that was enqueued was dequeued in its order or is
still there. -/
def Counted (s : State A V) (vs : Ref → List V) : Prop :=
  ∀ q, s.readSem q = (vs (.queue q)).length ∧
    s.enqueued q = s.dequeued q ++ (vs (.queue q)).map some ∧ none ∉ s.dequeued q

/-- The list exists, and the same lists as before. -/
def SameLists (s s' : State A V) (r : Ref) : Prop :=
  (s.lists r).isSome ∧ ∀ r', (s'.lists r').isSome = (s.lists r').isSome

/-- Nothing happened to the semaphores, and nothing was enqueued nor dequeued. -/
structure SameQueues (s s' : State A V) : Prop where
  readSem : s'.readSem = s.readSem
  enqueued : s'.enqueued = s.enqueued
  dequeued : s'.dequeued = s.dequeued

/-- What an operation on a list alone leaves as it was. -/
structure Alike (s s' : State A V) (r : Ref) : Prop where
  lists : s.SameLists s' r
  queues : s.SameQueues s'

omit [DecidableEq A] in
theorem Laid.allocated (hs : s.Laid ps vs) (r : Ref) : ∀ a ∈ ps r, s.cells a ≠ none := by
  cases ht : s.lists r with
  | none =>
    rw [(hs.unused r ht).1]
    exact fun a ha => absurd ha List.not_mem_nil
  | some t => exact (hs.lists r t ht).chain.allocated

omit [DecidableEq A] in
/-- The number of turns is enough for the loops over a list. -/
theorem Laid.length_lt (hs : s.Laid ps vs) (ht : s.lists r = some t) :
    (vs r).length < s.mallocs + 1 := by
  have hshort := hs.short r
  rw [(hs.lists r t ht).chain.length_eq] at hshort
  omega

omit [DecidableEq A] in
/-- An operation on one list, in cells that no other list has. -/
theorem Laid.update {new : List A} {ws : List V} (hs : s.Laid ps vs)
    (hlists : s'.lists = Function.update s.lists r (some t)) (hlist : ListAt s'.cells t new ws)
    (hsame : ∀ r' ≠ r, ∀ a ∈ ps r',
      (s'.cells a).map Cell.forward = (s.cells a).map Cell.forward)
    (hapart : ∀ r' ≠ r, (ps r').Disjoint new) (hshort : new.length ≤ s'.mallocs)
    (hmallocs : s.mallocs ≤ s'.mallocs) :
    s'.Laid (Function.update ps r new) (Function.update vs r ws) where
  lists := by
    intro r' t' ht'
    rw [hlists] at ht'
    by_cases hr : r' = r
    · subst hr
      rw [Function.update_self] at ht' ⊢
      obtain rfl := Option.some.inj ht'
      rwa [Function.update_self]
    · rw [Function.update_of_ne hr] at ht' ⊢
      rw [Function.update_of_ne hr]
      obtain ⟨hchain, hnodup, hfirst, hlast⟩ := hs.lists r' t' ht'
      exact ⟨hchain.congr (hsame r' hr), hnodup, hfirst, hlast⟩
  unused := by
    intro r' hr'
    rw [hlists] at hr'
    by_cases hr : r' = r
    · subst hr
      rw [Function.update_self] at hr'
      cases hr'
    · rw [Function.update_of_ne hr] at hr' ⊢
      rw [Function.update_of_ne hr]
      exact hs.unused r' hr'
  apart := by
    intro r₁ r₂ hne
    by_cases h₁ : r₁ = r
    · subst h₁
      rw [Function.update_self, Function.update_of_ne (Ne.symm hne)]
      exact List.disjoint_comm.mp (hapart r₂ (Ne.symm hne))
    · by_cases h₂ : r₂ = r
      · subst h₂
        rw [Function.update_self, Function.update_of_ne h₁]
        exact hapart r₁ h₁
      · rw [Function.update_of_ne h₁, Function.update_of_ne h₂]
        exact hs.apart r₁ r₂ hne
  short := by
    intro r'
    by_cases hr : r' = r
    · subst hr
      rwa [Function.update_self]
    · rw [Function.update_of_ne hr]
      exact Nat.le_trans (hs.short r') hmallocs

/-! ## One rule for each operation on the memory -/

omit [DecidableEq A] in
theorem load_ensures (h : s.cells p = some c) : Ensures Stop.Bad (s.load (some p)) (c = ·) := by
  rw [load, h]
  rfl

theorem store_ensures {assign : Cell A V → Cell A V} (h : s.cells p = some c) :
    Ensures Stop.Bad (s.store assign (some p))
      (· = s.setCell p (some (assign c))) := by
  rw [store, h]
  rfl

theorem free_ensures (h : s.cells p = some c) : Ensures Stop.Bad (s.free (some p))
    (· = s.setCell p none) := by
  rw [free, h]
  rfl

theorem not_bad_noList : ¬ Stop.Bad .noList := Stop.not_bad (by decide) (by decide)

omit [DecidableEq A] in
theorem getList_ensures : Ensures Stop.Bad (s.getList r) (s.lists r = some ·) := by
  rw [getList]
  cases s.lists r with
  | none => exact ensures_error not_bad_noList
  | some t => exact ensures_ok rfl

theorem malloc_ensures : Ensures Stop.Bad (s.malloc alloc) fun x => ∃ p garbage,
    s.cells p = none ∧
      x = (some p, { s.setCell p (some garbage) with mallocs := s.mallocs + 1 }) := by
  have hnot : ¬ Stop.Bad .noMemory := Stop.not_bad (by decide) (by decide)
  rw [malloc]
  cases alloc s.mallocs with
  | none => exact ensures_error hnot
  | some found =>
    obtain ⟨p, garbage⟩ := found
    dsimp only
    split
    · rename_i hfree
      exact ensures_ok ⟨p, garbage, Option.isNone_iff_eq_none.mp hfree, rfl⟩
    · exact ensures_error hnot

/-! ## The operations on lists -/

theorem newList_ensures (hs : s.Laid ps vs) : Ensures Stop.Bad (s.newList alloc r) fun s' =>
    s.SameQueues s' ∧ ∃ t first, s'.lists = Function.update s.lists r (some t) ∧
        s'.Laid (Function.update ps r [first]) (Function.update vs r []) := by
  refine malloc_ensures.bind ?_
  rintro _ ⟨first, garbage, hfree, rfl⟩
  refine (store_ensures (Function.update_self ..)).bind ?_
  rintro _ rfl
  refine (store_ensures (Function.update_self ..)).bind ?_
  rintro _ rfl
  refine (store_ensures (Function.update_self ..)).bind ?_
  rintro _ rfl
  have hnew : ∀ r', first ∉ ps r' := fun r' hmem => hs.allocated r' first hmem hfree
  refine ensures_ok ⟨⟨rfl, rfl, rfl⟩, ⟨some first, some first⟩, first, rfl, ?_⟩
  refine hs.update (t := ⟨some first, some first⟩) rfl ⟨?_, ?_, ?_, ?_⟩ ?_ ?_ ?_ ?_
  · exact .last (Function.update_self ..) rfl rfl
  · exact List.nodup_singleton _
  · rfl
  · rfl
  · intro r' _ a ha
    have hne : a ≠ first := fun heq => hnew r' (heq ▸ ha)
    simp only [setList, setCell, Function.update_of_ne hne]
  · exact fun r' _ => List.disjoint_singleton.mpr (hnew r')
  · exact Nat.succ_le_succ (Nat.zero_le _)
  · exact Nat.le_succ _

omit [DecidableEq A] in
theorem sameLists_update {t' : TrList A} (ht : s.lists r = some t)
    (h : s'.lists = Function.update s.lists r (some t')) : s.SameLists s' r := by
  rw [SameLists, ht, h]
  refine ⟨rfl, ?_⟩
  intro r'
  by_cases hr : r' = r
  · subst hr
    rw [Function.update_self, ht]
    rfl
  · rw [Function.update_of_ne hr]

/-- What `listAppend` does to the cells: `p` was the last one, and `link` is new. -/
structure Appended (s s' : State A V) (r : Ref) (t : TrList A) (p link : A) (v : V) : Prop where
  fresh : s.cells link = none
  filled : ∃ c, s'.cells p = some c ∧ c.value = some v ∧ c.next = some link
  empty : ∃ c, s'.cells link = some c ∧ c.value = none ∧ c.next = none
  others : ∀ a, a ≠ p → a ≠ link → s'.cells a = s.cells a
  lists : s'.lists = Function.update s.lists r (some { t with last := some link })
  mallocs : s'.mallocs = s.mallocs + 1

theorem listAppend_appended (v : V) (hlast : ∀ t, s.lists r = some t →
    ∃ p, t.last = some p ∧ s.cells p ≠ none) :
    Ensures Stop.Bad (s.listAppend alloc r (some v)) fun s' => s.Alike s' r ∧
      ∃ t p link, s.lists r = some t ∧ t.last = some p ∧ s.Appended s' r t p link v := by
  refine malloc_ensures.bind ?_
  rintro _ ⟨link, garbage, hfree, rfl⟩
  dsimp only
  refine (store_ensures (Function.update_self ..)).bind ?_
  rintro _ rfl
  refine (store_ensures (Function.update_self ..)).bind ?_
  rintro _ rfl
  refine getList_ensures.bind ?_
  intro t ht
  obtain ⟨p, hp, hallocated⟩ := hlast t ht
  obtain ⟨c, hc⟩ := Option.ne_none_iff_exists'.mp hallocated
  have hne : p ≠ link := by
    rintro rfl
    exact hallocated hfree
  rw [hp]
  refine (store_ensures (c := c) ?_).bind ?_
  · simpa only [setList, setCell, Function.update_of_ne hne] using hc
  rintro _ rfl
  refine (store_ensures (c := ⟨none, none, garbage.previous⟩) ?_).bind ?_
  · simp only [setList, setCell, Function.update_of_ne hne.symm, Function.update_self]
  rintro _ rfl
  refine (store_ensures (c := ⟨c.value, some link, c.previous⟩) ?_).mono ?_
  · simp only [setList, setCell, Function.update_of_ne hne, Function.update_self]
  rintro _ rfl
  refine ⟨⟨sameLists_update ht rfl, rfl, rfl, rfl⟩, t, p, link, ht, hp, hfree, ?_, ?_, ?_, rfl, rfl⟩
  · exact ⟨_, Function.update_self .., rfl, rfl⟩
  · refine ⟨⟨none, none, some p⟩, ?_, rfl, rfl⟩
    simp only [setList, setCell, Function.update_of_ne hne.symm, Function.update_self]
  · intro a hap hlink
    simp only [setList, setCell, Function.update_of_ne hap, Function.update_of_ne hlink]

/-- A new last cell, which no list has. -/
theorem listAppend_ensures (hs : s.Laid ps vs) (v : V) :
    Ensures Stop.Bad (s.listAppend alloc r (some v)) fun s' => s.Alike s' r ∧
      (∀ r' ≠ r, ∀ a ∈ ps r', s'.cells a = s.cells a) ∧
      ∃ link, s'.Laid (Function.update ps r (ps r ++ [link]))
        (Function.update vs r (vs r ++ [v])) := by
  have hlast : ∀ t, s.lists r = some t → ∃ p, t.last = some p ∧ p ∈ ps r := by
    intro t ht
    obtain ⟨hchain, -, -, hlast⟩ := hs.lists r t ht
    exact ⟨_, hlast.trans (List.getLast?_eq_getLast_of_ne_nil hchain.ne_nil), List.getLast_mem _⟩
  refine (listAppend_appended v ?_).mono ?_
  · intro t ht
    obtain ⟨p, hp, hmem⟩ := hlast t ht
    exact ⟨p, hp, hs.allocated r p hmem⟩
  rintro s' ⟨halike, t, p, link, ht, hp, hs'⟩
  obtain ⟨hchain, hnodup, hfirst, hlast'⟩ := hs.lists r t ht
  obtain ⟨init, hps⟩ : ∃ init, ps r = init ++ [p] :=
    List.getLast?_eq_some_iff.mp (hlast'.symm.trans hp)
  have hnew : ∀ r', link ∉ ps r' := fun r' hlink => hs.allocated r' link hlink hs'.fresh
  have hsame : ∀ r' a, a ∈ ps r' → a ≠ p → s'.cells a = s.cells a :=
    fun r' a ha hap => hs'.others a hap fun heq => hnew r' (heq ▸ ha)
  have hframe : ∀ r' ≠ r, ∀ a ∈ ps r', s'.cells a = s.cells a := by
    intro r' hr a ha
    apply hsame r' a ha
    rintro rfl
    exact hs.apart r' r hr ha (hps ▸ List.mem_append_right _ (List.mem_singleton_self a))
  refine ⟨halike, hframe, link, ?_⟩
  refine hs.update hs'.lists ⟨?_, ?_, ?_, ?_⟩ ?_ ?_ ?_ ?_
  · obtain ⟨c, hc, hvalue, hnext⟩ := hs'.filled
    obtain ⟨d, hd, hdvalue, hdnext⟩ := hs'.empty
    rw [hps] at hchain ⊢
    refine hchain.concat ?_ hc hvalue hnext hd hdvalue hdnext
    intro a ha
    rw [hsame r a (hps ▸ List.mem_append_left _ ha)]
    rintro rfl
    rw [hps] at hnodup
    exact List.disjoint_of_nodup_append hnodup ha (List.mem_singleton_self a)
  · exact hnodup.append (List.nodup_singleton _) (List.disjoint_singleton.mpr (hnew r))
  · exact hfirst.trans (List.head?_append_of_ne_nil _ hchain.ne_nil).symm
  · exact List.getLast?_concat.symm
  · exact fun r' hr a ha => congrArg _ (hframe r' hr a ha)
  · intro r' hr
    exact List.disjoint_append_right.mpr ⟨hs.apart r' r hr, List.disjoint_singleton.mpr (hnew r')⟩
  · rw [List.length_append, List.length_singleton, hs'.mallocs]
    exact Nat.succ_le_succ (hs.short r)
  · rw [hs'.mallocs]
    exact Nat.le_succ _

/-- What `listRemoveFirst` leaves: `p` was the first cell, and `q` is the next one. -/
def withoutFirst (s : State A V) (r : Ref) (t : TrList A) (p q : A) (d : Cell A V) : State A V :=
  let s := s.setCell q (some { d with previous := none })
  (s.setList r { t with first := some q }).setCell p none

theorem listRemoveFirst_cons {q : A} {d : Cell A V} {v : V} (ht : s.lists r = some t)
    (hfirst : t.first = some p) (hp : s.cells p = some c) (hvalue : c.value = some v)
    (hnext : c.next = some q) (hd : s.cells q = some d) (hne : p ≠ q) :
    Ensures Stop.Bad (s.listRemoveFirst r) (· = (some v, s.withoutFirst r t p q d)) := by
  refine getList_ensures.bind ?_
  intro t' ht'
  obtain rfl := Option.some.inj (ht.symm.trans ht')
  dsimp only
  rw [hfirst]
  refine (load_ensures hp).bind ?_
  rintro _ rfl
  rw [hvalue]
  refine (load_ensures hp).bind ?_
  rintro _ rfl
  rw [hnext]
  refine (store_ensures hd).bind ?_
  rintro _ rfl
  have hp' : ∀ o, (s.setCell q o).cells p = some c :=
    fun _ => (Function.update_of_ne hne _ _).trans hp
  have hp'' : ∀ o t', ((s.setCell q o).setList r t').cells p = some c := fun o _ => hp' o
  refine (load_ensures (hp' _)).bind ?_
  rintro _ rfl
  refine (load_ensures (hp'' _ _)).bind ?_
  rintro _ rfl
  refine (free_ensures (hp'' _ _)).bind ?_
  rintro _ rfl
  rw [hnext]
  exact ensures_ok (Prod.ext hvalue rfl)

/-- The backward pointer that is cleared is not part of any chain. -/
theorem withoutFirst_forward {q a : A} {d : Cell A V} (hd : s.cells q = some d) (hap : a ≠ p) :
    ((s.withoutFirst r t p q d).cells a).map Cell.forward = (s.cells a).map Cell.forward := by
  simp only [withoutFirst, setCell, setList, Function.update_of_ne hap]
  by_cases haq : a = q
  · rw [haq, Function.update_self, hd]
    rfl
  · rw [Function.update_of_ne haq]

/-- The first element, and a list without it. -/
theorem listRemoveFirst_ensures (hs : s.Laid ps vs) : Ensures Stop.Bad (s.listRemoveFirst r)
    fun x => x.1 = (vs r).head? ∧ s.Alike x.2 r ∧
      ∃ ps', x.2.Laid ps' (Function.update vs r (vs r).tail) := by
  cases ht : s.lists r with
  | none =>
    rw [listRemoveFirst, getList, ht]
    exact ensures_error not_bad_noList
  | some t =>
    obtain ⟨hchain, hnodup, hfirst, hlast⟩ := hs.lists r t ht
    generalize hws : vs r = ws at hchain
    generalize hqs : ps r = qs at hchain hnodup hfirst hlast
    cases hchain with
    | @last p c hp hvalue hnext =>
      rw [listRemoveFirst, getList, ht]
      refine (ensures_ok (P := (· = t)) rfl).bind ?_
      rintro _ rfl
      rw [hfirst]
      refine (load_ensures hp).bind ?_
      rintro _ rfl
      rw [hvalue]
      refine ensures_ok ⟨rfl, ⟨⟨by rw [ht]; rfl, fun _ => rfl⟩, rfl, rfl, rfl⟩, ps, ?_⟩
      rw [List.tail_nil, ← hws, Function.update_eq_self]
      exact hs
    | @cons p qs c v ws hp hvalue hnext hrest =>
      obtain ⟨q, d, hq, hd, -⟩ := hrest.head_value
      rw [List.nodup_cons] at hnodup
      have hne : p ≠ q := fun heq => hnodup.1 (heq ▸ List.mem_of_mem_head? hq)
      refine (listRemoveFirst_cons ht hfirst hp hvalue (hnext.trans hq) hd hne).mono ?_
      rintro _ rfl
      have hforward : ∀ a, a ≠ p → ((s.withoutFirst r t p q d).cells a).map Cell.forward =
          (s.cells a).map Cell.forward := fun a => withoutFirst_forward hd
      have hmem : ∀ a ∈ qs, a ∈ ps r := fun a ha => hqs ▸ List.mem_cons_of_mem p ha
      refine ⟨rfl, ⟨sameLists_update ht rfl, rfl, rfl, rfl⟩, Function.update ps r qs, ?_⟩
      refine hs.update rfl ⟨?_, hnodup.2, hq.symm, ?_⟩ ?_ ?_ ?_ (Nat.le_refl _)
      · exact hrest.congr fun a ha => hforward a fun heq => hnodup.1 (heq ▸ ha)
      · exact hlast.trans (List.getLast?_cons_of_ne_nil hrest.ne_nil)
      · intro r' hr a ha
        refine hforward a ?_
        rintro rfl
        exact hs.apart r' r hr ha (hqs ▸ List.mem_cons_self)
      · exact fun r' hr a ha ha' => hs.apart r' r hr ha (hmem a ha')
      · have hshort := hs.short r
        rw [hqs] at hshort
        exact Nat.le_of_succ_le hshort

/-- The loop frees all the cells but the last one, in fewer turns than there are cells. -/
theorem cleanLoop_ensures {qs : List A} {ws : List V} {turns : ℕ} (hchain : Chain s.cells qs ws)
    (hnodup : qs.Nodup) (hturns : ws.length < turns) :
    Ensures Stop.Bad (s.cleanLoop turns qs.head?) fun x =>
      x.2 = { s with cells := x.2.cells } ∧ (∀ a, a ∉ qs → x.2.cells a = s.cells a) ∧
        ∃ last ∈ qs, x.1 = some last ∧ Chain x.2.cells [last] [] := by
  induction ws generalizing s qs turns with
  | nil =>
    cases hchain with
    | @last p c hp hvalue hnext =>
      obtain ⟨turns, rfl⟩ := Nat.exists_eq_add_of_lt hturns
      refine (load_ensures hp).bind ?_
      rintro _ rfl
      rw [hvalue]
      exact ensures_ok ⟨rfl, fun _ _ => rfl, p, List.mem_singleton_self p, rfl,
        .last hp hvalue hnext⟩
  | cons v ws ih =>
    cases hchain with
    | @cons p qs c v ws hp hvalue hnext hrest =>
      obtain ⟨turns, rfl⟩ := Nat.exists_eq_add_of_lt hturns
      rw [List.nodup_cons] at hnodup
      refine (load_ensures hp).bind ?_
      rintro _ rfl
      rw [hvalue]
      refine (load_ensures hp).bind ?_
      rintro _ rfl
      refine (free_ensures hp).bind ?_
      rintro _ rfl
      have hkept : ∀ a, a ≠ p → (s.setCell p none).cells a = s.cells a :=
        fun a hap => Function.update_of_ne hap _ _
      have hchain' : Chain (s.setCell p none).cells qs ws := by
        refine hrest.congr fun a ha => ?_
        rw [hkept a fun heq => hnodup.1 (heq ▸ ha)]
      rw [hnext]
      refine (ih hchain' hnodup.2 ?_).mono ?_
      · rw [List.length_cons]
        omega
      rintro ⟨link, s'⟩ ⟨hcells, hothers, last, hlast, hlink, hchain''⟩
      refine ⟨?_, ?_, last, List.mem_cons_of_mem p hlast, hlink, hchain''⟩
      · exact hcells
      · intro a ha
        rw [List.mem_cons, not_or] at ha
        exact (hothers a ha.2).trans (hkept a ha.1)

/-- The last cell is kept, with its backward pointer to a cell that has been freed. -/
theorem cleanList_ensures (hs : s.Laid ps vs) : Ensures Stop.Bad (s.cleanList r) fun s' =>
    s.Alike s' r ∧ ∃ last, s'.Laid (Function.update ps r [last]) (Function.update vs r []) := by
  refine getList_ensures.bind ?_
  intro t ht
  obtain ⟨hchain, hnodup, hfirst, hlast⟩ := hs.lists r t ht
  rw [hfirst]
  refine (cleanLoop_ensures hchain hnodup (hs.length_lt ht)).bind ?_
  rintro ⟨link, s'⟩ ⟨hcells, hothers, last, hmem, hlink, hchain'⟩
  dsimp only at hcells hothers hlink hchain'
  rw [hlink, hcells]
  refine ensures_ok ⟨⟨sameLists_update ht rfl, rfl, rfl, rfl⟩, last, ?_⟩
  refine hs.update rfl ⟨hchain', List.nodup_singleton last, rfl, rfl⟩ ?_ ?_ ?_ (Nat.le_refl _)
  · intro r' hr a ha
    exact congrArg _ (hothers a fun hmem' => hs.apart r' r hr ha hmem')
  · intro r' hr
    exact List.disjoint_singleton.mpr fun hlast' => hs.apart r' r hr hlast' hmem
  · exact Nat.le_trans (List.length_pos_of_mem hmem) (hs.short r)

/-! ## The operations on queues -/

omit [DecidableEq A] in
/-- An operation on one queue. -/
theorem Counted.update {q : ℕ} {ws : List V} (hs : s.Counted vs)
    (hsame : ∀ q' ≠ q, s'.readSem q' = s.readSem q' ∧ s'.enqueued q' = s.enqueued q' ∧
      s'.dequeued q' = s.dequeued q')
    (hq : s'.readSem q = ws.length ∧ s'.enqueued q = s'.dequeued q ++ ws.map some ∧
      none ∉ s'.dequeued q) : s'.Counted (Function.update vs (.queue q) ws) := by
  intro q'
  by_cases hne : q' = q
  · subst hne
    rwa [Function.update_self]
  · obtain ⟨hsem, henqueued, hdequeued⟩ := hsame q' hne
    rw [Function.update_of_ne fun heq => hne (Ref.queue.inj heq), hsem, henqueued, hdequeued]
    exact hs q'

omit [DecidableEq A] in
/-- An operation on a list that is not that of a queue. -/
theorem Counted.of_sameQueues {l : ℕ} {ws : List V} (hs : s.Counted vs) (hsame : s.SameQueues s') :
    s'.Counted (Function.update vs (.list l) ws) := by
  intro q
  have hne : Ref.queue q ≠ .list l := nofun
  rw [Function.update_of_ne hne, hsame.readSem, hsame.enqueued, hsame.dequeued]
  exact hs q

theorem bqueueEnqueue_ensures {q : ℕ} (hs : s.Laid ps vs) (hc : s.Counted vs) (v : V) :
    Ensures Stop.Bad (s.bqueueEnqueue alloc q (some v)) fun s' => s.SameLists s' (.queue q) ∧
      (∀ r ≠ .queue q, ∀ a ∈ ps r, s'.cells a = s.cells a) ∧
      (∃ link, s'.Laid (Function.update ps (.queue q) (ps (.queue q) ++ [link]))
        (Function.update vs (.queue q) (vs (.queue q) ++ [v]))) ∧
      s'.Counted (Function.update vs (.queue q) (vs (.queue q) ++ [v])) := by
  refine (listAppend_ensures hs v).bind ?_
  rintro s₁ ⟨halike, hframe, hlaid⟩
  obtain ⟨hsem, henqueued, hnull⟩ := hc q
  dsimp only
  rw [semPost]
  split
  · refine ensures_ok ⟨halike.lists, hframe, ?_, hc.update ?_ ?_⟩
    · obtain ⟨link, hlaid⟩ := hlaid
      exact ⟨link, hlaid.lists, hlaid.unused, hlaid.apart, hlaid.short⟩
    · intro q' hne
      simp only [Function.update_of_ne hne]
      obtain ⟨hreadSem, henqueued', hdequeued'⟩ := halike.queues
      exact ⟨congrFun hreadSem q', congrFun henqueued' q', congrFun hdequeued' q'⟩
    · simp only [Function.update_self, halike.queues.readSem, halike.queues.enqueued,
        halike.queues.dequeued]
      rw [hsem, henqueued, List.length_append, List.map_append, List.append_assoc]
      exact ⟨rfl, rfl, hnull⟩
  · exact ensures_error (Stop.not_bad (by decide) (by decide))

/-- `sem_wait` has returned: the queue is not empty. -/
theorem bqueueDequeue_ensures {q : ℕ} (hs : s.Laid ps vs) (hc : s.Counted vs) :
    Ensures Stop.Bad (s.bqueueDequeue q) fun s' => s.SameLists s' (.queue q) ∧ vs (.queue q) ≠ [] ∧
      (∃ ps', s'.Laid ps' (Function.update vs (.queue q) (vs (.queue q)).tail)) ∧
      s'.Counted (Function.update vs (.queue q) (vs (.queue q)).tail) := by
  rw [bqueueDequeue]
  split
  · exact ensures_error (Stop.not_bad (by decide) (by decide))
  · rename_i hwaits
    obtain ⟨hsem, henqueued, hnull⟩ := hc q
    have hne : vs (.queue q) ≠ [] := by
      intro hnil
      rw [hnil] at hsem
      exact hwaits hsem
    obtain ⟨v, ws, hws⟩ := List.exists_cons_of_ne_nil hne
    have hs₀ :
        ({ s with readSem := Function.update s.readSem q (s.readSem q - 1) } : State A V).Laid
        ps vs := ⟨hs.lists, hs.unused, hs.apart, hs.short⟩
    refine (listRemoveFirst_ensures hs₀).bind ?_
    rintro ⟨val, s₁⟩ ⟨hval, ⟨hlists₁, hsem₁, henqueued₁, hdequeued₁⟩, ps', hlaid⟩
    rw [hws] at hval hsem henqueued hlaid ⊢
    dsimp only at hval hsem₁ henqueued₁ hdequeued₁
    subst hval
    refine ensures_ok ⟨hlists₁, List.cons_ne_nil v ws,
      ⟨ps', hlaid.lists, hlaid.unused, hlaid.apart, hlaid.short⟩, hc.update ?_ ?_⟩
    · intro q' hne
      simp only [hsem₁, henqueued₁, hdequeued₁, Function.update_of_ne hne, and_self]
    · simp only [hsem₁, henqueued₁, hdequeued₁, Function.update_self]
      refine ⟨?_, ?_, ?_⟩
      · rw [hsem]
        rfl
      · rw [henqueued, List.append_assoc]
        rfl
      · rw [List.mem_append, not_or, List.mem_singleton]
        exact ⟨hnull, nofun⟩

/-- The loop enqueues the rest of a list, which stays as it is. -/
theorem extendLoop_ensures {q l turns : ℕ} {qs : List A} {ws : List V} (hs : s.Laid ps vs)
    (hc : s.Counted vs) (hchain : Chain s.cells qs ws) (hqs : ∀ a ∈ qs, a ∈ ps (.list l))
    (hturns : ws.length < turns) :
    Ensures Stop.Bad (s.extendLoop alloc q turns qs.head?) fun s' =>
      (∀ r, (s'.lists r).isSome = (s.lists r).isSome) ∧
      (∃ ps', s'.Laid ps' (Function.update vs (.queue q) (vs (.queue q) ++ ws))) ∧
      s'.Counted (Function.update vs (.queue q) (vs (.queue q) ++ ws)) := by
  induction ws generalizing s ps vs qs turns with
  | nil =>
    cases hchain with
    | @last p c hp hvalue hnext =>
      obtain ⟨turns, rfl⟩ := Nat.exists_eq_add_of_lt hturns
      refine (load_ensures hp).bind ?_
      rintro _ rfl
      rw [hvalue]
      rw [List.append_nil, Function.update_eq_self]
      exact ensures_ok ⟨fun _ => rfl, ⟨ps, hs⟩, hc⟩
  | cons v ws ih =>
    cases hchain with
    | @cons p qs c v ws hp hvalue hnext hrest =>
      obtain ⟨turns, rfl⟩ := Nat.exists_eq_add_of_lt hturns
      refine (load_ensures hp).bind ?_
      rintro _ rfl
      rw [hvalue]
      refine (load_ensures hp).bind ?_
      rintro _ rfl
      rw [hvalue]
      refine (bqueueEnqueue_ensures hs hc v).bind ?_
      rintro s₁ ⟨hlists, hframe, ⟨link, hlaid⟩, hcounted⟩
      have hkept : ∀ a ∈ p :: qs, s₁.cells a = s.cells a :=
        fun a ha => hframe (.list l) nofun a (hqs a ha)
      refine (load_ensures ((hkept p List.mem_cons_self).trans hp)).bind ?_
      rintro _ rfl
      have hchain₁ : Chain s₁.cells qs ws :=
        hrest.congr fun a ha => congrArg _ (hkept a (List.mem_cons_of_mem p ha))
      have hqs₁ : ∀ a ∈ qs,
          a ∈ Function.update ps (.queue q) (ps (.queue q) ++ [link]) (.list l) := by
        intro a ha
        have hne : Ref.list l ≠ .queue q := nofun
        rw [Function.update_of_ne hne]
        exact hqs a (List.mem_cons_of_mem p ha)
      rw [hnext]
      have hturns₁ : ws.length < ws.length + 1 + turns := by omega
      refine (ih hlaid hcounted hchain₁ hqs₁ hturns₁).mono ?_
      rintro s₂ ⟨hlists₂, hlaid₂, hcounted₂⟩
      rw [Function.update_idem, Function.update_self, List.append_assoc] at hlaid₂ hcounted₂
      exact ⟨fun r => (hlists₂ r).trans (hlists.2 r), hlaid₂, hcounted₂⟩

theorem bqueueExtend_ensures {q l : ℕ} (hs : s.Laid ps vs) (hc : s.Counted vs) :
    Ensures Stop.Bad (s.bqueueExtend alloc q l) fun s' => s.SameLists s' (.list l) ∧
      (∃ ps', s'.Laid ps' (Function.update vs (.queue q) (vs (.queue q) ++ vs (.list l)))) ∧
      s'.Counted (Function.update vs (.queue q) (vs (.queue q) ++ vs (.list l))) := by
  refine getList_ensures.bind ?_
  intro t ht
  obtain ⟨hchain, -, hfirst, -⟩ := hs.lists _ t ht
  rw [hfirst]
  refine (extendLoop_ensures hs hc hchain (fun _ ha => ha) (hs.length_lt ht)).mono ?_
  rintro s' ⟨hlists, hs'⟩
  exact ⟨⟨by rw [ht]; rfl, hlists⟩, hs'⟩

/-! ## Refinement -/

/-- The lists and queues have these elements. -/
def Represents (s : State A V) (f : Fifos V) : Prop :=
  ∃ ps vs, s.Laid ps vs ∧ s.Counted vs ∧ ∀ r, f r = (s.lists r).map fun _ => vs r

omit [DecidableEq A] in
/-- One list has changed, or is new. -/
theorem represents_update {f : Fifos V} {ws : List V}
    (hf : ∀ r, f r = (s.lists r).map fun _ => vs r)
    (hr : (s'.lists r).isSome) (hlists : ∀ r' ≠ r, (s'.lists r').isSome = (s.lists r').isSome) :
    ∀ r', f.set r ws r' = (s'.lists r').map fun _ => Function.update vs r ws r' := by
  have hconst : ∀ (o o' : Option (TrList A)) (w : List V), o'.isSome = o.isSome →
      o.map (fun _ => w) = o'.map fun _ => w := by
    intro o o' w h
    cases o with
    | none =>
      rw [Option.isSome_none, Option.isSome_eq_false_iff, Option.isNone_iff_eq_none] at h
      rw [h]
    | some t =>
      obtain ⟨t', rfl⟩ := Option.isSome_iff_exists.mp h
      rfl
  intro r'
  rw [Fifos.set]
  by_cases hne : r' = r
  · subst hne
    rw [Function.update_self, Function.update_self]
    exact (hconst _ (some ⟨none, none⟩) ws hr.symm).symm
  · rw [Function.update_of_ne hne, Function.update_of_ne hne, hf r']
    exact hconst _ _ _ (hlists r' hne)

omit [DecidableEq A] in
theorem represents_initial : (initial : State A V).Represents fun _ => none := by
  refine ⟨fun _ => [], fun _ => [], ⟨?_, fun _ _ => ⟨rfl, rfl⟩, ?_, fun _ => Nat.zero_le _⟩, ?_,
    fun _ => rfl⟩
  · intro r t ht
    cases ht
  · exact fun _ _ _ => List.disjoint_nil_left _
  · exact fun q => ⟨rfl, rfl, List.not_mem_nil⟩

end State

open Queues.State

variable {s s' : State A V} {alloc : ℕ → Option (A × Cell A V)} {f : Fifos V}

/-- Every call does to the cells what it should do to the elements. -/
theorem step_represents (hs : s.Represents f) (e : Event V) : Ensures Stop.Bad (step alloc s e)
    fun s' => ∃ f', f.step e = some f' ∧ s'.Represents f' := by
  obtain ⟨ps, vs, hlaid, hcounted, hf⟩ := hs
  have hget : ∀ r, (s.lists r).isSome → f r = some (vs r) := by
    intro r hr
    obtain ⟨t, ht⟩ := Option.isSome_iff_exists.mp hr
    rw [hf r, ht]
    rfl
  have hset : ∀ {s' : State A V} {r : Ref} (ws : List V), s.SameLists s' r →
      ∀ r', f.set r ws r' = (s'.lists r').map fun _ => Function.update vs r ws r' :=
    fun ws hsame => represents_update hf ((hsame.2 _).trans hsame.1) fun r' _ => hsame.2 r'
  have hnew : ∀ {s' : State A V} {r : Ref} {t : TrList A},
      s'.lists = Function.update s.lists r (some t) →
      ∀ r', f.set r [] r' = (s'.lists r').map fun _ => Function.update vs r [] r' := by
    intro s' r t hlists
    refine represents_update hf ?_ ?_
    · rw [hlists, Function.update_self]
      rfl
    · intro r' hne
      rw [hlists, Function.update_of_ne hne]
  cases e with
  | newList l =>
    rw [step]
    split
    · refine (newList_ensures hlaid).mono ?_
      rintro s' ⟨hsame, t, first, hlists, hlaid'⟩
      refine ⟨_, rfl, _, _, hlaid', hcounted.of_sameQueues hsame, hnew hlists⟩
    · exact ensures_error not_bad_noList
  | listAppend l v =>
    refine (listAppend_ensures hlaid v).mono ?_
    rintro s' ⟨halike, -, link, hlaid'⟩
    refine ⟨_, by rw [Fifos.step, hget _ halike.lists.1]; rfl, _, _, hlaid', ?_,
      hset _ halike.lists⟩
    exact hcounted.of_sameQueues halike.queues
  | listRemoveFirst l =>
    refine (listRemoveFirst_ensures hlaid).bind ?_
    rintro ⟨val, s'⟩ ⟨-, halike, ps', hlaid'⟩
    refine ensures_ok ⟨_, by rw [Fifos.step, hget _ halike.lists.1]; rfl, _, _, hlaid', ?_,
      hset _ halike.lists⟩
    exact hcounted.of_sameQueues halike.queues
  | cleanList l =>
    refine (cleanList_ensures hlaid).mono ?_
    rintro s' ⟨halike, last, hlaid'⟩
    refine ⟨_, by rw [Fifos.step, hget _ halike.lists.1]; rfl, _, _, hlaid', ?_,
      hset _ halike.lists⟩
    exact hcounted.of_sameQueues halike.queues
  | newBqueue q =>
    rw [step]
    split
    · rename_i hq
      refine (newList_ensures hlaid).bind ?_
      rintro s' ⟨hsame, t, first, hlists, hlaid'⟩
      refine ensures_ok ⟨_, rfl, _, _, ⟨hlaid'.lists, hlaid'.unused, hlaid'.apart, hlaid'.short⟩,
        hcounted.update ?_ ?_, hnew hlists⟩
      · intro q' hne
        simp only [hsame.readSem, hsame.enqueued, hsame.dequeued, Function.update_of_ne hne,
          and_self]
      · -- a queue that does not exist yet has never been used
        obtain ⟨-, henqueued, hnull⟩ := hcounted q
        rw [(hlaid.unused _ (Option.isNone_iff_eq_none.mp hq)).2] at henqueued
        simp only [hsame.enqueued, hsame.dequeued, Function.update_self]
        exact ⟨rfl, henqueued, hnull⟩
    · exact ensures_error not_bad_noList
  | bqueueEnqueue q v =>
    refine (bqueueEnqueue_ensures hlaid hcounted v).mono ?_
    rintro s' ⟨hsame, -, ⟨link, hlaid'⟩, hcounted'⟩
    exact ⟨_, by rw [Fifos.step, hget _ hsame.1]; rfl, _, _, hlaid', hcounted', hset _ hsame⟩
  | bqueueExtend q l =>
    rw [step]
    split
    · rename_i hq
      refine (bqueueExtend_ensures hlaid hcounted).mono ?_
      rintro s' ⟨hsame, ⟨ps', hlaid'⟩, hcounted'⟩
      refine ⟨_, by rw [Fifos.step, hget _ hsame.1, hget _ hq]; rfl, _, _, hlaid', hcounted', ?_⟩
      exact hset _ ⟨hq, hsame.2⟩
    · exact ensures_error not_bad_noList
  | bqueueDequeue q =>
    refine (bqueueDequeue_ensures hlaid hcounted).mono ?_
    rintro s' ⟨hsame, hne, ⟨ps', hlaid'⟩, hcounted'⟩
    obtain ⟨v, ws, hws⟩ := List.exists_cons_of_ne_nil hne
    rw [hws] at hlaid' hcounted'
    exact ⟨_, by rw [Fifos.step, hget _ hsame.1, hws]; rfl, _, _, hlaid', hcounted', hset _ hsame⟩

theorem run_represents (es : List (Event V)) : Ensures Stop.Bad (run alloc es) fun s =>
    ∃ f, exec Fifos.step (fun _ => none) es = some f ∧ s.Represents f := by
  refine Ensures.foldlM (I := fun es (s : State A V) =>
    ∃ f, exec Fifos.step (fun _ => none) es = some f ∧ s.Represents f) ?_
    ⟨_, rfl, represents_initial⟩ es
  rintro es e s ⟨f, hf, hs⟩
  refine (step_represents hs e).mono ?_
  rintro s' ⟨f', hf', hs'⟩
  refine ⟨f', ?_, hs'⟩
  rw [exec_append, hf, Option.bind_some, exec_cons, hf']
  rfl

/-- No call follows a freed cell or loops for ever, and the lists and queues are those of a machine
that knows their elements only. To extend a queue by a list and to clean the list moves the
elements. -/
theorem queues_refine_fifos (alloc : ℕ → Option (A × Cell A V)) (es : List (Event V)) :
    run alloc es ≠ .error .fault ∧ run alloc es ≠ .error .endless ∧
      ∀ s, run alloc es = .ok s →
        ∃ f, exec Fifos.step (fun _ => none) es = some f ∧ s.Represents f ∧
          ∀ q l s', run alloc (es ++ [.bqueueExtend q l, .cleanList l]) = .ok s' →
            ∃ vs moved, f (.queue q) = some vs ∧ f (.list l) = some moved ∧
              s'.Represents ((f.set (.queue q) (vs ++ moved)).set (.list l) []) := by
  have hrun := @run_represents A V _ alloc es
  refine ⟨fun h => hrun.not_bad h (.inl rfl), fun h => hrun.not_bad h (.inr rfl), ?_⟩
  intro s hs
  obtain ⟨f, hf, hrepresents⟩ := hrun.of_eq_ok hs
  refine ⟨f, hf, hrepresents, ?_⟩
  intro q l s' hs'
  obtain ⟨f', hf', hrepresents'⟩ := (run_represents _).of_eq_ok hs'
  rw [exec_append, hf, Option.bind_some, exec_cons] at hf'
  obtain ⟨f₁, hextend, hclean⟩ := Option.bind_eq_some_iff.mp hf'
  obtain ⟨moved, hmoved, hextend⟩ := Option.bind_eq_some_iff.mp hextend
  obtain ⟨vs, hvs, hextend⟩ := Option.bind_eq_some_iff.mp hextend
  obtain rfl := Option.some.inj hextend
  obtain ⟨f₂, hclean, hlast⟩ := Option.bind_eq_some_iff.mp hclean
  obtain ⟨_, -, rfl⟩ := Option.map_eq_some_iff.mp hclean
  obtain rfl := Option.some.inj hlast
  exact ⟨vs, moved, hvs, hmoved, hrepresents'⟩

/-- Two elements go from a list to a queue, and one of them out of it; the list is used again. -/
def movedOnce : List (Event ℕ) :=
  [.newBqueue 0, .newList 0, .listAppend 0 5, .listAppend 0 6, .bqueueExtend 0 0, .cleanList 0,
    .listAppend 0 7, .bqueueDequeue 0]

/-- Here `malloc` always finds new memory. -/
theorem queues_refine_fifos_movedOnce :
    ∃ s : State ℕ ℕ, run (fun n => some (n, ⟨some 9, some n, none⟩)) movedOnce = .ok s ∧
      s.dequeued 0 = [some 5] ∧ ∃ f, exec Fifos.step (fun _ => none) movedOnce = some f ∧
        s.Represents f := by
  have hrun : ∃ s : State ℕ ℕ, run (fun n => some (n, ⟨some 9, some n, none⟩)) movedOnce = .ok s ∧
      s.dequeued 0 = [some 5] := ⟨_, rfl, rfl⟩
  obtain ⟨s, hs, hdequeued⟩ := hrun
  obtain ⟨f, hf, hrepresents, -⟩ := (queues_refine_fifos _ movedOnce).2.2 s hs
  exact ⟨s, hs, hdequeued, f, hf, hrepresents⟩

end UniformBroadcast.Trains.Queues
