import UniformBroadcast.TrainConnections

/-!
# Insertions over an old connection

What the calls of a treatment do to the connections: which is freed by `closeConnection`,
on which `sendOther` writes. A process in the circuit registers the connection of an `INSERT`
when it takes the message from its queue, closes that of its predecessor when it treats it, and
other threads register and free connections in between.
-/

namespace UniformBroadcast.Trains

open TransitionRuns

variable {ntr : ℕ}

/-- What reaches a connection. -/
inductive Effect (ntr : ℕ) where
  | freeComm (tcomm : ℕ)
  | write (tcomm : ℕ) (m : Msg ntr)
  deriving DecidableEq, Repr

/-- Decided on the option: the instance for bit vectors goes through all of them. -/
instance (o : Option Address) (P : Address → Prop) [DecidablePred P] :
    Decidable (∀ sender ∈ o, P sender) := Option.decidableForallMem o

def insertSender : Msg ntr → Option Address
  | .insert sender => some sender
  | _ => none

/-- The sender whose rank gets a connection before the treatment of the message. -/
def registeredSender : Msg ntr → Option Address
  | .insert sender | .newSucc sender => some sender
  | _ => none

namespace Running

variable (r : Running ntr)

/-- The sender of the `INSERT` treated in `SEVERAL`. -/
def inserting : Option Address :=
  if r.before.automatonState = .several then insertSender r.message else none

/-- The treatment of the `INSERT` searches the connections of this rank. -/
def looksAt (rank : ℕ) : Prop :=
  addrToRank r.before.prec = some rank ∨ r.inserting.bind addrToRank = some rank

instance : DecidablePred r.looksAt := fun _ => inferInstanceAs (Decidable (_ ∨ _))

end Running

/-- Where `getTComm` finds the connections that it should, the one to the former predecessor and
that of the `INSERT`; when the sender is the predecessor, the former is in the first place. -/
def InPlace (array : AddrArray) (former : Option ℕ) (prec sender : Address) (tcomm : ℕ) : Prop :=
  ∃ rankPrec ∈ addrToRank prec, ∃ rank ∈ addrToRank sender,
    getTComm rankPrec true array = former ∧ former ≠ some tcomm ∧
    if rank = rankPrec then
      (Addr.withPred true (array rank).tcomm0).isSome ∧
        Addr.withPred true (array rank).tcomm1 = some tcomm
    else getTComm rank true array = some tcomm

instance (array : AddrArray) (former : Option ℕ) (prec sender : Address) (tcomm : ℕ) :
    Decidable (InPlace array former prec sender tcomm) := by
  unfold InPlace
  infer_instance

namespace Host

variable (h : Host ntr)

/-- What `f` makes of the connection that `getTComm` gives, nothing for `NULL`. The rank `-1`
is an exit. -/
def onTComm (addr : Address) (isPred : Bool) (f : ℕ → Effect ntr) : Option (List (Effect ntr)) :=
  (addrToRank addr).map fun rank => (getTComm rank isPred h.array).toList.map f

def effect : Action ntr → Option (List (Effect ntr))
  | .closeConnection addr isPred => h.onTComm addr isPred .freeComm
  | .sendOther addr isPred m => h.onTComm addr isPred (.write · m)
  | .sendTrain addr lts => h.onTComm addr false (.write · (trainMsg lts))
  | _ => some []

/-- A connection, unless it has been freed. -/
def unfreed (conn : Option ℕ) : Option ℕ := conn.filter fun tcomm => !h.closed tcomm

def oldest (tcomm : ℕ) : Option (Msg ntr) := (h.queues tcomm).head?.join

/-- The call frees the connection of the former predecessor and not that of the `INSERT`,
respectively answers on the latter. -/
def Answers (r : Running ntr) : Action ntr → Prop
  | .closeConnection addr isPred =>
    h.effect (.closeConnection addr isPred) =
      some ((h.unfreed r.precConn).toList.map .freeComm) ∧ h.unfreed r.precConn ≠ some r.tcomm
  | .sendOther addr isPred m =>
    h.effect (.sendOther addr isPred m) = some [.write r.tcomm (.ackInsert r.before.prec)]
  | _ => True

instance (r : Running ntr) : DecidablePred (h.Answers r)
  | .closeConnection _ _ => inferInstanceAs (Decidable (_ ∧ _))
  | .sendOther _ _ _ => inferInstanceAs (Decidable (_ = _))
  | .participate _ | .openConnection _ _ _ | .sendTrain _ _ | .sleep =>
    inferInstanceAs (Decidable True)

/-- An `INSERT` taken from its queue in `SEVERAL` is registered without an `abort`, and the calls
of its treatment do what they should. -/
def Reinserts (h : Host ntr) : HostEvent ntr → Prop
  | .dequeue tcomm => h.proc.automatonState = .several →
    ∀ sender ∈ (h.oldest tcomm).bind insertSender, (h.register tcomm (.insert sender)).isSome
  | .call => ∀ r ∈ h.running, r.inserting.isSome → ∀ a ∈ r.calls.head?, h.Answers r a
  | _ => True

/-- The sender of an `INSERT` taken in `SEVERAL` is a process with a free place, and when the
`INSERT` is treated its connection and that of the former predecessor are in their places. -/
def HasPlace (h : Host ntr) : HostEvent ntr → Prop
  | .dequeue tcomm => h.proc.automatonState = .several →
    ∀ sender ∈ (h.oldest tcomm).bind insertSender, ∃ rank ∈ addrToRank sender,
      (h.array rank).tcomm0 = none ∨ (h.array rank).tcomm1 = none
  | .treat tcomm _ => h.proc.automatonState = .several →
    ∀ sender ∈ (h.held tcomm).bind insertSender,
      InPlace h.array (h.unfreed h.precConn) h.proc.prec sender tcomm
  | _ => True

/-- While an `INSERT` is treated, no connection of the ranks it looks at is lost or added, nor is
the former predecessor's connection freed. -/
def Undisturbed (h : Host ntr) : HostEvent ntr → Prop
  | .lose tcomm => ∀ r ∈ h.running, r.inserting.isSome → ∀ place ∈ searchTComm tcomm h.array,
    ¬ r.looksAt place.1 ∧ getTComm place.1 place.2 h.array ≠ r.precConn
  | .dequeue tcomm => ∀ r ∈ h.running, r.inserting.isSome →
    ∀ sender ∈ (h.oldest tcomm).bind registeredSender, ∀ rank ∈ addrToRank sender,
      ¬ r.looksAt rank
  | _ => True

instance (h : Host ntr) : DecidablePred h.Reinserts
  | .dequeue _ => inferInstanceAs (Decidable (_ → _))
  | .call => inferInstanceAs (Decidable (∀ r ∈ h.running, _))
  | .accept | .receive _ _ | .lose _ | .treat _ _ | .wake _ | .broadcast _ =>
    inferInstanceAs (Decidable True)

instance (h : Host ntr) : DecidablePred h.HasPlace
  | .dequeue _ | .treat _ _ => inferInstanceAs (Decidable (_ → _))
  | .accept | .receive _ _ | .lose _ | .call | .wake _ | .broadcast _ =>
    inferInstanceAs (Decidable True)

instance (h : Host ntr) : DecidablePred h.Undisturbed
  | .lose _ | .dequeue _ => inferInstanceAs (Decidable (∀ r ∈ h.running, _))
  | .accept | .receive _ _ | .treat _ _ | .call | .wake _ | .broadcast _ =>
    inferInstanceAs (Decidable True)

end Host

/-! ## The table of connections -/

section Table

variable {tcomm rank rankPrec : ℕ} {isPred : Bool} {array array' : AddrArray} {former : Option ℕ}
  {prec sender : Address}

/-- The table after `closeConnection`. -/
def dropPrec (rank : ℕ) (array : AddrArray) : AddrArray :=
  match getTComm rank true array with
  | none => array
  | some t => removeTComm t rank array

theorem addTComm_isSome : (addTComm tcomm rank isPred array).isSome ↔
    (array rank).tcomm0 = none ∨ (array rank).tcomm1 = none := by
  rw [addTComm]
  split
  · simp [*]
  · split
    · simp [*]
    · simp [*]

theorem addTComm_of_ne (h : addTComm tcomm rank isPred array = some array') {i : ℕ}
    (hne : i ≠ rank) : array' i = array i := by
  rw [addTComm] at h
  split at h
  · cases h
    exact Function.update_of_ne hne _ _
  · split at h
    · cases h
      exact Function.update_of_ne hne _ _
    · cases h

theorem removeTComm_of_ne {i : ℕ} (hne : i ≠ rank) : removeTComm tcomm rank array i = array i := by
  rw [removeTComm]
  split
  · exact Function.update_of_ne hne _ _
  · split
    · exact Function.update_of_ne hne _ _
    · rfl

theorem getTComm_dropPrec_of_ne (hne : rank ≠ rankPrec) :
    getTComm rank true (dropPrec rankPrec array) = getTComm rank true array := by
  have hsame : dropPrec rankPrec array rank = array rank := by
    cases hget : getTComm rankPrec true array with
    | none => simp only [dropPrec, hget]
    | some t =>
      simp only [dropPrec, hget]
      exact removeTComm_of_ne hne
  rw [getTComm, getTComm, hsame]

/-- The sender is the predecessor: its connection is left when the former one, which is closed,
is in the first place. -/
theorem getTComm_dropPrec_self (hne : getTComm rank true array ≠ some tcomm) :
    getTComm rank true (dropPrec rank array) = some tcomm ↔
      (Addr.withPred true (array rank).tcomm0).isSome ∧
        Addr.withPred true (array rank).tcomm1 = some tcomm := by
  cases h0 : Addr.withPred true (array rank).tcomm0 with
  | some t0 =>
    -- the first place holds the connection found, and is emptied
    have hget : getTComm rank true array = some t0 := by rw [getTComm, h0, Option.some_or]
    have hfirst : (array rank).tcomm0.map Prod.fst = some t0 := by
      obtain ⟨⟨t, b⟩, ht, hb⟩ := Option.bind_eq_some_iff.mp h0
      split at hb
      · rw [ht, Option.map_some, ← hb]
      · cases hb
    rw [dropPrec, hget]
    dsimp only
    rw [removeTComm, if_pos hfirst, getTComm, Function.update_self]
    simp [Addr.withPred]
  | none =>
    have hget : getTComm rank true array = Addr.withPred true (array rank).tcomm1 := by
      rw [getTComm, h0, Option.none_or]
    simp only [Option.isSome_none, Bool.false_eq_true, false_and, iff_false]
    -- nothing is left there but what was found, which is another connection
    intro hleft
    have honly : ∀ t ∈ getTComm rank true (dropPrec rank array),
        getTComm rank true array = some t := by
      intro t ht
      rw [dropPrec] at ht
      split at ht
      · exact ht
      · rw [removeTComm] at ht
        split at ht
        · rw [getTComm, Function.update_self] at ht
          rw [hget]
          simpa [Addr.withPred] using ht
        · split at ht
          · rw [getTComm, Function.update_self] at ht
            dsimp only at ht
            rw [h0] at ht
            cases ht
          · exact ht
    exact hne (honly tcomm hleft)

/-- The connections are in their places when the former predecessor's is found, and then that of
the `INSERT`. -/
theorem inPlace_iff : InPlace array former prec sender tcomm ↔
    ∃ rankPrec ∈ addrToRank prec, (getTComm rankPrec true array = former ∧ former ≠ some tcomm) ∧
      ∃ rank ∈ addrToRank sender, getTComm rank true (dropPrec rankPrec array) = some tcomm := by
  constructor
  · rintro ⟨rankPrec, hprec, rank, hrank, hformer, hne, hplace⟩
    refine ⟨rankPrec, hprec, ⟨hformer, hne⟩, rank, hrank, ?_⟩
    by_cases hsame : rank = rankPrec
    · subst hsame
      rw [if_pos rfl] at hplace
      exact (getTComm_dropPrec_self (hformer ▸ hne)).mpr hplace
    · rw [if_neg hsame] at hplace
      rw [getTComm_dropPrec_of_ne hsame]
      exact hplace
  · rintro ⟨rankPrec, hprec, ⟨hformer, hne⟩, rank, hrank, hget⟩
    refine ⟨rankPrec, hprec, rank, hrank, hformer, hne, ?_⟩
    by_cases hsame : rank = rankPrec
    · subst hsame
      rw [if_pos rfl]
      exact (getTComm_dropPrec_self (hformer ▸ hne)).mp hget
    · rw [if_neg hsame]
      rw [getTComm_dropPrec_of_ne hsame] at hget
      exact hget

end Table

/-! ## The calls of the treatment -/

namespace Host

section Calls

variable {h k : Host ntr} {r : Running ntr} {addr sender : Address} {isPred : Bool}

theorem answers_close : h.Answers r (.closeConnection r.before.prec true) ↔
    ∃ rankPrec ∈ addrToRank r.before.prec,
      getTComm rankPrec true h.array = h.unfreed r.precConn ∧
        h.unfreed r.precConn ≠ some r.tcomm := by
  rw [Answers, effect, onTComm]
  cases addrToRank r.before.prec with
  | none => simp
  | some rankPrec =>
    have hlist : ∀ a b : Option ℕ, a.toList.map (.freeComm : ℕ → Effect ntr) =
        b.toList.map .freeComm ↔ a = b := by
      intro a b
      cases a <;> cases b <;> simp
    simp [hlist]

theorem answers_send : h.Answers r (.sendOther sender true (.ackInsert r.before.prec)) ↔
    ∃ rank ∈ addrToRank sender, getTComm rank true h.array = some r.tcomm := by
  rw [Answers, effect, onTComm]
  cases addrToRank sender with
  | none => simp
  | some rank =>
    cases hget : getTComm rank true h.array with
    | none => simp [hget]
    | some t => simp [hget]

theorem closeConnection_spec (hc : h.closeConnection addr isPred = some k) :
    ∃ rank ∈ addrToRank addr,
      (∀ i, i ≠ rank → k.array i = h.array i) ∧ (isPred = true → k.array = dropPrec rank h.array) ∧
      ∀ t, getTComm rank isPred h.array ≠ some t → k.closed t = h.closed t := by
  obtain ⟨rank, hrank, hc⟩ := Option.bind_eq_some_iff.mp hc
  refine ⟨rank, hrank, ?_⟩
  cases hget : getTComm rank isPred h.array with
  | none =>
    rw [hget] at hc
    cases hc
    refine ⟨fun _ _ => rfl, ?_, fun _ _ => rfl⟩
    rintro rfl
    rw [dropPrec, hget]
  | some tcomm =>
    rw [hget] at hc
    cases hc
    refine ⟨fun i hne => removeTComm_of_ne hne, ?_, ?_⟩
    · rintro rfl
      rw [dropPrec, hget]
    · intro t hne
      exact Function.update_of_ne (fun heq => hne (by rw [heq])) _ _

/-- Closing the former predecessor's connection and finding then that of the `INSERT` is what the
places are for. -/
theorem inPlace_iff_close (hc : h.closeConnection r.before.prec true = some k) :
    InPlace h.array (h.unfreed r.precConn) r.before.prec sender r.tcomm ↔
      h.Answers r (.closeConnection r.before.prec true) ∧
        ∃ rank ∈ addrToRank sender, getTComm rank true k.array = some r.tcomm := by
  obtain ⟨rankPrec, hprec, -, harray, -⟩ := closeConnection_spec hc
  rw [Option.mem_def] at hprec
  rw [inPlace_iff, answers_close, harray rfl, hprec]
  simp

end Calls

/-! ## What the other threads do in between -/

section Others

variable {conf : Config} {h h' : Host ntr} {r : Running ntr} {e : HostEvent ntr} {tcomm : ℕ}

/-- The connections that the treatment of an `INSERT` looks at are the same. -/
def Keeps (r : Running ntr) (h h' : Host ntr) : Prop :=
  (∀ rank, r.looksAt rank → h'.array rank = h.array rank) ∧
    h'.unfreed r.precConn = h.unfreed r.precConn

theorem dequeue_spec (hd : h.dequeue tcomm = some h') :
    h'.running = h.running ∧ h'.closed = h.closed ∧
      ∀ i, (∀ sender ∈ (h.oldest tcomm).bind registeredSender, addrToRank sender ≠ some i) →
        h'.array i = h.array i := by
  rw [dequeue] at hd
  split at hd
  · cases hd
  · cases hd
    exact ⟨rfl, rfl, fun _ _ => rfl⟩
  · rename_i m rest hqueue
    obtain ⟨array, hregister, rfl⟩ := Option.map_eq_some_iff.mp hd
    refine ⟨rfl, rfl, ?_⟩
    intro i hother
    have holdest : h.oldest tcomm = some m := by rw [oldest, hqueue]; rfl
    rw [holdest, Option.bind_some] at hother
    cases m with
    | insert sender | newSucc sender =>
      obtain ⟨rank, hrank, hadd⟩ := Option.bind_eq_some_iff.mp hregister
      have hne : i ≠ rank := by
        rintro rfl
        exact hother sender rfl hrank
      exact addTComm_of_ne hadd hne
    | train | ackInsert | nakInsert | disconnectPred | disconnectSucc =>
      cases hregister
      rfl

theorem searchTComm_lt {place : ℕ × Bool} {array : AddrArray}
    (hs : searchTComm tcomm array = some place) : place.1 < np := by
  obtain ⟨i, hi, hplace⟩ := List.exists_of_findSome?_eq_some hs
  obtain ⟨b, -, rfl⟩ := Option.map_eq_some_iff.mp hplace
  exact List.mem_range.mp hi

theorem addrToRank_rankToAddr : ∀ rank < np, addrToRank (rankToAddr rank) = some rank := by
  decide

theorem step_running (hcall : e ≠ .call) (htreat : ∀ tcomm reachable, e ≠ .treat tcomm reachable)
    (hstep : h.step conf e = some h') : h'.running = h.running := by
  cases e with
  | accept =>
    cases hstep
    rfl
  | receive tcomm m =>
    rw [step] at hstep
    split at hstep
    · cases hstep
      rfl
    · cases hstep
  | lose tcomm =>
    rw [step] at hstep
    split at hstep
    · split at hstep
      · cases hstep
        rfl
      · have hframe := closeConnection_frame hstep
        exact hframe.running
    · cases hstep
  | dequeue tcomm =>
    rw [step] at hstep
    split at hstep
    · exact (dequeue_spec hstep).1
    · cases hstep
  | treat tcomm reachable => exact absurd rfl (htreat tcomm reachable)
  | call => exact absurd rfl hcall
  | wake reachable =>
    rw [step] at hstep
    split at hstep
    · obtain ⟨⟨q, actions⟩, -, hstep⟩ := Option.bind_eq_some_iff.mp hstep
      have hframe := actAll_frame hstep
      exact hframe.running
    · cases hstep
  | broadcast mp =>
    obtain ⟨q, -, rfl⟩ := Option.map_eq_some_iff.mp hstep
    rfl

/-- A step of another thread that does not disturb the treatment of an `INSERT`. -/
theorem step_keeps (hr : h.running = some r) (hinserting : r.inserting.isSome)
    (hcall : e ≠ .call) (hok : h.Undisturbed e) (hstep : h.step conf e = some h') :
    h'.running = some r ∧ Keeps r h h' := by
  have htreat : ∀ tcomm reachable, e ≠ .treat tcomm reachable := by
    rintro tcomm reachable rfl
    simp [step, hr] at hstep
  refine ⟨(step_running hcall htreat hstep).trans hr, ?_⟩
  cases e with
  | accept =>
    cases hstep
    exact ⟨fun _ _ => rfl, rfl⟩
  | receive tcomm m =>
    rw [step] at hstep
    split at hstep
    · cases hstep
      exact ⟨fun _ _ => rfl, rfl⟩
    · cases hstep
  | lose tcomm =>
    rw [step] at hstep
    split at hstep
    · split at hstep
      · cases hstep
        exact ⟨fun _ _ => rfl, rfl⟩
      · rename_i rank isPred hsearch
        obtain ⟨hlooks, hnot⟩ := hok r hr hinserting (rank, isPred) hsearch
        obtain ⟨i, hi, harray, -, hclosed⟩ := closeConnection_spec hstep
        rw [Option.mem_def, addrToRank_rankToAddr rank (searchTComm_lt hsearch)] at hi
        obtain rfl := Option.some.inj hi
        refine ⟨?_, ?_⟩
        · intro j hj
          refine harray j ?_
          rintro rfl
          exact hlooks hj
        · cases hprec : r.precConn with
          | none => rfl
          | some t =>
            rw [hprec] at hnot
            have hsame : h'.closed t = h.closed t := hclosed t hnot
            simp [unfreed, Option.filter, hsame]
    · cases hstep
  | dequeue tcomm =>
    rw [step] at hstep
    split at hstep
    · obtain ⟨-, hclosed, harray⟩ := dequeue_spec hstep
      refine ⟨?_, ?_⟩
      · intro i hi
        exact harray i fun sender hsender hrank => hok r hr hinserting sender hsender i hrank hi
      · rw [unfreed, unfreed, hclosed]
    · cases hstep
  | treat tcomm reachable => exact absurd rfl (htreat tcomm reachable)
  | call => exact absurd rfl hcall
  | wake reachable => simp [step, hr] at hstep
  | broadcast mp =>
    obtain ⟨q, -, rfl⟩ := Option.map_eq_some_iff.mp hstep
    exact ⟨fun _ _ => rfl, rfl⟩

end Others

/-! ## The treatment of an `INSERT` over its calls -/

section Insert

variable {conf : Config} {h h' : Host ntr} {r : Running ntr} {sender : Address}

/-- What is left to call, and whether (`P`) the connections that it needs are found. -/
inductive Remains (P : Prop → Prop) (h : Host ntr) (r : Running ntr) (sender : Address) : Prop
  | close
    (hcalls : r.calls = [.closeConnection r.before.prec true,
      .sendOther sender true (.ackInsert r.before.prec)])
    (hplace : P (InPlace h.array (h.unfreed r.precConn) r.before.prec sender r.tcomm))
  | send
    (hcalls : r.calls = [.sendOther sender true (.ackInsert r.before.prec)])
    (hplace : P (∃ rank ∈ addrToRank sender, getTComm rank true h.array = some r.tcomm))

theorem Remains.of_keeps {P : Prop → Prop} (hsender : sender ∈ r.inserting) (hk : Keeps r h h')
    (hr : Remains P h r sender) : Remains P h' r sender := by
  obtain ⟨harray, hformer⟩ := hk
  have hrank : ∀ rank ∈ addrToRank sender, h'.array rank = h.array rank := by
    intro rank hrank
    refine harray rank (.inr ?_)
    rw [Option.mem_def.mp hsender]
    exact hrank
  have hget : ∀ rank ∈ addrToRank sender,
      getTComm rank true h'.array = getTComm rank true h.array := by
    intro rank hmem
    rw [getTComm, getTComm, hrank rank hmem]
  cases hr with
  | close hcalls hplace =>
    refine .close hcalls ?_
    have hsame : InPlace h'.array (h'.unfreed r.precConn) r.before.prec sender r.tcomm =
        InPlace h.array (h.unfreed r.precConn) r.before.prec sender r.tcomm := by
      refine propext (exists_congr fun rankPrec => and_congr_right fun hprec =>
        exists_congr fun rank => and_congr_right fun hmem => ?_)
      have hgetPrec : getTComm rankPrec true h'.array = getTComm rankPrec true h.array := by
        rw [getTComm, getTComm, harray rankPrec (.inl hprec)]
      rw [hgetPrec, hget rank hmem, hrank rank hmem, hformer]
    rw [hsame]
    exact hplace
  | send hcalls hplace =>
    refine .send hcalls ?_
    have hsame : (∃ rank ∈ addrToRank sender, getTComm rank true h'.array = some r.tcomm) =
        ∃ rank ∈ addrToRank sender, getTComm rank true h.array = some r.tcomm :=
      propext (exists_congr fun rank => and_congr_right fun hmem => by rw [hget rank hmem])
    rw [hsame]
    exact hplace

/-- A message that gets `stateMachineMutex`. -/
theorem step_treat {tcomm : ℕ} {reachable : Address}
    (hstep : h.step conf (.treat tcomm reachable) = some h') :
    ∃ m ∈ h.held tcomm, ∃ q actions,
      stateMachine conf (reaches reachable) m h.proc = some (q, actions) ∧
        h'.running = runs ⟨tcomm, m, h.proc, h.precConn, actions⟩ ∧ h'.array = h.array ∧
        h'.closed = h.closed := by
  rw [step] at hstep
  split at hstep
  · obtain ⟨m, hm, hstep⟩ := Option.bind_eq_some_iff.mp hstep
    obtain ⟨⟨q, actions⟩, hq, hstep⟩ := Option.map_eq_some_iff.mp hstep
    subst hstep
    refine ⟨m, hm, q, actions, hq, ?_⟩
    dsimp only
    split
    · exact ⟨rfl, rfl, rfl⟩
    · exact ⟨rfl, rfl, rfl⟩
  · cases hstep

/-- An `INSERT` that gets it in `SEVERAL`. -/
theorem stateMachine_insert {dial : Address → Bool} {p q : Proc ntr} {actions : List (Action ntr)}
    (hstate : p.automatonState = .several)
    (hq : stateMachine conf dial (.insert sender) p = some (q, actions)) :
    actions = [.closeConnection p.prec true, .sendOther sender true (.ackInsert p.prec)] := by
  rw [stateMachine, hstate] at hq
  cases hq
  rfl

theorem step_call (hr : h.running = some r) {a : Action ntr} {calls : List (Action ntr)}
    (hcalls : r.calls = a :: calls) (hstep : h.step conf .call = some h') :
    ∃ k, h.act a = some k ∧ h' = { k with running := runs { r with calls := calls } } := by
  rw [step, hr, Option.bind_some, call, hcalls] at hstep
  obtain ⟨k, hk, rfl⟩ := Option.map_eq_some_iff.mp hstep
  exact ⟨k, hk, rfl⟩

/-- The treatment of an `INSERT` that starts, its connections being in their places or not. -/
theorem remains_treat (P : Prop → Prop) {tcomm : ℕ} {reachable : Address} {m : Msg ntr}
    {q : Proc ntr} {actions : List (Action ntr)} (hstate : h.proc.automatonState = .several)
    (hsender : sender ∈ insertSender m)
    (hplace : P (InPlace h.array (h.unfreed h.precConn) h.proc.prec sender tcomm))
    (hq : stateMachine conf (reaches reachable) m h.proc = some (q, actions))
    (hrunning : h'.running = runs ⟨tcomm, m, h.proc, h.precConn, actions⟩)
    (harray : h'.array = h.array) (hclosed : h'.closed = h.closed) :
    ∃ r, h'.running = some r ∧ sender ∈ r.inserting ∧ Remains P h' r sender := by
  cases m with
  | insert s =>
    obtain rfl := Option.some.inj hsender
    obtain rfl := stateMachine_insert hstate hq
    refine ⟨_, hrunning, if_pos hstate, .close rfl ?_⟩
    rw [unfreed, hclosed, harray]
    exact hplace
  | train | ackInsert | nakInsert | disconnectPred | disconnectSucc | newSucc => cases hsender

theorem step_call_inserting (hr : h.running = some r) (hstep : h.step conf .call = some h')
    {r' : Running ntr} (hr' : h'.running = some r') : r'.inserting = r.inserting := by
  cases hcalls : r.calls with
  | nil =>
    rw [step, hr, Option.bind_some, call, hcalls] at hstep
    cases hstep
  | cons a calls =>
    obtain ⟨k, -, rfl⟩ := step_call hr hcalls hstep
    simp only [runs] at hr'
    split at hr'
    · cases hr'
    · cases hr'
      rfl

/-- After `closeConnection` the answer is left. -/
theorem step_call_close (hr : h.running = some r)
    (hcalls : r.calls = [.closeConnection r.before.prec true,
      .sendOther sender true (.ackInsert r.before.prec)])
    (hstep : h.step conf .call = some h') :
    ∃ r', h'.running = some r' ∧ r'.calls = [.sendOther sender true (.ackInsert r'.before.prec)] ∧
      (InPlace h.array (h.unfreed r.precConn) r.before.prec sender r.tcomm ↔
        h.Answers r (.closeConnection r.before.prec true) ∧
          ∃ rank ∈ addrToRank sender, getTComm rank true h'.array = some r'.tcomm) := by
  obtain ⟨k, hk, rfl⟩ := step_call hr hcalls hstep
  have hclose : h.closeConnection r.before.prec true = some k := hk
  have hiff := @inPlace_iff_close _ h k r sender hclose
  exact ⟨_, rfl, rfl, hiff⟩

theorem step_call_send {a : Action ntr} (hr : h.running = some r) (hcalls : r.calls = [a])
    (hstep : h.step conf .call = some h') : h'.running = none := by
  obtain ⟨k, -, rfl⟩ := step_call hr hcalls hstep
  rfl

end Insert

end Host

/-! ## Runs -/

section Runs

open Host

variable {conf : Config} {h h' : Host ntr} {e : HostEvent ntr}

theorem reinserts_dequeue_iff {tcomm : ℕ} :
    h.Reinserts (.dequeue tcomm) ↔ h.HasPlace (.dequeue tcomm) := by
  refine imp_congr_right fun _ => forall_congr' fun sender => imp_congr_right fun _ => ?_
  rw [register]
  cases addrToRank sender with
  | none => simp
  | some rank => simp [addTComm_isSome]

/-- The treatment of an `INSERT`, if there is one, finds its connections. -/
def Ready (h : Host ntr) : Prop :=
  ∀ r ∈ h.running, ∀ sender ∈ r.inserting, Remains id h r sender

/-- There is one that does not. -/
def Doomed (h : Host ntr) : Prop :=
  ∃ r ∈ h.running, ∃ sender ∈ r.inserting, Remains Not h r sender

theorem reinserts_of_hasPlace (hs : Ready h) (hok : h.HasPlace e) : h.Reinserts e := by
  cases e with
  | dequeue tcomm => exact reinserts_dequeue_iff.mpr hok
  | call =>
    intro r hr hinserting a ha
    obtain ⟨sender, hsender⟩ := Option.isSome_iff_exists.mp hinserting
    cases hs r hr sender hsender with
    | close hcalls hplace =>
      rw [hcalls] at ha
      obtain rfl := Option.some.inj ha
      obtain ⟨rankPrec, hprec, hformer, -⟩ := inPlace_iff.mp hplace
      exact answers_close.mpr ⟨rankPrec, hprec, hformer⟩
    | send hcalls hplace =>
      rw [hcalls] at ha
      obtain rfl := Option.some.inj ha
      exact answers_send.mpr hplace
  | accept | receive | lose | treat | wake | broadcast => trivial

theorem ready_step (hs : Ready h) (hok : h.HasPlace e ∧ h.Undisturbed e)
    (hstep : h.step conf e = some h') : Ready h' := by
  intro r' hr' sender hsender
  by_cases hcall : e = .call
  · subst hcall
    obtain ⟨r, hr, -⟩ := Option.bind_eq_some_iff.mp hstep
    rw [step_call_inserting hr hstep hr'] at hsender
    cases hs r hr sender hsender with
    | close hcalls hplace =>
      obtain ⟨r'', hr'', hcalls', hiff⟩ := step_call_close hr hcalls hstep
      obtain rfl := Option.some.inj (hr''.symm.trans hr')
      exact .send hcalls' (hiff.mp hplace).2
    | send hcalls hplace =>
      rw [step_call_send hr hcalls hstep] at hr'
      cases hr'
  · cases e with
    | treat tcomm reachable =>
      obtain ⟨m, hm, q, actions, hq, hrunning, harray, hclosed⟩ := step_treat hstep
      have hbefore : r'.before = h.proc ∧ r'.message = m := by
        rw [hrunning, runs] at hr'
        split at hr'
        · cases hr'
        · cases hr'
          exact ⟨rfl, rfl⟩
      rw [Running.inserting, hbefore.1, hbefore.2] at hsender
      split at hsender
      · rename_i hstate
        have hplace := hok.1 hstate sender (Option.bind_eq_some_iff.mpr ⟨m, hm, hsender⟩)
        obtain ⟨r, hr, -, hrem⟩ :=
          remains_treat id hstate hsender hplace hq hrunning harray hclosed
        obtain rfl := Option.some.inj (hr.symm.trans hr')
        exact hrem
      · cases hsender
    | accept | receive | lose | dequeue | wake | broadcast =>
      have hr : h.running = some r' := by
        rw [← hr']
        exact (step_running hcall (by rintro _ _ ⟨⟩) hstep).symm
      have hinserting : r'.inserting.isSome := Option.isSome_iff_exists.mpr ⟨sender, hsender⟩
      exact (hs r' hr sender hsender).of_keeps hsender
        (step_keeps hr hinserting hcall hok.2 hstep).2
    | call => exact absurd rfl hcall

/-- An `INSERT` whose place is not found dooms its treatment. -/
theorem doomed_of_not_hasPlace (hok : h.Undisturbed e ∧ h.Reinserts e) (hnot : ¬ h.HasPlace e)
    (hstep : h.step conf e = some h') : Doomed h' := by
  cases e with
  | dequeue tcomm => exact absurd (reinserts_dequeue_iff.mp hok.2) hnot
  | treat tcomm reachable =>
    simp only [HasPlace, not_forall] at hnot
    obtain ⟨hstate, sender, hsender, hplace⟩ := hnot
    obtain ⟨m, hm, q, actions, hq, hrunning, harray, hclosed⟩ := step_treat hstep
    rw [Option.mem_def.mp hm] at hsender
    obtain ⟨r, hr, hinserting, hrem⟩ :=
      remains_treat Not hstate hsender hplace hq hrunning harray hclosed
    exact ⟨r, hr, sender, hinserting, hrem⟩
  | accept | receive | lose | call | wake | broadcast => exact absurd trivial hnot

/-- One of its two calls will be wrong. -/
theorem doomed_step (hs : Doomed h) (hok : h.Undisturbed e ∧ h.Reinserts e)
    (hstep : h.step conf e = some h') : Doomed h' := by
  obtain ⟨r, hr, sender, hsender, hrem⟩ := hs
  have hinserting : r.inserting.isSome := Option.isSome_iff_exists.mpr ⟨sender, hsender⟩
  by_cases hcall : e = .call
  · subst hcall
    cases hrem with
    | close hcalls hplace =>
      obtain ⟨r', hr', hcalls', hiff⟩ := step_call_close hr hcalls hstep
      have hclose := hok.2 r hr hinserting _ (by rw [hcalls]; rfl)
      refine ⟨r', hr', sender, ?_, .send hcalls' fun hget => hplace (hiff.mpr ⟨hclose, hget⟩)⟩
      rw [step_call_inserting hr hstep hr']
      exact hsender
    | send hcalls hplace =>
      have hanswer := hok.2 r hr hinserting _ (by rw [hcalls]; rfl)
      exact absurd (answers_send.mp hanswer) hplace
  · obtain ⟨hr', hkeeps⟩ := step_keeps hr hinserting hcall hok.1 hstep
    exact ⟨r, hr', sender, hsender, hrem.of_keeps hsender hkeeps⟩

/-- **Insertions over an old connection.** In every run of a process, from its start or from any
other state between two treatments, the insertions taken and treated in the circuit are
registered without an `abort`, free the connections of the former predecessors and are answered
on their own, when each finds its place at both moments and no other thread touches the places
during its calls. In undisturbed runs whose treatments have ended they are so only then. -/
theorem insertions_replace (conf : Config) {h₀ : Host ntr} (hfree : h₀.running = none)
    (es : List (HostEvent ntr)) :
    (Along (Host.step conf) (fun h e => h.HasPlace e ∧ h.Undisturbed e) h₀ es →
      Along (Host.step conf) Host.Reinserts h₀ es) ∧
    ∀ h, exec (Host.step conf) h₀ es = some h → h.running = none →
      Along (Host.step conf) Host.Undisturbed h₀ es →
      (Along (Host.step conf) Host.Reinserts h₀ es ↔
        Along (Host.step conf) Host.HasPlace h₀ es) := by
  have hready : Ready h₀ := by
    intro r hr
    rw [hfree] at hr
    cases hr
  have henough : Along (Host.step conf) (fun h e => h.HasPlace e ∧ h.Undisturbed e) h₀ es →
      Along (Host.step conf) Host.Reinserts h₀ es := by
    refine along_imp ?_ ?_ hready
    · intro h e hs hok
      exact reinserts_of_hasPlace hs hok.1
    · intro h e h' hs hok hstep
      exact ready_step hs hok hstep
  refine ⟨henough, ?_⟩
  intro h hrun hend hundisturbed
  constructor
  · intro hreinserts
    refine along_of_not_doomed (fun _ _ _ hok hnot hstep => doomed_of_not_hasPlace hok hnot hstep)
      (fun _ _ _ hs hok hstep => doomed_step hs hok hstep) (along_and hundisturbed hreinserts)
      hrun ?_
    rintro ⟨r, hr, -⟩
    rw [hend] at hr
    cases hr
  · intro hplace
    exact henough (along_and hplace hundisturbed)

/-- An insertion of `b` on a connection. -/
def insertion (tcomm : ℕ) (b : Address) : List (HostEvent ntr) :=
  .accept :: .receive tcomm (.insert b) :: treatment tcomm 0#16 2

/-- A new process inserts itself, and again after a restart. -/
theorem insertions_replace_again : Along (Host.step ⟨1#16, 0, 64⟩) Host.Reinserts
    ((Host.start ⟨1#16, 0, 64⟩ Nat.one_pos 0#16).get (by decide))
    (neighbour 2#16 ++ insertion 2 4#16 ++ insertion 3 4#16) :=
  (insertions_replace ⟨1#16, 0, 64⟩ (by decide) _).1 (by decide)

/-- The neighbour inserts itself again: there is no room; or, its first connection being lost,
the new one is freed; or it has a place when its `INSERT` is taken, and the loss of the
predecessor, treated before, takes it for the new predecessor. -/
theorem not_insertions_replace :
    (¬ Along (Host.step ⟨1#16, 0, 64⟩) Host.Reinserts
      ((Host.start ⟨1#16, 0, 64⟩ Nat.one_pos 0#16).get (by decide))
      (neighbour 2#16 ++ insertion 2 2#16)) ∧
    (¬ Along (Host.step ⟨1#16, 0, 64⟩) Host.Reinserts
      ((Host.start ⟨1#16, 0, 64⟩ Nat.one_pos 0#16).get (by decide))
      (neighbour 2#16 ++ .lose 0 :: insertion 2 2#16)) ∧
    ¬ Along (Host.step ⟨1#16, 0, 64⟩) Host.Reinserts
      ((Host.start ⟨1#16, 0, 64⟩ Nat.one_pos 0#16).get (by decide))
      (neighbour 2#16 ++ insertion 2 4#16 ++
        [.lose 2, .lose 1, .accept, .receive 3 (.insert 2#16), .dequeue 3] ++
        treatment 2 2#16 3 ++ [.treat 3 0#16, .call, .call]) := by
  refine ⟨?_, ?_, ?_⟩
  · decide
  · decide
  · decide

end Runs

end UniformBroadcast.Trains
