import UniformBroadcast.TrainBroadcasts
import UniformBroadcast.TrainContents
import UniformBroadcast.TrainReadBack

/-!
# What the application is told

Translation of `fillCv` and `utoDeliveries` in `applicationMessage.c`, and any number of processes
that start, crash, start again and exchange messages. Nothing is assumed of the network: a message
that was sent may be lost, received several times, late or by another process. Each call of the
application's functions then tells it of a message that some process has broadcast, or of a change
of the circuit as the documentation of `circuitView` describes it.
-/

namespace UniformBroadcast.Trains

open TransitionRuns

/-- `AM_TERMINATE`. -/
def amTerminate : BitVec 8 := 3#8

/-- `circuitView`. `cv_members` is an array of `MAX_MEMB` addresses. -/
structure CircuitView where
  nmemb : ℕ
  members : List Address
  joined : Address
  departed : Address
  deriving DecidableEq, Repr

/-- A view after the `memset`. -/
def CircuitView.zero : CircuitView := ⟨0, List.replicate np 0#16, 0#16, 0#16⟩

/-- One more member; `none` beyond the end of the array. -/
def CircuitView.append (ad : Address) (cp : CircuitView) : Option CircuitView :=
  if cp.nmemb < cp.members.length then
    some { cp with nmemb := cp.nmemb + 1, members := cp.members.set cp.nmemb ad }
  else none

def fillCv (circuit : Address) : Option CircuitView :=
  ((List.range np).map rankToAddr).foldlM
    (fun cp ad => if addrIsMember ad circuit then cp.append ad else some cp) CircuitView.zero

/-- The calls of the application's functions, and the complaint about an unknown `typ`. -/
inductive Callback where
  | utoDeliver (sender : Address) (mp : Message)
  | circuitChange (cv : CircuitView)
  | unknownTyp (typ : BitVec 8)
  deriving DecidableEq, Repr

/-- The payload of a message as `payloadArrivalDeparture`; `none` when it is too short for it. -/
def arrivalDeparture (mp : Message) : Option (Address × Address) :=
  match mp.payload with
  | a :: b :: c :: d :: _ => some (b ++ a, d ++ c)
  | _ => none

/-- The `switch` on the type of a message: the call made, and whether the loop is to end. -/
def deliverMessage (sender : Address) (mp : Message) : Option (List Callback × Bool) :=
  if mp.typ = amBroadcast then some ([.utoDeliver sender mp], false)
  else if mp.typ = amArrival then do
    let (ad, circuit) ← arrivalDeparture mp
    let cv ← fillCv circuit
    return ([.circuitChange { cv with joined := ad }], false)
  else if mp.typ = amDeparture then do
    let (ad, circuit) ← arrivalDeparture mp
    let cv ← fillCv circuit
    return ([.circuitChange { cv with departed := ad }], false)
  else if mp.typ = amTerminate then some ([], true)
  else some ([.unknownTyp mp.typ], false)

/-- The messages of a wagon. -/
def deliverMessages (sender : Address) : List Message → Option (List Callback × Bool)
  | [] => some ([], false)
  | mp :: msgs => do
    let (made, terminate) ← deliverMessage sender mp
    let (more, terminate') ← deliverMessages sender msgs
    return (made ++ more, terminate || terminate')

/-- The thread of `utoDeliveries`: the wagons dequeued and the calls made so far. -/
structure Deliverer where
  dequeued : ℕ
  made : List Callback
  terminate : Bool
  deriving DecidableEq, Repr

/-- One pass of its loop; it waits while there is no wagon. -/
def Deliverer.utoDeliveries (wagonsToDeliver : List Wagon) (d : Deliverer) : Option Deliverer :=
  if d.terminate then none
  else
    wagonsToDeliver[d.dequeued]?.bind fun w =>
      (deliverMessages w.sender w.msgs).map fun r => ⟨d.dequeued + 1, d.made ++ r.1, r.2⟩

/-! ## Processes that exchange messages -/

/-- The processes that run, their threads, and the messages that were ever sent; `broadcasts` are
those that `newmsg` has made, with their processes, for the statements. -/
structure Network (N ntr : ℕ) where
  apps : Fin N → Option (App ntr)
  threads : Fin N → Deliverer
  sent : List (Msg ntr)
  broadcasts : List (Address × Message)

inductive NetworkEvent (N ntr : ℕ) where
  | start (i : Fin N) (dial : Address → Bool)
  | crash (i : Fin N)
  | app (i : Fin N) (e : AppEvent ntr)
  | deliver (i : Fin N)

variable {N ntr : ℕ}

/-- The actions of an event. -/
def App.actions (c : Config) (a : App ntr) : AppEvent ntr → List (Action ntr)
  | .message dial m => ((stateMachine c dial m a.proc).map Prod.snd).getD []
  | .wake dial => ((sleepTreatment c dial a.proc).map Prod.snd).getD []
  | .newmsg _ => []
  | .utoBroadcast => []
  | .unlock => []

/-- What `newmsg` makes in an event. -/
def AppEvent.newmsgs : AppEvent ntr → List Message
  | .newmsg mp => [mp]
  | _ => []

/-- A message was sent, unless `receive` makes it; `newmsg` makes messages of the application. -/
def Network.Possible (s : Network N ntr) : AppEvent ntr → Prop
  | .message _ (.disconnectPred _) => True
  | .message _ (.disconnectSucc _) => True
  | .message _ m => m ∈ s.sent
  | .newmsg mp => mp.typ = amBroadcast
  | _ => True

instance (s : Network N ntr) : DecidablePred s.Possible
  | .message _ (.disconnectPred _) | .message _ (.disconnectSucc _) | .wake _ | .utoBroadcast
  | .unlock => inferInstanceAs (Decidable True)
  | .message _ (.train _ _ _) | .message _ (.insert _) | .message _ (.ackInsert _)
  | .message _ (.nakInsert _) | .message _ (.newSucc _) => inferInstanceAs (Decidable (_ ∈ _))
  | .newmsg _ => inferInstanceAs (Decidable (_ = _))

def Network.initial : Network N ntr where
  apps _ := none
  threads _ := ⟨0, [], false⟩
  sent := []
  broadcasts := []

def Network.step (conf : Fin N → Config) (hntr : 0 < ntr) (s : Network N ntr) :
    NetworkEvent N ntr → Option (Network N ntr)
  | .start i dial => (automatonInit (conf i) dial hntr).map fun r => { s with
      apps := Function.update s.apps i (some ⟨r.1, .idle, []⟩)
      threads := Function.update s.threads i ⟨0, [], false⟩
      sent := s.sent ++ sentMsgs r.2 }
  | .crash i => some { s with apps := Function.update s.apps i none }
  | .app i e =>
    if s.Possible e then
      (s.apps i).bind fun a => (a.step (conf i) e).map fun a' => { s with
        apps := Function.update s.apps i (some a')
        sent := s.sent ++ sentMsgs (a.actions (conf i) e)
        broadcasts := s.broadcasts ++ e.newmsgs.map fun mp => ((conf i).myAddress, mp) }
    else none
  | .deliver i =>
    (s.apps i).bind fun a =>
      ((s.threads i).utoDeliveries a.proc.wagonsToDeliver).map fun d =>
        { s with threads := Function.update s.threads i d }

/-! ## The statements -/

/-- A view as its documentation describes it: the members are distinct addresses in the order of
their ranks and the other entries are null; a process has joined or has left, not both, and is
among the members in the first case and not in the second. -/
structure CircuitView.Documented (cv : CircuitView) : Prop where
  length : cv.members.length = np
  members : (cv.members.take cv.nmemb).Sublist ((List.range np).map rankToAddr)
  rest : ∀ ad ∈ cv.members.drop cv.nmemb, ad = 0#16
  change : cv.joined ≠ 0#16 ↔ cv.departed = 0#16
  joined : cv.joined ≠ 0#16 → cv.joined ∈ cv.members.take cv.nmemb
  departed : cv.departed ∉ cv.members.take cv.nmemb

/-- A call tells of a message that was broadcast, or shows such a view. -/
def Callback.Documented (broadcasts : List (Address × Message)) : Callback → Prop
  | .utoDeliver sender mp => mp.typ = amBroadcast ∧ (sender, mp) ∈ broadcasts
  | .circuitChange cv => cv.Documented
  | .unknownTyp _ => False

/-- The message that a call hands over, with its sender. -/
def Callback.delivery : Callback → Option (Address × Message)
  | .utoDeliver sender mp => some (sender, mp)
  | _ => none

/-- The messages of the application among those of a sender. -/
def broadcastsOf (sender : Address) (msgs : List Message) : List (Address × Message) :=
  (msgs.filter fun mp => mp.typ = amBroadcast).map fun mp => (sender, mp)

def Wagon.broadcasts (w : Wagon) : List (Address × Message) := broadcastsOf w.sender w.msgs

/-- A notification of an arrival or of a departure. -/
def Notifies (mp : Message) : Prop :=
  ∃ rank < np, ∃ circuit,
    (mp = ⟨amArrival, addressBytes (rankToAddr rank) ++ addressBytes circuit⟩ ∧
      addrIsMember (rankToAddr rank) circuit = true) ∨
    (mp = ⟨amDeparture, addressBytes (rankToAddr rank) ++ addressBytes circuit⟩ ∧
      addrIsMember (rankToAddr rank) circuit = false)

/-- What is known of the messages of a sender. -/
def Known (broadcasts : List (Address × Message)) (sender : Address) (mp : Message) : Prop :=
  (mp.typ = amBroadcast ∧ (sender, mp) ∈ broadcasts) ∨ Notifies mp

/-! ## One message -/

section Delivering

theorem arrivalDeparture_eq (typ : BitVec 8) (ad circuit : Address) :
    arrivalDeparture ⟨typ, addressBytes ad ++ addressBytes circuit⟩ = some (ad, circuit) := by
  have had := Framing.addressBytes_append ad
  have hcircuit := Framing.addressBytes_append circuit
  simp only [arrivalDeparture, addressBytes, List.cons_append, List.nil_append, had, hcircuit]

/-- The members of a circuit. -/
def membersOf (circuit : Address) : List Address :=
  ((List.range np).map rankToAddr).filter (addrIsMember · circuit)

theorem mem_membersOf {rank : ℕ} (hrank : rank < np) (circuit : Address) :
    rankToAddr rank ∈ membersOf circuit ↔ addrIsMember (rankToAddr rank) circuit = true := by
  have hmem : rankToAddr rank ∈ (List.range np).map rankToAddr :=
    List.mem_map_of_mem (List.mem_range.mpr hrank)
  rw [membersOf, List.mem_filter]
  exact and_iff_right hmem

theorem length_membersOf (circuit : Address) : (membersOf circuit).length ≤ np := by
  refine (List.length_filter_le _ _).trans ?_
  rw [List.length_map, List.length_range]

/-- The array has room for all the members. -/
theorem fillCv_eq (circuit : Address) : fillCv circuit =
    some ⟨(membersOf circuit).length,
      membersOf circuit ++ List.replicate (np - (membersOf circuit).length) 0#16, 0#16, 0#16⟩ := by
  have hloop : ∀ (ads before : List Address) (k : ℕ),
      (ads.filter (addrIsMember · circuit)).length ≤ k →
      ads.foldlM
          (fun cp ad => if addrIsMember ad circuit then CircuitView.append ad cp else some cp)
        ⟨before.length, before ++ List.replicate k 0#16, 0#16, 0#16⟩ =
      some ⟨(before ++ ads.filter (addrIsMember · circuit)).length,
        before ++ ads.filter (addrIsMember · circuit) ++
          List.replicate (k - (ads.filter (addrIsMember · circuit)).length) 0#16, 0#16, 0#16⟩ := by
    intro ads
    induction ads with
    | nil =>
      intro before k _
      simp
    | cons ad ads ih =>
      intro before k hk
      rw [List.foldlM_cons]
      by_cases hmember : addrIsMember ad circuit = true
      · have hfilter : (ad :: ads).filter (addrIsMember · circuit) =
            ad :: ads.filter (addrIsMember · circuit) := List.filter_cons_of_pos hmember
        rw [hfilter] at hk ⊢
        obtain ⟨k, rfl⟩ : ∃ k', k = k' + 1 :=
          Nat.exists_eq_add_one_of_ne_zero (by rw [List.length_cons] at hk; omega)
        have happend : CircuitView.append ad
            ⟨before.length, before ++ List.replicate (k + 1) 0#16, 0#16, 0#16⟩ =
            some ⟨(before ++ [ad]).length, before ++ [ad] ++ List.replicate k 0#16, 0#16,
              0#16⟩ := by
          rw [CircuitView.append, if_pos]
          · simp [List.replicate_succ]
          · simp
        rw [if_pos hmember, happend]
        refine (ih (before ++ [ad]) k ?_).trans ?_
        · simpa using hk
        · simp
      · have hfilter : (ad :: ads).filter (addrIsMember · circuit) =
            ads.filter (addrIsMember · circuit) := List.filter_cons_of_neg hmember
        rw [hfilter] at hk ⊢
        rw [if_neg hmember]
        exact ih before k hk
  have hall := hloop ((List.range np).map rankToAddr) [] np (length_membersOf circuit)
  rw [List.nil_append, List.nil_append] at hall
  exact hall

theorem documented_joined {rank : ℕ} (hrank : rank < np) {circuit : Address}
    (h : addrIsMember (rankToAddr rank) circuit = true) : CircuitView.Documented
      ⟨(membersOf circuit).length,
        membersOf circuit ++ List.replicate (np - (membersOf circuit).length) 0#16,
        rankToAddr rank, 0#16⟩ where
  length := by
    have hle := length_membersOf circuit
    rw [List.length_append, List.length_replicate]
    omega
  members := by
    rw [List.take_left' rfl]
    exact List.filter_sublist
  rest := by
    intro ad had
    rw [List.drop_left' rfl] at had
    exact List.eq_of_mem_replicate had
  change := iff_of_true (ne_zero_of_addrIsMember h) rfl
  joined := by
    intro _
    rw [List.take_left' rfl]
    exact (mem_membersOf hrank circuit).mpr h
  departed := by
    rw [List.take_left' rfl, membersOf, List.mem_filter]
    rintro ⟨-, hzero⟩
    exact absurd rfl (ne_zero_of_addrIsMember hzero)

theorem documented_departed {rank : ℕ} (hrank : rank < np) {circuit : Address}
    (h : addrIsMember (rankToAddr rank) circuit = false) : CircuitView.Documented
      ⟨(membersOf circuit).length,
        membersOf circuit ++ List.replicate (np - (membersOf circuit).length) 0#16,
        0#16, rankToAddr rank⟩ where
  length := by
    have hle := length_membersOf circuit
    rw [List.length_append, List.length_replicate]
    omega
  members := by
    rw [List.take_left' rfl]
    exact List.filter_sublist
  rest := by
    intro ad had
    rw [List.drop_left' rfl] at had
    exact List.eq_of_mem_replicate had
  change := by
    have hne : ∀ i : Fin np, rankToAddr i ≠ 0#16 := by decide
    exact iff_of_false (fun hzero => hzero rfl) (hne ⟨rank, hrank⟩)
  joined h := absurd rfl h
  departed := by
    rw [List.take_left' rfl, mem_membersOf hrank, h]
    exact Bool.false_ne_true

/-- A known message makes one call, as documented. -/
theorem deliverMessage_known {broadcasts : List (Address × Message)} {sender : Address}
    {mp : Message} (h : Known broadcasts sender mp) :
    ∃ cb : Callback, deliverMessage sender mp = some ([cb], false) ∧ cb.Documented broadcasts ∧
      cb.delivery = if mp.typ = amBroadcast then some (sender, mp) else none := by
  have harrival : amArrival ≠ amBroadcast := by decide
  have hdeparture : amDeparture ≠ amBroadcast := by decide
  have hother : amDeparture ≠ amArrival := by decide
  rcases h with ⟨htyp, hmem⟩ | ⟨rank, hrank, circuit, ⟨rfl, hmember⟩ | ⟨rfl, hmember⟩⟩
  · refine ⟨.utoDeliver sender mp, ?_, ⟨htyp, hmem⟩, ?_⟩
    · rw [deliverMessage, if_pos htyp]
    · rw [if_pos htyp]
      rfl
  · refine ⟨.circuitChange _, ?_, documented_joined hrank hmember, (if_neg harrival).symm⟩
    rw [deliverMessage, if_neg harrival, if_pos rfl, arrivalDeparture_eq]
    simp only [Option.bind_eq_bind, Option.bind_some, fillCv_eq]
    rfl
  · refine ⟨.circuitChange _, ?_, documented_departed hrank hmember, (if_neg hdeparture).symm⟩
    rw [deliverMessage, if_neg hdeparture, if_neg hother, if_pos rfl, arrivalDeparture_eq]
    simp only [Option.bind_eq_bind, Option.bind_some, fillCv_eq]
    rfl

theorem deliverMessages_known {broadcasts : List (Address × Message)} {sender : Address}
    {msgs : List Message} (h : ∀ mp ∈ msgs, Known broadcasts sender mp) :
    ∃ made, deliverMessages sender msgs = some (made, false) ∧
      (∀ cb ∈ made, cb.Documented broadcasts) ∧
      made.filterMap Callback.delivery = broadcastsOf sender msgs := by
  induction msgs with
  | nil => exact ⟨[], rfl, fun _ hcb => absurd hcb List.not_mem_nil, rfl⟩
  | cons mp msgs ih =>
    obtain ⟨cb, hone, hcb, hdelivery⟩ := deliverMessage_known (h mp List.mem_cons_self)
    obtain ⟨made, hrest, hmade, hdeliveries⟩ :=
      ih fun mp' hmp' => h mp' (List.mem_cons_of_mem _ hmp')
    refine ⟨cb :: made, ?_, ?_, ?_⟩
    · rw [deliverMessages, hone, hrest]
      rfl
    · intro cb' hcb'
      rcases List.mem_cons.mp hcb' with rfl | hcb'
      · exact hcb
      · exact hmade cb' hcb'
    · rw [broadcastsOf] at hdeliveries ⊢
      rw [List.filterMap_cons, hdelivery, hdeliveries]
      by_cases htyp : mp.typ = amBroadcast <;> simp [htyp]

/-- A pass of the thread over a wagon whose messages are known. -/
theorem Deliverer.utoDeliveries_known {broadcasts : List (Address × Message)}
    {wagonsToDeliver : List Wagon} {d : Deliverer} (hruns : d.terminate = false)
    (hknown : ∀ w ∈ wagonsToDeliver, w.Carrying (Known broadcasts))
    (hwaits : d.dequeued < wagonsToDeliver.length) :
    ∃ made, d.utoDeliveries wagonsToDeliver = some ⟨d.dequeued + 1, d.made ++ made, false⟩ ∧
      (∀ cb ∈ made, cb.Documented broadcasts) ∧
      made.filterMap Callback.delivery = (wagonsToDeliver[d.dequeued]).broadcasts := by
  have hw := hknown _ (List.getElem_mem hwaits)
  obtain ⟨made, hmsgs, hmade, hdeliveries⟩ := deliverMessages_known hw
  refine ⟨made, ?_, hmade, hdeliveries⟩
  rw [utoDeliveries, hruns, List.getElem?_eq_getElem hwaits, Option.bind_some, hmsgs]
  rfl

end Delivering

/-! ## The wagons to deliver -/

section Treatments

variable {c : Config} {a a' : App ntr} {e : AppEvent ntr}

/-- A treatment only adds wagons to deliver. -/
theorem Treatment.prefix_wagonsToDeliver {p q : Proc ntr} {m : Msg ntr} (h : Treatment c p m q) :
    p.wagonsToDeliver <+: q.wagonsToDeliver := by
  cases h with
  | kept _ _ keeps _ _ =>
    rw [keeps.wagonsToDeliver]
  | forwarded | confirmed | started => exact List.prefix_rfl
  | handled stamp circuit wagons _ _ =>
    have hmoved := congrArg Draining.Stock.moved
      (stock_trainHandling c.myAddress ⟨stamp, circuit, wagons⟩ p)
    exact ⟨_, hmoved.symm⟩
  | alone _ r _ keeps =>
    have hflush (p : Proc ntr) : p.wagonsToDeliver <+: (flush p).wagonsToDeliver := by
      have hmoved : (flush p).wagonsToDeliver =
          ((flushOrder p).foldl Draining.drain (stock p)).moved :=
        congrArg Draining.Stock.moved (stock_flush p)
      rw [hmoved]
      exact Draining.prefix_foldl_drain (stock p) (flushOrder p)
    rw [← keeps.wagonsToDeliver]
    refine List.IsPrefix.trans ?_ (List.prefix_append _ _)
    exact hflush { r with
      goneProc := 0#16
      wagonToSend := signalDepartures r.goneProc (r.lts r.lis).circuit r.wagonToSend }

theorem prefix_offlineInit {dial : Address → Bool} {p q : Proc ntr} {actions : List (Action ntr)}
    (h : offlineInit c dial p = some (q, actions)) : p.wagonsToDeliver <+: q.wagonsToDeliver := by
  obtain ⟨succ, rfl | rfl⟩ := offlineInit_cases h
  · exact List.prefix_rfl
  · exact List.prefix_append _ _

theorem App.prefix_step (h : a.step c e = some a') :
    a.proc.wagonsToDeliver <+: a'.proc.wagonsToDeliver := by
  cases e with
  | message dial m =>
    rw [App.step] at h
    split at h
    · cases h
    · obtain ⟨⟨q, actions⟩, hmachine, rfl⟩ := Option.map_eq_some_iff.mp h
      exact (stateMachine_treatment hmachine).prefix_wagonsToDeliver
  | wake dial =>
    rw [App.step] at h
    split at h
    · obtain ⟨⟨q, actions⟩, hsleep, rfl⟩ := Option.map_eq_some_iff.mp h
      have hprefix := prefix_offlineInit hsleep
      exact hprefix
    · cases h
  | newmsg mp =>
    rw [App.step] at h
    split at h
    · cases h
      exact List.prefix_rfl
    · cases h
  | utoBroadcast =>
    obtain ⟨mp, -, rfl⟩ := Option.map_eq_some_iff.mp h
    split
    · exact List.prefix_append _ _
    · exact List.prefix_rfl
  | unlock =>
    rw [App.step] at h
    split at h
    · cases h
      exact List.prefix_rfl
    · cases h

/-- What is known of the messages stays true when the process treats one, and of those it sends. -/
theorem Contents.step {known : Address → Message → Prop} (hadmits : Admits known c.myAddress)
    (ha : Contents known c.myAddress a.proc)
    (hmessage : ∀ dial m, e = .message dial m → m.Carrying known)
    (hnewmsg : ∀ mp ∈ e.newmsgs, known c.myAddress mp) (h : a.step c e = some a') :
    Contents known c.myAddress a'.proc ∧ ∀ msg ∈ sentMsgs (a.actions c e), msg.Carrying known := by
  cases e with
  | message dial m =>
    rw [App.step] at h
    split at h
    · cases h
    · obtain ⟨⟨q, actions⟩, hmachine, rfl⟩ := Option.map_eq_some_iff.mp h
      have hq := ha.treat hadmits (hmessage dial m rfl) (stateMachine_treatment hmachine)
      have hactions : a.actions c (.message dial m) = actions := by
        rw [App.actions, hmachine]
        rfl
      rw [hactions]
      exact ⟨hq, hq.sent (stateMachine_fromLts hmachine)⟩
  | wake dial =>
    rw [App.step] at h
    split at h
    · obtain ⟨⟨q, actions⟩, hsleep, rfl⟩ := Option.map_eq_some_iff.mp h
      have hcounted : Contents known c.myAddress { a.proc with waitNb := a.proc.waitNb + 1 } :=
        ha.congr rfl rfl rfl
      have hq := hcounted.offlineInit hadmits hsleep
      have hactions : a.actions c (.wake dial) = actions := by
        rw [App.actions, hsleep]
        rfl
      rw [hactions]
      exact ⟨hq, hq.sent (offlineInit_fromLts hsleep)⟩
    · cases h
  | newmsg mp =>
    rw [App.step] at h
    split at h
    · cases h
      have hmp : known a.proc.wagonToSend.sender mp :=
        ha.sender ▸ hnewmsg mp List.mem_cons_self
      refine ⟨⟨ha.held, ha.sentOn, ha.own, ha.filled.mallocWiw hmp, ha.sender⟩, ?_⟩
      exact fun _ hmsg => absurd hmsg List.not_mem_nil
    · cases h
  | utoBroadcast =>
    obtain ⟨mp, -, rfl⟩ := Option.map_eq_some_iff.mp h
    refine ⟨?_, fun _ hmsg => absurd hmsg List.not_mem_nil⟩
    dsimp only
    split
    · exact ha.deliverWagonToSend
    · exact ha
  | unlock =>
    rw [App.step] at h
    split at h
    · cases h
      exact ⟨ha, fun _ hmsg => absurd hmsg List.not_mem_nil⟩
    · cases h

end Treatments

/-! ## The processes -/

theorem Callback.Documented.mono {broadcasts more : List (Address × Message)} {cb : Callback}
    (h : cb.Documented broadcasts) : cb.Documented (broadcasts ++ more) := by
  cases cb with
  | utoDeliver sender mp => exact ⟨h.1, List.mem_append_left _ h.2⟩
  | circuitChange cv => exact h
  | unknownTyp typ => exact h

theorem Known.mono (broadcasts more : List (Address × Message)) (sender : Address) (mp : Message)
    (h : Known broadcasts sender mp) : Known (broadcasts ++ more) sender mp :=
  h.imp (fun hmsg => ⟨hmsg.1, List.mem_append_left _ hmsg.2⟩) id

/-- A process only writes notifications that are known. -/
theorem admits_known {rank : ℕ} (hrank : rank < np) (broadcasts : List (Address × Message)) :
    Admits (Known broadcasts) (rankToAddr rank) where
  arrival circuit := by
    refine Or.inr ⟨rank, hrank, _, Or.inl ⟨rfl, ?_⟩⟩
    rw [addrIsMember_rankToAddr ⟨rank, hrank⟩, BitVec.getLsbD_or,
      rankToAddr_getLsbD ⟨rank, hrank⟩ ⟨rank, hrank⟩]
    simp
  departure gone circuit rank' hrank' hgone := by
    refine Or.inr ⟨rank', hrank', _, Or.inr ⟨rfl, ?_⟩⟩
    rw [addrIsMember_rankToAddr ⟨rank', hrank'⟩] at hgone ⊢
    rw [BitVec.getLsbD_and, BitVec.getLsbD_not, hgone]
    simp

/-- What holds after every run. -/
structure Network.Sound (conf : Fin N → Config) (s : Network N ntr) : Prop where
  processes : ∀ i a, s.apps i = some a → Contents (Known s.broadcasts) (conf i).myAddress a.proc
  messages : ∀ m ∈ s.sent, m.Carrying (Known s.broadcasts)
  calls : ∀ i, ∀ cb ∈ (s.threads i).made, cb.Documented s.broadcasts
  running : ∀ i, (s.threads i).terminate = false
  dequeued : ∀ i a, s.apps i = some a →
    (s.threads i).dequeued ≤ a.proc.wagonsToDeliver.length ∧
      (s.threads i).made.filterMap Callback.delivery =
        (a.proc.wagonsToDeliver.take (s.threads i).dequeued).flatMap Wagon.broadcasts

section Runs

variable {conf : Fin N → Config} {hntr : 0 < ntr} {s t : Network N ntr}

theorem Network.sound_initial : (Network.initial : Network N ntr).Sound conf where
  processes _ _ h := by cases h
  messages _ h := absurd h List.not_mem_nil
  calls _ _ h := absurd h List.not_mem_nil
  running _ := rfl
  dequeued _ _ h := by cases h

theorem Network.Sound.start {i : Fin N} {dial : Address → Bool} {q : Proc ntr}
    {actions : List (Action ntr)} (hadmits : Admits (Known s.broadcasts) (conf i).myAddress)
    (hs : s.Sound conf) (h : automatonInit (conf i) dial hntr = some (q, actions)) :
    Network.Sound conf { s with
      apps := Function.update s.apps i (some ⟨q, .idle, []⟩)
      threads := Function.update s.threads i ⟨0, [], false⟩
      sent := s.sent ++ sentMsgs actions } := by
  have hq := (contents_initial hntr).offlineInit hadmits h
  constructor
  case processes =>
    intro j a ha
    dsimp only at ha ⊢
    by_cases hj : j = i
    · subst hj
      rw [Function.update_self] at ha
      cases ha
      exact hq
    · rw [Function.update_of_ne hj] at ha
      exact hs.processes j a ha
  case messages =>
    intro m hm
    rcases List.mem_append.mp hm with hm | hm
    · exact hs.messages m hm
    · exact hq.sent (offlineInit_fromLts h) m hm
  case calls =>
    intro j cb hcb
    dsimp only at hcb ⊢
    by_cases hj : j = i
    · subst hj
      rw [Function.update_self] at hcb
      exact absurd hcb List.not_mem_nil
    · rw [Function.update_of_ne hj] at hcb
      exact hs.calls j cb hcb
  case running =>
    intro j
    dsimp only
    by_cases hj : j = i
    · subst hj
      rw [Function.update_self]
    · rw [Function.update_of_ne hj]
      exact hs.running j
  case dequeued =>
    intro j a ha
    dsimp only at ha ⊢
    by_cases hj : j = i
    · subst hj
      rw [Function.update_self]
      exact ⟨Nat.zero_le _, rfl⟩
    · rw [Function.update_of_ne hj] at ha ⊢
      exact hs.dequeued j a ha

theorem Network.Sound.app {i : Fin N} {e : AppEvent ntr} {a a' : App ntr}
    (hadmits : ∀ broadcasts, Admits (Known broadcasts) (conf i).myAddress) (hs : s.Sound conf)
    (hpossible : s.Possible e) (ha : s.apps i = some a) (h : a.step (conf i) e = some a') :
    Network.Sound conf { s with
      apps := Function.update s.apps i (some a')
      sent := s.sent ++ sentMsgs (a.actions (conf i) e)
      broadcasts := s.broadcasts ++ e.newmsgs.map fun mp => ((conf i).myAddress, mp) } := by
  have hmono := Known.mono s.broadcasts (e.newmsgs.map fun mp => ((conf i).myAddress, mp))
  have hmessage : ∀ dial m, e = .message dial m → m.Carrying (Known (s.broadcasts ++
      e.newmsgs.map fun mp => ((conf i).myAddress, mp))) := by
    rintro dial m rfl
    cases m with
    | train => exact (hs.messages _ hpossible).mono hmono
    | insert | ackInsert | nakInsert | disconnectPred | disconnectSucc | newSucc => trivial
  have hnewmsg : ∀ mp ∈ e.newmsgs, Known (s.broadcasts ++
      e.newmsgs.map fun mp => ((conf i).myAddress, mp)) (conf i).myAddress mp := by
    intro mp hmp
    have htyp : mp.typ = amBroadcast := by
      cases e with
      | newmsg mp' =>
        rw [List.mem_singleton.mp hmp]
        exact hpossible
      | message | wake | utoBroadcast | unlock => exact absurd hmp List.not_mem_nil
    exact Or.inl ⟨htyp, List.mem_append_right _ (List.mem_map_of_mem hmp)⟩
  have hstep := ((hs.processes i a ha).mono hmono).step (hadmits _) hmessage hnewmsg h
  constructor
  case processes =>
    intro j b hb
    dsimp only at hb ⊢
    by_cases hj : j = i
    · subst hj
      rw [Function.update_self] at hb
      cases hb
      exact hstep.1
    · rw [Function.update_of_ne hj] at hb
      exact (hs.processes j b hb).mono hmono
  case messages =>
    intro m hm
    rcases List.mem_append.mp hm with hm | hm
    · exact (hs.messages m hm).mono hmono
    · exact hstep.2 m hm
  case calls => exact fun j cb hcb => (hs.calls j cb hcb).mono
  case running => exact hs.running
  case dequeued =>
    intro j b hb
    dsimp only at hb ⊢
    by_cases hj : j = i
    · subst hj
      rw [Function.update_self] at hb
      cases hb
      obtain ⟨more, hmore⟩ := App.prefix_step h
      obtain ⟨hle, hmade⟩ := hs.dequeued j a ha
      have hlength := congrArg List.length hmore
      rw [List.length_append] at hlength
      rw [hmade, ← hmore, List.take_append_of_le_length hle]
      exact ⟨by rw [List.length_append]; omega, rfl⟩
    · rw [Function.update_of_ne hj] at hb
      exact hs.dequeued j b hb

/-- The thread of a process can treat the next wagon. -/
theorem Network.Sound.pass {i : Fin N} {a : App ntr} (hs : s.Sound conf) (ha : s.apps i = some a)
    (hwaits : (s.threads i).dequeued < a.proc.wagonsToDeliver.length) :
    ∃ made, (s.threads i).utoDeliveries a.proc.wagonsToDeliver =
        some ⟨(s.threads i).dequeued + 1, (s.threads i).made ++ made, false⟩ ∧
      (∀ cb ∈ made, cb.Documented s.broadcasts) ∧
      made.filterMap Callback.delivery =
        (a.proc.wagonsToDeliver[(s.threads i).dequeued]).broadcasts := by
  have hknown : ∀ w ∈ a.proc.wagonsToDeliver, w.Carrying (Known s.broadcasts) :=
    (hs.processes i a ha).held.1
  exact Deliverer.utoDeliveries_known (hs.running i) hknown hwaits

theorem Network.Sound.deliver {i : Fin N} {a : App ntr} {d : Deliverer} (hs : s.Sound conf)
    (ha : s.apps i = some a)
    (h : (s.threads i).utoDeliveries a.proc.wagonsToDeliver = some d) :
    Network.Sound conf { s with threads := Function.update s.threads i d } := by
  have hwaits : (s.threads i).dequeued < a.proc.wagonsToDeliver.length := by
    rw [Deliverer.utoDeliveries, hs.running i] at h
    obtain ⟨w, hw, -⟩ := Option.bind_eq_some_iff.mp h
    exact (List.getElem?_eq_some_iff.mp hw).1
  obtain ⟨made, hpass, hmade, hdeliveries⟩ := hs.pass ha hwaits
  rw [hpass] at h
  cases h
  constructor
  case processes => exact hs.processes
  case messages => exact hs.messages
  case calls =>
    intro j cb hcb
    dsimp only at hcb ⊢
    by_cases hj : j = i
    · subst hj
      rw [Function.update_self] at hcb
      rcases List.mem_append.mp hcb with hcb | hcb
      · exact hs.calls j cb hcb
      · exact hmade cb hcb
    · rw [Function.update_of_ne hj] at hcb
      exact hs.calls j cb hcb
  case running =>
    intro j
    dsimp only
    by_cases hj : j = i
    · subst hj
      rw [Function.update_self]
    · rw [Function.update_of_ne hj]
      exact hs.running j
  case dequeued =>
    intro j b hb
    dsimp only at hb ⊢
    by_cases hj : j = i
    · subst hj
      obtain rfl : a = b := Option.some.inj (ha.symm.trans hb)
      rw [Function.update_self]
      refine ⟨hwaits, ?_⟩
      rw [List.filterMap_append, (hs.dequeued j a ha).2, hdeliveries, List.take_add_one,
        List.getElem?_eq_getElem hwaits, List.flatMap_append]
      simp
    · rw [Function.update_of_ne hj]
      exact hs.dequeued j b hb

theorem Network.sound_step (haddress : ∀ i, ∃ rank < np, (conf i).myAddress = rankToAddr rank)
    {e : NetworkEvent N ntr} (hs : s.Sound conf) (h : s.step conf hntr e = some t) :
    t.Sound conf := by
  have hadmits : ∀ i broadcasts, Admits (Known broadcasts) (conf i).myAddress := by
    intro i broadcasts
    obtain ⟨rank, hrank, haddr⟩ := haddress i
    exact haddr ▸ admits_known hrank broadcasts
  cases e with
  | start i dial =>
    obtain ⟨⟨q, actions⟩, hinit, rfl⟩ := Option.map_eq_some_iff.mp h
    exact hs.start (hadmits i _) hinit
  | crash i =>
    cases h
    have hrunning : ∀ j a, Function.update s.apps i none j = some a → s.apps j = some a := by
      intro j a ha
      by_cases hj : j = i
      · subst hj
        rw [Function.update_self] at ha
        cases ha
      · rwa [Function.update_of_ne hj] at ha
    exact ⟨fun j a ha => hs.processes j a (hrunning j a ha), hs.messages, hs.calls, hs.running,
      fun j a ha => hs.dequeued j a (hrunning j a ha)⟩
  | app i e =>
    rw [Network.step] at h
    split at h
    · rename_i hpossible
      obtain ⟨a, ha, h⟩ := Option.bind_eq_some_iff.mp h
      obtain ⟨a', hstep, rfl⟩ := Option.map_eq_some_iff.mp h
      exact hs.app (hadmits i) hpossible ha hstep
    · cases h
  | deliver i =>
    obtain ⟨a, ha, h⟩ := Option.bind_eq_some_iff.mp h
    obtain ⟨d, hpass, rfl⟩ := Option.map_eq_some_iff.mp h
    exact hs.deliver ha hpass

/-- **Callbacks.** Whatever the processes and the network do, each call of the application's
functions tells of a message that was broadcast or of a change of the circuit as documented, the
thread has handed over the messages of the wagons that it has dequeued, in their order, it never
ends, and it is never stuck while a wagon waits. -/
theorem network_callbacks (haddress : ∀ i, ∃ rank < np, (conf i).myAddress = rankToAddr rank)
    {es : List (NetworkEvent N ntr)} (hrun : exec (Network.step conf hntr) .initial es = some s)
    (i : Fin N) :
    (∀ cb ∈ (s.threads i).made, cb.Documented s.broadcasts) ∧ (s.threads i).terminate = false ∧
    ∀ a, s.apps i = some a →
      (s.threads i).made.filterMap Callback.delivery =
        (a.proc.wagonsToDeliver.take (s.threads i).dequeued).flatMap Wagon.broadcasts ∧
      ((s.threads i).dequeued < a.proc.wagonsToDeliver.length →
        ∃ t, s.step conf hntr (.deliver i) = some t) := by
  have hs : s.Sound conf := exec_invariant (fun _ _ _ hs => Network.sound_step haddress hs)
    Network.sound_initial hrun
  refine ⟨hs.calls i, hs.running i, fun a ha => ⟨(hs.dequeued i a ha).2, fun hwaits => ?_⟩⟩
  obtain ⟨made, hpass, -⟩ := hs.pass ha hwaits
  refine Option.isSome_iff_exists.mp ?_
  rw [Network.step, ha, Option.bind_some, hpass]
  rfl

/-- The addresses of two processes. -/
def pairOf (i : Fin 2) : Config := ⟨rankToAddr i.val, 3, 64⟩

/-- A process broadcasts alone, then another one joins. -/
def joinedByOther (i j : Fin 2) : List (NetworkEvent 2 1) :=
  [.start i (fun _ => false), .app i (.newmsg ⟨amBroadcast, [5#8]⟩), .app i .utoBroadcast,
    .deliver i, .app i .unlock, .start j (fun ad => ad = 1#16),
    .app i (.message (fun _ => false) (.insert 2#16)),
    .app j (.message (fun _ => true) (.ackInsert 1#16)),
    .app i (.message (fun _ => false) (.newSucc 2#16)), .deliver i]

theorem network_callbacks_joinedByOther : ∃ s a,
    exec (Network.step pairOf Nat.one_pos) .initial (joinedByOther 0 1) = some s ∧
    s.apps 0 = some a ∧ (∀ cb ∈ (s.threads 0).made, cb.Documented s.broadcasts) ∧
    (s.threads 0).terminate = false ∧ (s.threads 0).made.filterMap Callback.delivery =
      (a.proc.wagonsToDeliver.take (s.threads 0).dequeued).flatMap Wagon.broadcasts ∧
    (s.threads 0).made.length = 2 := by
  let s := (exec (Network.step pairOf Nat.one_pos) .initial (joinedByOther 0 1)).get (by decide)
  let a := (s.apps 0).get (by decide)
  have hs : exec (Network.step pairOf Nat.one_pos) .initial (joinedByOther 0 1) = some s :=
    (Option.some_get _).symm
  have ha : s.apps 0 = some a := (Option.some_get _).symm
  have haddress : ∀ i, ∃ rank < np, (pairOf i).myAddress = rankToAddr rank :=
    fun i => ⟨i.val, by have := i.isLt; simp only [np]; omega, rfl⟩
  obtain ⟨hmade, hruns, hthread⟩ := network_callbacks haddress hs 0
  exact ⟨s, a, hs, ha, hmade, hruns, (hthread a ha).1, by decide⟩

end Runs

end UniformBroadcast.Trains
