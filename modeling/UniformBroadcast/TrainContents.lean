import UniformBroadcast.TrainAlone
import UniformBroadcast.TrainCarriage

/-!
# What the wagons of a process carry

A process holds wagons in several places and moves them from one to the other. What is known of
each message of each wagon that it receives, and of those that it writes itself, is known of each
message of each wagon that it holds, delivers or sends.
-/

namespace UniformBroadcast.Trains

open Draining

variable {ntr : ℕ} {known : Address → Message → Prop}

/-- What is known of the messages of a sender is true of those of the wagon. -/
def Wagon.Carrying (known : Address → Message → Prop) (w : Wagon) : Prop :=
  ∀ mp ∈ w.msgs, known w.sender mp

/-- It is true of the wagons of the train. -/
def Msg.Carrying (known : Address → Message → Prop) : Msg ntr → Prop
  | .train _ _ (some wagons) => ∀ w ∈ wagons, w.Carrying known
  | _ => True

/-- It is true of the notifications that the process writes. -/
structure Admits (known : Address → Message → Prop) (my : Address) : Prop where
  arrival : ∀ circuit, known my ⟨amArrival, addressBytes my ++ addressBytes (circuit ||| my)⟩
  departure : ∀ gone circuit, ∀ rank < np, addrIsMember (rankToAddr rank) gone = true →
    known my ⟨amDeparture, addressBytes (rankToAddr rank) ++ addressBytes (circuit &&& ~~~gone)⟩

/-- It is true of all the wagons that the process holds. -/
structure Contents (known : Address → Message → Prop) (my : Address) (p : Proc ntr) : Prop where
  held : All (Wagon.Carrying known) (stock p)
  sentOn : ∀ id, ∀ w ∈ (p.lts id).pWagon.getD [], w.Carrying known
  own : ∀ id, ∀ w ∈ (p.lts id).pWtosend, w.Carrying known
  filled : p.wagonToSend.Carrying known
  sender : p.wagonToSend.sender = my

theorem Wagon.Carrying.mono {known' : Address → Message → Prop} {w : Wagon}
    (hmono : ∀ sender mp, known sender mp → known' sender mp) (h : w.Carrying known) :
    w.Carrying known' := fun mp hmp => hmono _ _ (h mp hmp)

theorem Msg.Carrying.mono {known' : Address → Message → Prop} {m : Msg ntr}
    (hmono : ∀ sender mp, known sender mp → known' sender mp) (h : m.Carrying known) :
    m.Carrying known' := by
  cases m with
  | train stamp circuit wagons =>
    cases wagons with
    | none => trivial
    | some wagons => exact fun w hw => (h w hw).mono hmono
  | insert | ackInsert | nakInsert | disconnectPred | disconnectSucc | newSucc => trivial

theorem Contents.mono {known' : Address → Message → Prop} {my : Address} {p : Proc ntr}
    (hmono : ∀ sender mp, known sender mp → known' sender mp) (h : Contents known my p) :
    Contents known' my p where
  held := ⟨fun w hw => (h.held.1 w hw).mono hmono, fun k w hw => (h.held.2 k w hw).mono hmono⟩
  sentOn id w hw := (h.sentOn id w hw).mono hmono
  own id w hw := (h.own id w hw).mono hmono
  filled := h.filled.mono hmono
  sender := h.sender

/-! ## The wagon being filled -/

section Filling

variable {my : Address} {w : Wagon}

theorem carrying_newWiw (known : Address → Message → Prop) (my : Address) :
    (newWiw my).Carrying known := fun _ h => absurd h List.not_mem_nil

theorem Wagon.Carrying.mallocWiw {mp : Message} (h : w.Carrying known) (hmp : known w.sender mp) :
    (mallocWiw mp w).Carrying known := by
  intro mp' hmp'
  rcases List.mem_append.mp hmp' with hmp' | hmp'
  · exact h mp' hmp'
  · rw [List.mem_singleton.mp hmp']
    exact hmp

theorem Wagon.Carrying.signalArrival (hadmits : Admits known my) (h : w.Carrying known)
    (hsender : w.sender = my) (circuit : Address) :
    (signalArrival my circuit w).Carrying known :=
  h.mallocWiw (hsender ▸ hadmits.arrival circuit)

theorem Wagon.Carrying.signalDepartures (hadmits : Admits known my) (h : w.Carrying known)
    (hsender : w.sender = my) (gone circuit : Address) :
    (signalDepartures gone circuit w).Carrying known ∧
      (signalDepartures gone circuit w).sender = my := by
  have hfold : ∀ ads : List Address, (∀ ad ∈ ads, ∃ rank < np, ad = rankToAddr rank ∧
      addrIsMember ad gone = true) → ∀ w : Wagon, w.Carrying known → w.sender = my →
      (ads.foldl (fun w ad => signalArrivalDepartures amDeparture ad (circuit &&& ~~~gone) w)
        w).Carrying known ∧
      (ads.foldl (fun w ad => signalArrivalDepartures amDeparture ad (circuit &&& ~~~gone) w)
        w).sender = my := by
    intro ads
    induction ads with
    | nil => exact fun _ w hw hsender => ⟨hw, hsender⟩
    | cons ad ads ih =>
      intro hads w hw hsender
      obtain ⟨rank, hrank, rfl, hgone⟩ := hads ad List.mem_cons_self
      have hnotice := hadmits.departure gone circuit rank hrank hgone
      exact ih (fun ad had => hads ad (List.mem_cons_of_mem _ had)) _
        (hw.mallocWiw (hsender ▸ hnotice)) hsender
  rw [Trains.signalDepartures]
  split
  · refine hfold _ (fun ad had => ?_) w h hsender
    obtain ⟨hrank, hgone⟩ := List.mem_filter.mp had
    obtain ⟨rank, hlt, rfl⟩ := List.mem_map.mp hrank
    exact ⟨rank, List.mem_range.mp hlt, rfl, by simpa using hgone⟩
  · exact ⟨h, hsender⟩

end Filling

/-! ## One treatment -/

section Treatments

variable {c : Config} {p q : Proc ntr} {m : Msg ntr}

theorem Contents.congr {my : Address} (h : Contents known my p) (hheld : stock q = stock p)
    (hlts : q.lts = p.lts) (hwagon : q.wagonToSend = p.wagonToSend) : Contents known my q := by
  refine ⟨hheld ▸ h.held, ?_, ?_, ?_, ?_⟩
  · exact hlts ▸ h.sentOn
  · exact hlts ▸ h.own
  · exact hwagon ▸ h.filled
  · exact hwagon ▸ h.sender

theorem Contents.keeps (h : Contents known c.myAddress p) (hkeeps : Keeps p q) :
    Contents known c.myAddress q := by
  refine h.congr ?_ hkeeps.lts hkeeps.wagonToSend
  simp only [stock, hkeeps.wagonsToDeliver, hkeeps.unstableWagons]

theorem Contents.flush (h : Contents known c.myAddress p) :
    Contents known c.myAddress (flush p) where
  held := stock_flush p ▸ h.held.foldl_drain _
  sentOn := flush_lts p ▸ h.sentOn
  own := flush_lts p ▸ h.own
  filled := flush_wagonToSend p ▸ h.filled
  sender := flush_wagonToSend p ▸ h.sender

theorem Contents.deliverWagonToSend (h : Contents known c.myAddress p) :
    Contents known c.myAddress (deliverWagonToSend c p) where
  held := by
    refine ⟨fun w hw => ?_, h.held.2⟩
    rcases List.mem_append.mp hw with hw | hw
    · exact h.held.1 w hw
    · rw [List.mem_singleton.mp hw]
      exact h.filled
  sentOn := h.sentOn
  own := h.own
  filled := carrying_newWiw known _
  sender := rfl

theorem Contents.forwardTrain (h : Contents known c.myAddress p) (stamp : Stamp ntr)
    (circuit : Address) {wagons : List Wagon} (hwagons : ∀ w ∈ wagons, w.Carrying known) :
    Contents known c.myAddress (forwardTrain c stamp circuit wagons p) := by
  rw [Trains.forwardTrain]
  generalize (if addrIsMember c.myAddress circuit then { stamp with lc := stamp.lc + 1 }
    else stamp) = stamp'
  refine ⟨h.held, fun id w hw => ?_, fun id w hw => ?_, h.filled, h.sender⟩
  · by_cases hid : id = stamp'.id
    · subst hid
      simp only [setAt, Function.update_self] at hw
      split at hw
      · cases hw
      · exact hwagons w hw
    · simp only [setAt, Function.update_of_ne hid] at hw
      exact h.sentOn id w hw
  · by_cases hid : id = stamp'.id
    · subst hid
      simp only [setAt, Function.update_self] at hw
      exact h.own _ w hw
    · simp only [setAt, Function.update_of_ne hid] at hw
      exact h.own id w hw

theorem Contents.trainHandling (hadmits : Admits known c.myAddress)
    (h : Contents known c.myAddress p) {t : Train ntr} (ht : ∀ w ∈ t.wagons, w.Carrying known) :
    Contents known c.myAddress (trainHandling c.myAddress t p) := by
  have hfilled : (updateCircuit t.stamp.id t.circuit p).2.wagonToSend.Carrying known ∧
      (updateCircuit t.stamp.id t.circuit p).2.wagonToSend.sender = c.myAddress := by
    rw [updateCircuit]
    split
    · exact h.filled.signalDepartures hadmits h.sender _ _
    · exact ⟨h.filled, h.sender⟩
  have hown : ∀ w ∈ ownOn t p, w.Carrying known := by
    intro w hw
    rw [ownOn, ownWagon] at hw
    split at hw
    · cases hw
      exact hfilled.1
    · cases hw
  have hrecorded : ∀ w ∈ recorded c.myAddress t p ++ (ownOn t p).toList, w.Carrying known := by
    intro w hw
    rcases List.mem_append.mp hw with hw | hw
    · exact ht w (List.mem_of_mem_filter hw)
    · exact hown w (Option.mem_toList.mp hw)
  have hpart : ∀ w ∈ (fromFirst (Trains.sentOn c.myAddress t p) t.wagons).getD [],
      w ∈ t.wagons := by
    intro w hw
    rw [fromFirst_getD] at hw
    exact (List.dropWhile_suffix _).subset hw
  constructor
  case held =>
    rw [stock_trainHandling]
    exact (h.held.drain _).extend _ hrecorded
  case sentOn =>
    intro id w hw
    by_cases hid : id = t.stamp.id
    · subst hid
      rw [trainHandling_lts] at hw
      exact ht w (hpart w hw)
    · rw [trainHandling_lts_of_ne hid] at hw
      exact h.sentOn id w hw
  case own =>
    intro id w hw
    by_cases hid : id = t.stamp.id
    · subst hid
      rw [trainHandling_lts] at hw
      exact hown w hw
    · rw [trainHandling_lts_of_ne hid] at hw
      exact h.own id w hw
  case filled =>
    rw [trainHandling_wagonToSend]
    split
    · exact carrying_newWiw known _
    · exact hfilled.1
  case sender =>
    rw [trainHandling_wagonToSend]
    split
    · rfl
    · exact hfilled.2

theorem Contents.treat (hadmits : Admits known c.myAddress) (h : Contents known c.myAddress p)
    (hm : m.Carrying known) (htreat : Treatment c p m q) : Contents known c.myAddress q := by
  cases htreat with
  | kept _ _ keeps _ _ => exact h.keeps keeps
  | forwarded stamp circuit wagons _ => exact h.forwardTrain stamp circuit hm
  | confirmed stamp circuit wagons _ =>
    have hforward := h.forwardTrain stamp circuit hm
    exact ⟨hforward.held, hforward.sentOn, hforward.own,
      hforward.filled.signalArrival hadmits hforward.sender _, hforward.sender⟩
  | started sender _ =>
    refine ⟨h.held, ?_, h.own, h.filled, h.sender⟩
    intro id w hw
    cases hw
  | handled stamp circuit wagons _ _ =>
    exact (h.trainHandling hadmits (t := ⟨stamp, circuit, wagons⟩) hm).congr rfl rfl rfl
  | alone sender r _ keeps =>
    have hr := h.keeps keeps
    obtain ⟨hfilled, hsender⟩ := hr.filled.signalDepartures hadmits hr.sender r.goneProc
      (r.lts r.lis).circuit
    have hsignalled : Contents known c.myAddress { r with
        goneProc := 0#16
        wagonToSend := signalDepartures r.goneProc (r.lts r.lis).circuit r.wagonToSend } :=
      ⟨hr.held, hr.sentOn, hr.own, hfilled, hsender⟩
    exact hsignalled.flush.deliverWagonToSend.congr rfl rfl rfl

theorem Contents.offlineInit {dial : Address → Bool} {actions : List (Action ntr)}
    (hadmits : Admits known c.myAddress) (h : Contents known c.myAddress p)
    (hinit : offlineInit c dial p = some (q, actions)) : Contents known c.myAddress q := by
  obtain ⟨succ, rfl | rfl⟩ := offlineInit_cases hinit
  · exact h.congr rfl rfl rfl
  · have hsignalled : Contents known c.myAddress { p with
        succ := succ
        wagonToSend := signalArrival c.myAddress c.myAddress p.wagonToSend } :=
      ⟨h.held, h.sentOn, h.own, h.filled.signalArrival hadmits h.sender _, h.sender⟩
    exact hsignalled.deliverWagonToSend.congr rfl rfl rfl

theorem contents_initial (hntr : 0 < ntr) :
    Contents known c.myAddress (Proc.initial c hntr) where
  held := ⟨fun _ h => absurd h List.not_mem_nil, fun _ _ h => absurd h List.not_mem_nil⟩
  sentOn _ _ h := absurd h List.not_mem_nil
  own _ _ h := by cases h
  filled := carrying_newWiw known _
  sender := rfl

end Treatments

/-! ## What is sent -/

/-- The messages that some actions send. -/
def sentMsgs : List (Action ntr) → List (Msg ntr) := List.filterMap fun
  | .sendTrain _ lts => some (trainMsg lts)
  | .sendOther _ _ msg => some msg
  | _ => none

/-- The trains that an action sends are those that the process has kept as its last ones. -/
def Action.FromLts (q : Proc ntr) : Action ntr → Prop
  | .sendTrain _ lts => ∃ id, lts = q.lts id
  | .sendOther _ _ (.train _ _ _) => False
  | _ => True

section Sending

variable {c : Config} {dial : Address → Bool} {p q : Proc ntr} {m : Msg ntr}
  {actions : List (Action ntr)}

theorem prefix_carve {wagons cut : List Wagon} {len : ℕ} (h : carve wagons len = some cut) :
    cut <+: wagons := by
  induction wagons generalizing len cut with
  | nil =>
    cases len with
    | zero =>
      cases h
      exact List.nil_prefix
    | succ len => cases h
  | cons w wagons ih =>
    cases len with
    | zero =>
      cases h
      exact List.nil_prefix
    | succ len =>
      rw [carve] at h
      split at h
      · obtain ⟨rest, hrest, rfl⟩ := Option.map_eq_some_iff.mp h
        exact List.cons_prefix_cons.mpr ⟨rfl, ih hrest⟩
      · cases h

/-- A train that leaves carries wagons that the process holds. -/
theorem Contents.trainMsg (h : Contents known c.myAddress p) (id : Fin ntr) :
    (trainMsg (p.lts id)).Carrying known := by
  rw [Trains.trainMsg, trainSent]
  cases hcarve : carve ((p.lts id).pWagon.getD []) (p.lts id).len with
  | none => trivial
  | some wagons =>
    intro w hw
    rcases List.mem_append.mp hw with hw | hw
    · exact h.sentOn id w ((prefix_carve hcarve).subset hw)
    · cases hown : (p.lts id).pWtosend with
      | none =>
        rw [hown] at hw
        cases hw
      | some v =>
        simp only [hown, ownSent] at hw
        split at hw
        · rw [List.mem_singleton.mp hw]
          exact h.own id v hown
        · cases hw

theorem Contents.sent (h : Contents known c.myAddress q) (hactions : ∀ a ∈ actions, a.FromLts q) :
    ∀ msg ∈ sentMsgs actions, msg.Carrying known := by
  intro msg hmsg
  obtain ⟨a, ha, hsent⟩ := List.mem_filterMap.mp hmsg
  have hfrom := hactions a ha
  cases a with
  | sendTrain addr lts =>
    obtain ⟨id, rfl⟩ := hfrom
    cases hsent
    exact h.trainMsg id
  | sendOther addr isPred msg' =>
    cases hsent
    cases msg with
    | train => exact hfrom.elim
    | insert | ackInsert | nakInsert | disconnectPred | disconnectSucc | newSucc => trivial
  | participate | openConnection | closeConnection | sleep => cases hsent

theorem nextState_fromLts {s : State} (hs : s ≠ .offlineConnectionAttempt)
    (h : nextState c dial s p = some (q, actions)) (r : Proc ntr) :
    ∀ a ∈ actions, a.FromLts r := by
  cases s with
  | offlineConnectionAttempt => exact absurd rfl hs
  | wait =>
    obtain ⟨⟨_, closes⟩, hwait, h⟩ := Option.bind_eq_some_iff.mp h
    cases h
    rw [waitBeforeConnect] at hwait
    split at hwait
    · cases hwait
    · cases hwait
      have hclose : ∀ (addr : Address) (isPred : Bool), ∀ a ∈
          (if addr ≠ 0#16 then [Action.closeConnection addr isPred] else []), a.FromLts r := by
        intro addr isPred a ha
        split at ha
        · rw [List.mem_singleton.mp ha]
          trivial
        · cases ha
      intro a ha
      rcases List.mem_append.mp ha with ha | ha
      · rcases List.mem_append.mp ha with ha | ha
        · rcases List.mem_cons.mp ha with rfl | ha
          · trivial
          · exact hclose _ _ a ha
        · exact hclose _ _ a ha
      · rw [List.mem_singleton.mp ha]
        trivial
  | aloneInsertWait | offlineConfirmationWait | aloneConnectionWait | several =>
    cases h
    exact fun _ ha => absurd ha List.not_mem_nil

theorem searchPrec_fromLts {fuel : ℕ} {found : Bool} (r : Proc ntr)
    (h : searchPrec c dial fuel p = some (q, actions, found)) : ∀ a ∈ actions, a.FromLts r := by
  induction fuel generalizing p actions with
  | zero => cases h
  | succ fuel ih =>
    rw [searchPrec] at h
    split at h
    · cases h
      exact fun _ ha => absurd ha List.not_mem_nil
    · split at h
      · cases h
        intro a ha
        rcases List.mem_pair.mp ha with rfl | rfl <;> trivial
      · obtain ⟨prec, -, h⟩ := Option.bind_eq_some_iff.mp h
        obtain ⟨⟨q', actions', found'⟩, hrest, h⟩ := Option.bind_eq_some_iff.mp h
        cases h
        intro a ha
        rcases List.mem_cons.mp ha with rfl | ha
        · trivial
        · exact ih hrest a ha

theorem offlineInit_fromLts (h : offlineInit c dial p = some (q, actions)) :
    ∀ a ∈ actions, a.FromLts q := by
  have hsearch : ∀ ranks : List ℕ, ∀ a ∈ (searchSucc c dial ranks : List (Action ntr) × Address).1,
      a.FromLts q := by
    intro ranks
    induction ranks with
    | nil => exact fun _ ha => absurd ha List.not_mem_nil
    | cons rank ranks ih =>
      intro a ha
      rw [searchSucc] at ha
      split at ha
      · rw [List.mem_singleton.mp ha]
        trivial
      · rcases List.mem_cons.mp ha with rfl | ha
        · trivial
        · exact ih a ha
  obtain ⟨rank, -, hinit⟩ := Option.bind_eq_some_iff.mp h
  have hattempts := hsearch (ranksAfter rank)
  dsimp only at hinit
  split at hinit
  · cases hinit
    intro a ha
    rcases List.mem_cons.mp ha with rfl | ha
    · trivial
    · exact hattempts a ha
  · cases hinit
    intro a ha
    rcases List.mem_append.mp ha with ha | ha
    · rcases List.mem_cons.mp ha with rfl | ha
      · trivial
      · exact hattempts a ha
    · rw [List.mem_singleton.mp ha]
      trivial

/-- Every train that a treatment sends is one that the process keeps. -/
theorem stateMachine_fromLts (h : stateMachine c dial m p = some (q, actions)) :
    ∀ a ∈ actions, a.FromLts q := by
  have hone : ∀ {a : Action ntr}, a.FromLts q → ∀ a' ∈ [a], a'.FromLts q := by
    intro a ha a' ha'
    rwa [List.mem_singleton.mp ha']
  have hnone : ∀ a ∈ ([] : List (Action ntr)), a.FromLts q := fun _ ha => absurd ha List.not_mem_nil
  rw [stateMachine] at h
  split at h
  · cases m with
    | nakInsert | disconnectPred | disconnectSucc =>
      rw [offlineConnectionAttempt] at h
      exact nextState_fromLts (by decide) h q
    | insert sender =>
      cases h
      exact hone trivial
    | ackInsert sender =>
      rw [offlineConnectionAttempt] at h
      obtain ⟨⟨r, more⟩, hnext, h⟩ := Option.bind_eq_some_iff.mp h
      cases h
      intro a ha
      rcases List.mem_cons.mp ha with rfl | ha
      · trivial
      · rcases List.mem_cons.mp ha with rfl | ha
        · trivial
        · exact nextState_fromLts (by decide) hnext q a ha
    | train | newSucc => cases h
  · cases m with
    | newSucc | disconnectPred | disconnectSucc =>
      rw [offlineConfirmationWait] at h
      exact nextState_fromLts (by decide) h q
    | insert sender =>
      cases h
      exact hone trivial
    | train stamp circuit wagons =>
      rw [offlineConfirmationWait] at h
      obtain ⟨w, hw, hsome⟩ := Option.bind_eq_some_iff.mp h
      subst hw
      dsimp only at hsome
      split at hsome
      · obtain ⟨⟨r, more⟩, hnext, hsome⟩ := Option.bind_eq_some_iff.mp hsome
        cases hnext
        cases hsome
        exact hone ⟨_, rfl⟩
      · cases hsome
        exact hone ⟨_, rfl⟩
    | ackInsert | nakInsert => cases h
  · cases h
    exact hnone
  · cases m with
    | disconnectPred | disconnectSucc =>
      cases h
      exact hnone
    | insert sender =>
      rw [aloneInsertWait] at h
      obtain ⟨⟨r, more⟩, hnext, h⟩ := Option.bind_eq_some_iff.mp h
      cases hnext
      cases h
      exact hone trivial
    | train | ackInsert | nakInsert | newSucc => cases h
  · cases m with
    | disconnectPred =>
      rw [aloneConnectionWait] at h
      exact nextState_fromLts (by decide) h q
    | insert sender =>
      cases h
      exact hone trivial
    | newSucc sender =>
      rw [aloneConnectionWait] at h
      obtain ⟨⟨r, more⟩, hnext, h⟩ := Option.bind_eq_some_iff.mp h
      cases hnext
      cases h
      intro a ha
      rw [List.append_nil] at ha
      obtain ⟨id, -, rfl⟩ := List.mem_map.mp ha
      exact ⟨id, rfl⟩
    | train | ackInsert | nakInsert | disconnectSucc => cases h
  · cases m with
    | train stamp circuit wagons =>
      rw [several] at h
      split at h
      · split at h
        · obtain ⟨w, rfl, h⟩ := Option.bind_eq_some_iff.mp h
          cases h
          split
          · exact hone ⟨_, rfl⟩
          · exact hnone
        · cases h
          exact hnone
      · cases h
    | insert sender =>
      cases h
      intro a ha
      rcases List.mem_pair.mp ha with rfl | rfl <;> trivial
    | newSucc sender =>
      cases h
      intro a ha
      rcases List.mem_append.mp ha with ha | ha
      · split at ha
        · rw [List.mem_singleton.mp ha]
          trivial
        · cases ha
      · obtain ⟨id, -, rfl⟩ := List.mem_map.mp ha
        exact ⟨id, rfl⟩
    | disconnectPred sender =>
      rw [several] at h
      obtain ⟨⟨r, opens, found⟩, hsearch, h⟩ := Option.bind_eq_some_iff.mp h
      have hopens := searchPrec_fromLts q hsearch
      cases found with
      | true =>
        cases h
        rw [List.append_nil]
        exact hopens
      | false =>
        cases h
        rw [List.append_nil]
        exact hopens
    | disconnectSucc =>
      cases h
      exact hnone
    | ackInsert | nakInsert => cases h

end Sending

end UniformBroadcast.Trains
