import NfdPitless.StrategyForwarder

/-! What the triggers and the timers of the built-in strategies can do, said once for all of them. Where the PIT entry
has a downstream, a strategy sends and rejects without a failed assertion on the in-records, leaves the in-records
alone, and sets no RTO timer but that of its own PIT entry, whose handle it stores. -/

namespace NfdPitless

open Forwarder
open Strategy (sendInterest rejectPendingInterest)

variable {κ : Type} {P : Platform κ} {s s' s'' : StrategyState κ} {r fibEntry : Ref} {strategy : Strategy}
  {inFace face : Face} {input : TriggerInput}

/-- The assertions that may fail: all but the one on the picked in-record and the one on the PIT entry of an RTO
timer. -/
def Tolerated (a : Assertion) : Prop := a ≠ .pickedInRecord ∧ a ≠ .rtoPitEntry

namespace StrategyState

/-- The PIT entry is in the table and has an in-record. -/
def HasDownstream (s : StrategyState κ) (r : Ref) : Prop := ∃ e, s.entry r = some e ∧ e.inRecords ≠ []

/-- A pending RTO timer of a PIT entry. -/
def RtoTimer (s : StrategyState κ) (r : Ref) (id : Nat) : Prop :=
  ∃ event ∈ s.timers.pending, event.id = id ∧
    ∃ fibWeak inFace firstOutFace, event.callback = .afterRtoTimeout r fibWeak inFace firstOutFace

/-- The handle of a pending RTO timer of the PIT entry is in the item of the access strategy. -/
def HandleStored (s : StrategyState κ) (r : Ref) : Prop := ∀ id, s.RtoTimer r id → (s.info r).access = some ⟨some id⟩

end StrategyState

open StrategyState

/-- From `s` to `s'` a strategy acted on the PIT entry `r`. -/
structure Triggered (strategy : Strategy) (r : Ref) (s s' : StrategyState κ) : Prop where
  acted : Acted r s.base s'.base
  strategyChoice_eq : s'.strategyChoice = s.strategyChoice
  rto : ∀ x id, s'.RtoTimer x id → s.RtoTimer x id ∧ (s'.info x).access = (s.info x).access ∨
    x = r ∧ strategy = .access ∧ (s'.info x).access = some ⟨some id⟩

namespace Triggered

theorem refl (strategy : Strategy) (r : Ref) (s : StrategyState κ) : Triggered strategy r s s where
  acted := Acted.refl r s.base
  strategyChoice_eq := rfl
  rto _ _ h := Or.inl ⟨h, rfl⟩

theorem trans (h : Triggered strategy r s s') (h' : Triggered strategy r s' s'') : Triggered strategy r s s'' where
  acted := h.acted.trans h'.acted
  strategyChoice_eq := h'.strategyChoice_eq.trans h.strategyChoice_eq
  rto x id hx := by
    rcases h'.rto x id hx with ⟨hmid, hinfo⟩ | hnew
    · rw [hinfo]
      exact h.rto x id hmid
    · exact Or.inr hnew

theorem hasDownstream (h : Triggered strategy r s s') (hd : s.HasDownstream r) : s'.HasDownstream r := by
  obtain ⟨e, he, hin⟩ := hd
  obtain ⟨e', he', -, hrecords, -⟩ := h.acted.entry e he
  exact ⟨e', he', by rwa [hrecords]⟩

theorem handleStored (h : Triggered strategy r s s') {x : Ref} (hstored : s.HandleStored x) : s'.HandleStored x := by
  intro id hid
  rcases h.rto x id hid with ⟨hold, hinfo⟩ | ⟨-, -, hnew⟩
  · rw [hinfo]
    exact hstored id hold
  · exact hnew

theorem of_base {base : ForwarderState κ} (h : Acted r s.base base) : Triggered strategy r s { s with base } where
  acted := h
  strategyChoice_eq := rfl
  rto _ _ h := Or.inl ⟨h, rfl⟩

/-- An item that is not of the access strategy is stored. -/
theorem setInfo {info : PitStrategyInfo} (h : info.access = (s.info r).access) :
    Triggered strategy r s (s.setInfo r info) where
  acted := Acted.refl r s.base
  strategyChoice_eq := rfl
  rto x id hx := by
    refine Or.inl ⟨hx, ?_⟩
    rw [info_setInfo]
    split
    · rename_i hxr
      rw [hxr, h]
    · rfl

theorem cancel (id : Option Nat) : Triggered strategy r s (s.cancel id) where
  acted := Acted.refl r s.base
  strategyChoice_eq := rfl
  rto x id' hx := by
    obtain ⟨event, hmem, hevent⟩ := hx
    exact Or.inl ⟨⟨event, (TimerQueue.mem_cancel.mp hmem).1, hevent⟩, rfl⟩

/-- A timer that is not an RTO timer is set. -/
theorem schedule {delay : Nat} {callback : StrategyCallback}
    (h : ∀ x fibWeak inFace firstOutFace, callback ≠ .afterRtoTimeout x fibWeak inFace firstOutFace) :
    Triggered strategy r s (s.schedule delay callback) where
  acted := Acted.refl r s.base
  strategyChoice_eq := rfl
  rto x id hx := by
    obtain ⟨event, hmem, hid, fibWeak, inFace, firstOutFace, hcall⟩ := hx
    rcases TimerQueue.mem_schedule.mp hmem with hmem | rfl
    · exact Or.inl ⟨⟨event, hmem, hid, fibWeak, inFace, firstOutFace, hcall⟩, rfl⟩
    · exact absurd hcall (h x fibWeak inFace firstOutFace)

/-- The RTO timer is set: the handle of the new event is stored, and the event stored before is cancelled. -/
theorem setRtoTimer (h : s.HandleStored r) (rto : Nat) (fibWeak : Ref)
    (inFace firstOutFace : Option Nat) :
    Triggered .access r s (AccessStrategy.setRtoTimer s r rto (.afterRtoTimeout r fibWeak inFace firstOutFace)) where
  acted := Acted.refl r s.base
  strategyChoice_eq := rfl
  rto x id hx := by
    obtain ⟨event, hmem, hid, hcall⟩ := hx
    obtain ⟨hmem, hkept⟩ := TimerQueue.mem_cancel.mp hmem
    rcases TimerQueue.mem_schedule.mp hmem with hmem | rfl
    · have hold : s.RtoTimer x id := ⟨event, hmem, hid, hcall⟩
      by_cases hxr : x = r
      · -- the event is the one stored before
        subst hxr
        rw [h id hold] at hkept
        exact absurd (congrArg some hid.symm) hkept
      · refine Or.inl ⟨hold, ?_⟩
        rw [AccessStrategy.setRtoTimer, info_setInfo, if_neg hxr, info_cancel, info_schedule]
    · obtain ⟨_, _, _, hcall⟩ := hcall
      cases hcall
      refine Or.inr ⟨rfl, rfl, ?_⟩
      rw [AccessStrategy.setRtoTimer, info_setInfo, if_pos rfl, ← hid]

end Triggered

theorem onOutgoingInterest_isSome {base : ForwarderState κ} {e : PitEntry} (he : base.pit.entries r = some e)
    (hin : e.inRecords ≠ []) (outFace : Face) (newNonce : Option UInt32) :
    ∃ base', onOutgoingInterest P base r outFace newNonce = some base' := by
  obtain ⟨record, hrecord⟩ := Lists.maxElement_isSome (comparePickInterest outFace) hin
  simp only [onOutgoingInterest, he, pickInterest, hrecord, Option.map_some]
  split
  · exact ⟨base, rfl⟩
  · split
    · exact ⟨base, rfl⟩
    · exact ⟨_, rfl⟩

theorem sendInterest_ends (hd : s.HasDownstream r) (outFace : Face) :
    Ends Tolerated (Triggered strategy r s) (sendInterest P s r outFace) := by
  obtain ⟨e, he, hin⟩ := hd
  obtain ⟨base, hbase⟩ := onOutgoingInterest_isSome (P := P) he hin outFace none
  rw [sendInterest, hbase]
  have hact : act P r s.base (.sendInterest outFace none) = some base := hbase
  exact Triggered.of_base (act_acted hact)

/-- Sending is an act on the PIT entry, unless there is no Interest to pick. -/
theorem sendInterest_acted (P : Platform κ) (s : StrategyState κ) (r : Ref) (outFace : Face) :
    sendInterest P s r outFace = .error .pickedInRecord ∨
      ∃ base, Acted r s.base base ∧ sendInterest P s r outFace = .ok { s with base } := by
  rw [sendInterest]
  cases hsend : onOutgoingInterest P s.base r outFace none with
  | none => exact Or.inl rfl
  | some base =>
      have hact : act P r s.base (.sendInterest outFace none) = some base := hsend
      exact Or.inr ⟨base, act_acted hact, rfl⟩

/-- Rejecting is an act on the PIT entry. -/
theorem rejectPendingInterest_acted (P : Platform κ) (s : StrategyState κ) (r : Ref) :
    ∃ base, Acted r s.base base ∧ rejectPendingInterest s r = { s with base } := by
  rw [rejectPendingInterest]
  cases hreject : onInterestReject s.base r with
  | none => exact ⟨s.base, Acted.refl r s.base, rfl⟩
  | some base =>
      have hact : act P r s.base .rejectPendingInterest = some base := hreject
      exact ⟨base, act_acted hact, rfl⟩

theorem rejectPendingInterest_triggered (P : Platform κ) (strategy : Strategy) (r : Ref) (s : StrategyState κ) :
    Triggered strategy r s (rejectPendingInterest s r) := by
  obtain ⟨base, hacted, hreject⟩ := rejectPendingInterest_acted P s r
  rw [hreject]
  exact Triggered.of_base hacted

/-- What the triggers are put together from keeps a condition and relates the states before and after. -/
structure TriggerRules (P : Platform κ) (allowed : Assertion → Prop) (r : Ref) (I : StrategyState κ → Prop)
    (R : StrategyState κ → StrategyState κ → Prop) : Prop where
  refl (s : StrategyState κ) : R s s
  trans {s s' s'' : StrategyState κ} : R s s' → R s' s'' → R s s''
  keeps {s s' : StrategyState κ} : R s s' → I s → I s'
  send {s : StrategyState κ} (outFace : Face) : I s → Ends allowed (R s) (sendInterest P s r outFace)
  reject (s : StrategyState κ) : R s (rejectPendingInterest s r)
  setRetx (s : StrategyState κ) (retx : Option Nat) : R s (s.setInfo r { s.info r with retx })
  lastOutgoing : allowed .lastOutgoing
  earliestOutRecord : allowed .earliestOutRecord

namespace TriggerRules

variable {allowed : Assertion → Prop} {I : StrategyState κ → Prop} {R : StrategyState κ → StrategyState κ → Prop}

/-- A trigger that goes through a list. -/
theorem foldlM (h : TriggerRules P allowed r I R) {α : Type} {f : StrategyState κ → α → StrategyOutcome κ}
    (hf : ∀ s a, I s → Ends allowed (R s) (f s a)) (hs : I s) (l : List α) : Ends allowed (R s) (l.foldlM f s) := by
  refine Ends.foldlM (I := R s) (fun s' a _ hR => ?_) (h.refl s)
  exact (hf s' a (h.keeps hR hs)).mono fun _ hrest => h.trans hR hrest

/-- To the face that is found, if one is. -/
theorem sendIfFound (h : TriggerRules P allowed r I R) (hs : I s) (found : Option Face) :
    Ends allowed (R s) (found.elim (.ok s) (sendInterest P s r)) := by
  cases found with
  | none => exact h.refl s
  | some outFace => exact h.send outFace hs

theorem lastOutgoingOf (h : TriggerRules P allowed r I R) (s : StrategyState κ) :
    Ends allowed (fun _ => True) (lastOutgoingOf s r) := by
  rw [NfdPitless.lastOutgoingOf]
  split
  · exact h.lastOutgoing
  · trivial

theorem decideExponential (h : TriggerRules P allowed r I R) (s : StrategyState κ) :
    Ends allowed (fun result => R s result.2) (RetxSuppressionExponential.decide s r) := by
  rw [RetxSuppressionExponential.decide]
  split
  · exact h.refl s
  · refine (h.lastOutgoingOf s).map fun lastOutgoing _ => ?_
    dsimp only
    split
    · exact h.setRetx s _
    · exact h.setRetx s _

theorem findEligible (h : TriggerRules P allowed r I R) (s : StrategyState κ) (nexthops : List Face)
    (currentDownstream : Option Nat) : Ends allowed (fun _ => True)
      (BestRouteStrategy2.findEligibleNextHopWithEarliestOutRecord P s r nexthops currentDownstream) := by
  have hround : ∀ found, ∀ nexthop ∈ nexthops, True →
      Ends allowed (fun _ => True) (BestRouteStrategy2.earlierOutRecord P s r currentDownstream found nexthop) := by
    intro found nexthop _ _
    rw [BestRouteStrategy2.earlierOutRecord]
    split
    · trivial
    · split
      · exact h.earliestOutRecord
      · trivial
  exact (Ends.foldlM (I := fun _ => True) hround trivial).map fun _ _ => trivial

theorem bestRoute2 (h : TriggerRules P allowed r I R) (hs : I s) (inFace : Face) (fibEntry : Ref) :
    Ends allowed (R s) (BestRouteStrategy2.afterReceiveInterest P s inFace fibEntry r) := by
  refine (h.decideExponential s).bind fun result hR => ?_
  obtain ⟨suppression, s'⟩ := result
  have hs' := h.keeps hR hs
  cases suppression with
  | new =>
      dsimp only
      split
      · exact h.trans hR (h.reject s')
      · exact (h.send _ hs').mono fun _ hsend => h.trans hR hsend
  | suppress => exact hR
  | forward =>
      dsimp only
      split
      · exact (h.send _ hs').mono fun _ hsend => h.trans hR hsend
      · refine (h.findEligible s' _ _).bind fun found _ => ?_
        exact (h.sendIfFound hs' found).mono fun _ hsend => h.trans hR hsend

theorem multicast (h : TriggerRules P allowed r I R) (hs : I s) (fibEntry : Ref) :
    Ends allowed (R s) (MulticastStrategy.afterReceiveInterest P s fibEntry r) := by
  have hloop : Ends allowed (R s) ((s.nexthopsOf fibEntry).foldlM (MulticastStrategy.forwardTo P r) s) := by
    refine h.foldlM (fun s' outFace hs' => ?_) hs _
    rw [MulticastStrategy.forwardTo]
    split
    · exact h.send outFace hs'
    · exact h.refl s'
  refine hloop.map fun s' hR => ?_
  split
  · exact h.trans hR (h.reject s')
  · exact hR

theorem bestRoute (h : TriggerRules P allowed r I R) (hs : I s) (fibEntry : Ref) :
    Ends allowed (R s) (BestRouteStrategy.afterReceiveInterest P s fibEntry r) := by
  rw [BestRouteStrategy.afterReceiveInterest]
  split
  · exact h.refl s
  · split
    · exact h.reject s
    · exact h.send _ hs

theorem clientControl (h : TriggerRules P allowed r I R) (hs : I s) (fibEntry : Ref) (input : TriggerInput) :
    Ends allowed (R s) (ClientControlStrategy.afterReceiveInterest P s fibEntry r input) := by
  rw [ClientControlStrategy.afterReceiveInterest]
  split
  · exact h.bestRoute hs fibEntry
  · split
    · exact h.reject s
    · exact h.send _ hs

/-- A face that can be forwarded to has another downstream. -/
theorem hasDownstream_of_canForwardTo (h : s.canForwardTo P r face = true) : s.HasDownstream r := by
  obtain ⟨e, he, hcan⟩ := (Option.any_eq_true _ _).mp h
  rw [PitEntry.canForwardTo, Bool.and_eq_true, Bool.and_eq_true] at hcan
  refine ⟨e, he, fun hempty => ?_⟩
  rw [hempty] at hcan
  cases hcan.1.2

section Ncc

-- storing the item of NCC and scheduling its events
variable (hitem : ∀ s ncc, R s (s.setInfo r { s.info r with ncc }))
  (hpropagate : ∀ s delay fibWeak, R s (s.schedule delay (.doPropagate r fibWeak)))

include hitem hpropagate

theorem setPropagateTimer (h : TriggerRules P allowed r I R) (s : StrategyState κ) (delay : Nat) (fibWeak : Ref) :
    R s (NccStrategy.setPropagateTimer s delay r fibWeak) :=
  h.trans (hpropagate s delay fibWeak) (hitem _ _)

theorem ncc (h : TriggerRules P allowed r I R) (hbestFace : ∀ s delay, R s (s.schedule delay (.timeoutOnBestFace r)))
    (hs : I s) (fibEntry : Ref) (input : TriggerInput) :
    Ends allowed (R s) (NccStrategy.afterReceiveInterest P s fibEntry r input) := by
  have hsendFirst : ∀ s info, I s →
      Ends allowed (fun result => R s result.1) (NccStrategy.sendFirst P s fibEntry r info) := by
    intro s info hs
    rw [NccStrategy.sendFirst]
    split
    · exact (h.send _ hs).map fun s' hR => h.trans hR (h.trans (hbestFace s' _) (hitem _ _))
    · exact (h.sendIfFound hs _).map fun s' hR => hR
  rw [NccStrategy.afterReceiveInterest]
  split
  · exact h.reject s
  · have hcreated := hitem s (some (NccStrategy.getOrCreatePitEntryInfo s r))
    dsimp only
    split
    · exact hcreated
    · refine (hsendFirst _ _ (h.keeps hcreated hs)).map fun result hR => ?_
      obtain ⟨s', deferral⟩ := result
      have hmax : R s' (NccStrategy.modifyPitEntryInfo s' r fun info => { info with
          maxInterval := NccStrategy.maxIntervalOf deferral
            (input.measurementsInfo.previousFace.any (NccStrategy.isUsable P s' fibEntry r)) }) := hitem s' _
      exact h.trans hcreated (h.trans hR (h.trans hmax (h.setPropagateTimer hitem hpropagate _ _ fibEntry)))

/-- The timer may have been set for downstreams that are gone: the Interest is sent only to a face that can be
forwarded to. -/
theorem doPropagate (h : TriggerRules P allowed r I R) (hallowed : allowed .propagatePitEntryInfo)
    (hforward : ∀ s', R s s' → s'.HasDownstream r → I s') (fibWeak : Ref) (input : TriggerInput) :
    Ends allowed (R s) (NccStrategy.doPropagate P s r fibWeak input) := by
  rw [NccStrategy.doPropagate]
  split
  · split
    · exact hallowed
    · have hprevious : Ends allowed (R s) ((input.measurementsInfo.previousFace.filter
          (NccStrategy.isUsable P s fibWeak r)).elim (.ok s) (sendInterest P s r)) := by
        cases hfound : input.measurementsInfo.previousFace.filter (NccStrategy.isUsable P s fibWeak r) with
        | none => exact h.refl s
        | some previousFace =>
            have husable := (Option.filter_eq_some_iff.mp hfound).2
            rw [NccStrategy.isUsable, Bool.and_eq_true] at husable
            exact h.send previousFace (hforward s (h.refl s) (hasDownstream_of_canForwardTo husable.2))
      refine hprevious.bind fun s' hR => ?_
      split
      · exact hR
      · rename_i hface
        have hs' := hforward s' hR (hasDownstream_of_canForwardTo (List.find?_some hface))
        exact (h.send _ hs').map fun s'' hsend =>
          h.trans hR (h.trans hsend (h.setPropagateTimer hitem hpropagate s'' _ fibWeak))
  · exact h.refl s

end Ncc

/-! ### Access -/

theorem accessMulticast (h : TriggerRules P allowed r I R) (hs : I s) (nexthops : List Face)
    (exceptFaces : List (Option Nat)) : Ends allowed (R s) (AccessStrategy.multicast P s r nexthops exceptFaces) := by
  refine h.foldlM (fun s' face hs' => ?_) hs nexthops
  rw [AccessStrategy.sendExcept]
  split
  · exact h.refl s'
  · exact h.send face hs'

variable (hrto : ∀ s rto fibWeak inFace firstOutFace, I s →
  R s (AccessStrategy.setRtoTimer s r rto (.afterRtoTimeout r fibWeak inFace firstOutFace)))

include hrto

theorem sendToLastNexthop (h : TriggerRules P allowed r I R) (hs : I s) (inFace : Face) (fibEntry : Ref)
    (mi : AccessMtInfo) :
    Ends allowed (fun result => R s result.1) (AccessStrategy.sendToLastNexthop P s inFace fibEntry r mi) := by
  rw [AccessStrategy.sendToLastNexthop]
  split
  · exact h.refl s
  · split
    · exact h.refl s
    · split
      · exact h.refl s
      · exact (h.send _ hs).map fun s' hR => h.trans hR (hrto s' _ fibEntry _ _ (h.keeps hR hs))

theorem afterReceiveNewInterest (h : TriggerRules P allowed r I R) (hs : I s) (inFace : Face) (fibEntry : Ref)
    (input : TriggerInput) :
    Ends allowed (R s) (AccessStrategy.afterReceiveNewInterest P s inFace fibEntry r input) := by
  have hsent : Ends allowed (fun result => R s result.1)
      (input.mtInfo.elim (.ok (s, false)) (AccessStrategy.sendToLastNexthop P s inFace fibEntry r)) := by
    cases input.mtInfo with
    | none => exact h.refl s
    | some mi => exact h.sendToLastNexthop hrto hs inFace fibEntry mi
  refine hsent.bind fun result hR => ?_
  obtain ⟨s', isSentToLastNexthop⟩ := result
  cases isSentToLastNexthop with
  | true => exact hR
  | false => exact (h.accessMulticast (h.keeps hR hs) _ _).mono fun _ hrest => h.trans hR hrest

theorem access (h : TriggerRules P allowed r I R) (hs : I s) (inFace : Face) (fibEntry : Ref) (input : TriggerInput) :
    Ends allowed (R s) (AccessStrategy.afterReceiveInterest P s inFace fibEntry r input) := by
  have hdecide : Ends allowed (fun _ => True) (RetxSuppressionFixed.decide s r) := by
    rw [RetxSuppressionFixed.decide]
    split
    · trivial
    · exact (h.lastOutgoingOf s).map fun _ _ => trivial
  refine hdecide.bind fun suppression _ => ?_
  cases suppression with
  | new => exact h.afterReceiveNewInterest hrto hs inFace fibEntry input
  | forward => exact h.accessMulticast hs _ _
  | suppress => exact h.refl s

end TriggerRules

/-- The rules for `Triggered`. -/
theorem Triggered.rules (P : Platform κ) (strategy : Strategy) (r : Ref) : TriggerRules P Tolerated r
    (fun s => s.HasDownstream r ∧ s.HandleStored r) (Triggered strategy r) where
  refl := Triggered.refl strategy r
  trans := Triggered.trans
  keeps ht hs := ⟨ht.hasDownstream hs.1, ht.handleStored hs.2⟩
  send outFace hs := sendInterest_ends hs.1 outFace
  reject := rejectPendingInterest_triggered P strategy r
  setRetx _ _ := Triggered.setInfo rfl
  lastOutgoing := ⟨by decide, by decide⟩
  earliestOutRecord := ⟨by decide, by decide⟩

theorem NccStrategy.beforeSatisfyInterest_triggered (s : StrategyState κ) (r : Ref) :
    Triggered .ncc r s (beforeSatisfyInterest s r) := by
  rw [beforeSatisfyInterest]
  split
  · exact Triggered.refl .ncc r s
  · split
    · exact Triggered.refl .ncc r s
    · exact (Triggered.cancel _).trans (Triggered.setInfo rfl)

theorem NccStrategy.doPropagate_ends (hstored : s.HandleStored r) (fibWeak : Ref) (input : TriggerInput) :
    Ends Tolerated (Triggered .ncc r s) (doPropagate P s r fibWeak input) :=
  (Triggered.rules P .ncc r).doPropagate (fun _ _ => Triggered.setInfo rfl) (fun _ _ _ => Triggered.schedule (by simp))
    ⟨by decide, by decide⟩ (fun _ ht hd => ⟨hd, ht.handleStored hstored⟩) fibWeak input

/-- The timer fires while the PIT entry still has a downstream. -/
theorem AccessStrategy.afterRtoTimeout_ends (hd : s.HasDownstream r) (hstored : s.HandleStored r) (fibWeak : Ref)
    (inFace firstOutFace : Option Nat) :
    Ends Tolerated (Triggered .access r s) (afterRtoTimeout P s r fibWeak inFace firstOutFace) := by
  obtain ⟨e, he, hin⟩ := hd
  rw [afterRtoTimeout, he]
  dsimp only
  split
  · exact Triggered.refl .access r s
  · exact (Triggered.rules P .access r).accessMulticast ⟨⟨e, he, hin⟩, hstored⟩ _ _

/-- Every strategy, when an Interest arrives. -/
theorem Strategy.afterReceiveInterest_ends (hd : s.HasDownstream r) (hstored : s.HandleStored r) (inFace : Face)
    (fibEntry : Ref) (input : TriggerInput) (strategy : Strategy) :
    Ends Tolerated (Triggered strategy r s) (strategy.afterReceiveInterest P s inFace fibEntry r input) := by
  have hrules := Triggered.rules P strategy r
  cases strategy with
  | bestRoute2 => exact hrules.bestRoute2 ⟨hd, hstored⟩ inFace fibEntry
  | multicast => exact hrules.multicast ⟨hd, hstored⟩ fibEntry
  | clientControl => exact hrules.clientControl ⟨hd, hstored⟩ fibEntry input
  | ncc =>
      exact hrules.ncc (fun _ _ => Triggered.setInfo rfl) (fun _ _ _ => Triggered.schedule (by simp))
        (fun _ _ => Triggered.schedule (by simp)) ⟨hd, hstored⟩ fibEntry input
  | access =>
      exact hrules.access (fun s rto fibWeak _ _ hs => Triggered.setRtoTimer hs.2 rto fibWeak _ _) ⟨hd, hstored⟩
        inFace fibEntry input

end NfdPitless
