import NfdPitless.ForwarderSpec
import NfdPitless.StrategyDispatch

/-! The pipelines of the bridge forwarder (`daemon/fw/bridge-forwarder.cpp`) on the tables of the base
forwarder. The bridge sends an Interest through a pipeline of its own, which makes no out-record, to the
first usable next hop of the FIB entry; answers from the content store without telling the PIT entry; and
matches a Data by its supporting name, which it then makes the name of the Data. The next hops, and the
strategy that is chosen for the name of the bridge's own one, are part of the event, so a result about all
runs is a result about all FIBs and choices. A hit triggers that strategy without a PIT entry, and fails if
it is NCC or access, which dereference it; the triggers before a pending Interest is satisfied or expires go
to the strategies of the base forwarder, which send nothing there. -/

namespace NfdPitless.BridgeForwarder

open Forwarder

variable {κ : Type} (P : Platform κ) (supportingName : Name)

def onOutgoingInterestBridge (s : ForwarderState κ) (r : Ref) (interest : Interest) (outFace : Face) :
    ForwarderState κ :=
  if (s.faceId outFace).isNone then s else s.logged (.outInterest r outFace interest)

/-- `predicate_canForwardTo_NextHop`: the ids are compared, not the faces. -/
def canForwardToNextHop (s : ForwarderState κ) (inFace nexthop : Face) : Bool :=
  s.faceId inFace != s.faceId nexthop

/-- The bridge's best route strategy. -/
def afterReceiveInterestBridge (s : ForwarderState κ) (inFace : Face) (r : Ref) (interest : Interest)
    (nexthops : List Face) : ForwarderState κ :=
  match nexthops.find? (canForwardToNextHop s inFace) with
  | none => s
  | some outFace => onOutgoingInterestBridge s r interest outFace

/-- The supporting name is set in the Interest object, which the in-record shares. -/
def onContentStoreMiss (s : ForwarderState κ) (inFace : Face) (r : Ref) (interest : Interest)
    (nexthops : List Face) : ForwarderState κ :=
  let interest := { interest with supportingName }
  let s := s.modifyEntry r fun e => e.insertOrUpdateInRecord s.now inFace interest
  afterReceiveInterestBridge (setUnsatisfyTimer s r) inFace r interest nexthops

/-- After `beforeSatisfyInterest` through `dispatchToBridgeStrategy`. -/
def onContentStoreHit (s : ForwarderState κ) (inFace : Face) (data : Data) (strategy : StrategyInstance) :
    Option (ForwarderState κ) :=
  (strategy.beforeSatisfyInterest none).map fun _ => onOutgoingData P s data inFace

def onIncomingInterest (s : ForwarderState κ) (inFace : Face) (interest : Interest) (nexthops : List Face)
    (strategy : StrategyInstance) : Option (ForwarderState κ) :=
  let s := s.logged (.inInterest inFace interest)
  if isViolatingLocalhost P inFace interest.name then some s
  else
    (s.pit.insert P.cityHash interest).bind fun inserted =>
      let s := { s with pit := inserted.1 }
      let r := inserted.2.1
      (s.pit.entries r).bind fun e =>
        -- Interest loop: drop
        if hasDuplicateNonce P s e inFace interest then some s
        else
          let s := cancelUnsatisfyAndStragglerTimer s r
          if e.inRecords = [] then
            let found := P.store.find s.cs s.now interest
            let s := { s with cs := found.1 }
            match found.2 with
            | some data => onContentStoreHit P s inFace data strategy
            | none => some (onContentStoreMiss supportingName s inFace r interest nexthops)
          else some (onContentStoreMiss supportingName s inFace r interest nexthops)

/-- The PIT entry that an arriving Interest gets. -/
def entryFor (s : ForwarderState κ) (interest : Interest) : Option PitEntry :=
  (s.pit.insert P.cityHash interest).bind fun inserted => inserted.1.entries inserted.2.1

/-- The Data as it is sent downstream, under the name of the Interest it answers. -/
def resetName (data : Data) : Data := { data with name := data.supportingName }

def onIncomingData (s : ForwarderState κ) (inFace : Face) (data : Data) : Option (ForwarderState κ) :=
  let s := s.logged (.inData inFace data)
  if isViolatingLocalhost P inFace data.supportingName then some s
  else
    let pitMatches := s.pit.findAllDataMatchesByName P.cityHash data.supportingName
    if pitMatches = [] then some (onDataUnsolicited P s inFace data)
    else
      let data := resetName data
      let s := { s with cs := P.store.insert s.cs s.now data false }
      (satisfyAll P inFace data (fun _ => []) s [] pitMatches).map fun result =>
        sendToDownstreams P inFace data result.2 result.1

inductive Event where
  | incomingInterest (inFace : Face) (interest : Interest) (nexthops : List Face) (strategy : StrategyInstance)
  | incomingData (inFace : Face) (data : Data)
  | unsatisfyTimer (r : Ref)
  | stragglerTimer (r : Ref)
  | markDeadNonceList
  | adjustDeadNonceListCapacity
  | contentStoreTimer (key : Name)
  | setFaceId (face : Face) (id : Option Nat)
  | advanceClock (duration : Nat)

/-- What happens besides the packets is what happens in the base forwarder. -/
def Event.base : Event → Option Forwarder.Event
  | .incomingInterest _ _ _ _ => none
  | .incomingData _ _ => none
  | .unsatisfyTimer r => some (.unsatisfyTimer r [])
  | .stragglerTimer r => some (.stragglerTimer r)
  | .markDeadNonceList => some .markDeadNonceList
  | .adjustDeadNonceListCapacity => some .adjustDeadNonceListCapacity
  | .contentStoreTimer key => some (.contentStoreTimer key)
  | .setFaceId face id => some (.setFaceId face id)
  | .advanceClock duration => some (.advanceClock duration)

/-- One step of the bridge forwarder. -/
def step (s : ForwarderState κ) : Event → Option (ForwarderState κ)
  | .incomingInterest inFace interest nexthops strategy =>
      onIncomingInterest P supportingName s inFace interest nexthops strategy
  | .incomingData inFace data => onIncomingData P s inFace data
  | event => event.base.bind (Forwarder.step P s)

variable {P} {supportingName} {s s' : ForwarderState κ} {r : Ref}

/-- The state in which the in-record of an Interest has been made and the unsatisfy timer set. -/
def admitted (supportingName : Name) (s : ForwarderState κ) (inFace : Face) (r : Ref) (interest : Interest) :
    ForwarderState κ :=
  setUnsatisfyTimer
    (s.modifyEntry r fun e => e.insertOrUpdateInRecord s.now inFace { interest with supportingName }) r

/-- After a content store miss the Interest is sent to the first next hop that is usable, if it has a
valid id, and nothing but the log changes by that. -/
theorem onContentStoreMiss_spec (supportingName : Name) (s : ForwarderState κ) (inFace : Face) (r : Ref)
    (interest : Interest) (nexthops : List Face) :
    ∃ sends, onContentStoreMiss supportingName s inFace r interest nexthops =
        { admitted supportingName s inFace r interest with log := s.log ++ sends } ∧
      ((sends = [] ∧ ∀ outFace, nexthops.find? (canForwardToNextHop s inFace) = some outFace →
          s.faceId outFace = none) ∨
        ∃ outFace, nexthops.find? (canForwardToNextHop s inFace) = some outFace ∧ s.faceId outFace ≠ none ∧
          sends = [.outInterest r outFace { interest with supportingName }]) := by
  have hrun : onContentStoreMiss supportingName s inFace r interest nexthops =
      afterReceiveInterestBridge (admitted supportingName s inFace r interest) inFace r
        { interest with supportingName } nexthops := rfl
  have hpred : canForwardToNextHop (admitted supportingName s inFace r interest) inFace =
      canForwardToNextHop s inFace := rfl
  have hface : (admitted supportingName s inFace r interest).faceId = s.faceId := rfl
  rw [hrun, afterReceiveInterestBridge, hpred]
  cases hfind : nexthops.find? (canForwardToNextHop s inFace) with
  | none =>
      refine ⟨[], ?_, Or.inl ⟨rfl, fun _ heq => by cases heq⟩⟩
      rw [List.append_nil]
      rfl
  | some outFace =>
      dsimp only
      cases hid : s.faceId outFace with
      | none =>
          refine ⟨[], ?_, Or.inl ⟨rfl, fun _ heq => by cases heq; exact hid⟩⟩
          rw [onOutgoingInterestBridge, hface, hid, if_pos Option.isNone_none, List.append_nil]
          rfl
      | some id =>
          refine ⟨_, ?_, Or.inr ⟨outFace, rfl, by rw [hid]; exact Option.some_ne_none id, rfl⟩⟩
          rw [onOutgoingInterestBridge, hface, hid, if_neg (by simp)]
          rfl

theorem onContentStoreMiss_pit (s : ForwarderState κ) (inFace : Face) (r : Ref) (interest : Interest)
    (nexthops : List Face) :
    (onContentStoreMiss supportingName s inFace r interest nexthops).pit =
      (admitted supportingName s inFace r interest).pit := by
  obtain ⟨sends, hrun, -⟩ := onContentStoreMiss_spec supportingName s inFace r interest nexthops
  rw [hrun]

/-- What an incoming Interest can lead to. -/
theorem onIncomingInterest_cases {inFace : Face} {interest : Interest} {nexthops : List Face}
    {strategy : StrategyInstance}
    (h : onIncomingInterest P supportingName s inFace interest nexthops strategy = some s') :
    (isViolatingLocalhost P inFace interest.name = true ∧ s' = s.logged (.inInterest inFace interest)) ∨
    isViolatingLocalhost P inFace interest.name = false ∧
    ∃ pit r isNew e, s.pit.insert P.cityHash interest = some (pit, r, isNew) ∧ pit.entries r = some e ∧
      ((hasDuplicateNonce P s e inFace interest = true ∧ s' = withPit s inFace interest pit) ∨
       (hasDuplicateNonce P s e inFace interest = false ∧ e.inRecords = [] ∧
        ∃ cs data, P.store.find s.cs s.now interest = (cs, some data) ∧
          s' = onOutgoingData P (cancelUnsatisfyAndStragglerTimer
            { withPit s inFace interest pit with cs } r) data inFace) ∨
       (hasDuplicateNonce P s e inFace interest = false ∧
        (e.inRecords = [] → (P.store.find s.cs s.now interest).2 = none) ∧
        ∃ cs, s' = onContentStoreMiss supportingName (cancelUnsatisfyAndStragglerTimer
            { withPit s inFace interest pit with cs } r) inFace r interest nexthops)) := by
  unfold onIncomingInterest at h
  cases hv : isViolatingLocalhost P inFace interest.name with
  | true =>
      simp only [hv, if_true, Option.some.injEq] at h
      exact Or.inl ⟨rfl, h.symm⟩
  | false =>
      refine Or.inr ⟨rfl, ?_⟩
      simp only [hv, Bool.false_eq_true, if_false] at h
      obtain ⟨⟨pit, r, isNew⟩, hins, h⟩ := Option.bind_eq_some_iff.mp h
      obtain ⟨e, he, h⟩ := Option.bind_eq_some_iff.mp h
      refine ⟨pit, r, isNew, e, hins, he, ?_⟩
      dsimp only at h
      have hdup : hasDuplicateNonce P { s.logged (.inInterest inFace interest) with pit } e inFace interest =
          hasDuplicateNonce P s e inFace interest := rfl
      rw [hdup] at h
      cases hd : hasDuplicateNonce P s e inFace interest with
      | true =>
          simp only [hd, if_true, Option.some.injEq] at h
          exact Or.inl ⟨rfl, h.symm⟩
      | false =>
          simp only [hd, Bool.false_eq_true, if_false] at h
          split at h
          · rename_i hempty
            have hfind : P.store.find (cancelUnsatisfyAndStragglerTimer
                { s.logged (.inInterest inFace interest) with pit } r).cs
                (cancelUnsatisfyAndStragglerTimer
                  { s.logged (.inInterest inFace interest) with pit } r).now interest =
                P.store.find s.cs s.now interest := rfl
            rw [hfind] at h
            generalize hf : P.store.find s.cs s.now interest = found at h
            obtain ⟨cs, o⟩ := found
            cases o with
            | some data =>
                obtain ⟨-, -, rfl⟩ := Option.map_eq_some_iff.mp h
                exact Or.inr (Or.inl ⟨rfl, hempty, cs, data, rfl, rfl⟩)
            | none => exact Or.inr (Or.inr ⟨rfl, fun _ => rfl, cs, (Option.some.inj h).symm⟩)
          · rename_i hpending
            exact Or.inr (Or.inr ⟨rfl, fun hempty => absurd hempty hpending, s.cs, (Option.some.inj h).symm⟩)

/-- What an incoming Data can lead to. -/
theorem onIncomingData_cases {inFace : Face} {data : Data} (h : onIncomingData P s inFace data = some s') :
    (s' = s.logged (.inData inFace data)) ∨
    (s' = onDataUnsolicited P (s.logged (.inData inFace data)) inFace data) ∨
    ∃ result, satisfyAll P inFace (resetName data) (fun _ => [])
        { s.logged (.inData inFace data) with cs := P.store.insert s.cs s.now (resetName data) false } []
        (s.pit.findAllDataMatchesByName P.cityHash data.supportingName) = some result ∧
      s' = sendToDownstreams P inFace (resetName data) result.2 result.1 := by
  unfold onIncomingData at h
  dsimp only at h
  split at h
  · exact Or.inl (Option.some.inj h).symm
  · split at h
    · exact Or.inr (Or.inl (Option.some.inj h).symm)
    · obtain ⟨result, hresult, rfl⟩ := Option.map_eq_some_iff.mp h
      exact Or.inr (Or.inr ⟨result, hresult, rfl⟩)

/-- Every step is a packet or a step of the base forwarder without triggers that act. -/
theorem step_cases {event : Event} (h : step P supportingName s event = some s') :
    (∃ inFace interest nexthops strategy, event = .incomingInterest inFace interest nexthops strategy ∧
      onIncomingInterest P supportingName s inFace interest nexthops strategy = some s') ∨
    (∃ inFace data, event = .incomingData inFace data ∧ onIncomingData P s inFace data = some s') ∨
    ∃ base, event.base = some base ∧ Forwarder.step P s base = some s' := by
  cases event with
  | incomingInterest inFace interest nexthops strategy => exact Or.inl ⟨inFace, interest, nexthops, strategy, rfl, h⟩
  | incomingData inFace data => exact Or.inr (Or.inl ⟨inFace, data, rfl, h⟩)
  | _ => exact Or.inr (Or.inr ⟨_, rfl, h⟩)

end NfdPitless.BridgeForwarder
