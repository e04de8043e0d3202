import NfdPitless.BridgeForwarder
import NfdPitless.PacketNetwork
import NfdPitless.PitlessForwarder

/-! Networks of base, bridge and PITless forwarders. Each is a component whose ports are its faces, and what
it has received and sent is read off its log. A link joins two faces; a face that is not linked is that of
an application. -/

namespace NfdPitless

/-- What passes a face. -/
inductive FacePacket where
  | interest (interest : Interest)
  | data (data : Data)
  deriving DecidableEq

namespace LogItem

def received : LogItem → Option (Face × FacePacket)
  | .inInterest face interest => some (face, .interest interest)
  | .inData face data => some (face, .data data)
  | _ => none

def sent : LogItem → Option (Face × FacePacket)
  | .outInterest _ face interest => some (face, .interest interest)
  | .outData face data => some (face, .data data)
  | _ => none

end LogItem

namespace PitlessItem

def received : PitlessItem → Option (Face × FacePacket)
  | .inInterest face interest => some (face, .interest interest)
  | .inData face data => some (face, .data data)
  | _ => none

def sent : PitlessItem → Option (Face × FacePacket)
  | .outInterest face interest => some (face, .interest interest)
  | .outData face data => some (face, .data data)
  | _ => none

end PitlessItem

namespace Forwarder

variable {κ : Type} {P : Platform κ} {s s' s'' : ForwarderState κ} {r : Ref}

/-- From `s` to `s'` nothing was received. -/
def Quiet (s s' : ForwarderState κ) : Prop :=
  ∃ items, s'.log = s.log ++ items ∧ ∀ item ∈ items, item.received = none

theorem Quiet.of_eq (h : s'.log = s.log) : Quiet s s' := ⟨[], by rw [h, List.append_nil], by simp⟩

theorem Quiet.trans (h : Quiet s s') (h' : Quiet s' s'') : Quiet s s'' := by
  obtain ⟨l, hl, hno⟩ := h
  obtain ⟨l', hl', hno'⟩ := h'
  refine ⟨l ++ l', by rw [hl', hl, List.append_assoc], fun item hitem => ?_⟩
  rcases List.mem_append.mp hitem with hmem | hmem
  · exact hno item hmem
  · exact hno' item hmem

theorem Quiet.logged (item : LogItem) (hitem : item.received = none) (hlog : s'.log = s.log ++ [item]) :
    Quiet s s' :=
  ⟨[item], hlog, fun _ hx => by rw [List.mem_singleton.mp hx]; exact hitem⟩

theorem Acted.quiet (h : Acted r s s') : Quiet s s' := by
  obtain ⟨items, hlog, hitems⟩ := h.log_eq
  refine ⟨items, hlog, fun item hitem => ?_⟩
  obtain ⟨face, interest, rfl⟩ := hitems item hitem
  rfl

theorem Queued.quiet (h : Queued s s') : Quiet s s' := by
  obtain ⟨items, hlog, hitems⟩ := h.log_eq
  refine ⟨items, hlog, fun item hitem => ?_⟩
  obtain ⟨k, name, nonce, rfl⟩ := hitems item hitem
  rfl

theorem onOutgoingData_quiet (s : ForwarderState κ) (data : Data) (face : Face) :
    Quiet s (onOutgoingData P s data face) := by
  unfold onOutgoingData
  split
  · exact Quiet.of_eq rfl
  · split
    · exact Quiet.of_eq rfl
    · exact Quiet.logged (.outData face data) rfl rfl

theorem sendToDownstreams_quiet (inFace : Face) (data : Data) (faces : List Face) (s : ForwarderState κ) :
    Quiet s (sendToDownstreams P inFace data faces s) := by
  unfold sendToDownstreams
  generalize faces.filter (fun face => face != inFace) = l
  induction l generalizing s with
  | nil => exact Quiet.of_eq rfl
  | cons face l ih => exact (onOutgoingData_quiet s data face).trans (ih _)

theorem satisfyEntry_quiet {inFace : Face} {data : Data} {actions : Ref → List StrategyAction}
    (hstep : satisfyEntry P inFace data actions s r = some s') : Quiet s s' := by
  obtain ⟨s₁, s₂, hact, hq, rfl⟩ := satisfyEntry_cases hstep
  have hstart : Quiet s (cancelUnsatisfyAndStragglerTimer s r) := Quiet.of_eq rfl
  exact ((hstart.trans hact.quiet).trans hq.quiet).trans (Quiet.logged (.satisfied r inFace) rfl rfl)

theorem satisfyAll_quiet {inFace : Face} {data : Data} {actions : Ref → List StrategyAction}
    {pitMatches : List Ref} {downstreams : List Face} {result : ForwarderState κ × List Face}
    (hrun : satisfyAll P inFace data actions s downstreams pitMatches = some result) : Quiet s result.1 :=
  satisfyAll_invariant (I := Quiet s) (fun _ _ _ h hs => h.trans (satisfyEntry_quiet hs)) _
    (Quiet.of_eq rfl) hrun

theorem onInterestFinalize_quiet {isSatisfied : Bool} {dataFreshnessPeriod : Int}
    (hstep : onInterestFinalize P s r isSatisfied dataFreshnessPeriod = some s') : Quiet s s' := by
  obtain ⟨pit, -, rfl⟩ := Option.map_eq_some_iff.mp hstep
  have hq := insertDeadNonceList_queued (P := P) s r isSatisfied dataFreshnessPeriod none
  exact hq.quiet.trans (Quiet.logged (.finalized r isSatisfied) rfl rfl)

/-- The packet that an event brings, with its face. -/
def Event.intake : Event → Option (Face × FacePacket)
  | .incomingInterest inFace interest _ => some (inFace, .interest interest)
  | .incomingData inFace data _ => some (inFace, .data data)
  | _ => none

theorem incomingInterest_quiet {inFace : Face} {interest : Interest} {actions : List StrategyAction}
    (hstep : onIncomingInterest P s inFace interest actions = some s') :
    Quiet (s.logged (.inInterest inFace interest)) s' := by
  rcases onIncomingInterest_cases hstep with ⟨-, rfl⟩ | ⟨-, pit, r, isNew, e, -, -, hcases⟩
  · exact Quiet.of_eq rfl
  rcases hcases with ⟨-, rfl⟩ | ⟨-, -, cs, data, s₁, -, hdisp, rfl⟩ | ⟨-, cs, hmiss⟩
  · exact Quiet.of_eq rfl
  · have hstart : Quiet (s.logged (.inInterest inFace interest)) (cancelUnsatisfyAndStragglerTimer
        { withPit s inFace interest pit with cs } r) := Quiet.of_eq rfl
    have hend : Quiet s₁ (setStragglerTimer s₁ r true data.freshnessPeriod) := Quiet.of_eq rfl
    exact ((hstart.trans (dispatch_acted hdisp).quiet).trans hend).trans (onOutgoingData_quiet _ _ _)
  · rw [onContentStoreMiss] at hmiss
    exact Quiet.trans (Quiet.of_eq rfl) (dispatch_acted hmiss).quiet

theorem incomingData_quiet {inFace : Face} {data : Data} {actions : Ref → List StrategyAction}
    (hstep : onIncomingData P s inFace data actions = some s') :
    Quiet (s.logged (.inData inFace data)) s' := by
  rcases onIncomingData_cases hstep with rfl | rfl | ⟨result, hresult, rfl⟩
  · exact Quiet.of_eq rfl
  · exact Quiet.of_eq (onDataUnsolicited_log _ _ _)
  · have hall := satisfyAll_quiet hresult
    exact Quiet.trans (Quiet.trans (Quiet.of_eq rfl) hall) (sendToDownstreams_quiet _ _ _ _)

/-- A step receives what its event brings. -/
theorem step_received {event : Event} (hstep : step P s event = some s') :
    ∃ items, s'.log = s.log ++ items ∧ items.filterMap LogItem.received = event.intake.toList := by
  have hquiet : ∀ (s₁ : ForwarderState κ) {l : List LogItem}, s₁.log = s.log ++ l → Quiet s₁ s' →
      l.filterMap LogItem.received = event.intake.toList →
      ∃ items, s'.log = s.log ++ items ∧ items.filterMap LogItem.received = event.intake.toList := by
    rintro s₁ l hlog ⟨items, hitems, hno⟩ hl
    refine ⟨l ++ items, by rw [hitems, hlog, List.append_assoc], ?_⟩
    rw [List.filterMap_append, hl, List.filterMap_eq_nil_iff.mpr hno, List.append_nil]
  have hsame : Quiet s s' → event.intake = none →
      ∃ items, s'.log = s.log ++ items ∧ items.filterMap LogItem.received = event.intake.toList :=
    fun h hnone => hquiet s (List.append_nil _).symm h (by rw [hnone]; rfl)
  cases event with
  | incomingInterest inFace interest actions => exact hquiet _ rfl (incomingInterest_quiet hstep) rfl
  | incomingData inFace data actions => exact hquiet _ rfl (incomingData_quiet hstep) rfl
  | unsatisfyTimer r actions =>
      simp only [step] at hstep
      split at hstep
      · cases hstep
      · split at hstep
        · obtain ⟨s₁, hs₁, hfin⟩ := Option.bind_eq_some_iff.mp hstep
          exact hsame ((dispatch_acted hs₁).quiet.trans (onInterestFinalize_quiet hfin)) rfl
        · cases hstep
  | stragglerTimer r =>
      simp only [step] at hstep
      split at hstep
      · cases hstep
      · split at hstep
        · exact hsame (onInterestFinalize_quiet hstep) rfl
        · cases hstep
  | strategyTimer r actions => exact hsame (dispatch_acted hstep).quiet rfl
  | markDeadNonceList => cases hstep; exact hsame (Quiet.of_eq rfl) rfl
  | adjustDeadNonceListCapacity => cases hstep; exact hsame (Quiet.of_eq rfl) rfl
  | contentStoreTimer key => cases hstep; exact hsame (Quiet.of_eq rfl) rfl
  | setFaceId face id => cases hstep; exact hsame (Quiet.of_eq rfl) rfl
  | advanceClock duration => cases hstep; exact hsame (Quiet.of_eq rfl) rfl

end Forwarder

namespace BridgeForwarder

open Forwarder

variable {κ : Type} {P : Platform κ} {supportingName : Name} {s s' : ForwarderState κ} {r : Ref}

def Event.intake : Event → Option (Face × FacePacket)
  | .incomingInterest inFace interest _ _ => some (inFace, .interest interest)
  | .incomingData inFace data => some (inFace, .data data)
  | _ => none

theorem onContentStoreMiss_quiet (s : ForwarderState κ) (inFace : Face) (r : Ref) (interest : Interest)
    (nexthops : List Face) : Quiet s (onContentStoreMiss supportingName s inFace r interest nexthops) := by
  obtain ⟨sends, hrun, hshape⟩ := onContentStoreMiss_spec supportingName s inFace r interest nexthops
  refine ⟨sends, by rw [hrun], fun item hitem => ?_⟩
  rcases hshape with ⟨rfl, -⟩ | ⟨outFace, -, -, rfl⟩
  · cases hitem
  · rw [List.mem_singleton.mp hitem]
    rfl

/-- A step receives what its event brings. -/
theorem step_received {event : Event} (hstep : step P supportingName s event = some s') :
    ∃ items, s'.log = s.log ++ items ∧ items.filterMap LogItem.received = event.intake.toList := by
  have hquiet : ∀ item : LogItem, Quiet (s.logged item) s' → item.received = event.intake →
      ∃ items, s'.log = s.log ++ items ∧ items.filterMap LogItem.received = event.intake.toList := by
    rintro item ⟨items, hitems, hno⟩ hitem
    refine ⟨item :: items, by rw [hitems, ForwarderState.logged, List.append_assoc]; rfl, ?_⟩
    rw [← hitem, ← List.singleton_append, List.filterMap_append, List.filterMap_eq_nil_iff.mpr hno]
    cases hreceived : item.received <;> simp [hreceived]
  rcases step_cases hstep with ⟨inFace, interest, nexthops, strategy, rfl, hrun⟩ | ⟨inFace, data, rfl, hrun⟩ |
    ⟨base, hbase, hrun⟩
  · refine hquiet (.inInterest inFace interest) ?_ rfl
    rcases onIncomingInterest_cases hrun with ⟨-, rfl⟩ | ⟨-, pit, r, isNew, e, -, -, hcases⟩
    · exact Quiet.of_eq rfl
    rcases hcases with ⟨-, rfl⟩ | ⟨-, -, cs, data, -, rfl⟩ | ⟨-, -, cs, rfl⟩
    · exact Quiet.of_eq rfl
    · exact Quiet.trans (Quiet.of_eq rfl) (onOutgoingData_quiet _ _ _)
    · exact Quiet.trans (Quiet.of_eq rfl) (onContentStoreMiss_quiet _ _ _ _ _)
  · refine hquiet (.inData inFace data) ?_ rfl
    rcases onIncomingData_cases hrun with rfl | rfl | ⟨result, hresult, rfl⟩
    · exact Quiet.of_eq rfl
    · exact Quiet.of_eq (onDataUnsolicited_log _ _ _)
    · have hall := satisfyAll_quiet hresult
      exact Quiet.trans (Quiet.trans (Quiet.of_eq rfl) hall) (sendToDownstreams_quiet _ _ _ _)
  · obtain ⟨items, hlog, hitems⟩ := Forwarder.step_received hrun
    refine ⟨items, hlog, hitems.trans ?_⟩
    cases event <;> first | (cases hbase; done) | (cases hbase; rfl)

end BridgeForwarder

namespace PitlessForwarder

variable {κ : Type} {P : Platform κ} {s s' : PitlessState κ}

def Event.intake : Event → Option (Face × FacePacket)
  | .incomingInterest inFace interest _ => some (inFace, .interest interest)
  | .incomingData inFace data _ => some (inFace, .data data)
  | _ => none

theorem onOutgoingData_received (s : PitlessState κ) (data : Data) (outFace : Face) :
    ∃ items, (onOutgoingData P s data outFace).log = s.log ++ items ∧
      items.filterMap PitlessItem.received = [] := by
  unfold onOutgoingData
  split
  · exact ⟨[], (List.append_nil _).symm, rfl⟩
  · split
    · exact ⟨[], (List.append_nil _).symm, rfl⟩
    · exact ⟨[.outData outFace data], rfl, rfl⟩

theorem onContentStoreMiss_received (s : PitlessState κ) (inFace : Face) (interest : Interest)
    (nexthops : List Face) : ∃ items, (onContentStoreMiss s inFace interest nexthops).log = s.log ++ items ∧
      items.filterMap PitlessItem.received = [] := by
  unfold onContentStoreMiss afterReceiveInterestPITless
  split
  · exact ⟨[], (List.append_nil _).symm, rfl⟩
  · rename_i outFace _
    unfold onOutgoingInterestPITless
    split
    · exact ⟨[], (List.append_nil _).symm, rfl⟩
    · exact ⟨[.outInterest outFace interest], rfl, rfl⟩

/-- A step receives what its event brings. -/
theorem step_received {event : Event} (hstep : step P s event = some s') :
    ∃ items, s'.log = s.log ++ items ∧ items.filterMap PitlessItem.received = event.intake.toList := by
  have hafter : ∀ item : PitlessItem, item.received = event.intake →
      (∃ items, s'.log = (s.log ++ [item]) ++ items ∧ items.filterMap PitlessItem.received = []) →
      ∃ items, s'.log = s.log ++ items ∧ items.filterMap PitlessItem.received = event.intake.toList := by
    rintro item hitem ⟨items, hitems, hno⟩
    refine ⟨item :: items, by rw [hitems, List.append_assoc]; rfl, ?_⟩
    rw [← hitem, ← List.singleton_append, List.filterMap_append, hno]
    cases hreceived : item.received <;> simp [hreceived]
  cases event with
  | incomingInterest inFace interest nexthops =>
      refine hafter (.inInterest inFace interest) rfl ?_
      rcases onIncomingInterest_cases hstep with ⟨-, rfl⟩ | ⟨-, ⟨data, -, rfl⟩ | ⟨-, rfl⟩⟩
      · exact ⟨[], (List.append_nil _).symm, rfl⟩
      · exact onOutgoingData_received _ _ _
      · exact onContentStoreMiss_received _ _ _ _
  | incomingData inFace data nexthops =>
      cases hstep
      refine hafter (.inData inFace data) rfl ?_
      unfold onIncomingData
      dsimp only
      split
      · exact ⟨[], (List.append_nil _).symm, rfl⟩
      · split
        · exact ⟨[], (List.append_nil _).symm, rfl⟩
        · split
          · exact ⟨[], (List.append_nil _).symm, rfl⟩
          · exact onOutgoingData_received _ _ _
  | contentStoreTimer key =>
      cases hstep
      exact ⟨[], (List.append_nil _).symm, rfl⟩
  | strategyChoice op =>
      obtain ⟨T, -, rfl⟩ := Option.map_eq_some_iff.mp hstep
      exact ⟨[], (List.append_nil _).symm, rfl⟩
  | setFaceId face id =>
      cases hstep
      exact ⟨[], (List.append_nil _).symm, rfl⟩
  | advanceClock duration =>
      cases hstep
      exact ⟨[], (List.append_nil _).symm, rfl⟩

end PitlessForwarder

/-! ### Routers -/

/-- The forwarder that a node runs. -/
inductive RouterKind where
  | forwarder
  | bridge (supportingName : Name)
  | pitless
  deriving DecidableEq

structure Router (κ : Type) where
  platform : Platform κ
  kind : RouterKind

inductive RouterState (κ : Type) where
  | tables (s : ForwarderState κ)
  | pitless (s : PitlessState κ)

inductive RouterEvent where
  | forwarder (event : Forwarder.Event)
  | bridge (event : BridgeForwarder.Event)
  | pitless (event : PitlessForwarder.Event)

namespace RouterState

variable {κ : Type}

def received : RouterState κ → List (Face × FacePacket)
  | .tables s => s.log.filterMap LogItem.received
  | .pitless s => s.log.filterMap PitlessItem.received

def sent : RouterState κ → List (Face × FacePacket)
  | .tables s => s.log.filterMap LogItem.sent
  | .pitless s => s.log.filterMap PitlessItem.sent

end RouterState

def RouterEvent.intake : RouterEvent → Option (Face × FacePacket)
  | .forwarder event => event.intake
  | .bridge event => event.intake
  | .pitless event => event.intake

namespace Router

variable {κ : Type}

/-- A router takes the steps of its own kind. -/
def step (router : Router κ) : RouterState κ → RouterEvent → Option (RouterState κ)
  | .tables s, .forwarder event =>
      match router.kind with
      | .forwarder => (Forwarder.step router.platform s event).map .tables
      | _ => none
  | .tables s, .bridge event =>
      match router.kind with
      | .bridge supportingName => (BridgeForwarder.step router.platform supportingName s event).map .tables
      | _ => none
  | .pitless s, .pitless event =>
      match router.kind with
      | .pitless => (PitlessForwarder.step router.platform s event).map .pitless
      | _ => none
  | _, _ => none

/-- The state of a router that was just started. -/
def new (router : Router κ) (nBuckets : Nat) (faceId : Face → Option Nat) (cs : κ) : RouterState κ :=
  match router.kind with
  | .pitless => .pitless (.new faceId cs)
  | _ => .tables (.new nBuckets faceId cs)

theorem step_cases {router : Router κ} {state state' : RouterState κ} {event : RouterEvent}
    (h : router.step state event = some state') :
    (∃ s s' e, router.kind = .forwarder ∧ state = .tables s ∧ event = .forwarder e ∧ state' = .tables s' ∧
      Forwarder.step router.platform s e = some s') ∨
    (∃ supportingName s s' e, router.kind = .bridge supportingName ∧ state = .tables s ∧ event = .bridge e ∧
      state' = .tables s' ∧ BridgeForwarder.step router.platform supportingName s e = some s') ∨
    ∃ s s' e, router.kind = .pitless ∧ state = .pitless s ∧ event = .pitless e ∧ state' = .pitless s' ∧
      PitlessForwarder.step router.platform s e = some s' := by
  unfold step at h
  split at h
  · rename_i s e
    split at h
    · rename_i hkind
      obtain ⟨s', hs', rfl⟩ := Option.map_eq_some_iff.mp h
      exact Or.inl ⟨s, s', e, hkind, rfl, rfl, rfl, hs'⟩
    · cases h
  · rename_i s e
    split at h
    · rename_i supportingName hkind
      obtain ⟨s', hs', rfl⟩ := Option.map_eq_some_iff.mp h
      exact Or.inr (Or.inl ⟨supportingName, s, s', e, hkind, rfl, rfl, rfl, hs'⟩)
    · cases h
  · rename_i s e
    split at h
    · rename_i hkind
      obtain ⟨s', hs', rfl⟩ := Option.map_eq_some_iff.mp h
      exact Or.inr (Or.inr ⟨s, s', e, hkind, rfl, rfl, rfl, hs'⟩)
    · cases h
  · cases h

theorem received_step {router : Router κ} {state state' : RouterState κ} {event : RouterEvent}
    (h : router.step state event = some state') :
    state'.received = state.received ++ event.intake.toList := by
  rcases step_cases h with ⟨s, s', e, -, rfl, rfl, rfl, hs⟩ | ⟨supportingName, s, s', e, -, rfl, rfl, rfl, hs⟩ |
    ⟨s, s', e, -, rfl, rfl, rfl, hs⟩
  · obtain ⟨items, hlog, hitems⟩ := Forwarder.step_received hs
    rw [RouterState.received, hlog, List.filterMap_append, hitems]
    rfl
  · obtain ⟨items, hlog, hitems⟩ := BridgeForwarder.step_received hs
    rw [RouterState.received, hlog, List.filterMap_append, hitems]
    rfl
  · obtain ⟨items, hlog, hitems⟩ := PitlessForwarder.step_received hs
    rw [RouterState.received, hlog, List.filterMap_append, hitems]
    rfl

theorem sent_step {router : Router κ} {state state' : RouterState κ} {event : RouterEvent}
    (h : router.step state event = some state') : state.sent <+: state'.sent := by
  rcases step_cases h with ⟨s, s', e, -, rfl, rfl, rfl, hs⟩ | ⟨supportingName, s, s', e, -, rfl, rfl, rfl, hs⟩ |
    ⟨s, s', e, -, rfl, rfl, rfl, hs⟩
  · obtain ⟨items, hlog, -⟩ := Forwarder.step_received hs
    rw [RouterState.sent, RouterState.sent, hlog, List.filterMap_append]
    exact List.prefix_append _ _
  · obtain ⟨items, hlog, -⟩ := BridgeForwarder.step_received hs
    rw [RouterState.sent, RouterState.sent, hlog, List.filterMap_append]
    exact List.prefix_append _ _
  · obtain ⟨items, hlog, -⟩ := PitlessForwarder.step_received hs
    rw [RouterState.sent, RouterState.sent, hlog, List.filterMap_append]
    exact List.prefix_append _ _

end Router

/-- The components of a network of routers. -/
def routerComponents {ν κ : Type} (routers : ν → Router κ) :
    Components ν (RouterState κ) RouterEvent Face FacePacket where
  step n := (routers n).step
  intake := RouterEvent.intake
  received := RouterState.received
  sent := RouterState.sent
  received_step := Router.received_step
  sent_step := Router.sent_step

/-- A network in which every router was just started. -/
def startedNetwork {ν κ : Type} (routers : ν → Router κ) (nBuckets : ν → Nat) (faceId : ν → Face → Option Nat)
    (cs : ν → κ) : NetworkState ν (RouterState κ) Face FacePacket :=
  { node := fun n => (routers n).new (nBuckets n) (faceId n) (cs n), inFlight := [] }

theorem startedNetwork_fresh {ν κ : Type} (routers : ν → Router κ) (nBuckets : ν → Nat)
    (faceId : ν → Face → Option Nat) (cs : ν → κ) :
    PacketNetwork.Fresh (routerComponents routers) (startedNetwork routers nBuckets faceId cs) where
  inFlight := rfl
  received n := by
    show ((routers n).new (nBuckets n) (faceId n) (cs n)).received = []
    unfold Router.new
    split <;> rfl
  sent n := by
    show ((routers n).new (nBuckets n) (faceId n) (cs n)).sent = []
    unfold Router.new
    split <;> rfl

end NfdPitless
