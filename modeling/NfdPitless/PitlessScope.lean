import NfdPitless.PitlessForwarder
import NfdPitless.BridgeForwarder

/-! Scope control of the PITless and the bridge forwarder. Both check the name of an Interest and the
supporting name of a Data when they come in, and the name of a Data when it goes out; an Interest is sent
without a check, to whatever next hop the FIB has, and the name of a Data that no bridge has rewritten says
nothing about its content. What is left of the boundary is what the routes and the cached Data make of it. -/

namespace NfdPitless

open Forwarder (CrossesLocalhost isViolatingLocalhost_iff isViolatingLocalhost_eq_false_iff hasDuplicateNonce)

variable {κ : Type} {P : Platform κ}

/-- The name of what a Data carries: the supporting name in transit, and also after a bridge has rewritten
the name, which then is the same. -/
def Data.contentName (data : Data) : Name := data.supportingName

theorem BridgeForwarder.resetName_contentName (data : Data) :
    (resetName data).name = (resetName data).contentName := rfl

/-- The first next hop an Interest or a Data can be forwarded to. -/
def firstUsable (faceId : Face → Option Nat) (inFace : Face) (nexthops : List Face) : Option Face :=
  nexthops.find? fun nexthop => faceId inFace != faceId nexthop

/-- If the Interest is sent, it does not cross the boundary. -/
def InterestRouteLocal (P : Platform κ) (faceId : Face → Option Nat) (inFace : Face) (interest : Interest)
    (nexthops : List Face) : Prop :=
  ∀ outFace, firstUsable faceId inFace nexthops = some outFace → faceId outFace ≠ none →
    ¬ CrossesLocalhost P outFace interest.name

/-- If the content crosses the boundary, the name of the Data tells. -/
def DataNameTells (P : Platform κ) (faceId : Face → Option Nat) (data : Data) (outFace : Face) : Prop :=
  faceId outFace ≠ none → CrossesLocalhost P outFace data.contentName → CrossesLocalhost P outFace data.name

namespace PitlessForwarder

variable {s s' : PitlessState κ}

/-- An item of the log that keeps the boundary. -/
def KeepsScope (P : Platform κ) : PitlessItem → Prop
  | .outInterest face interest => ¬ CrossesLocalhost P face interest.name
  | .outData face data => ¬ CrossesLocalhost P face data.contentName
  | _ => True

/-- Nothing under `/localhost` has gone to a non-local face. -/
def ScopeKept (P : Platform κ) (s : PitlessState κ) : Prop := ∀ item ∈ s.log, KeepsScope P item

/-- What the scope checks leave to the routes and the content store at a step. -/
def RoutesLocal (P : Platform κ) (s : PitlessState κ) : Event → Prop
  | .incomingInterest inFace interest nexthops => ¬ CrossesLocalhost P inFace interest.name →
      match (P.store.find s.cs s.now interest).2 with
      | some data => DataNameTells P s.faceId data inFace
      | none => InterestRouteLocal P s.faceId inFace interest nexthops
  | .incomingData inFace data nexthops => ¬ CrossesLocalhost P inFace data.contentName →
      ∀ outFace, firstUsable s.faceId inFace nexthops = some outFace → DataNameTells P s.faceId data outFace
  | _ => True

theorem ScopeKept.logged (h : ScopeKept P s) {item : PitlessItem} (hitem : KeepsScope P item) :
    ScopeKept P (s.logged item) := by
  intro x hx
  rcases List.mem_append.mp hx with hold | hnew
  · exact h x hold
  · rw [List.mem_singleton.mp hnew]
    exact hitem

theorem ScopeKept.outgoingData (h : ScopeKept P s) {data : Data} {outFace : Face}
    (hdata : DataNameTells P s.faceId data outFace) : ScopeKept P (onOutgoingData P s data outFace) := by
  unfold onOutgoingData
  split
  · exact h
  · rename_i hvalid
    split
    · exact h
    · rename_i hname
      refine h.logged fun hcross => ?_
      have hid : s.faceId outFace ≠ none := fun hnone => hvalid (by rw [hnone]; rfl)
      exact hname (isViolatingLocalhost_iff.mpr (hdata hid hcross))

theorem ScopeKept.contentStoreMiss (h : ScopeKept P s) {inFace : Face} {interest : Interest} {nexthops : List Face}
    (hroute : InterestRouteLocal P s.faceId inFace interest nexthops) :
    ScopeKept P (onContentStoreMiss s inFace interest nexthops) := by
  unfold onContentStoreMiss afterReceiveInterestPITless
  split
  · exact h
  · rename_i outFace hfirst
    unfold onOutgoingInterestPITless
    split
    · exact h
    · rename_i hvalid
      exact h.logged (hroute outFace hfirst fun hnone => hvalid (by rw [hnone]; rfl))

theorem ScopeKept.incomingInterest (h : ScopeKept P s) {inFace : Face} {interest : Interest} {nexthops : List Face}
    (hlocal : RoutesLocal P s (.incomingInterest inFace interest nexthops))
    (hstep : onIncomingInterest P s inFace interest nexthops = some s') : ScopeKept P s' := by
  have hin : ScopeKept P (lookedUp P s inFace interest) :=
    @ScopeKept.logged _ P s h (.inInterest inFace interest) trivial
  rcases onIncomingInterest_cases hstep with ⟨-, rfl⟩ | ⟨hscope, hcases⟩
  · exact hin
  · have hroute := hlocal (isViolatingLocalhost_eq_false_iff.mp hscope)
    rcases hcases with ⟨data, hfind, rfl⟩ | ⟨hfind, rfl⟩
    · rw [hfind] at hroute
      exact hin.outgoingData hroute
    · rw [hfind] at hroute
      exact hin.contentStoreMiss hroute

theorem ScopeKept.incomingData (h : ScopeKept P s) {inFace : Face} {data : Data} {nexthops : List Face}
    (hlocal : RoutesLocal P s (.incomingData inFace data nexthops)) :
    ScopeKept P (onIncomingData P s inFace data nexthops) := by
  have hin : ScopeKept P (s.logged (.inData inFace data)) := h.logged trivial
  unfold onIncomingData
  dsimp only
  split
  · exact hin
  · rename_i hscope
    have hroute := hlocal fun hcross => hscope (isViolatingLocalhost_iff.mpr hcross)
    have hcs : ScopeKept P { s.logged (.inData inFace data) with cs := P.store.insert s.cs s.now data false } := hin
    split
    · exact hcs
    · rename_i outFace hfirst
      split
      · exact hcs
      · exact hcs.outgoingData (hroute outFace hfirst)

theorem ScopeKept.step (h : ScopeKept P s) {event : Event} (hlocal : RoutesLocal P s event)
    (hstep : step P s event = some s') : ScopeKept P s' := by
  cases event with
  | incomingInterest inFace interest nexthops => exact h.incomingInterest hlocal hstep
  | incomingData inFace data nexthops =>
      cases hstep
      exact h.incomingData hlocal
  | contentStoreTimer key =>
      cases hstep
      exact h
  | strategyChoice op =>
      obtain ⟨T, -, rfl⟩ := Option.map_eq_some_iff.mp hstep
      exact h
  | setFaceId face id =>
      cases hstep
      exact h
  | advanceClock duration =>
      cases hstep
      exact h

theorem scope_kept (faceId : Face → Option Nat) (cs : κ)
    (hr : Reach (step P) (RoutesLocal P) (PitlessState.new faceId cs) s) : ScopeKept P s := by
  apply hr.invariant
  · intro item hitem
    simp [PitlessState.new] at hitem
  · intro s event s' h hlocal hstep
    exact h.step hlocal hstep

end PitlessForwarder

/-! ### The bridge forwarder -/

namespace BridgeForwarder

open Forwarder

variable {supportingName : Name} {s s' : ForwarderState κ} {r : Ref}

/-- An item of the log that keeps the boundary. -/
def KeepsScope (P : Platform κ) : LogItem → Prop
  | .outInterest _ face interest => ¬ CrossesLocalhost P face interest.name
  | .outData face data => ¬ CrossesLocalhost P face data.contentName
  | _ => True

/-- Nothing under `/localhost` has gone to a non-local face. -/
def ScopeKept (P : Platform κ) (s : ForwarderState κ) : Prop := ∀ item ∈ s.log, KeepsScope P item

/-- What the scope checks leave to the routes and the content store at a step; an upstream Data is sent
under its content name. -/
def RoutesLocal (P : Platform κ) (s : ForwarderState κ) : Event → Prop
  | .incomingInterest inFace interest nexthops _ => ¬ CrossesLocalhost P inFace interest.name →
      ∀ e, entryFor P s interest = some e → hasDuplicateNonce P s e inFace interest = false →
        (e.inRecords = [] → ∀ data, (P.store.find s.cs s.now interest).2 = some data →
          DataNameTells P s.faceId data inFace) ∧
        ((e.inRecords = [] → (P.store.find s.cs s.now interest).2 = none) →
          InterestRouteLocal P s.faceId inFace interest nexthops)
  | _ => True

theorem ScopeKept.append (h : ScopeKept P s) {items : List LogItem} (hlog : s'.log = s.log ++ items)
    (hitems : ∀ item ∈ items, KeepsScope P item) : ScopeKept P s' := by
  intro x hx
  rw [hlog] at hx
  rcases List.mem_append.mp hx with hold | hnew
  · exact h x hold
  · exact hitems x hnew

theorem ScopeKept.logged (h : ScopeKept P s) {item : LogItem} (hitem : KeepsScope P item) :
    ScopeKept P (s.logged item) :=
  h.append rfl fun x hx => by
    rw [List.mem_singleton.mp hx]
    exact hitem

theorem ScopeKept.outgoingData (h : ScopeKept P s) {data : Data} {outFace : Face}
    (hdata : DataNameTells P s.faceId data outFace) : ScopeKept P (onOutgoingData P s data outFace) := by
  unfold onOutgoingData
  split
  · exact h
  · rename_i hvalid
    split
    · exact h
    · rename_i hname
      refine h.logged fun hcross => ?_
      have hid : s.faceId outFace ≠ none := fun hnone => hvalid (by rw [hnone]; rfl)
      exact hname (isViolatingLocalhost_iff.mpr (hdata hid hcross))

theorem ScopeKept.queued (h : ScopeKept P s) (hq : Queued s s') : ScopeKept P s' := by
  obtain ⟨items, hlog, hitems⟩ := hq.log_eq
  refine h.append hlog fun item hitem => ?_
  obtain ⟨k, name, nonce, rfl⟩ := hitems item hitem
  trivial

theorem ScopeKept.satisfyEntry (h : ScopeKept P s) {inFace : Face} {data : Data}
    (hstep : satisfyEntry P inFace data (fun _ => []) s r = some s') : ScopeKept P s' := by
  obtain ⟨s₁, hdisp, rfl⟩ := Option.map_eq_some_iff.mp hstep
  cases hdisp
  have hcancel : ScopeKept P (cancelUnsatisfyAndStragglerTimer s r) := h
  have hqueued := hcancel.queued (insertDeadNonceList_queued (P := P) _ r true data.freshnessPeriod (some inFace))
  exact hqueued.logged trivial

theorem ScopeKept.sendToDownstreams (h : ScopeKept P s) (inFace : Face) {data : Data}
    (hname : data.name = data.contentName) (faces : List Face) :
    ScopeKept P (sendToDownstreams P inFace data faces s) := by
  unfold Forwarder.sendToDownstreams
  generalize faces.filter (fun face => face != inFace) = l
  induction l generalizing s with
  | nil => exact h
  | cons face l ih =>
      rw [List.foldl_cons]
      exact ih (h.outgoingData fun _ hcross => by rwa [hname])

theorem ScopeKept.contentStoreMiss (h : ScopeKept P s) {inFace : Face} {interest : Interest} {nexthops : List Face}
    (hroute : InterestRouteLocal P s.faceId inFace interest nexthops) :
    ScopeKept P (onContentStoreMiss supportingName s inFace r interest nexthops) := by
  obtain ⟨sends, hrun, hsends⟩ := onContentStoreMiss_spec supportingName s inFace r interest nexthops
  rw [hrun]
  refine h.append rfl ?_
  rcases hsends with ⟨rfl, -⟩ | ⟨outFace, hfirst, hid, rfl⟩
  · intro item hitem
    cases hitem
  · intro item hitem
    rw [List.mem_singleton.mp hitem]
    exact hroute outFace hfirst hid

theorem ScopeKept.incomingInterest (h : ScopeKept P s) {inFace : Face} {interest : Interest} {nexthops : List Face}
    {strategy : StrategyInstance}
    (hlocal : RoutesLocal P s (.incomingInterest inFace interest nexthops strategy))
    (hstep : onIncomingInterest P supportingName s inFace interest nexthops strategy = some s') : ScopeKept P s' := by
  have hin : ScopeKept P (s.logged (.inInterest inFace interest)) := h.logged trivial
  rcases onIncomingInterest_cases hstep with ⟨-, rfl⟩ | ⟨hscope, pit, r, isNew, e, hins, he, hcases⟩
  · exact hin
  · have hentry : entryFor P s interest = some e := by
      rw [entryFor, hins]
      exact he
    have hroute := hlocal (isViolatingLocalhost_eq_false_iff.mp hscope) e hentry
    rcases hcases with ⟨-, rfl⟩ | ⟨hdup, hempty, cs, data, hfind, rfl⟩ | ⟨hdup, hmiss, cs, rfl⟩
    · exact hin
    · have hcs : ScopeKept P (cancelUnsatisfyAndStragglerTimer { withPit s inFace interest pit with cs } r) := hin
      exact hcs.outgoingData ((hroute hdup).1 hempty data (by rw [hfind]))
    · have hcs : ScopeKept P (cancelUnsatisfyAndStragglerTimer { withPit s inFace interest pit with cs } r) := hin
      exact hcs.contentStoreMiss ((hroute hdup).2 hmiss)

theorem ScopeKept.incomingData (h : ScopeKept P s) {inFace : Face} {data : Data}
    (hstep : onIncomingData P s inFace data = some s') : ScopeKept P s' := by
  have hin : ScopeKept P (s.logged (.inData inFace data)) := h.logged trivial
  rcases onIncomingData_cases hstep with rfl | rfl | ⟨result, hresult, rfl⟩
  · exact hin
  · have hlog : (onDataUnsolicited P (s.logged (.inData inFace data)) inFace data).log =
        (s.logged (.inData inFace data)).log ++ [] := by
      rw [onDataUnsolicited_log, List.append_nil]
    exact hin.append hlog (by simp)
  · refine ScopeKept.sendToDownstreams ?_ inFace (resetName_contentName data) result.2
    refine satisfyAll_invariant (I := ScopeKept P) (fun _ _ _ h hs => h.satisfyEntry hs) _ ?_ hresult
    exact hin

theorem ScopeKept.finalize (h : ScopeKept P s) {isSatisfied : Bool} {dataFreshnessPeriod : Int}
    (hstep : onInterestFinalize P s r isSatisfied dataFreshnessPeriod = some s') : ScopeKept P s' := by
  obtain ⟨pit, -, rfl⟩ := Option.map_eq_some_iff.mp hstep
  have hqueued := h.queued (insertDeadNonceList_queued (P := P) s r isSatisfied dataFreshnessPeriod none)
  have hitem : KeepsScope P (.finalized r isSatisfied : LogItem) := trivial
  exact hqueued.logged hitem

/-- The steps that are the base forwarder's send nothing. -/
theorem ScopeKept.base (h : ScopeKept P s) {event : Event} {base : Forwarder.Event}
    (hbase : event.base = some base) (hstep : Forwarder.step P s base = some s') : ScopeKept P s' := by
  cases event with
  | incomingInterest inFace interest nexthops strategy => cases hbase
  | incomingData inFace data => cases hbase
  | unsatisfyTimer r =>
      cases hbase
      simp only [Forwarder.step] at hstep
      split at hstep
      · cases hstep
      · split at hstep
        · obtain ⟨s₁, hdisp, hfinal⟩ := Option.bind_eq_some_iff.mp hstep
          cases hdisp
          exact h.finalize hfinal
        · cases hstep
  | stragglerTimer r =>
      cases hbase
      simp only [Forwarder.step] at hstep
      split at hstep
      · cases hstep
      · split at hstep
        · exact h.finalize hstep
        · cases hstep
  | _ =>
      cases hbase
      cases hstep
      exact h

theorem ScopeKept.step (h : ScopeKept P s) {event : Event} (hlocal : RoutesLocal P s event)
    (hstep : step P supportingName s event = some s') : ScopeKept P s' := by
  rcases step_cases hstep with ⟨inFace, interest, nexthops, strategy, rfl, hrun⟩ | ⟨inFace, data, rfl, hrun⟩ |
    ⟨base, hbase, hrun⟩
  · exact h.incomingInterest hlocal hrun
  · exact h.incomingData hrun
  · exact h.base hbase hrun

theorem scope_kept (nBuckets : Nat) (faceId : Face → Option Nat) (cs : κ)
    (hr : Reach (step P supportingName) (RoutesLocal P) (ForwarderState.new nBuckets faceId cs) s) :
    ScopeKept P s := by
  apply hr.invariant
  · intro item hitem
    simp [ForwarderState.new] at hitem
  · intro s event s' h hlocal hstep
    exact h.step hlocal hstep

end BridgeForwarder

/-- In every run of either forwarder in which the routes of Interests under `/localhost` are local and no
Data hides its content name behind another, scope control holds. -/
theorem scope_safe_with_local_routes (P : Platform κ) (supportingName : Name) (nBuckets : Nat)
    (faceId : Face → Option Nat) (cs : κ) :
    (∀ s, Reach (PitlessForwarder.step P) (PitlessForwarder.RoutesLocal P) (PitlessState.new faceId cs) s →
      PitlessForwarder.ScopeKept P s) ∧
    ∀ s, Reach (BridgeForwarder.step P supportingName) (BridgeForwarder.RoutesLocal P)
        (ForwarderState.new nBuckets faceId cs) s →
      BridgeForwarder.ScopeKept P s :=
  ⟨fun _ hr => PitlessForwarder.scope_kept faceId cs hr,
    fun _ hr => BridgeForwarder.scope_kept nBuckets faceId cs hr⟩

/-- The platform of the runs on fixed packets, with the faces 1 and 3 local. -/
def twoLocalFaces : Platform (Cs Unit) := { Platform.sample with isLocal := fun face => face == 1 || face == 3 }

def localhostInterest : Interest := plainInterest (localhostName ++ [.ofByte 65])

/-- A Data under `/localhost`, named by the route back to the consumer's bridge. -/
def localhostContent : Data := { plainData [.ofByte 66] with supportingName := localhostName ++ [.ofByte 65] }

/-- Both forwarders send an Interest under `/localhost` to a non-local next hop, and the PITless forwarder
sends a Data whose content is under `/localhost` to one. -/
theorem localhost_sent_to_nonlocal_face :
    (∃ s, Reach (PitlessForwarder.step twoLocalFaces) anyStep PitlessState.sample s ∧
      .outInterest 2 localhostInterest ∈ s.log ∧ CrossesLocalhost twoLocalFaces 2 localhostInterest.name) ∧
    (∃ s, Reach (PitlessForwarder.step twoLocalFaces) anyStep PitlessState.sample s ∧
      .outData 2 localhostContent ∈ s.log ∧ CrossesLocalhost twoLocalFaces 2 localhostContent.contentName) ∧
    ∃ s, Reach (BridgeForwarder.step twoLocalFaces [.ofByte 66]) anyStep ForwarderState.sample s ∧
      .outInterest 0 2 { localhostInterest with supportingName := [.ofByte 66] } ∈ s.log ∧
      CrossesLocalhost twoLocalFaces 2 localhostInterest.name := by
  have hcross : CrossesLocalhost twoLocalFaces 2 localhostInterest.name := ⟨rfl, by decide⟩
  refine ⟨⟨_, Reach.start.next (.incomingInterest 1 localhostInterest [2]) trivial rfl, ?_, hcross⟩,
    ⟨_, Reach.start.next (.incomingData 1 localhostContent [2]) trivial rfl, ?_, hcross⟩, ?_⟩
  · decide +kernel
  · decide +kernel
  · have hrun : ((BridgeForwarder.step twoLocalFaces [.ofByte 66] ForwarderState.sample
        (.incomingInterest 1 localhostInterest [2] makeDefaultStrategy)).any fun s =>
          decide (.outInterest 0 2 { localhostInterest with supportingName := [.ofByte 66] } ∈ s.log)) = true := by
      decide +kernel
    obtain ⟨s, hs, hmem⟩ := (Option.any_eq_true _ _).mp hrun
    exact ⟨s, Reach.start.next _ trivial hs, of_decide_eq_true hmem, hcross⟩

/-- With the local face 3 as next hop, the Interest and the Data stay local. -/
theorem scope_safe_with_local_routes_sample :
    ∃ s s', Reach (PitlessForwarder.step twoLocalFaces) (PitlessForwarder.RoutesLocal twoLocalFaces)
        PitlessState.sample s ∧ .outInterest 3 localhostInterest ∈ s.log ∧
      Reach (BridgeForwarder.step twoLocalFaces [.ofByte 66]) (BridgeForwarder.RoutesLocal twoLocalFaces)
        ForwarderState.sample s' ∧
      .outInterest 0 3 { localhostInterest with supportingName := [.ofByte 66] } ∈ s'.log ∧
      PitlessForwarder.ScopeKept twoLocalFaces s ∧ BridgeForwarder.ScopeKept twoLocalFaces s' := by
  have hroute : InterestRouteLocal twoLocalFaces some 1 localhostInterest [3] := by
    intro outFace hfirst _ hcross
    cases hfirst
    cases hcross.1
  have hmiss : (twoLocalFaces.store.find ⟨[], ()⟩ 0 localhostInterest).2 = none := by decide +kernel
  have hpitless : PitlessForwarder.RoutesLocal twoLocalFaces PitlessState.sample
      (.incomingInterest 1 localhostInterest [3]) := by
    intro _
    show match (twoLocalFaces.store.find ⟨[], ()⟩ 0 localhostInterest).2 with
      | some data => DataNameTells twoLocalFaces some data 1
      | none => InterestRouteLocal twoLocalFaces some 1 localhostInterest [3]
    rw [hmiss]
    exact hroute
  have hbridge : BridgeForwarder.RoutesLocal twoLocalFaces ForwarderState.sample
      (.incomingInterest 1 localhostInterest [3] makeDefaultStrategy) := by
    intro _ e _ _
    refine ⟨fun _ data hdata => ?_, fun _ => hroute⟩
    have hfound : (twoLocalFaces.store.find ⟨[], ()⟩ 0 localhostInterest).2 = some data := hdata
    rw [hmiss] at hfound
    cases hfound
  have hrun : ((BridgeForwarder.step twoLocalFaces [.ofByte 66] ForwarderState.sample
      (.incomingInterest 1 localhostInterest [3] makeDefaultStrategy)).any fun s =>
        decide (.outInterest 0 3 { localhostInterest with supportingName := [.ofByte 66] } ∈ s.log)) = true := by
    decide +kernel
  have hforwarded : ((PitlessForwarder.step twoLocalFaces PitlessState.sample
      (.incomingInterest 1 localhostInterest [3])).any fun s =>
        decide (.outInterest 3 localhostInterest ∈ s.log)) = true := by
    decide +kernel
  obtain ⟨s, hs, hout⟩ := (Option.any_eq_true _ _).mp hforwarded
  obtain ⟨s', hs', hmem⟩ := (Option.any_eq_true _ _).mp hrun
  have hreach : Reach (PitlessForwarder.step twoLocalFaces) (PitlessForwarder.RoutesLocal twoLocalFaces)
      PitlessState.sample s := Reach.start.next _ hpitless hs
  have hreach' : Reach (BridgeForwarder.step twoLocalFaces [.ofByte 66]) (BridgeForwarder.RoutesLocal twoLocalFaces)
      ForwarderState.sample s' := Reach.start.next _ hbridge hs'
  have hsafe := scope_safe_with_local_routes twoLocalFaces [.ofByte 66] 16 some ⟨[], ()⟩
  exact ⟨s, s', hreach, of_decide_eq_true hout, hreach', of_decide_eq_true hmem, hsafe.1 s hreach, hsafe.2 s' hreach'⟩

end NfdPitless
