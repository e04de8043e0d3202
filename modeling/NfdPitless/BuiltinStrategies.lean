import NfdPitless.ForwarderSpec
import NfdPitless.LongestPrefix
import NfdPitless.TimerQueue

/-! The built-in strategies of the base forwarder: best-route version 2 (`fw/best-route-strategy2.cpp`), multicast
(`multicast-strategy.cpp`), client-control (`client-control-strategy.cpp`), NCC (`ncc-strategy.cpp`) and access
(`access-strategy.cpp`), with the timers they set and the `StrategyInfo` they keep on PIT entries. What they read of
the Measurements table, of the local control header and of the random number generator is part of the event, so a
result about all runs is one about all measurements. The delay of a timer is what the source computes from them. -/

namespace NfdPitless

namespace PitEntry

def canForwardTo (isLocal : Face → Bool) (now : Nat) (e : PitEntry) (face : Face) : Bool :=
  !(e.outRecords.any fun outRecord => outRecord.face == face && decide (outRecord.expiry ≥ now)) &&
    (e.inRecords.any fun inRecord => inRecord.face != face && decide (inRecord.expiry ≥ now)) &&
    !e.violatesScope isLocal face

/-- `RetxSuppression::getLastOutgoing`, `none` when there are no out-records. -/
def getLastOutgoing (e : PitEntry) : Option Nat :=
  (Lists.maxElement (fun a b => Decidable.decide (a.lastRenewed < b.lastRenewed)) e.outRecords).map
    OutRecord.lastRenewed

end PitEntry

/-- The strategies; an instance of each is installed once. -/
inductive Strategy where
  | bestRoute2
  | multicast
  | clientControl
  | ncc
  | access
  deriving DecidableEq

/-- The assertions of the pipelines, the strategies and the tables that they call. -/
inductive Assertion where
  /-- `pickedInRecord != inRecords.end()` in `Forwarder::onOutgoingInterest`. -/
  | pickedInRecord
  /-- `pitEntry != nullptr` in `AccessStrategy::afterRtoTimeout`. -/
  | rtoPitEntry
  /-- `static_cast<bool>(pitEntryInfo)` in `NccStrategy::doPropagate`. -/
  | propagatePitEntryInfo
  /-- `lastOutgoing != outRecords.end()` in `RetxSuppression::getLastOutgoing`. -/
  | lastOutgoing
  /-- `outRecord != pitEntry->getOutRecords().end()` in `findEligibleNextHopWithEarliestOutRecord`. -/
  | earliestOutRecord
  /-- One of the assertions on name tree entries in the PIT and the StrategyChoice table. -/
  | nameTreeEntry
  /-- `prefix.size() > 0` in `StrategyChoice::erase`. -/
  | erasedPrefix
  deriving DecidableEq

/-- `AccessStrategy::PitInfo`. The timer is a `ScopedEventId`: a new one cancels the one before, and it is cancelled
with the item. -/
structure AccessPitInfo where
  rtoTimer : Option Nat
  deriving DecidableEq

/-- `NccStrategy::PitEntryInfo`. The timers are plain handles: only the last ones are cancelled with the item. -/
structure NccPitEntryInfo where
  bestFaceTimeout : Option Nat
  propagateTimer : Option Nat
  /-- Microseconds. -/
  maxInterval : Nat
  deriving DecidableEq

/-- The `StrategyInfo` items of a PIT entry, by their types. -/
structure PitStrategyInfo where
  access : Option AccessPitInfo
  ncc : Option NccPitEntryInfo
  /-- `RetxSuppressionExponential::PitInfo`: the suppression interval. -/
  retx : Option Nat
  deriving DecidableEq

namespace PitStrategyInfo

def empty : PitStrategyInfo := { access := none, ncc := none, retx := none }

end PitStrategyInfo

/-- What the strategies schedule. A `weak_ptr` to an entry is its address, which is never used again. -/
inductive StrategyCallback where
  | afterRtoTimeout (pitWeak fibWeak : Ref) (inFace firstOutFace : Option Nat)
  | doPropagate (pitWeak fibWeak : Ref)
  | timeoutOnBestFace (pitWeak : Ref)
  deriving DecidableEq

/-- `AccessStrategy::MtInfo` as far as it is read: the last working next hop, `none` for `INVALID_FACEID`, and what
`rtt.computeRto` returns. -/
structure AccessMtInfo where
  lastNexthop : Option Nat
  rto : Nat
  deriving DecidableEq

/-- `NccStrategy::MeasurementsEntryInfo`: the faces that are alive, and the prediction in microseconds. -/
structure NccMeasurementsInfo where
  bestFace : Option Face
  previousFace : Option Face
  prediction : Nat
  deriving DecidableEq

/-- What a trigger reads besides the tables. -/
structure TriggerInput where
  /-- `NextHopFaceId` of the local control header. -/
  nextHopFaceId : Option Nat
  mtInfo : Option AccessMtInfo
  measurementsInfo : NccMeasurementsInfo
  random : Nat
  deriving DecidableEq

/-- The forwarder with what the strategies use of it. -/
structure StrategyState (κ : Type) where
  base : ForwarderState κ
  faceTable : Nat → Option Face
  /-- The next hops of the FIB entries in memory. -/
  fib : Ref → Option (List Face)
  strategyChoice : Name → Option Strategy
  info : Ref → PitStrategyInfo
  timers : TimerQueue StrategyCallback

/-- Microseconds in units of the clock. -/
def microseconds (n : Nat) : Nat := n * 1000

variable {κ : Type}

namespace StrategyState

def entry (s : StrategyState κ) (r : Ref) : Option PitEntry := s.base.pit.entries r

def now (s : StrategyState κ) : Nat := s.base.now

def nexthopsOf (s : StrategyState κ) (fibEntry : Ref) : List Face := (s.fib fibEntry).getD []

def canForwardTo (P : Platform κ) (s : StrategyState κ) (r : Ref) (face : Face) : Bool :=
  (s.entry r).any fun e => e.canForwardTo P.isLocal s.now face

def violatesScope (P : Platform κ) (s : StrategyState κ) (r : Ref) (face : Face) : Bool :=
  (s.entry r).any fun e => e.violatesScope P.isLocal face

def hasUnexpiredOutRecords (s : StrategyState κ) (r : Ref) : Bool :=
  (s.entry r).any fun e => e.hasUnexpiredOutRecords s.now

def getOutRecord (s : StrategyState κ) (r : Ref) (face : Face) : Option OutRecord :=
  (s.entry r).bind fun e => e.getOutRecord face

def setInfo (s : StrategyState κ) (r : Ref) (info : PitStrategyInfo) : StrategyState κ :=
  { s with info := Function.update s.info r info }

def schedule (s : StrategyState κ) (delay : Nat) (callback : StrategyCallback) : StrategyState κ :=
  { s with timers := s.timers.schedule (s.now + delay) callback }

def cancel (s : StrategyState κ) (id : Option Nat) : StrategyState κ := { s with timers := s.timers.cancel id }

@[simp] theorem info_setInfo (s : StrategyState κ) (r : Ref) (info : PitStrategyInfo) (x : Ref) :
    (s.setInfo r info).info x = if x = r then info else s.info x := by
  by_cases hx : x = r
  · simp [setInfo, hx]
  · simp [setInfo, hx]

@[simp] theorem info_schedule (s : StrategyState κ) (delay : Nat) (callback : StrategyCallback) :
    (s.schedule delay callback).info = s.info := rfl

@[simp] theorem info_cancel (s : StrategyState κ) (id : Option Nat) : (s.cancel id).info = s.info := rfl

/-- The items of a PIT entry are destroyed, and the timers that they hold cancelled. -/
def clearStrategyInfo (s : StrategyState κ) (r : Ref) : StrategyState κ :=
  let s₁ := s.cancel ((s.info r).access.bind AccessPitInfo.rtoTimer)
  let s₂ := s₁.cancel ((s.info r).ncc.bind NccPitEntryInfo.bestFaceTimeout)
  let s₃ := s₂.cancel ((s.info r).ncc.bind NccPitEntryInfo.propagateTimer)
  s₃.setInfo r .empty

/-- `StrategyChoice::findEffectiveStrategy` of a name. -/
def effectiveStrategy (s : StrategyState κ) (n : Name) : Option Strategy := LongestPrefix.longest s.strategyChoice n

end StrategyState

/-- A state, or the assertion that has failed. -/
abbrev StrategyOutcome (κ : Type) := Except Assertion (StrategyState κ)

namespace Strategy

variable (P : Platform κ)

def sendInterest (s : StrategyState κ) (r : Ref) (outFace : Face) : StrategyOutcome κ :=
  match Forwarder.onOutgoingInterest P s.base r outFace none with
  | none => .error .pickedInRecord
  | some base => .ok { s with base }

def rejectPendingInterest (s : StrategyState κ) (r : Ref) : StrategyState κ :=
  (Forwarder.onInterestReject s.base r).elim s fun base => { s with base }

end Strategy

open Strategy (sendInterest rejectPendingInterest)

inductive RetxSuppression where
  | new
  | forward
  | suppress
  deriving DecidableEq

/-- The time of the last transmission. -/
def lastOutgoingOf (s : StrategyState κ) (r : Ref) : Except Assertion Nat :=
  match (s.entry r).bind PitEntry.getLastOutgoing with
  | none => .error .lastOutgoing
  | some lastOutgoing => .ok lastOutgoing

namespace RetxSuppressionFixed

def minRetxInterval : Nat := milliseconds 100

def decide (s : StrategyState κ) (r : Ref) : Except Assertion RetxSuppression :=
  if !s.hasUnexpiredOutRecords r then .ok .new
  else (lastOutgoingOf s r).map fun lastOutgoing =>
    if s.now - lastOutgoing < minRetxInterval then .suppress else .forward

end RetxSuppressionFixed

namespace RetxSuppressionExponential

def initialInterval : Nat := milliseconds 1

def multiplier : Nat := 2

def maxInterval : Nat := milliseconds 250

/-- The interval grows each time a retransmission is let through. -/
def decide (s : StrategyState κ) (r : Ref) : Except Assertion (RetxSuppression × StrategyState κ) :=
  if !s.hasUnexpiredOutRecords r then .ok (.new, s)
  else (lastOutgoingOf s r).map fun lastOutgoing =>
    let suppressionInterval := (s.info r).retx.getD initialInterval
    if s.now - lastOutgoing < suppressionInterval then
      (.suppress, s.setInfo r { s.info r with retx := some suppressionInterval })
    else
      (.forward, s.setInfo r { s.info r with retx := some (min maxInterval (suppressionInterval * multiplier)) })

end RetxSuppressionExponential

namespace BestRouteStrategy2

variable (P : Platform κ)

/-- `predicate_NextHop_eligible`. -/
def isEligible (s : StrategyState κ) (r : Ref) (currentDownstream : Option Nat) (wantUnused : Bool)
    (nexthop : Face) : Bool :=
  s.base.faceId nexthop != currentDownstream && !s.violatesScope P r nexthop &&
    !(wantUnused && (s.getOutRecord r nexthop).any fun outRecord => Decidable.decide (outRecord.expiry > s.now))

/-- One round of the loop: the next hop found so far with the time it was renewed. -/
def earlierOutRecord (s : StrategyState κ) (r : Ref) (currentDownstream : Option Nat) (found : Option (Face × Nat))
    (nexthop : Face) : Except Assertion (Option (Face × Nat)) :=
  if !isEligible P s r currentDownstream false nexthop then .ok found
  else
    match s.getOutRecord r nexthop with
    | none => .error .earliestOutRecord
    | some outRecord =>
        .ok (if found.all fun best => Decidable.decide (outRecord.lastRenewed < best.2) then
          some (nexthop, outRecord.lastRenewed) else found)

def findEligibleNextHopWithEarliestOutRecord (s : StrategyState κ) (r : Ref) (nexthops : List Face)
    (currentDownstream : Option Nat) : Except Assertion (Option Face) :=
  (nexthops.foldlM (earlierOutRecord P s r currentDownstream) none).map fun found => found.map Prod.fst

def afterReceiveInterest (s : StrategyState κ) (inFace : Face) (fibEntry r : Ref) : StrategyOutcome κ :=
  let nexthops := s.nexthopsOf fibEntry
  let currentDownstream := s.base.faceId inFace
  (RetxSuppressionExponential.decide s r).bind fun (suppression, s) =>
    match suppression with
    | .new =>
        match nexthops.find? (isEligible P s r currentDownstream false) with
        | none => .ok (rejectPendingInterest s r)
        | some outFace => sendInterest P s r outFace
    | .suppress => .ok s
    | .forward =>
        match nexthops.find? (isEligible P s r currentDownstream true) with
        | some outFace => sendInterest P s r outFace
        | none =>
            (findEligibleNextHopWithEarliestOutRecord P s r nexthops currentDownstream).bind fun found =>
              found.elim (.ok s) (sendInterest P s r)

end BestRouteStrategy2

namespace MulticastStrategy

variable (P : Platform κ)

def forwardTo (r : Ref) (s : StrategyState κ) (outFace : Face) : StrategyOutcome κ :=
  if s.canForwardTo P r outFace then sendInterest P s r outFace else .ok s

def afterReceiveInterest (s : StrategyState κ) (fibEntry r : Ref) : StrategyOutcome κ :=
  ((s.nexthopsOf fibEntry).foldlM (forwardTo P r) s).map fun s =>
    if !s.hasUnexpiredOutRecords r then rejectPendingInterest s r else s

end MulticastStrategy

namespace BestRouteStrategy

variable (P : Platform κ)

def afterReceiveInterest (s : StrategyState κ) (fibEntry r : Ref) : StrategyOutcome κ :=
  if s.hasUnexpiredOutRecords r then .ok s
  else
    match (s.nexthopsOf fibEntry).find? (s.canForwardTo P r) with
    | none => .ok (rejectPendingInterest s r)
    | some outFace => sendInterest P s r outFace

end BestRouteStrategy

namespace ClientControlStrategy

variable (P : Platform κ)

def afterReceiveInterest (s : StrategyState κ) (fibEntry r : Ref) (input : TriggerInput) : StrategyOutcome κ :=
  match input.nextHopFaceId with
  | none => BestRouteStrategy.afterReceiveInterest P s fibEntry r
  | some outFaceId =>
      match s.faceTable outFaceId with
      | none => .ok (rejectPendingInterest s r)
      | some outFace => sendInterest P s r outFace

end ClientControlStrategy

/-! ### NCC -/

namespace NccStrategy

variable (P : Platform κ)

/-- Microseconds, as all the delays of this strategy but the last. -/
def deferFirstWithoutBestFace : Nat := 4000

def deferRangeWithoutBestFace : Nat := 75000

/-- `getBestFace`: the previous face takes the place of a best face that is gone. -/
def getBestFace (info : NccMeasurementsInfo) : Option Face := info.bestFace.or info.previousFace

def getOrCreatePitEntryInfo (s : StrategyState κ) (r : Ref) : NccPitEntryInfo :=
  (s.info r).ncc.getD { bestFaceTimeout := none, propagateTimer := none, maxInterval := 0 }

def modifyPitEntryInfo (s : StrategyState κ) (r : Ref) (f : NccPitEntryInfo → NccPitEntryInfo) : StrategyState κ :=
  s.setInfo r { s.info r with ncc := (s.info r).ncc.map f }

/-- A next hop that the Interest can be forwarded to. -/
def isUsable (s : StrategyState κ) (fibEntry r : Ref) (face : Face) : Bool :=
  (s.nexthopsOf fibEntry).contains face && s.canForwardTo P r face

/-- The handle of the timer before is overwritten. -/
def setPropagateTimer (s : StrategyState κ) (delay : Nat) (pitWeak fibWeak : Ref) : StrategyState κ :=
  modifyPitEntryInfo (s.schedule delay (.doPropagate pitWeak fibWeak)) pitWeak fun info =>
    { info with propagateTimer := some s.timers.nextId }

def setBestFaceTimeout (s : StrategyState κ) (delay : Nat) (pitWeak : Ref) : StrategyState κ :=
  modifyPitEntryInfo (s.schedule delay (.timeoutOnBestFace pitWeak)) pitWeak fun info =>
    { info with bestFaceTimeout := some s.timers.nextId }

/-- What sending to the first face leaves: the first delay, the range of the next ones and the number of next hops. -/
structure Deferral where
  deferFirst : Nat
  deferRange : Nat
  nUpstreams : Nat

/-- Send to the best face, or else to the first eligible next hop. -/
def sendFirst (s : StrategyState κ) (fibEntry r : Ref) (info : NccMeasurementsInfo) :
    Except Assertion (StrategyState κ × Deferral) :=
  let nexthops := s.nexthopsOf fibEntry
  match (getBestFace info).filter (isUsable P s fibEntry r) with
  | some bestFace =>
      (sendInterest P s r bestFace).map fun s =>
        (setBestFaceTimeout s (microseconds info.prediction) r,
          { deferFirst := info.prediction, deferRange := (info.prediction + 1) / 2, nUpstreams := nexthops.length - 1 })
  | none =>
      ((nexthops.find? (s.canForwardTo P r)).elim (.ok s) (sendInterest P s r)).map fun s =>
        (s, { deferFirst := deferFirstWithoutBestFace, deferRange := deferRangeWithoutBestFace
              nUpstreams := nexthops.length })

/-- The longest interval between two next hops other than the best and the previous face. -/
def maxIntervalOf (d : Deferral) (isPreviousUsable : Bool) : Nat :=
  let nUpstreams := if isPreviousUsable then d.nUpstreams - 1 else d.nUpstreams
  if 0 < nUpstreams then max 1 ((2 * d.deferRange + nUpstreams - 1) / nUpstreams) else d.deferFirst

def afterReceiveInterest (s : StrategyState κ) (fibEntry r : Ref) (input : TriggerInput) : StrategyOutcome κ :=
  if s.nexthopsOf fibEntry = [] then .ok (rejectPendingInterest s r)
  else
    let s := s.setInfo r { s.info r with ncc := some (getOrCreatePitEntryInfo s r) }
    if s.hasUnexpiredOutRecords r then .ok s
    else
      (sendFirst P s fibEntry r input.measurementsInfo).map fun (s, deferral) =>
        let isPreviousUsable := input.measurementsInfo.previousFace.any (isUsable P s fibEntry r)
        let s := modifyPitEntryInfo s r fun info => { info with maxInterval := maxIntervalOf deferral isPreviousUsable }
        setPropagateTimer s (microseconds deferral.deferFirst) r fibEntry

/-- The number of microseconds that is drawn is used as one of nanoseconds. -/
def doPropagate (s : StrategyState κ) (pitWeak fibWeak : Ref) (input : TriggerInput) : StrategyOutcome κ :=
  match s.entry pitWeak, s.fib fibWeak with
  | some _, some nexthops =>
      match (s.info pitWeak).ncc with
      | none => .error .propagatePitEntryInfo
      | some pitEntryInfo =>
          ((input.measurementsInfo.previousFace.filter (isUsable P s fibWeak pitWeak)).elim (.ok s)
            (sendInterest P s pitWeak)).bind fun s =>
            match nexthops.find? (s.canForwardTo P pitWeak) with
            | none => .ok s
            | some face =>
                (sendInterest P s pitWeak face).map fun s =>
                  setPropagateTimer s (input.random % pitEntryInfo.maxInterval) pitWeak fibWeak
  | _, _ => .ok s

/-- Only the measurements are adjusted. -/
def timeoutOnBestFace (s : StrategyState κ) (_pitWeak : Ref) : StrategyState κ := s

def updateMeasurementsNLevels : Nat := 2

/-- The name, if the Measurements accessor of the strategy lets its entry through. -/
def accessible (s : StrategyState κ) (n : Name) : Option Name :=
  if s.effectiveStrategy n = some .ncc then some n else none

def accessibleParent (s : StrategyState κ) (n : Name) : Option Name :=
  if n.length = 0 then none else accessible s (n.getPrefix (n.length - 1))

/-- The loop over the levels; false if it returns because it is going out of the namespace of the strategy. -/
def updatesAllLevels (s : StrategyState κ) : Nat → Option Name → Bool
  | 0, _ => true
  | _ + 1, none => false
  | levels + 1, some n => updatesAllLevels s levels (accessibleParent s n)

/-- An entry that has been satisfied before is left alone, and so is the timer when not all levels are updated. -/
def beforeSatisfyInterest (s : StrategyState κ) (r : Ref) : StrategyState κ :=
  if (s.entry r).any fun e =>
      e.inRecords.isEmpty || !updatesAllLevels s updateMeasurementsNLevels (accessible s e.getName)
  then s
  else
    match (s.info r).ncc with
    | none => s
    | some pitEntryInfo =>
        modifyPitEntryInfo (s.cancel pitEntryInfo.propagateTimer) r fun info => { info with propagateTimer := none }

end NccStrategy

namespace AccessStrategy

variable (P : Platform κ)

def sendExcept (r : Ref) (exceptFaces : List (Option Nat)) (s : StrategyState κ) (face : Face) : StrategyOutcome κ :=
  if s.base.faceId face ∈ exceptFaces then .ok s else sendInterest P s r face

def multicast (s : StrategyState κ) (r : Ref) (nexthops : List Face) (exceptFaces : List (Option Nat)) :
    Except Assertion (StrategyState κ) :=
  nexthops.foldlM (sendExcept P r exceptFaces) s

/-- The timer that was set before is cancelled. -/
def setRtoTimer (s : StrategyState κ) (r : Ref) (rto : Nat) (callback : StrategyCallback) : StrategyState κ :=
  ((s.schedule rto callback).cancel ((s.info r).access.bind AccessPitInfo.rtoTimer)).setInfo r
    { s.info r with access := some ⟨some s.timers.nextId⟩ }

/-- The flag says whether the Interest was sent. -/
def sendToLastNexthop (s : StrategyState κ) (inFace : Face) (fibEntry r : Ref) (mi : AccessMtInfo) :
    Except Assertion (StrategyState κ × Bool) :=
  if mi.lastNexthop = none ∨ mi.lastNexthop = s.base.faceId inFace then .ok (s, false)
  else
    match (mi.lastNexthop.bind s.faceTable).filter (s.nexthopsOf fibEntry).contains with
    | none => .ok (s, false)
    | some face =>
        if s.violatesScope P r face then .ok (s, false)
        else (sendInterest P s r face).map fun s =>
          (setRtoTimer s r (microseconds mi.rto) (.afterRtoTimeout r fibEntry (s.base.faceId inFace) mi.lastNexthop),
            true)

def afterReceiveNewInterest (s : StrategyState κ) (inFace : Face) (fibEntry r : Ref) (input : TriggerInput) :
    StrategyOutcome κ :=
  (input.mtInfo.elim (.ok (s, false)) (sendToLastNexthop P s inFace fibEntry r)).bind fun (s, isSentToLastNexthop) =>
    if isSentToLastNexthop then .ok s else multicast P s r (s.nexthopsOf fibEntry) [s.base.faceId inFace]

def afterReceiveRetxInterest (s : StrategyState κ) (inFace : Face) (fibEntry r : Ref) : StrategyOutcome κ :=
  multicast P s r (s.nexthopsOf fibEntry) [s.base.faceId inFace]

def afterReceiveInterest (s : StrategyState κ) (inFace : Face) (fibEntry r : Ref) (input : TriggerInput) :
    StrategyOutcome κ :=
  (RetxSuppressionFixed.decide s r).bind fun suppression =>
    match suppression with
    | .new => afterReceiveNewInterest P s inFace fibEntry r input
    | .forward => afterReceiveRetxInterest P s inFace fibEntry r
    | .suppress => .ok s

def afterRtoTimeout (s : StrategyState κ) (pitWeak fibWeak : Ref) (inFace firstOutFace : Option Nat) :
    StrategyOutcome κ :=
  match s.entry pitWeak with
  | none => .error .rtoPitEntry
  | some _ =>
      match s.fib fibWeak with
      | none => .ok s
      | some nexthops => multicast P s pitWeak nexthops [inFace, firstOutFace]

/-- What follows in the source updates the measurements. -/
def beforeSatisfyInterest (s : StrategyState κ) (r : Ref) : StrategyState κ :=
  match (s.info r).access with
  | none => s
  | some pi => (s.cancel pi.rtoTimer).setInfo r { s.info r with access := some ⟨none⟩ }

end AccessStrategy

namespace Strategy

variable (P : Platform κ)

def afterReceiveInterest (s : StrategyState κ) (inFace : Face) (fibEntry r : Ref) (input : TriggerInput) :
    Strategy → StrategyOutcome κ
  | .bestRoute2 => BestRouteStrategy2.afterReceiveInterest P s inFace fibEntry r
  | .multicast => MulticastStrategy.afterReceiveInterest P s fibEntry r
  | .clientControl => ClientControlStrategy.afterReceiveInterest P s fibEntry r input
  | .ncc => NccStrategy.afterReceiveInterest P s fibEntry r input
  | .access => AccessStrategy.afterReceiveInterest P s inFace fibEntry r input

/-- The trigger of the base class does nothing. -/
def beforeSatisfyInterest (s : StrategyState κ) (r : Ref) : Strategy → StrategyState κ
  | .ncc => NccStrategy.beforeSatisfyInterest s r
  | .access => AccessStrategy.beforeSatisfyInterest s r
  | _ => s

/-- No strategy has a trigger of its own here. -/
def beforeExpirePendingInterest (s : StrategyState κ) (_r : Ref) : Strategy → StrategyState κ := fun _ => s

/-- A timer of a strategy fires. -/
def callback (s : StrategyState κ) (input : TriggerInput) : StrategyCallback → StrategyOutcome κ
  | .afterRtoTimeout pitWeak fibWeak inFace firstOutFace =>
      AccessStrategy.afterRtoTimeout P s pitWeak fibWeak inFace firstOutFace
  | .doPropagate pitWeak fibWeak => NccStrategy.doPropagate P s pitWeak fibWeak input
  | .timeoutOnBestFace pitWeak => .ok (NccStrategy.timeoutOnBestFace s pitWeak)

end Strategy
end NfdPitless
