import NfdPitless.BuiltinStrategies
import NfdPitless.Outcomes
import NfdPitless.Runs

/-! The base forwarder with the built-in strategies (`fw/forwarder.cpp`): each pipeline asks the StrategyChoice table
(`table/strategy-choice.cpp`) for the effective strategy of the PIT entry, which acts through the pipelines for
outgoing and rejected Interests. The effective strategy of a name is the one of its longest prefix with an entry; the
FIB changes in any way between two steps. -/

namespace NfdPitless

open LongestPrefix

variable {κ : Type}

namespace StrategyChoice

/-- The names of the PIT entries that a walk below a StrategyChoice entry visits are those that it covers. -/
def clearCovered (s : StrategyState κ) (entryPrefix : Name) : StrategyState κ :=
  ((List.range s.base.pit.nextRef).filter fun r =>
    (s.entry r).any fun e => decide (Covers s.strategyChoice entryPrefix e.getName)).foldl
      StrategyState.clearStrategyInfo s

/-- `StrategyChoice::changeStrategy`. -/
def changeEffective (s : StrategyState κ) (entryPrefix : Name) (oldStrategy newStrategy : Strategy) : StrategyState κ :=
  if oldStrategy = newStrategy then s else clearCovered s entryPrefix

def setEntry (s : StrategyState κ) (entryPrefix : Name) (entry : Option Strategy) : StrategyState κ :=
  { s with strategyChoice := Function.update s.strategyChoice entryPrefix entry }

/-- `StrategyChoice::insert` of a strategy that is installed: the old strategy is that of the entry, or without one the
effective strategy. -/
def choose (s : StrategyState κ) (entryPrefix : Name) (strategy : Strategy) : StrategyOutcome κ :=
  match (s.strategyChoice entryPrefix).or (s.effectiveStrategy entryPrefix) with
  | none => .error .nameTreeEntry
  | some oldStrategy =>
      .ok (setEntry (changeEffective s entryPrefix oldStrategy strategy) entryPrefix (some strategy))

/-- `StrategyChoice::erase`. -/
def unchoose (s : StrategyState κ) (entryPrefix : Name) : StrategyOutcome κ :=
  if entryPrefix.length = 0 then .error .erasedPrefix
  else
    match s.strategyChoice entryPrefix with
    | none => .ok s
    | some oldStrategy =>
        match s.effectiveStrategy (entryPrefix.getPrefix (entryPrefix.length - 1)) with
        | none => .error .nameTreeEntry
        | some parentStrategy =>
            .ok (setEntry (changeEffective s entryPrefix oldStrategy parentStrategy) entryPrefix none)

end StrategyChoice

namespace StrategyForwarder

open Forwarder

variable (P : Platform κ)

/-- The effective strategy of a PIT entry is triggered. -/
def dispatchToStrategy (s : StrategyState κ) (r : Ref) (trigger : StrategyState κ → Strategy → StrategyOutcome κ) :
    StrategyOutcome κ :=
  match (s.entry r).bind fun e => s.effectiveStrategy e.getName with
  | none => .error .nameTreeEntry
  | some strategy => trigger s strategy

/-- The PIT entry is destroyed, and with it its `StrategyInfo`. -/
def onInterestFinalize (s : StrategyState κ) (r : Ref) (isSatisfied : Bool) (dataFreshnessPeriod : Int) :
    StrategyOutcome κ :=
  match Forwarder.onInterestFinalize P s.base r isSatisfied dataFreshnessPeriod with
  | none => .error .nameTreeEntry
  | some base => .ok { s.clearStrategyInfo r with base }

def onInterestUnsatisfied (s : StrategyState κ) (r : Ref) : StrategyOutcome κ :=
  (dispatchToStrategy s r fun s strategy => .ok (strategy.beforeExpirePendingInterest s r)).bind fun s =>
    onInterestFinalize P s r false (-1)

def onContentStoreMiss (s : StrategyState κ) (inFace : Face) (r : Ref) (interest : Interest) (fibEntry : Ref)
    (input : TriggerInput) : StrategyOutcome κ :=
  let base := s.base.modifyEntry r fun e => e.insertOrUpdateInRecord s.now inFace interest
  dispatchToStrategy { s with base := setUnsatisfyTimer base r } r fun s strategy =>
    strategy.afterReceiveInterest P s inFace fibEntry r input

def onContentStoreHit (s : StrategyState κ) (inFace : Face) (r : Ref) (data : Data) : StrategyOutcome κ :=
  (dispatchToStrategy s r fun s strategy => .ok (strategy.beforeSatisfyInterest s r)).map fun s =>
    { s with base := onOutgoingData P (setStragglerTimer s.base r true data.freshnessPeriod) data inFace }

/-- The pipeline after the PIT entry has been found or made. -/
def onPitEntry (s : StrategyState κ) (inFace : Face) (interest : Interest) (r : Ref) (e : PitEntry) (fibEntry : Ref)
    (input : TriggerInput) : StrategyOutcome κ :=
  -- Interest loop: drop
  if hasDuplicateNonce P s.base e inFace interest then .ok s
  else
    let s := { s with base := cancelUnsatisfyAndStragglerTimer s.base r }
    if e.inRecords = [] then
      let found := P.store.find s.base.cs s.now interest
      let s := { s with base := { s.base with cs := found.1 } }
      match found.2 with
      | some data => onContentStoreHit P s inFace r data
      | none => onContentStoreMiss P s inFace r interest fibEntry input
    else onContentStoreMiss P s inFace r interest fibEntry input

def onIncomingInterest (s : StrategyState κ) (inFace : Face) (interest : Interest) (fibEntry : Ref)
    (input : TriggerInput) : StrategyOutcome κ :=
  let s := { s with base := s.base.logged (.inInterest inFace interest) }
  if isViolatingLocalhost P inFace interest.name then .ok s
  else
    match s.base.pit.insert P.cityHash interest with
    | none => .error .nameTreeEntry
    | some (pit, r, _) =>
        match pit.entries r with
        | none => .error .nameTreeEntry
        | some e => onPitEntry P { s with base := { s.base with pit } } inFace interest r e fibEntry input

/-- One round of the loop over the PIT matches: satisfy an entry. -/
def satisfyEntry (inFace : Face) (data : Data) (s : StrategyState κ) (r : Ref) : StrategyOutcome κ :=
  (dispatchToStrategy { s with base := cancelUnsatisfyAndStragglerTimer s.base r } r fun s strategy =>
      .ok (strategy.beforeSatisfyInterest s r)).map fun s =>
    let base := insertDeadNonceList P s.base r true data.freshnessPeriod (some inFace)
    { s with base := setStragglerTimer (markSatisfied base r inFace) r true data.freshnessPeriod }

/-- The pending downstreams are collected entry by entry. -/
def satisfyRound (inFace : Face) (data : Data) (acc : StrategyState κ × List Face) (r : Ref) :
    Except Assertion (StrategyState κ × List Face) :=
  (satisfyEntry P inFace data acc.1 r).map fun s => (s, (pendingDownstreamsOf acc.1.base r).foldl insertFace acc.2)

def onIncomingData (s : StrategyState κ) (inFace : Face) (data : Data) : StrategyOutcome κ :=
  let s := { s with base := s.base.logged (.inData inFace data) }
  if isViolatingLocalhost P inFace data.name then .ok s
  else
    let pitMatches := s.base.pit.findAllDataMatches P.cityHash P.matchesData data
    if pitMatches = [] then .ok { s with base := onDataUnsolicited P s.base inFace data }
    else
      let s := { s with base := { s.base with cs := P.store.insert s.base.cs s.now data false } }
      (pitMatches.foldlM (satisfyRound P inFace data) (s, [])).map fun result =>
        { result.1 with base := sendToDownstreams P inFace data result.2 result.1.base }

/-- The FIB entry found for an Interest is part of the event, so nothing depends on the lookup. -/
inductive Event where
  | incomingInterest (inFace : Face) (interest : Interest) (fibEntry : Ref) (input : TriggerInput)
  | incomingData (inFace : Face) (data : Data)
  | unsatisfyTimer (r : Ref)
  | stragglerTimer (r : Ref)
  | strategyTimer (id : Nat) (input : TriggerInput)
  | insertStrategy (entryPrefix : Name) (strategy : Strategy)
  | eraseStrategy (entryPrefix : Name)
  | setFibEntry (fibEntry : Ref) (nexthops : Option (List Face))
  | setFace (id : Nat) (face : Option Face)
  | markDeadNonceList
  | adjustDeadNonceListCapacity
  | contentStoreTimer (key : Name)
  | setFaceId (face : Face) (id : Option Nat)
  | advanceClock (duration : Nat)

/-- A timer that is due fires and is no longer pending. -/
def fire (s : StrategyState κ) (id : Nat) (input : TriggerInput) : StrategyOutcome κ :=
  match s.timers.dueEvent s.now id with
  | none => .ok s
  | some event => Strategy.callback P (s.cancel (some id)) input event.callback

/-- One step of the forwarder; where a timer is not set or not due, nothing happens. -/
def step (s : StrategyState κ) : Event → StrategyOutcome κ
  | .incomingInterest inFace interest fibEntry input => onIncomingInterest P s inFace interest fibEntry input
  | .incomingData inFace data => onIncomingData P s inFace data
  | .unsatisfyTimer r =>
      match (s.entry r).bind PitEntry.unsatisfyTimer with
      | none => .ok s
      | some due => if due ≤ s.now then onInterestUnsatisfied P s r else .ok s
  | .stragglerTimer r =>
      match (s.entry r).bind PitEntry.stragglerTimer with
      | none => .ok s
      | some timer =>
          if timer.due ≤ s.now then onInterestFinalize P s r timer.isSatisfied timer.dataFreshnessPeriod else .ok s
  | .strategyTimer id input => fire P s id input
  | .insertStrategy entryPrefix strategy => StrategyChoice.choose s entryPrefix strategy
  | .eraseStrategy entryPrefix => StrategyChoice.unchoose s entryPrefix
  | .setFibEntry fibEntry nexthops => .ok { s with fib := Function.update s.fib fibEntry nexthops }
  | .setFace id face => .ok { s with faceTable := Function.update s.faceTable id face }
  | .markDeadNonceList => .ok { s with base := { s.base with deadNonceList := s.base.deadNonceList.mark } }
  | .adjustDeadNonceListCapacity =>
      .ok { s with base := { s.base with deadNonceList := s.base.deadNonceList.adjustCapacity } }
  | .contentStoreTimer key => .ok { s with base := { s.base with cs := P.store.timer s.base.cs s.now key } }
  | .setFaceId face id => .ok { s with base := { s.base with faceId := Function.update s.base.faceId face id } }
  | .advanceClock duration => .ok { s with base := { s.base with now := s.now + duration } }

/-- A step after which no assertion has failed. -/
def next (s : StrategyState κ) (event : Event) : Option (StrategyState κ) := (step P s event).toOption

/-- The forwarder with best-route version 2 for the root. -/
def new (nBuckets : Nat) (faceId : Face → Option Nat) (cs : κ) : StrategyState κ :=
  { base := .new nBuckets faceId cs
    faceTable := fun _ => none
    fib := fun _ => none
    strategyChoice := Function.update (fun _ => none) [] (some .bestRoute2)
    info := fun _ => .empty
    timers := .empty }

/-- What a trigger reads when there are no measurements and no local control header. -/
def noInput : TriggerInput :=
  { nextHopFaceId := none, mtInfo := none, measurementsInfo := ⟨none, none, 0⟩, random := 0 }

end StrategyForwarder
end NfdPitless
