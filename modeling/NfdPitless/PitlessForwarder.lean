import NfdPitless.ForwarderScope
import NfdPitless.StrategyDispatch

/-! The pipelines of the PITless forwarder (`daemon/fw/pitless-forwarder.cpp`). There is no PIT: an Interest
that misses the content store goes to the first usable next hop of the FIB entry of its name, and a Data
is cached and goes to the first usable next hop of the FIB entry of its own name, which in transit is the
route back to the consumer's bridge; the name of the Interest it answers is its supporting name. The next
hops are part of the event, so a result about all runs is a result about all FIBs. A hit triggers the
strategy that is chosen for the name of the forwarder's own one, and without a PIT entry: the trigger sends
nothing, but NCC and access dereference the null pointer, and then the step fails. -/

namespace NfdPitless

/-- What passes the faces of a PITless forwarder. -/
inductive PitlessItem where
  | inInterest (face : Face) (interest : Interest)
  | outInterest (face : Face) (interest : Interest)
  | inData (face : Face) (data : Data)
  | outData (face : Face) (data : Data)
  deriving DecidableEq

structure PitlessState (κ : Type) where
  now : Nat
  /-- The id of a face, `none` for `INVALID_FACEID`. -/
  faceId : Face → Option Nat
  cs : κ
  strategyChoice : StrategyChoiceTable
  log : List PitlessItem

namespace PitlessState

variable {κ : Type}

def new (faceId : Face → Option Nat) (cs : κ) : PitlessState κ :=
  { now := 0, faceId, cs, strategyChoice := ForwarderKind.pitless.constructed, log := [] }

def logged (s : PitlessState κ) (item : PitlessItem) : PitlessState κ := { s with log := s.log ++ [item] }

/-- The initial state of the runs on fixed packets: faces are valid, and the content store is empty. -/
def sample : PitlessState (Cs Unit) := new some ⟨[], ()⟩

end PitlessState

namespace PitlessForwarder

open Forwarder (isViolatingLocalhost)

variable {κ : Type} (P : Platform κ)

/-- The pipeline that is inherited from the base forwarder. -/
def onOutgoingData (s : PitlessState κ) (data : Data) (outFace : Face) : PitlessState κ :=
  if (s.faceId outFace).isNone then s
  else if isViolatingLocalhost P outFace data.name then s
  else s.logged (.outData outFace data)

def onOutgoingInterestPITless (s : PitlessState κ) (interest : Interest) (outFace : Face) : PitlessState κ :=
  if (s.faceId outFace).isNone then s else s.logged (.outInterest outFace interest)

/-- `predicate_canForwardTo_NextHop`: the ids are compared, not the faces. -/
def canForwardToNextHop (s : PitlessState κ) (inFace nexthop : Face) : Bool :=
  s.faceId inFace != s.faceId nexthop

/-- The PITless best route strategy. -/
def afterReceiveInterestPITless (s : PitlessState κ) (inFace : Face) (interest : Interest)
    (nexthops : List Face) : PitlessState κ :=
  match nexthops.find? (canForwardToNextHop s inFace) with
  | none => s
  | some outFace => onOutgoingInterestPITless s interest outFace

def onContentStoreMiss (s : PitlessState κ) (inFace : Face) (interest : Interest) (nexthops : List Face) :
    PitlessState κ :=
  afterReceiveInterestPITless s inFace interest nexthops

/-- `beforeSatisfyInterest` through `dispatchToPITlessStrategy`; `none` when it dereferences the PIT entry. -/
def beforeSatisfyInterest (s : PitlessState κ) : Option Unit :=
  (ForwarderKind.pitless.triggeredOnHit s.strategyChoice).bind fun strategy => strategy.beforeSatisfyInterest none

def onContentStoreHit (s : PitlessState κ) (inFace : Face) (data : Data) : Option (PitlessState κ) :=
  (beforeSatisfyInterest s).map fun _ => onOutgoingData P s data inFace

/-- `nexthops` are those of the FIB entry of the Interest's name. -/
def onIncomingInterest (s : PitlessState κ) (inFace : Face) (interest : Interest) (nexthops : List Face) :
    Option (PitlessState κ) :=
  let s := s.logged (.inInterest inFace interest)
  if isViolatingLocalhost P inFace interest.name then some s
  else
    let found := P.store.find s.cs s.now interest
    let s := { s with cs := found.1 }
    match found.2 with
    | some data => onContentStoreHit P s inFace data
    | none => some (onContentStoreMiss s inFace interest nexthops)

/-- `nexthops` are those of the FIB entry of the Data's name. -/
def onIncomingData (s : PitlessState κ) (inFace : Face) (data : Data) (nexthops : List Face) :
    PitlessState κ :=
  let s := s.logged (.inData inFace data)
  if isViolatingLocalhost P inFace data.supportingName then s
  else
    let s := { s with cs := P.store.insert s.cs s.now data false }
    match nexthops.find? (canForwardToNextHop s inFace) with
    | none => s
    | some outFace => if outFace = inFace then s else onOutgoingData P s data outFace

inductive Event where
  | incomingInterest (inFace : Face) (interest : Interest) (nexthops : List Face)
  | incomingData (inFace : Face) (data : Data) (nexthops : List Face)
  | contentStoreTimer (key : Name)
  | strategyChoice (op : StrategyChoiceTable.Op)
  | setFaceId (face : Face) (id : Option Nat)
  | advanceClock (duration : Nat)

/-- One step of the PITless forwarder. It fails when a trigger dereferences a null pointer, and with an operation
of the StrategyChoice table. -/
def step (s : PitlessState κ) : Event → Option (PitlessState κ)
  | .incomingInterest inFace interest nexthops => onIncomingInterest P s inFace interest nexthops
  | .incomingData inFace data nexthops => some (onIncomingData P s inFace data nexthops)
  | .contentStoreTimer key => some { s with cs := P.store.timer s.cs s.now key }
  | .strategyChoice op => (s.strategyChoice.step op).map fun strategyChoice => { s with strategyChoice }
  | .setFaceId face id => some { s with faceId := Function.update s.faceId face id }
  | .advanceClock duration => some { s with now := s.now + duration }

variable {P} {s s' : PitlessState κ}

/-- The state in which an Interest has been looked up. -/
def lookedUp (P : Platform κ) (s : PitlessState κ) (inFace : Face) (interest : Interest) : PitlessState κ :=
  { s.logged (.inInterest inFace interest) with cs := (P.store.find s.cs s.now interest).1 }

/-- What an incoming Interest leads to. -/
theorem onIncomingInterest_eq (s : PitlessState κ) (inFace : Face) (interest : Interest) (nexthops : List Face) :
    onIncomingInterest P s inFace interest nexthops =
      if isViolatingLocalhost P inFace interest.name then some (s.logged (.inInterest inFace interest))
      else
        match (P.store.find s.cs s.now interest).2 with
        | some data => onContentStoreHit P (lookedUp P s inFace interest) inFace data
        | none => some (onContentStoreMiss (lookedUp P s inFace interest) inFace interest nexthops) :=
  rfl

/-- It is dropped, answered from the content store or forwarded. -/
theorem onIncomingInterest_cases {inFace : Face} {interest : Interest} {nexthops : List Face}
    (h : onIncomingInterest P s inFace interest nexthops = some s') :
    (isViolatingLocalhost P inFace interest.name = true ∧ s' = s.logged (.inInterest inFace interest)) ∨
      isViolatingLocalhost P inFace interest.name = false ∧
        ((∃ data, (P.store.find s.cs s.now interest).2 = some data ∧
            s' = onOutgoingData P (lookedUp P s inFace interest) data inFace) ∨
          (P.store.find s.cs s.now interest).2 = none ∧
            s' = onContentStoreMiss (lookedUp P s inFace interest) inFace interest nexthops) := by
  rw [onIncomingInterest_eq] at h
  cases hscope : isViolatingLocalhost P inFace interest.name with
  | true =>
      rw [hscope, if_pos rfl] at h
      exact Or.inl ⟨rfl, (Option.some.inj h).symm⟩
  | false =>
      rw [hscope, if_neg Bool.false_ne_true] at h
      refine Or.inr ⟨rfl, ?_⟩
      cases hfind : (P.store.find s.cs s.now interest).2 with
      | some data =>
          rw [hfind] at h
          obtain ⟨-, -, rfl⟩ := Option.map_eq_some_iff.mp h
          exact Or.inl ⟨data, rfl, rfl⟩
      | none =>
          rw [hfind] at h
          exact Or.inr ⟨rfl, (Option.some.inj h).symm⟩

end PitlessForwarder
end NfdPitless
