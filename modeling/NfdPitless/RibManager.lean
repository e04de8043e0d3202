import NfdPitless.FibCommands
import NfdPitless.RibSteps

/-! The RIB manager with its timers and the batches it has sent (`rib/rib-manager.cpp`, `rib/rib.cpp`). A batch is taken
from the queue when no other one is in progress; its FIB updates are computed and sent as commands, which the FIB
answers in any order, also after the batch has failed. A failed assertion, or an exception that nothing catches, is
`none`. -/

namespace NfdPitless

abbrev EventId := Nat

/-- A scheduled call of `onRouteExpiration`. -/
structure Expiration where
  event : EventId
  time : Nat
  name : Name
  route : Route
  deriving DecidableEq

structure Scheduler where
  now : Nat
  pending : List Expiration
  nextEvent : EventId

namespace Scheduler

def empty : Scheduler := { now := 0, pending := [], nextEvent := 0 }

def schedule (scheduler : Scheduler) (delay : Nat) (name : Name) (route : Route) : Scheduler :=
  { scheduler with
    pending := scheduler.pending ++ [⟨scheduler.nextEvent, scheduler.now + delay, name, route⟩]
    nextEvent := scheduler.nextEvent + 1 }

/-- No event, or one that is not pending, is nothing to cancel. -/
def cancel (scheduler : Scheduler) : Option EventId → Scheduler
  | none => scheduler
  | some event => { scheduler with pending := scheduler.pending.filter fun e => e.event != event }

def isPending (scheduler : Scheduler) (event : EventId) : Bool := scheduler.pending.any fun e => e.event == event

end Scheduler

/-- The fields of a route that the timers use. -/
structure RouteTimes where
  /-- `none` is `TimePoint::max`. -/
  expires : Option Nat
  expirationEvent : Option EventId
  deriving DecidableEq

/-- A batch with the times of the route of its one update. -/
structure QueuedBatch where
  update : RibUpdate
  times : RouteTimes
  /-- The manager is told of the outcome: not of expirations and removed faces. -/
  hasCallbacks : Bool
  deriving DecidableEq

structure TimedRib where
  rib : Rib
  /-- The times of the stored routes. -/
  times : Name → FaceId × Nat → Option RouteTimes
  scheduler : Scheduler

namespace TimedRib

def empty : TimedRib := { rib := .empty, times := fun _ _ => none, scheduler := .empty }

def timesOf (t : TimedRib) (name : Name) (route : Route) : Option RouteTimes := t.times name route.key

def setTimes (t : TimedRib) (name : Name) (route : Route) (times : Option RouteTimes) : TimedRib :=
  { t with times := Function.update t.times name (Function.update (t.times name) route.key times) }

def expirationEventOf (t : TimedRib) (name : Name) (route : Route) : Option EventId :=
  (t.timesOf name route).bind RouteTimes.expirationEvent

/-- Cancel the event of a stored route. -/
def cancelExpirationOf (t : TimedRib) (name : Name) (route : Route) : TimedRib :=
  { t with scheduler := t.scheduler.cancel (t.expirationEventOf name route) }

/-- The event of a route that is registered again is cancelled. -/
def insert (t : TimedRib) (name : Name) (route : Route) (times : RouteTimes) : Option TimedRib :=
  (t.rib.insert name route).map fun rib => { (t.cancelExpirationOf name route).setTimes name route times with rib }

def erase (t : TimedRib) (name : Name) (route : Route) : Option TimedRib :=
  (t.rib.erase name route).map fun rib => { (t.cancelExpirationOf name route).setTimes name route none with rib }

def applyUpdate (t : TimedRib) (batch : QueuedBatch) : Option TimedRib :=
  match batch.update.action with
  | .register => t.insert batch.update.name batch.update.route batch.times
  | .unregister => t.erase batch.update.name batch.update.route
  | .removeFace => t.erase batch.update.name batch.update.route

def onFibUpdateSuccess (t : TimedRib) (batch : QueuedBatch) (inheritedRoutes : List RibUpdate) : Option TimedRib :=
  (t.applyUpdate batch).bind fun t =>
    (t.rib.modifyInheritedRoutes inheritedRoutes).map fun rib => { t with rib }

/-- The updates of a removal are computed with a copy of the entry. The route is erased from the copy, which cancels
its event, and the event is the one of the route itself. -/
def computeUpdates (nthElement : NthElement) (t : TimedRib) (update : RibUpdate) : Option (FibUpdater × TimedRib) :=
  (FibUpdater.computeUpdates nthElement t.rib (.new update.route.faceId) update).map fun fibUpdater =>
    match update.action with
    | .register => (fibUpdater, t)
    | .unregister => (fibUpdater, t.cancelExpirationOf update.name update.route)
    | .removeFace => (fibUpdater, t.cancelExpirationOf update.name update.route)

end TimedRib

/-- A batch that has been sent, with its commands that the FIB has not answered. They hold its callbacks. -/
structure SentBatch where
  batch : QueuedBatch
  commands : List Command

structure RibManager where
  timedRib : TimedRib
  updateBatches : List QueuedBatch
  isUpdateInProgress : Bool
  fibUpdater : FibUpdater
  /-- The one sent last is the first. -/
  sentBatches : List SentBatch
  registeredFaces : List FaceId
  /-- The scheduled calls of `onFaceDestroyedEvent`. -/
  destroyedFaces : List FaceId

namespace RibManager

def init : RibManager :=
  { timedRib := .empty, updateBatches := [], isUpdateInProgress := false, fibUpdater := .new 0, sentBatches := []
    registeredFaces := [], destroyedFaces := [] }

/-- The callback of the `i`-th batch. -/
def onFibUpdateSuccess (s : RibManager) (i : Nat) (inheritedRoutes : List RibUpdate) : Option RibManager :=
  (s.sentBatches[i]?).bind fun sent =>
    (s.timedRib.onFibUpdateSuccess sent.batch inheritedRoutes).map fun timedRib =>
      { s with timedRib, isUpdateInProgress := false }

def onFibUpdateFailure (s : RibManager) : RibManager := { s with isUpdateInProgress := false }

def invoke (s : RibManager) (i : Nat) : Callback → Option RibManager
  | .onSuccess inheritedRoutes => s.onFibUpdateSuccess i inheritedRoutes
  | .onFailure => some s.onFibUpdateFailure

/-- Commands of the `i`-th batch are in flight. -/
def modifyCommands (s : RibManager) (i : Nat) (f : List Command → List Command) : RibManager :=
  { s with sentBatches := s.sentBatches.modify i fun sent => { sent with commands := f sent.commands } }

/-- The updater sends commands for the `i`-th batch, or invokes one of its callbacks. -/
def carryOut (s : RibManager) (i : Nat) (reply : List Command × Option Callback) : Option RibManager :=
  let s := s.modifyCommands i fun commands => commands ++ reply.1
  reply.2.elim (some s) (s.invoke i)

/-- The batch at the front of the queue, the next in the order of all, is taken and its updates are computed. -/
def beginBatch (nthElement : NthElement) (s : RibManager) : Option (RibManager × Batch) :=
  match s.updateBatches with
  | [] => none
  | batch :: updateBatches =>
      if s.isUpdateInProgress then none
      else
        (s.timedRib.computeUpdates nthElement batch.update).map fun (fibUpdater, timedRib) =>
          ({ s with
              timedRib, updateBatches, isUpdateInProgress := true, fibUpdater
              sentBatches := ⟨batch, []⟩ :: s.sentBatches },
            ⟨s.sentBatches.length, batch.update⟩)

def sendBatchFromQueue (nthElement : NthElement) (s : RibManager) : Option RibManager :=
  (s.beginBatch nthElement).bind fun (s, batch) => s.carryOut 0 (s.fibUpdater.sendUpdatesForBatchFaceId batch)

/-- The `j`-th of the commands of the `i`-th batch is answered. -/
def onFibResponse (s : RibManager) (i j : Nat) (outcome : Outcome) : Option RibManager :=
  (s.sentBatches[i]?).bind fun sent => (sent.commands[j]?).bind fun command =>
    (s.fibUpdater.onResponse command outcome).bind fun (fibUpdater, reply) =>
      ({ s with fibUpdater }.modifyCommands i fun commands => commands.eraseIdx j).carryOut i reply

def addUpdateToQueue (s : RibManager) (batch : QueuedBatch) : RibManager :=
  { s with updateBatches := s.updateBatches ++ [batch] }

/-- The timer is started when the command arrives. -/
def registerEntry (s : RibManager) (name : Name) (route : Route) (expirationPeriod : Option Nat) : RibManager :=
  let s := { s with registeredFaces := s.registeredFaces.insert route.faceId }
  match expirationPeriod with
  | none => s.addUpdateToQueue ⟨⟨.register, name, route⟩, ⟨none, none⟩, true⟩
  | some period =>
      let scheduler := s.timedRib.scheduler
      { s with timedRib := { s.timedRib with scheduler := scheduler.schedule period name route } }.addUpdateToQueue
        ⟨⟨.register, name, route⟩, ⟨some (scheduler.now + period), some scheduler.nextEvent⟩, true⟩

def unregisterEntry (s : RibManager) (name : Name) (faceId : FaceId) (origin : Nat) : RibManager :=
  s.addUpdateToQueue ⟨⟨.unregister, name, { faceId, origin, flags := 0, cost := 0 }⟩, ⟨none, none⟩, true⟩

/-- A timer that is due. -/
def onRouteExpiration (s : RibManager) (event : EventId) : Option RibManager :=
  let scheduler := s.timedRib.scheduler
  (scheduler.pending.find? fun e => e.event == event).bind fun expiration =>
    if expiration.time ≤ scheduler.now then
      some ({ s with timedRib := { s.timedRib with scheduler := scheduler.cancel (some event) } }.addUpdateToQueue
        ⟨⟨.unregister, expiration.name, expiration.route⟩, ⟨some expiration.time, none⟩, false⟩)
    else none

/-- The face has been destroyed. -/
def onNotification (s : RibManager) (faceId : FaceId) : RibManager :=
  { s with destroyedFaces := s.destroyedFaces ++ [faceId] }

/-- The batches of `beginRemoveFace`. -/
def removalsOfFace (s : RibManager) (faceId : FaceId) : List QueuedBatch :=
  (s.timedRib.rib.findRoutesWithFaceId faceId).map fun nameAndRoute =>
    ⟨⟨.removeFace, nameAndRoute.1, nameAndRoute.2⟩,
      (s.timedRib.timesOf nameAndRoute.1 nameAndRoute.2).getD ⟨none, none⟩, false⟩

def onFaceDestroyedEvent (s : RibManager) (faceId : FaceId) : Option RibManager :=
  if faceId ∈ s.destroyedFaces then
    some { s with
      destroyedFaces := s.destroyedFaces.erase faceId
      updateBatches := s.updateBatches ++ s.removalsOfFace faceId
      registeredFaces := s.registeredFaces.filter fun f => f != faceId }
  else none

/-- Schedule the face events that have been missed. -/
def removeInvalidFaces (s : RibManager) (activeFaces : List FaceId) : RibManager :=
  { s with destroyedFaces := s.destroyedFaces ++ s.registeredFaces.filter fun f => f ∉ activeFaces }

def advance (s : RibManager) (elapsed : Nat) : RibManager :=
  { s with timedRib := { s.timedRib with scheduler :=
      { s.timedRib.scheduler with now := s.timedRib.scheduler.now + elapsed } } }

inductive Event where
  | registerEntry (name : Name) (route : Route) (expirationPeriod : Option Nat)
  | unregisterEntry (name : Name) (faceId : FaceId) (origin : Nat)
  | onFibResponse (i j : Nat) (outcome : Outcome)
  | advance (elapsed : Nat)
  | onRouteExpiration (event : EventId)
  | onNotification (faceId : FaceId)
  | onFaceDestroyedEvent (faceId : FaceId)
  | removeInvalidFaces (activeFaces : List FaceId)
  | sendBatchFromQueue

/-- What comes from outside. -/
def handle (s : RibManager) : Event → Option RibManager
  | .registerEntry name route expirationPeriod => some (s.registerEntry name route expirationPeriod)
  | .unregisterEntry name faceId origin => some (s.unregisterEntry name faceId origin)
  | .onFibResponse i j outcome => s.onFibResponse i j outcome
  | .advance elapsed => some (s.advance elapsed)
  | .onRouteExpiration event => s.onRouteExpiration event
  | .onNotification faceId => some (s.onNotification faceId)
  | .onFaceDestroyedEvent faceId => s.onFaceDestroyedEvent faceId
  | .removeInvalidFaces activeFaces => some (s.removeInvalidFaces activeFaces)
  | .sendBatchFromQueue => none

/-- The queue is advanced as far as it goes before the next event is handled. -/
def step (nthElement : NthElement) (s : RibManager) : Event → Option RibManager
  | .sendBatchFromQueue => s.sendBatchFromQueue nthElement
  | event => if s.isUpdateInProgress ∨ s.updateBatches = [] then s.handle event else none

end RibManager
end NfdPitless
