import NfdPitless.FibUpdater
import NfdPitless.Runs

/-! The RIB and the FIB it keeps up to date (`rib/rib.cpp`). Updates wait in a queue of batches. The
batch at the front is sent to the FIB, and after all its FIB updates have succeeded it is applied to
the RIB; meanwhile further updates may be queued, and a face may be destroyed. -/

namespace NfdPitless

/-- The cost of each nexthop. -/
abbrev NextHops := Name → FaceId → Option Nat

namespace NextHops

def applyUpdate (fib : NextHops) (update : FibUpdate) : NextHops := fun name faceId =>
  if (name, faceId) = update.key then
    match update.action with
    | .addNextHop => some update.cost
    | .removeNextHop => none
  else fib name faceId

/-- The updates of the batch's face go first. -/
def applyUpdates (fib : NextHops) (u : FibUpdater) : NextHops :=
  (u.updatesForBatchFaceId ++ u.updatesForNonBatchFaceId).foldl applyUpdate fib

def removeFace (fib : NextHops) (faceId : FaceId) : NextHops := fun name f => if f = faceId then none else fib name f

end NextHops

namespace Rib

def modifyInheritedRoute (rib : Rib) (update : RibUpdate) : Option Rib :=
  match rib.entries update.name with
  | none => none
  | some entry =>
      match update.action with
      | .register => some (rib.modifyEntry update.name fun _ => entry.addInheritedRoute update.route)
      | .unregister => (entry.removeInheritedRoute update.route).map fun e => rib.modifyEntry update.name fun _ => e
      | .removeFace => some rib

def modifyInheritedRoutes (rib : Rib) (inheritedRoutes : List RibUpdate) : Option Rib :=
  inheritedRoutes.foldlM modifyInheritedRoute rib

/-- The routes an update registers or erases. -/
def applyUpdate (rib : Rib) (update : RibUpdate) : Option Rib :=
  match update.action with
  | .register => rib.insert update.name update.route
  | .unregister => rib.erase update.name update.route
  | .removeFace => rib.erase update.name update.route

def onFibUpdateSuccess (rib : Rib) (update : RibUpdate) (inheritedRoutes : List RibUpdate) : Option Rib :=
  (rib.applyUpdate update).bind fun rib => rib.modifyInheritedRoutes inheritedRoutes

end Rib

structure RibState where
  rib : Rib
  fib : NextHops
  updateBatches : List RibUpdate
  /-- The batch in progress with the records of inherited routes computed for it. -/
  inProgress : Option (RibUpdate × List RibUpdate)

namespace RibState

inductive Event where
  | beginApplyUpdate (update : RibUpdate)
  | beginRemoveFace (faceId : FaceId)
  | sendBatchFromQueue
  | onFibUpdateSuccess

def init : RibState := { rib := .empty, fib := fun _ _ => none, updateBatches := [], inProgress := none }

/-- The removal of every route of a destroyed face. -/
def removalsOfFace (rib : Rib) (faceId : FaceId) : List RibUpdate :=
  (rib.findRoutesWithFaceId faceId).map fun nameAndRoute => ⟨.removeFace, nameAndRoute.1, nameAndRoute.2⟩

def beginRemoveFace (s : RibState) (faceId : FaceId) : RibState :=
  { s with fib := s.fib.removeFace faceId, updateBatches := s.updateBatches ++ removalsOfFace s.rib faceId }

/-- One update is in progress at a time. -/
def sendBatchFromQueue (nthElement : NthElement) (s : RibState) : Option RibState :=
  match s.inProgress, s.updateBatches with
  | none, update :: updateBatches =>
      (FibUpdater.computeUpdates nthElement s.rib (.new update.route.faceId) update).map fun u =>
        { s with fib := s.fib.applyUpdates u, updateBatches, inProgress := some (update, u.inheritedRoutes) }
  | _, _ => none

def onFibUpdateSuccess (s : RibState) : Option RibState :=
  match s.inProgress with
  | none => none
  | some (update, inheritedRoutes) =>
      (s.rib.onFibUpdateSuccess update inheritedRoutes).map fun rib => { s with rib, inProgress := none }

/-- Callers of `beginApplyUpdate` register and unregister. -/
def step (nthElement : NthElement) (s : RibState) : Event → Option RibState
  | .beginApplyUpdate update =>
      if update.action = .removeFace then none else some { s with updateBatches := s.updateBatches ++ [update] }
  | .beginRemoveFace faceId => some (s.beginRemoveFace faceId)
  | .sendBatchFromQueue => s.sendBatchFromQueue nthElement
  | .onFibUpdateSuccess => s.onFibUpdateSuccess

/-- Nothing is queued or in progress. -/
def Idle (s : RibState) : Prop := s.updateBatches = [] ∧ s.inProgress = none

end RibState
end NfdPitless
