import NfdPitless.Rib

/-! The FIB updates of a change of the RIB (`rib/fib-updater.cpp`). They are computed before the RIB
changes: the entry's own nexthop, what its descendants inherit, and the records of inherited routes the
RIB keeps. A null pointer that is followed is `none`. -/

namespace NfdPitless

inductive RibUpdate.Action where
  | register
  | unregister
  | removeFace
  deriving DecidableEq

/-- A batch has exactly one update, so the update stands for it. -/
structure RibUpdate where
  action : RibUpdate.Action
  name : Name
  route : Route
  deriving DecidableEq

inductive FibUpdate.Action where
  | addNextHop
  | removeNextHop
  deriving DecidableEq

structure FibUpdate where
  name : Name
  faceId : FaceId
  cost : Nat
  action : FibUpdate.Action
  deriving DecidableEq

namespace FibUpdate

def createAddUpdate (name : Name) (faceId : FaceId) (cost : Nat) : FibUpdate := ⟨name, faceId, cost, .addNextHop⟩

def createRemoveUpdate (name : Name) (faceId : FaceId) : FibUpdate := ⟨name, faceId, 0, .removeNextHop⟩

/-- What an update is replaced by. -/
def key (update : FibUpdate) : Name × FaceId := (update.name, update.faceId)

end FibUpdate

/-- No route is cheaper than no route. -/
def Route.costsAtMost (route : Route) (other : Option Route) : Bool := other.all fun o => route.cost ≤ o.cost

/-- Each list has at most one update of a name and a face. -/
structure FibUpdater where
  batchFaceId : FaceId
  inheritedRoutes : List RibUpdate
  updatesForBatchFaceId : List FibUpdate
  updatesForNonBatchFaceId : List FibUpdate
  nodup_batch : (updatesForBatchFaceId.map FibUpdate.key).Nodup
  nodup_nonBatch : (updatesForNonBatchFaceId.map FibUpdate.key).Nodup
  face_batch : ∀ update ∈ updatesForBatchFaceId, update.faceId = batchFaceId
  face_nonBatch : ∀ update ∈ updatesForNonBatchFaceId, update.faceId ≠ batchFaceId

namespace FibUpdater

def new (batchFaceId : FaceId) : FibUpdater :=
  { batchFaceId, inheritedRoutes := [], updatesForBatchFaceId := [], updatesForNonBatchFaceId := []
    nodup_batch := List.nodup_nil
    nodup_nonBatch := List.nodup_nil
    face_batch := fun _ h => absurd h List.not_mem_nil
    face_nonBatch := fun _ h => absurd h List.not_mem_nil }

/-- An update with the same name and face is replaced where it stands. -/
def addToUpdates (update : FibUpdate) (updates : List FibUpdate) : List FibUpdate :=
  Lists.replaceOrAppend (fun other => decide (other.key = update.key)) update updates

def addFibUpdate (u : FibUpdater) (update : FibUpdate) : FibUpdater :=
  if h : update.faceId = u.batchFaceId then
    { u with
      updatesForBatchFaceId := addToUpdates update u.updatesForBatchFaceId
      nodup_batch := Lists.nodup_replaceOrAppend FibUpdate.key u.nodup_batch
      face_batch := fun x hx => (Lists.mem_of_replaceOrAppend hx).elim (fun e => e ▸ h) (u.face_batch x) }
  else
    { u with
      updatesForNonBatchFaceId := addToUpdates update u.updatesForNonBatchFaceId
      nodup_nonBatch := Lists.nodup_replaceOrAppend FibUpdate.key u.nodup_nonBatch
      face_nonBatch := fun x hx => (Lists.mem_of_replaceOrAppend hx).elim (fun e => e ▸ h) (u.face_nonBatch x) }

/-- Forget the updates of the batch's face. -/
def clearUpdatesForBatchFaceId (u : FibUpdater) : FibUpdater :=
  { u with
    updatesForBatchFaceId := []
    nodup_batch := List.nodup_nil
    face_batch := fun _ h => absurd h List.not_mem_nil }

def addInheritedRoute (u : FibUpdater) (name : Name) (route : Route) : FibUpdater :=
  { u with inheritedRoutes := u.inheritedRoutes ++ [⟨.register, name, route⟩] }

def removeInheritedRoute (u : FibUpdater) (name : Name) (route : Route) : FibUpdater :=
  { u with inheritedRoutes := u.inheritedRoutes ++ [⟨.unregister, name, route⟩] }

/-- Hand an inherited route to a name: the record and the nexthop. -/
def inherit (name : Name) (u : FibUpdater) (route : Route) : FibUpdater :=
  (u.addInheritedRoute name route).addFibUpdate (.createAddUpdate name route.faceId route.cost)

/-- Take an inherited route from a name: the record and the nexthop. -/
def disinherit (name : Name) (u : FibUpdater) (route : Route) : FibUpdater :=
  (u.removeInheritedRoute name route).addFibUpdate (.createRemoveUpdate name route.faceId)

/-- An ancestor's route does not override a route of the entry. -/
def addInheritedRoutes (u : FibUpdater) (entry : RibEntry) (routesToAdd : RouteSet) : FibUpdater :=
  routesToAdd.routes.foldl (fun u route =>
    if !entry.hasFaceId route.faceId then inherit entry.name u route else u) u

/-- `addInheritedRoutes` of a name that has no entry yet. -/
def addInheritedRoutesOfName (u : FibUpdater) (name : Name) (routesToAdd : RouteSet) (ignore : Route) :
    FibUpdater :=
  routesToAdd.routes.foldl (fun u route =>
    if route.faceId != ignore.faceId then inherit name u route else u) u

def removeInheritedRoutes (u : FibUpdater) (entry : RibEntry) (routesToRemove : RouteSet) : FibUpdater :=
  routesToRemove.routes.foldl (fun u route =>
    if entry.hasInheritedRoute route.faceId then disinherit entry.name u route else u) u

/-- The recursion is on `fuel`, of which the depth of the tree is enough. A face the entry hands down
itself is dropped from both sets; the two loops are those of `removeInheritedRoutes` and
`addInheritedRoutes`. -/
def traverseSubTree (rib : Rib) : Nat → FibUpdater → Name → RouteSet → RouteSet → FibUpdater
  | 0, u, _, _, _ => u
  | fuel + 1, u, name, routesToAdd, routesToRemove =>
      match rib.entries name with
      | none => u
      | some entry =>
          if entry.hasCapture then u
          else
            let routesToRemove := routesToRemove.filter fun f => !entry.hasChildInheritOnFaceId f
            let u := u.removeInheritedRoutes entry routesToRemove
            let routesToAdd := routesToAdd.filter fun f => !entry.hasChildInheritOnFaceId f
            let u := u.addInheritedRoutes entry routesToAdd
            entry.children.foldl (fun u child => traverseSubTree rib fuel u child routesToAdd routesToRemove) u

end FibUpdater

/-- One more than the length of the longest name. -/
def Rib.depth (rib : Rib) : Nat := (rib.names.map List.length).foldl max 0 + 1

namespace FibUpdater

def modifyChildrensInheritedRoutes (rib : Rib) (u : FibUpdater) (children : List Name)
    (routesToAdd routesToRemove : RouteSet) : FibUpdater :=
  children.foldl (fun u child => traverseSubTree rib rib.depth u child routesToAdd routesToRemove) u

def createFibUpdatesForNewRibEntry (rib : Rib) (u : FibUpdater) (name : Name) (route : Route)
    (children : List Name) : FibUpdater :=
  let u := u.addFibUpdate (.createAddUpdate name route.faceId route.cost)
  let ancestorRoutes := rib.getAncestorRoutesOfName name
  if !route.isChildInherit && !route.isCapture then u.addInheritedRoutesOfName name ancestorRoutes route
  else if route.isChildInherit && route.isCapture then
    modifyChildrensInheritedRoutes rib u children (.singleton route) ancestorRoutes
  else if route.isChildInherit then
    let u := u.addInheritedRoutesOfName name ancestorRoutes route
    -- the new route stands in for the ancestor's route on its face
    modifyChildrensInheritedRoutes rib u children ((ancestorRoutes.erase route.faceId).insert route) .empty
  else modifyChildrensInheritedRoutes rib u children .empty ancestorRoutes

def createFibUpdatesForNewRoute (rib : Rib) (u : FibUpdater) (entry : RibEntry) (route : Route)
    (captureWasTurnedOn : Bool) : FibUpdater :=
  let prevRoute := entry.getRouteWithLowestCostAndChildInheritByFaceId route.faceId
  let routesToAdd :=
    if route.isChildInherit && route.costsAtMost prevRoute then RouteSet.singleton route else .empty
  let routesToRemove := if captureWasTurnedOn then rib.getAncestorRoutes entry else .empty
  let u := u.removeInheritedRoutes entry routesToRemove
  let u := modifyChildrensInheritedRoutes rib u entry.children routesToAdd routesToRemove
  if route.costsAtMost (entry.getRouteWithLowestCostByFaceId route.faceId) then
    u.addFibUpdate (.createAddUpdate entry.name route.faceId route.cost)
  else u

/-- The entry's own nexthop when the cost changes. -/
def updateOwnNextHop (u : FibUpdater) (entry : RibEntry) (route existingRoute : Route) : Option FibUpdater :=
  match entry.getRouteWithLowestCostByFaceId route.faceId with
  | none => none
  | some lowest =>
      if route.cost ≤ lowest.cost then
        some (u.addFibUpdate (.createAddUpdate entry.name route.faceId route.cost))
      else if existingRoute.cost < lowest.cost then
        (entry.getRouteWithLowestCostAndChildInheritByFaceId route.faceId).map fun prevRoute =>
          u.addFibUpdate (.createAddUpdate entry.name prevRoute.faceId prevRoute.cost)
      else some u

/-- The descendants when CHILD_INHERIT is turned on or off. -/
def updateChildInherit (rib : Rib) (u : FibUpdater) (entry : RibEntry) (route existingRoute : Route) :
    FibUpdater :=
  let prevRoute := entry.getRouteWithLowestCostAndChildInheritByFaceId route.faceId
  if !existingRoute.isChildInherit && route.isChildInherit then
    if route.costsAtMost prevRoute then
      modifyChildrensInheritedRoutes rib u entry.children (.singleton route) .empty
    else u
  else if existingRoute.isChildInherit && !route.isChildInherit then
    -- without another route that is handed down, look for an ancestor that was blocked
    let routesToAdd :=
      match prevRoute with
      | some prev => RouteSet.singleton prev
      | none => ((rib.getAncestorRoutes entry).find route.faceId).elim .empty .singleton
    modifyChildrensInheritedRoutes rib u entry.children routesToAdd (.singleton route)
  else u

/-- The entry and the descendants when CAPTURE is turned on or off. -/
def updateCapture (rib : Rib) (u : FibUpdater) (entry : RibEntry) (route existingRoute : Route) : FibUpdater :=
  let ancestorRoutes := rib.getAncestorRoutes entry
  if !existingRoute.isCapture && route.isCapture then
    let u := u.removeInheritedRoutes entry ancestorRoutes
    modifyChildrensInheritedRoutes rib u entry.children .empty ancestorRoutes
  else if existingRoute.isCapture && !route.isCapture then
    let u := u.addInheritedRoutes entry ancestorRoutes
    modifyChildrensInheritedRoutes rib u entry.children ancestorRoutes .empty
  else u

/-- `entry` has the route updated; only its fields differ from the entry in the RIB, the capture
counter does not. -/
def createFibUpdatesForUpdatedRoute (rib : Rib) (u : FibUpdater) (entry : RibEntry)
    (route existingRoute : Route) : Option FibUpdater :=
  let costDidChange := route.cost != existingRoute.cost
  let prevRoute := entry.getRouteWithLowestCostAndChildInheritByFaceId route.faceId
  if route.flags = existingRoute.flags ∧ ¬ costDidChange then some u
  else
    (if costDidChange then u.updateOwnNextHop entry route existingRoute else some u).map fun u =>
      if costDidChange ∧ route.costsAtMost prevRoute ∧ route.flags = existingRoute.flags ∧
          route.isChildInherit then
        modifyChildrensInheritedRoutes rib u entry.children (.singleton route) .empty
      else
        let u := updateChildInherit rib u entry route existingRoute
        updateCapture rib u entry route existingRoute

/-- `entry` has the route erased. -/
def createFibUpdatesForErasedRoute (rib : Rib) (u : FibUpdater) (entry : RibEntry) (route : Route)
    (captureWasTurnedOff : Bool) : FibUpdater :=
  let u := u.addFibUpdate (.createRemoveUpdate entry.name route.faceId)
  let ancestorRoutes := rib.getAncestorRoutes entry
  let u :=
    if route.isChildInherit && route.isCapture then
      let routesToAdd := if captureWasTurnedOff then ancestorRoutes else .empty
      let u := u.addInheritedRoutes entry routesToAdd
      modifyChildrensInheritedRoutes rib u entry.children routesToAdd (.singleton route)
    else if route.isChildInherit then
      let routesToAdd := if !entry.hasCapture then ancestorRoutes else .empty
      modifyChildrensInheritedRoutes rib u entry.children routesToAdd (.singleton route)
    else if route.isCapture then
      let routesToAdd := if captureWasTurnedOff then ancestorRoutes else .empty
      let u := u.addInheritedRoutes entry routesToAdd
      modifyChildrensInheritedRoutes rib u entry.children routesToAdd .empty
    else u
  -- the erased route may have blocked an inherited one
  if !entry.hasCapture && entry.getNRoutes != 0 then
    (ancestorRoutes.find route.faceId).elim u (inherit entry.name u)
  else u

def createFibUpdatesForErasedRibEntry (u : FibUpdater) (entry : RibEntry) : FibUpdater :=
  entry.inheritedRoutes.foldl (fun u route =>
    u.addFibUpdate (.createRemoveUpdate entry.name route.faceId)) u

def computeUpdatesForRegistration (rib : Rib) (u : FibUpdater) (name : Name) (route : Route) :
    Option FibUpdater :=
  match rib.entries name with
  | some entry =>
      match entry.findRoute route with
      | none => some (createFibUpdatesForNewRoute rib u entry route (!entry.hasCapture && route.isCapture))
      | some existingRoute =>
          createFibUpdatesForUpdatedRoute rib u (entry.updateRoute route) route existingRoute
  | none =>
      let parent := rib.findParent name
      let children := (rib.findDescendantsForNonInsertedName name).filter fun descendant =>
        (rib.entries descendant).bind RibEntry.parent == parent
      some (createFibUpdatesForNewRibEntry rib u name route children)

def computeUpdatesForUnregistration (nthElement : NthElement) (rib : Rib) (u : FibUpdater) (name : Name)
    (route : Route) : FibUpdater :=
  match rib.entries name with
  | none => u
  | some entry =>
      match entry.findRoute route with
      | none => u
      | some existing =>
          let temp := entry.eraseRoute route
          let u := createFibUpdatesForErasedRoute rib u temp existing (entry.hasCapture && !temp.hasCapture)
          let u := (entry.getRouteWithSecondLowestCostByFaceId nthElement route.faceId).elim u fun next =>
            createFibUpdatesForNewRoute rib u temp next false
          if entry.getNRoutes = 1 then u.createFibUpdatesForErasedRibEntry entry else u

def computeUpdates (nthElement : NthElement) (rib : Rib) (u : FibUpdater) (update : RibUpdate) : Option FibUpdater :=
  match update.action with
  | .register => computeUpdatesForRegistration rib u update.name update.route
  | .unregister => some (computeUpdatesForUnregistration nthElement rib u update.name update.route)
  | .removeFace =>
      -- the FIB has no nexthops of the destroyed face and refuses new ones
      some (computeUpdatesForUnregistration nthElement rib u update.name update.route).clearUpdatesForBatchFaceId

end FibUpdater
end NfdPitless
