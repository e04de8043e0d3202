import NfdPitless.Name
import NfdPitless.Lists
import Mathlib.Data.List.Sort

/-! The routing information base (`rib/rib.cpp`, `rib/rib-entry.cpp`, `rib/route.hpp`): routes under
name prefixes, each prefix with pointers to the closest shorter prefix that has routes and to the ones
it is the closest of. An entry is pointed to by its name. A failed assertion, or an iterator used past
the end, is `none`. -/

namespace NfdPitless

/-- A face as the RIB knows it. -/
abbrev FaceId := Nat

structure Route where
  faceId : FaceId
  origin : Nat
  flags : Nat
  cost : Nat
  deriving DecidableEq

namespace Route

/-- `ROUTE_FLAG_CHILD_INHERIT` is bit 0. -/
def isChildInherit (r : Route) : Bool := r.flags.testBit 0

/-- `ROUTE_FLAG_CAPTURE` is bit 1. -/
def isCapture (r : Route) : Bool := r.flags.testBit 1

def compareFaceIdAndOrigin (lhs rhs : Route) : Bool := lhs.faceId == rhs.faceId && lhs.origin == rhs.origin

/-- The first one of the lowest cost. -/
def lowestCost (routes : List Route) : Option Route :=
  routes.foldl (fun candidate route =>
    match candidate with
    | none => some route
    | some c => if route.cost < c.cost then some route else some c) none

/-- Those that can stand second when the routes are put in the order of the costs. -/
def secondLowest (routes : List Route) : List Route :=
  routes.filter fun r => ((routes.map cost).insertionSort (· ≤ ·))[1]? == some r.cost

theorem mem_secondLowest {routes : List Route} {r : Route} :
    r ∈ secondLowest routes ↔ r ∈ routes ∧ ((routes.map cost).insertionSort (· ≤ ·))[1]? = some r.cost := by
  rw [secondLowest, List.mem_filter, beq_iff_eq]

end Route

/-- `std::nth_element` by cost, up to the second element: which one of several routes of that cost is left there is up
to the library. -/
structure NthElement where
  second : List Route → Option Route
  mem : ∀ routes r, second routes = some r → r ∈ Route.secondLowest routes
  isSome : ∀ routes, 2 ≤ routes.length → (second routes).isSome = true

/-- Routes of one cost stay in their order. -/
def NthElement.stable : NthElement where
  second routes := (routes.insertionSort fun a b => a.cost ≤ b.cost)[1]?
  mem := fun routes r h => by
    have hcost : (routes.map Route.cost).insertionSort (· ≤ ·) =
        (routes.insertionSort fun a b => a.cost ≤ b.cost).map Route.cost :=
      (List.map_insertionSort _ _ Route.cost routes fun _ _ _ _ => Iff.rfl).symm
    refine Route.mem_secondLowest.mpr ⟨(List.mem_insertionSort _).mp (List.mem_of_getElem? h), ?_⟩
    rw [hcost, List.getElem?_map, h]
    rfl
  isSome := fun routes h => by
    rw [List.getElem?_eq_getElem (by rw [List.length_insertionSort]; exact h)]
    rfl

/-- `std::set<Route, sortRoutes>`: at most one route of a face, in the order of the faces. -/
structure RouteSet where
  routes : List Route
  sorted : routes.Pairwise fun a b => a.faceId < b.faceId

namespace RouteSet

def empty : RouteSet := ⟨[], List.Pairwise.nil⟩

/-- A route whose face is in the set already is not inserted. -/
def insertIn (route : Route) : List Route → List Route
  | [] => [route]
  | r :: routes =>
      if route.faceId < r.faceId then route :: r :: routes
      else if r.faceId < route.faceId then r :: insertIn route routes
      else r :: routes

theorem mem_of_mem_insertIn {route r : Route} {routes : List Route} (h : r ∈ insertIn route routes) :
    r = route ∨ r ∈ routes := by
  induction routes with
  | nil => exact Or.inl (List.mem_singleton.mp h)
  | cons x routes ih =>
      rw [insertIn] at h
      split at h
      · exact List.mem_cons.mp h
      · split at h
        · rcases List.mem_cons.mp h with rfl | h
          · exact Or.inr List.mem_cons_self
          · exact (ih h).imp_right (List.mem_cons_of_mem x)
        · exact Or.inr h

theorem insertIn_sorted {routes : List Route} (h : routes.Pairwise fun a b => a.faceId < b.faceId)
    (route : Route) : (insertIn route routes).Pairwise fun a b => a.faceId < b.faceId := by
  induction routes with
  | nil => exact List.pairwise_singleton _ _
  | cons x routes ih =>
      obtain ⟨hx, hrest⟩ := List.pairwise_cons.mp h
      rw [insertIn]
      split
      · rename_i hlt
        refine List.pairwise_cons.mpr ⟨fun r hr => ?_, h⟩
        rcases List.mem_cons.mp hr with rfl | hr
        · exact hlt
        · exact lt_trans hlt (hx r hr)
      · split
        · rename_i hlt
          refine List.pairwise_cons.mpr ⟨fun r hr => ?_, ih hrest⟩
          rcases mem_of_mem_insertIn hr with rfl | hr
          · exact hlt
          · exact hx r hr
        · exact h

def insert (s : RouteSet) (route : Route) : RouteSet := ⟨insertIn route s.routes, insertIn_sorted s.sorted route⟩

/-- The routes of the faces that `p` accepts. -/
def filter (s : RouteSet) (p : FaceId → Bool) : RouteSet :=
  ⟨s.routes.filter fun r => p r.faceId, s.sorted.filter _⟩

/-- Lookup compares faces only. -/
def find (s : RouteSet) (faceId : FaceId) : Option Route := s.routes.find? fun r => r.faceId == faceId

def erase (s : RouteSet) (faceId : FaceId) : RouteSet := s.filter fun f => f != faceId

def singleton (route : Route) : RouteSet := empty.insert route

end RouteSet

structure RibEntry where
  name : Name
  parent : Option Name
  children : List Name
  routes : List Route
  inheritedRoutes : List Route
  /-- An unsigned 64-bit counter. -/
  nRoutesWithCaptureSet : Nat
  deriving DecidableEq

namespace RibEntry

def new (name : Name) : RibEntry :=
  { name, parent := none, children := [], routes := [], inheritedRoutes := [], nRoutesWithCaptureSet := 0 }

def findRoute (e : RibEntry) (route : Route) : Option Route := e.routes.find? fun r => r.compareFaceIdAndOrigin route

def insertRoute (e : RibEntry) (route : Route) : RibEntry :=
  match e.findRoute route with
  | some _ => e
  | none =>
      { e with
        routes := e.routes ++ [route]
        nRoutesWithCaptureSet :=
          if route.isCapture then (e.nRoutesWithCaptureSet + 1) % 2 ^ 64 else e.nRoutesWithCaptureSet }

def eraseRoute (e : RibEntry) (route : Route) : RibEntry :=
  match e.findRoute route with
  | none => e
  | some existing =>
      { e with
        routes := e.routes.eraseP fun r => r.compareFaceIdAndOrigin route
        nRoutesWithCaptureSet :=
          if existing.isCapture then (e.nRoutesWithCaptureSet + (2 ^ 64 - 1)) % 2 ^ 64
          else e.nRoutesWithCaptureSet }

/-- Set the fields of the route with the same face and origin; the capture counter stays. -/
def updateRoute (e : RibEntry) (route : Route) : RibEntry :=
  { e with routes := Lists.replaceFirst (fun r => r.compareFaceIdAndOrigin route) route e.routes }

def hasFaceId (e : RibEntry) (faceId : FaceId) : Bool := e.routes.any fun r => r.faceId == faceId

def getNRoutes (e : RibEntry) : Nat := e.routes.length

def addInheritedRoute (e : RibEntry) (route : Route) : RibEntry :=
  { e with inheritedRoutes := e.inheritedRoutes ++ [route] }

def hasInheritedRoute (e : RibEntry) (faceId : FaceId) : Bool := e.inheritedRoutes.any fun r => r.faceId == faceId

def removeInheritedRoute (e : RibEntry) (route : Route) : Option RibEntry :=
  if e.hasInheritedRoute route.faceId then
    some { e with inheritedRoutes := e.inheritedRoutes.eraseP fun r => r.faceId == route.faceId }
  else none

def hasCapture (e : RibEntry) : Bool := e.nRoutesWithCaptureSet > 0

def hasChildInheritOnFaceId (e : RibEntry) (faceId : FaceId) : Bool :=
  e.routes.any fun r => r.faceId == faceId && r.isChildInherit

def getRouteWithLowestCostByFaceId (e : RibEntry) (faceId : FaceId) : Option Route :=
  Route.lowestCost (e.routes.filter fun r => r.faceId == faceId)

/-- The source returns the address of the element in a vector of its own, which is gone when the caller follows the
pointer; here it points to the element as it was. -/
def getRouteWithSecondLowestCostByFaceId (nthElement : NthElement) (e : RibEntry) (faceId : FaceId) : Option Route :=
  nthElement.second (e.routes.filter fun r => r.faceId == faceId)

def getRouteWithLowestCostAndChildInheritByFaceId (e : RibEntry) (faceId : FaceId) : Option Route :=
  Route.lowestCost (e.routes.filter fun r => r.faceId == faceId && r.isChildInherit)

@[simp] theorem insertRoute_name (e : RibEntry) (route : Route) : (e.insertRoute route).name = e.name := by
  unfold insertRoute
  split <;> rfl

@[simp] theorem insertRoute_parent (e : RibEntry) (route : Route) : (e.insertRoute route).parent = e.parent := by
  unfold insertRoute
  split <;> rfl

@[simp] theorem insertRoute_children (e : RibEntry) (route : Route) : (e.insertRoute route).children = e.children := by
  unfold insertRoute
  split <;> rfl

@[simp] theorem insertRoute_inheritedRoutes (e : RibEntry) (route : Route) :
    (e.insertRoute route).inheritedRoutes = e.inheritedRoutes := by
  unfold insertRoute
  split <;> rfl

@[simp] theorem eraseRoute_name (e : RibEntry) (route : Route) : (e.eraseRoute route).name = e.name := by
  unfold eraseRoute
  split <;> rfl

@[simp] theorem eraseRoute_parent (e : RibEntry) (route : Route) : (e.eraseRoute route).parent = e.parent := by
  unfold eraseRoute
  split <;> rfl

@[simp] theorem eraseRoute_children (e : RibEntry) (route : Route) : (e.eraseRoute route).children = e.children := by
  unfold eraseRoute
  split <;> rfl

@[simp] theorem eraseRoute_inheritedRoutes (e : RibEntry) (route : Route) :
    (e.eraseRoute route).inheritedRoutes = e.inheritedRoutes := by
  unfold eraseRoute
  split <;> rfl

end RibEntry

/-- The table by its keys in order and its entries, with the face lookup table. -/
structure Rib where
  names : List Name
  entries : Name → Option RibEntry
  faceMap : FaceId → List Name

namespace Rib

def empty : Rib := { names := [], entries := fun _ => none, faceMap := fun _ => [] }

def modifyEntry (rib : Rib) (name : Name) (f : RibEntry → RibEntry) : Rib :=
  { rib with entries := Function.update rib.entries name ((rib.entries name).map f) }

/-- `none` when the child has a parent. -/
def addChild (rib : Rib) (parent child : Name) : Option Rib :=
  match (rib.entries child).bind RibEntry.parent with
  | some _ => none
  | none =>
      some ((rib.modifyEntry child fun e => { e with parent := some parent }).modifyEntry parent fun e =>
        { e with children := e.children ++ [child] })

/-- `none` when it is not the child's parent. -/
def removeChild (rib : Rib) (parent child : Name) : Option Rib :=
  if (rib.entries child).bind RibEntry.parent = some parent then
    some ((rib.modifyEntry child fun e => { e with parent := none }).modifyEntry parent fun e =>
      { e with children := e.children.filter fun c => c != child })
  else none

def addChildTo (rib : Rib) (parent : Option Name) (child : Name) : Option Rib :=
  match parent with
  | none => some rib
  | some p => rib.addChild p child

def removeChildFrom (rib : Rib) (parent : Option Name) (child : Name) : Option Rib :=
  match parent with
  | none => some rib
  | some p => rib.removeChild p child

/-- The longest proper prefix that has an entry. -/
def findParent (rib : Rib) (name : Name) : Option Name :=
  ((List.range name.length).reverse.find? fun i => (rib.entries (name.getPrefix i)).isSome).map name.getPrefix

/-- The names right after `name` in the order of the table, as long as they extend it. -/
def findDescendants (rib : Rib) (name : Name) : List Name :=
  if (rib.entries name).isSome then
    (rib.names.dropWhile fun n => n != name).tail.takeWhile fun n => Name.isPrefixOf name n
  else []

def findDescendantsForNonInsertedName (rib : Rib) (name : Name) : List Name :=
  rib.names.filter fun n => Name.isPrefixOf name n

/-- Move a child of `parent` under the new entry `name`. -/
def adoptChild (name : Name) (parent : Option Name) (rib : Rib) (child : Name) : Option Rib :=
  if (rib.entries child).bind RibEntry.parent = parent then
    (rib.removeChildFrom parent child).bind fun rib => rib.addChild name child
  else some rib

def registerFace (rib : Rib) (faceId : FaceId) (name : Name) : Rib :=
  { rib with faceMap := Function.update rib.faceMap faceId (rib.faceMap faceId ++ [name]) }

def insert (rib : Rib) (name : Name) (route : Route) : Option Rib :=
  match rib.entries name with
  | some e =>
      match e.findRoute route with
      | none => some ((rib.modifyEntry name fun e => e.insertRoute route).registerFace route.faceId name)
      | some _ => some (rib.modifyEntry name fun e => e.updateRoute route)
  | none =>
      let rib := { rib with
        names := rib.names.orderedInsert (· ≤ ·) name
        entries := Function.update rib.entries name (some ((RibEntry.new name).insertRoute route)) }
      let parent := rib.findParent name
      (rib.addChildTo parent name).bind fun rib =>
        ((rib.findDescendants name).foldlM (adoptChild name parent) rib).map fun rib =>
          rib.registerFace route.faceId name

/-- Give a child of `name` to the parent. -/
def releaseChild (name : Name) (parent : Option Name) (rib : Rib) (child : Name) : Option Rib :=
  (rib.removeChild name child).bind fun rib => rib.addChildTo parent child

def eraseEntry (rib : Rib) (name : Name) : Option Rib :=
  match rib.entries name with
  | none => some rib
  | some e =>
      (rib.removeChildFrom e.parent name).bind fun rib =>
        (e.children.foldlM (releaseChild name e.parent) rib).map fun rib =>
          { rib with names := rib.names.erase name, entries := Function.update rib.entries name none }

def erase (rib : Rib) (name : Name) (route : Route) : Option Rib :=
  match rib.entries name with
  | none => some rib
  | some e =>
      match e.findRoute route with
      | none => some rib
      | some _ =>
          let e := e.eraseRoute route
          let rib := rib.modifyEntry name fun _ => e
          let rib :=
            if e.hasFaceId route.faceId then rib
            else { rib with
              faceMap := Function.update rib.faceMap route.faceId
                ((rib.faceMap route.faceId).filter fun n => n != name) }
          if e.getNRoutes = 0 then rib.eraseEntry name else some rib

/-- The loop over the parents; each is shorter than the one before, so the length of the name is fuel
enough. -/
def collectAncestorRoutes (rib : Rib) : Nat → Option Name → RouteSet → RouteSet
  | 0, _, routes => routes
  | _, none, routes => routes
  | fuel + 1, some parent, routes =>
      match rib.entries parent with
      | none => routes
      | some e =>
          let routes := (e.routes.filter Route.isChildInherit).foldl RouteSet.insert routes
          if e.hasCapture then routes else collectAncestorRoutes rib fuel e.parent routes

/-- `getAncestorRoutes` of an entry. -/
def getAncestorRoutes (rib : Rib) (e : RibEntry) : RouteSet :=
  rib.collectAncestorRoutes e.name.length e.parent RouteSet.empty

/-- `getAncestorRoutes` of a name that need not have an entry. -/
def getAncestorRoutesOfName (rib : Rib) (name : Name) : RouteSet :=
  rib.collectAncestorRoutes name.length (rib.findParent name) RouteSet.empty

/-- The routes of a face with the names they are under. -/
def findRoutesWithFaceId (rib : Rib) (faceId : FaceId) : List (Name × Route) :=
  (rib.faceMap faceId).flatMap fun name =>
    (rib.entries name).elim [] fun e => (e.routes.filter fun r => r.faceId == faceId).map fun r => (name, r)

end Rib
end NfdPitless
