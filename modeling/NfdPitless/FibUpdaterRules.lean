import NfdPitless.FibUpdater

/-! What the computation of a batch's FIB updates keeps (`rib/fib-updater.cpp`, `computeUpdates`). It changes the
updater by four primitives only, so a property that these keep is kept by the whole of it. -/

namespace NfdPitless

namespace FibUpdater

/-- What the four primitives of the updater keep. -/
structure Kept (P : FibUpdater → Prop) : Prop where
  addFibUpdate : ∀ {u}, P u → ∀ update, P (u.addFibUpdate update)
  addInheritedRoute : ∀ {u}, P u → ∀ name route, P (u.addInheritedRoute name route)
  removeInheritedRoute : ∀ {u}, P u → ∀ name route, P (u.removeInheritedRoute name route)
  clearUpdatesForBatchFaceId : ∀ {u}, P u → P u.clearUpdatesForBatchFaceId

namespace Kept

variable {P : FibUpdater → Prop} {u u' : FibUpdater}

theorem inherit (hk : Kept P) (h : P u) (name : Name) (route : Route) : P (FibUpdater.inherit name u route) :=
  hk.addFibUpdate (hk.addInheritedRoute h name route) _

theorem disinherit (hk : Kept P) (h : P u) (name : Name) (route : Route) : P (FibUpdater.disinherit name u route) :=
  hk.addFibUpdate (hk.removeInheritedRoute h name route) _

theorem addInheritedRoutes (hk : Kept P) (h : P u) (entry : RibEntry) (routesToAdd : RouteSet) :
    P (u.addInheritedRoutes entry routesToAdd) := by
  refine List.foldlRecOn _ _ h fun u hu route _ => ?_
  split
  · exact hk.inherit hu entry.name route
  · exact hu

theorem addInheritedRoutesOfName (hk : Kept P) (h : P u) (name : Name) (routesToAdd : RouteSet) (ignore : Route) :
    P (u.addInheritedRoutesOfName name routesToAdd ignore) := by
  refine List.foldlRecOn _ _ h fun u hu route _ => ?_
  split
  · exact hk.inherit hu name route
  · exact hu

theorem removeInheritedRoutes (hk : Kept P) (h : P u) (entry : RibEntry) (routesToRemove : RouteSet) :
    P (u.removeInheritedRoutes entry routesToRemove) := by
  refine List.foldlRecOn _ _ h fun u hu route _ => ?_
  split
  · exact hk.disinherit hu entry.name route
  · exact hu

theorem traverseSubTree (hk : Kept P) (rib : Rib) (fuel : Nat) :
    ∀ {u}, P u → ∀ name routesToAdd routesToRemove,
      P (FibUpdater.traverseSubTree rib fuel u name routesToAdd routesToRemove) := by
  induction fuel with
  | zero => exact fun h _ _ _ => h
  | succ fuel ih =>
      intro u h name routesToAdd routesToRemove
      unfold FibUpdater.traverseSubTree
      split
      · exact h
      · split
        · exact h
        · refine List.foldlRecOn _ _ ?_ fun u hu child _ => ih hu child _ _
          exact hk.addInheritedRoutes (hk.removeInheritedRoutes h _ _) _ _

theorem modifyChildrensInheritedRoutes (hk : Kept P) (h : P u) (rib : Rib) (children : List Name)
    (routesToAdd routesToRemove : RouteSet) :
    P (FibUpdater.modifyChildrensInheritedRoutes rib u children routesToAdd routesToRemove) :=
  List.foldlRecOn _ _ h fun _ hu child _ => hk.traverseSubTree rib rib.depth hu child _ _

theorem createFibUpdatesForNewRibEntry (hk : Kept P) (h : P u) (rib : Rib) (name : Name) (route : Route)
    (children : List Name) : P (FibUpdater.createFibUpdatesForNewRibEntry rib u name route children) := by
  have hown := hk.addFibUpdate h (.createAddUpdate name route.faceId route.cost)
  unfold FibUpdater.createFibUpdatesForNewRibEntry
  dsimp only
  split
  · exact hk.addInheritedRoutesOfName hown name _ route
  · split
    · exact hk.modifyChildrensInheritedRoutes hown rib children _ _
    · split
      · exact hk.modifyChildrensInheritedRoutes (hk.addInheritedRoutesOfName hown name _ route) rib children _ _
      · exact hk.modifyChildrensInheritedRoutes hown rib children _ _

theorem createFibUpdatesForNewRoute (hk : Kept P) (h : P u) (rib : Rib) (entry : RibEntry) (route : Route)
    (captureWasTurnedOn : Bool) :
    P (FibUpdater.createFibUpdatesForNewRoute rib u entry route captureWasTurnedOn) := by
  unfold FibUpdater.createFibUpdatesForNewRoute
  dsimp only
  have hchildren := fun routesToAdd routesToRemove => hk.modifyChildrensInheritedRoutes
    (hk.removeInheritedRoutes h entry routesToRemove) rib entry.children routesToAdd routesToRemove
  split
  · exact hk.addFibUpdate (hchildren _ _) _
  · exact hchildren _ _

theorem updateOwnNextHop (hk : Kept P) (h : P u) (entry : RibEntry) (route existingRoute : Route)
    (hu : u.updateOwnNextHop entry route existingRoute = some u') : P u' := by
  unfold FibUpdater.updateOwnNextHop at hu
  split at hu
  · cases hu
  · split at hu
    · cases hu
      exact hk.addFibUpdate h _
    · split at hu
      · obtain ⟨prevRoute, -, rfl⟩ := Option.map_eq_some_iff.mp hu
        exact hk.addFibUpdate h _
      · cases hu
        exact h

theorem updateChildInherit (hk : Kept P) (h : P u) (rib : Rib) (entry : RibEntry) (route existingRoute : Route) :
    P (FibUpdater.updateChildInherit rib u entry route existingRoute) := by
  unfold FibUpdater.updateChildInherit
  dsimp only
  split
  · split
    · exact hk.modifyChildrensInheritedRoutes h rib entry.children _ _
    · exact h
  · split
    · exact hk.modifyChildrensInheritedRoutes h rib entry.children _ _
    · exact h

theorem updateCapture (hk : Kept P) (h : P u) (rib : Rib) (entry : RibEntry) (route existingRoute : Route) :
    P (FibUpdater.updateCapture rib u entry route existingRoute) := by
  unfold FibUpdater.updateCapture
  dsimp only
  split
  · exact hk.modifyChildrensInheritedRoutes (hk.removeInheritedRoutes h entry _) rib entry.children _ _
  · split
    · exact hk.modifyChildrensInheritedRoutes (hk.addInheritedRoutes h entry _) rib entry.children _ _
    · exact h

theorem createFibUpdatesForUpdatedRoute (hk : Kept P) (h : P u) (rib : Rib) (entry : RibEntry)
    (route existingRoute : Route)
    (hu : FibUpdater.createFibUpdatesForUpdatedRoute rib u entry route existingRoute = some u') : P u' := by
  unfold FibUpdater.createFibUpdatesForUpdatedRoute at hu
  dsimp only at hu
  split at hu
  · cases hu
    exact h
  · obtain ⟨u₁, hown, rfl⟩ := Option.map_eq_some_iff.mp hu
    have h₁ : P u₁ := by
      split at hown
      · exact hk.updateOwnNextHop h entry route existingRoute hown
      · cases hown
        exact h
    split
    · exact hk.modifyChildrensInheritedRoutes h₁ rib entry.children _ _
    · exact hk.updateCapture (hk.updateChildInherit h₁ rib entry route existingRoute) rib entry route existingRoute

theorem createFibUpdatesForErasedRoute (hk : Kept P) (h : P u) (rib : Rib) (entry : RibEntry) (route : Route)
    (captureWasTurnedOff : Bool) :
    P (FibUpdater.createFibUpdatesForErasedRoute rib u entry route captureWasTurnedOff) := by
  have hown := hk.addFibUpdate h (.createRemoveUpdate entry.name route.faceId)
  have hadded := fun routesToAdd => hk.addInheritedRoutes hown entry routesToAdd
  unfold FibUpdater.createFibUpdatesForErasedRoute
  dsimp only
  generalize hbefore : (if (route.isChildInherit && route.isCapture) = true then _ else _ : FibUpdater) = before
  have h₁ : P before := by
    rw [← hbefore]
    split
    · exact hk.modifyChildrensInheritedRoutes (hadded _) rib entry.children _ _
    · split
      · exact hk.modifyChildrensInheritedRoutes hown rib entry.children _ _
      · split
        · exact hk.modifyChildrensInheritedRoutes (hadded _) rib entry.children _ _
        · exact hown
  split
  · cases (rib.getAncestorRoutes entry).find route.faceId with
    | none => exact h₁
    | some blocked => exact hk.inherit h₁ entry.name blocked
  · exact h₁

theorem createFibUpdatesForErasedRibEntry (hk : Kept P) (h : P u) (entry : RibEntry) :
    P (u.createFibUpdatesForErasedRibEntry entry) :=
  List.foldlRecOn _ _ h fun _ hu _ _ => hk.addFibUpdate hu _

theorem computeUpdatesForRegistration (hk : Kept P) (h : P u) (rib : Rib) (name : Name) (route : Route)
    (hu : FibUpdater.computeUpdatesForRegistration rib u name route = some u') : P u' := by
  unfold FibUpdater.computeUpdatesForRegistration at hu
  split at hu
  · split at hu
    · cases hu
      exact hk.createFibUpdatesForNewRoute h rib _ route _
    · exact hk.createFibUpdatesForUpdatedRoute h rib _ route _ hu
  · cases hu
    exact hk.createFibUpdatesForNewRibEntry h rib name route _

theorem computeUpdatesForUnregistration (hk : Kept P) (h : P u) (nthElement : NthElement) (rib : Rib) (name : Name)
    (route : Route) : P (FibUpdater.computeUpdatesForUnregistration nthElement rib u name route) := by
  unfold FibUpdater.computeUpdatesForUnregistration
  split
  · exact h
  · rename_i entry _
    split
    · exact h
    · rename_i existing _
      dsimp only
      have herased := hk.createFibUpdatesForErasedRoute h rib (entry.eraseRoute route) existing
        (entry.hasCapture && !(entry.eraseRoute route).hasCapture)
      have hnext : P ((entry.getRouteWithSecondLowestCostByFaceId nthElement route.faceId).elim
          (FibUpdater.createFibUpdatesForErasedRoute rib u (entry.eraseRoute route) existing
            (entry.hasCapture && !(entry.eraseRoute route).hasCapture))
          fun next => FibUpdater.createFibUpdatesForNewRoute rib
            (FibUpdater.createFibUpdatesForErasedRoute rib u (entry.eraseRoute route) existing
              (entry.hasCapture && !(entry.eraseRoute route).hasCapture)) (entry.eraseRoute route) next false) := by
        cases entry.getRouteWithSecondLowestCostByFaceId nthElement route.faceId with
        | none => exact herased
        | some next => exact hk.createFibUpdatesForNewRoute herased rib _ next false
      split
      · exact hk.createFibUpdatesForErasedRibEntry hnext entry
      · exact hnext

/-- The updates of a batch keep what the primitives keep. -/
theorem computeUpdates (hk : Kept P) (h : P u) {nthElement : NthElement} (rib : Rib) (update : RibUpdate)
    (hu : FibUpdater.computeUpdates nthElement rib u update = some u') : P u' := by
  unfold FibUpdater.computeUpdates at hu
  split at hu
  · exact hk.computeUpdatesForRegistration h rib _ _ hu
  · cases hu
    exact hk.computeUpdatesForUnregistration h nthElement rib _ _
  · cases hu
    exact hk.clearUpdatesForBatchFaceId (hk.computeUpdatesForUnregistration h nthElement rib _ _)

end Kept

end FibUpdater

end NfdPitless
