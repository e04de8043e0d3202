import NfdPitless.InheritedRecords
import NfdPitless.RibUpdates

/-! What the records of each kind of update do to the number of inherited routes of an entry on a face: at the name of
the update, and at the entries below it that the traversals reach. -/

namespace NfdPitless

namespace RouteSet

variable {s : RouteSet} {r : Route} {f : FaceId}

theorem has_iff : s.has f = true ↔ ∃ r ∈ s.routes, r.faceId = f := by
  rw [has, List.any_eq_true]
  exact exists_congr fun r => and_congr_right fun _ => beq_iff_eq

theorem has_empty (f : FaceId) : RouteSet.empty.has f = false := rfl

theorem any_insertIn (r : Route) (routes : List Route) (f : FaceId) :
    ((insertIn r routes).any fun x => x.faceId == f) = (r.faceId == f || routes.any fun x => x.faceId == f) := by
  induction routes with
  | nil => rfl
  | cons x routes ih =>
      rw [insertIn]
      split
      · rfl
      · rename_i hnot
        split
        · rw [List.any_cons, ih, List.any_cons, Bool.or_left_comm]
        · rename_i hnot'
          have hsame : r.faceId = x.faceId := le_antisymm (not_lt.mp hnot') (not_lt.mp hnot)
          rw [List.any_cons, hsame, Bool.or_self_left]

theorem has_insert (s : RouteSet) (r : Route) (f : FaceId) : (s.insert r).has f = (r.faceId == f || s.has f) :=
  any_insertIn r s.routes f

theorem has_singleton (r : Route) (f : FaceId) : (singleton r).has f = (r.faceId == f) := by
  rw [singleton, has_insert, has_empty, Bool.or_false]

theorem has_erase (s : RouteSet) (f₀ f : FaceId) : (s.erase f₀).has f = (s.has f && f != f₀) :=
  FibUpdater.has_filter s _ f

theorem find_isSome (s : RouteSet) (f : FaceId) : (s.find f).isSome = s.has f := List.isSome_find?

theorem find_faceId {x : Route} (h : s.find f = some x) : x.faceId = f := by
  rw [find] at h
  have hface := List.find?_some h
  exact beq_iff_eq.mp hface

end RouteSet

theorem Route.lowestCost_concat (routes : List Route) (r : Route) :
    Route.lowestCost (routes ++ [r]) = some
      ((Route.lowestCost routes).elim r fun candidate => if r.cost < candidate.cost then r else candidate) := by
  rw [Route.lowestCost, List.foldl_concat, ← Route.lowestCost]
  cases Route.lowestCost routes with
  | none => rfl
  | some c => exact (apply_ite some _ _ _).symm

/-- There is none only if there is no route. -/
theorem Route.lowestCost_spec (routes : List Route) :
    routes = [] ∧ Route.lowestCost routes = none ∨
      ∃ r, Route.lowestCost routes = some r ∧ r ∈ routes ∧ ∀ x ∈ routes, r.cost ≤ x.cost := by
  induction routes using List.reverseRecOn with
  | nil => exact Or.inl ⟨rfl, rfl⟩
  | append_singleton routes x ih =>
      refine Or.inr ⟨_, Route.lowestCost_concat routes x, ?_⟩
      simp only [List.mem_append, List.mem_singleton]
      rcases ih with ⟨rfl, hnone⟩ | ⟨r, hsome, hmem, hle⟩
      · rw [hnone]
        exact ⟨Or.inr rfl, fun y hy => (hy.resolve_left List.not_mem_nil) ▸ le_rfl⟩
      · rw [hsome, Option.elim_some]
        split
        · rename_i hlt
          refine ⟨Or.inr rfl, fun y hy => ?_⟩
          rcases hy with hy | rfl
          · exact hlt.le.trans (hle y hy)
          · exact le_rfl
        · rename_i hge
          refine ⟨Or.inl hmem, fun y hy => ?_⟩
          rcases hy with hy | rfl
          · exact hle y hy
          · exact Nat.le_of_not_lt hge

theorem Route.lowestCost_mem {routes : List Route} {r : Route} (h : Route.lowestCost routes = some r) : r ∈ routes := by
  rcases Route.lowestCost_spec routes with ⟨-, hnone⟩ | ⟨r', hsome, hmem, -⟩
  · rw [h] at hnone
    cases hnone
  · rw [h] at hsome
    cases hsome
    exact hmem

namespace FibUpdater

variable {rib : Rib} {n : Name} {route : Route} {children : List Name} {e : RibEntry} {u : FibUpdater}

/-- The name of an update and the entries below it. -/
def Around (rib : Rib) (n : Name) (self : Prop) (m : Name) : Prop := m = n ∧ self ∨ rib.Has m ∧ n <+: m ∧ n ≠ m

theorem Effect.self {g : Name → FaceId → Nat → Option Nat} {u u' : FibUpdater} {self : Prop}
    (h : Effect (· = n) u u' g) (rib : Rib) (hself : self) : Effect (Around rib n self) u u' g :=
  h.mono fun _ hm => Or.inl ⟨hm, hself⟩

theorem Effect.below {g : Name → FaceId → Nat → Option Nat} {u u' : FibUpdater} {self : Prop}
    (h : Effect (fun m => rib.Has m ∧ n <+: m ∧ n ≠ m) u u' g) : Effect (Around rib n self) u u' g :=
  h.mono fun _ hm => Or.inr hm

/-- A visit of the entries that are reached. -/
def sweep (rib : Rib) (children : List Name) (adds removes : FaceId → Bool) (m : Name) (f : FaceId) :
    Nat → Option Nat :=
  if m ∈ rib.reached children f then visit rib (adds f) (removes f) m f else some

theorem sweep_none (rib : Rib) (children : List Name) {adds removes : FaceId → Bool} {m : Name} {f : FaceId}
    (ha : adds f = false) (hr : removes f = false) : sweep rib children adds removes m f = some := by
  rw [sweep, ha, hr, visit_none, ite_self]

theorem modifyChildrens_sweep (hv : rib.Valid) (hnodup : children.Nodup)
    (hchild : ∀ c ∈ children, PrefixTree.IsChild rib.Has n c) (self : Prop) (u : FibUpdater) (A X : RouteSet)
    (adds removes : FaceId → Bool) (hA : ∀ f, A.has f = adds f) (hX : ∀ f, X.has f = removes f) :
    Effect (Around rib n self) u (modifyChildrensInheritedRoutes rib u children A X)
      (sweep rib children adds removes) := by
  refine (modifyChildrensInheritedRoutes_effect hv hnodup hchild u A X).below.congr fun m f c => ?_
  rw [sweep, hA, hX]

/-- The routes of the ancestors go to the new name unless it captures; its descendants get the new route, and the
ancestors' routes if it does not capture. -/
theorem newRibEntry_effect (hv : rib.Valid) (hnodup : children.Nodup)
    (hchild : ∀ c ∈ children, PrefixTree.IsChild rib.Has n c) (u : FibUpdater) :
    Effect (Around rib n True) u (createFibUpdatesForNewRibEntry rib u n route children) fun m f c =>
      (onlyIf (m = n ∧ (rib.getAncestorRoutesOfName n).has f = true ∧ (f != route.faceId) = true ∧
        route.isCapture = false) gain c).bind
        (sweep rib children
          (fun f => route.isChildInherit &&
            (route.faceId == f || !route.isCapture && (rib.getAncestorRoutesOfName n).has f))
          (fun f => route.isCapture && (rib.getAncestorRoutesOfName n).has f) m f) := by
  have hown : Effect (Around rib n True) u (u.addFibUpdate (.createAddUpdate n route.faceId route.cost))
      fun _ _ => some := Effect.none (addFibUpdate_inheritedRoutes u _)
  have hancestors := fun u =>
    (addInheritedRoutesOfName_effect u n (rib.getAncestorRoutesOfName n) route).self rib trivial
  have hsweep := modifyChildrens_sweep hv hnodup hchild True
  have hreplaced : ∀ f, (((rib.getAncestorRoutesOfName n).erase route.faceId).insert route).has f =
      (route.faceId == f || (rib.getAncestorRoutesOfName n).has f) := by
    intro f
    rw [RouteSet.has_insert, RouteSet.has_erase]
    by_cases hf : route.faceId = f
    · rw [hf, beq_self_eq_true, Bool.true_or, Bool.true_or]
    · rw [bne_iff_ne.mpr (Ne.symm hf), Bool.and_true]
  unfold createFibUpdatesForNewRibEntry
  dsimp only
  generalize route.isChildInherit = inherits
  generalize route.isCapture = captures
  cases inherits <;> cases captures
  · refine (hown.trans (hancestors _)).congr fun m f c => ?_
    rw [sweep_none rib children rfl rfl, Option.bind_fun_some, Option.bind_some]
    simp only [and_true]
  · refine (hown.trans (hsweep _ .empty _ (fun _ => false) _ (fun _ => rfl) (fun _ => rfl))).congr fun m f c => ?_
    simp only [Bool.true_eq_false, and_false, onlyIf, if_false, Option.bind_some, Bool.false_and, Bool.true_and]
  · refine ((hown.trans (hancestors _)).trans (hsweep _ _ .empty _ (fun _ => false) hreplaced
      (fun _ => rfl))).congr fun m f c => ?_
    simp only [and_true, Option.bind_some, Bool.false_and, Bool.true_and, Bool.not_false]
  · refine (hown.trans (hsweep _ _ _ (fun f => route.faceId == f) _ (RouteSet.has_singleton route)
      (fun _ => rfl))).congr fun m f c => ?_
    simp only [Bool.true_eq_false, and_false, onlyIf, if_false, Option.bind_some, Bool.true_and, Bool.not_true,
      Bool.false_and, Bool.or_false]

/-- When capture is turned on the entry and its descendants lose the routes of the ancestors; the descendants get the
new route when it is handed down. -/
theorem newRoute_effect (hv : rib.Valid) (hnodup : e.children.Nodup)
    (hchild : ∀ c ∈ e.children, PrefixTree.IsChild rib.Has e.name c) (u : FibUpdater) (route : Route)
    (captureWasTurnedOn : Bool) :
    Effect (Around rib e.name (captureWasTurnedOn = true)) u
      (createFibUpdatesForNewRoute rib u e route captureWasTurnedOn) fun m f c =>
        (onlyIf (m = e.name ∧ captureWasTurnedOn = true ∧ (rib.getAncestorRoutes e).has f = true ∧
          e.hasInheritedRoute f = true) lose c).bind
          (sweep rib e.children
            (fun f => route.isChildInherit &&
              route.costsAtMost (e.getRouteWithLowestCostAndChildInheritByFaceId route.faceId) && route.faceId == f)
            (fun f => captureWasTurnedOn && (rib.getAncestorRoutes e).has f) m f) := by
  have hnextHop : ∀ (b : Bool) (update : FibUpdate) u, Effect (Around rib e.name (captureWasTurnedOn = true)) u
      (if b = true then u.addFibUpdate update else u) fun _ _ => some := by
    intro b update u
    split
    · exact Effect.none (addFibUpdate_inheritedRoutes u _)
    · exact Effect.none rfl
  have hsweep := modifyChildrens_sweep hv hnodup hchild (captureWasTurnedOn = true)
  have hadds : ∀ f, (if (route.isChildInherit &&
      route.costsAtMost (e.getRouteWithLowestCostAndChildInheritByFaceId route.faceId)) = true then
        RouteSet.singleton route else .empty).has f = (route.isChildInherit &&
      route.costsAtMost (e.getRouteWithLowestCostAndChildInheritByFaceId route.faceId) && route.faceId == f) := by
    intro f
    cases route.isChildInherit && route.costsAtMost (e.getRouteWithLowestCostAndChildInheritByFaceId route.faceId) with
    | true => exact RouteSet.has_singleton route f
    | false => rfl
  unfold createFibUpdatesForNewRoute
  dsimp only
  cases captureWasTurnedOn with
  | true =>
      have hself := (removeInheritedRoutes_effect u e (rib.getAncestorRoutes e)).self rib (Eq.refl true)
      refine ((hself.trans (hsweep _ _ _ _ (fun f => true && (rib.getAncestorRoutes e).has f) hadds
        (fun _ => rfl))).trans (hnextHop _ _ _)).congr fun m f c => ?_
      rw [Option.bind_fun_some]
      simp only [true_and]
  | false =>
      refine ((hsweep _ _ _ _ (fun f => false && (rib.getAncestorRoutes e).has f) hadds
        (fun _ => rfl)).trans (hnextHop _ _ _)).congr fun m f c => ?_
      rw [Option.bind_fun_some]
      simp only [Bool.false_eq_true, false_and, and_false, onlyIf, if_false, Option.bind_some]

/-! ### A route registered again -/

/-- The effect of the change of CHILD_INHERIT or of the cost. -/
theorem updateChildInherit_effect (hv : rib.Valid) (hnodup : e.children.Nodup)
    (hchild : ∀ c ∈ e.children, PrefixTree.IsChild rib.Has e.name c) (u : FibUpdater) (route existing : Route)
    (self : Prop) :
    Effect (Around rib e.name self) u (updateChildInherit rib u e route existing)
      (sweep rib e.children
        (fun f => (!existing.isChildInherit && route.isChildInherit &&
            route.costsAtMost (e.getRouteWithLowestCostAndChildInheritByFaceId route.faceId) ||
          existing.isChildInherit && !route.isChildInherit &&
            ((e.getRouteWithLowestCostAndChildInheritByFaceId route.faceId).isSome ||
              (rib.getAncestorRoutes e).has route.faceId)) && route.faceId == f)
        (fun f => existing.isChildInherit && !route.isChildInherit && route.faceId == f)) := by
  have hsweep := modifyChildrens_sweep hv hnodup hchild self
  have hnone : ∀ adds removes, (∀ f, adds f = false) → (∀ f, removes f = false) →
      Effect (Around rib e.name self) u u (sweep rib e.children adds removes) := fun adds removes ha hr =>
    (Effect.none rfl).congr fun m f c => by rw [sweep_none rib e.children (ha f) (hr f)]
  unfold updateChildInherit
  dsimp only
  generalize existing.isChildInherit = was
  generalize route.isChildInherit = now
  cases was <;> cases now
  · exact hnone _ _ (fun _ => rfl) fun _ => rfl
  · generalize route.costsAtMost (e.getRouteWithLowestCostAndChildInheritByFaceId route.faceId) = cheapest
    cases cheapest
    · exact hnone _ _ (fun _ => rfl) fun _ => rfl
    · exact hsweep _ _ _ _ _ (fun f => (RouteSet.has_singleton route f).trans (Bool.true_and _).symm) fun _ => rfl
  · refine hsweep _ _ _ _ _ (fun f => ?_) fun f => ?_
    · simp only [Bool.not_false, Bool.and_false, Bool.false_and, Bool.false_or, Bool.and_self, Bool.true_and]
      cases hprev : e.getRouteWithLowestCostAndChildInheritByFaceId route.faceId with
      | some prev =>
          have hmem := List.mem_filter.mp (Route.lowestCost_mem hprev)
          rw [Bool.and_eq_true] at hmem
          dsimp only
          rw [RouteSet.has_singleton, beq_iff_eq.mp hmem.2.1, Option.isSome_some, Bool.true_or, Bool.true_and]
      | none =>
          dsimp only
          rw [Option.isSome_none, Bool.false_or, ← RouteSet.find_isSome (rib.getAncestorRoutes e) route.faceId]
          cases hfind : (rib.getAncestorRoutes e).find route.faceId with
          | none => rfl
          | some x =>
              rw [Option.elim_some, RouteSet.has_singleton, RouteSet.find_faceId hfind, Option.isSome_some,
                Bool.true_and]
    · exact (RouteSet.has_singleton route f).trans (Bool.true_and _).symm
  · exact hnone _ _ (fun _ => rfl) fun _ => rfl

/-- What the entry and its descendants lose and get when capture is turned on or off. -/
def recapture (rib : Rib) (e : RibEntry) (turnedOn turnedOff : Bool) (m : Name) (f : FaceId) (c : Nat) : Option Nat :=
  ((onlyIf (m = e.name ∧ turnedOn = true ∧ (rib.getAncestorRoutes e).has f = true ∧ e.hasInheritedRoute f = true)
      lose c).bind
    (onlyIf (m = e.name ∧ turnedOff = true ∧ (rib.getAncestorRoutes e).has f = true ∧ (!e.hasFaceId f) = true)
      gain)).bind
    (sweep rib e.children (fun f => turnedOff && (rib.getAncestorRoutes e).has f)
      (fun f => turnedOn && (rib.getAncestorRoutes e).has f) m f)

theorem recapture_none (rib : Rib) (e : RibEntry) (m : Name) (f : FaceId) : recapture rib e false false m f = some := by
  funext c
  rw [recapture, onlyIf_neg fun h => Bool.false_ne_true h.2.1, onlyIf_neg fun h => Bool.false_ne_true h.2.1,
    sweep_none rib e.children rfl rfl]
  rfl

/-- The effect of the change of CAPTURE. -/
theorem updateCapture_effect (hv : rib.Valid) (hnodup : e.children.Nodup)
    (hchild : ∀ c ∈ e.children, PrefixTree.IsChild rib.Has e.name c) (u : FibUpdater) (route existing : Route) :
    Effect (Around rib e.name True) u (updateCapture rib u e route existing)
      (recapture rib e (!existing.isCapture && route.isCapture) (existing.isCapture && !route.isCapture)) := by
  have hsweep := modifyChildrens_sweep hv hnodup hchild True
  have hremove := (removeInheritedRoutes_effect u e (rib.getAncestorRoutes e)).self rib trivial
  have hadd := (addInheritedRoutes_effect u e (rib.getAncestorRoutes e)).self rib trivial
  have hnone : Effect (Around rib e.name True) u u (recapture rib e false false) :=
    (Effect.none rfl).congr fun m f c => by rw [recapture_none]
  unfold updateCapture
  dsimp only
  generalize existing.isCapture = was
  generalize route.isCapture = now
  cases was <;> cases now
  · exact hnone
  · refine (hremove.trans (hsweep _ .empty _ (fun _ => false) _ (fun _ => rfl) fun _ => rfl)).congr fun m f c => ?_
    simp [recapture, onlyIf]
  · refine (hadd.trans (hsweep _ _ .empty _ (fun _ => false) (fun _ => rfl) fun _ => rfl)).congr fun m f c => ?_
    simp [recapture, onlyIf]
  · exact hnone

theorem updateOwnNextHop_inheritedRoutes {u u' : FibUpdater} {existing : Route}
    (h : u.updateOwnNextHop e route existing = some u') : u'.inheritedRoutes = u.inheritedRoutes := by
  unfold updateOwnNextHop at h
  split at h
  · cases h
  · split at h
    · cases h
      exact addFibUpdate_inheritedRoutes u _
    · split at h
      · obtain ⟨prev, -, rfl⟩ := Option.map_eq_some_iff.mp h
        exact addFibUpdate_inheritedRoutes u _
      · cases h
        rfl

/-- A route registered again is handed down when it gets CHILD_INHERIT or another cost. -/
def handsDown (e : RibEntry) (route existing : Route) : Bool :=
  route.isChildInherit && route.costsAtMost (e.getRouteWithLowestCostAndChildInheritByFaceId route.faceId) &&
    (!existing.isChildInherit || (route.flags == existing.flags && route.cost != existing.cost))

/-- CHILD_INHERIT or the cost first, then CAPTURE. -/
theorem updatedRoute_effect (hv : rib.Valid) (hnodup : e.children.Nodup)
    (hchild : ∀ c ∈ e.children, PrefixTree.IsChild rib.Has e.name c) {u u' : FibUpdater} {route existing : Route}
    (h : createFibUpdatesForUpdatedRoute rib u e route existing = some u') :
    Effect (Around rib e.name True) u u' fun m f c =>
      (sweep rib e.children
        (fun f => (handsDown e route existing || existing.isChildInherit && !route.isChildInherit &&
            ((e.getRouteWithLowestCostAndChildInheritByFaceId route.faceId).isSome ||
              (rib.getAncestorRoutes e).has route.faceId)) && route.faceId == f)
        (fun f => existing.isChildInherit && !route.isChildInherit && route.faceId == f) m f c).bind
        (recapture rib e (!existing.isCapture && route.isCapture) (existing.isCapture && !route.isCapture) m f) := by
  have hsweep := modifyChildrens_sweep hv hnodup hchild True
  have hsame : route.flags = existing.flags →
      existing.isChildInherit = route.isChildInherit ∧ existing.isCapture = route.isCapture := fun hflags => by
    rw [Route.isChildInherit, Route.isCapture, ← hflags]
    exact ⟨rfl, rfl⟩
  unfold createFibUpdatesForUpdatedRoute at h
  dsimp only at h
  split at h
  · rename_i hunchanged
    cases h
    obtain ⟨hinherit, hcapture⟩ := hsame hunchanged.1
    have hcost : (route.cost != existing.cost) = false := Bool.eq_false_of_not_eq_true hunchanged.2
    refine (Effect.none rfl).congr fun m f c => ?_
    rw [handsDown, hinherit, hcapture, hcost, Bool.and_not_self, Bool.not_and_self, Bool.and_not_self, recapture_none,
      Option.bind_fun_some, sweep_none rib e.children _ rfl]
    cases route.isChildInherit <;> simp
  · rename_i hchanged
    obtain ⟨u₁, hown, rfl⟩ := Option.map_eq_some_iff.mp h
    have hnextHop : u₁.inheritedRoutes = u.inheritedRoutes := by
      split at hown
      · exact updateOwnNextHop_inheritedRoutes hown
      · cases hown
        rfl
    refine Effect.start hnextHop ?_
    split
    · rename_i hcost
      obtain ⟨hcost, hcheapest, hflags, hinherit⟩ := hcost
      obtain ⟨hinherit', hcapture⟩ := hsame hflags
      refine (hsweep _ (.singleton route) .empty _ (fun _ => false) (RouteSet.has_singleton route)
        fun _ => rfl).congr fun m f c => ?_
      rw [handsDown, hinherit', hinherit, hcapture, hcheapest, hcost, hflags, Bool.and_not_self, Bool.not_and_self,
        Bool.and_not_self, recapture_none, Option.bind_fun_some]
      simp
    · rename_i hnot
      refine ((updateChildInherit_effect hv hnodup hchild u₁ route existing True).trans
        (updateCapture_effect hv hnodup hchild _ route existing)).congr fun m f c => ?_
      have hdown : handsDown e route existing = (!existing.isChildInherit && route.isChildInherit &&
          route.costsAtMost (e.getRouteWithLowestCostAndChildInheritByFaceId route.faceId)) := by
        have hcost : ¬ (route.isChildInherit = true ∧
            route.costsAtMost (e.getRouteWithLowestCostAndChildInheritByFaceId route.faceId) = true ∧
            (route.flags == existing.flags && route.cost != existing.cost) = true) := by
          rintro ⟨hinherit, hcheapest, hboth⟩
          rw [Bool.and_eq_true, beq_iff_eq] at hboth
          exact hnot ⟨hboth.2, hcheapest, hboth.1, hinherit⟩
        rw [handsDown]
        revert hcost
        generalize (route.flags == existing.flags && route.cost != existing.cost) = same
        cases existing.isChildInherit <;> cases route.isChildInherit <;> cases same <;> simp
      rw [hdown]

/-- Whether an erased route lets the routes of the ancestors through to the descendants; `entry` has the route
erased. -/
def letsThrough (entry : RibEntry) (route : Route) (captureWasTurnedOff : Bool) : Bool :=
  if route.isChildInherit && !route.isCapture then !entry.hasCapture else captureWasTurnedOff

/-- The loop of `addInheritedRoutes` names the entry only when there is a route. -/
theorem addInheritedRoutes_ancestors (u : FibUpdater) (e : RibEntry) (b : Bool) {self : Prop}
    (hself : b = true → (rib.getAncestorRoutes e).routes ≠ [] → self) :
    Effect (Around rib e.name self) u
      (u.addInheritedRoutes e (if b = true then rib.getAncestorRoutes e else .empty)) fun m f =>
        onlyIf (m = e.name ∧ b = true ∧ (rib.getAncestorRoutes e).has f = true ∧ (!e.hasFaceId f) = true) gain := by
  cases b with
  | false =>
      rw [if_neg Bool.false_ne_true, addInheritedRoutes_nil u e rfl]
      exact (Effect.none rfl).congr fun m f c => by rw [onlyIf_neg fun h => Bool.false_ne_true h.2.1]
  | true =>
      rw [if_pos rfl]
      by_cases hroutes : (rib.getAncestorRoutes e).routes = []
      · rw [addInheritedRoutes_nil u e hroutes]
        refine (Effect.none rfl).congr fun m f c => ?_
        rw [onlyIf_neg]
        rintro ⟨-, -, hhas, -⟩
        rw [RouteSet.has, hroutes] at hhas
        cases hhas
      · refine ((addInheritedRoutes_effect u e (rib.getAncestorRoutes e)).self rib (hself rfl hroutes)).congr
          fun m f c => ?_
        simp only [true_and]

/-- What passes below the entry when the route is erased: what it kept from the descendants comes, and what they had
from it goes. -/
theorem erasedRoute_below (hv : rib.Valid) (hnodup : e.children.Nodup)
    (hchild : ∀ c ∈ e.children, PrefixTree.IsChild rib.Has e.name c) (u : FibUpdater) (route : Route)
    (captureWasTurnedOff : Bool) (hoff : captureWasTurnedOff = true → route.isCapture = true) (self : Prop)
    (hself : captureWasTurnedOff = true → (rib.getAncestorRoutes e).routes ≠ [] → self) :
    Effect (Around rib e.name self) u
      (if (route.isChildInherit && route.isCapture) = true then
        modifyChildrensInheritedRoutes rib
          (u.addInheritedRoutes e (if captureWasTurnedOff = true then rib.getAncestorRoutes e else .empty)) e.children
          (if captureWasTurnedOff = true then rib.getAncestorRoutes e else .empty) (.singleton route)
      else if route.isChildInherit = true then
        modifyChildrensInheritedRoutes rib u e.children
          (if (!e.hasCapture) = true then rib.getAncestorRoutes e else .empty) (.singleton route)
      else if route.isCapture = true then
        modifyChildrensInheritedRoutes rib
          (u.addInheritedRoutes e (if captureWasTurnedOff = true then rib.getAncestorRoutes e else .empty)) e.children
          (if captureWasTurnedOff = true then rib.getAncestorRoutes e else .empty) .empty
      else u) fun m f c =>
        (onlyIf (m = e.name ∧ captureWasTurnedOff = true ∧ (rib.getAncestorRoutes e).has f = true ∧
            (!e.hasFaceId f) = true) gain c).bind
          (sweep rib e.children
            (fun f => letsThrough e route captureWasTurnedOff && (rib.getAncestorRoutes e).has f)
            (fun f => route.isChildInherit && route.faceId == f) m f) := by
  have hsweep := modifyChildrens_sweep hv hnodup hchild self
  have hancestors : ∀ u, Effect (Around rib e.name self) u
      (u.addInheritedRoutes e (if captureWasTurnedOff = true then rib.getAncestorRoutes e else .empty)) _ := fun u =>
    addInheritedRoutes_ancestors u e captureWasTurnedOff hself
  have hsets : ∀ (b : Bool) f, (if b = true then rib.getAncestorRoutes e else .empty).has f =
      (b && (rib.getAncestorRoutes e).has f) := by
    intro b f
    cases b <;> rfl
  have hstays : route.isCapture = false → captureWasTurnedOff = false := fun hcapture =>
    Bool.eq_false_of_not_eq_true fun h => Bool.false_ne_true (hcapture.symm.trans (hoff h))
  unfold letsThrough
  cases hinherit : route.isChildInherit with
  | true =>
      cases hcapture : route.isCapture with
      | true =>
          exact (hancestors u).trans (hsweep _ _ _ _ _ (hsets captureWasTurnedOff) (RouteSet.has_singleton route))
      | false =>
          refine (hsweep u _ _ _ _ (hsets !e.hasCapture) (RouteSet.has_singleton route)).congr fun m f c => ?_
          rw [hstays hcapture, onlyIf_neg fun h => Bool.false_ne_true h.2.1, Option.bind_some]
          rfl
  | false =>
      cases hcapture : route.isCapture with
      | true =>
          exact (hancestors u).trans (hsweep _ _ .empty _ (fun _ => false) (hsets captureWasTurnedOff) fun _ => rfl)
      | false =>
          refine (Effect.none rfl).congr fun m f c => ?_
          rw [hstays hcapture, onlyIf_neg fun h => Bool.false_ne_true h.2.1, Option.bind_some,
            sweep_none rib e.children rfl rfl]

/-- The entry itself inherits in place of its erased route. -/
theorem erasedRoute_own (u : FibUpdater) (route : Route) {self : Prop} (hself : e.getNRoutes ≠ 0 → self) :
    Effect (Around rib e.name self) u
      (if (!e.hasCapture && e.getNRoutes != 0) = true then
        ((rib.getAncestorRoutes e).find route.faceId).elim u (inherit e.name u)
      else u) fun m f => onlyIf (m = e.name ∧ (!e.hasCapture && e.getNRoutes != 0) = true ∧
          (rib.getAncestorRoutes e).has f = true ∧ route.faceId = f) gain := by
  split
  · rename_i hopen
    rw [Bool.and_eq_true, bne_iff_ne] at hopen
    cases hfind : (rib.getAncestorRoutes e).find route.faceId with
    | none =>
        refine (Effect.none rfl).congr fun m f c => (congrFun (onlyIf_neg ?_) c).symm
        rintro ⟨-, -, hhas, rfl⟩
        rw [← RouteSet.find_isSome, hfind] at hhas
        cases hhas
    | some x =>
        refine ((inherit_effect e.name u x).self rib (hself hopen.2)).congr fun m f c => ?_
        refine congrFun (onlyIf_congr (and_congr_right fun _ => ?_)) c
        rw [RouteSet.find_faceId hfind]
        constructor
        · rintro rfl
          rw [Bool.and_eq_true, bne_iff_ne, ← RouteSet.find_isSome, hfind]
          exact ⟨hopen, rfl, rfl⟩
        · exact fun h => h.2.2.symm
  · rename_i hclosed
    exact (Effect.none rfl).congr fun m f c => (congrFun (onlyIf_neg fun h => hclosed h.2.1) c).symm

/-- The entry and its descendants get what the erased route kept from them. -/
theorem erasedRoute_effect (hv : rib.Valid) (hnodup : e.children.Nodup)
    (hchild : ∀ c ∈ e.children, PrefixTree.IsChild rib.Has e.name c) (u : FibUpdater) (route : Route)
    (captureWasTurnedOff : Bool) (hoff : captureWasTurnedOff = true → route.isCapture = true) :
    Effect (Around rib e.name (e.getNRoutes ≠ 0 ∨ captureWasTurnedOff = true ∧ (rib.getAncestorRoutes e).routes ≠ [])) u
      (createFibUpdatesForErasedRoute rib u e route captureWasTurnedOff) fun m f c =>
        ((onlyIf (m = e.name ∧ captureWasTurnedOff = true ∧ (rib.getAncestorRoutes e).has f = true ∧
            (!e.hasFaceId f) = true) gain c).bind
          (sweep rib e.children
            (fun f => letsThrough e route captureWasTurnedOff && (rib.getAncestorRoutes e).has f)
            (fun f => route.isChildInherit && route.faceId == f) m f)).bind
          (onlyIf (m = e.name ∧ (!e.hasCapture && e.getNRoutes != 0) = true ∧ (rib.getAncestorRoutes e).has f = true ∧
            route.faceId = f) gain) := by
  unfold createFibUpdatesForErasedRoute
  dsimp only
  have hbelow := fun u => erasedRoute_below hv hnodup hchild u route captureWasTurnedOff hoff
    (e.getNRoutes ≠ 0 ∨ captureWasTurnedOff = true ∧ (rib.getAncestorRoutes e).routes ≠ [])
    fun hb hroutes => Or.inr ⟨hb, hroutes⟩
  exact Effect.start (addFibUpdate_inheritedRoutes u (.createRemoveUpdate e.name route.faceId))
    ((hbelow _).trans (erasedRoute_own _ route Or.inl))

theorem createFibUpdatesForErasedRibEntry_inheritedRoutes (u : FibUpdater) (e : RibEntry) :
    (u.createFibUpdatesForErasedRibEntry e).inheritedRoutes = u.inheritedRoutes := by
  unfold createFibUpdatesForErasedRibEntry
  induction e.inheritedRoutes generalizing u with
  | nil => rfl
  | cons r routes ih => rw [List.foldl_cons, ih, addFibUpdate_inheritedRoutes]

end FibUpdater
end NfdPitless
