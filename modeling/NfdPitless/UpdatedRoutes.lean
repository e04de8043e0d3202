import NfdPitless.InheritedEffects

/-! A route that is registered again (`FibUpdater::createFibUpdatesForUpdatedRoute`). When it loses the lowest cost of
its face, the entry's nexthop gets the cost of the cheapest route with CHILD_INHERIT, whether there is one or not. -/

namespace NfdPitless

variable {rib : Rib} {n : Name} {e : RibEntry} {route existing : Route}

namespace RibEntry

/-- The routes of the face but the one of this origin. -/
def othersOnFace (e : RibEntry) (route : Route) : List Route :=
  (e.eraseRoute route).routes.filter fun r => r.faceId == route.faceId

/-- The routes of the face after the update. -/
theorem onFace_perm (hfind : e.findRoute route = some existing) :
    ((e.updateRoute route).routes.filter fun r => r.faceId == route.faceId).Perm (route :: e.othersOnFace route) := by
  have hperm := (Lists.perm_replaceFirst route hfind).filter fun r => r.faceId == route.faceId
  rw [List.filter_cons_of_pos (p := fun r : Route => r.faceId == route.faceId) (beq_self_eq_true route.faceId)] at hperm
  rw [othersOnFace, eraseRoute, hfind]
  exact hperm

/-- The lowest cost of the face after the update. -/
theorem lowestCost_updateRoute (hfind : e.findRoute route = some existing) :
    ∃ lowest, (e.updateRoute route).getRouteWithLowestCostByFaceId route.faceId = some lowest ∧
      (lowest = route ∨ lowest ∈ e.othersOnFace route) ∧ lowest.cost ≤ route.cost ∧
        ∀ other ∈ e.othersOnFace route, lowest.cost ≤ other.cost := by
  have hmem : ∀ x, x ∈ (e.updateRoute route).routes.filter (fun r => r.faceId == route.faceId) ↔
      x = route ∨ x ∈ e.othersOnFace route := fun x => (onFace_perm hfind).mem_iff.trans List.mem_cons
  rcases Route.lowestCost_spec ((e.updateRoute route).routes.filter fun r => r.faceId == route.faceId) with
    ⟨hnil, -⟩ | ⟨lowest, hlowest, hin, hle⟩
  · have hroute := (hmem route).mpr (Or.inl rfl)
    rw [hnil] at hroute
    cases hroute
  · exact ⟨lowest, hlowest, (hmem lowest).mp hin, hle _ ((hmem route).mpr (Or.inl rfl)),
      fun other hother => hle _ ((hmem other).mpr (Or.inr hother))⟩

/-- A route of the face with CHILD_INHERIT after the update. -/
theorem lowestCostAndChildInherit_updateRoute (hfind : e.findRoute route = some existing) :
    ((e.updateRoute route).getRouteWithLowestCostAndChildInheritByFaceId route.faceId).isSome = true ↔
      route.isChildInherit = true ∨ ∃ other ∈ e.othersOnFace route, other.isChildInherit = true := by
  have hfilter : ((e.updateRoute route).routes.filter fun r => r.faceId == route.faceId && r.isChildInherit) =
      ((e.updateRoute route).routes.filter fun r => r.faceId == route.faceId).filter Route.isChildInherit := by
    rw [List.filter_filter]
    exact List.filter_congr fun r _ => Bool.and_comm _ _
  have hany : (∃ r ∈ (e.updateRoute route).routes.filter fun r => r.faceId == route.faceId && r.isChildInherit, True) ↔
      route.isChildInherit = true ∨ ∃ other ∈ e.othersOnFace route, other.isChildInherit = true := by
    simp only [and_true, hfilter, List.mem_filter (p := Route.isChildInherit), (onFace_perm hfind).mem_iff,
      List.mem_cons, or_and_right, exists_or, exists_eq_left]
  rw [← hany, getRouteWithLowestCostAndChildInheritByFaceId]
  rcases Route.lowestCost_spec
      ((e.updateRoute route).routes.filter fun r => r.faceId == route.faceId && r.isChildInherit) with
    ⟨hnil, hnone⟩ | ⟨r, hsome, hmem, -⟩
  · rw [hnone, hnil]
    exact iff_of_false Bool.false_ne_true fun ⟨_, hr, _⟩ => List.not_mem_nil hr
  · rw [hsome]
    exact iff_of_true rfl ⟨r, hmem, trivial⟩

end RibEntry

namespace FibUpdater

variable {u : FibUpdater}

/-- When the route stops being the cheapest of its face, a route of the face has CHILD_INHERIT. -/
def HasPrevRoute (e : RibEntry) (route existing : Route) : Prop :=
  (∀ other ∈ e.othersOnFace route, route.cost ≤ other.cost) ∨
    (∃ other ∈ e.othersOnFace route, other.cost ≤ existing.cost) ∨
      route.isChildInherit = true ∨ ∃ other ∈ e.othersOnFace route, other.isChildInherit = true

theorem hasPrevRoute_of_cost_eq (h : route.cost = existing.cost) : HasPrevRoute e route existing := by
  by_cases hall : ∀ other ∈ e.othersOnFace route, route.cost ≤ other.cost
  · exact Or.inl hall
  · push Not at hall
    obtain ⟨other, hother, hlt⟩ := hall
    exact Or.inr (Or.inl ⟨other, hother, h ▸ hlt.le⟩)

/-- The entry's own nexthop. -/
theorem updateOwnNextHop_isSome_iff (hfind : e.findRoute route = some existing) :
    (u.updateOwnNextHop (e.updateRoute route) route existing).isSome = true ↔ HasPrevRoute e route existing := by
  obtain ⟨lowest, hlowest, hmem, hle, hleast⟩ := RibEntry.lowestCost_updateRoute hfind
  unfold updateOwnNextHop
  rw [hlowest]
  dsimp only
  by_cases hcheapest : route.cost ≤ lowest.cost
  · rw [if_pos hcheapest]
    exact iff_of_true rfl (Or.inl fun other hother => hcheapest.trans (hleast other hother))
  · -- the cheapest is another route
    have hother : lowest ∈ e.othersOnFace route := hmem.resolve_left fun heq => hcheapest (heq ▸ le_rfl)
    have hnot : ¬ ∀ other ∈ e.othersOnFace route, route.cost ≤ other.cost := fun hall => hcheapest (hall lowest hother)
    rw [if_neg hcheapest, HasPrevRoute, or_iff_right hnot]
    by_cases hwas : existing.cost < lowest.cost
    · have hnone : ¬ ∃ other ∈ e.othersOnFace route, other.cost ≤ existing.cost := fun ⟨other, hin, hcost⟩ =>
        absurd (hwas.trans_le (hleast other hin)) (not_lt.mpr hcost)
      rw [if_pos hwas, Option.isSome_map, or_iff_right hnone]
      exact RibEntry.lowestCostAndChildInherit_updateRoute hfind
    · rw [if_neg hwas]
      exact iff_of_true rfl (Or.inl ⟨lowest, hother, not_lt.mp hwas⟩)

/-- A registration of a route that is there comes to its end, with no null pointer followed, exactly if the nexthop has
a route to use. -/
theorem registration_completes_iff (u : FibUpdater) (he : rib.entries n = some e)
    (hfind : e.findRoute route = some existing) :
    (computeUpdatesForRegistration rib u n route).isSome = true ↔ HasPrevRoute e route existing := by
  unfold computeUpdatesForRegistration
  rw [he]
  dsimp only
  rw [hfind]
  dsimp only
  unfold createFibUpdatesForUpdatedRoute
  dsimp only
  by_cases hcost : route.cost = existing.cost
  · refine iff_of_true ?_ (hasPrevRoute_of_cost_eq hcost)
    rw [hcost, bne_self_eq_false]
    split
    · rfl
    · rfl
  · rw [if_neg fun h => h.2 (bne_iff_ne.mpr hcost), if_pos (bne_iff_ne.mpr hcost), Option.isSome_map]
    exact updateOwnNextHop_isSome_iff hfind

/-- A RIB with two routes of one face: of an application, and of the administrator. -/
def twoRoutes : Option Rib :=
  (Rib.empty.insert [.ofByte 65] ⟨1, 0, 0, 10⟩).bind fun rib => rib.insert [.ofByte 65] ⟨1, 255, 0, 50⟩

/-- The administrator's route becomes the cheapest. -/
theorem registration_completes_lower : ∃ rib e, twoRoutes = some rib ∧ rib.entries [.ofByte 65] = some e ∧
    (computeUpdatesForRegistration rib (.new 1) [.ofByte 65] ⟨1, 255, 0, 5⟩).isSome = true := by
  have hrib : twoRoutes.any (fun rib => (rib.entries [.ofByte 65]).any fun e =>
      Decidable.decide (e.findRoute ⟨1, 255, 0, 5⟩ = some ⟨1, 255, 0, 50⟩ ∧
        ∀ other ∈ e.othersOnFace ⟨1, 255, 0, 5⟩, 5 ≤ other.cost)) = true := by decide +kernel
  obtain ⟨rib, hrib, hentry⟩ := (Option.any_eq_true _ _).mp hrib
  obtain ⟨e, he, hboth⟩ := (Option.any_eq_true _ _).mp hentry
  obtain ⟨hfind, hcheapest⟩ := of_decide_eq_true hboth
  exact ⟨rib, e, hrib, he, (registration_completes_iff (.new 1) he hfind).mpr (Or.inl hcheapest)⟩

/-- The application's route becomes the dearer one: the nexthop is to get the cost of a route with CHILD_INHERIT. -/
theorem registration_follows_null : ∃ rib e, twoRoutes = some rib ∧ rib.entries [.ofByte 65] = some e ∧
    e.findRoute ⟨1, 0, 0, 100⟩ = some ⟨1, 0, 0, 10⟩ ∧
      computeUpdatesForRegistration rib (.new 1) [.ofByte 65] ⟨1, 0, 0, 100⟩ = none := by
  have hrib : twoRoutes.any (fun rib => (rib.entries [.ofByte 65]).any fun e =>
      Decidable.decide (e.findRoute ⟨1, 0, 0, 100⟩ = some ⟨1, 0, 0, 10⟩) &&
        (computeUpdatesForRegistration rib (.new 1) [.ofByte 65] ⟨1, 0, 0, 100⟩).isNone) = true := by decide +kernel
  obtain ⟨rib, hrib, hentry⟩ := (Option.any_eq_true _ _).mp hrib
  obtain ⟨e, he, hboth⟩ := (Option.any_eq_true _ _).mp hentry
  obtain ⟨hfind, hnone⟩ := Bool.and_eq_true_iff.mp hboth
  exact ⟨rib, e, hrib, he, of_decide_eq_true hfind, Option.isNone_iff_eq_none.mp hnone⟩

end FibUpdater
end NfdPitless
