import NfdPitless.RibTree

/-! What one insertion or erasure of a route does to the RIB: the pointers stay right, and the routes of one entry
change. -/

namespace NfdPitless

namespace Route

/-- What `compareFaceIdAndOrigin` compares. -/
def key (r : Route) : FaceId × Nat := (r.faceId, r.origin)

theorem compareFaceIdAndOrigin_iff {r s : Route} : r.compareFaceIdAndOrigin s = true ↔ r.key = s.key := by
  rw [compareFaceIdAndOrigin, Bool.and_eq_true, beq_iff_eq, beq_iff_eq, key, key, Prod.mk.injEq]

theorem compareFaceIdAndOrigin_eq (s : Route) :
    (fun r : Route => r.compareFaceIdAndOrigin s) = fun r => @BEq.beq _ instBEqOfDecidableEq r.key s.key := by
  funext r
  rw [Bool.eq_iff_iff, compareFaceIdAndOrigin_iff]
  exact decide_eq_true_iff.symm

end Route

namespace RibEntry

variable {e : RibEntry} {r s : Route}

/-- What inserting a route does to an entry that is there. -/
def put (e : RibEntry) (route : Route) : RibEntry :=
  match e.findRoute route with
  | some _ => e.updateRoute route
  | none => e.insertRoute route

theorem findRoute_eq_none : e.findRoute r = none ↔ ∀ s ∈ e.routes, s.key ≠ r.key := by
  rw [findRoute, List.find?_eq_none]
  exact forall₂_congr fun s _ => not_congr Route.compareFaceIdAndOrigin_iff

theorem findRoute_some (h : e.findRoute r = some s) : s ∈ e.routes ∧ s.key = r.key := by
  rw [findRoute] at h
  have hs := List.find?_some h
  exact ⟨List.mem_of_find?_eq_some h, Route.compareFaceIdAndOrigin_iff.mp hs⟩

theorem put_of_none (h : e.findRoute r = none) : e.put r = e.insertRoute r := by
  rw [put, h]

theorem put_of_some (h : e.findRoute r = some s) : e.put r = e.updateRoute r := by
  rw [put, h]

theorem insertRoute_routes (h : e.findRoute r = none) : (e.insertRoute r).routes = e.routes ++ [r] := by
  rw [insertRoute, h]

theorem eraseRoute_routes (h : e.findRoute r = some s) :
    (e.eraseRoute r).routes = e.routes.eraseP fun x => x.compareFaceIdAndOrigin r := by
  rw [eraseRoute, h]

@[simp] theorem put_name (e : RibEntry) (r : Route) : (e.put r).name = e.name := by
  unfold put
  split
  · rfl
  · exact insertRoute_name e r

@[simp] theorem put_parent (e : RibEntry) (r : Route) : (e.put r).parent = e.parent := by
  unfold put
  split
  · rfl
  · exact insertRoute_parent e r

@[simp] theorem put_children (e : RibEntry) (r : Route) : (e.put r).children = e.children := by
  unfold put
  split
  · rfl
  · exact insertRoute_children e r

/-- A route that is put keeps the keys apart. -/
theorem put_nodup (h : (e.routes.map Route.key).Nodup) (r : Route) : ((e.put r).routes.map Route.key).Nodup := by
  cases hfind : e.findRoute r with
  | none =>
      rw [put_of_none hfind, insertRoute_routes hfind, List.map_append]
      refine h.append (List.nodup_singleton _) fun k hk hr => ?_
      obtain ⟨s, hs, rfl⟩ := List.mem_map.mp hk
      exact findRoute_eq_none.mp hfind s hs (List.mem_singleton.mp hr)
  | some s =>
      rw [put_of_some hfind, updateRoute, Route.compareFaceIdAndOrigin_eq]
      dsimp only
      rwa [Lists.replaceFirst_map ⟨s, findRoute_some hfind⟩]

theorem mem_put {s' : Route} (h : s' ∈ (e.put r).routes) : s' = r ∨ s' ∈ e.routes := by
  cases hfind : e.findRoute r with
  | none =>
      rw [put_of_none hfind, insertRoute_routes hfind] at h
      exact (List.mem_append.mp h).symm.imp_left List.mem_singleton.mp
  | some s =>
      rw [put_of_some hfind] at h
      exact Lists.mem_of_replaceFirst h

theorem hasFaceId_iff {f : FaceId} : e.hasFaceId f = true ↔ ∃ r ∈ e.routes, r.faceId = f := by
  simp only [hasFaceId, List.any_eq_true, beq_iff_eq]

end RibEntry

namespace Rib

variable {rib rib' : Rib} {n : Name} {r s : Route} {e : RibEntry}

theorem extends_self (rib : Rib) : rib.Extends rib.entries := fun m => by
  cases hm : rib.entries m with
  | none => exact ⟨none, [], rfl⟩
  | some x => exact ⟨x.parent, x.children, rfl⟩

/-- The entry of a name when a route has been inserted there, but for its pointers. -/
def entryWith (rib : Rib) (name : Name) (route : Route) : RibEntry := ((rib.entries name).getD (.new name)).put route

theorem Valid.insert_old (hv : rib.Valid) (he : rib.entries n = some e) (h : rib.insert n r = some rib') :
    rib'.Valid ∧ rib'.entries = Function.update rib.entries n (some (e.put r)) := by
  have hnames : rib'.names = rib.names := by
    rw [insert, he] at h
    dsimp only at h
    split at h <;> cases h <;> rfl
  have hent : rib'.entries = Function.update rib.entries n (some (e.put r)) := by
    rw [insert, he] at h
    dsimp only at h
    split at h
    · rename_i hfind
      cases h
      rw [RibEntry.put_of_none hfind]
      funext m
      simp only [registerFace, modifyEntry, he, Option.map_some]
    · rename_i hfind
      cases h
      rw [RibEntry.put_of_some hfind]
      funext m
      simp only [modifyEntry, he, Option.map_some]
  have hface : ∀ f m, m ∈ rib.faceMap f → m ∈ rib'.faceMap f := by
    rw [insert, he] at h
    dsimp only at h
    split at h
    · cases h
      intro f m hm
      rw [registerFace]
      dsimp only
      rw [Function.update_apply]
      split
      · rename_i hfr
        exact List.mem_append_left _ (hfr ▸ hm)
      · exact hm
    · cases h
      exact fun _ _ hm => hm
  have hnew : n ∈ rib'.faceMap r.faceId := by
    cases hfind : e.findRoute r with
    | none =>
        rw [insert, he] at h
        dsimp only at h
        rw [hfind] at h
        cases h
        rw [registerFace]
        dsimp only
        rw [Function.update_self]
        exact List.mem_append_right _ (List.mem_singleton_self n)
    | some s =>
        obtain ⟨hs, hkey⟩ := RibEntry.findRoute_some hfind
        exact hface _ n (hv.mem_faceMap n e r.faceId he (RibEntry.hasFaceId_iff.mpr ⟨s, hs, (Prod.mk.inj hkey).1⟩))
  refine ⟨hv.modify (fun m e => if m = n then e.put r else e) hnames (fun m => ?_) (fun m e => ?_) (fun m e => ?_)
    (fun m e => ?_) (fun m e' he' => ?_) fun m e' f he' hf => ?_, hent⟩
  · rw [hent, Function.update_apply]
    by_cases hm : m = n
    · simp [hm, he]
    · simp [hm]
  · split <;> simp
  · split <;> simp
  · split <;> simp
  · split
    · exact RibEntry.put_nodup (hv.routes_nodup m e' he') r
    · exact hv.routes_nodup m e' he'
  · split at hf
    · rename_i hm
      obtain ⟨s, hs, rfl⟩ := RibEntry.hasFaceId_iff.mp hf
      rcases RibEntry.mem_put hs with rfl | hs
      · exact hm ▸ hnew
      · exact hface _ m (hv.mem_faceMap m e' s.faceId he' (RibEntry.hasFaceId_iff.mpr ⟨s, hs, rfl⟩))
    · exact hface f m (hv.mem_faceMap m e' f he' hf)

/-- An insertion keeps the pointers right and changes the routes of one entry. -/
theorem Valid.insert (hv : rib.Valid) (h : rib.insert n r = some rib') :
    rib'.Valid ∧ rib'.Extends (Function.update rib.entries n (some (rib.entryWith n r))) := by
  cases he : rib.entries n with
  | none =>
      obtain ⟨hv', hextends⟩ := insert_new_spec hv he h
      refine ⟨hv', ?_⟩
      rw [entryWith, he, Option.getD_none, RibEntry.put_of_none rfl]
      exact hextends
  | some e =>
      obtain ⟨hv', hent⟩ := hv.insert_old he h
      rw [entryWith, he, Option.getD_some, ← hent]
      exact ⟨hv', extends_self rib'⟩

/-- The entries when a route has been erased at a name, but for their pointers. -/
def entriesWithout (rib : Rib) (name : Name) (route : Route) : Name → Option RibEntry :=
  match rib.entries name with
  | none => rib.entries
  | some e =>
      if (e.findRoute route).isNone then rib.entries
      else
        Function.update rib.entries name
          (if (e.eraseRoute route).getNRoutes = 0 then none else some (e.eraseRoute route))

/-- The table with the route erased, before an empty entry is. -/
def withoutRoute (rib : Rib) (name : Name) (route : Route) (e : RibEntry) : Rib :=
  if (e.eraseRoute route).hasFaceId route.faceId then rib.modifyEntry name fun _ => e.eraseRoute route
  else
    { rib.modifyEntry name fun _ => e.eraseRoute route with
      faceMap := Function.update rib.faceMap route.faceId
        ((rib.faceMap route.faceId).filter fun n => n != name) }

theorem Valid.withoutRoute (hv : rib.Valid) (he : rib.entries n = some e) (hs : e.findRoute r = some s) :
    (rib.withoutRoute n r e).Valid ∧
      (rib.withoutRoute n r e).entries = Function.update rib.entries n (some (e.eraseRoute r)) := by
  have hnames : (rib.withoutRoute n r e).names = rib.names := by
    unfold Rib.withoutRoute
    split <;> rfl
  have hent : (rib.withoutRoute n r e).entries = Function.update rib.entries n (some (e.eraseRoute r)) := by
    unfold Rib.withoutRoute
    split <;> simp only [modifyEntry, he, Option.map_some]
  have hface : ∀ f m, m ∈ rib.faceMap f → (m = n → (e.eraseRoute r).hasFaceId f = true) →
      m ∈ (rib.withoutRoute n r e).faceMap f := by
    intro f m hm hstays
    unfold Rib.withoutRoute
    split
    · exact hm
    · rename_i hgone
      dsimp only
      rw [Function.update_apply]
      split
      · rename_i hfr
        rw [← hfr, List.mem_filter, bne_iff_ne]
        refine ⟨hm, fun hmn => hgone ?_⟩
        rw [← hfr]
        exact hstays hmn
      · exact hm
  have hsub : ∀ x ∈ (e.eraseRoute r).routes, x ∈ e.routes := fun x hx => by
    rw [RibEntry.eraseRoute_routes hs] at hx
    exact List.mem_of_mem_eraseP hx
  refine ⟨hv.modify (fun m e' => if m = n then e'.eraseRoute r else e') hnames (fun m => ?_) (fun m e' => ?_)
    (fun m e' => ?_) (fun m e' => ?_) (fun m e' he' => ?_) fun m e' f he' hf => ?_, hent⟩
  · rw [hent, Function.update_apply]
    by_cases hm : m = n
    · simp [hm, he]
    · simp [hm]
  · split <;> simp
  · split <;> simp
  · split <;> simp
  · split
    · rename_i hm
      cases he.symm.trans (hm ▸ he')
      rw [RibEntry.eraseRoute_routes hs]
      exact (hv.routes_nodup n e he).sublist (List.eraseP_sublist.map _)
    · exact hv.routes_nodup m e' he'
  · split at hf
    · rename_i hm
      cases he.symm.trans (hm ▸ he')
      obtain ⟨x, hx, rfl⟩ := RibEntry.hasFaceId_iff.mp hf
      refine hface _ m (hm ▸ hv.mem_faceMap n e x.faceId he ?_) fun _ => hf
      exact RibEntry.hasFaceId_iff.mpr ⟨x, hsub x hx, rfl⟩
    · rename_i hm
      exact hface f m (hv.mem_faceMap m e' f he' hf) fun hmn => absurd hmn hm

/-- An erasure keeps the pointers right and changes the routes of one entry. -/
theorem Valid.erase (hv : rib.Valid) (h : rib.erase n r = some rib') :
    rib'.Valid ∧ rib'.Extends (rib.entriesWithout n r) := by
  unfold entriesWithout
  cases he : rib.entries n with
  | none =>
      rw [Rib.erase, he] at h
      cases h
      exact ⟨hv, rib.extends_self⟩
  | some e =>
      cases hs : e.findRoute r with
      | none =>
          rw [Rib.erase, he] at h
          dsimp only at h
          rw [hs] at h
          cases h
          dsimp only
          rw [hs, Option.isNone_none, if_pos rfl]
          exact ⟨hv, rib.extends_self⟩
      | some s =>
          obtain ⟨hv₁, hent₁⟩ := hv.withoutRoute he hs
          have hrest : (if (e.eraseRoute r).getNRoutes = 0 then (rib.withoutRoute n r e).eraseEntry n
              else some (rib.withoutRoute n r e)) = some rib' := by
            rw [Rib.erase, he] at h
            dsimp only at h
            rw [hs] at h
            exact h
          dsimp only
          rw [hs, Option.isNone_some, if_neg Bool.false_ne_true]
          split at hrest
          · rename_i hempty
            obtain ⟨hv', hextends⟩ := eraseEntry_spec hv₁ (by rw [hent₁, Function.update_self]) hrest
            rw [hent₁, Function.update_idem] at hextends
            rw [if_pos hempty]
            exact ⟨hv', hextends⟩
          · rename_i hleft
            cases hrest
            rw [if_neg hleft, ← hent₁]
            exact ⟨hv₁, extends_self _⟩

end Rib
end NfdPitless
