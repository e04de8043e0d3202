import NfdPitless.RibStructure

/-! The face lookup table of the RIB (`m_faceMap`). An entry is added to the list of a face with every new route, but
taken from it once, with the last route, so an entry with routes of two origins on a face is listed twice. -/

namespace NfdPitless.Rib

variable {rib rib' : Rib} {n p c : Name} {e : RibEntry} {r s : Route} {parent : Option Name} {f : FaceId}

theorem addChild_faceMap (h : rib.addChild p c = some rib') : rib'.faceMap = rib.faceMap := by
  unfold addChild at h
  split at h <;> cases h
  rfl

theorem removeChild_faceMap (h : rib.removeChild p c = some rib') : rib'.faceMap = rib.faceMap := by
  unfold removeChild at h
  split at h <;> cases h
  rfl

theorem addChildTo_faceMap (h : rib.addChildTo parent c = some rib') : rib'.faceMap = rib.faceMap := by
  cases parent with
  | none =>
      cases h
      rfl
  | some p => exact addChild_faceMap h

theorem removeChildFrom_faceMap (h : rib.removeChildFrom parent c = some rib') : rib'.faceMap = rib.faceMap := by
  cases parent with
  | none =>
      cases h
      rfl
  | some p => exact removeChild_faceMap h

theorem adoptChild_faceMap (h : adoptChild n parent rib c = some rib') : rib'.faceMap = rib.faceMap := by
  unfold adoptChild at h
  split at h
  · obtain ⟨rib₁, h₁, h₂⟩ := Option.bind_eq_some_iff.mp h
    exact (addChild_faceMap h₂).trans (removeChildFrom_faceMap h₁)
  · cases h
    rfl

theorem releaseChild_faceMap (h : releaseChild n parent rib c = some rib') : rib'.faceMap = rib.faceMap := by
  obtain ⟨rib₁, h₁, h₂⟩ := Option.bind_eq_some_iff.mp h
  exact (addChildTo_faceMap h₂).trans (removeChild_faceMap h₁)

theorem foldlM_faceMap {move : Rib → Name → Option Rib}
    (hmove : ∀ {rib c rib'}, move rib c = some rib' → rib'.faceMap = rib.faceMap) (children : List Name)
    (h : children.foldlM move rib = some rib') : rib'.faceMap = rib.faceMap := by
  induction children generalizing rib with
  | nil =>
      cases h
      rfl
  | cons c children ih =>
      obtain ⟨rib₁, h₁, h₂⟩ := Option.bind_eq_some_iff.mp h
      exact (ih h₂).trans (hmove h₁)

/-- An insertion lists the entry unless it has the route. -/
theorem insert_faceMap (h : rib.insert n r = some rib') : rib'.faceMap =
    if SizedRib.hasRoute rib n r then rib.faceMap
    else Function.update rib.faceMap r.faceId (rib.faceMap r.faceId ++ [n]) := by
  rw [SizedRib.hasRoute]
  cases he : rib.entries n with
  | some e =>
      rw [insert, he] at h
      dsimp only at h
      rw [Option.any_some]
      cases hs : e.findRoute r with
      | none =>
          rw [hs] at h
          cases h
          rfl
      | some s =>
          rw [hs] at h
          cases h
          rfl
  | none =>
      rw [insert, he] at h
      obtain ⟨rib₁, h₁, h⟩ := Option.bind_eq_some_iff.mp h
      obtain ⟨rib₂, h₂, rfl⟩ := Option.map_eq_some_iff.mp h
      have hsame := (foldlM_faceMap adoptChild_faceMap _ h₂).trans (addChildTo_faceMap h₁)
      rw [registerFace]
      dsimp only
      rw [hsame]
      rfl

theorem eraseEntry_faceMap (h : rib.eraseEntry n = some rib') : rib'.faceMap = rib.faceMap := by
  unfold eraseEntry at h
  split at h
  · cases h
    rfl
  · obtain ⟨rib₁, h₁, h⟩ := Option.bind_eq_some_iff.mp h
    obtain ⟨rib₂, h₂, rfl⟩ := Option.map_eq_some_iff.mp h
    exact (foldlM_faceMap releaseChild_faceMap _ h₂).trans (removeChildFrom_faceMap h₁)

/-- An erasure of a route takes the entry from the list when it was the last of the face. -/
theorem erase_faceMap (he : rib.entries n = some e) (hs : e.findRoute r = some s) (h : rib.erase n r = some rib') :
    rib'.faceMap = if (e.eraseRoute r).hasFaceId r.faceId then rib.faceMap
      else Function.update rib.faceMap r.faceId ((rib.faceMap r.faceId).filter fun m => m != n) := by
  have hwithout : (rib.withoutRoute n r e).faceMap = if (e.eraseRoute r).hasFaceId r.faceId then rib.faceMap
      else Function.update rib.faceMap r.faceId ((rib.faceMap r.faceId).filter fun m => m != n) := by
    unfold withoutRoute
    split <;> rfl
  have hrest : (if (e.eraseRoute r).getNRoutes = 0 then (rib.withoutRoute n r e).eraseEntry n
      else some (rib.withoutRoute n r e)) = some rib' := by
    rw [Rib.erase, he] at h
    dsimp only at h
    rw [hs] at h
    exact h
  rw [← hwithout]
  split at hrest
  · exact eraseEntry_faceMap hrest
  · cases hrest
    rfl

/-- The list of a face is of the entries that have a route on it. -/
structure FaceIndexed (rib : Rib) : Prop where
  valid : rib.Valid
  mem_faceMap : ∀ f n, n ∈ rib.faceMap f ↔ ∃ e, rib.entries n = some e ∧ e.hasFaceId f = true

/-- The routes of a face are listed, each once. -/
def ListsFace (rib : Rib) (f : FaceId) : Prop :=
  (rib.findRoutesWithFaceId f).Nodup ∧ ∀ n r, (n, r) ∈ rib.findRoutesWithFaceId f ↔
    r.faceId = f ∧ ∃ e, rib.entries n = some e ∧ r ∈ e.routes

/-- The routes of a face at one name. -/
def routesAt (rib : Rib) (f : FaceId) (n : Name) : List (Name × Route) :=
  (rib.entries n).elim [] fun e => (e.routes.filter fun r => r.faceId == f).map fun r => (n, r)

theorem mem_routesAt {m : Name} : (m, r) ∈ rib.routesAt f n ↔
    m = n ∧ r.faceId = f ∧ ∃ e, rib.entries n = some e ∧ r ∈ e.routes := by
  rw [routesAt]
  cases rib.entries n with
  | none => simp
  | some e =>
      simp only [Option.elim_some, List.mem_map, List.mem_filter, beq_iff_eq, Prod.mk.injEq]
      constructor
      · rintro ⟨x, ⟨hx, hface⟩, rfl, rfl⟩
        exact ⟨rfl, hface, e, rfl, hx⟩
      · rintro ⟨rfl, hface, e', he', hr⟩
        cases he'
        exact ⟨r, ⟨hr, hface⟩, rfl, rfl⟩

theorem FaceIndexed.routesAt_ne_nil (h : rib.FaceIndexed) (hn : n ∈ rib.faceMap f) :
    ∃ r, (n, r) ∈ rib.routesAt f n := by
  obtain ⟨e, he, hface⟩ := (h.mem_faceMap f n).mp hn
  obtain ⟨r, hr, hrf⟩ := RibEntry.hasFaceId_iff.mp hface
  exact ⟨r, mem_routesAt.mpr ⟨rfl, hrf, e, he, hr⟩⟩

theorem FaceIndexed.routesAt_nodup (h : rib.FaceIndexed) (f : FaceId) (n : Name) : (rib.routesAt f n).Nodup := by
  rw [routesAt]
  cases he : rib.entries n with
  | none => exact List.nodup_nil
  | some e =>
      have hroutes : e.routes.Nodup := (h.valid.routes_nodup n e he).of_map
      exact (hroutes.filter _).map fun _ _ heq => (Prod.mk.inj heq).2

theorem findRoutesWithFaceId_eq (rib : Rib) (f : FaceId) :
    rib.findRoutesWithFaceId f = (rib.faceMap f).flatMap (rib.routesAt f) := rfl

theorem FaceIndexed.mem_findRoutesWithFaceId (h : rib.FaceIndexed) : (n, r) ∈ rib.findRoutesWithFaceId f ↔
    r.faceId = f ∧ ∃ e, rib.entries n = some e ∧ r ∈ e.routes := by
  rw [findRoutesWithFaceId_eq, List.mem_flatMap]
  constructor
  · rintro ⟨m, -, hm⟩
    obtain ⟨rfl, hrest⟩ := mem_routesAt.mp hm
    exact hrest
  · rintro ⟨hface, e, he, hr⟩
    exact ⟨n, (h.mem_faceMap f n).mpr ⟨e, he, RibEntry.hasFaceId_iff.mpr ⟨r, hr, hface⟩⟩,
      mem_routesAt.mpr ⟨rfl, hface, e, he, hr⟩⟩

/-- The routes of a face are listed right exactly if no entry is listed twice. -/
theorem FaceIndexed.listsFace_iff (h : rib.FaceIndexed) : rib.ListsFace f ↔ (rib.faceMap f).Nodup := by
  rw [ListsFace, and_iff_left fun n r => h.mem_findRoutesWithFaceId, findRoutesWithFaceId_eq, List.nodup_flatMap]
  constructor
  · rintro ⟨-, hdisjoint⟩
    refine hdisjoint.imp_of_mem fun {x y} hx _ hxy heq => ?_
    obtain ⟨r, hr⟩ := h.routesAt_ne_nil hx
    exact hxy hr (heq ▸ hr)
  · intro hnodup
    refine ⟨fun n _ => h.routesAt_nodup f n, hnodup.imp fun {x y} hne => ?_⟩
    rintro ⟨m, r⟩ hx hy
    exact hne ((mem_routesAt.mp hx).1.symm.trans (mem_routesAt.mp hy).1)

theorem ListsFace.removals (h : rib.ListsFace f) (state : RibState) (hrib : state.rib = rib) :
    ∃ removals, (state.beginRemoveFace f).updateBatches = state.updateBatches ++ removals ∧ removals.Nodup ∧
      ∀ update, update ∈ removals ↔ update.action = .removeFace ∧ update.route.faceId = f ∧
        ∃ e, rib.entries update.name = some e ∧ update.route ∈ e.routes := by
  refine ⟨RibState.removalsOfFace rib f, by rw [← hrib]; rfl, ?_, fun update => ?_⟩
  · refine h.1.map fun x y heq => ?_
    injection heq with _ hname hroute
    exact Prod.ext hname hroute
  · rw [RibState.removalsOfFace, List.mem_map]
    constructor
    · rintro ⟨⟨n, r⟩, hmem, rfl⟩
      exact ⟨rfl, (h.2 n r).mp hmem⟩
    · rintro ⟨haction, hrest⟩
      refine ⟨(update.name, update.route), (h.2 _ _).mpr hrest, ?_⟩
      rw [← haction]

/-! ### Runs -/

/-- The entry of the name has a route on the face. -/
def hasFace (entries : Name → Option RibEntry) (name : Name) (faceId : FaceId) : Bool :=
  (entries name).any fun e => e.hasFaceId faceId

theorem hasFace_iff {entries : Name → Option RibEntry} :
    hasFace entries n f = true ↔ ∃ e, entries n = some e ∧ e.hasFaceId f = true :=
  Option.any_eq_true _ _

theorem Extends.hasFace_eq {entries : Name → Option RibEntry} (h : rib.Extends entries) :
    hasFace rib.entries = hasFace entries := by
  funext n f
  obtain ⟨parent, children, hent⟩ := h n
  rw [hasFace, hasFace, hent, Option.any_map]
  rfl

theorem entryWith_hasFaceId : (rib.entryWith n r).hasFaceId f = true ↔ f = r.faceId ∨
    hasFace rib.entries n f = true := by
  have hold : hasFace rib.entries n f = ((rib.entries n).getD (.new n)).hasFaceId f := by
    rw [hasFace]
    cases rib.entries n <;> rfl
  rw [hold, entryWith]
  generalize (rib.entries n).getD (.new n) = e
  cases hfind : e.findRoute r with
  | none =>
      rw [RibEntry.put_of_none hfind, RibEntry.hasFaceId, RibEntry.insertRoute_routes hfind, List.any_append,
        Bool.or_eq_true, or_comm, List.any_cons, List.any_nil, Bool.or_false, beq_iff_eq, eq_comm]
      rfl
  | some s =>
      obtain ⟨hs, hkey⟩ := RibEntry.findRoute_some hfind
      have hface : ((e.put r).routes.map Route.key).map Prod.fst = (e.routes.map Route.key).map Prod.fst := by
        rw [RibEntry.put_of_some hfind, RibEntry.updateRoute, Route.compareFaceIdAndOrigin_eq]
        dsimp only
        rw [Lists.replaceFirst_map ⟨s, hs, hkey⟩]
      have hiff : ∀ e : RibEntry, e.hasFaceId f = true ↔ f ∈ (e.routes.map Route.key).map Prod.fst := by
        intro e
        rw [RibEntry.hasFaceId_iff, List.map_map, List.mem_map]
        rfl
      rw [hiff, hface, ← hiff]
      refine ⟨Or.inr, fun h => h.elim (fun hf => ?_) id⟩
      exact RibEntry.hasFaceId_iff.mpr ⟨s, hs, (Prod.mk.inj hkey).1.trans hf.symm⟩

theorem hasFace_of_hasRoute (h : SizedRib.hasRoute rib n r = true) : hasFace rib.entries n r.faceId = true := by
  obtain ⟨e, he, hfound⟩ := (Option.any_eq_true _ _).mp h
  obtain ⟨s, hs⟩ := Option.isSome_iff_exists.mp hfound
  obtain ⟨hmem, hkey⟩ := RibEntry.findRoute_some hs
  exact hasFace_iff.mpr ⟨e, he, RibEntry.hasFaceId_iff.mpr ⟨s, hmem, (Prod.mk.inj hkey).1⟩⟩

theorem FaceIndexed.insert (h : rib.FaceIndexed) (hstep : rib.insert n r = some rib') : rib'.FaceIndexed := by
  obtain ⟨hv', hextends⟩ := h.valid.insert hstep
  refine ⟨hv', fun f m => ?_⟩
  have hmem : m ∈ rib'.faceMap f ↔ (f = r.faceId ∧ m = n) ∨ hasFace rib.entries m f = true := by
    rw [insert_faceMap hstep]
    split
    · rename_i hhas
      rw [h.mem_faceMap, ← hasFace_iff]
      refine ⟨Or.inr, fun hor => hor.elim (fun heq => ?_) id⟩
      rw [heq.1, heq.2]
      exact hasFace_of_hasRoute hhas
    · rw [hasFace_iff, ← h.mem_faceMap, Function.update_apply]
      split
      · rename_i hf
        rw [hf, List.mem_append, List.mem_singleton, or_comm, and_iff_right rfl]
      · rename_i hf
        exact ⟨Or.inr, fun hor => hor.elim (fun heq => absurd heq.1 hf) id⟩
  rw [hmem, ← hasFace_iff, hextends.hasFace_eq]
  by_cases hm : m = n
  · rw [hm, and_iff_left rfl, ← entryWith_hasFaceId, hasFace, Function.update_self, Option.any_some]
  · rw [hasFace, hasFace, Function.update_of_ne hm, or_iff_right fun heq => hm heq.2]

theorem eraseRoute_hasFaceId (hs : e.findRoute r = some s) (hf : f ≠ r.faceId) :
    (e.eraseRoute r).hasFaceId f = e.hasFaceId f := by
  rw [Bool.eq_iff_iff, RibEntry.hasFaceId_iff, RibEntry.hasFaceId_iff, RibEntry.eraseRoute_routes hs]
  refine exists_congr fun x => and_congr_left fun hx => List.mem_eraseP_of_neg fun hsame => hf ?_
  exact hx.symm.trans (Prod.mk.inj (Route.compareFaceIdAndOrigin_iff.mp hsame)).1

theorem FaceIndexed.erase (h : rib.FaceIndexed) (hstep : rib.erase n r = some rib') : rib'.FaceIndexed := by
  cases hhas : SizedRib.hasRoute rib n r with
  | false =>
      rw [SizedRib.erase_of_not_hasRoute hhas] at hstep
      cases hstep
      exact h
  | true =>
      obtain ⟨e, he, hfound⟩ := (Option.any_eq_true _ _).mp hhas
      obtain ⟨s, hs⟩ := Option.isSome_iff_exists.mp hfound
      obtain ⟨hv', hextends⟩ := h.valid.erase hstep
      refine ⟨hv', fun f m => ?_⟩
      have hwithout : hasFace rib'.entries m f =
          if m = n then (e.eraseRoute r).hasFaceId f else hasFace rib.entries m f := by
        rw [hextends.hasFace_eq, hasFace, entriesWithout, he]
        dsimp only
        rw [hs, Option.isNone_some, if_neg Bool.false_ne_true, Function.update_apply]
        split
        · split
          · rename_i hempty
            rw [RibEntry.hasFaceId, List.eq_nil_of_length_eq_zero hempty]
            rfl
          · rfl
        · rfl
      rw [← hasFace_iff, hwithout, erase_faceMap he hs hstep]
      by_cases hf : f = r.faceId
      · subst hf
        split
        · rename_i hstays
          rw [h.mem_faceMap, ← hasFace_iff]
          by_cases hm : m = n
          · rw [if_pos hm, hm]
            exact iff_of_true (hasFace_of_hasRoute hhas) hstays
          · rw [if_neg hm]
        · rename_i hgone
          rw [Function.update_self, List.mem_filter, h.mem_faceMap, ← hasFace_iff, bne_iff_ne]
          by_cases hm : m = n
          · rw [if_pos hm]
            exact iff_of_false (fun hand => hand.2 hm) hgone
          · rw [if_neg hm, and_iff_left hm]
      · have hsame : m ∈ (if (e.eraseRoute r).hasFaceId r.faceId then rib.faceMap
          else Function.update rib.faceMap r.faceId
            ((rib.faceMap r.faceId).filter fun m => m != n)) f ↔ m ∈ rib.faceMap f := by
          split
          · exact Iff.rfl
          · rw [Function.update_of_ne hf]
        rw [hsame, h.mem_faceMap, ← hasFace_iff]
        split
        · rename_i hm
          rw [hm, eraseRoute_hasFaceId hs hf, hasFace, he, Option.any_some]
        · exact Iff.rfl

/-- A new route is not inserted where there is one of the same face, of another origin. -/
def OneOrigin (rib : Rib) : RibOperation → Prop
  | .insert name route => SizedRib.hasRoute rib name route = true ∨ hasFace rib.entries name route.faceId = false
  | .erase _ _ => True

instance (rib : Rib) (operation : RibOperation) : Decidable (rib.OneOrigin operation) :=
  match operation with
  | .insert name route => inferInstanceAs (Decidable (SizedRib.hasRoute rib name route = true ∨
      hasFace rib.entries name route.faceId = false))
  | .erase _ _ => inferInstanceAs (Decidable True)

/-- No step leaves an entry unlisted or lists one without a route, and one that meets the condition lists none
twice. -/
theorem FaceIndexed.step (h : rib.FaceIndexed) (hnodup : ∀ f, (rib.faceMap f).Nodup) {operation : RibOperation}
    (hstep : rib.step operation = some rib') :
    rib'.FaceIndexed ∧ ((∀ f, (rib'.faceMap f).Nodup) ↔ rib.OneOrigin operation) := by
  cases operation with
  | insert n r =>
      refine ⟨h.insert hstep, ?_⟩
      rw [insert_faceMap hstep, OneOrigin]
      cases hhas : SizedRib.hasRoute rib n r with
      | true => exact iff_of_true hnodup (.inl rfl)
      | false =>
          rw [if_neg Bool.false_ne_true, or_iff_right Bool.false_ne_true, ← Bool.not_eq_true, hasFace_iff,
            ← h.mem_faceMap]
          constructor
          · intro hall hmem
            have hlist := hall r.faceId
            rw [Function.update_self] at hlist
            exact List.disjoint_of_nodup_append hlist hmem (List.mem_singleton_self n)
          · intro hnew f
            rw [Function.update_apply]
            split
            · exact List.nodup_append.mpr ⟨hnodup r.faceId, List.nodup_singleton n, fun a ha b hb heq =>
                hnew (List.mem_singleton.mp hb ▸ heq ▸ ha)⟩
            · exact hnodup f
  | erase n r =>
      refine ⟨h.erase hstep, iff_of_true (fun f => ?_) trivial⟩
      cases hhas : SizedRib.hasRoute rib n r with
      | false =>
          rw [Rib.step, SizedRib.erase_of_not_hasRoute hhas] at hstep
          cases hstep
          exact hnodup f
      | true =>
          obtain ⟨e, he, hfound⟩ := (Option.any_eq_true _ _).mp hhas
          obtain ⟨s, hs⟩ := Option.isSome_iff_exists.mp hfound
          rw [erase_faceMap he hs hstep]
          split
          · exact hnodup f
          · rw [Function.update_apply]
            split
            · exact (hnodup r.faceId).filter _
            · exact hnodup f

theorem empty_faceIndexed : Rib.empty.FaceIndexed where
  valid := .empty
  mem_faceMap _ _ := iff_of_false List.not_mem_nil fun ⟨_, he, _⟩ => nomatch he

/-- Removing the face queues the removal of every route of it, once. -/
def QueuesRemovals (rib : Rib) (f : FaceId) : Prop :=
  ∀ state : RibState, state.rib = rib → ∃ removals,
    (state.beginRemoveFace f).updateBatches = state.updateBatches ++ removals ∧ removals.Nodup ∧
      ∀ update, update ∈ removals ↔ update.action = .removeFace ∧ update.route.faceId = f ∧
        ∃ e, rib.entries update.name = some e ∧ update.route ∈ e.routes

/-- As long as no entry gets a second origin on a face, the routes of every face are found, each once, and removed
with it; an operation that gives an entry one breaks this. -/
theorem faces_listed (hr : Reach Rib.step OneOrigin Rib.empty rib) :
    (∀ f, rib.ListsFace f ∧ rib.QueuesRemovals f) ∧ ∀ operation rib', rib.step operation = some rib' →
      ((∀ f, rib'.ListsFace f) ↔ rib.OneOrigin operation) := by
  have h : rib.FaceIndexed ∧ ∀ f, (rib.faceMap f).Nodup := by
    refine hr.invariant (I := fun rib => rib.FaceIndexed ∧ ∀ f, (rib.faceMap f).Nodup)
      ⟨empty_faceIndexed, fun _ => List.nodup_nil⟩ fun rib operation rib' h hok hstep => ?_
    obtain ⟨hindexed, hiff⟩ := h.1.step h.2 hstep
    exact ⟨hindexed, hiff.mpr hok⟩
  have hlists : ∀ f, rib.ListsFace f := fun f => h.1.listsFace_iff.mpr (h.2 f)
  refine ⟨fun f => ⟨hlists f, (hlists f).removals⟩, fun operation rib' hstep => ?_⟩
  obtain ⟨hindexed, hiff⟩ := h.1.step h.2 hstep
  rw [← hiff]
  exact forall_congr' fun f => hindexed.listsFace_iff

/-- Two routes of a face, under two names. -/
theorem faces_listed_two_names : ∃ rib, exec Rib.step Rib.empty [.insert [.ofByte 65] (sampleRoute 1 0),
    .insert [.ofByte 66] (sampleRoute 1 0)] = some rib ∧ (rib.findRoutesWithFaceId 1).length = 2 ∧
      ∀ f, rib.ListsFace f ∧ rib.QueuesRemovals f := by
  have hrun : ((exec (guarded Rib.step fun rib operation => decide (rib.OneOrigin operation)) Rib.empty
      [.insert [.ofByte 65] (sampleRoute 1 0), .insert [.ofByte 66] (sampleRoute 1 0)]).any fun rib =>
        (rib.findRoutesWithFaceId 1).length == 2) = true := by decide +kernel
  obtain ⟨rib, hrib, hlength⟩ := (Option.any_eq_true _ _).mp hrun
  have hr := (reach_of_exec_guarded Reach.start hrib).mono fun _ _ hok => of_decide_eq_true hok
  exact ⟨rib, exec_of_guarded hrib, beq_iff_eq.mp hlength, (faces_listed hr).1⟩

/-- A face registers `/A` with two origins: the entry is listed twice, and each of its two routes is found and queued
for removal twice. -/
theorem face_listed_twice : ∃ rib, exec Rib.step Rib.empty [.insert [.ofByte 65] (sampleRoute 1 0),
    .insert [.ofByte 65] { sampleRoute 1 0 with origin := 128 }] = some rib ∧
      rib.findRoutesWithFaceId 1 = [([.ofByte 65], sampleRoute 1 0),
        ([.ofByte 65], { sampleRoute 1 0 with origin := 128 }), ([.ofByte 65], sampleRoute 1 0),
        ([.ofByte 65], { sampleRoute 1 0 with origin := 128 })] ∧ ¬ rib.ListsFace 1 := by
  have hrun : ((exec Rib.step Rib.empty [.insert [.ofByte 65] (sampleRoute 1 0),
      .insert [.ofByte 65] { sampleRoute 1 0 with origin := 128 }]).any fun rib =>
        decide (rib.findRoutesWithFaceId 1 = [([.ofByte 65], sampleRoute 1 0),
          ([.ofByte 65], { sampleRoute 1 0 with origin := 128 }), ([.ofByte 65], sampleRoute 1 0),
          ([.ofByte 65], { sampleRoute 1 0 with origin := 128 })])) = true := by decide +kernel
  obtain ⟨rib, hrib, hfound⟩ := (Option.any_eq_true _ _).mp hrun
  have hpairs := of_decide_eq_true hfound
  refine ⟨rib, hrib, hpairs, fun h => ?_⟩
  have hnodup := h.1
  rw [hpairs] at hnodup
  revert hnodup
  decide

end NfdPitless.Rib
