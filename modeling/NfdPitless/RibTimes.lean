import NfdPitless.RibResponses
import NfdPitless.RibFaces
import NfdPitless.InheritedRecords

/-! The stored routes and their times. A route has times exactly while it is stored; a batch that is applied changes
those of its route, and those of no other one. -/

namespace NfdPitless

namespace RibEntry

variable {e : RibEntry} {r s : Route} {key : FaceId × Nat}

theorem findRoute_isSome : (e.findRoute r).isSome = true ↔ r.key ∈ e.routes.map Route.key := by
  rw [← not_iff_not, Bool.not_eq_true, Option.isSome_eq_false_iff, Option.isNone_iff_eq_none, findRoute_eq_none,
    List.mem_map]
  exact ⟨fun h ⟨s, hs, hkey⟩ => h s hs hkey, fun h s hs hkey => h ⟨s, hs, hkey⟩⟩

theorem mem_put_keys (e : RibEntry) (r : Route) :
    key ∈ (e.put r).routes.map Route.key ↔ key = r.key ∨ key ∈ e.routes.map Route.key := by
  cases hfind : e.findRoute r with
  | none =>
      rw [put_of_none hfind, insertRoute_routes hfind, List.map_append, List.mem_append, or_comm]
      exact or_congr_left List.mem_singleton
  | some s =>
      rw [put_of_some hfind, updateRoute, Route.compareFaceIdAndOrigin_eq]
      dsimp only
      rw [Lists.replaceFirst_map ⟨s, findRoute_some hfind⟩]
      refine ⟨.inr, fun h => h.elim (fun heq => heq ▸ ?_) id⟩
      exact findRoute_isSome.mp (Option.isSome_iff_exists.mpr ⟨s, hfind⟩)

theorem mem_eraseRoute_keys (hnodup : (e.routes.map Route.key).Nodup) (hs : e.findRoute r = some s) :
    key ∈ (e.eraseRoute r).routes.map Route.key ↔ key ∈ e.routes.map Route.key ∧ key ≠ r.key := by
  have herase : (e.eraseRoute r).routes.map Route.key = (e.routes.map Route.key).erase r.key := by
    rw [eraseRoute_routes hs, List.erase_eq_eraseP, List.eraseP_map]
    refine congrArg _ (congrArg (List.eraseP · e.routes) ?_)
    funext x
    rw [Bool.eq_iff_iff, Route.compareFaceIdAndOrigin_iff, Function.comp, beq_iff_eq, eq_comm]
  rw [herase, hnodup.mem_erase_iff, and_comm]

end RibEntry

namespace Rib

variable {rib rib' : Rib} {n m : Name} {r : Route} {key : FaceId × Nat}

/-- The entry of the name has a route with the face and origin. -/
def Stored (rib : Rib) (name : Name) (key : FaceId × Nat) : Prop :=
  ∃ e, rib.entries name = some e ∧ key ∈ e.routes.map Route.key

theorem hasRoute_iff : SizedRib.hasRoute rib n r = true ↔ rib.Stored n r.key := by
  rw [SizedRib.hasRoute, Option.any_eq_true]
  exact exists_congr fun e => and_congr_right fun _ => RibEntry.findRoute_isSome

theorem hasFace_iff_stored {f : FaceId} : hasFace rib.entries n f = true ↔ ∃ origin, rib.Stored n (f, origin) := by
  rw [hasFace_iff]
  constructor
  · rintro ⟨e, he, hface⟩
    obtain ⟨r, hr, rfl⟩ := RibEntry.hasFaceId_iff.mp hface
    exact ⟨r.origin, e, he, List.mem_map.mpr ⟨r, hr, rfl⟩⟩
  · rintro ⟨origin, e, he, hkey⟩
    obtain ⟨r, hr, heq⟩ := List.mem_map.mp hkey
    exact ⟨e, he, RibEntry.hasFaceId_iff.mpr ⟨r, hr, (Prod.mk.inj heq).1⟩⟩

theorem Extends.stored {entries : Name → Option RibEntry} (h : rib.Extends entries) :
    rib.Stored m key ↔ ∃ e, entries m = some e ∧ key ∈ e.routes.map Route.key := by
  obtain ⟨parent, children, hm⟩ := h m
  rw [Stored, hm]
  constructor
  · rintro ⟨e, he, hkey⟩
    obtain ⟨e₀, he₀, rfl⟩ := Option.map_eq_some_iff.mp he
    exact ⟨e₀, he₀, hkey⟩
  · rintro ⟨e, he, hkey⟩
    exact ⟨_, Option.map_eq_some_iff.mpr ⟨e, he, rfl⟩, hkey⟩

theorem stored_insert (hv : rib.Valid) (h : rib.insert n r = some rib') :
    rib'.Stored m key ↔ (m = n ∧ key = r.key) ∨ rib.Stored m key := by
  rw [(hv.insert h).2.stored]
  by_cases hm : m = n
  · rw [hm, Function.update_self, and_iff_right rfl]
    constructor
    · rintro ⟨e, he, hkey⟩
      cases he
      rcases (RibEntry.mem_put_keys _ r).mp hkey with hkey | hkey
      · exact .inl hkey
      · cases he : rib.entries n with
        | none =>
            rw [he] at hkey
            exact absurd hkey List.not_mem_nil
        | some e =>
            rw [he] at hkey
            exact .inr ⟨e, he, hkey⟩
    · intro hor
      refine ⟨_, rfl, (RibEntry.mem_put_keys _ r).mpr (hor.imp_right fun ⟨e, he, hkey⟩ => ?_)⟩
      rw [he]
      exact hkey
  · rw [Function.update_of_ne hm]
    exact (or_iff_right fun heq => hm heq.1).symm

theorem stored_erase (hv : rib.Valid) (h : rib.erase n r = some rib') :
    rib'.Stored m key ↔ rib.Stored m key ∧ ¬ (m = n ∧ key = r.key) := by
  cases hhas : SizedRib.hasRoute rib n r with
  | false =>
      rw [SizedRib.erase_of_not_hasRoute hhas] at h
      cases h
      refine (and_iff_left_of_imp fun hstored heq => ?_).symm
      rw [heq.1, heq.2, ← hasRoute_iff] at hstored
      cases hhas.symm.trans hstored
  | true =>
      obtain ⟨e, he, hfound⟩ := (Option.any_eq_true _ _).mp hhas
      obtain ⟨s, hs⟩ := Option.isSome_iff_exists.mp hfound
      rw [(hv.erase h).2.stored, entriesWithout, he]
      dsimp only
      rw [hs, Option.isNone_some, if_neg Bool.false_ne_true]
      by_cases hm : m = n
      · rw [hm, Function.update_self, and_iff_right rfl]
        have hkeys : rib.Stored n key ∧ key ≠ r.key ↔ key ∈ (e.eraseRoute r).routes.map Route.key := by
          rw [RibEntry.mem_eraseRoute_keys (hv.routes_nodup n e he) hs]
          refine and_congr_left fun _ => ⟨?_, fun hkey => ⟨e, he, hkey⟩⟩
          rintro ⟨e', he', hkey⟩
          cases he.symm.trans he'
          exact hkey
        rw [hkeys]
        split
        · rename_i hempty
          rw [List.eq_nil_of_length_eq_zero hempty]
          refine iff_of_false ?_ List.not_mem_nil
          rintro ⟨_, he, _⟩
          cases he
        · refine ⟨?_, fun hkey => ⟨_, rfl, hkey⟩⟩
          rintro ⟨e', he', hkey⟩
          exact Option.some.inj he' ▸ hkey
      · rw [Function.update_of_ne hm]
        exact (and_iff_left fun heq => hm heq.1).symm

theorem modifyInheritedRoute_reinherited {record : RibUpdate} (h : rib.modifyInheritedRoute record = some rib') :
    rib.Reinherited rib' := by
  rw [modifyInheritedRoute] at h
  split at h
  · cases h
  · rename_i e he
    split at h
    · cases h
      exact modifyEntry_reinherited he _
    · obtain ⟨e', hremove, rfl⟩ := Option.map_eq_some_iff.mp h
      rw [RibEntry.removeInheritedRoute] at hremove
      split at hremove <;> cases hremove
      exact modifyEntry_reinherited he _
    · cases h
      exact .refl _

theorem modifyInheritedRoutes_reinherited {records : List RibUpdate}
    (h : rib.modifyInheritedRoutes records = some rib') :
    rib.Reinherited rib' := by
  induction records generalizing rib with
  | nil =>
      cases h
      exact .refl _
  | cons record records ih =>
      obtain ⟨rib₁, hfirst, hrest⟩ := Option.bind_eq_some_iff.mp h
      exact (modifyInheritedRoute_reinherited hfirst).trans (ih hrest)

theorem Reinherited.stored (h : rib.Reinherited rib') : rib'.Stored m key ↔ rib.Stored m key := by
  obtain ⟨l, hm⟩ := h.entries m
  rw [Stored, hm]
  constructor
  · rintro ⟨e, he, hkey⟩
    obtain ⟨e₀, he₀, rfl⟩ := Option.map_eq_some_iff.mp he
    exact ⟨e₀, he₀, hkey⟩
  · rintro ⟨e, he, hkey⟩
    exact ⟨_, Option.map_eq_some_iff.mpr ⟨e, he, rfl⟩, hkey⟩

theorem Reinherited.faceIndexed (h : rib.Reinherited rib') (hindexed : rib.FaceIndexed) : rib'.FaceIndexed where
  valid := h.valid hindexed.valid
  mem_faceMap f n := by
    rw [h.faceMap, hindexed.mem_faceMap, ← hasFace_iff, ← hasFace_iff, hasFace_iff_stored, hasFace_iff_stored]
    exact exists_congr fun origin => h.stored.symm

end Rib

namespace TimedRib

/-- The route has times exactly while it is stored. -/
structure Timed (t : TimedRib) : Prop where
  indexed : t.rib.FaceIndexed
  times : ∀ name key, (t.times name key).isSome = true ↔ t.rib.Stored name key

theorem empty_timed : empty.Timed where
  indexed := Rib.empty_faceIndexed
  times _ _ := iff_of_false Bool.false_ne_true fun ⟨_, he, _⟩ => nomatch he

end TimedRib

/-- The route that the batch is about. -/
def QueuedBatch.target (batch : QueuedBatch) : Name × FaceId × Nat := (batch.update.name, batch.update.route.key)

theorem QueuedBatch.target_eq {batch : QueuedBatch} {name : Name} {key : FaceId × Nat} :
    batch.target = (name, key) ↔ name = batch.update.name ∧ key = batch.update.route.key := by
  rw [target, Prod.mk_inj]
  exact and_congr eq_comm eq_comm

namespace TimedRib

variable {t t' : TimedRib} {batch : QueuedBatch} {inheritedRoutes : List RibUpdate}

theorem setTimes_times (t : TimedRib) (n : Name) (r : Route) (value : Option RouteTimes) (name : Name)
    (key : FaceId × Nat) :
    (t.setTimes n r value).times name key = if (n, r.key) = (name, key) then value else t.times name key := by
  rw [setTimes]
  dsimp only
  by_cases hn : name = n
  · rw [hn, Function.update_self, Function.update_apply]
    exact if_congr ⟨fun heq => heq ▸ rfl, fun heq => (Prod.mk.inj heq).2.symm⟩ rfl rfl
  · rw [Function.update_of_ne hn, if_neg fun heq => hn (Prod.mk.inj heq).1.symm]

/-- What a batch does to the times of the routes. -/
def timesAfter (t : TimedRib) (batch : QueuedBatch) (name : Name) (key : FaceId × Nat) : Option RouteTimes :=
  if batch.target = (name, key) then (if batch.update.action = .register then some batch.times else none)
  else t.times name key

theorem applyUpdate_times (h : t.applyUpdate batch = some t') (name : Name) (key : FaceId × Nat) :
    t'.times name key = t.timesAfter batch name key := by
  have hset : ∀ value, t'.times = ((t.cancelExpirationOf batch.update.name batch.update.route).setTimes
    batch.update.name
      batch.update.route value).times → (value = if batch.update.action = .register then some batch.times else none) →
      t'.times name key = t.timesAfter batch name key := by
    intro value htimes hvalue
    rw [htimes, setTimes_times, timesAfter, hvalue]
    rfl
  rw [applyUpdate] at h
  split at h <;> rename_i haction <;> obtain ⟨rib, -, rfl⟩ := Option.map_eq_some_iff.mp h
  · exact hset _ rfl (if_pos haction).symm
  · exact hset _ rfl (if_neg (haction ▸ RibUpdate.Action.noConfusion)).symm
  · exact hset _ rfl (if_neg (haction ▸ RibUpdate.Action.noConfusion)).symm

/-- A batch that is applied stores its route or erases it. -/
theorem Timed.applyUpdate (h : t.Timed) (happly : t.applyUpdate batch = some t') : t'.Timed := by
  have hstored : t'.rib.FaceIndexed ∧ ∀ name key, t'.rib.Stored name key ↔
      if batch.target = (name, key) then batch.update.action = .register else t.rib.Stored name key := by
    have herase : batch.update.action ≠ .register → t.rib.erase batch.update.name batch.update.route = some t'.rib →
        t'.rib.FaceIndexed ∧ ∀ name key, t'.rib.Stored name key ↔
          if batch.target = (name, key) then batch.update.action = .register else t.rib.Stored name key := by
      intro haction hrib
      refine ⟨h.indexed.erase hrib, fun name key => ?_⟩
      rw [Rib.stored_erase h.indexed.valid hrib, ← QueuedBatch.target_eq]
      split
      · rename_i heq
        exact iff_of_false (fun hand => hand.2 heq) haction
      · rename_i hne
        exact and_iff_left hne
    rw [TimedRib.applyUpdate] at happly
    split at happly <;> rename_i haction <;> obtain ⟨rib, hrib, rfl⟩ := Option.map_eq_some_iff.mp happly
    · refine ⟨h.indexed.insert hrib, fun name key => ?_⟩
      change rib.Stored name key ↔ _
      rw [Rib.stored_insert h.indexed.valid hrib, ← QueuedBatch.target_eq]
      split
      · rename_i heq
        exact iff_of_true (.inl heq) haction
      · rename_i hne
        exact or_iff_right hne
    · exact herase (haction ▸ RibUpdate.Action.noConfusion) hrib
    · exact herase (haction ▸ RibUpdate.Action.noConfusion) hrib
  refine ⟨hstored.1, fun name key => ?_⟩
  rw [applyUpdate_times happly, timesAfter, hstored.2]
  split
  · split
    · rename_i haction
      exact iff_of_true rfl haction
    · rename_i haction
      exact iff_of_false Bool.false_ne_true haction
  · exact h.times name key

/-- The routes of other batches stay as they are, also when inherited routes change. -/
theorem Timed.onFibUpdateSuccess (h : t.Timed) (hsuccess : t.onFibUpdateSuccess batch inheritedRoutes = some t') :
    t'.Timed ∧ ∀ name key, t'.times name key = t.timesAfter batch name key := by
  obtain ⟨t₁, happly, hrib, htimes, -⟩ := onFibUpdateSuccess_spec hsuccess
  have hre := Rib.modifyInheritedRoutes_reinherited hrib
  have h₁ := h.applyUpdate happly
  refine ⟨⟨hre.faceIndexed h₁.indexed, fun name key => ?_⟩, fun name key => ?_⟩
  · rw [htimes]
    exact (h₁.times name key).trans hre.stored.symm
  · rw [htimes, applyUpdate_times happly]

theorem Timed.of_same (h : t.Timed) (hrib : t'.rib = t.rib) (htimes : t'.times = t.times) : t'.Timed where
  indexed := hrib ▸ h.indexed
  times := by
    rw [hrib, htimes]
    exact h.times

end TimedRib

namespace RibManager

variable {nthElement : NthElement} {s s' : RibManager} {batch : QueuedBatch} {event : Event}

theorem Begun.same (h : Begun s s' batch) :
    s'.timedRib.rib = s.timedRib.rib ∧ s'.timedRib.times = s.timedRib.times ∧
      s'.timedRib.scheduler.now = s.timedRib.scheduler.now := by
  rw [h.timedRib]
  split
  · exact ⟨rfl, rfl, rfl⟩
  · refine ⟨rfl, rfl, ?_⟩
    rw [TimedRib.cancelExpirationOf]
    cases s.timedRib.expirationEventOf batch.update.name batch.update.route <;> rfl

theorem Touched.timed {t t' : TimedRib} (h : Touched t t') (ht : t.Timed) : t'.Timed := by
  cases h with
  | same heq => exact heq ▸ ht
  | applied happlied => exact (ht.onFibUpdateSuccess happlied).1

theorem step_timed (h : s.timedRib.Timed) (hstep : s.step nthElement event = some s') : s'.timedRib.Timed := by
  cases event with
  | sendBatchFromQueue =>
      obtain ⟨batch, s₁, hbegun, hanswered⟩ := sendBatchFromQueue_spec hstep
      exact hanswered.touched.timed (h.of_same hbegun.same.1 hbegun.same.2.1)
  | onFibResponse i j response => exact (onFibResponse_touched (step_handle hstep Event.noConfusion)).timed h
  | _ =>
      have hsame := handle_sameBatch (step_handle hstep Event.noConfusion) fun _ _ _ => Event.noConfusion
      exact h.of_same hsame.rib hsame.times

end RibManager
end NfdPitless
