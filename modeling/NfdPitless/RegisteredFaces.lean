import NfdPitless.RibTimes

/-! The faces the manager knows to have routes (`m_registeredFaces`). A face is recorded when a registration arrives and
forgotten when it is destroyed, whatever the FIB is asked about in between. -/

namespace NfdPitless.RibManager

variable {nthElement : NthElement} {s s' : RibManager} {batch : QueuedBatch} {event : Event} {faceId : FaceId}
    {name : Name}
  {key : FaceId × Nat}

/-- A face is handled as destroyed when none of its registrations is queued or in progress. -/
def destroysSettled (s : RibManager) (event : Event) : Bool :=
  answersLast event &&
    match event with
    | .onFaceDestroyedEvent faceId => s.pendingBatches.all fun batch =>
        !(decide (batch.update.action = .register) && batch.update.route.faceId == faceId)
    | _ => true

/-- The route will be removed with its face. -/
def RemovalPending (s : RibManager) (name : Name) (key : FaceId × Nat) : Prop :=
  ∃ batch ∈ s.pendingBatches, batch.update.action = .removeFace ∧ batch.target = (name, key)

/-- The face of a route is recorded from its registration until its removal is pending. -/
def FacesRecorded (s : RibManager) : Prop :=
  (∀ batch ∈ s.pendingBatches, batch.update.action = .register → batch.update.route.faceId ∈ s.registeredFaces) ∧
    ∀ name key, s.timedRib.rib.Stored name key → key.1 ∈ s.registeredFaces ∨ s.RemovalPending name key

/-- A batch that is applied is gone from the queue with the route it removes. -/
theorem Answered.facesRecorded (h : Answered s s') (htimed : s.timedRib.Timed) (hrecorded : s.FacesRecorded) :
    s'.FacesRecorded := by
  rw [FacesRecorded, h.queue.registeredFaces]
  obtain ⟨ht, hpending⟩ | ⟨batch, -, hpending, hrest⟩ := h.pendingBatches
  · rw [ht, hpending]
    refine ⟨hrecorded.1, fun name key hstored => (hrecorded.2 name key hstored).imp_right ?_⟩
    rw [RemovalPending, RemovalPending, hpending]
    exact id
  · refine ⟨fun b hb => hrecorded.1 b (hpending ▸ List.mem_cons_of_mem _ hb), fun name key hstored => ?_⟩
    have hstill : (batch.update.action = .removeFace → batch.target ≠ (name, key)) → s.RemovalPending name key →
        s'.RemovalPending name key := by
      rintro hother ⟨b, hb, haction, htarget⟩
      rw [hpending] at hb
      rcases List.mem_cons.mp hb with rfl | hb
      · exact absurd htarget (hother haction)
      · exact ⟨b, hb, haction, htarget⟩
    obtain ⟨inheritedRoutes, happlied⟩ | ⟨ht, haction⟩ := hrest
    · obtain ⟨htimed', htimes⟩ := htimed.onFibUpdateSuccess happlied
      rw [← htimed'.times, htimes, TimedRib.timesAfter] at hstored
      split at hstored
      · rename_i htarget
        split at hstored
        · rename_i haction
          refine .inl ?_
          rw [show key.1 = batch.update.route.faceId from
            congrArg (fun target : Name × FaceId × Nat => target.2.1) htarget.symm]
          exact hrecorded.1 batch (hpending ▸ List.mem_cons_self) haction
        · exact absurd hstored Bool.false_ne_true
      · rename_i hne
        exact (hrecorded.2 name key ((htimed.times name key).mp hstored)).imp_right (hstill fun _ => hne)
    · rw [ht] at hstored
      exact (hrecorded.2 name key hstored).imp_right (hstill fun heq => absurd heq haction)

theorem Begun.facesRecorded (h : Begun s s' batch) (hrecorded : s.FacesRecorded) : s'.FacesRecorded := by
  rw [FacesRecorded, h.registeredFaces, h.pendingBatches, h.same.1]
  refine ⟨hrecorded.1, fun name key hstored => (hrecorded.2 name key hstored).imp_right ?_⟩
  rw [RemovalPending, RemovalPending, h.pendingBatches]
  exact id

/-- Every route of the face is queued for removal. -/
theorem removalsOfFace_complete (htimed : s.timedRib.Timed) (hstored : s.timedRib.rib.Stored name key) :
    ∃ batch ∈ s.removalsOfFace key.1, batch.update.action = .removeFace ∧ batch.target = (name, key) := by
  obtain ⟨e, he, hkey⟩ := hstored
  obtain ⟨r, hr, rfl⟩ := List.mem_map.mp hkey
  have hmem : (name, r) ∈ s.timedRib.rib.findRoutesWithFaceId r.key.1 :=
    htimed.indexed.mem_findRoutesWithFaceId.mpr ⟨rfl, e, he, hr⟩
  exact ⟨_, List.mem_map.mpr ⟨(name, r), hmem, rfl⟩, rfl, rfl⟩

theorem removalsOfFace_action (hmem : batch ∈ s.removalsOfFace faceId) : batch.update.action = .removeFace := by
  obtain ⟨nameAndRoute, -, rfl⟩ := List.mem_map.mp hmem
  rfl

theorem handle_facesRecorded (htimed : s.timedRib.Timed) (hrecorded : s.FacesRecorded)
    (hok : destroysSettled s event = true) (h : s.handle event = some s')
    (hevent : ∀ i j response, event ≠ .onFibResponse i j response) : s'.FacesRecorded := by
  have hsame := handle_sameBatch h hevent
  have hqueue : ∀ batches, s'.updateBatches = s.updateBatches ++ batches →
      (∀ f ∈ s.registeredFaces, f ∈ s'.registeredFaces) →
      (∀ batch ∈ batches, batch.update.action = .register → batch.update.route.faceId ∈ s'.registeredFaces) →
      s'.FacesRecorded := by
    intro batches hbatches hfaces hnew
    have hpending := hsame.pendingBatches hbatches
    rw [FacesRecorded, hpending, hsame.rib]
    refine ⟨fun batch hmem haction => ?_, fun name key hstored => ?_⟩
    · rcases List.mem_append.mp hmem with hmem | hmem
      · exact hfaces _ (hrecorded.1 batch hmem haction)
      · exact hnew batch hmem haction
    · refine (hrecorded.2 name key hstored).imp (hfaces _) ?_
      rintro ⟨batch, hmem, hbatch⟩
      exact ⟨batch, hpending ▸ List.mem_append_left _ hmem, hbatch⟩
  have hnone : s'.updateBatches = s.updateBatches → s'.registeredFaces = s.registeredFaces → s'.FacesRecorded :=
    fun hbatches hfaces => hqueue [] (hbatches.trans (List.append_nil _).symm) (fun f hf => hfaces ▸ hf)
      fun _ hmem => absurd hmem List.not_mem_nil
  cases event with
  | registerEntry name route expirationPeriod =>
      cases h
      cases expirationPeriod <;>
      · refine hqueue [_] rfl (fun f hf => List.mem_insert_of_mem hf) fun batch hmem _ => ?_
        cases List.mem_singleton.mp hmem
        exact List.mem_insert_self
  | unregisterEntry name faceId origin =>
      cases h
      refine hqueue [_] rfl (fun _ => id) fun batch hmem haction => ?_
      cases List.mem_singleton.mp hmem
      cases haction
  | onFibResponse i j response => exact absurd rfl (hevent i j response)
  | advance elapsed =>
      cases h
      exact hnone rfl rfl
  | onRouteExpiration x =>
      obtain ⟨expiration, -, h⟩ := Option.bind_eq_some_iff.mp h
      dsimp only at h
      split at h <;> cases h
      refine hqueue [_] rfl (fun _ => id) fun batch hmem haction => ?_
      cases List.mem_singleton.mp hmem
      cases haction
  | onNotification faceId =>
      cases h
      exact hnone rfl rfl
  | onFaceDestroyedEvent faceId =>
      rw [handle, onFaceDestroyedEvent] at h
      split at h <;> cases h
      have hpending : RibManager.pendingBatches _ = s.pendingBatches ++ s.removalsOfFace faceId :=
        hsame.pendingBatches rfl
      have hnot := List.all_eq_true.mp (Bool.and_eq_true_iff.mp hok).2
      rw [FacesRecorded, hpending]
      refine ⟨fun batch hmem haction => ?_, fun name key hstored => ?_⟩
      · rcases List.mem_append.mp hmem with hmem | hmem
        · refine List.mem_filter.mpr ⟨hrecorded.1 batch hmem haction, bne_iff_ne.mpr fun heq => ?_⟩
          have hbatch := hnot batch hmem
          rw [haction, heq] at hbatch
          simp at hbatch
        · cases haction.symm.trans (removalsOfFace_action hmem)
      · by_cases hface : key.1 = faceId
        · obtain ⟨batch, hmem, hbatch⟩ := removalsOfFace_complete htimed hstored
          exact .inr ⟨batch, hpending ▸ List.mem_append_right _ (hface ▸ hmem), hbatch⟩
        · refine (hrecorded.2 name key hstored).imp (fun hmem => List.mem_filter.mpr ⟨hmem, bne_iff_ne.mpr hface⟩) ?_
          rintro ⟨batch, hmem, hbatch⟩
          exact ⟨batch, hpending ▸ List.mem_append_left _ hmem, hbatch⟩
  | removeInvalidFaces activeFaces =>
      cases h
      exact hnone rfl rfl
  | sendBatchFromQueue => cases h

/-- What holds while destroyed faces have no registrations under way. -/
structure Recorded (s : RibManager) : Prop where
  tracked : s.Tracked
  timed : s.timedRib.Timed
  faces : s.FacesRecorded

theorem init_recorded : init.Recorded where
  tracked := init_tracked
  timed := TimedRib.empty_timed
  faces := ⟨fun _ h => absurd h List.not_mem_nil, fun _ _ ⟨_, he, _⟩ => nomatch he⟩

theorem Recorded.step (h : s.Recorded) (hok : destroysSettled s event = true)
    (hstep : s.step nthElement event = some s') :
    s'.Recorded where
  tracked := h.tracked.step (Bool.and_eq_true_iff.mp hok).1 hstep
  timed := step_timed h.timed hstep
  faces := by
    cases event with
    | sendBatchFromQueue =>
        obtain ⟨batch, s₁, hbegun, hanswered⟩ := sendBatchFromQueue_spec hstep
        exact hanswered.facesRecorded (h.timed.of_same hbegun.same.1 hbegun.same.2.1) (hbegun.facesRecorded h.faces)
    | onFibResponse i j response =>
        cases beq_iff_eq.mp (Bool.and_eq_true_iff.mp hok).1
        exact (h.tracked.onFibResponse (step_handle hstep Event.noConfusion)).facesRecorded h.timed h.faces
    | _ =>
        exact handle_facesRecorded h.timed h.faces hok (step_handle hstep Event.noConfusion) fun _ _ _ =>
          Event.noConfusion

/-- Every face with a route is recorded. -/
def Discoverable (s : RibManager) : Prop := ∀ name key, s.timedRib.rib.Stored name key → key.1 ∈ s.registeredFaces

/-- The faces with routes that no longer exist are handled as destroyed, which queues the removal of all their
routes. -/
def CleansUp (s : RibManager) : Prop :=
  ∀ activeFaces name key, s.timedRib.rib.Stored name key → key.1 ∉ activeFaces →
    key.1 ∈ (s.removeInvalidFaces activeFaces).destroyedFaces ∧
      ∀ s', (s.removeInvalidFaces activeFaces).onFaceDestroyedEvent key.1 = some s' → s'.RemovalPending name key

theorem Discoverable.cleansUp (h : s.Discoverable) (htimed : s.timedRib.Timed) : s.CleansUp := by
  intro activeFaces name key hstored hinactive
  refine ⟨List.mem_append_right _ (List.mem_filter.mpr ⟨h name key hstored, decide_eq_true hinactive⟩),
    fun s' hs' => ?_⟩
  obtain ⟨batch, hmem, hbatch⟩ := removalsOfFace_complete (s := s.removeInvalidFaces activeFaces) htimed hstored
  have hsame := handle_sameBatch (show handle _ (.onFaceDestroyedEvent key.1) = some s' from hs') fun _ _ _ =>
    Event.noConfusion
  rw [onFaceDestroyedEvent] at hs'
  split at hs' <;> cases hs'
  refine ⟨batch, ?_, hbatch⟩
  rw [hsame.pendingBatches rfl]
  exact List.mem_append_right _ hmem

/-- While a destroyed face has no registration under way, the face of a route is recorded, unless the removal of the
route is pending; when no removal is, all faces with routes are. -/
theorem stale_faces_discoverable (hr : Reach (step nthElement) (fun s event => destroysSettled s event = true) init s) :
    (∀ name key, s.timedRib.rib.Stored name key → key.1 ∈ s.registeredFaces ∨ s.RemovalPending name key) ∧
      ((∀ batch ∈ s.pendingBatches, batch.update.action ≠ .removeFace) → s.Discoverable ∧ s.CleansUp) := by
  have h : s.Recorded := hr.invariant init_recorded fun s event s' h hok hstep => h.step hok hstep
  refine ⟨h.faces.2, fun hnone => ?_⟩
  have hdiscoverable : s.Discoverable := fun name key hstored =>
    (h.faces.2 name key hstored).resolve_right fun ⟨batch, hmem, haction, _⟩ => hnone batch hmem haction
  exact ⟨hdiscoverable, hdiscoverable.cleansUp h.timed⟩

/-- `/A` of face 2, handed down to `/A/B/C` of face 3, and a route of face 1 for `/A/B` that stops it. The FIB has added
the nexthop of face 1 and is asked to remove the one of face 2. -/
def capturingRoute : List Event :=
  [.registerEntry [.ofByte 65] ⟨2, 0, 1, 10⟩ none, .sendBatchFromQueue, .onFibResponse 0 0 .success,
    .registerEntry [.ofByte 65, .ofByte 66, .ofByte 67] ⟨3, 0, 0, 10⟩ none, .sendBatchFromQueue,
    .onFibResponse 0 0 .success, .onFibResponse 0 0 .success,
    .registerEntry [.ofByte 65, .ofByte 66] ⟨1, 0, 2, 10⟩ none, .sendBatchFromQueue, .onFibResponse 0 0 .success]

/-- Face 1 is destroyed before the FIB has answered: it has no route yet, and is forgotten. Its route is stored then,
and no cleanup finds it. -/
theorem stale_face_undiscoverable :
    ∃ s, exec (step .stable) init (capturingRoute ++ [.onNotification 1, .onFaceDestroyedEvent 1,
      .onFibResponse 0 0 .success]) =
        some s ∧ s.pendingBatches = [] ∧ s.timedRib.rib.Stored [.ofByte 65, .ofByte 66] (1, 0) ∧ ¬ s.Discoverable ∧
      1 ∉ (s.removeInvalidFaces [2, 3]).destroyedFaces := by
  have hrun : ((exec (step .stable) init
      (capturingRoute ++ [.onNotification 1, .onFaceDestroyedEvent 1, .onFibResponse 0 0 .success])).any fun s =>
        decide (s.pendingBatches = []) && (SizedRib.hasRoute s.timedRib.rib [.ofByte 65, .ofByte 66] ⟨1, 0, 2, 10⟩ &&
          decide (1 ∉ s.registeredFaces ∧ 1 ∉ (s.removeInvalidFaces [2, 3]).destroyedFaces))) = true := by
    decide +kernel
  obtain ⟨s, hs, hrun⟩ := (Option.any_eq_true _ _).mp hrun
  rw [Bool.and_eq_true, Bool.and_eq_true, decide_eq_true_iff, decide_eq_true_iff, Rib.hasRoute_iff] at hrun
  obtain ⟨hpending, hstored, hforgotten, hmissed⟩ := hrun
  exact ⟨s, hs, hpending, hstored, fun h => hforgotten (h _ _ hstored), hmissed⟩

/-- Face 1 is destroyed when its route is stored, and the route is removed. -/
theorem stale_faces_discoverable_removed :
    ∃ s, exec (step .stable) init [.registerEntry [.ofByte 65] ⟨2, 0, 1, 10⟩ none, .sendBatchFromQueue,
      .onFibResponse 0 0 .success,
        .registerEntry [.ofByte 66] ⟨1, 0, 0, 10⟩ none, .sendBatchFromQueue, .onFibResponse 0 0 .success,
        .onNotification 1, .onFaceDestroyedEvent 1, .sendBatchFromQueue] = some s ∧
      s.timedRib.rib.Stored [.ofByte 65] (2, 0) ∧ ¬ s.timedRib.rib.Stored [.ofByte 66] (1, 0) ∧
      s.Discoverable ∧ s.CleansUp := by
  have hrun : ((exec (guarded (step .stable) destroysSettled) init [.registerEntry [.ofByte 65] ⟨2, 0, 1, 10⟩ none,
      .sendBatchFromQueue, .onFibResponse 0 0 .success, .registerEntry [.ofByte 66] ⟨1, 0, 0, 10⟩ none,
      .sendBatchFromQueue, .onFibResponse 0 0 .success, .onNotification 1, .onFaceDestroyedEvent 1,
      .sendBatchFromQueue]).any fun s =>
        decide (s.pendingBatches = []) && (SizedRib.hasRoute s.timedRib.rib [.ofByte 65] ⟨2, 0, 1, 10⟩ &&
          !SizedRib.hasRoute s.timedRib.rib [.ofByte 66] ⟨1, 0, 0, 10⟩)) = true := by decide +kernel
  obtain ⟨s, hs, hrun⟩ := (Option.any_eq_true _ _).mp hrun
  rw [Bool.and_eq_true, Bool.and_eq_true, decide_eq_true_iff, Bool.not_eq_true', ← Bool.not_eq_true, Rib.hasRoute_iff,
    Rib.hasRoute_iff] at hrun
  obtain ⟨hpending, hstored, hgone⟩ := hrun
  refine ⟨s, exec_of_guarded hs, hstored, hgone, (stale_faces_discoverable (reach_of_exec_guarded .start hs)).2 ?_⟩
  intro batch hmem
  rw [hpending] at hmem
  exact absurd hmem List.not_mem_nil

end NfdPitless.RibManager
