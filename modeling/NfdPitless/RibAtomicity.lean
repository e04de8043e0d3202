import NfdPitless.RibResponses

/-! Batches that fail. Their updates were computed, so the events of routes may have been cancelled; nothing else has
happened to the RIB. -/

namespace NfdPitless

namespace Scheduler

variable {scheduler scheduler' scheduler'' : Scheduler} {event x : EventId}

theorem isPending_iff : scheduler.isPending x = true ↔ ∃ e ∈ scheduler.pending, e.event = x := by
  rw [isPending, List.any_eq_true]
  exact exists_congr fun e => and_congr_right fun _ => beq_iff_eq

theorem cancel_isPending (scheduler : Scheduler) (event : Option EventId) (x : EventId) :
    (scheduler.cancel event).isPending x = true ↔ scheduler.isPending x = true ∧ event ≠ some x := by
  cases event with
  | none => exact (and_iff_left fun heq => nomatch heq).symm
  | some event =>
      rw [isPending_iff, isPending_iff]
      constructor
      · rintro ⟨e, he, rfl⟩
        obtain ⟨hmem, hne⟩ := List.mem_filter.mp he
        exact ⟨⟨e, hmem, rfl⟩, fun heq => bne_iff_ne.mp hne (Option.some.inj heq).symm⟩
      · rintro ⟨⟨e, hmem, rfl⟩, hne⟩
        exact ⟨e, List.mem_filter.mpr ⟨hmem, bne_iff_ne.mpr fun heq => hne (congrArg some heq.symm)⟩, rfl⟩

theorem schedule_isPending (scheduler : Scheduler) (delay : Nat) (name : Name) (route : Route) (x : EventId) :
    (scheduler.schedule delay name route).isPending x = true ↔ scheduler.isPending x = true ∨
    x = scheduler.nextEvent := by
  rw [isPending_iff, isPending_iff, schedule]
  simp only [List.mem_append, List.mem_singleton]
  constructor
  · rintro ⟨e, he | rfl, rfl⟩
    · exact .inl ⟨e, he, rfl⟩
    · exact .inr rfl
  · rintro (⟨e, he, rfl⟩ | rfl)
    · exact ⟨e, .inl he, rfl⟩
    · exact ⟨_, .inr rfl, rfl⟩

/-- Events that were not pending are new ones. -/
structure Later (scheduler scheduler' : Scheduler) : Prop where
  nextEvent : scheduler.nextEvent ≤ scheduler'.nextEvent
  pending : ∀ x, scheduler'.isPending x = true →
    scheduler.isPending x = true ∨ scheduler.nextEvent ≤ x ∧ x < scheduler'.nextEvent

theorem Later.refl (scheduler : Scheduler) : Later scheduler scheduler := ⟨le_rfl, fun _ => .inl⟩

theorem Later.trans (h : Later scheduler scheduler') (h' : Later scheduler' scheduler'') :
    Later scheduler scheduler'' where
  nextEvent := h.nextEvent.trans h'.nextEvent
  pending x hx := (h'.pending x hx).elim
    (fun hx => (h.pending x hx).imp_right fun hx => ⟨hx.1, hx.2.trans_le h'.nextEvent⟩)
    fun hx => .inr ⟨h.nextEvent.trans hx.1, hx.2⟩

theorem later_cancel (scheduler : Scheduler) (event : Option EventId) : Later scheduler (scheduler.cancel event) where
  nextEvent := by cases event <;> exact le_rfl
  pending x hx := .inl ((cancel_isPending scheduler event x).mp hx).1

theorem later_schedule (scheduler : Scheduler) (delay : Nat) (name : Name) (route : Route) :
    Later scheduler (scheduler.schedule delay name route) where
  nextEvent := Nat.le_succ _
  pending x hx := ((schedule_isPending scheduler delay name route x).mp hx).imp_right fun heq =>
    ⟨heq.ge, heq.trans_lt (Nat.lt_succ_self _)⟩

/-- Every pending event has been scheduled. -/
def Scheduled (scheduler : Scheduler) : Prop := ∀ x, scheduler.isPending x = true → x < scheduler.nextEvent

theorem Later.scheduled (h : Later scheduler scheduler') (hs : scheduler.Scheduled) : scheduler'.Scheduled :=
  fun x hx => (h.pending x hx).elim (fun hx => (hs x hx).trans_le h.nextEvent) And.right

/-- An event that is no longer pending never will be. -/
theorem Later.not_isPending (h : Later scheduler scheduler') (hx : x < scheduler.nextEvent)
    (hnot : scheduler.isPending x ≠ true) : scheduler'.isPending x ≠ true := fun hpending =>
  (h.pending x hpending).elim hnot fun hnew => absurd hx (not_lt.mpr hnew.1)

end Scheduler

namespace TimedRib

variable {t t' : TimedRib} {batch : QueuedBatch} {inheritedRoutes : List RibUpdate}

theorem onFibUpdateSuccess_later (h : t.onFibUpdateSuccess batch inheritedRoutes = some t') :
    Scheduler.Later t.scheduler t'.scheduler := by
  obtain ⟨t₁, happly, -, -, hscheduler⟩ := onFibUpdateSuccess_spec h
  rw [hscheduler, applyUpdate_scheduler happly]
  exact Scheduler.later_cancel _ _

end TimedRib

namespace RibManager

variable {nthElement : NthElement} {s s' s₁ s₂ s₃ : RibManager} {batch : QueuedBatch} {event : Event}
  {events : List Event} {j : Nat}

theorem Touched.later {t t' : TimedRib} (h : Touched t t') : Scheduler.Later t.scheduler t'.scheduler := by
  cases h with
  | same heq =>
      rw [heq]
      exact .refl _
  | applied happlied => exact TimedRib.onFibUpdateSuccess_later happlied

theorem Begun.later (h : Begun s s' batch) : Scheduler.Later s.timedRib.scheduler s'.timedRib.scheduler := by
  rw [h.timedRib]
  split
  · exact .refl _
  · exact Scheduler.later_cancel _ _

/-- An event that is handled leaves the RIB alone, and a pending event stays so unless it expires. -/
structure Untouched (s s' : RibManager) (event : Event) : Prop where
  rib : s'.timedRib.rib = s.timedRib.rib
  times : s'.timedRib.times = s.timedRib.times
  later : Scheduler.Later s.timedRib.scheduler s'.timedRib.scheduler
  pending : ∀ x, s.timedRib.scheduler.isPending x = true → s'.timedRib.scheduler.isPending x = true ∨
    event = .onRouteExpiration x

theorem Untouched.of_timedRib (h : s'.timedRib = s.timedRib) (event : Event) : Untouched s s' event where
  rib := congrArg TimedRib.rib h
  times := congrArg TimedRib.times h
  later := h ▸ .refl _
  pending _ hx := .inl (h ▸ hx)

theorem handle_untouched (h : s.handle event = some s')
    (hevent : ∀ i j response, event ≠ .onFibResponse i j response) : Untouched s s' event := by
  cases event with
  | registerEntry name route expirationPeriod =>
      cases h
      cases expirationPeriod with
      | none => exact .of_timedRib (by rfl) _
      | some period =>
          exact {
            rib := rfl
            times := rfl
            later := Scheduler.later_schedule _ _ _ _
            pending := fun x hx => .inl ((Scheduler.schedule_isPending _ _ _ _ x).mpr (.inl hx)) }
  | unregisterEntry name faceId origin =>
      cases h
      exact .of_timedRib (by rfl) _
  | onFibResponse i j response => exact absurd rfl (hevent i j response)
  | advance elapsed =>
      cases h
      exact ⟨rfl, rfl, ⟨le_rfl, fun _ => .inl⟩, fun _ => .inl⟩
  | onRouteExpiration event =>
      obtain ⟨expiration, -, h⟩ := Option.bind_eq_some_iff.mp h
      dsimp only at h
      split at h <;> cases h
      refine ⟨rfl, rfl, Scheduler.later_cancel s.timedRib.scheduler (some event), fun x hx => ?_⟩
      by_cases heq : event = x
      · exact .inr (congrArg _ heq)
      · exact .inl ((Scheduler.cancel_isPending _ _ x).mpr ⟨hx, fun h => heq (Option.some.inj h)⟩)
  | onNotification faceId =>
      cases h
      exact .of_timedRib (by rfl) _
  | onFaceDestroyedEvent faceId =>
      rw [handle, onFaceDestroyedEvent] at h
      split at h <;> cases h
      exact .of_timedRib (by rfl) _
  | removeInvalidFaces activeFaces =>
      cases h
      exact .of_timedRib (by rfl) _
  | sendBatchFromQueue => cases h

theorem step_later (h : s.step nthElement event = some s') :
    Scheduler.Later s.timedRib.scheduler s'.timedRib.scheduler := by
  cases event with
  | sendBatchFromQueue =>
      obtain ⟨batch, s₁, hbegun, hanswered⟩ := sendBatchFromQueue_spec h
      exact hbegun.later.trans hanswered.touched.later
  | onFibResponse i j response => exact (onFibResponse_touched (step_handle h Event.noConfusion)).later
  | _ => exact (handle_untouched (step_handle h Event.noConfusion) fun _ _ _ => Event.noConfusion).later

theorem scheduled_of_reach (hr : Reach (step nthElement) anyStep init s) : s.timedRib.scheduler.Scheduled := by
  refine hr.invariant (I := fun s => s.timedRib.scheduler.Scheduled) (fun x hx => nomatch hx) ?_
  exact fun s event s' h _ hstep => (step_later hstep).scheduled h

/-- The events that are handled between the sending of a batch and its outcome. -/
def whileInProgress (s : RibManager) (event : Event) : Bool := s.isUpdateInProgress && answersLast event

theorem step_whileInProgress (htracked : s.Tracked) (hprogress : s.isUpdateInProgress = true)
    (hlast : answersLast event = true) (h : s.step nthElement event = some s')
    (hprogress' : s'.isUpdateInProgress = true) :
    Untouched s s' event := by
  cases event with
  | sendBatchFromQueue =>
      obtain ⟨batch, s₁, hbegun, -⟩ := sendBatchFromQueue_spec h
      exact nomatch hprogress.symm.trans hbegun.idle
  | onFibResponse i j response =>
      cases beq_iff_eq.mp hlast
      cases (htracked.onFibResponse (step_handle h Event.noConfusion)).outcome with
      | waits ht _ _ => exact .of_timedRib ht _
      | applied _ _ hidle => exact nomatch hprogress'.symm.trans hidle
      | failed _ _ _ hidle => exact nomatch hprogress'.symm.trans hidle
  | _ => exact handle_untouched (step_handle h Event.noConfusion) fun _ _ _ => Event.noConfusion

/-- What a list of events leaves alone. -/
structure UntouchedBy (s s' : RibManager) (events : List Event) : Prop where
  rib : s'.timedRib.rib = s.timedRib.rib
  times : s'.timedRib.times = s.timedRib.times
  later : Scheduler.Later s.timedRib.scheduler s'.timedRib.scheduler
  pending : ∀ x, s.timedRib.scheduler.isPending x = true → s'.timedRib.scheduler.isPending x = true ∨
    .onRouteExpiration x ∈ events
  expired : ∀ x, .onRouteExpiration x ∈ events →
    s.timedRib.scheduler.isPending x = true ∨ s.timedRib.scheduler.nextEvent ≤ x

/-- Only a pending event expires. -/
theorem isPending_of_onRouteExpiration {x : EventId} (h : s.step nthElement (.onRouteExpiration x) = some s') :
    s.timedRib.scheduler.isPending x = true := by
  obtain ⟨expiration, hfind, -⟩ := Option.bind_eq_some_iff.mp (step_handle h Event.noConfusion)
  exact Scheduler.isPending_iff.mpr ⟨expiration, List.mem_of_find?_eq_some hfind, by simpa using List.find?_some hfind⟩

theorem exec_whileInProgress (htracked : s.Tracked)
    (h : exec (guarded (step nthElement) whileInProgress) s events = some s')
    (hprogress' : s'.isUpdateInProgress = true) :
    s.isUpdateInProgress = true ∧ s'.Tracked ∧ UntouchedBy s s' events := by
  induction events generalizing s with
  | nil =>
      cases h
      exact ⟨hprogress', htracked, rfl, rfl, .refl _, fun _ => .inl, fun _ hx => absurd hx List.not_mem_nil⟩
  | cons event events ih =>
      obtain ⟨s₁, hstep, hrest⟩ := Option.bind_eq_some_iff.mp h
      rw [guarded] at hstep
      split at hstep
      · rename_i hok
        obtain ⟨hprogress, hlast⟩ := Bool.and_eq_true_iff.mp hok
        obtain ⟨hprogress₁, htracked', hrun⟩ := ih (htracked.step hlast hstep) hrest
        have hfirst := step_whileInProgress htracked hprogress hlast hstep hprogress₁
        refine ⟨hprogress, htracked', hrun.rib.trans hfirst.rib, hrun.times.trans hfirst.times,
          hfirst.later.trans hrun.later, fun x hx => ?_, fun x hx => ?_⟩
        · rcases hfirst.pending x hx with hx | rfl
          · exact (hrun.pending x hx).imp_right (List.mem_cons_of_mem _)
          · exact .inr List.mem_cons_self
        · rcases List.mem_cons.mp hx with rfl | hx
          · exact .inl (isPending_of_onRouteExpiration hstep)
          · rcases hrun.expired x hx with hx | hx
            · exact (hfirst.later.pending x hx).imp_right And.left
            · exact .inr (hfirst.later.nextEvent.trans hx)
      · cases hstep

/-! ### Failure -/

/-- The response `ERROR_FACE_NOT_FOUND` to the command calls `onFibUpdateFailure`. -/
def failsOn (s : RibManager) (j : Nat) : Bool :=
  s.isUpdateInProgress && s.sentBatches.head?.any fun sent => sent.commands[j]?.any fun command =>
    command.update.faceId == s.fibUpdater.batchFaceId

theorem isUpdateInProgress_of_failsOn (h : s.failsOn j = true) : s.isUpdateInProgress = true :=
  (Bool.and_eq_true_iff.mp h).1

/-- The RIB is as before, and the events of its routes are pending that were, unless they have expired since. -/
structure Unchanged (s s' : RibManager) (events : List Event) : Prop where
  rib : s'.timedRib.rib = s.timedRib.rib
  times : s'.timedRib.times = s.timedRib.times
  pending : ∀ name key times x, s.timedRib.times name key = some times → times.expirationEvent = some x →
    s.timedRib.scheduler.isPending x = true →
      s'.timedRib.scheduler.isPending x = true ∨ .onRouteExpiration x ∈ events

/-- The batch unregisters a stored route whose event is pending. -/
def CancelsExpiration (s : RibManager) (batch : QueuedBatch) : Prop :=
  batch.update.action = .unregister ∧ ∃ x, s.timedRib.expirationEventOf batch.update.name batch.update.route = some x ∧
    s.timedRib.scheduler.isPending x = true

theorem onFibResponse_of_failsOn (hfails : s.failsOn j = true)
    (h : s.step nthElement (.onFibResponse 0 j .faceNotFound) = some s') : s'.timedRib = s.timedRib := by
  obtain ⟨sent, hsent, hfails⟩ := (Option.any_eq_true _ _).mp (Bool.and_eq_true_iff.mp hfails).2
  obtain ⟨command, hcommand, hface⟩ := (Option.any_eq_true _ _).mp hfails
  have hresponse := step_handle h Event.noConfusion
  rw [handle, RibManager.onFibResponse, ← List.head?_eq_getElem?, hsent, Option.bind_some, hcommand,
    Option.bind_some] at hresponse
  rw [FibUpdater.onResponse, FibUpdater.onFaceNotFound, if_pos (beq_iff_eq.mp hface)] at hresponse
  cases hresponse
  rfl

/-- A batch that fails while no earlier one is answered leaves the RIB as it was before it was sent, and the events of
its routes too exactly if it did not unregister a route that has one. -/
theorem failed_batch_atomic (hr : Reach (step nthElement) anyStep init s) (hbatch : s.updateBatches.head? = some batch)
    (haction : batch.update.action ≠ .removeFace) (hsend : s.step nthElement .sendBatchFromQueue = some s₁)
    (hrun : exec (guarded (step nthElement) whileInProgress) s₁ events = some s₂) (hfails : s₂.failsOn j = true)
    (hfail : s₂.step nthElement (.onFibResponse 0 j .faceNotFound) = some s₃) :
    s₃.timedRib.rib = s.timedRib.rib ∧ s₃.timedRib.times = s.timedRib.times ∧
      (Unchanged s s₃ events ↔ ¬ s.CancelsExpiration batch) := by
  obtain ⟨batch', s₀, hbegun, hanswered⟩ := sendBatchFromQueue_spec hsend
  cases (congrArg List.head? hbegun.queue).symm.trans hbatch
  obtain ⟨hprogress, -, hrest⟩ := exec_whileInProgress hanswered.tracked hrun
    (isUpdateInProgress_of_failsOn hfails)
  have hsent : s₁.timedRib = s₀.timedRib := by
    cases hanswered.outcome with
    | waits ht _ _ => exact ht
    | applied _ _ hidle => exact nomatch hprogress.symm.trans hidle
    | failed _ _ ht _ => exact ht
  have hlast : s₃.timedRib = s₂.timedRib := onFibResponse_of_failsOn hfails hfail
  have hbegin : s₀.timedRib.rib = s.timedRib.rib ∧ s₀.timedRib.times = s.timedRib.times := by
    rw [hbegun.timedRib]
    split <;> exact ⟨rfl, rfl⟩
  have hrib : s₃.timedRib.rib = s.timedRib.rib := by rw [hlast, hrest.rib, hsent, hbegin.1]
  have htimes : s₃.timedRib.times = s.timedRib.times := by rw [hlast, hrest.times, hsent, hbegin.2]
  refine ⟨hrib, htimes, fun hunchanged ⟨haction', x, hevent, hpending⟩ => ?_, fun hnot => ⟨hrib, htimes, ?_⟩⟩
  · -- the event was cancelled with the copy, so it is not pending again and does not expire
    have hscheduled : x < s.timedRib.scheduler.nextEvent := scheduled_of_reach hr x hpending
    have hcancelled : s₁.timedRib.scheduler = s.timedRib.scheduler.cancel (some x) := by
      rw [hsent, hbegun.timedRib, if_neg (haction' ▸ RibUpdate.Action.noConfusion), ← hevent]
      rfl
    have hgone : s₁.timedRib.scheduler.isPending x ≠ true := fun hx =>
      ((Scheduler.cancel_isPending _ _ x).mp (hcancelled ▸ hx)).2 rfl
    have hnext : x < s₁.timedRib.scheduler.nextEvent := by
      rw [hcancelled]
      exact hscheduled
    obtain ⟨times, htimesOf, hx⟩ := Option.bind_eq_some_iff.mp hevent
    rcases hunchanged.pending _ _ times x htimesOf hx hpending with hstill | hexpired
    · exact hrest.later.not_isPending hnext hgone (hlast ▸ hstill)
    · exact (hrest.expired x hexpired).elim hgone fun hnew => absurd hnext (not_lt.mpr hnew)
  · intro name key times x htimesOf hx hpending
    rw [hlast]
    refine hrest.pending x ?_
    rw [hsent, hbegun.timedRib]
    split
    · exact hpending
    · rename_i hne
      refine (Scheduler.cancel_isPending _ _ x).mpr ⟨hpending, fun hevent => hnot ⟨?_, x, hevent, hpending⟩⟩
      cases hcase : batch.update.action with
      | register => exact absurd hcase hne
      | unregister => rfl
      | removeFace => exact absurd hcase haction

/-- Routes of faces 1 and 2 under `/A/B`, the first with a timer, and one of face 1 under `/A` that is handed down to
names without one. -/
def blockedAncestor : List Event :=
  [.registerEntry [.ofByte 65, .ofByte 66] ⟨1, 0, 0, 20⟩ (some 100), .sendBatchFromQueue, .onFibResponse 0 0 .success,
    .registerEntry [.ofByte 65, .ofByte 66] ⟨2, 0, 0, 10⟩ none, .sendBatchFromQueue, .onFibResponse 0 0 .success,
    .registerEntry [.ofByte 65] ⟨1, 0, 1, 10⟩ none, .sendBatchFromQueue, .onFibResponse 0 0 .success]

/-- The route of face 1 of `/A/B` is unregistered when the face is gone. The FIB refuses the nexthop that `/A/B` would
inherit, and the route stays, without its timer. -/
theorem failed_unregistration_stops_timer :
    ∃ s s₁ s₃ batch,
      exec (step .stable) init (blockedAncestor ++ [.unregisterEntry [.ofByte 65, .ofByte 66] 1 0]) = some s ∧
      s.updateBatches.head? = some batch ∧ batch.update.action = .unregister ∧
      s.step .stable .sendBatchFromQueue = some s₁ ∧ s₁.failsOn 0 = true ∧
      s₁.step .stable (.onFibResponse 0 0 .faceNotFound) = some s₃ ∧ ¬ Unchanged s s₃ [] := by
  have hrun : ((exec (step .stable) init (blockedAncestor ++ [.unregisterEntry [.ofByte 65, .ofByte 66] 1 0])).any
    fun s =>
      s.updateBatches.head?.any fun batch => (s.step .stable .sendBatchFromQueue).any fun s₁ =>
        (s₁.step .stable (.onFibResponse 0 0 .faceNotFound)).any fun s₃ =>
          decide (batch.update.action = .unregister ∧ s₁.failsOn 0 = true ∧
            s.timedRib.times [.ofByte 65, .ofByte 66] (1, 0) = some ⟨some 100, some 0⟩ ∧
            s.timedRib.scheduler.isPending 0 = true ∧ s₃.timedRib.scheduler.isPending 0 = false)) = true := by
    decide +kernel
  obtain ⟨s, hs, hrun⟩ := (Option.any_eq_true _ _).mp hrun
  obtain ⟨batch, hbatch, hrun⟩ := (Option.any_eq_true _ _).mp hrun
  obtain ⟨s₁, hsend, hrun⟩ := (Option.any_eq_true _ _).mp hrun
  obtain ⟨s₃, hfail, hrun⟩ := (Option.any_eq_true _ _).mp hrun
  obtain ⟨haction, hfails, htimes, hpending, hgone⟩ := of_decide_eq_true hrun
  refine ⟨s, s₁, s₃, batch, hs, hbatch, haction, hsend, hfails, hfail, fun hunchanged => ?_⟩
  rcases hunchanged.pending _ _ _ 0 htimes rfl hpending with hstill | hexpired
  · exact nomatch hgone.symm.trans hstill
  · exact absurd hexpired List.not_mem_nil

/-- A registration with a face that is gone, after a route of another face was stored. -/
theorem failed_batch_atomic_registration :
    ∃ s s₃, exec (step .stable) init [.registerEntry [.ofByte 65] ⟨1, 0, 0, 10⟩ (some 100), .sendBatchFromQueue,
        .onFibResponse 0 0 .success, .registerEntry [.ofByte 65] ⟨2, 0, 0, 10⟩ none] = some s ∧
      s.timedRib.scheduler.isPending 0 = true ∧ s₃.timedRib.scheduler.isPending 0 = true ∧ Unchanged s s₃ [] := by
  have hrun : ((exec (step .stable) init [.registerEntry [.ofByte 65] ⟨1, 0, 0, 10⟩ (some 100), .sendBatchFromQueue,
      .onFibResponse 0 0 .success, .registerEntry [.ofByte 65] ⟨2, 0, 0, 10⟩ none]).any fun s =>
        s.updateBatches.head?.any fun batch => (s.step .stable .sendBatchFromQueue).any fun s₁ =>
          (s₁.step .stable (.onFibResponse 0 0 .faceNotFound)).any fun s₃ =>
            decide (batch.update.action = .register ∧ s₁.failsOn 0 = true ∧
              s.timedRib.scheduler.isPending 0 = true ∧ s₃.timedRib.scheduler.isPending 0 = true)) = true := by
    decide +kernel
  obtain ⟨s, hs, hrun⟩ := (Option.any_eq_true _ _).mp hrun
  obtain ⟨batch, hbatch, hrun⟩ := (Option.any_eq_true _ _).mp hrun
  obtain ⟨s₁, hsend, hrun⟩ := (Option.any_eq_true _ _).mp hrun
  obtain ⟨s₃, hfail, hrun⟩ := (Option.any_eq_true _ _).mp hrun
  obtain ⟨haction, hfails, hpending, hstill⟩ := of_decide_eq_true hrun
  have hne : batch.update.action ≠ .removeFace := haction ▸ RibUpdate.Action.noConfusion
  refine ⟨s, s₃, hs, hpending, hstill, ?_⟩
  refine (failed_batch_atomic (reach_of_exec .start hs) hbatch hne hsend rfl hfails hfail).2.2.mpr fun hcancels => ?_
  exact nomatch haction.symm.trans hcancels.1

end RibManager
end NfdPitless
