import NfdPitless.RibTimes

/-! Expirations that are queued (`Rib::onRouteExpiration`). The batch of an expiration waits behind others, and one of
them may register the route anew. -/

namespace NfdPitless

/-- The time of expiration has come. -/
def RouteTimes.due (times : RouteTimes) (now : Nat) : Bool := times.expires.any fun expires => expires ≤ now

theorem RouteTimes.due_mono {times : RouteTimes} {now now' : Nat} (h : now ≤ now') (hdue : times.due now = true) :
    times.due now' = true := by
  obtain ⟨expires, hexpires, hle⟩ := (Option.any_eq_true _ _).mp hdue
  exact (Option.any_eq_true _ _).mpr ⟨expires, hexpires, decide_eq_true ((of_decide_eq_true hle).trans h)⟩

namespace QueuedBatch

/-- The batch was queued by `onRouteExpiration`. -/
def isExpiration (batch : QueuedBatch) : Bool := decide (batch.update.action = .unregister) && !batch.hasCallbacks

def registers (batch : QueuedBatch) (target : Name × FaceId × Nat) : Bool :=
  decide (batch.update.action = .register) && decide (batch.target = target)

end QueuedBatch

namespace TimedRib

variable {t t' : TimedRib} {batch : QueuedBatch} {batches pending : List QueuedBatch} {inheritedRoutes : List RibUpdate}

/-- A route whose expiration is pending has expired, and so has each registration of it that will be applied before. -/
structure InTime (t : TimedRib) (pending : List QueuedBatch) : Prop where
  stored : ∀ batch ∈ pending, batch.isExpiration = true → ∀ times, t.times batch.target.1 batch.target.2 = some times →
    times.due t.scheduler.now = true
  queued : pending.Pairwise fun earlier batch => batch.isExpiration = true → earlier.registers batch.target = true →
    earlier.times.due t.scheduler.now = true

theorem InTime.later (h : t.InTime pending) (htimes : t'.times = t.times) (hnow : t.scheduler.now ≤ t'.scheduler.now) :
    t'.InTime pending where
  stored batch hmem hexp times hstored :=
    RouteTimes.due_mono hnow (h.stored batch hmem hexp times (htimes ▸ hstored))
  queued := h.queued.imp fun hdue hexp hregisters => RouteTimes.due_mono hnow (hdue hexp hregisters)

/-- Batches that are no expirations are queued. -/
theorem InTime.append (h : t.InTime pending) (hbatches : ∀ batch ∈ batches, batch.isExpiration = false) :
    t.InTime (pending ++ batches) where
  stored batch hmem hexp := by
    rcases List.mem_append.mp hmem with hmem | hmem
    · exact h.stored batch hmem hexp
    · exact nomatch (hbatches batch hmem).symm.trans hexp
  queued := by
    refine List.pairwise_append.mpr ⟨h.queued, ?_, fun _ _ batch hmem hexp =>
      nomatch (hbatches batch hmem).symm.trans hexp⟩
    exact List.pairwise_of_forall_mem_list fun _ _ batch hmem hexp => nomatch (hbatches batch hmem).symm.trans hexp

/-- All registrations of the route are due. -/
def registrationsDue (t : TimedRib) (pending : List QueuedBatch) (target : Name × FaceId × Nat) : Bool :=
  ((t.times target.1 target.2).all fun times => times.due t.scheduler.now) &&
    pending.all fun batch => !batch.registers target || batch.times.due t.scheduler.now

/-- An expiration is queued when all registrations of its route are due. -/
theorem InTime.append_expiration (h : t.InTime pending) (hdue : t.registrationsDue pending batch.target = true) :
    t.InTime (pending ++ [batch]) := by
  obtain ⟨hstored, hqueued⟩ := Bool.and_eq_true_iff.mp hdue
  refine ⟨fun b hmem hexp times htimes => ?_, List.pairwise_append.mpr ⟨h.queued, List.pairwise_singleton _ _,
    fun earlier hearlier b hb _ hregisters => ?_⟩⟩
  · rcases List.mem_append.mp hmem with hmem | hmem
    · exact h.stored b hmem hexp times htimes
    · cases List.mem_singleton.mp hmem
      rw [htimes] at hstored
      exact hstored
  · cases List.mem_singleton.mp hb
    have hor := List.all_eq_true.mp hqueued earlier hearlier
    rw [hregisters] at hor
    exact hor

/-- The first batch is applied: a route it registers is due if its expiration is pending. -/
theorem InTime.onFibUpdateSuccess (h : t.InTime (batch :: pending))
    (hsuccess : t.onFibUpdateSuccess batch inheritedRoutes = some t') : t'.InTime pending := by
  obtain ⟨t₁, happly, -, hafter, hscheduler⟩ := onFibUpdateSuccess_spec hsuccess
  obtain ⟨hfirst, hrest⟩ := List.pairwise_cons.mp h.queued
  have hnow : t'.scheduler.now = t.scheduler.now := by
    rw [hscheduler, applyUpdate_scheduler happly]
    cases t.expirationEventOf batch.update.name batch.update.route <;> rfl
  refine ⟨fun b hmem hexp times htimes => ?_, ?_⟩
  · rw [hnow]
    rw [hafter, applyUpdate_times happly, timesAfter] at htimes
    split at htimes
    · rename_i htarget
      split at htimes <;> cases htimes
      rename_i haction
      refine hfirst b hmem hexp (Bool.and_eq_true_iff.mpr ⟨decide_eq_true haction, decide_eq_true ?_⟩)
      exact htarget
    · exact h.stored b (List.mem_cons_of_mem _ hmem) hexp times htimes
  · rw [hnow]
    exact hrest

end TimedRib

namespace RibManager

variable {nthElement : NthElement} {s s' : RibManager} {batch : QueuedBatch} {event : Event} {name : Name}
  {key : FaceId × Nat}

/-- A timer runs out when all registrations of its route are due, the ones that are stored, in progress or queued. -/
def expiresInTime (s : RibManager) (event : Event) : Bool :=
  answersLast event &&
    match event with
    | .onRouteExpiration x =>
        (s.timedRib.scheduler.pending.find? fun e => e.event == x).all fun expiration =>
          s.timedRib.registrationsDue s.pendingBatches (expiration.name, expiration.route.key)
    | _ => true

/-- What holds while timers run out in time. -/
structure Punctual (s : RibManager) : Prop where
  tracked : s.Tracked
  timed : s.timedRib.Timed
  inTime : s.timedRib.InTime s.pendingBatches

theorem init_punctual : init.Punctual where
  tracked := init_tracked
  timed := TimedRib.empty_timed
  inTime := ⟨fun _ h => absurd h List.not_mem_nil, List.Pairwise.nil⟩

theorem Answered.inTime (h : Answered s s') (hinTime : s.timedRib.InTime s.pendingBatches) :
    s'.timedRib.InTime s'.pendingBatches := by
  obtain ⟨ht, hpending⟩ | ⟨batch, -, hpending, ⟨inheritedRoutes, happlied⟩ | ⟨ht, -⟩⟩ := h.pendingBatches
  · rw [ht, hpending]
    exact hinTime
  · exact (hpending ▸ hinTime).onFibUpdateSuccess happlied
  · rw [hpending] at hinTime
    rw [ht]
    exact ⟨fun b hb => hinTime.stored b (List.mem_cons_of_mem _ hb), (List.pairwise_cons.mp hinTime.queued).2⟩

theorem Begun.inTime (h : Begun s s' batch) (hinTime : s.timedRib.InTime s.pendingBatches) :
    s'.timedRib.InTime s'.pendingBatches := by
  rw [h.pendingBatches]
  exact hinTime.later h.same.2.1 h.same.2.2.ge

/-- An event that is handled: commands queue no expirations, and a timer that runs out one whose registrations are
due. -/
theorem handle_inTime (hinTime : s.timedRib.InTime s.pendingBatches) (hok : expiresInTime s event = true)
    (h : s.handle event = some s') (hevent : ∀ i j response, event ≠ .onFibResponse i j response) :
    s'.timedRib.InTime s'.pendingBatches := by
  have hsame := handle_sameBatch h hevent
  have hqueue : ∀ batches, s'.updateBatches = s.updateBatches ++ batches →
      s'.timedRib.scheduler.now = s.timedRib.scheduler.now → s.timedRib.InTime (s.pendingBatches ++ batches) →
      s'.timedRib.InTime s'.pendingBatches := by
    intro batches hbatches hnow happend
    rw [hsame.pendingBatches hbatches]
    exact happend.later hsame.times hnow.ge
  have hnone : s'.updateBatches = s.updateBatches → s'.pendingBatches = s.pendingBatches := fun hbatches => by
    rw [hsame.pendingBatches (hbatches.trans (List.append_nil _).symm), List.append_nil]
  cases event with
  | registerEntry name route expirationPeriod =>
      cases h
      cases expirationPeriod <;>
        exact hqueue [_] rfl rfl (hinTime.append fun batch hmem => List.mem_singleton.mp hmem ▸ rfl)
  | unregisterEntry name faceId origin =>
      cases h
      exact hqueue [_] rfl rfl (hinTime.append fun batch hmem => List.mem_singleton.mp hmem ▸ rfl)
  | onFibResponse i j response => exact absurd rfl (hevent i j response)
  | advance elapsed =>
      cases h
      rw [hnone rfl]
      exact hinTime.later rfl (Nat.le_add_right _ _)
  | onRouteExpiration x =>
      obtain ⟨expiration, hfind, h⟩ := Option.bind_eq_some_iff.mp h
      dsimp only at h
      split at h <;> cases h
      rw [expiresInTime, Bool.and_eq_true] at hok
      have hdue := hok.2
      rw [hfind] at hdue
      exact hqueue [_] rfl rfl (hinTime.append_expiration hdue)
  | onNotification faceId =>
      cases h
      rw [hnone rfl]
      exact hinTime
  | onFaceDestroyedEvent faceId =>
      rw [handle, onFaceDestroyedEvent] at h
      split at h <;> cases h
      refine hqueue _ rfl rfl (hinTime.append fun batch hmem => ?_)
      obtain ⟨nameAndRoute, -, rfl⟩ := List.mem_map.mp hmem
      rfl
  | removeInvalidFaces activeFaces =>
      cases h
      rw [hnone rfl]
      exact hinTime
  | sendBatchFromQueue => cases h

theorem Punctual.step (h : s.Punctual) (hok : expiresInTime s event = true)
    (hstep : s.step nthElement event = some s') :
    s'.Punctual where
  tracked := h.tracked.step (Bool.and_eq_true_iff.mp hok).1 hstep
  timed := step_timed h.timed hstep
  inTime := by
    cases event with
    | sendBatchFromQueue =>
        obtain ⟨batch, s₁, hbegun, hanswered⟩ := sendBatchFromQueue_spec hstep
        exact hanswered.inTime (hbegun.inTime h.inTime)
    | onFibResponse i j response =>
        cases beq_iff_eq.mp (Bool.and_eq_true_iff.mp hok).1
        exact (h.tracked.onFibResponse (step_handle hstep Event.noConfusion)).inTime h.inTime
    | _ => exact handle_inTime h.inTime hok (step_handle hstep Event.noConfusion) fun _ _ _ => Event.noConfusion

/-- The batch that a step may apply. -/
def batchOf (s : RibManager) : Event → Option QueuedBatch
  | .sendBatchFromQueue => s.updateBatches.head?
  | .onFibResponse i _ _ => (s.sentBatches[i]?).map SentBatch.batch
  | _ => none

/-- A route that is gone after a batch was answered is the one the batch was about. -/
theorem Answered.removes (h : Answered s s') (htimed : s.timedRib.Timed) (hstored : s.timedRib.rib.Stored name key)
    (hgone : ¬ s'.timedRib.rib.Stored name key) :
    ∃ batch, s.inProgress = some batch ∧ batch.target = (name, key) := by
  obtain ⟨ht, -⟩ | ⟨batch, hprogress, -, ⟨inheritedRoutes, happlied⟩ | ⟨ht, -⟩⟩ := h.pendingBatches
  · exact absurd (ht ▸ hstored) hgone
  · obtain ⟨htimed', htimes⟩ := htimed.onFibUpdateSuccess happlied
    refine ⟨batch, hprogress, ?_⟩
    by_contra hne
    rw [← htimed'.times, htimes, TimedRib.timesAfter, if_neg hne, htimed.times] at hgone
    exact hgone hstored
  · exact absurd (ht ▸ hstored) hgone

/-- While timers run out in time, a route that an expiration removes has reached the time at which its last registration
expires. -/
theorem routes_expire_in_time (hr : Reach (step nthElement) (fun s event => expiresInTime s event = true) init s)
    (hok : expiresInTime s event = true) (hstep : s.step nthElement event = some s')
    (hbatch : s.batchOf event = some batch)
    (hexp : batch.isExpiration = true) (hstored : s.timedRib.rib.Stored name key)
    (hgone : ¬ s'.timedRib.rib.Stored name key) :
    ∃ times expires, s.timedRib.times name key = some times ∧ times.expires = some expires ∧
      expires ≤ s.timedRib.scheduler.now := by
  have h : s.Punctual := hr.invariant init_punctual fun s event s' h hok hstep => h.step hok hstep
  obtain ⟨times, htimes⟩ := Option.isSome_iff_exists.mp ((h.timed.times name key).mpr hstored)
  have hpending : batch ∈ s.pendingBatches ∧ batch.target = (name, key) := by
    cases event with
    | sendBatchFromQueue =>
        obtain ⟨batch', s₁, hbegun, hanswered⟩ := sendBatchFromQueue_spec hstep
        cases (congrArg List.head? hbegun.queue).symm.trans hbatch
        have htimed := h.timed.of_same hbegun.same.1 hbegun.same.2.1
        obtain ⟨batch', hprogress, htarget⟩ := hanswered.removes htimed (hbegun.same.1 ▸ hstored) hgone
        cases hbegun.inProgress.symm.trans hprogress
        rw [← hbegun.pendingBatches, pendingBatches, hbegun.inProgress]
        exact ⟨List.mem_cons_self, htarget⟩
    | onFibResponse i j response =>
        cases beq_iff_eq.mp (Bool.and_eq_true_iff.mp hok).1
        have hanswered := h.tracked.onFibResponse (step_handle hstep Event.noConfusion)
        obtain ⟨batch', hprogress, htarget⟩ := hanswered.removes h.timed hstored hgone
        have hsame : batch' = batch := by
          rw [inProgress] at hprogress
          split at hprogress
          · rw [batchOf, ← List.head?_eq_getElem?] at hbatch
            exact Option.some.inj (hprogress.symm.trans hbatch)
          · cases hprogress
        rw [pendingBatches, hprogress, hsame]
        exact ⟨List.mem_cons_self, hsame ▸ htarget⟩
    | _ => cases hbatch
  have hdue := h.inTime.stored batch hpending.1 hexp times (by rw [hpending.2]; exact htimes)
  obtain ⟨expires, hexpires, hle⟩ := (Option.any_eq_true _ _).mp hdue
  exact ⟨times, expires, htimes, hexpires, of_decide_eq_true hle⟩

/-- A route of face 1 under `/A` that expires after 100 ms. -/
def expiringRoute : List Event :=
  [.registerEntry [.ofByte 65] ⟨1, 0, 0, 10⟩ (some 100), .sendBatchFromQueue, .onFibResponse 0 0 .success]

/-- It is removed when the time has come. -/
theorem routes_expire_in_time_once :
    ∃ s times expires, exec (step .stable) init (expiringRoute ++ [.advance 100, .onRouteExpiration 0,
      .sendBatchFromQueue]) =
        some s ∧ s.timedRib.times [.ofByte 65] (1, 0) = some times ∧ times.expires = some expires ∧
      expires ≤ s.timedRib.scheduler.now := by
  have hrun : ((exec (guarded (step .stable) expiresInTime) init
      (expiringRoute ++ [.advance 100, .onRouteExpiration 0, .sendBatchFromQueue])).any fun s =>
        expiresInTime s (.onFibResponse 0 0 .success) && (s.batchOf (.onFibResponse 0 0 .success)).any fun batch =>
          (s.step .stable (.onFibResponse 0 0 .success)).any fun s' => batch.isExpiration &&
            SizedRib.hasRoute s.timedRib.rib [.ofByte 65] ⟨1, 0, 0, 10⟩ &&
            !SizedRib.hasRoute s'.timedRib.rib [.ofByte 65] ⟨1, 0, 0, 10⟩) = true := by decide +kernel
  obtain ⟨s, hs, hrun⟩ := (Option.any_eq_true _ _).mp hrun
  obtain ⟨hok, hrun⟩ := Bool.and_eq_true_iff.mp hrun
  obtain ⟨batch, hbatch, hrun⟩ := (Option.any_eq_true _ _).mp hrun
  obtain ⟨s', hstep, hrun⟩ := (Option.any_eq_true _ _).mp hrun
  rw [Bool.and_eq_true, Bool.and_eq_true, Bool.not_eq_true', ← Bool.not_eq_true, Rib.hasRoute_iff,
    Rib.hasRoute_iff] at hrun
  obtain ⟨times, expires, htimes⟩ :=
    routes_expire_in_time (reach_of_exec_guarded .start hs) hok hstep hbatch hrun.1.1 hrun.1.2 hrun.2
  exact ⟨s, times, expires, exec_of_guarded hs, htimes⟩

/-- The route is registered again, without an expiration period, and the timer of the first registration runs out while
the FIB is asked. The registration is applied, then the expiration: a route that never expires is removed. -/
theorem refreshed_route_expires :
    ∃ s s' batch, exec (step .stable) init (expiringRoute ++ [.registerEntry [.ofByte 65] ⟨1, 0, 0, 20⟩ none,
      .sendBatchFromQueue,
        .advance 100, .onRouteExpiration 0, .onFibResponse 0 0 .success, .sendBatchFromQueue]) = some s ∧
      s.step .stable (.onFibResponse 0 0 .success) = some s' ∧ s.batchOf (.onFibResponse 0 0 .success) = some batch ∧
      batch.isExpiration = true ∧ s.timedRib.rib.Stored [.ofByte 65] (1, 0) ∧
      ¬ s'.timedRib.rib.Stored [.ofByte 65] (1, 0) ∧
      s.timedRib.times [.ofByte 65] (1, 0) = some ⟨none, none⟩ := by
  have hrun : ((exec (step .stable) init (expiringRoute ++ [.registerEntry [.ofByte 65] ⟨1, 0, 0, 20⟩ none,
    .sendBatchFromQueue,
      .advance 100, .onRouteExpiration 0, .onFibResponse 0 0 .success, .sendBatchFromQueue])).any fun s =>
        (s.batchOf (.onFibResponse 0 0 .success)).any fun batch =>
          (s.step .stable (.onFibResponse 0 0 .success)).any fun s' =>
          batch.isExpiration && (SizedRib.hasRoute s.timedRib.rib [.ofByte 65] ⟨1, 0, 0, 10⟩ &&
            (!SizedRib.hasRoute s'.timedRib.rib [.ofByte 65] ⟨1, 0, 0, 10⟩ &&
              decide (s.timedRib.times [.ofByte 65] (1, 0) = some ⟨none, none⟩)))) = true := by
    decide +kernel
  obtain ⟨s, hs, hrun⟩ := (Option.any_eq_true _ _).mp hrun
  obtain ⟨batch, hbatch, hrun⟩ := (Option.any_eq_true _ _).mp hrun
  obtain ⟨s', hstep, hrun⟩ := (Option.any_eq_true _ _).mp hrun
  rw [Bool.and_eq_true, Bool.and_eq_true, Bool.and_eq_true, Bool.not_eq_true', ← Bool.not_eq_true, Rib.hasRoute_iff,
    Rib.hasRoute_iff, decide_eq_true_iff] at hrun
  exact ⟨s, s', batch, hs, hstep, hbatch, hrun⟩

end RibManager
end NfdPitless
