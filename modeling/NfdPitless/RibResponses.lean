import NfdPitless.RibManager
import Mathlib.Data.List.Perm.Subperm

/-! The responses of the FIB to the batch sent last. As long as no response to an earlier batch arrives, the batch in
progress is applied once, when all its updates have been answered, or fails once, and what is left of a batch that has
failed changes nothing. -/

namespace NfdPitless

namespace TimedRib

variable {t t' : TimedRib} {batch : QueuedBatch} {inheritedRoutes : List RibUpdate}

/-- A batch that is applied cancels at most the event of its route. -/
theorem applyUpdate_scheduler (h : t.applyUpdate batch = some t') :
    t'.scheduler = t.scheduler.cancel (t.expirationEventOf batch.update.name batch.update.route) := by
  rw [applyUpdate] at h
  split at h <;> obtain ⟨rib, -, rfl⟩ := Option.map_eq_some_iff.mp h <;> rfl

theorem onFibUpdateSuccess_spec (h : t.onFibUpdateSuccess batch inheritedRoutes = some t') :
    ∃ t₁, t.applyUpdate batch = some t₁ ∧ t₁.rib.modifyInheritedRoutes inheritedRoutes = some t'.rib ∧
      t'.times = t₁.times ∧ t'.scheduler = t₁.scheduler := by
  obtain ⟨t₁, happly, h⟩ := Option.bind_eq_some_iff.mp h
  obtain ⟨rib, hrib, rfl⟩ := Option.map_eq_some_iff.mp h
  exact ⟨t₁, happly, hrib, rfl, rfl⟩

end TimedRib

namespace RibManager

variable {s s' s₁ : RibManager} {sent : SentBatch} {batch : QueuedBatch} {reply : List Command × Option Callback}
  {nthElement : NthElement}

def inProgress (s : RibManager) : Option QueuedBatch :=
  if s.isUpdateInProgress then s.sentBatches.head?.map SentBatch.batch else none

/-- The commands of the batch sent last that the FIB has not answered. -/
def asked (s : RibManager) : List Command := s.sentBatches.head?.elim [] SentBatch.commands

/-- The batches that have not been applied, in the order in which they will be. -/
def pendingBatches (s : RibManager) : List QueuedBatch := s.inProgress.toList ++ s.updateBatches

/-- The FIB updater waits for the answers to one of its lists. A batch that has failed leaves the update that has, so
the list is never empty again. -/
structure Tracked (s : RibManager) : Prop where
  waiting : s.isUpdateInProgress = true → s.fibUpdater.Awaits s.asked ∧ s.asked ≠ []
  stopped : s.isUpdateInProgress = false → s.asked = [] ∨
    ∃ failed ∈ s.fibUpdater.updatesForBatchFaceId, ∀ command ∈ s.asked,
      command.update ≠ failed ∧ command.update.faceId = s.fibUpdater.batchFaceId
  removal : ∀ batch, s.inProgress = some batch → batch.update.action = .removeFace →
    s.fibUpdater.updatesForBatchFaceId = []

/-- What no response changes. -/
structure SameQueue (s s' : RibManager) : Prop where
  updateBatches : s'.updateBatches = s.updateBatches
  registeredFaces : s'.registeredFaces = s.registeredFaces
  destroyedFaces : s'.destroyedFaces = s.destroyedFaces

/-- What becomes of the batch in progress. -/
inductive BatchOutcome (s s' : RibManager) : Prop where
  | waits : s'.timedRib = s.timedRib → s'.isUpdateInProgress = s.isUpdateInProgress → s'.inProgress = s.inProgress →
      BatchOutcome s s'
  | applied {batch : QueuedBatch} {inheritedRoutes : List RibUpdate} : s.inProgress = some batch →
      s.timedRib.onFibUpdateSuccess batch inheritedRoutes = some s'.timedRib → s'.isUpdateInProgress = false →
      BatchOutcome s s'
  | failed {batch : QueuedBatch} : s.inProgress = some batch → batch.update.action ≠ .removeFace →
      s'.timedRib = s.timedRib → s'.isUpdateInProgress = false → BatchOutcome s s'

/-- A step after which the responses are still tracked. -/
structure Answered (s s' : RibManager) : Prop where
  tracked : s'.Tracked
  queue : SameQueue s s'
  outcome : BatchOutcome s s'

theorem inProgress_of_last (hprogress : s.isUpdateInProgress = true) (hsent : s.sentBatches[0]? = some sent) :
    s.inProgress = some sent.batch := by
  rw [inProgress, if_pos hprogress, List.head?_eq_getElem?, hsent]
  rfl

theorem inProgress_none (h : s.isUpdateInProgress = false) : s.inProgress = none := by
  rw [inProgress, h]
  rfl

theorem inProgress_some (hprogress : s.isUpdateInProgress = true) (hsent : s.sentBatches ≠ []) :
    ∃ batch, s.inProgress = some batch := by
  cases hlast : s.sentBatches with
  | nil => exact absurd hlast hsent
  | cons sent rest => exact ⟨sent.batch, inProgress_of_last hprogress (by rw [hlast]; rfl)⟩

theorem sentBatches_ne_nil (h : s.asked ≠ []) : s.sentBatches ≠ [] := fun hnil => h (by rw [asked, hnil]; rfl)

theorem modifyCommands_asked (hsent : s.sentBatches ≠ []) (f : List Command → List Command) :
    (s.modifyCommands 0 f).asked = f s.asked := by
  rw [asked, asked, modifyCommands]
  cases hlast : s.sentBatches with
  | nil => exact absurd hlast hsent
  | cons sent rest => rfl

theorem modifyCommands_inProgress (s : RibManager) (f : List Command → List Command) :
    (s.modifyCommands 0 f).inProgress = s.inProgress := by
  rw [inProgress, inProgress, modifyCommands]
  cases s.sentBatches <;> rfl

/-- What comes before a step may change what is asked, and nothing else. -/
theorem Answered.of_same (h : Answered s₁ s') (htimed : s₁.timedRib = s.timedRib)
    (hflag : s₁.isUpdateInProgress = s.isUpdateInProgress) (hprogress : s₁.inProgress = s.inProgress)
    (hqueue : SameQueue s s₁) : Answered s s' where
  tracked := h.tracked
  queue := {
    updateBatches := h.queue.updateBatches.trans hqueue.updateBatches
    registeredFaces := h.queue.registeredFaces.trans hqueue.registeredFaces
    destroyedFaces := h.queue.destroyedFaces.trans hqueue.destroyedFaces }
  outcome := by
    cases h.outcome with
    | waits ht hf hp => exact .waits (ht.trans htimed) (hf.trans hflag) (hp.trans hprogress)
    | applied hp ht hp' => exact .applied (hprogress ▸ hp) (htimed ▸ ht) hp'
    | failed hp haction ht hp' => exact .failed (hprogress ▸ hp) haction (ht.trans htimed) hp'

/-- The updater goes on with the batch in progress: it waits for commands, or the batch is applied. -/
theorem carryOut_answered (hprogress : s.isUpdateInProgress = true) (hsent : s.sentBatches ≠ [])
    (hcont : FibUpdater.Continues s.fibUpdater (s.asked ++ reply.1) reply.2)
    (hremoval : ∀ batch, s.inProgress = some batch → batch.update.action = .removeFace →
      s.fibUpdater.updatesForBatchFaceId = [])
    (h : s.carryOut 0 reply = some s') : Answered s s' := by
  have hasked := modifyCommands_asked hsent fun commands => commands ++ reply.1
  have hin := modifyCommands_inProgress s fun commands => commands ++ reply.1
  rw [carryOut] at h
  cases hcallback : reply.2 with
  | none =>
      rw [hcallback] at h
      cases h
      exact {
        tracked := {
          waiting := fun _ => ⟨hasked ▸ hcont.awaits, hasked ▸ hcont.none_iff.mp hcallback⟩
          stopped := fun hp => nomatch hprogress.symm.trans hp
          removal := fun batch hp => hremoval batch (hin ▸ hp) }
        queue := ⟨rfl, rfl, rfl⟩
        outcome := .waits rfl rfl hin }
  | some callback =>
      have hnone : s.asked ++ reply.1 = [] := by
        by_contra hne
        exact nomatch hcallback.symm.trans (hcont.none_iff.mpr hne)
      cases hcont.onSuccess callback hcallback
      rw [hcallback] at h
      obtain ⟨sent, hget, happly⟩ := Option.bind_eq_some_iff.mp h
      obtain ⟨timedRib, happlied, rfl⟩ := Option.map_eq_some_iff.mp happly
      exact {
        tracked := {
          waiting := fun hp => nomatch hp
          stopped := fun _ => .inl (hasked.trans hnone)
          removal := fun _ hp => nomatch hp }
        queue := ⟨rfl, rfl, rfl⟩
        outcome := .applied (hin ▸ inProgress_of_last hprogress hget) happlied rfl }

/-! ### Responses -/

/-- Among commands sent once, the one at an index is the one that is erased. -/
theorem eraseIdx_eq_erase {commands : List Command} {command : Command} {j : Nat} (hnodup : commands.Nodup)
    (hj : commands[j]? = some command) : commands.eraseIdx j = commands.erase command := by
  obtain ⟨hlt, hget⟩ := List.getElem?_eq_some_iff.mp hj
  rw [List.erase_eq_eraseIdx_of_idxOf (i := j)]
  rw [← hget]
  exact hnodup.idxOf_getElem j hlt

/-- The batch fails when its face is gone, and leaves that update behind. -/
theorem Tracked.onFailure (h : s.Tracked) (hprogress : s.isUpdateInProgress = true) {command : Command}
    (hmem : command ∈ s.asked) (hface : command.update.faceId = s.fibUpdater.batchFaceId)
    (hasked : s₁.asked = s.asked.erase command) (hu : s₁.fibUpdater = s.fibUpdater) (ht : s₁.timedRib = s.timedRib)
    (hqueue : SameQueue s s₁) : Answered s s₁.onFibUpdateFailure := by
  obtain ⟨hawaits, hne⟩ := h.waiting hprogress
  obtain ⟨batch, hbatch⟩ := inProgress_some hprogress (sentBatches_ne_nil hne)
  have hlist := (hawaits.face hmem).mp hface
  have hawaited := FibUpdater.awaited_of_ne_nil hlist
  have hother : command.update ∉ (s.asked.erase command).map Command.update :=
    (List.nodup_cons.mp (((List.perm_cons_erase hmem).map Command.update).nodup_iff.mp hawaits.nodup)).1
  exact {
    tracked := {
      waiting := fun hp => nomatch hp
      stopped := fun _ => .inr ⟨command.update, hu ▸ hawaited ▸ hawaits.mem hmem, fun c hc => by
        change c ∈ s₁.asked at hc
        rw [hasked] at hc
        refine ⟨fun heq => hother (heq ▸ List.mem_map_of_mem hc), ?_⟩
        change c.update.faceId = s₁.fibUpdater.batchFaceId
        rw [hu]
        exact s.fibUpdater.face_batch _ (hawaited ▸ hawaits.mem (List.mem_of_mem_erase hc))⟩
      removal := fun _ hp => nomatch hp }
    queue := ⟨hqueue.updateBatches, hqueue.registeredFaces, hqueue.destroyedFaces⟩
    outcome := .failed hbatch (fun haction => hlist (h.removal batch hbatch haction)) ht rfl }

/-- The `j`-th command of the batch sent last is answered, and the updater with it. -/
def taken (s : RibManager) (u : FibUpdater) (j : Nat) : RibManager :=
  { s with fibUpdater := u }.modifyCommands 0 fun commands => commands.eraseIdx j

theorem taken_inProgress (s : RibManager) (u : FibUpdater) (j : Nat) : (s.taken u j).inProgress = s.inProgress :=
  modifyCommands_inProgress { s with fibUpdater := u } _

theorem taken_sentBatches (hsent : s.sentBatches ≠ []) (u : FibUpdater) (j : Nat) : (s.taken u j).sentBatches ≠ [] := by
  rw [taken, modifyCommands]
  cases hlast : s.sentBatches with
  | nil => exact absurd hlast hsent
  | cons sent rest => exact List.cons_ne_nil _ _

theorem taken_asked (hsent : s.sentBatches ≠ []) (u : FibUpdater) (j : Nat) :
    (s.taken u j).asked = s.asked.eraseIdx j := modifyCommands_asked (s := { s with fibUpdater := u }) hsent _

/-- A response to the batch sent last. -/
theorem Tracked.onFibResponse (h : s.Tracked) {j : Nat} {outcome : Outcome}
    (hs' : s.onFibResponse 0 j outcome = some s') : Answered s s' := by
  obtain ⟨sent, hget, hs'⟩ := Option.bind_eq_some_iff.mp hs'
  obtain ⟨command, hcommand, hs'⟩ := Option.bind_eq_some_iff.mp hs'
  obtain ⟨⟨u, commands, callback⟩, hreply, hs'⟩ := Option.bind_eq_some_iff.mp hs'
  have hj : s.asked[j]? = some command := by
    rw [asked, List.head?_eq_getElem?, hget]
    exact hcommand
  have hmem : command ∈ s.asked := List.mem_of_getElem? hj
  have hsent := sentBatches_ne_nil (List.ne_nil_of_mem hmem)
  have hleft := taken_sentBatches hsent u j
  have htaken := taken_asked hsent u j
  change (s.taken u j).carryOut 0 (commands, callback) = some s' at hs'
  cases hprogress : s.isUpdateInProgress with
  | true =>
      obtain ⟨hawaits, -⟩ := h.waiting hprogress
      rw [eraseIdx_eq_erase (hawaits.nodup.of_map _) hj] at htaken
      rcases hawaits.answered hmem hreply with ⟨hface, heq⟩ | hcont
      · cases heq
        cases hs'
        refine h.onFailure hprogress hmem hface ?_ rfl rfl ⟨rfl, rfl, rfl⟩
        rw [modifyCommands_asked hleft, htaken, List.append_nil]
      · refine (carryOut_answered (s := s.taken u j) hprogress hleft ?_ (fun batch hp haction => ?_)
          hs').of_same rfl rfl
          (taken_inProgress s u j) ⟨rfl, rfl, rfl⟩
        · rw [htaken]
          exact hcont
        · exact FibUpdater.reply_batch_nil (h.removal batch (taken_inProgress s u j ▸ hp) haction) hreply
  | false =>
      obtain hnone | ⟨failed, hfailed, hothers⟩ := h.stopped hprogress
      · rw [hnone] at hmem
        exact absurd hmem List.not_mem_nil
      · obtain ⟨hne, hface⟩ := hothers command hmem
        obtain ⟨hstays, hbatchFace, hupdates, hcallback⟩ := FibUpdater.reply_of_unanswered hfailed hne hface hreply
        have hasked : ∀ c ∈ s.asked.eraseIdx j ++ commands, c.update ≠ failed ∧
            c.update.faceId = s.fibUpdater.batchFaceId := by
          intro c hc
          rcases List.mem_append.mp hc with hc | hc
          · exact hothers c (List.mem_of_mem_eraseIdx hc)
          · rw [hupdates c hc]
            exact ⟨hne, hface⟩
        have hstill : ∀ s₂ : RibManager, s₂.asked = s.asked.eraseIdx j ++ commands → s₂.fibUpdater = u →
            s₂.isUpdateInProgress = false → s₂.timedRib = s.timedRib → SameQueue s s₂ → Answered s s₂ := by
          intro s₂ hasked₂ hu hflag ht hqueue
          exact {
            tracked := {
              waiting := fun hp => nomatch hflag.symm.trans hp
              stopped := fun _ => .inr ⟨failed, hu ▸ hstays, fun c hc => by
                rw [hu, hbatchFace]
                exact hasked c (hasked₂ ▸ hc)⟩
              removal := fun batch hp => nomatch (inProgress_none hflag).symm.trans hp }
            queue := hqueue
            outcome := .waits ht (hflag.trans hprogress.symm)
              ((inProgress_none hflag).trans (inProgress_none hprogress).symm) }
        have hlast : ((s.taken u j).modifyCommands 0 fun sent => sent ++ commands).asked =
            s.asked.eraseIdx j ++ commands := by
          rw [modifyCommands_asked hleft, htaken]
        rcases hcallback with hnone | hfails
        · cases hnone
          cases hs'
          exact hstill _ hlast rfl hprogress rfl ⟨rfl, rfl, rfl⟩
        · cases hfails
          cases hs'
          exact hstill _ hlast rfl rfl rfl ⟨rfl, rfl, rfl⟩

/-- The batch in progress leaves the queue when it is applied or fails. -/
theorem Answered.pendingBatches (h : Answered s s') :
    (s'.timedRib = s.timedRib ∧ s'.pendingBatches = s.pendingBatches) ∨
    ∃ batch, s.inProgress = some batch ∧ s.pendingBatches = batch :: s'.pendingBatches ∧
      ((∃ inheritedRoutes, s.timedRib.onFibUpdateSuccess batch inheritedRoutes = some s'.timedRib) ∨
        (s'.timedRib = s.timedRib ∧ batch.update.action ≠ .removeFace)) := by
  have hidle : ∀ batch, s.inProgress = some batch → s'.isUpdateInProgress = false →
      s.pendingBatches = batch :: s'.pendingBatches := by
    intro batch hprogress hidle
    rw [RibManager.pendingBatches, RibManager.pendingBatches, hprogress, inProgress_none hidle, h.queue.updateBatches]
    rfl
  cases h.outcome with
  | waits ht hflag hprogress =>
      refine .inl ⟨ht, ?_⟩
      rw [RibManager.pendingBatches, RibManager.pendingBatches, hprogress, h.queue.updateBatches]
  | applied hprogress ht hflag => exact .inr ⟨_, hprogress, hidle _ hprogress hflag, .inl ⟨_, ht⟩⟩
  | failed hprogress haction ht hflag => exact .inr ⟨_, hprogress, hidle _ hprogress hflag, .inr ⟨ht, haction⟩⟩

/-- The batch at the front of the queue is in progress; its updates have not been sent. -/
structure Begun (s s' : RibManager) (batch : QueuedBatch) : Prop where
  idle : s.isUpdateInProgress = false
  queue : s.updateBatches = batch :: s'.updateBatches
  inProgress : s'.inProgress = some batch
  timedRib : s'.timedRib = if batch.update.action = .register then s.timedRib else
    s.timedRib.cancelExpirationOf batch.update.name batch.update.route
  registeredFaces : s'.registeredFaces = s.registeredFaces
  destroyedFaces : s'.destroyedFaces = s.destroyedFaces

theorem Begun.pendingBatches (h : Begun s s' batch) : s'.pendingBatches = s.pendingBatches := by
  rw [RibManager.pendingBatches, RibManager.pendingBatches, h.inProgress, inProgress_none h.idle, h.queue]
  rfl

theorem sendBatchFromQueue_spec (h : s.sendBatchFromQueue nthElement = some s') :
    ∃ batch s₁, Begun s s₁ batch ∧ Answered s₁ s' := by
  obtain ⟨⟨s₁, number⟩, hbegin, hsend⟩ := Option.bind_eq_some_iff.mp h
  rw [beginBatch] at hbegin
  split at hbegin
  · cases hbegin
  · rename_i batch updateBatches hqueue
    split at hbegin
    · cases hbegin
    · rename_i hidle
      obtain ⟨⟨fibUpdater, timedRib⟩, hcompute, hpair⟩ := Option.map_eq_some_iff.mp hbegin
      cases hpair
      obtain ⟨u, hu, hpair⟩ := Option.map_eq_some_iff.mp hcompute
      refine ⟨batch, { s with
          timedRib, updateBatches, isUpdateInProgress := true, fibUpdater
          sentBatches := ⟨batch, []⟩ :: s.sentBatches }, {
        idle := Bool.eq_false_iff.mpr hidle
        queue := hqueue
        inProgress := rfl
        timedRib := ?_
        registeredFaces := rfl
        destroyedFaces := rfl }, ?_⟩
      · split at hpair
        · rename_i haction
          cases hpair
          exact (if_pos haction).symm
        · rename_i haction
          cases hpair
          exact (if_neg (haction ▸ RibUpdate.Action.noConfusion)).symm
        · rename_i haction
          cases hpair
          exact (if_neg (haction ▸ RibUpdate.Action.noConfusion)).symm
      · refine carryOut_answered rfl (List.cons_ne_nil _ _) (fibUpdater.sendBatch_continues _)
          (fun batch' hbatch haction => ?_) hsend
        cases hbatch
        rw [FibUpdater.computeUpdates, haction] at hu
        rw [haction] at hpair
        cases hu
        cases hpair
        rfl

variable {t : TimedRib} {i j : Nat}

/-- A response applies a batch or leaves the RIB as it is. -/
inductive Touched (t t' : TimedRib) : Prop where
  | same : t' = t → Touched t t'
  | applied {batch : QueuedBatch} {inheritedRoutes : List RibUpdate} :
      t.onFibUpdateSuccess batch inheritedRoutes = some t' → Touched t t'

theorem carryOut_touched (h : s.carryOut i reply = some s') : Touched s.timedRib s'.timedRib := by
  rw [carryOut] at h
  cases hcallback : reply.2 with
  | none =>
      rw [hcallback] at h
      cases h
      exact .same rfl
  | some callback =>
      rw [hcallback] at h
      cases callback with
      | onSuccess inheritedRoutes =>
          obtain ⟨sent, -, h⟩ := Option.bind_eq_some_iff.mp h
          obtain ⟨timedRib, happlied, rfl⟩ := Option.map_eq_some_iff.mp h
          exact .applied happlied
      | onFailure =>
          cases h
          exact .same rfl

theorem onFibResponse_touched {outcome : Outcome} (h : s.onFibResponse i j outcome = some s') :
    Touched s.timedRib s'.timedRib := by
  obtain ⟨sent, -, h⟩ := Option.bind_eq_some_iff.mp h
  obtain ⟨command, -, h⟩ := Option.bind_eq_some_iff.mp h
  obtain ⟨⟨u, reply⟩, -, h⟩ := Option.bind_eq_some_iff.mp h
  exact carryOut_touched (s := { s with fibUpdater := u }.modifyCommands i fun commands => commands.eraseIdx j) h

theorem Answered.touched (h : Answered s s') : Touched s.timedRib s'.timedRib := by
  cases h.outcome with
  | waits ht _ _ => exact .same ht
  | applied _ ht _ => exact .applied ht
  | failed _ _ ht _ => exact .same ht

/-- No response to a batch arrives after a later one has been sent. -/
def answersLast : Event → Bool
  | .onFibResponse i _ _ => i == 0
  | _ => true

theorem step_handle {event : Event} (h : s.step nthElement event = some s') (hevent : event ≠ .sendBatchFromQueue) :
    s.handle event = some s' := by
  cases event with
  | sendBatchFromQueue => exact absurd rfl hevent
  | _ =>
      rw [step] at h
      · split at h
        · exact h
        · cases h
      · exact Event.noConfusion

/-- What only batches and responses change. -/
structure SameBatch (s s' : RibManager) : Prop where
  isUpdateInProgress : s'.isUpdateInProgress = s.isUpdateInProgress
  fibUpdater : s'.fibUpdater = s.fibUpdater
  sentBatches : s'.sentBatches = s.sentBatches
  rib : s'.timedRib.rib = s.timedRib.rib
  times : s'.timedRib.times = s.timedRib.times

theorem SameBatch.inProgress (h : SameBatch s s') : s'.inProgress = s.inProgress := by
  rw [RibManager.inProgress, RibManager.inProgress, h.isUpdateInProgress, h.sentBatches]

theorem SameBatch.pendingBatches {batches : List QueuedBatch} (h : SameBatch s s')
    (hqueue : s'.updateBatches = s.updateBatches ++ batches) : s'.pendingBatches = s.pendingBatches ++ batches := by
  rw [RibManager.pendingBatches, RibManager.pendingBatches, h.inProgress, hqueue, List.append_assoc]

theorem SameBatch.tracked (h : SameBatch s s') (htracked : s.Tracked) : s'.Tracked := by
  have hasked : s'.asked = s.asked := by rw [asked, asked, h.sentBatches]
  constructor
  · rw [h.isUpdateInProgress, h.fibUpdater, hasked]
    exact htracked.waiting
  · rw [h.isUpdateInProgress, h.fibUpdater, hasked]
    exact htracked.stopped
  · rw [h.inProgress, h.fibUpdater]
    exact htracked.removal

theorem registerEntry_sameBatch (s : RibManager) (name : Name) (route : Route) (expirationPeriod : Option Nat) :
    SameBatch s (s.registerEntry name route expirationPeriod) := by
  cases expirationPeriod <;> exact ⟨rfl, rfl, rfl, rfl, rfl⟩

theorem handle_sameBatch {event : Event} (h : s.handle event = some s')
    (hevent : ∀ i j response, event ≠ .onFibResponse i j response) : SameBatch s s' := by
  cases event with
  | registerEntry name route expirationPeriod =>
      cases h
      exact registerEntry_sameBatch s name route expirationPeriod
  | unregisterEntry name faceId origin =>
      cases h
      exact ⟨rfl, rfl, rfl, rfl, rfl⟩
  | onFibResponse i j response => exact absurd rfl (hevent i j response)
  | advance elapsed =>
      cases h
      exact ⟨rfl, rfl, rfl, rfl, rfl⟩
  | onRouteExpiration event =>
      obtain ⟨expiration, -, h⟩ := Option.bind_eq_some_iff.mp h
      dsimp only at h
      split at h <;> cases h
      exact ⟨rfl, rfl, rfl, rfl, rfl⟩
  | onNotification faceId =>
      cases h
      exact ⟨rfl, rfl, rfl, rfl, rfl⟩
  | onFaceDestroyedEvent faceId =>
      rw [handle, onFaceDestroyedEvent] at h
      split at h <;> cases h
      exact ⟨rfl, rfl, rfl, rfl, rfl⟩
  | removeInvalidFaces activeFaces =>
      cases h
      exact ⟨rfl, rfl, rfl, rfl, rfl⟩
  | sendBatchFromQueue => cases h

theorem init_tracked : init.Tracked where
  waiting h := nomatch h
  stopped _ := .inl rfl
  removal _ h := nomatch h

theorem Tracked.step (h : s.Tracked) {event : Event} (hlast : answersLast event = true)
    (hs' : s.step nthElement event = some s') : s'.Tracked := by
  cases event with
  | sendBatchFromQueue =>
      obtain ⟨batch, s₁, -, hanswered⟩ := sendBatchFromQueue_spec hs'
      exact hanswered.tracked
  | onFibResponse i j response =>
      cases beq_iff_eq.mp hlast
      exact (h.onFibResponse (step_handle hs' Event.noConfusion)).tracked
  | _ => exact (handle_sameBatch (step_handle hs' Event.noConfusion) fun _ _ _ => Event.noConfusion).tracked h

end RibManager
end NfdPitless
