import NfdPitless.FibCommands

/-! The queue of RIB updates (`rib/rib.cpp`, `beginApplyUpdate` to `onFibUpdateFailure`) over the commands in
flight. The commands of a batch keep the callbacks of their batch, but they share the lists of the updater with
the batch that is sent next: a batch that fails while others of its commands are in flight leaves responses
behind that reach the lists of a later batch. -/

namespace NfdPitless

structure RibQueue where
  rib : Rib
  link : FibLink
  updateBatches : List RibUpdate
  isUpdateInProgress : Bool
  /-- How many batches have been sent. -/
  nSent : Nat
  /-- The callbacks invoked, each with the number of its batch and whether it is the success callback. -/
  callbacks : List (Nat × Bool)

namespace RibQueue

def start (rib : Rib) (fib : NextHops) : RibQueue :=
  { rib, link := ⟨.new 0, [], fib⟩, updateBatches := [], isUpdateInProgress := false, nSent := 0, callbacks := [] }

def onFibUpdateSuccess (q : RibQueue) (batch : Batch) (inheritedRoutes : List RibUpdate) : Option RibQueue :=
  (q.rib.onFibUpdateSuccess batch.update inheritedRoutes).map fun rib =>
    { q with rib, isUpdateInProgress := false, callbacks := q.callbacks ++ [(batch.number, true)] }

def onFibUpdateFailure (q : RibQueue) (batch : Batch) : RibQueue :=
  { q with isUpdateInProgress := false, callbacks := q.callbacks ++ [(batch.number, false)] }

/-- A callback of a batch, up to advancing the queue. -/
def invoke (q : RibQueue) (batch : Batch) : Callback → Option RibQueue
  | .onSuccess inheritedRoutes => q.onFibUpdateSuccess batch inheritedRoutes
  | .onFailure => some (q.onFibUpdateFailure batch)

/-- Every batch that is taken from the queue uses one unit of fuel. A batch without FIB updates succeeds at
once, and its callback advances the queue again. -/
def sendBatchFromQueue (nthElement : NthElement) : Nat → RibQueue → Option RibQueue
  | 0, q => some q
  | fuel + 1, q =>
      match q.updateBatches with
      | [] => some q
      | update :: updateBatches =>
          if q.isUpdateInProgress then some q
          else
            (FibUpdater.computeUpdates nthElement q.rib (.new update.route.faceId) update).bind fun u =>
              let batch : Batch := ⟨q.nSent, update⟩
              let sent := q.link.sendBatch u batch
              let q := { q with link := sent.1, updateBatches, isUpdateInProgress := true, nSent := q.nSent + 1 }
              match sent.2 with
              | none => some q
              | some callback => (q.invoke batch callback).bind (sendBatchFromQueue nthElement fuel)

def advance (nthElement : NthElement) (q : RibQueue) : Option RibQueue :=
  sendBatchFromQueue nthElement q.updateBatches.length q

inductive Event where
  | beginApplyUpdate (update : RibUpdate)
  | beginRemoveFace (faceId : FaceId)
  | response (c : Command) (outcome : Outcome)

/-- Callers of `beginApplyUpdate` register and unregister. -/
def step (nthElement : NthElement) (q : RibQueue) : Event → Option RibQueue
  | .beginApplyUpdate update =>
      if update.action = .removeFace then none else advance nthElement
        { q with updateBatches := q.updateBatches ++ [update] }
  | .beginRemoveFace faceId =>
      advance nthElement { q with
        link := { q.link with fib := q.link.fib.removeFace faceId }
        updateBatches := q.updateBatches ++ RibState.removalsOfFace q.rib faceId }
  | .response c outcome =>
      (q.link.respond c outcome).bind fun answered =>
        let q := { q with link := answered.1 }
        match answered.2 with
        | none => some q
        | some callback => (q.invoke c.batch callback).bind (advance nthElement)

/-- How many callbacks of a batch have been invoked. -/
def timesCalled (q : RibQueue) (number : Nat) : Nat := (q.callbacks.filter fun call => call.1 == number).length

structure CallbackLaw (q : RibQueue) : Prop where
  at_most_once : ∀ k, q.timesCalled k ≤ 1
  /-- The flag is set exactly while a batch that was sent has not called back. -/
  inProgress_iff : q.isUpdateInProgress = true ↔ ∃ k, k < q.nSent ∧ q.timesCalled k = 0
  one_at_a_time : ∀ k k', k < q.nSent → k' < q.nSent → q.timesCalled k = 0 → q.timesCalled k' = 0 → k = k'
  /-- A batch that has not called back waits for a response. -/
  awaited : q.isUpdateInProgress = true → ∃ c ∈ q.link.inFlight, c.batch.number < q.nSent ∧
    q.timesCalled c.batch.number = 0
  /-- Otherwise no batch is left in the queue. -/
  drained : q.isUpdateInProgress = false → q.updateBatches = []

/-- The list of the updater that a response to a command looks at. -/
def listOf (q : RibQueue) (c : Command) : List FibUpdate :=
  if c.update.faceId = q.link.updater.batchFaceId then q.link.updater.updatesForBatchFaceId
  else q.link.updater.updatesForNonBatchFaceId

/-- The list a response looks at has an update other than the one answered, and does not have that one unless it
still is the list of the command's own batch. -/
def SparesList (q : RibQueue) (c : Command) : Prop :=
  FibUpdater.removeUpdate c.update (q.listOf c) ≠ [] ∧ (c.batch.number + 1 = q.nSent ∨ c.update ∉ q.listOf c)

/-- A response that comes after its batch has called back is none that the updater takes for one of a batch
in progress. -/
def Spares (q : RibQueue) : Event → Prop
  | .response c .success => q.timesCalled c.batch.number ≠ 0 → q.SparesList c
  | .response c .faceNotFound =>
      q.timesCalled c.batch.number ≠ 0 → c.update.faceId ≠ q.link.updater.batchFaceId ∧ q.SparesList c
  | _ => True

/-- Nothing about the batch in progress changed from `q` to `q'`. -/
structure Unaffected (q q' : RibQueue) : Prop where
  updatesForBatchFaceId_eq : q'.link.updater.updatesForBatchFaceId = q.link.updater.updatesForBatchFaceId
  updatesForNonBatchFaceId_eq : q'.link.updater.updatesForNonBatchFaceId = q.link.updater.updatesForNonBatchFaceId
  isUpdateInProgress_eq : q'.isUpdateInProgress = q.isUpdateInProgress
  callbacks_eq : q'.callbacks = q.callbacks
  nSent_eq : q'.nSent = q.nSent

variable {nthElement : NthElement} {q q' : RibQueue} {c : Command}

/-- The commands in flight of the batch sent last. -/
def current (q : RibQueue) : List Command := q.link.inFlight.filter fun c => c.batch.number + 1 == q.nSent

/-- Between two batches: every batch that was sent has called back once. -/
structure Resting (q : RibQueue) : Prop where
  isUpdateInProgress_eq : q.isUpdateInProgress = false
  times : ∀ k, q.timesCalled k = if k < q.nSent then 1 else 0
  inFlight : ∀ c ∈ q.link.inFlight, c.batch.number < q.nSent

/-- While a batch is in progress: it has not called back, and the updater waits for its commands. -/
structure Busy (q : RibQueue) : Prop where
  isUpdateInProgress_eq : q.isUpdateInProgress = true
  nSent_pos : 0 < q.nSent
  times : ∀ k, q.timesCalled k = if k + 1 < q.nSent then 1 else 0
  inFlight : ∀ c ∈ q.link.inFlight, c.batch.number < q.nSent
  awaits : q.link.updater.Awaits q.current
  current_ne_nil : q.current ≠ []

def Inv (q : RibQueue) : Prop := Busy q ∨ Resting q ∧ q.updateBatches = []

theorem Busy.times_zero_iff (h : Busy q) {k : Nat} (hk : k < q.nSent) : q.timesCalled k = 0 ↔ k + 1 = q.nSent := by
  rw [h.times]
  split
  · omega
  · omega

theorem Resting.times_ne_zero (h : Resting q) {k : Nat} (hk : k < q.nSent) : q.timesCalled k ≠ 0 := by
  rw [h.times, if_pos hk]
  exact one_ne_zero

theorem Inv.law (h : Inv q) : CallbackLaw q := by
  rcases h with h | ⟨h, hempty⟩
  · have hlast : q.timesCalled (q.nSent - 1) = 0 := by
      have hpos := h.nSent_pos
      exact (h.times_zero_iff (by omega)).mpr (by omega)
    refine ⟨fun k => ?_, ?_, fun k k' hk hk' h0 h0' => ?_, fun _ => ?_, fun hfalse => ?_⟩
    · rw [h.times]
      split <;> omega
    · have hpos := h.nSent_pos
      simp only [h.isUpdateInProgress_eq, true_iff]
      exact ⟨q.nSent - 1, by omega, hlast⟩
    · have hk1 := (h.times_zero_iff hk).mp h0
      have hk2 := (h.times_zero_iff hk').mp h0'
      omega
    · obtain ⟨c, hc⟩ := List.exists_mem_of_ne_nil _ h.current_ne_nil
      obtain ⟨hmem, hnumber⟩ := List.mem_filter.mp hc
      have hlt := h.inFlight c hmem
      exact ⟨c, hmem, hlt, (h.times_zero_iff hlt).mpr (by simpa using hnumber)⟩
    · rw [h.isUpdateInProgress_eq] at hfalse
      cases hfalse
  · refine ⟨fun k => ?_, ?_, fun k k' hk hk' h0 => absurd h0 (h.times_ne_zero hk), fun htrue => ?_, fun _ => hempty⟩
    · rw [h.times]
      split <;> omega
    · simp only [h.isUpdateInProgress_eq, Bool.false_eq_true, false_iff]
      rintro ⟨k, hk, h0⟩
      exact h.times_ne_zero hk h0
    · rw [h.isUpdateInProgress_eq] at htrue
      cases htrue

theorem timesCalled_append (callbacks : List (Nat × Bool)) (number k : Nat) (success : Bool) :
    ((callbacks ++ [(number, success)]).filter fun call => call.1 == k).length =
      (callbacks.filter fun call => call.1 == k).length + if number = k then 1 else 0 := by
  rw [List.filter_append, List.length_append]
  by_cases hk : number = k
  · simp [hk]
  · simp [hk]

/-- What a callback of a batch changes, as far as the law goes. -/
theorem invoke_spec {batch : Batch} {callback : Callback} (h : q.invoke batch callback = some q') :
    q'.isUpdateInProgress = false ∧ q'.nSent = q.nSent ∧ q'.link = q.link ∧ q'.updateBatches = q.updateBatches ∧
      ∀ k, q'.timesCalled k = q.timesCalled k + if batch.number = k then 1 else 0 := by
  cases callback with
  | onSuccess inheritedRoutes =>
      obtain ⟨rib, -, rfl⟩ := Option.map_eq_some_iff.mp h
      exact ⟨rfl, rfl, rfl, rfl, fun k => timesCalled_append _ _ _ _⟩
  | onFailure =>
      cases h
      exact ⟨rfl, rfl, rfl, rfl, fun k => timesCalled_append _ _ _ _⟩

/-- The callback of the last batch ends it. -/
theorem resting_of_invoke {batch : Batch} {callback : Callback} (hnumber : batch.number + 1 = q.nSent)
    (htimes : ∀ k, q.timesCalled k = if k + 1 < q.nSent then 1 else 0)
    (hflight : ∀ c ∈ q.link.inFlight, c.batch.number < q.nSent) (h : q.invoke batch callback = some q') :
    Resting q' ∧ q'.updateBatches = q.updateBatches := by
  obtain ⟨hprogress, hsent, hlink, hqueue, hcalled⟩ := invoke_spec h
  refine ⟨⟨hprogress, fun k => ?_, ?_⟩, hqueue⟩
  · rw [hcalled, htimes, hsent]
    by_cases hk : batch.number = k
    · have hlt : k < q.nSent := by omega
      have hnot : ¬ k + 1 < q.nSent := by omega
      simp [hk, hlt, hnot]
    · by_cases hlt : k + 1 < q.nSent
      · have hlt' : k < q.nSent := by omega
        simp [hk, hlt, hlt']
      · have hnot : ¬ k < q.nSent := by omega
        simp [hk, hlt, hnot]
  · rw [hlink, hsent]
    exact hflight

theorem sendBatch_batch {u : FibUpdater} {batch : Batch} (hc : c ∈ (u.sendUpdatesForBatchFaceId batch).1) :
    c.batch = batch := by
  unfold FibUpdater.sendUpdatesForBatchFaceId FibUpdater.sendUpdatesForNonBatchFaceId at hc
  split at hc
  · exact FibUpdater.batch_of_mem_sendUpdates hc
  · split at hc
    · exact FibUpdater.batch_of_mem_sendUpdates hc
    · cases hc

/-- Sending batches from the queue: batches that succeed at once call back once, and the first one that does
not is in progress. -/
theorem Resting.sendBatchFromQueue (fuel : Nat) : ∀ {q : RibQueue}, Resting q → q.updateBatches.length ≤ fuel →
    RibQueue.sendBatchFromQueue nthElement fuel q = some q' → Inv q' := by
  induction fuel with
  | zero =>
      intro q h hfuel hrun
      cases hrun
      exact Or.inr ⟨h, List.eq_nil_of_length_eq_zero (Nat.le_zero.mp hfuel)⟩
  | succ fuel ih =>
      intro q h hfuel hrun
      rw [RibQueue.sendBatchFromQueue] at hrun
      split at hrun
      · rename_i hempty
        cases hrun
        exact Or.inr ⟨h, hempty⟩
      · rename_i update rest hqueue
        rw [if_neg (by rw [h.isUpdateInProgress_eq]; exact Bool.false_ne_true)] at hrun
        obtain ⟨u, -, hrun⟩ := Option.bind_eq_some_iff.mp hrun
        have hcont := u.sendBatch_continues ⟨q.nSent, update⟩
        have hflight : ∀ c ∈ q.link.inFlight ++ (u.sendUpdatesForBatchFaceId ⟨q.nSent, update⟩).1,
            c.batch.number < q.nSent + 1 := by
          intro c hc
          rcases List.mem_append.mp hc with hc | hc
          · exact Nat.lt_succ_of_lt (h.inFlight c hc)
          · rw [sendBatch_batch hc]
            exact Nat.lt_succ_self _
        have htimes : ∀ k, q.timesCalled k = if k + 1 < q.nSent + 1 then 1 else 0 := by
          intro k
          rw [h.times]
          simp only [Nat.add_lt_add_iff_right]
        dsimp only [FibLink.sendBatch] at hrun
        split at hrun
        · rename_i hnone
          cases hrun
          have hcurrent : (q.link.inFlight ++ (u.sendUpdatesForBatchFaceId ⟨q.nSent, update⟩).1).filter
              (fun c => c.batch.number + 1 == q.nSent + 1) = (u.sendUpdatesForBatchFaceId ⟨q.nSent, update⟩).1 := by
            rw [List.filter_append, List.filter_eq_nil_iff.mpr, List.nil_append, List.filter_eq_self.mpr]
            · intro c hc
              simp [sendBatch_batch hc]
            · intro c hc hnumber
              have hlt := h.inFlight c hc
              simp at hnumber
              omega
          refine Or.inl ⟨rfl, Nat.succ_pos _, htimes, hflight, ?_, ?_⟩
          · rw [current, hcurrent]
            exact hcont.awaits
          · rw [current, hcurrent]
            exact hcont.none_iff.mp hnone
        · obtain ⟨q₁, hinvoke, hrest⟩ := Option.bind_eq_some_iff.mp hrun
          obtain ⟨hresting, hqueue₁⟩ := resting_of_invoke rfl htimes hflight hinvoke
          refine ih hresting ?_ hrest
          rw [hqueue₁]
          rw [hqueue] at hfuel
          simpa using hfuel

theorem Resting.advance (h : Resting q) (hrun : q.advance nthElement = some q') : Inv q' :=
  h.sendBatchFromQueue _ (le_refl _) hrun

/-- Nothing is sent while a batch is in progress. -/
theorem advance_of_busy (h : q.isUpdateInProgress = true) : q.advance nthElement = some q := by
  unfold RibQueue.advance
  cases hlength : q.updateBatches.length with
  | zero => rfl
  | succ fuel =>
      rw [RibQueue.sendBatchFromQueue]
      split
      · rfl
      · rw [if_pos h]

/-- More updates in the queue. -/
theorem Inv.enqueue (h : Inv q) (fib : NextHops) (updates : List RibUpdate)
    (hrun : advance nthElement { q with link := { q.link with fib }, updateBatches := q.updateBatches ++ updates } =
      some q') :
    Inv q' := by
  rcases h with h | ⟨h, -⟩
  · rw [advance_of_busy (by exact h.isUpdateInProgress_eq)] at hrun
    cases hrun
    exact Or.inl ⟨h.isUpdateInProgress_eq, h.nSent_pos, h.times, h.inFlight, h.awaits, h.current_ne_nil⟩
  · have hresting : Resting { q with link := { q.link with fib }, updateBatches := q.updateBatches ++ updates } :=
      ⟨h.isUpdateInProgress_eq, h.times, h.inFlight⟩
    exact hresting.advance hrun

/-! ### Responses -/

/-- The commands that a reply sends are of the same batch. -/
theorem batch_of_mem_reply {u : FibUpdater} {outcome : Outcome} {reply} (h : u.onResponse c outcome = some reply) :
    ∀ c' ∈ reply.2.1, c'.batch = c.batch := by
  intro c' hc'
  have hfinish : c' ∈ (u.finishNonBatchUpdate c).2.1 → c'.batch = c.batch := by
    intro hmem
    unfold FibUpdater.finishNonBatchUpdate at hmem
    dsimp only at hmem
    split at hmem <;> cases hmem
  cases outcome with
  | success =>
      cases h
      unfold FibUpdater.onUpdateSuccess at hc'
      split at hc'
      · dsimp only at hc'
        split at hc'
        · unfold FibUpdater.sendUpdatesForNonBatchFaceId at hc'
          split at hc'
          · exact FibUpdater.batch_of_mem_sendUpdates hc'
          · cases hc'
        · cases hc'
      · exact hfinish hc'
  | timeout applied =>
      simp only [FibUpdater.onResponse, FibUpdater.onUpdateTimeout] at h
      split at h
      · cases h
        rw [List.mem_singleton.mp hc']
        rfl
      · cases h
  | faceNotFound =>
      cases h
      unfold FibUpdater.onFaceNotFound at hc'
      split at hc'
      · cases hc'
      · exact hfinish hc'
  | otherError => cases h

theorem removeUpdate_of_notMem {update : FibUpdate} {updates : List FibUpdate} (h : update ∉ updates) :
    FibUpdater.removeUpdate update updates = updates := by
  refine List.filter_eq_self.mpr fun other hother => ?_
  have hne : other ≠ update := fun heq => h (heq ▸ hother)
  simpa using hne

/-- The reply to a response that comes late: no callback, and lists of a later batch are as they were. -/
structure Quiet (q : RibQueue) (c : Command) (reply : FibUpdater × List Command × Option Callback) : Prop where
  callback_eq : reply.2.2 = none
  lists_eq : c.batch.number + 1 ≠ q.nSent →
    reply.1.updatesForBatchFaceId = q.link.updater.updatesForBatchFaceId ∧
      reply.1.updatesForNonBatchFaceId = q.link.updater.updatesForNonBatchFaceId

theorem quiet_finish (hother : ¬ c.update.faceId = q.link.updater.batchFaceId) (hspares : q.SparesList c) :
    Quiet q c (q.link.updater.finishNonBatchUpdate c) := by
  rw [SparesList, listOf, if_neg hother] at hspares
  have hpos : ¬ (q.link.updater.removeForNonBatchFaceId c.update).updatesForNonBatchFaceId.length = 0 :=
    fun hzero => hspares.1 (List.eq_nil_of_length_eq_zero hzero)
  unfold FibUpdater.finishNonBatchUpdate
  dsimp only
  rw [if_neg hpos]
  refine ⟨rfl, fun hne => ⟨rfl, ?_⟩⟩
  rcases hspares.2 with heq | hnot
  · exact absurd heq hne
  · exact removeUpdate_of_notMem hnot

theorem quiet_of_spares {outcome : Outcome} {reply} (hlate : q.timesCalled c.batch.number ≠ 0)
    (hok : q.Spares (.response c outcome)) (h : q.link.updater.onResponse c outcome = some reply) :
    Quiet q c reply := by
  cases outcome with
  | success =>
      cases h
      have hspares : q.SparesList c := hok hlate
      unfold FibUpdater.onUpdateSuccess
      split
      · rename_i hface
        rw [SparesList, listOf, if_pos hface] at hspares
        have hpos : ¬ (q.link.updater.removeForBatchFaceId c.update).updatesForBatchFaceId.length = 0 :=
          fun hzero => hspares.1 (List.eq_nil_of_length_eq_zero hzero)
        dsimp only
        rw [if_neg hpos]
        refine ⟨rfl, fun hne => ⟨?_, rfl⟩⟩
        rcases hspares.2 with heq | hnot
        · exact absurd heq hne
        · exact removeUpdate_of_notMem hnot
      · rename_i hother
        exact quiet_finish hother hspares
  | timeout applied =>
      simp only [FibUpdater.onResponse, FibUpdater.onUpdateTimeout] at h
      split at h
      · cases h
        exact ⟨rfl, fun _ => ⟨rfl, rfl⟩⟩
      · cases h
  | faceNotFound =>
      cases h
      obtain ⟨hother, hspares⟩ : c.update.faceId ≠ q.link.updater.batchFaceId ∧ q.SparesList c := hok hlate
      unfold FibUpdater.onFaceNotFound
      rw [if_neg hother]
      exact quiet_finish hother hspares
  | otherError => cases h

/-- A response, taken apart. -/
theorem step_response {outcome : Outcome} (h : q.step nthElement (.response c outcome) = some q') :
    c ∈ q.link.inFlight ∧ ∃ reply q₁, q.link.updater.onResponse c outcome = some reply ∧
      q₁ = { q with link := ⟨reply.1, q.link.inFlight.erase c ++ reply.2.1, FibLink.fibAfter q.link.fib c outcome⟩ } ∧
      ((reply.2.2 = none ∧ q' = q₁) ∨
        ∃ callback, reply.2.2 = some callback ∧ (q₁.invoke c.batch callback).bind (advance nthElement) = some q') := by
  obtain ⟨⟨link, o⟩, hrespond, hrest⟩ := Option.bind_eq_some_iff.mp h
  unfold FibLink.respond at hrespond
  split at hrespond
  · rename_i hmem
    obtain ⟨reply, hreply, heq⟩ := Option.map_eq_some_iff.mp hrespond
    simp only [Prod.mk.injEq] at heq
    obtain ⟨rfl, rfl⟩ := heq
    refine ⟨hmem, reply, _, hreply, rfl, ?_⟩
    dsimp only at hrest
    split at hrest
    · rename_i hnone
      exact Or.inl ⟨hnone, (Option.some.inj hrest).symm⟩
    · rename_i callback hsome
      exact Or.inr ⟨callback, hsome, hrest⟩
  · cases hrespond

/-- A late response changes nothing about the batch in progress. -/
theorem late_unaffected {outcome : Outcome} (hlate : q.timesCalled c.batch.number ≠ 0)
    (hok : q.Spares (.response c outcome)) (h : q.step nthElement (.response c outcome) = some q')
    (hne : c.batch.number + 1 ≠ q.nSent) : Unaffected q q' := by
  obtain ⟨-, reply, q₁, hreply, rfl, hcases⟩ := step_response h
  have hquiet := quiet_of_spares hlate hok hreply
  rcases hcases with ⟨-, rfl⟩ | ⟨callback, hsome, -⟩
  · exact ⟨(hquiet.lists_eq hne).1, (hquiet.lists_eq hne).2, rfl, rfl, rfl⟩
  · rw [hquiet.callback_eq] at hsome
    cases hsome

/-- The commands in flight after a response are numbered like those before. -/
theorem inFlight_lt {outcome : Outcome} {reply} (hflight : ∀ c ∈ q.link.inFlight, c.batch.number < q.nSent)
    (hc : c ∈ q.link.inFlight) (h : q.link.updater.onResponse c outcome = some reply) :
    ∀ c' ∈ q.link.inFlight.erase c ++ reply.2.1, c'.batch.number < q.nSent := by
  intro c' hc'
  rcases List.mem_append.mp hc' with hc' | hc'
  · exact hflight c' (List.mem_of_mem_erase hc')
  · rw [batch_of_mem_reply h c' hc']
    exact hflight c hc

theorem Inv.late (h : Inv q) {outcome : Outcome} (hlate : q.timesCalled c.batch.number ≠ 0)
    (hok : q.Spares (.response c outcome)) (hstep : q.step nthElement (.response c outcome) = some q') : Inv q' := by
  obtain ⟨hc, reply, q₁, hreply, rfl, hcases⟩ := step_response hstep
  have hquiet := quiet_of_spares hlate hok hreply
  rcases hcases with ⟨-, rfl⟩ | ⟨callback, hsome, -⟩
  · rcases h with h | ⟨h, hempty⟩
    · have hlt := h.inFlight c hc
      have hne : c.batch.number + 1 ≠ q.nSent := fun heq => hlate ((h.times_zero_iff hlt).mpr heq)
      have hcurrent : (q.link.inFlight.erase c ++ reply.2.1).filter (fun c => c.batch.number + 1 == q.nSent) =
          q.current := by
        have hnot : c ∉ q.current := fun hmem => hne (by simpa using (List.mem_filter.mp hmem).2)
        have hsent : reply.2.1.filter (fun c => c.batch.number + 1 == q.nSent) = [] := by
          refine List.filter_eq_nil_iff.mpr fun c' hc' => ?_
          simpa [batch_of_mem_reply hreply c' hc'] using hne
        rw [List.filter_append, ← List.erase_filter, hsent, List.append_nil]
        exact List.erase_of_not_mem hnot
      have hawaited : reply.1.awaited = q.link.updater.awaited := by
        rw [FibUpdater.awaited, FibUpdater.awaited, (hquiet.lists_eq hne).1, (hquiet.lists_eq hne).2]
      refine Or.inl ⟨h.isUpdateInProgress_eq, h.nSent_pos, h.times, inFlight_lt h.inFlight hc hreply, ?_, ?_⟩
      · show (List.map Command.update (List.filter _ _)).Perm reply.1.awaited
        rw [hcurrent, hawaited]
        exact h.awaits
      · rw [current, hcurrent]
        exact h.current_ne_nil
    · exact Or.inr ⟨⟨h.isUpdateInProgress_eq, h.times, inFlight_lt h.inFlight hc hreply⟩, hempty⟩
  · rw [hquiet.callback_eq] at hsome
    cases hsome

/-- The reply to a response of the batch in progress: it goes on with the commands it waits for, or it calls
back. -/
theorem reply_current {u : FibUpdater} {cs : List Command} {outcome : Outcome} {reply} (ha : u.Awaits cs) (hc : c ∈ cs)
    (h : u.onResponse c outcome = some reply) (hnone : reply.2.2 = none) :
    reply.1.Awaits (cs.erase c ++ reply.2.1) ∧ cs.erase c ++ reply.2.1 ≠ [] := by
  rcases ha.answered hc h with ⟨-, rfl⟩ | hcont
  · cases hnone
  · exact ⟨hcont.awaits, hcont.none_iff.mp hnone⟩

theorem Busy.response (h : Busy q) {outcome : Outcome} (hzero : q.timesCalled c.batch.number = 0)
    (hstep : q.step nthElement (.response c outcome) = some q') : Inv q' := by
  obtain ⟨hc, reply, q₁, hreply, rfl, hcases⟩ := step_response hstep
  have hnumber : c.batch.number + 1 = q.nSent := (h.times_zero_iff (h.inFlight c hc)).mp hzero
  have hmem : c ∈ q.current := List.mem_filter.mpr ⟨hc, by simpa using hnumber⟩
  have hflight := inFlight_lt h.inFlight hc hreply
  rcases hcases with ⟨hnone, rfl⟩ | ⟨callback, -, hrun⟩
  · obtain ⟨hawaits, hne⟩ := reply_current h.awaits hmem hreply hnone
    have hcurrent : (q.link.inFlight.erase c ++ reply.2.1).filter (fun c => c.batch.number + 1 == q.nSent) =
        q.current.erase c ++ reply.2.1 := by
      have hsent : reply.2.1.filter (fun c => c.batch.number + 1 == q.nSent) = reply.2.1 := by
        refine List.filter_eq_self.mpr fun c' hc' => ?_
        simpa [batch_of_mem_reply hreply c' hc'] using hnumber
      rw [List.filter_append, ← List.erase_filter, hsent]
      rfl
    refine Or.inl ⟨h.isUpdateInProgress_eq, h.nSent_pos, h.times, hflight, ?_, ?_⟩
    · show (List.map Command.update (List.filter _ _)).Perm reply.1.awaited
      rw [hcurrent]
      exact hawaits
    · rw [current, hcurrent]
      exact hne
  · obtain ⟨q₁, hinvoke, hrest⟩ := Option.bind_eq_some_iff.mp hrun
    have hresting := (resting_of_invoke (by exact hnumber) (by exact h.times) (by exact hflight) hinvoke).1
    exact hresting.advance hrest

/-- Every step keeps the invariant, if late responses are spared. -/
theorem Inv.step (h : Inv q) {event : Event} (hok : q.Spares event) (hstep : q.step nthElement event = some q') :
    Inv q' := by
  cases event with
  | beginApplyUpdate update =>
      simp only [RibQueue.step] at hstep
      split at hstep
      · cases hstep
      · exact h.enqueue q.link.fib [update] hstep
  | beginRemoveFace faceId => exact h.enqueue _ _ hstep
  | response c outcome =>
      by_cases hzero : q.timesCalled c.batch.number = 0
      · rcases h with h | ⟨h, -⟩
        · exact h.response hzero hstep
        · exact absurd hzero (h.times_ne_zero (h.inFlight c (step_response hstep).1))
      · exact h.late hzero hok hstep

theorem start_inv (rib : Rib) (fib : NextHops) : Inv (start rib fib) :=
  Or.inr ⟨⟨rfl, fun k => by simp [start, timesCalled], fun c hc => by simp [start] at hc⟩, rfl⟩

/-- In every run in which late responses are spared, every batch calls back once, one batch is in progress at a
time, and a response to a command of an earlier batch leaves the batch in progress alone. -/
theorem callbacks_lawful (nthElement : NthElement) (rib : Rib) (fib : NextHops) (q : RibQueue)
    (hr : Reach (step nthElement) Spares (start rib fib) q) :
    CallbackLaw q ∧ ∀ c outcome q', q.Spares (.response c outcome) → q.step nthElement (.response c outcome) = some q' →
      c.batch.number + 1 < q.nSent → Unaffected q q' := by
  have h : Inv q := hr.invariant (start_inv rib fib) fun _ _ _ h hok hs => h.step hok hs
  refine ⟨h.law, fun c outcome q' hok hstep hearlier => ?_⟩
  have hlate : q.timesCalled c.batch.number ≠ 0 := by
    rcases h with h | ⟨h, -⟩
    · rw [h.times, if_pos hearlier]
      exact one_ne_zero
    · exact h.times_ne_zero (by omega)
  exact late_unaffected hlate hok hstep (by omega)

/-- A route of face 2 of `/A`, inherited by `/A/B`, which has a route of face 1. -/
def twoFailures : List Event :=
  [.beginApplyUpdate ⟨.register, [.ofByte 65, .ofByte 66], ⟨1, 0, 0, 10⟩⟩,
    .response ⟨⟨0, .register, [.ofByte 65, .ofByte 66], ⟨1, 0, 0, 10⟩⟩,
      .createAddUpdate [.ofByte 65, .ofByte 66] 1 10, .addNextHop, 0⟩ .success,
    .beginApplyUpdate ⟨.register, [.ofByte 65], ⟨2, 0, 1, 10⟩⟩,
    .response ⟨⟨1, .register, [.ofByte 65], ⟨2, 0, 1, 10⟩⟩,
      .createAddUpdate [.ofByte 65] 2 10, .addNextHop, 0⟩ .faceNotFound,
    .response ⟨⟨1, .register, [.ofByte 65], ⟨2, 0, 1, 10⟩⟩,
      .createAddUpdate [.ofByte 65, .ofByte 66] 2 10, .addNextHop, 0⟩ .faceNotFound]

/-- Face 2 is gone: both commands of the batch fail, and its failure callback is invoked twice. -/
theorem failure_called_twice :
    ∃ q, Reach (step .stable) anyStep (start .empty fun _ _ => none) q ∧ ¬ CallbackLaw q := by
  have hrun : ((exec (step .stable) (start .empty fun _ _ => none) twoFailures).any fun q =>
      decide (q.timesCalled 1 = 2)) = true := by decide +kernel
  obtain ⟨q, hq, htwice⟩ := (Option.any_eq_true _ _).mp hrun
  refine ⟨q, reach_of_exec Reach.start hq, fun hlaw => ?_⟩
  have hle := hlaw.at_most_once 1
  rw [of_decide_eq_true htwice] at hle
  exact absurd hle (by decide)

/-- Up to the first failure the run is lawful: the batch has called back once. -/
theorem callbacks_lawful_first_failure :
    ∃ q, Reach (step .stable) Spares (start .empty fun _ _ => none) q ∧ q.timesCalled 1 = 1 ∧ CallbackLaw q := by
  have hfirst : ∀ (q : RibQueue) (event : Event), (match event with
      | .response c _ => decide (q.timesCalled c.batch.number = 0)
      | _ => true) = true → q.Spares event := by
    intro q event h
    cases event with
    | response c outcome =>
        have hzero := of_decide_eq_true h
        cases outcome with
        | success => exact fun hlate => absurd hzero hlate
        | faceNotFound => exact fun hlate => absurd hzero hlate
        | _ => trivial
    | _ => trivial
  have hrun : ((exec (guarded (step .stable) fun q event => match event with
      | .response c _ => decide (q.timesCalled c.batch.number = 0)
      | _ => true) (start .empty fun _ _ => none) (twoFailures.take 4)).any fun q =>
        decide (q.timesCalled 1 = 1)) = true := by decide +kernel
  obtain ⟨q, hq, honce⟩ := (Option.any_eq_true _ _).mp hrun
  have hreach := (reach_of_exec_guarded Reach.start hq).mono hfirst
  exact ⟨q, hreach, of_decide_eq_true honce, (callbacks_lawful .stable _ _ q hreach).1⟩

end RibQueue
end NfdPitless
