import NfdPitless.RibUpdates

/-! The commands that carry FIB updates to NFD (`rib/fib-updater.cpp`, `sendUpdates` to `onUpdateError`). The
commands of a batch are in flight together, first those of the batch's face and then the others, and each
response enters the updater through the callbacks that were bound when the command was sent. An exception is
`none`. -/

namespace NfdPitless

/-- A batch, with the number of batches sent before it. -/
structure Batch where
  number : Nat
  update : RibUpdate
  deriving DecidableEq

/-- A command in flight, with what its callbacks are bound to. -/
structure Command where
  batch : Batch
  update : FibUpdate
  /-- `FibAddNextHopCommand` or `FibRemoveNextHopCommand`. -/
  verb : FibUpdate.Action
  nTimeouts : Nat
  deriving DecidableEq

/-- What the command asks of the FIB. -/
def Command.request (c : Command) : FibUpdate := { c.update with action := c.verb }

/-- The response to a command. A command that times out may have reached the FIB. -/
inductive Outcome where
  | success
  | timeout (applied : Bool)
  /-- `ERROR_FACE_NOT_FOUND`. -/
  | faceNotFound
  /-- Any other error code. -/
  | otherError
  deriving DecidableEq

/-- The callback of a batch that the updater invokes. -/
inductive Callback where
  | onSuccess (inheritedRoutes : List RibUpdate)
  | onFailure
  deriving DecidableEq

namespace FibUpdater

def maxNumTimeouts : Nat := 10

def sendAddNextHopUpdate (batch : Batch) (update : FibUpdate) (nTimeouts : Nat) : Command :=
  ⟨batch, update, .addNextHop, nTimeouts⟩

def sendRemoveNextHopUpdate (batch : Batch) (update : FibUpdate) (nTimeouts : Nat) : Command :=
  ⟨batch, update, .removeNextHop, nTimeouts⟩

def sendUpdate (batch : Batch) (update : FibUpdate) : Command :=
  match update.action with
  | .addNextHop => sendAddNextHopUpdate batch update 0
  | .removeNextHop => sendRemoveNextHopUpdate batch update 0

def sendUpdates (batch : Batch) (updates : List FibUpdate) : List Command := updates.map (sendUpdate batch)

/-- The commands sent, or the callback invoked. -/
def sendUpdatesForNonBatchFaceId (u : FibUpdater) (batch : Batch) : List Command × Option Callback :=
  if u.updatesForNonBatchFaceId.length > 0 then (sendUpdates batch u.updatesForNonBatchFaceId, none)
  else ([], some (.onSuccess u.inheritedRoutes))

def sendUpdatesForBatchFaceId (u : FibUpdater) (batch : Batch) : List Command × Option Callback :=
  if u.updatesForBatchFaceId.length > 0 then (sendUpdates batch u.updatesForBatchFaceId, none)
  else u.sendUpdatesForNonBatchFaceId batch

/-- `std::list::remove`. -/
def removeUpdate (update : FibUpdate) (updates : List FibUpdate) : List FibUpdate :=
  updates.filter fun other => other != update

def removeForBatchFaceId (u : FibUpdater) (update : FibUpdate) : FibUpdater :=
  { u with
    updatesForBatchFaceId := removeUpdate update u.updatesForBatchFaceId
    nodup_batch := u.nodup_batch.sublist (List.filter_sublist.map _)
    face_batch := fun x hx => u.face_batch x (List.mem_of_mem_filter hx) }

def removeForNonBatchFaceId (u : FibUpdater) (update : FibUpdate) : FibUpdater :=
  { u with
    updatesForNonBatchFaceId := removeUpdate update u.updatesForNonBatchFaceId
    nodup_nonBatch := u.nodup_nonBatch.sublist (List.filter_sublist.map _)
    face_nonBatch := fun x hx => u.face_nonBatch x (List.mem_of_mem_filter hx) }

/-- The end of both callbacks for an update of another face. -/
def finishNonBatchUpdate (u : FibUpdater) (c : Command) : FibUpdater × List Command × Option Callback :=
  let u := u.removeForNonBatchFaceId c.update
  if u.updatesForNonBatchFaceId.length = 0 then (u, [], some (.onSuccess u.inheritedRoutes)) else (u, [], none)

def onUpdateSuccess (u : FibUpdater) (c : Command) : FibUpdater × List Command × Option Callback :=
  if c.update.faceId = u.batchFaceId then
    let u := u.removeForBatchFaceId c.update
    if u.updatesForBatchFaceId.length = 0 then (u, u.sendUpdatesForNonBatchFaceId c.batch) else (u, [], none)
  else u.finishNonBatchUpdate c

/-- A command that timed out is sent again with `sendAddNextHopUpdate`, whatever it was. -/
def onUpdateTimeout (u : FibUpdater) (c : Command) : Option (FibUpdater × List Command × Option Callback) :=
  if c.nTimeouts < maxNumTimeouts then some (u, [sendAddNextHopUpdate c.batch c.update (c.nTimeouts + 1)], none)
  else none

def onFaceNotFound (u : FibUpdater) (c : Command) : FibUpdater × List Command × Option Callback :=
  if c.update.faceId = u.batchFaceId then (u, [], some .onFailure) else u.finishNonBatchUpdate c

/-- The callbacks of a command. -/
def onResponse (u : FibUpdater) (c : Command) : Outcome → Option (FibUpdater × List Command × Option Callback)
  | .success => some (u.onUpdateSuccess c)
  | .timeout _ => u.onUpdateTimeout c
  | .faceNotFound => some (u.onFaceNotFound c)
  | .otherError => none

end FibUpdater

/-- The updater with the commands in flight and the FIB that answers them. -/
structure FibLink where
  updater : FibUpdater
  inFlight : List Command
  fib : NextHops

namespace FibLink

/-- The FIB after a response. -/
def fibAfter (fib : NextHops) (c : Command) : Outcome → NextHops
  | .success => fib.applyUpdate c.request
  | .timeout applied => if applied then fib.applyUpdate c.request else fib
  | _ => fib

/-- The response to a command in flight; the callback is one of the command's batch. -/
def respond (l : FibLink) (c : Command) (outcome : Outcome) : Option (FibLink × Option Callback) :=
  if c ∈ l.inFlight then
    (l.updater.onResponse c outcome).map fun reply =>
      ({ updater := reply.1, inFlight := l.inFlight.erase c ++ reply.2.1, fib := fibAfter l.fib c outcome },
        reply.2.2)
  else none

/-- The updates of a new batch replace those of the batch before. -/
def sendBatch (l : FibLink) (u : FibUpdater) (batch : Batch) : FibLink × Option Callback :=
  let sent := u.sendUpdatesForBatchFaceId batch
  ({ l with updater := u, inFlight := l.inFlight ++ sent.1 }, sent.2)

/-- A response whose callback is not looked at. -/
def deliver (l : FibLink) (response : Command × Outcome) : Option FibLink :=
  (l.respond response.1 response.2).map Prod.fst

/-- The link on which a batch has just been sent. -/
def sent (u : FibUpdater) (batch : Batch) (fib : NextHops) : FibLink :=
  { updater := u, inFlight := (u.sendUpdatesForBatchFaceId batch).1, fib }

end FibLink

/-! ### The two lists and the commands in flight -/

namespace FibUpdater

variable {u : FibUpdater} {batch : Batch} {cs : List Command} {c : Command}

/-- The updates whose responses the updater waits for. -/
def awaited (u : FibUpdater) : List FibUpdate :=
  if u.updatesForBatchFaceId = [] then u.updatesForNonBatchFaceId else u.updatesForBatchFaceId

/-- The commands `cs` carry the awaited updates, each once. -/
def Awaits (u : FibUpdater) (cs : List Command) : Prop := (cs.map Command.update).Perm u.awaited

theorem awaited_of_nil (h : u.updatesForBatchFaceId = []) : u.awaited = u.updatesForNonBatchFaceId := if_pos h

theorem awaited_of_ne_nil (h : u.updatesForBatchFaceId ≠ []) : u.awaited = u.updatesForBatchFaceId := if_neg h

theorem sendUpdate_eq (batch : Batch) (update : FibUpdate) :
    sendUpdate batch update = ⟨batch, update, update.action, 0⟩ := by
  unfold sendUpdate
  split <;> rename_i h <;> rw [h] <;> rfl

theorem sendUpdates_update (batch : Batch) (updates : List FibUpdate) :
    (sendUpdates batch updates).map Command.update = updates := by
  rw [sendUpdates, List.map_map]
  have hid : Command.update ∘ sendUpdate batch = id := by
    funext update
    simp [sendUpdate_eq]
  rw [hid, List.map_id]

theorem batch_of_mem_sendUpdates {updates : List FibUpdate} (h : c ∈ sendUpdates batch updates) :
    c.batch = batch := by
  obtain ⟨update, -, rfl⟩ := List.mem_map.mp h
  rw [sendUpdate_eq]

theorem nodup_awaited (u : FibUpdater) : (u.awaited.map FibUpdate.key).Nodup := by
  unfold awaited
  split
  · exact u.nodup_nonBatch
  · exact u.nodup_batch

theorem removeUpdate_eq_erase {updates : List FibUpdate} (h : (updates.map FibUpdate.key).Nodup)
    (update : FibUpdate) : removeUpdate update updates = updates.erase update :=
  (h.of_map _).erase_eq_filter update |>.symm

/-- Taking an awaited command away. -/
theorem perm_erase {updates : List FibUpdate} (h : (cs.map Command.update).Perm updates) (hc : c ∈ cs) :
    ((cs.erase c).map Command.update).Perm (updates.erase c.update) := by
  have hcons : (c.update :: (cs.erase c).map Command.update).Perm updates :=
    ((List.perm_cons_erase hc).map Command.update).symm.trans h
  exact (List.cons_perm_iff_perm_erase.mp hcons).2

theorem Awaits.mem (h : u.Awaits cs) (hc : c ∈ cs) : c.update ∈ u.awaited :=
  h.mem_iff.mp (List.mem_map_of_mem hc)

theorem Awaits.nodup (h : u.Awaits cs) : (cs.map Command.update).Nodup := h.nodup_iff.mpr (u.nodup_awaited.of_map _)

/-- Which list an awaited update is in shows in its face. -/
theorem Awaits.face (h : u.Awaits cs) (hc : c ∈ cs) :
    c.update.faceId = u.batchFaceId ↔ u.updatesForBatchFaceId ≠ [] := by
  have hmem := h.mem hc
  by_cases hnil : u.updatesForBatchFaceId = []
  · rw [awaited_of_nil hnil] at hmem
    simp [hnil, u.face_nonBatch _ hmem]
  · rw [awaited_of_ne_nil hnil] at hmem
    simp [hnil, u.face_batch _ hmem]

/-- What the updater's reply to a response must satisfy: the commands it still waits for, and a callback when
there are none. -/
structure Continues (u : FibUpdater) (cs : List Command) (callback : Option Callback) : Prop where
  awaits : u.Awaits cs
  none_iff : callback = none ↔ cs ≠ []
  onSuccess : ∀ cb, callback = some cb → cb = .onSuccess u.inheritedRoutes

theorem sendNonBatch_continues (u : FibUpdater) (batch : Batch) (hnil : u.updatesForBatchFaceId = []) :
    Continues u (u.sendUpdatesForNonBatchFaceId batch).1 (u.sendUpdatesForNonBatchFaceId batch).2 := by
  unfold sendUpdatesForNonBatchFaceId
  split
  · rename_i hpos
    have hne : u.updatesForNonBatchFaceId ≠ [] := List.ne_nil_of_length_pos hpos
    refine ⟨?_, ?_, fun cb h => by cases h⟩
    · rw [Awaits, sendUpdates_update, awaited_of_nil hnil]
    · simpa [sendUpdates] using hne
  · rename_i hzero
    refine ⟨?_, by simp, fun cb h => by cases h; rfl⟩
    rw [Awaits, awaited_of_nil hnil, List.eq_nil_of_length_eq_zero (Nat.eq_zero_of_not_pos hzero)]
    exact List.Perm.refl _

/-- Sending a batch. -/
theorem sendBatch_continues (u : FibUpdater) (batch : Batch) :
    Continues u (u.sendUpdatesForBatchFaceId batch).1 (u.sendUpdatesForBatchFaceId batch).2 := by
  unfold sendUpdatesForBatchFaceId
  split
  · rename_i hpos
    have hne : u.updatesForBatchFaceId ≠ [] := List.ne_nil_of_length_pos hpos
    refine ⟨?_, ?_, fun cb h => by cases h⟩
    · rw [Awaits, sendUpdates_update, awaited_of_ne_nil hne]
    · simpa [sendUpdates] using hne
  · rename_i hzero
    exact sendNonBatch_continues u batch (List.eq_nil_of_length_eq_zero (Nat.eq_zero_of_not_pos hzero))

theorem finishNonBatch_continues (h : u.Awaits cs) (hc : c ∈ cs) (hnil : u.updatesForBatchFaceId = []) :
    Continues (u.finishNonBatchUpdate c).1 (cs.erase c ++ (u.finishNonBatchUpdate c).2.1)
      (u.finishNonBatchUpdate c).2.2 := by
  have hperm : ((cs.erase c).map Command.update).Perm (removeUpdate c.update u.updatesForNonBatchFaceId) := by
    rw [removeUpdate_eq_erase u.nodup_nonBatch]
    refine perm_erase ?_ hc
    rw [← awaited_of_nil hnil]
    exact h
  have hawaits : (u.removeForNonBatchFaceId c.update).Awaits (cs.erase c) := by
    rw [Awaits, awaited_of_nil (show (u.removeForNonBatchFaceId c.update).updatesForBatchFaceId = [] from hnil)]
    exact hperm
  have hlength : (removeUpdate c.update u.updatesForNonBatchFaceId).length = (cs.erase c).length := by
    rw [← hperm.length_eq, List.length_map]
  unfold finishNonBatchUpdate
  dsimp only
  split
  · rename_i hzero
    have hempty : cs.erase c = [] := List.eq_nil_of_length_eq_zero (hlength ▸ hzero)
    refine ⟨by simpa using hawaits, by simp [hempty], fun cb h => by cases h; rfl⟩
  · rename_i hpos
    have hne : cs.erase c ≠ [] := fun hempty => hpos (by
      show (removeUpdate c.update u.updatesForNonBatchFaceId).length = 0
      rw [hlength, hempty]
      rfl)
    exact ⟨by simpa using hawaits, by simp [hne], fun cb h => by cases h⟩

theorem onUpdateSuccess_continues (h : u.Awaits cs) (hc : c ∈ cs) :
    Continues (u.onUpdateSuccess c).1 (cs.erase c ++ (u.onUpdateSuccess c).2.1) (u.onUpdateSuccess c).2.2 := by
  have hface := h.face hc
  unfold onUpdateSuccess
  by_cases hnil : u.updatesForBatchFaceId = []
  · have hother : ¬ c.update.faceId = u.batchFaceId := fun heq => (hface.mp heq) hnil
    rw [if_neg hother]
    exact finishNonBatch_continues h hc hnil
  · rw [if_pos (hface.mpr hnil)]
    have hperm : ((cs.erase c).map Command.update).Perm (removeUpdate c.update u.updatesForBatchFaceId) := by
      rw [removeUpdate_eq_erase u.nodup_batch]
      refine perm_erase ?_ hc
      rw [← awaited_of_ne_nil hnil]
      exact h
    have hlength : (removeUpdate c.update u.updatesForBatchFaceId).length = (cs.erase c).length := by
      rw [← hperm.length_eq, List.length_map]
    dsimp only
    split
    · rename_i hzero
      have hempty : cs.erase c = [] := List.eq_nil_of_length_eq_zero (hlength ▸ hzero)
      rw [hempty, List.nil_append]
      exact sendNonBatch_continues _ c.batch (List.eq_nil_of_length_eq_zero hzero)
    · rename_i hpos
      have hne' : (u.removeForBatchFaceId c.update).updatesForBatchFaceId ≠ [] := fun hempty =>
        hpos (by rw [hempty]; rfl)
      have hne : cs.erase c ≠ [] := fun hempty => hpos (by
        show (removeUpdate c.update u.updatesForBatchFaceId).length = 0
        rw [hlength, hempty]
        rfl)
      refine ⟨?_, by simp [hne], fun cb h => by cases h⟩
      rw [List.append_nil, Awaits, awaited_of_ne_nil hne']
      exact hperm

/-- A command that is sent again is awaited in place of the one that timed out. -/
theorem Awaits.retry (h : u.Awaits cs) (hc : c ∈ cs) (nTimeouts : Nat) :
    u.Awaits (cs.erase c ++ [sendAddNextHopUpdate c.batch c.update nTimeouts]) := by
  rw [Awaits, List.map_append]
  refine List.Perm.trans ?_ (((List.perm_cons_erase hc).map Command.update).symm.trans h)
  exact List.perm_append_singleton _ _

variable {outcome : Outcome} {reply : FibUpdater × List Command × Option Callback}

/-- The reply to a response that is awaited: the face of the batch is gone, or the batch goes on. -/
theorem Awaits.answered (ha : u.Awaits cs) (hc : c ∈ cs) (h : u.onResponse c outcome = some reply) :
    (c.update.faceId = u.batchFaceId ∧ reply = (u, [], some .onFailure)) ∨
      Continues reply.1 (cs.erase c ++ reply.2.1) reply.2.2 := by
  cases outcome with
  | success =>
      cases h
      exact .inr (onUpdateSuccess_continues ha hc)
  | timeout applied =>
      rw [onResponse, onUpdateTimeout] at h
      split at h <;> cases h
      exact .inr ⟨ha.retry hc _, iff_of_true rfl (List.append_ne_nil_of_right_ne_nil _ (List.cons_ne_nil _ _)),
        fun cb hcb => nomatch hcb⟩
  | faceNotFound =>
      rw [onResponse, onFaceNotFound] at h
      split at h
      · rename_i hface
        cases h
        exact .inl ⟨hface, rfl⟩
      · rename_i hother
        cases h
        have hnil : u.updatesForBatchFaceId = [] := by
          by_contra hne
          exact hother ((ha.face hc).mpr hne)
        exact .inr (finishNonBatch_continues ha hc hnil)
  | otherError => cases h

/-- A response to an update of the batch's face, while another update of that face is not answered. -/
theorem reply_of_unanswered {failed : FibUpdate} (hfailed : failed ∈ u.updatesForBatchFaceId)
    (hne : c.update ≠ failed) (hface : c.update.faceId = u.batchFaceId) (h : u.onResponse c outcome = some reply) :
    failed ∈ reply.1.updatesForBatchFaceId ∧ reply.1.batchFaceId = u.batchFaceId ∧
      (∀ c' ∈ reply.2.1, c'.update = c.update) ∧ (reply.2.2 = none ∨ reply.2 = ([], some .onFailure)) := by
  cases outcome with
  | success =>
      have hstays : failed ∈ (u.removeForBatchFaceId c.update).updatesForBatchFaceId :=
        List.mem_filter.mpr ⟨hfailed, bne_iff_ne.mpr hne.symm⟩
      rw [onResponse, onUpdateSuccess, if_pos hface] at h
      dsimp only at h
      rw [if_neg (List.length_pos_of_mem hstays).ne'] at h
      cases h
      exact ⟨hstays, rfl, fun _ hc' => absurd hc' List.not_mem_nil, .inl rfl⟩
  | timeout applied =>
      rw [onResponse, onUpdateTimeout] at h
      split at h <;> cases h
      exact ⟨hfailed, rfl, fun _ hc' => List.mem_singleton.mp hc' ▸ rfl, .inl rfl⟩
  | faceNotFound =>
      rw [onResponse, onFaceNotFound, if_pos hface] at h
      cases h
      exact ⟨hfailed, rfl, fun _ hc' => absurd hc' List.not_mem_nil, .inr rfl⟩
  | otherError => cases h

/-- The updates of the batch's face stay answered. -/
theorem reply_batch_nil (hnil : u.updatesForBatchFaceId = []) (h : u.onResponse c outcome = some reply) :
    reply.1.updatesForBatchFaceId = [] := by
  have hfinish : (u.finishNonBatchUpdate c).1.updatesForBatchFaceId = [] := by
    unfold finishNonBatchUpdate
    dsimp only
    split <;> exact hnil
  cases outcome with
  | success =>
      cases h
      unfold onUpdateSuccess
      dsimp only
      split
      · split <;> exact List.filter_eq_nil_iff.mpr fun _ hx => absurd (hnil ▸ hx) List.not_mem_nil
      · exact hfinish
  | timeout applied =>
      rw [onResponse, onUpdateTimeout] at h
      split at h <;> cases h
      exact hnil
  | faceNotFound =>
      cases h
      unfold onFaceNotFound
      split
      · exact hnil
      · exact hfinish
  | otherError => cases h

end FibUpdater

/-! ### Retries -/

/-- What a request leaves at its nexthop. -/
def FibUpdate.effect (update : FibUpdate) : Option Nat :=
  match update.action with
  | .addNextHop => some update.cost
  | .removeNextHop => none

/-- The update that a retry asks for. -/
def FibUpdate.asAdd (update : FibUpdate) : FibUpdate := { update with action := .addNextHop }

namespace NextHops

theorem applyUpdate_self (fib : NextHops) (update : FibUpdate) :
    fib.applyUpdate update update.name update.faceId = update.effect := by
  simp only [applyUpdate, FibUpdate.key, if_true]
  rfl

theorem applyUpdate_of_ne (fib : NextHops) {update : FibUpdate} {name : Name} {faceId : FaceId}
    (h : (name, faceId) ≠ update.key) : fib.applyUpdate update name faceId = fib name faceId := if_neg h

/-- Updates of different nexthops, applied in any order. -/
theorem foldl_applyUpdate {updates : List FibUpdate} (hnodup : (updates.map FibUpdate.key).Nodup) (fib : NextHops)
    (name : Name) (faceId : FaceId) :
    (∀ update ∈ updates, update.key = (name, faceId) → updates.foldl applyUpdate fib name faceId = update.effect) ∧
    ((∀ update ∈ updates, update.key ≠ (name, faceId)) → updates.foldl applyUpdate fib name faceId =
      fib name faceId) := by
  induction updates generalizing fib with
  | nil => exact ⟨fun update h => by simp at h, fun _ => rfl⟩
  | cons first updates ih =>
      rw [List.map_cons, List.nodup_cons] at hnodup
      obtain ⟨hfound, hnot⟩ := ih hnodup.2 (fib.applyUpdate first)
      rw [List.foldl_cons]
      constructor
      · intro update hmem hkey
        rcases List.mem_cons.mp hmem with rfl | hmem
        · have hlater : ∀ other ∈ updates, other.key ≠ (name, faceId) := fun other ho heq =>
            hnodup.1 (List.mem_map.mpr ⟨other, ho, heq.trans hkey.symm⟩)
          rw [hnot hlater]
          obtain ⟨rfl, rfl⟩ := Prod.mk.inj hkey
          exact applyUpdate_self fib update
        · exact hfound update hmem hkey
      · intro hall
        rw [hnot fun update hmem => hall update (List.mem_cons_of_mem first hmem)]
        exact applyUpdate_of_ne fib (hall first List.mem_cons_self).symm

end NextHops

namespace FibLink

variable {u : FibUpdater} {l l' : FibLink} {target : NextHops}

/-- The requests that have not been answered: those in flight, and the updates that wait for the batch's face
to be done. -/
def Pending (l : FibLink) (request : FibUpdate) : Prop :=
  (∃ c ∈ l.inFlight, c.request = request) ∨
    l.updater.updatesForBatchFaceId ≠ [] ∧ request ∈ l.updater.updatesForNonBatchFaceId

/-- The FIB that results when every pending request succeeds at once. -/
structure Predicts (l : FibLink) (target : NextHops) : Prop where
  awaits : l.updater.Awaits l.inFlight
  pending : ∀ request, l.Pending request → target request.name request.faceId = request.effect
  settled : ∀ name faceId, (∀ request, l.Pending request → request.key ≠ (name, faceId)) →
    target name faceId = l.fib name faceId

/-- A request of another nexthop than an awaited one's. -/
theorem key_ne_of_awaited {cs : List Command} (h : u.Awaits cs) {c c' : Command} (hc : c ∈ cs) (hc' : c' ∈ cs.erase c) :
    c'.update.key ≠ c.update.key := by
  have hcons : (c.update :: (cs.erase c).map Command.update).Perm u.awaited :=
    ((List.perm_cons_erase hc).map Command.update).symm.trans h
  have hnodup : ((c.update :: (cs.erase c).map Command.update).map FibUpdate.key).Nodup :=
    (hcons.map FibUpdate.key).nodup_iff.mpr u.nodup_awaited
  rw [List.map_cons, List.nodup_cons] at hnodup
  intro heq
  exact hnodup.1 (heq ▸ List.mem_map_of_mem (List.mem_map_of_mem hc'))

/-- When nothing is in flight, the prediction has come true. -/
theorem Predicts.fib_eq (h : l.Predicts target) (hdone : l.inFlight = []) : l.fib = target := by
  have hlists : l.updater.awaited = [] := by
    have hperm := h.awaits
    rw [FibUpdater.Awaits, hdone] at hperm
    exact List.nil_perm.mp hperm
  have hnone : ∀ request, ¬ l.Pending request := by
    rintro request (⟨c, hc, -⟩ | ⟨hne, -⟩)
    · rw [hdone] at hc
      cases hc
    · rw [FibUpdater.awaited_of_ne_nil hne] at hlists
      exact hne hlists
  funext name faceId
  exact (h.settled name faceId fun request hp => absurd hp (hnone request)).symm

theorem sent_predicts (u : FibUpdater) (batch : Batch) (fib : NextHops) :
    (sent u batch fib).Predicts (fib.applyUpdates u) := by
  have hnodup : ((u.updatesForBatchFaceId ++ u.updatesForNonBatchFaceId).map FibUpdate.key).Nodup := by
    rw [List.map_append]
    refine u.nodup_batch.append u.nodup_nonBatch fun key hkey hkey' => ?_
    obtain ⟨update, hmem, rfl⟩ := List.mem_map.mp hkey
    obtain ⟨update', hmem', heq⟩ := List.mem_map.mp hkey'
    have hface : update'.faceId = update.faceId := congrArg Prod.snd heq
    exact u.face_nonBatch update' hmem' (hface.trans (u.face_batch update hmem))
  have hall : ∀ request, (sent u batch fib).Pending request ↔
      request ∈ u.updatesForBatchFaceId ++ u.updatesForNonBatchFaceId := by
    intro request
    have hsends : ∀ {updates : List FibUpdate},
        (∃ c ∈ FibUpdater.sendUpdates batch updates, c.request = request) ↔ request ∈ updates := by
      intro updates
      simp [FibUpdater.sendUpdates, FibUpdater.sendUpdate_eq, Command.request]
    simp only [Pending, sent, FibUpdater.sendUpdatesForBatchFaceId, List.mem_append]
    split
    · rename_i hpos
      have hne : u.updatesForBatchFaceId ≠ [] := List.ne_nil_of_length_pos hpos
      rw [hsends]
      simp [hne]
    · rename_i hzero
      have hnil := List.eq_nil_of_length_eq_zero (Nat.eq_zero_of_not_pos hzero)
      rw [FibUpdater.sendUpdatesForNonBatchFaceId]
      split
      · rw [hsends]
        simp [hnil]
      · rename_i hzero'
        have hnil' := List.eq_nil_of_length_eq_zero (Nat.eq_zero_of_not_pos hzero')
        simp [hnil, hnil']
  refine ⟨(u.sendBatch_continues batch).awaits, fun request hp => ?_, fun name faceId hnone => ?_⟩
  · exact (NextHops.foldl_applyUpdate hnodup fib _ _).1 request ((hall request).mp hp) rfl
  · exact (NextHops.foldl_applyUpdate hnodup fib name faceId).2 fun update hmem => hnone update ((hall update).mpr hmem)

/-- What a success leaves pending: all requests but the one that succeeded. -/
theorem pending_success {c : Command} (ha : l.updater.Awaits l.inFlight) (hc : c ∈ l.inFlight)
    (hl' : l' = ⟨(l.updater.onUpdateSuccess c).1, l.inFlight.erase c ++ (l.updater.onUpdateSuccess c).2.1,
      l.fib.applyUpdate c.request⟩) (request : FibUpdate) :
    l'.Pending request ↔ l.Pending request ∧ request.key ≠ c.update.key := by
  have hflight : (∃ c' ∈ l.inFlight.erase c, c'.request = request) ↔
      (∃ c' ∈ l.inFlight, c'.request = request) ∧ request.key ≠ c.update.key := by
    constructor
    · rintro ⟨c', hc', rfl⟩
      exact ⟨⟨c', List.mem_of_mem_erase hc', rfl⟩, key_ne_of_awaited ha hc hc'⟩
    · rintro ⟨⟨c', hc', rfl⟩, hne⟩
      exact ⟨c', (List.mem_erase_of_ne fun (heq : c' = c) => hne (by rw [heq]; rfl)).mpr hc', rfl⟩
  by_cases hnil : l.updater.updatesForBatchFaceId = []
  · -- the updates of other faces are in flight
    have hother : ¬ c.update.faceId = l.updater.batchFaceId := fun heq => (ha.face hc).mp heq hnil
    have hsent : (l.updater.onUpdateSuccess c).2.1 = [] ∧
        (l.updater.onUpdateSuccess c).1.updatesForBatchFaceId = [] := by
      simp only [FibUpdater.onUpdateSuccess, if_neg hother, FibUpdater.finishNonBatchUpdate]
      split <;> exact ⟨rfl, hnil⟩
    subst hl'
    simp only [Pending, hsent.1, hsent.2, hnil, List.append_nil, ne_eq, not_true_eq_false, false_and, or_false]
    exact hflight
  · have hface : c.update.faceId = l.updater.batchFaceId := (ha.face hc).mpr hnil
    have hwait : ∀ r ∈ l.updater.updatesForNonBatchFaceId, r.key ≠ c.update.key := by
      intro r hr heq
      exact l.updater.face_nonBatch r hr ((congrArg Prod.snd heq).trans hface)
    have hold : l.Pending request ∧ request.key ≠ c.update.key ↔
        (∃ c' ∈ l.inFlight.erase c, c'.request = request) ∨ request ∈ l.updater.updatesForNonBatchFaceId := by
      rw [hflight, Pending, or_and_right]
      refine or_congr_right ⟨fun h => h.1.2, fun h => ⟨⟨hnil, h⟩, hwait request h⟩⟩
    rw [hold]
    subst hl'
    simp only [Pending, FibUpdater.onUpdateSuccess, if_pos hface]
    split
    · rename_i hzero
      have hempty := List.eq_nil_of_length_eq_zero hzero
      simp only [FibUpdater.sendUpdatesForNonBatchFaceId]
      split
      · have hsends : (∃ c' ∈ FibUpdater.sendUpdates c.batch l.updater.updatesForNonBatchFaceId,
            c'.request = request) ↔ request ∈ l.updater.updatesForNonBatchFaceId := by
          simp [FibUpdater.sendUpdates, FibUpdater.sendUpdate_eq, Command.request]
        rw [← hsends]
        simp only [hempty, List.mem_append, ne_eq, not_true_eq_false, false_and, or_false, or_and_right, exists_or]
        rfl
      · rename_i hnone
        have hempty' : l.updater.updatesForNonBatchFaceId = [] :=
          List.eq_nil_of_length_eq_zero (Nat.eq_zero_of_not_pos hnone)
        simp only [hempty, hempty', List.append_nil, ne_eq, not_true_eq_false, false_and, List.not_mem_nil]
    · rename_i hpos
      have hne : (l.updater.removeForBatchFaceId c.update).updatesForBatchFaceId ≠ [] := fun hempty =>
        hpos (by rw [hempty]; rfl)
      simp only [List.append_nil, ne_eq, hne, not_false_eq_true, true_and]
      rfl

/-- A success carries out one of the pending requests. -/
theorem Predicts.success (h : l.Predicts target) {c : Command} (hstep : l.deliver (c, .success) = some l') :
    l'.Predicts target := by
  obtain ⟨⟨l₁, callback⟩, hrespond, rfl⟩ := Option.map_eq_some_iff.mp hstep
  unfold respond at hrespond
  split at hrespond
  · rename_i hc
    simp only [FibUpdater.onResponse, Option.map_some, Option.some.injEq, Prod.mk.injEq] at hrespond
    obtain ⟨hl₁, -⟩ := hrespond
    have hpending : ∀ request, l₁.Pending request ↔ l.Pending request ∧ request.key ≠ c.update.key :=
      pending_success h.awaits hc hl₁.symm
    have hc' : l.Pending c.request := Or.inl ⟨c, hc, rfl⟩
    refine ⟨?_, fun request hp => ?_, fun name faceId hnone => ?_⟩
    · rw [← hl₁]
      exact (FibUpdater.onUpdateSuccess_continues h.awaits hc).awaits
    · exact h.pending request ((hpending request).mp hp).1
    · rw [← hl₁]
      by_cases hkey : (name, faceId) = c.update.key
      · obtain ⟨rfl, rfl⟩ := Prod.mk.inj hkey
        exact (h.pending c.request hc').trans (NextHops.applyUpdate_self l.fib c.request).symm
      · show target name faceId = l.fib.applyUpdate c.request name faceId
        rw [NextHops.applyUpdate_of_ne l.fib (show (name, faceId) ≠ c.request.key from hkey)]
        refine h.settled name faceId fun request hp heq => ?_
        by_cases hsame : request.key = c.update.key
        · exact hkey (heq.symm.trans hsame)
        · exact hnone request ((hpending request).mpr ⟨hp, hsame⟩) heq
  · cases hrespond

/-- The prediction after a timeout: the command is sent again as one that adds the nexthop. -/
theorem Predicts.timeout (h : l.Predicts target) {c : Command} {applied : Bool}
    (hstep : l.deliver (c, .timeout applied) = some l') :
    l'.Predicts (target.applyUpdate c.update.asAdd) := by
  obtain ⟨⟨l₁, callback⟩, hrespond, rfl⟩ := Option.map_eq_some_iff.mp hstep
  unfold respond at hrespond
  split at hrespond
  · rename_i hc
    simp only [FibUpdater.onResponse, FibUpdater.onUpdateTimeout] at hrespond
    split at hrespond
    · simp only [Option.map_some, Option.some.injEq, Prod.mk.injEq] at hrespond
      obtain ⟨hl₁, -⟩ := hrespond
      have hother : ∀ request, l₁.Pending request → request.key ≠ c.update.key → l.Pending request := by
        intro request hp hne
        rw [← hl₁] at hp
        rcases hp with ⟨c', hc', rfl⟩ | hp
        · rcases List.mem_append.mp hc' with hc' | hc'
          · exact Or.inl ⟨c', List.mem_of_mem_erase hc', rfl⟩
          · rw [List.mem_singleton.mp hc'] at hne
            exact absurd rfl hne
        · exact Or.inr hp
      have hkept : ∀ request, l.Pending request → request.key ≠ c.update.key → l₁.Pending request := by
        intro request hp hne
        rw [← hl₁]
        rcases hp with ⟨c', hc', rfl⟩ | hp
        · exact Or.inl ⟨c', List.mem_append_left _ ((List.mem_erase_of_ne fun (heq : c' = c) =>
            hne (by rw [heq]; rfl)).mpr hc'), rfl⟩
        · exact Or.inr hp
      have hsame : ∀ request, l₁.Pending request → request.key = c.update.key →
          request = c.update.asAdd := by
        intro request hp heq
        rw [← hl₁] at hp
        rcases hp with ⟨c', hc', rfl⟩ | ⟨hne, hmem⟩
        · rcases List.mem_append.mp hc' with hc' | hc'
          · exact absurd heq (key_ne_of_awaited h.awaits hc hc')
          · rw [List.mem_singleton.mp hc']
            rfl
        · exact absurd ((congrArg Prod.snd heq).trans ((h.awaits.face hc).mpr hne))
            (l.updater.face_nonBatch request hmem)
      refine ⟨?_, fun request hp => ?_, fun name faceId hnone => ?_⟩
      · rw [← hl₁]
        exact h.awaits.retry hc (c.nTimeouts + 1)
      · by_cases hkey : request.key = c.update.key
        · rw [hsame request hp hkey]
          exact NextHops.applyUpdate_self target _
        · rw [NextHops.applyUpdate_of_ne target (show (request.name, request.faceId) ≠ c.update.asAdd.key from hkey)]
          exact h.pending request (hother request hp hkey)
      · have hkey : (name, faceId) ≠ c.update.key := by
          intro heq
          refine hnone c.update.asAdd ?_ heq.symm
          rw [← hl₁]
          exact Or.inl ⟨_, List.mem_append_right _ (List.mem_singleton_self _), rfl⟩
        have hfib : l₁.fib name faceId = l.fib name faceId := by
          rw [← hl₁]
          cases applied with
          | true => exact NextHops.applyUpdate_of_ne l.fib (show (name, faceId) ≠ c.request.key from hkey)
          | false => rfl
        rw [hfib, NextHops.applyUpdate_of_ne target (show (name, faceId) ≠ c.update.asAdd.key from hkey)]
        refine h.settled name faceId fun request hp heq => ?_
        by_cases hsame' : request.key = c.update.key
        · exact hkey (heq.symm.trans hsame')
        · exact hnone request (hkept request hp hsame') heq
    · cases hrespond
  · cases hrespond

/-- Every response is a success or a timeout. -/
def OnlyTimeouts (responses : List (Command × Outcome)) : Prop :=
  ∀ response ∈ responses, response.2 = .success ∨ ∃ applied, response.2 = .timeout applied

/-- A removal times out. -/
def TimesOutRemoval (response : Command × Outcome) : Prop :=
  response.1.update.action = .removeNextHop ∧ ∃ applied, response.2 = .timeout applied

/-- Every command in flight is for the action of its update. -/
def Faithful (l : FibLink) : Prop := ∀ c ∈ l.inFlight, c.verb = c.update.action

theorem sent_faithful (u : FibUpdater) (batch : Batch) (fib : NextHops) : (sent u batch fib).Faithful := by
  have hsends : ∀ updates : List FibUpdate, ∀ c ∈ FibUpdater.sendUpdates batch updates, c.verb = c.update.action := by
    intro updates c hc
    obtain ⟨update, -, rfl⟩ := List.mem_map.mp hc
    rw [FibUpdater.sendUpdate_eq]
  intro c hc
  simp only [sent, FibUpdater.sendUpdatesForBatchFaceId, FibUpdater.sendUpdatesForNonBatchFaceId] at hc
  split at hc
  · exact hsends _ c hc
  · split at hc
    · exact hsends _ c hc
    · cases hc

theorem Faithful.success (h : l.Faithful) {c : Command} (hstep : l.deliver (c, .success) = some l') :
    l'.Faithful := by
  obtain ⟨⟨l₁, callback⟩, hrespond, rfl⟩ := Option.map_eq_some_iff.mp hstep
  unfold respond at hrespond
  split at hrespond
  · simp only [FibUpdater.onResponse, Option.map_some, Option.some.injEq, Prod.mk.injEq] at hrespond
    obtain ⟨rfl, -⟩ := hrespond
    intro c' hc'
    rcases List.mem_append.mp hc' with hc' | hc'
    · exact h c' (List.mem_of_mem_erase hc')
    · simp only [FibUpdater.onUpdateSuccess, FibUpdater.finishNonBatchUpdate,
        FibUpdater.sendUpdatesForNonBatchFaceId] at hc'
      split at hc'
      · split at hc'
        · split at hc'
          · obtain ⟨update, -, rfl⟩ := List.mem_map.mp hc'
            rw [FibUpdater.sendUpdate_eq]
          · cases hc'
        · cases hc'
      · split at hc' <;> cases hc'
  · cases hrespond

/-- The command of a response is in flight. -/
theorem mem_of_deliver {response : Command × Outcome} (hstep : l.deliver response = some l') :
    response.1 ∈ l.inFlight := by
  obtain ⟨reply, hrespond, -⟩ := Option.map_eq_some_iff.mp hstep
  unfold respond at hrespond
  split at hrespond
  · assumption
  · cases hrespond

theorem Faithful.timeout (h : l.Faithful) {c : Command} {applied : Bool} (hadd : c.update.action = .addNextHop)
    (hstep : l.deliver (c, .timeout applied) = some l') : l'.Faithful := by
  obtain ⟨⟨l₁, callback⟩, hrespond, rfl⟩ := Option.map_eq_some_iff.mp hstep
  unfold respond at hrespond
  split at hrespond
  · simp only [FibUpdater.onResponse, FibUpdater.onUpdateTimeout] at hrespond
    split at hrespond
    · simp only [Option.map_some, Option.some.injEq, Prod.mk.injEq] at hrespond
      obtain ⟨rfl, -⟩ := hrespond
      intro c' hc'
      rcases List.mem_append.mp hc' with hc' | hc'
      · exact h c' (List.mem_of_mem_erase hc')
      · rw [List.mem_singleton.mp hc']
        exact hadd.symm
    · cases hrespond
  · cases hrespond

/-- The retry of an update that adds a nexthop predicts the same FIB. -/
theorem Predicts.timeout_add (h : l.Predicts target) (hf : l.Faithful) {c : Command} {applied : Bool}
    (hadd : c.update.action = .addNextHop) (hstep : l.deliver (c, .timeout applied) = some l') :
    l'.Predicts target := by
  have hc : c ∈ l.inFlight := mem_of_deliver hstep
  have hrequest : c.request = c.update.asAdd := by rw [Command.request, hf c hc, hadd, FibUpdate.asAdd]
  have hsame : target.applyUpdate c.update.asAdd = target := by
    funext name faceId
    by_cases hkey : (name, faceId) = c.update.asAdd.key
    · obtain ⟨rfl, rfl⟩ := Prod.mk.inj hkey
      rw [NextHops.applyUpdate_self, ← hrequest]
      exact (h.pending c.request (Or.inl ⟨c, hc, rfl⟩)).symm
    · exact NextHops.applyUpdate_of_ne target hkey
  rw [← hsame]
  exact h.timeout hstep

/-- A retry adds a nexthop and never takes one away. -/
theorem applyUpdate_asAdd_ne_none (target : NextHops) (update : FibUpdate) {name : Name} {faceId : FaceId}
    (h : target name faceId ≠ none) : target.applyUpdate update.asAdd name faceId ≠ none := by
  by_cases hkey : (name, faceId) = update.asAdd.key
  · obtain ⟨rfl, rfl⟩ := Prod.mk.inj hkey
    rw [NextHops.applyUpdate_self]
    simp [FibUpdate.asAdd, FibUpdate.effect]
  · rwa [NextHops.applyUpdate_of_ne target hkey]

/-- Whatever times out, a nexthop that was predicted stays predicted. -/
theorem Predicts.exec (h : l.Predicts target) {responses : List (Command × Outcome)}
    (honly : OnlyTimeouts responses) (hrun : exec deliver l responses = some l') :
    ∃ target', l'.Predicts target' ∧ ∀ name faceId, target name faceId ≠ none → target' name faceId ≠ none := by
  induction responses generalizing l target with
  | nil =>
      cases hrun
      exact ⟨target, h, fun _ _ hne => hne⟩
  | cons response responses ih =>
      obtain ⟨l₁, hstep, hrest⟩ := Option.bind_eq_some_iff.mp hrun
      have honly' : OnlyTimeouts responses := fun r hr => honly r (List.mem_cons_of_mem _ hr)
      obtain ⟨c, outcome⟩ := response
      rcases honly _ List.mem_cons_self with rfl | ⟨applied, rfl⟩
      · exact ih (h.success hstep) honly' hrest
      · obtain ⟨target', hp, hmono⟩ := ih (h.timeout hstep) honly' hrest
        exact ⟨target', hp, fun name faceId hne => hmono name faceId (applyUpdate_asAdd_ne_none target c.update hne)⟩

/-- The prediction changes exactly if a removal times out. -/
theorem Predicts.exec_iff (h : l.Predicts target) (hf : l.Faithful) {responses : List (Command × Outcome)}
    (honly : OnlyTimeouts responses) (hrun : NfdPitless.exec deliver l responses = some l') :
    ∃ target', l'.Predicts target' ∧ (target' = target ↔ ∀ response ∈ responses, ¬ TimesOutRemoval response) := by
  induction responses generalizing l with
  | nil =>
      cases hrun
      exact ⟨target, h, by simp⟩
  | cons response responses ih =>
      obtain ⟨l₁, hstep, hrest⟩ := Option.bind_eq_some_iff.mp hrun
      have honly' : OnlyTimeouts responses := fun r hr => honly r (List.mem_cons_of_mem _ hr)
      obtain ⟨c, outcome⟩ := response
      rcases honly _ List.mem_cons_self with rfl | ⟨applied, rfl⟩
      · obtain ⟨target', hp, hiff⟩ := ih (h.success hstep) (hf.success hstep) honly' hrest
        refine ⟨target', hp, hiff.trans ?_⟩
        simp [TimesOutRemoval]
      · cases hact : c.update.action with
        | addNextHop =>
            obtain ⟨target', hp, hiff⟩ := ih (h.timeout_add hf hact hstep) (hf.timeout hact hstep) honly' hrest
            refine ⟨target', hp, hiff.trans ?_⟩
            simp [TimesOutRemoval, hact]
        | removeNextHop =>
            -- the removed nexthop is predicted from now on
            obtain ⟨target', hp, hmono⟩ := (h.timeout hstep).exec honly' hrest
            have hc : c ∈ l.inFlight := mem_of_deliver hstep
            have hnone : target c.update.name c.update.faceId = none := by
              have hpending := h.pending c.request (Or.inl ⟨c, hc, rfl⟩)
              have heffect : c.request.effect = none := by
                simp [FibUpdate.effect, Command.request, hf c hc, hact]
              exact hpending.trans heffect
            have hsome : target' c.update.name c.update.faceId ≠ none := by
              apply hmono
              show target.applyUpdate c.update.asAdd c.update.asAdd.name c.update.asAdd.faceId ≠ none
              rw [NextHops.applyUpdate_self]
              simp [FibUpdate.asAdd, FibUpdate.effect]
            refine ⟨target', hp, fun heq => absurd (heq ▸ hnone) hsome, fun hquiet => ?_⟩
            exact absurd ⟨hact, applied, rfl⟩ (hquiet _ List.mem_cons_self)

/-- Once every command of a batch has been answered, with timeouts that the updater tolerates, the FIB is the
one of the batch if and only if no removal timed out. -/
theorem retries_preserve_iff (u : FibUpdater) (batch : Batch) (fib : NextHops) (responses : List (Command × Outcome))
    (l : FibLink) (honly : OnlyTimeouts responses)
    (hrun : NfdPitless.exec deliver (sent u batch fib) responses = some l) (hdone : l.inFlight = []) :
    l.fib = fib.applyUpdates u ↔ ∀ response ∈ responses, ¬ TimesOutRemoval response := by
  obtain ⟨target', hp, hiff⟩ := (sent_predicts u batch fib).exec_iff (sent_faithful u batch fib) honly hrun
  rw [hp.fib_eq hdone]
  exact hiff

/-- The updater that removes the only route of `/A`. -/
def removal : FibUpdater := FibUpdater.addFibUpdate (.new 1) (.createRemoveUpdate [.ofByte 65] 1)

def removalBatch : Batch := ⟨0, .unregister, [.ofByte 65], ⟨1, 0, 1, 5⟩⟩

/-- A FIB with the nexthop to be removed. -/
def registered : NextHops := NextHops.applyUpdate (fun _ _ => none) (.createAddUpdate [.ofByte 65] 1 5)

/-- The responses when the removal times out once. -/
def removalTimesOut : List (Command × Outcome) :=
  [(⟨removalBatch, .createRemoveUpdate [.ofByte 65] 1, .removeNextHop, 0⟩, .timeout false),
    (⟨removalBatch, .createRemoveUpdate [.ofByte 65] 1, .addNextHop, 1⟩, .success)]

/-- The nexthop that was to be removed is added. -/
theorem removal_retried_as_add :
    ¬ ∀ (u : FibUpdater) (batch : Batch) (fib : NextHops) (responses : List (Command × Outcome)) (l : FibLink),
      OnlyTimeouts responses → NfdPitless.exec deliver (sent u batch fib) responses = some l → l.inFlight = [] →
        l.fib = fib.applyUpdates u := by
  intro hall
  have hrun : ((NfdPitless.exec deliver (sent removal removalBatch registered) removalTimesOut).any fun l =>
      l.inFlight.isEmpty && (l.fib [.ofByte 65] 1).isSome) = true := by decide +kernel
  obtain ⟨l, hl, hfacts⟩ := (Option.any_eq_true _ _).mp hrun
  rw [Bool.and_eq_true, List.isEmpty_iff] at hfacts
  have honly : OnlyTimeouts removalTimesOut := by
    intro response hr
    simp only [removalTimesOut, List.mem_cons, List.not_mem_nil, or_false] at hr
    rcases hr with rfl | rfl
    · exact Or.inr ⟨false, rfl⟩
    · exact Or.inl rfl
  have hfib := hall removal removalBatch registered removalTimesOut l honly hl hfacts.1
  have hnone : NextHops.applyUpdates registered removal [.ofByte 65] 1 = none := by decide +kernel
  rw [hfib, hnone] at hfacts
  exact absurd hfacts.2 (by decide)

/-- The updater that adds a route of `/A`. -/
def addition : FibUpdater := FibUpdater.addFibUpdate (.new 1) (.createAddUpdate [.ofByte 65] 1 5)

def additionBatch : Batch := ⟨0, .register, [.ofByte 65], ⟨1, 0, 1, 5⟩⟩

/-- The responses when the addition times out once, after it has reached the FIB. -/
def additionTimesOut : List (Command × Outcome) :=
  [(⟨additionBatch, .createAddUpdate [.ofByte 65] 1 5, .addNextHop, 0⟩, .timeout true),
    (⟨additionBatch, .createAddUpdate [.ofByte 65] 1 5, .addNextHop, 1⟩, .success)]

/-- An addition is made once and for all. -/
theorem retries_preserve_iff_addition :
    ∃ l, NfdPitless.exec deliver (sent addition additionBatch fun _ _ => none) additionTimesOut = some l ∧
      l.fib = NextHops.applyUpdates (fun _ _ => none) addition := by
  have hrun : ((NfdPitless.exec deliver (sent addition additionBatch fun _ _ => none) additionTimesOut).any fun l =>
      l.inFlight.isEmpty) = true := by decide +kernel
  obtain ⟨l, hl, hempty⟩ := (Option.any_eq_true _ _).mp hrun
  refine ⟨l, hl, (retries_preserve_iff addition additionBatch _ additionTimesOut l ?_ hl
    (List.isEmpty_iff.mp hempty)).mpr ?_⟩
  · intro response hr
    simp only [additionTimesOut, List.mem_cons, List.not_mem_nil, or_false] at hr
    rcases hr with rfl | rfl
    · exact Or.inr ⟨true, rfl⟩
    · exact Or.inl rfl
  · intro response hr hremoval
    simp only [additionTimesOut, List.mem_cons, List.not_mem_nil, or_false] at hr
    rcases hr with rfl | rfl
    · exact nomatch hremoval.1
    · exact nomatch hremoval.1

end FibLink
end NfdPitless
