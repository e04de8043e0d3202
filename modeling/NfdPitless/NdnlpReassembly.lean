import NfdPitless.Ndnlp
import NfdPitless.Runs
import Mathlib.Data.List.Nodup

/-! Reassembly is robust: whatever packets arrive, no assertion fails, every partial message can be completed and is
cleaned up once, and what is delivered is made of fragments that arrived for it. -/

namespace NfdPitless.Ndnlp

variable {codec : TlvCodec} {wire : Block} {pkt : NdnlpData} {fragIndex fragCount : UInt16} {payload : Block}

/-- The packet has been accepted by `fromBlock`. -/
def NdnlpData.Accepted (codec : TlvCodec) (pkt : NdnlpData) : Prop := ∃ wire, NdnlpData.fromBlock codec wire = some pkt

theorem NdnlpData.Accepted.fragIndex_lt (h : pkt.Accepted codec) : pkt.fragIndex.toNat < pkt.fragCount.toNat := by
  obtain ⟨wire, hwire⟩ := h
  unfold fromBlock at hwire
  simp only [Option.bind_eq_bind, Option.bind_eq_some_iff, Option.guard_eq_some', exists_and_left,
    exists_const] at hwire
  obtain ⟨-, elements, -, -, sequenceElement, -, -, -, payload, -, -, hrest⟩ := hwire
  split at hrest
  · cases hrest
    exact Nat.zero_lt_one
  · simp only [Option.bind_eq_some_iff, Option.guard_eq_some', exists_and_left, exists_const] at hrest
    obtain ⟨-, -, -, -, fragIndex, -, -, -, -, -, fragCount, -, -, hlt, heq⟩ := hrest
    cases heq
    exact UInt16.lt_iff_toNat_lt.mp hlt

namespace PartialMessage

variable {message message' : PartialMessage}

/-- The counters agree with the payloads. -/
structure Counted (message : PartialMessage) : Prop where
  length : message.payloads.length = message.fragCount
  received : message.received = message.payloads.countP Option.isSome
  totalLength : message.totalLength = message.octets.length

theorem new_counted : PartialMessage.new.Counted := ⟨rfl, rfl, rfl⟩

/-- The octets when a payload is set where there was none. -/
theorem length_octets_set {payloads : List (Option Block)} {i : Nat} (h : payloads[i]? = some none) (b : Block) :
    ((payloads.set i (some b)).flatMap fun payload => payload.elim [] Block.value).length =
      (payloads.flatMap fun payload => payload.elim [] Block.value).length + b.value.length := by
  induction payloads generalizing i with
  | nil => cases h
  | cons payload payloads ih =>
      cases i with
      | zero =>
          cases h
          rw [List.set_cons_zero, List.flatMap_cons, List.flatMap_cons, List.length_append, List.length_append]
          exact Nat.add_comm _ _ |>.trans (congrArg (· + _) (Nat.zero_add _).symm)
      | succ i =>
          rw [List.set_cons_succ, List.flatMap_cons, List.flatMap_cons, List.length_append, List.length_append, ih h,
            Nat.add_assoc]

theorem countP_set {payloads : List (Option Block)} {i : Nat} (h : payloads[i]? = some none) (b : Block) :
    (payloads.set i (some b)).countP Option.isSome = payloads.countP Option.isSome + 1 := by
  obtain ⟨hi, hnone⟩ := List.getElem?_eq_some_iff.mp h
  rw [List.countP_set hi, hnone]
  rfl

theorem Counted.eq_nil_of_received (h : message.Counted) (hnone : message.received = 0) :
    ∀ payload ∈ message.payloads, payload = none := by
  intro payload hmem
  have hcount := List.countP_eq_zero.mp (h.received.symm.trans hnone) payload hmem
  rwa [Option.isSome_iff_ne_none, not_not] at hcount

theorem Counted.start (h : message.Counted) (fragCount : UInt16) : (message.start fragCount).Counted := by
  unfold PartialMessage.start
  split
  · rename_i hnone
    have hall : ∀ payload ∈ message.payloads.take fragCount.toNat ++
        List.replicate (fragCount.toNat - message.payloads.length) none, payload = none := by
      intro payload hmem
      cases List.mem_append.mp hmem with
      | inl hold => exact h.eq_nil_of_received hnone payload (List.mem_of_mem_take hold)
      | inr hnew => exact (List.mem_replicate.mp hnew).2
    have hlength : ∀ payloads : List (Option Block), (∀ payload ∈ payloads, payload = none) →
        (payloads.flatMap fun payload => payload.elim [] Block.value).length = 0 := by
      intro payloads hpayloads
      rw [List.length_flatMap, List.sum_eq_zero_iff_forall_eq_nat]
      intro n hn
      obtain ⟨payload, hmem, rfl⟩ := List.mem_map.mp hn
      rw [hpayloads payload hmem]
      rfl
    refine ⟨?_, ?_, ?_⟩
    · dsimp only
      rw [List.length_append, List.length_take, List.length_replicate]
      omega
    · dsimp only
      rw [hnone, eq_comm, List.countP_eq_zero]
      intro payload hmem
      rw [hall payload hmem]
      exact Bool.false_ne_true
    · have htotal := h.totalLength
      rw [octets, hlength _ (h.eq_nil_of_received hnone)] at htotal
      rw [octets, hlength _ hall]
      exact htotal
  · exact h

theorem Counted.received_le (h : message.Counted) : message.received ≤ message.fragCount := by
  rw [h.received, ← h.length]
  exact List.countP_le_length

/-- A complete message has all payloads. -/
theorem Counted.isComplete_iff (h : message.Counted) : message.isComplete = true ↔
    ∀ payload ∈ message.payloads, payload.isSome = true := by
  rw [isComplete, beq_iff_eq, h.received, ← h.length, List.countP_eq_length]

/-- What `add` does: a payload that is accepted fills a place that was empty, in a message of as many fragments; one
that is not changes nothing. -/
theorem Counted.add (h : message.Counted) (hlt : fragIndex.toNat < fragCount.toNat) (payload : Block) :
    ∃ message' accepted, message.add fragIndex fragCount payload = some (message', accepted) ∧ message'.Counted ∧
      message'.expiry = message.expiry ∧
      (accepted = true → message'.fragCount = fragCount.toNat ∧
        (message.start fragCount).payloads[fragIndex.toNat]? = some none ∧
        message'.payloads = (message.start fragCount).payloads.set fragIndex.toNat (some payload)) ∧
      (accepted = false → message' = message ∧ message.received ≠ 0 ∧ (message.fragCount = fragCount.toNat →
        ∃ b, message.payloads[fragIndex.toNat]? = some (some b))) := by
  have hstart := h.start fragCount
  have hexpiry : (message.start fragCount).expiry = message.expiry := by
    unfold PartialMessage.start
    split <;> rfl
  -- A message that starts has no payloads, and its number of fragments is the packet's.
  have hfirst : message.received = 0 → (message.start fragCount).fragCount = fragCount.toNat ∧
      ∀ payload ∈ (message.start fragCount).payloads, payload = none := by
    intro hnone
    refine ⟨by rw [PartialMessage.start, if_pos hnone], hstart.eq_nil_of_received ?_⟩
    rw [PartialMessage.start, if_pos hnone]
    exact hnone
  have hlater : message.received ≠ 0 → message.start fragCount = message := fun hsome => if_neg hsome
  by_cases hcount : (message.start fragCount).fragCount = fragCount.toNat
  · have hbound : fragIndex.toNat < (message.start fragCount).payloads.length := by
      rw [hstart.length, hcount]; exact hlt
    have hget := List.getElem?_eq_getElem hbound
    have hadd : message.add fragIndex fragCount payload =
        some (if ((message.start fragCount).payloads[fragIndex.toNat]).isSome then (message.start fragCount, false)
          else ({ message.start fragCount with
            payloads := (message.start fragCount).payloads.set fragIndex.toNat (some payload)
            received := (message.start fragCount).received + 1
            totalLength := (message.start fragCount).totalLength + payload.value.length }, true)) := by
      unfold PartialMessage.add
      dsimp only
      rw [if_neg (by omega), hget, Option.map_some]
    cases hplace : (message.start fragCount).payloads[fragIndex.toNat] with
    | none =>
        rw [hplace] at hadd hget
        refine ⟨_, true, hadd, ⟨?_, ?_, ?_⟩, hexpiry, fun _ => ⟨hcount, hget, rfl⟩, (fun hfalse => nomatch hfalse)⟩
        · dsimp only
          rw [List.length_set, hstart.length]
        · dsimp only
          rw [countP_set hget, hstart.received]
        · dsimp only [octets]
          rw [length_octets_set hget, hstart.totalLength, octets]
    | some b =>
        rw [hplace] at hadd hget
        have hreceived : message.received ≠ 0 := by
          intro hnone
          have hempty := (hfirst hnone).2 _ (List.getElem_mem hbound)
          rw [hplace] at hempty
          cases hempty
        refine ⟨_, false, hadd, hstart, hexpiry, (fun htrue => nomatch htrue), fun _ => ⟨hlater hreceived, hreceived,
          fun _ => ⟨b, ?_⟩⟩⟩
        rw [← hlater hreceived]
        exact hget
  · have hreceived : message.received ≠ 0 := fun hnone => hcount (hfirst hnone).1
    refine ⟨message.start fragCount, false, ?_, hstart, hexpiry, (fun htrue => nomatch htrue), fun _ =>
      ⟨hlater hreceived, hreceived, fun heq => absurd ((hlater hreceived).symm ▸ heq) hcount⟩⟩
    unfold PartialMessage.add
    dsimp only
    rw [if_pos (.inl hcount)]

/-- A payload of the message after `add` is the new one, or was there. -/
theorem Counted.payload_of_add (h : message.Counted) (hlt : fragIndex.toNat < fragCount.toNat) {accepted : Bool}
    (hadd : message.add fragIndex fragCount payload = some (message', accepted)) {i : Nat} {b : Block}
    (hplace : message'.payloads[i]? = some (some b)) :
    (i = fragIndex.toNat ∧ b = payload ∧ message'.fragCount = fragCount.toNat) ∨
      (message.payloads[i]? = some (some b) ∧ message'.fragCount = message.fragCount) := by
  obtain ⟨m, a, hadd', -, -, haccepted, hrefused⟩ := h.add hlt payload
  rw [hadd] at hadd'
  cases hadd'
  cases ha : accepted with
  | true =>
      obtain ⟨hcount, hempty, hpayloads⟩ := haccepted ha
      rw [hpayloads, List.getElem?_set] at hplace
      split at hplace
      · rename_i hi
        rw [if_pos (List.getElem?_eq_some_iff.mp hempty).1] at hplace
        cases hplace
        exact .inl ⟨hi.symm, rfl, hcount⟩
      · right
        by_cases hreceived : message.received = 0
        · -- a message that starts has no payloads
          have hnone : (message.start fragCount).received = 0 := by
            unfold PartialMessage.start
            split <;> exact hreceived
          cases (h.start fragCount).eq_nil_of_received hnone _ (List.mem_of_getElem? hplace)
        · rw [PartialMessage.start, if_neg hreceived] at hplace
          refine ⟨hplace, hcount.trans ?_⟩
          have hadd' := hadd
          unfold PartialMessage.add at hadd'
          dsimp only at hadd'
          rw [PartialMessage.start, if_neg hreceived] at hadd'
          split at hadd'
          · cases hadd'
            cases ha
          · rename_i hsame
            exact (not_not.mp (not_or.mp hsame).1).symm
  | false =>
      obtain ⟨hsame, -, -⟩ := hrefused ha
      rw [hsame] at hplace ⊢
      exact .inr ⟨hplace, rfl⟩

/-- `add` does not read the event. -/
theorem add_expiry (message : PartialMessage) (expiry : Option Nat) :
    ({ message with expiry } : PartialMessage).add fragIndex fragCount payload =
      (message.add fragIndex fragCount payload).map fun result => ({ result.1 with expiry }, result.2) := by
  have hstart : ({ message with expiry } : PartialMessage).start fragCount =
      { message.start fragCount with expiry } := by
    unfold PartialMessage.start
    split <;> rfl
  unfold PartialMessage.add
  dsimp only
  rw [hstart]
  dsimp only
  split
  · rfl
  · cases (message.start fragCount).payloads[fragIndex.toNat]? with
    | none => rfl
    | some existing => cases existing <;> rfl

/-- A complete message is reassembled from all its octets. -/
theorem Counted.reassemble (h : message.Counted) (hcomplete : message.isComplete = true) :
    message.reassemble codec = some (codec.fromBuffer message.octets) :=
  if_pos ⟨hcomplete, h.totalLength.symm⟩

end PartialMessage

/-! ### The store -/

namespace PartialMessageStore

variable {store : PartialMessageStore} {messageIdentifier : UInt64} {message : PartialMessage}

/-- The pending cleanup events of a message. -/
def pending (store : PartialMessageStore) (messageIdentifier : UInt64) : List (Nat × UInt64) :=
  store.events.filter fun event => event.2 == messageIdentifier

/-- Every message has one pending event; there are no other events. -/
structure Scheduled (store : PartialMessageStore) : Prop where
  expiry : ∀ messageIdentifier message, store.partialMessages messageIdentifier = some message →
    ∃ event, message.expiry = some event
  pending_eq : ∀ messageIdentifier, store.pending messageIdentifier =
    ((store.partialMessages messageIdentifier).bind PartialMessage.expiry).toList.map fun event =>
      (event, messageIdentifier)
  nodup : (store.events.map Prod.fst).Nodup
  lt : ∀ event ∈ store.events, event.1 < store.nextEvent

/-- Every message has fragments, but not all of them. -/
structure WellFormed (store : PartialMessageStore) : Prop extends Scheduled store where
  counted : ∀ messageIdentifier message, store.partialMessages messageIdentifier = some message →
    message.Counted ∧ 0 < message.received ∧ message.received < message.fragCount

theorem empty_wellFormed : empty.WellFormed where
  counted := fun _ _ h => nomatch h
  expiry := fun _ _ h => nomatch h
  pending_eq := fun _ => rfl
  nodup := List.nodup_nil
  lt := fun _ h => nomatch h

theorem mem_pending {event : Nat × UInt64} :
    event ∈ store.pending messageIdentifier ↔ event ∈ store.events ∧ event.2 = messageIdentifier := by
  rw [pending, List.mem_filter, beq_iff_eq]

theorem Scheduled.mem_events (h : store.Scheduled) {event : Nat} :
    (event, messageIdentifier) ∈ store.events ↔
      (store.partialMessages messageIdentifier).bind PartialMessage.expiry = some event := by
  have hmem : (event, messageIdentifier) ∈ store.pending messageIdentifier ↔
      (event, messageIdentifier) ∈ store.events := by rw [mem_pending, and_iff_left rfl]
  rw [← hmem, h.pending_eq, List.mem_map]
  constructor
  · intro ⟨e, he, heq⟩
    cases heq
    exact Option.mem_toList.mp he
  · exact fun hexpiry => ⟨event, Option.mem_toList.mpr hexpiry, rfl⟩

/-- Cancelling the event of a message leaves those of the others. -/
theorem Scheduled.pending_cancel (h : store.Scheduled) (messageIdentifier other : UInt64) :
    (store.cancel ((store.partialMessages messageIdentifier).bind PartialMessage.expiry)).pending other =
      if other = messageIdentifier then [] else store.pending other := by
  rw [pending, cancel]
  dsimp only
  rw [List.filter_comm]
  change (store.pending other).filter _ = _
  split
  · rename_i hsame
    rw [hsame, h.pending_eq]
    cases (store.partialMessages messageIdentifier).bind PartialMessage.expiry with
    | none => rfl
    | some event =>
        rw [Option.toList_some, List.map_singleton, List.filter_singleton]
        simp
  · rename_i hother
    refine List.filter_eq_self.mpr fun e he => bne_iff_ne.mpr fun heq => hother ?_
    obtain ⟨hmem, hid⟩ := mem_pending.mp he
    have hevent := List.inj_on_of_nodup_map h.nodup hmem (h.mem_events.mpr heq.symm) rfl
    rw [← hid, hevent]

/-- The store with the message, and its new event. -/
def put (store : PartialMessageStore) (messageIdentifier : UInt64) (message : PartialMessage) : PartialMessageStore :=
  { store.cancel ((store.partialMessages messageIdentifier).bind PartialMessage.expiry) with
    partialMessages := Function.update store.partialMessages messageIdentifier
      (some { message with expiry := some store.nextEvent })
    events := (store.nextEvent, messageIdentifier) ::
      (store.cancel ((store.partialMessages messageIdentifier).bind PartialMessage.expiry)).events
    nextEvent := store.nextEvent + 1 }

theorem Scheduled.put (h : store.Scheduled) (messageIdentifier : UInt64) (message : PartialMessage) :
    (store.put messageIdentifier message).Scheduled where
  expiry m x hx := by
    dsimp only [PartialMessageStore.put] at hx
    rw [Function.update_apply] at hx
    split at hx
    · cases hx
      exact ⟨store.nextEvent, rfl⟩
    · exact h.expiry m x hx
  pending_eq m := by
    have hold := h.pending_cancel messageIdentifier m
    rw [pending] at hold ⊢
    dsimp only [PartialMessageStore.put]
    rw [Function.update_apply, List.filter_cons, hold]
    by_cases hm : m = messageIdentifier
    · rw [if_pos hm, if_pos hm, if_pos (beq_iff_eq.mpr hm.symm), hm]
      rfl
    · rw [if_neg hm, if_neg hm, if_neg fun heq => hm (beq_iff_eq.mp heq).symm]
      exact h.pending_eq m
  nodup := by
    dsimp only [PartialMessageStore.put]
    rw [List.map_cons, List.nodup_cons]
    refine ⟨fun hmem => ?_, h.nodup.sublist (List.filter_sublist.map _)⟩
    obtain ⟨e, he, heq⟩ := List.mem_map.mp hmem
    have hlt := h.lt e (List.mem_of_mem_filter he)
    omega
  lt e he := by
    dsimp only [PartialMessageStore.put] at he ⊢
    cases List.mem_cons.mp he with
    | inl hnew =>
        rw [hnew]
        exact Nat.lt_succ_self _
    | inr hold => exact Nat.lt_succ_of_lt (h.lt e (List.mem_of_mem_filter hold))

theorem Scheduled.erase (h : store.Scheduled) (messageIdentifier : UInt64) :
    (store.erase messageIdentifier).Scheduled where
  expiry m x hx := by
    dsimp only [PartialMessageStore.erase] at hx
    rw [Function.update_apply] at hx
    split at hx
    · cases hx
    · exact h.expiry m x hx
  pending_eq m := by
    have hold := h.pending_cancel messageIdentifier m
    rw [PartialMessageStore.erase]
    dsimp only
    rw [Function.update_apply]
    change (store.cancel _).pending m = _
    rw [hold]
    split
    · rfl
    · exact h.pending_eq m
  nodup := h.nodup.sublist (List.filter_sublist.map _)
  lt e he := h.lt e (List.mem_of_mem_filter he)

theorem WellFormed.counted_getD (h : store.WellFormed) (messageIdentifier : UInt64) :
    ((store.partialMessages messageIdentifier).getD .new).Counted := by
  cases hm : store.partialMessages messageIdentifier with
  | none => exact PartialMessage.new_counted
  | some message => exact (h.counted _ _ hm).1

/-- The event of the message is replaced by a new one; a complete message is erased. -/
theorem Scheduled.receive_eq (h : store.Scheduled) (codec : TlvCodec) (hmany : pkt.fragCount ≠ 1) {accepted : Bool}
    (hadd : ((store.partialMessages pkt.messageIdentifier).getD .new).add pkt.fragIndex pkt.fragCount pkt.payload =
      some (message, accepted)) :
    store.receive codec pkt = if message.isComplete then
        (message.reassemble codec).map fun reassembled =>
          ((store.put pkt.messageIdentifier message).erase pkt.messageIdentifier, reassembled)
      else some (store.put pkt.messageIdentifier message, none) := by
  have hexpiry : (store.partialMessages pkt.messageIdentifier).bind PartialMessage.expiry =
      ((store.partialMessages pkt.messageIdentifier).getD .new).expiry := by
    cases store.partialMessages pkt.messageIdentifier <;> rfl
  have hfresh : (some store.nextEvent != ((store.partialMessages pkt.messageIdentifier).bind
      PartialMessage.expiry)) = true := by
    refine bne_iff_ne.mpr fun heq => ?_
    have hlt := h.lt _ (h.mem_events.mpr heq.symm)
    exact absurd hlt (lt_irrefl _)
  rw [receive, if_neg hmany, scheduleCleanup, cancel, ← hexpiry]
  dsimp only
  rw [PartialMessage.add_expiry, hadd, Option.map_some, Option.bind_some, List.filter_cons, if_pos hfresh]
  rfl

/-- The message that has got a fragment: it has at least one, and one that is complete has the number of the packet. -/
theorem WellFormed.add_fragment (h : store.WellFormed) (hlt : pkt.fragIndex.toNat < pkt.fragCount.toNat) :
    ∃ message accepted, ((store.partialMessages pkt.messageIdentifier).getD .new).add pkt.fragIndex pkt.fragCount
        pkt.payload = some (message, accepted) ∧ message.Counted ∧ 0 < message.received ∧
      (message.isComplete = true → message.fragCount = pkt.fragCount.toNat) := by
  obtain ⟨message, accepted, hadd, hcounted, -, haccepted, hrefused⟩ :=
    (h.counted_getD pkt.messageIdentifier).add hlt pkt.payload
  refine ⟨message, accepted, hadd, hcounted, ?_⟩
  cases haccepted' : accepted with
  | true =>
      obtain ⟨hcount, hplace, hpayloads⟩ := haccepted haccepted'
      obtain ⟨hbound, -⟩ := List.getElem?_eq_some_iff.mp hplace
      refine ⟨?_, fun _ => hcount⟩
      rw [hcounted.received, List.countP_pos_iff, hpayloads]
      exact ⟨some pkt.payload, List.mem_set hbound _, rfl⟩
  | false =>
      obtain ⟨hsame, hreceived, -⟩ := hrefused haccepted'
      subst hsame
      refine ⟨Nat.pos_of_ne_zero hreceived, fun hcomplete => ?_⟩
      cases hm : store.partialMessages pkt.messageIdentifier with
      | none =>
          rw [hm] at hreceived
          exact absurd rfl hreceived
      | some stored =>
          rw [hm, Option.getD_some, PartialMessage.isComplete, beq_iff_eq] at hcomplete
          have hlt := (h.counted _ _ hm).2.2
          omega

/-- What receiving a fragment does: the message gets it, and is delivered and erased when that makes it complete. -/
theorem WellFormed.receive_fragment (h : store.WellFormed) (codec : TlvCodec) (hmany : pkt.fragCount ≠ 1)
    (hlt : pkt.fragIndex.toNat < pkt.fragCount.toNat) :
    ∃ message accepted, ((store.partialMessages pkt.messageIdentifier).getD .new).add pkt.fragIndex pkt.fragCount
        pkt.payload = some (message, accepted) ∧ message.Counted ∧
      (message.isComplete = true → message.fragCount = pkt.fragCount.toNat) ∧
      ∃ store', store.receive codec pkt = some (store', if message.isComplete then codec.fromBuffer message.octets
          else none) ∧ store'.WellFormed ∧
        store'.partialMessages = Function.update store.partialMessages pkt.messageIdentifier
          (if message.isComplete then none else some { message with expiry := some store.nextEvent }) := by
  obtain ⟨message, accepted, hadd, hcounted, hpositive, hcount⟩ := h.add_fragment hlt
  refine ⟨message, accepted, hadd, hcounted, hcount, ?_⟩
  have hscheduled := h.toScheduled.put pkt.messageIdentifier message
  rw [h.receive_eq codec hmany hadd]
  cases hcomplete : message.isComplete with
  | true =>
      rw [if_pos rfl, if_pos rfl, if_pos rfl, hcounted.reassemble hcomplete, Option.map_some]
      refine ⟨_, rfl, ⟨hscheduled.erase _, fun m x hx => ?_⟩, ?_⟩
      · dsimp only [PartialMessageStore.erase, put] at hx
        rw [Function.update_idem, Function.update_apply] at hx
        split at hx
        · cases hx
        · exact h.counted m x hx
      · exact Function.update_idem _ _ _
  | false =>
      rw [if_neg Bool.false_ne_true, if_neg Bool.false_ne_true, if_neg Bool.false_ne_true]
      have hmissing : message.received < message.fragCount := by
        refine lt_of_le_of_ne hcounted.received_le fun heq => ?_
        rw [PartialMessage.isComplete, heq, beq_self_eq_true] at hcomplete
        cases hcomplete
      refine ⟨_, rfl, ⟨hscheduled, fun m x hx => ?_⟩, rfl⟩
      dsimp only [put] at hx
      rw [Function.update_apply] at hx
      split at hx
      · cases hx
        exact ⟨⟨hcounted.length, hcounted.received, hcounted.totalLength⟩, hpositive, hmissing⟩
      · exact h.counted m x hx

/-- An event that fires erases its message. -/
theorem WellFormed.fire (h : store.WellFormed) {event : Nat} {store' : PartialMessageStore}
    (hfire : store.fire event = some store') :
    ∃ messageIdentifier, store' = store.erase messageIdentifier ∧ store'.WellFormed := by
  obtain ⟨⟨first, messageIdentifier⟩, hfind, rfl⟩ := Option.map_eq_some_iff.mp hfire
  have hevent : first = event := beq_iff_eq.mp (List.find?_some (p := fun e : Nat × UInt64 => e.1 == event) hfind)
  subst hevent
  have hexpiry := h.mem_events.mp (List.mem_of_find?_eq_some hfind)
  have hcancelled : (store.cancel (some first)).erase messageIdentifier = store.erase messageIdentifier := by
    rw [erase, erase]
    dsimp only [cancel]
    rw [hexpiry, List.filter_filter]
    simp only [Bool.and_self]
  rw [hcancelled]
  refine ⟨messageIdentifier, rfl, h.toScheduled.erase messageIdentifier, fun m x hx => ?_⟩
  dsimp only [erase] at hx
  rw [Function.update_apply] at hx
  split at hx
  · cases hx
  · exact h.counted m x hx

end PartialMessageStore

/-! ### Runs -/

inductive StoreEvent where
  | receive (pkt : NdnlpData)
  | fire (event : Nat)

/-- A store with the packets that it has received, and what it has delivered on which. -/
structure Session where
  store : PartialMessageStore
  packets : List NdnlpData
  delivered : List (NdnlpData × Block)

namespace Session

def start : Session := { store := .empty, packets := [], delivered := [] }

def step (codec : TlvCodec) (session : Session) : StoreEvent → Option Session
  | .receive pkt =>
      (session.store.receive codec pkt).map fun (store, reassembled) =>
        { store, packets := session.packets ++ [pkt],
          delivered := session.delivered ++ reassembled.toList.map fun block => (pkt, block) }
  | .fire event => (session.store.fire event).map fun store => { session with store }

/-- A packet that is received is one that `fromBlock` accepts. -/
def Accepts (codec : TlvCodec) (_ : Session) : StoreEvent → Prop
  | .receive pkt => pkt.Accepted codec
  | .fire _ => True

/-- The block that is delivered on a packet of several consists of the payloads of the packets at the positions, the
fragments of one message in order. -/
def AssembledFrom (codec : TlvCodec) (packets : List NdnlpData) (delivery : NdnlpData × Block)
    (positions : List Nat) : Prop :=
  delivery.1.fragCount ≠ 1 → ∃ fragments : List NdnlpData,
    positions.map (fun k => packets[k]?) = fragments.map some ∧
    fragments.length = delivery.1.fragCount.toNat ∧
    (∀ i (p : NdnlpData), fragments[i]? = some p → p.fragIndex.toNat = i ∧ p.fragCount = delivery.1.fragCount ∧
      p.messageIdentifier = delivery.1.messageIdentifier) ∧
    codec.fromBuffer (fragments.flatMap fun p => p.payload.value) = some delivery.2

/-- The payloads of the partial messages are of packets that have not been used. -/
structure Traced (codec : TlvCodec) (session : Session) (sources : List (List Nat)) : Prop where
  wellFormed : session.store.WellFormed
  delivered : List.Forall₂ (AssembledFrom codec session.packets) session.delivered sources
  nodup : sources.flatten.Nodup
  lt : ∀ k ∈ sources.flatten, k < session.packets.length
  stored : ∀ messageIdentifier message i b, session.store.partialMessages messageIdentifier = some message →
    message.payloads[i]? = some (some b) → ∃ k p, session.packets[k]? = some p ∧ k ∉ sources.flatten ∧
      p.payload = b ∧ p.fragIndex.toNat = i ∧ p.fragCount.toNat = message.fragCount ∧
      p.messageIdentifier = messageIdentifier

variable {session session' : Session} {sources : List (List Nat)}

theorem getElem?_append_of_some {packets : List NdnlpData} {k : Nat} {p : NdnlpData} (h : packets[k]? = some p)
    (pkt : NdnlpData) : (packets ++ [pkt])[k]? = some p := by
  rw [List.getElem?_append_left (List.getElem?_eq_some_iff.mp h).1, h]

theorem AssembledFrom.append {packets : List NdnlpData} {delivery : NdnlpData × Block} {positions : List Nat}
    (h : AssembledFrom codec packets delivery positions) (pkt : NdnlpData) :
    AssembledFrom codec (packets ++ [pkt]) delivery positions := by
  intro hmany
  obtain ⟨fragments, hpositions, hrest⟩ := h hmany
  refine ⟨fragments, ?_, hrest⟩
  rw [← hpositions]
  refine List.map_congr_left fun k hk => ?_
  have hsome : packets[k]? ∈ fragments.map some := hpositions ▸ List.mem_map_of_mem hk
  obtain ⟨p, -, hp⟩ := List.mem_map.mp hsome
  rw [← hp, getElem?_append_of_some hp.symm]

/-- A packet is received, and what is delivered on it, if anything, is from the positions. -/
theorem Traced.deliver (h : Traced codec session sources) {store : PartialMessageStore} (hwf : store.WellFormed)
    (reassembled : Option Block) (positions : List Nat) (hnodup : positions.Nodup)
    (hnew : ∀ k ∈ positions, k ∉ sources.flatten ∧ k < session.packets.length + 1)
    (hassembled : ∀ block, reassembled = some block →
      AssembledFrom codec (session.packets ++ [pkt]) (pkt, block) positions)
    (hstored : ∀ messageIdentifier message i b, store.partialMessages messageIdentifier = some message →
      message.payloads[i]? = some (some b) → ∃ k p, (session.packets ++ [pkt])[k]? = some p ∧ k ∉ sources.flatten ∧
        k ∉ positions ∧ p.payload = b ∧ p.fragIndex.toNat = i ∧ p.fragCount.toNat = message.fragCount ∧
        p.messageIdentifier = messageIdentifier) :
    ∃ sources', Traced codec
      { store, packets := session.packets ++ [pkt],
        delivered := session.delivered ++ reassembled.toList.map fun block => (pkt, block) } sources' := by
  have hlength : (session.packets ++ [pkt]).length = session.packets.length + 1 := List.length_append
  have hdelivered : List.Forall₂ (AssembledFrom codec (session.packets ++ [pkt])) session.delivered sources :=
    h.delivered.imp fun _ _ hassembled => hassembled.append pkt
  cases reassembled with
  | none =>
      refine ⟨sources, hwf, ?_, h.nodup, fun k hk => ?_, fun messageIdentifier message i b hmessage hplace => ?_⟩
      · rw [Option.toList_none, List.map_nil, List.append_nil]
        exact hdelivered
      · rw [hlength]
        exact Nat.lt_succ_of_lt (h.lt k hk)
      · obtain ⟨k, p, hp, hunused, -, hrest⟩ := hstored messageIdentifier message i b hmessage hplace
        exact ⟨k, p, hp, hunused, hrest⟩
  | some block =>
      have hflatten : (sources ++ [positions]).flatten = sources.flatten ++ positions := by
        rw [List.flatten_append, List.flatten_singleton]
      refine ⟨sources ++ [positions], hwf, ?_, ?_, fun k hk => ?_,
        fun messageIdentifier message i b hmessage hplace => ?_⟩
      · exact List.rel_append hdelivered (.cons (hassembled block rfl) .nil)
      · rw [hflatten]
        exact h.nodup.append hnodup fun k hk hpos => (hnew k hpos).1 hk
      · rw [hflatten] at hk
        rw [hlength]
        cases List.mem_append.mp hk with
        | inl hold => exact Nat.lt_succ_of_lt (h.lt k hold)
        | inr hpos => exact (hnew k hpos).2
      · obtain ⟨k, p, hp, hunused, hother, hrest⟩ := hstored messageIdentifier message i b hmessage hplace
        refine ⟨k, p, hp, ?_, hrest⟩
        rw [hflatten, List.mem_append, not_or]
        exact ⟨hunused, hother⟩

theorem Traced.receive_single (h : Traced codec session sources) (hsingle : pkt.fragCount = 1) :
    ∃ session', session.step codec (.receive pkt) = some session' ∧ ∃ sources', Traced codec session' sources' := by
  have hreceive : session.store.receive codec pkt =
      some (session.store, codec.blockFromValue pkt.payload.value) := by
    rw [PartialMessageStore.receive, if_pos hsingle, PartialMessage.reassembleSingle, if_pos hsingle, Option.map_some]
  refine ⟨_, by rw [step, hreceive, Option.map_some], ?_⟩
  refine h.deliver h.wellFormed (codec.blockFromValue pkt.payload.value) [] List.nodup_nil (fun k hk => nomatch hk)
    (fun _ _ hmany => absurd hsingle hmany) fun messageIdentifier message i b hmessage hplace => ?_
  obtain ⟨k, p, hp, hunused, hrest⟩ := h.stored messageIdentifier message i b hmessage hplace
  exact ⟨k, p, getElem?_append_of_some hp pkt, hunused, List.not_mem_nil, hrest⟩

/-- The payloads of a message that a packet has been added to are of packets that have not been used. -/
theorem Traced.stored_of_add (h : Traced codec session sources) (hlt : pkt.fragIndex.toNat < pkt.fragCount.toNat)
    {message : PartialMessage} {accepted : Bool}
    (hadd : ((session.store.partialMessages pkt.messageIdentifier).getD .new).add pkt.fragIndex pkt.fragCount
      pkt.payload = some (message, accepted)) (i : Nat) (b : Block) (hplace : message.payloads[i]? = some (some b)) :
    ∃ k p, (session.packets ++ [pkt])[k]? = some p ∧ k ∉ sources.flatten ∧ p.payload = b ∧ p.fragIndex.toNat = i ∧
      p.fragCount.toNat = message.fragCount ∧ p.messageIdentifier = pkt.messageIdentifier := by
  cases (h.wellFormed.counted_getD pkt.messageIdentifier).payload_of_add hlt hadd hplace with
  | inl hnew =>
      refine ⟨session.packets.length, pkt, ?_, fun hk => lt_irrefl _ (h.lt _ hk), hnew.2.1.symm, hnew.1.symm,
        hnew.2.2.symm, rfl⟩
      rw [List.getElem?_append_right le_rfl, Nat.sub_self]
      rfl
  | inr hold =>
      cases hm : session.store.partialMessages pkt.messageIdentifier with
      | none =>
          rw [hm] at hold
          cases hold.1
      | some old =>
          rw [hm, Option.getD_some] at hold
          obtain ⟨k, p, hp, hunused, hpayload, hindex, hcount, hid⟩ := h.stored _ _ i b hm hold.1
          exact ⟨k, p, getElem?_append_of_some hp pkt, hunused, hpayload, hindex, hcount.trans hold.2.symm, hid⟩

/-- The other messages are as they were. -/
theorem Traced.stored_other (h : Traced codec session sources) (pkt : NdnlpData) {messageIdentifier : UInt64}
    {message : PartialMessage} {i : Nat} {b : Block}
    (hm : session.store.partialMessages messageIdentifier = some message)
    (hplace : message.payloads[i]? = some (some b)) :
    ∃ k p, (session.packets ++ [pkt])[k]? = some p ∧ k ∉ sources.flatten ∧ p.payload = b ∧ p.fragIndex.toNat = i ∧
      p.fragCount.toNat = message.fragCount ∧ p.messageIdentifier = messageIdentifier := by
  obtain ⟨k, p, hp, hrest⟩ := h.stored messageIdentifier message i b hm hplace
  exact ⟨k, p, getElem?_append_of_some hp pkt, hrest⟩

/-- A message that is not complete yet is stored with the payload, and nothing is delivered. -/
theorem Traced.receive_incomplete (h : Traced codec session sources) (hlt : pkt.fragIndex.toNat < pkt.fragCount.toNat)
    {message : PartialMessage} {accepted : Bool}
    (hadd : ((session.store.partialMessages pkt.messageIdentifier).getD .new).add pkt.fragIndex pkt.fragCount
      pkt.payload = some (message, accepted))
    {store : PartialMessageStore} (hwf : store.WellFormed) {expiry : Option Nat}
    (hmessages : store.partialMessages = Function.update session.store.partialMessages pkt.messageIdentifier
      (some { message with expiry })) :
    ∃ sources', Traced codec
      { store, packets := session.packets ++ [pkt],
        delivered := session.delivered ++ (none : Option Block).toList.map fun block => (pkt, block) } sources' := by
  refine h.deliver hwf none [] List.nodup_nil (fun k hk => nomatch hk) (fun _ hnone => nomatch hnone)
    fun messageIdentifier stored i b hm hplace => ?_
  rw [hmessages, Function.update_apply] at hm
  split at hm
  · rename_i hsame
    cases hm
    obtain ⟨k, p, hp, hunused, hpayload, hindex, hcount, hid⟩ := h.stored_of_add hlt hadd i b hplace
    exact ⟨k, p, hp, hunused, List.not_mem_nil, hpayload, hindex, hcount, hid.trans hsame.symm⟩
  · obtain ⟨k, p, hp, hunused, hrest⟩ := h.stored_other pkt hm hplace
    exact ⟨k, p, hp, hunused, List.not_mem_nil, hrest⟩

/-- The packets that a complete message has its payloads of, in the order of their indexes. -/
structure Fragments (packets : List NdnlpData) (message : PartialMessage) (messageIdentifier : UInt64)
    (position : Nat → Nat) (fragment : Nat → NdnlpData) : Prop where
  packet : ∀ i < message.fragCount, packets[position i]? = some (fragment i)
  payload : ∀ i < message.fragCount, message.payloads[i]? = some (some (fragment i).payload)
  fragIndex : ∀ i < message.fragCount, (fragment i).fragIndex.toNat = i
  fragCount : ∀ i < message.fragCount, (fragment i).fragCount.toNat = message.fragCount
  messageIdentifier : ∀ i < message.fragCount, (fragment i).messageIdentifier = messageIdentifier

section Complete

variable {packets : List NdnlpData} {message : PartialMessage} {messageIdentifier : UInt64} {position : Nat → Nat}
  {fragment : Nat → NdnlpData}

theorem Traced.fragments_of_add (h : Traced codec session sources) (hlt : pkt.fragIndex.toNat < pkt.fragCount.toNat)
    {accepted : Bool}
    (hadd : ((session.store.partialMessages pkt.messageIdentifier).getD .new).add pkt.fragIndex pkt.fragCount
      pkt.payload = some (message, accepted)) (hcounted : message.Counted) (hcomplete : message.isComplete = true) :
    ∃ position fragment, Fragments (session.packets ++ [pkt]) message pkt.messageIdentifier position fragment ∧
      ∀ i < message.fragCount, position i ∉ sources.flatten := by
  have hplaces : ∀ i, i < message.fragCount → ∃ k p, (session.packets ++ [pkt])[k]? = some p ∧
      k ∉ sources.flatten ∧ message.payloads[i]? = some (some p.payload) ∧ p.fragIndex.toNat = i ∧
      p.fragCount.toNat = message.fragCount ∧ p.messageIdentifier = pkt.messageIdentifier := by
    intro i hi
    have hbound : i < message.payloads.length := hcounted.length.symm ▸ hi
    obtain ⟨b, hb⟩ := Option.isSome_iff_exists.mp
      (hcounted.isComplete_iff.mp hcomplete _ (List.getElem_mem hbound))
    have hplace : message.payloads[i]? = some (some b) := by rw [List.getElem?_eq_getElem hbound, hb]
    obtain ⟨k, p, hp, hunused, hpayload, hrest⟩ := h.stored_of_add hlt hadd i b hplace
    exact ⟨k, p, hp, hunused, hpayload.symm ▸ hplace, hrest⟩
  have : Nonempty NdnlpData := ⟨pkt⟩
  choose! position fragment hfragment hunused hpayload hindex hsame hid using hplaces
  exact ⟨position, fragment, ⟨hfragment, hpayload, hindex, hsame, hid⟩, hunused⟩

theorem Fragments.nodup (h : Fragments packets message messageIdentifier position fragment) :
    ((List.range message.fragCount).map position).Nodup := by
  refine List.nodup_range.map_on fun i hi j hj heq => ?_
  rw [List.mem_range] at hi hj
  have hfragments := h.packet i hi
  rw [heq, h.packet j hj, Option.some.injEq] at hfragments
  rw [← h.fragIndex i hi, ← h.fragIndex j hj, hfragments]

theorem Fragments.payloads_eq (h : Fragments packets message messageIdentifier position fragment)
    (hcounted : message.Counted) :
    message.payloads = (List.range message.fragCount).map fun i => some (fragment i).payload := by
  apply List.ext_getElem?
  intro i
  by_cases hi : i < message.fragCount
  · rw [h.payload i hi, List.getElem?_map, List.getElem?_range hi, Option.map_some]
  · rw [List.getElem?_eq_none (by rw [hcounted.length]; omega), List.getElem?_eq_none]
    rw [List.length_map, List.length_range]
    omega

/-- A complete message is put together from its fragments. -/
theorem Fragments.assembled (h : Fragments packets message pkt.messageIdentifier position fragment)
    (hcounted : message.Counted) (hcount : message.fragCount = pkt.fragCount.toNat) {block : Block}
    (hblock : codec.fromBuffer message.octets = some block) :
    AssembledFrom codec packets (pkt, block) ((List.range message.fragCount).map position) := by
  refine fun _ => ⟨(List.range message.fragCount).map fragment, ?_, ?_, fun i p hp => ?_, ?_⟩
  · rw [List.map_map, List.map_map]
    exact List.map_congr_left fun i hi => h.packet i (List.mem_range.mp hi)
  · rw [List.length_map, List.length_range]
    exact hcount
  · rw [List.getElem?_map] at hp
    obtain ⟨j, hj, rfl⟩ := Option.map_eq_some_iff.mp hp
    obtain ⟨hi, rfl⟩ := List.getElem?_eq_some_iff.mp hj
    rw [List.length_range] at hi
    rw [List.getElem_range]
    exact ⟨h.fragIndex i hi, UInt16.toNat_inj.mp ((h.fragCount i hi).trans hcount), h.messageIdentifier i hi⟩
  · rw [← hblock, PartialMessage.octets, h.payloads_eq hcounted, List.flatMap_map, List.flatMap_map]
    rfl

/-- A complete message is delivered and no longer stored; its packets are now used. -/
theorem Traced.receive_complete (h : Traced codec session sources)
    (hfragments : Fragments (session.packets ++ [pkt]) message pkt.messageIdentifier position fragment)
    (hunused : ∀ i < message.fragCount, position i ∉ sources.flatten) (hcounted : message.Counted)
    (hcount : message.fragCount = pkt.fragCount.toNat) {store : PartialMessageStore} (hwf : store.WellFormed)
    (hmessages : store.partialMessages = Function.update session.store.partialMessages pkt.messageIdentifier none) :
    ∃ sources', Traced codec
      { store, packets := session.packets ++ [pkt],
        delivered := session.delivered ++ (codec.fromBuffer message.octets).toList.map fun block => (pkt, block) }
      sources' := by
  refine h.deliver hwf (codec.fromBuffer message.octets) ((List.range message.fragCount).map position)
    hfragments.nodup (fun k hk => ?_) (fun block hblock => hfragments.assembled hcounted hcount hblock)
    fun messageIdentifier stored i b hm hplace => ?_
  · obtain ⟨i, hi, rfl⟩ := List.mem_map.mp hk
    rw [List.mem_range] at hi
    refine ⟨hunused i hi, ?_⟩
    have hbound := (List.getElem?_eq_some_iff.mp (hfragments.packet i hi)).1
    rwa [List.length_append] at hbound
  · rw [hmessages, Function.update_apply] at hm
    split at hm
    · cases hm
    · rename_i hother
      obtain ⟨k, p, hp, hnot, hpayload, hindex, hsame, hid⟩ := h.stored_other pkt hm hplace
      refine ⟨k, p, hp, hnot, fun hk => hother ?_, hpayload, hindex, hsame, hid⟩
      obtain ⟨j, hj, rfl⟩ := List.mem_map.mp hk
      rw [List.mem_range] at hj
      rw [hfragments.packet j hj] at hp
      cases hp
      exact hid.symm.trans (hfragments.messageIdentifier j hj)

end Complete

theorem Traced.receive_fragment (h : Traced codec session sources) (hmany : pkt.fragCount ≠ 1)
    (hlt : pkt.fragIndex.toNat < pkt.fragCount.toNat) :
    ∃ session', session.step codec (.receive pkt) = some session' ∧ ∃ sources', Traced codec session' sources' := by
  obtain ⟨message, accepted, hadd, hcounted, hcount, store', hreceive, hwf, hmessages⟩ :=
    h.wellFormed.receive_fragment codec hmany hlt
  refine ⟨_, by rw [step, hreceive, Option.map_some], ?_⟩
  cases hcomplete : message.isComplete with
  | false =>
      rw [hcomplete, if_neg Bool.false_ne_true] at hmessages
      rw [if_neg Bool.false_ne_true]
      exact h.receive_incomplete hlt hadd hwf hmessages
  | true =>
      rw [hcomplete, if_pos rfl] at hmessages
      rw [if_pos rfl]
      obtain ⟨position, fragment, hfragments, hunused⟩ := h.fragments_of_add hlt hadd hcounted hcomplete
      exact h.receive_complete hfragments hunused hcounted (hcount hcomplete) hwf hmessages

theorem Traced.fire (h : Traced codec session sources) {event : Nat}
    (hstep : session.step codec (.fire event) = some session') : Traced codec session' sources := by
  obtain ⟨store', hfire, rfl⟩ := Option.map_eq_some_iff.mp hstep
  obtain ⟨messageIdentifier, rfl, hwf⟩ := h.wellFormed.fire hfire
  refine ⟨hwf, h.delivered, h.nodup, h.lt, fun m stored i b hm => h.stored m stored i b ?_⟩
  dsimp only [PartialMessageStore.erase] at hm
  rw [Function.update_apply] at hm
  split at hm
  · cases hm
  · exact hm

theorem Traced.receive (h : Traced codec session sources) (hpkt : pkt.Accepted codec) :
    ∃ session', session.step codec (.receive pkt) = some session' ∧ ∃ sources', Traced codec session' sources' := by
  by_cases hsingle : pkt.fragCount = 1
  · exact h.receive_single hsingle
  · exact h.receive_fragment hsingle hpkt.fragIndex_lt

/-- A message that is stored has some of its fragments, but not all, and one pending cleanup event. -/
structure Incomplete (store : PartialMessageStore) (messageIdentifier : UInt64) (message : PartialMessage) : Prop where
  isComplete : message.isComplete = false
  received : message.received = message.payloads.countP Option.isSome
  length : message.payloads.length = message.fragCount
  bounds : 1 ≤ message.received ∧ message.received ≤ message.fragCount - 1
  event : ∃ event, message.expiry = some event ∧ store.pending messageIdentifier = [(event, messageIdentifier)]

/-- Whatever packets have arrived and events have fired, the next packet fails no assertion, the partial messages are
incomplete and are cleaned up, and every block that was delivered on fragments is made of one payload for each index,
none of which was used for another. -/
theorem reassembly_robust (codec : TlvCodec) (session : Session)
    (hr : Reach (step codec) (Accepts codec) start session) :
    (∀ pkt : NdnlpData, pkt.Accepted codec → ∃ session', session.step codec (.receive pkt) = some session') ∧
    (∀ messageIdentifier message, session.store.partialMessages messageIdentifier = some message →
      Incomplete session.store messageIdentifier message) ∧
    ∃ sources : List (List Nat), List.Forall₂ (AssembledFrom codec session.packets) session.delivered sources ∧
      sources.flatten.Nodup := by
  have htraced : ∃ sources, Traced codec session sources := by
    refine hr.invariant (I := fun session => ∃ sources, Traced codec session sources)
      ⟨[], PartialMessageStore.empty_wellFormed, .nil, List.nodup_nil, fun k hk => (nomatch hk),
        fun _ _ _ _ hm => (nomatch hm)⟩ fun session event session' hsession hok hstep => ?_
    obtain ⟨sources, h⟩ := hsession
    cases event with
    | receive pkt =>
        obtain ⟨session₁, hstep₁, hnext⟩ := h.receive hok
        rw [hstep] at hstep₁
        cases hstep₁
        exact hnext
    | fire event => exact ⟨sources, h.fire hstep⟩
  obtain ⟨sources, h⟩ := htraced
  refine ⟨fun pkt hpkt => ?_, fun messageIdentifier message hm => ?_, sources, h.delivered, h.nodup⟩
  · obtain ⟨session', hstep, -⟩ := h.receive hpkt
    exact ⟨session', hstep⟩
  · obtain ⟨hcounted, hpos, hlt⟩ := h.wellFormed.counted messageIdentifier message hm
    obtain ⟨event, hevent⟩ := h.wellFormed.expiry messageIdentifier message hm
    refine ⟨?_, hcounted.received, hcounted.length, ⟨hpos, by omega⟩, event, hevent, ?_⟩
    · rw [PartialMessage.isComplete, beq_eq_false_iff_ne]
      omega
    · rw [h.wellFormed.pending_eq, hm, Option.bind_some, hevent]
      rfl

/-- A fragment of a message of two octets. -/
def sampleFragment (seq : UInt64) (fragIndex : UInt16) (octet : UInt8) : NdnlpData :=
  { seq, fragIndex, fragCount := 2, payload := Tlv.codec.block tlvNdnlpPayload [octet] }

/-- The wire encoding of a fragment. -/
def sampleWire (pkt : NdnlpData) : Block :=
  Tlv.codec.block tlvNdnlpData (Tlv.codec.encode tlvNdnlpSequence (bigEndian 8 pkt.seq.toNat) ++
    Tlv.codec.encode tlvNdnlpFragIndex (Tlv.codec.nonNegativeInteger pkt.fragIndex.toNat) ++
    Tlv.codec.encode tlvNdnlpFragCount (Tlv.codec.nonNegativeInteger pkt.fragCount.toNat) ++
    Tlv.codec.encode tlvNdnlpPayload pkt.payload.value)

/-- The second fragment of a message whose numbers wrap around, one of another message, and the first. -/
theorem reassembly_robust_two_messages : ∃ session, exec (step Tlv.codec) start
    [.receive (sampleFragment 0 1 0), .receive (sampleFragment 7 0 1), .receive (sampleFragment (2 ^ 64 - 1) 0 1)] =
      some session ∧ session.delivered.map Prod.snd = [Tlv.codec.block 1 []] ∧
    ∃ sources : List (List Nat), List.Forall₂ (AssembledFrom Tlv.codec session.packets) session.delivered sources ∧
      sources.flatten.Nodup := by
  have hrun : ((exec (guarded (step Tlv.codec) fun _ event =>
      match event with
      | .receive pkt => decide (NdnlpData.fromBlock Tlv.codec (sampleWire pkt) = some pkt)
      | .fire _ => true) start [.receive (sampleFragment 0 1 0), .receive (sampleFragment 7 0 1),
        .receive (sampleFragment (2 ^ 64 - 1) 0 1)]).any fun session =>
          decide (session.delivered.map Prod.snd = [Tlv.codec.block 1 []])) = true := by decide +kernel
  obtain ⟨session, hsession, hdelivered⟩ := (Option.any_eq_true _ _).mp hrun
  have hr : Reach (step Tlv.codec) (Accepts Tlv.codec) start session := by
    refine (reach_of_exec_guarded Reach.start hsession).mono fun _ event hok => ?_
    cases event with
    | receive pkt => exact ⟨sampleWire pkt, of_decide_eq_true hok⟩
    | fire event => trivial
  exact ⟨session, exec_of_guarded hsession, of_decide_eq_true hdelivered, (reassembly_robust Tlv.codec session hr).2.2⟩

end Session
end NfdPitless.Ndnlp
