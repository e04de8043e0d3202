import NfdPitless.BridgeForwarder
import NfdPitless.ForwarderTimers

/-! PIT entries and timers in the bridge forwarder. The timers of an entry are cancelled before the
content store is searched, and on a hit they are not set again, so an entry that the content store
answers is never erased. Without hits, and with no Interest dropped for its Nonce, every entry has a
timer. -/

namespace NfdPitless.BridgeForwarder

open Forwarder

variable {κ : Type} {P : Platform κ} {supportingName : Name} {s s' : ForwarderState κ} {r : Ref}

/-- No Interest is dropped by the duplicate Nonce check. -/
def notDropped (P : Platform κ) (s : ForwarderState κ) : Event → Bool
  | .incomingInterest inFace interest _ _ =>
      isViolatingLocalhost P inFace interest.name ||
        (entryFor P s interest).all fun e => !hasDuplicateNonce P s e inFace interest
  | _ => true

/-- An Interest whose PIT entry is not pending is not found in the content store. -/
def notAnswered (P : Platform κ) (s : ForwarderState κ) : Event → Bool
  | .incomingInterest inFace interest _ _ =>
      isViolatingLocalhost P inFace interest.name ||
        (entryFor P s interest).all fun e =>
          decide (e.inRecords ≠ []) || (P.store.find s.cs s.now interest).2.isNone
  | _ => true

/-- Every PIT entry has a pending timer. -/
def NoUntimedEntry (s : ForwarderState κ) : Prop :=
  ∀ r e, s.pit.entries r = some e → e.unsatisfyTimer.isSome ∨ e.stragglerTimer.isSome

theorem allTimed_incomingInterest (h : AllTimed s) {inFace : Face} {interest : Interest}
    {nexthops : List Face}
    {strategy : StrategyInstance} (hkept : notDropped P s (.incomingInterest inFace interest nexthops strategy) = true)
    (hmiss : notAnswered P s (.incomingInterest inFace interest nexthops strategy) = true)
    (hstep : onIncomingInterest P supportingName s inFace interest nexthops strategy = some s') : AllTimed s' := by
  rcases onIncomingInterest_cases hstep with ⟨-, rfl⟩ | ⟨hv, pit, r, isNew, e, hins, he, hcases⟩
  · exact ⟨h.linked, h.timed⟩
  obtain ⟨hlinked, hother, -⟩ := h.linked.insert_spec hins he
  rcases hcases with ⟨hdup, -⟩ | ⟨-, hempty, cs, data, hfind, -⟩ | ⟨-, -, cs, rfl⟩
  · simp [notDropped, hv, entryFor, hins, he, hdup] at hkept
  · simp [notAnswered, hv, entryFor, hins, he, hempty, hfind] at hmiss
  · refine h.of_entries ?_ fun x e' he' => ?_
    · rw [onContentStoreMiss_pit]
      exact linked_setUnsatisfyTimer (linked_insertInRecord (linked_cancel hlinked r) r _ _ _) r
    · rw [onContentStoreMiss_pit] at he'
      by_cases hx : x = r
      · subst hx
        simp only [admitted, setUnsatisfyTimer, cancelUnsatisfyAndStragglerTimer, entries_modify, if_true,
          Option.map_map] at he'
        obtain ⟨e₀, -, rfl⟩ := Option.map_eq_some_iff.mp he'
        have hne : (e₀.insertOrUpdateInRecord s.now inFace { interest with supportingName }).inRecords ≠ [] :=
          Lists.replaceOrCons_ne_nil _ _ _
        obtain ⟨record, hrecord⟩ := Lists.maxElement_isSome
          (fun a b : InRecord => decide (a.expiry < b.expiry)) hne
        exact Or.inr ⟨Or.inl ⟨Option.isSome_map.trans (Option.isSome_iff_exists.mpr ⟨record, hrecord⟩), rfl⟩,
          fun _ => hne⟩
      · simp only [admitted, setUnsatisfyTimer, cancelUnsatisfyAndStragglerTimer, entries_modify, if_neg hx] at he'
        exact Or.inl ((hother x hx).symm.trans he')

theorem allTimed_incomingData (h : AllTimed s) {inFace : Face} {data : Data}
    (hstep : onIncomingData P s inFace data = some s') : AllTimed s' := by
  have hsame : ∀ {s₁ : ForwarderState κ}, AllTimed s → s₁.pit = s.pit → AllTimed s₁ := by
    intro s₁ h hpit
    exact ⟨hpit ▸ h.linked, fun he => h.timed (hpit ▸ he)⟩
  rcases onIncomingData_cases hstep with rfl | rfl | ⟨result, hresult, rfl⟩
  · exact hsame h rfl
  · exact hsame h (onDataUnsolicited_pit _ inFace data)
  · have hall : AllTimed result.1 := by
      refine satisfyAll_invariant (I := AllTimed) (fun _ _ _ h hs => h.satisfyEntry hs) _ ?_ hresult
      exact hsame h rfl
    have hpit := sendToDownstreams_pit (P := P) inFace (resetName data) result.2 result.1
    exact ⟨hpit ▸ hall.linked, fun he => hall.timed (hpit ▸ he)⟩

/-- Every step that drops and answers nothing keeps a timer on every entry. -/
theorem allTimed_step (h : AllTimed s) {event : Event} (hkept : notDropped P s event = true)
    (hmiss : notAnswered P s event = true) (hstep : step P supportingName s event = some s') : AllTimed s' := by
  rcases step_cases hstep with ⟨inFace, interest, nexthops, strategy, rfl, hrun⟩ | ⟨inFace, data, rfl, hrun⟩ |
    ⟨base, hbase, hrun⟩
  · exact allTimed_incomingInterest h hkept hmiss hrun
  · exact allTimed_incomingData h hrun
  · refine h.step ?_ hrun
    cases event with
    | incomingInterest inFace interest nexthops => cases hbase
    | incomingData inFace data => cases hbase
    | _ =>
        cases hbase
        exact trivial

/-- In every run in which no Interest is dropped by the duplicate Nonce check and none is answered by
the content store, every PIT entry has a pending timer. -/
theorem pit_entries_timed (P : Platform κ) (supportingName : Name) (nBuckets : Nat)
    (faceId : Face → Option Nat) (cs : κ) (s : ForwarderState κ)
    (hr : Reach (step P supportingName) (fun s event => notDropped P s event = true ∧ notAnswered P s event = true)
      (ForwarderState.new nBuckets faceId cs) s) : NoUntimedEntry s := by
  have htimed := hr.invariant (new_allTimed nBuckets faceId cs) fun _ _ _ h hok hs =>
    allTimed_step h hok.1 hok.2 hs
  intro r e he
  obtain ⟨⟨hu, -⟩ | ⟨-, hs⟩, -⟩ := htimed.timed he
  · exact Or.inl hu
  · exact Or.inr hs

/-- Every answer from the content store leaves its PIT entry without timer. -/
theorem content_store_hit_untimed {inFace : Face} {interest : Interest} {nexthops : List Face}
    {strategy : StrategyInstance}
    (hkept : notDropped P s (.incomingInterest inFace interest nexthops strategy) = true)
    (hhit : notAnswered P s (.incomingInterest inFace interest nexthops strategy) = false)
    (hstep : step P supportingName s (.incomingInterest inFace interest nexthops strategy) = some s') :
    ¬ NoUntimedEntry s' := by
  intro hall
  rcases onIncomingInterest_cases hstep with ⟨hv, -⟩ | ⟨hv, pit, r, isNew, e, hins, he, hcases⟩
  · simp [notAnswered, hv] at hhit
  rcases hcases with ⟨hdup, -⟩ | ⟨-, -, cs, data, -, rfl⟩ | ⟨-, hnone, -⟩
  · simp [notDropped, hv, entryFor, hins, he, hdup] at hkept
  · have hentry : (onOutgoingData P (cancelUnsatisfyAndStragglerTimer
        { withPit s inFace interest pit with cs } r) data inFace).pit.entries r =
        some { e with unsatisfyTimer := none, stragglerTimer := none } := by
      rw [onOutgoingData_pit, cancelUnsatisfyAndStragglerTimer, entries_modify, if_pos rfl]
      simp [withPit, he]
    rcases hall r _ hentry with ht | ht <;> cases ht
  · simp only [notAnswered, hv, entryFor, hins, he, Bool.false_or, Option.bind_some, Option.all_some,
      Bool.or_eq_false_iff, decide_eq_false_iff_not, not_not] at hhit
    rw [hnone hhit.1] at hhit
    cases hhit.2

/-- Face 1 asks, face 2 answers, and face 3 asks again after the straggler timer. -/
def askedTwice : List Event :=
  [.incomingInterest 1 (plainInterest [.ofByte 65]) [2] makeDefaultStrategy,
    .incomingData 2 { plainData [.ofByte 66] with supportingName := [.ofByte 65] },
    .advanceClock (milliseconds 100), .stragglerTimer 0,
    .incomingInterest 3 { plainInterest [.ofByte 65] with nonce := 2 } [2] makeDefaultStrategy]

/-- No Interest of that run is dropped, and the second one is answered by the content store and leaves
a PIT entry without timer. -/
theorem pit_entry_leaks_on_hit :
    ∃ s, Reach (step Platform.sample []) (fun s event => notDropped Platform.sample s event = true)
        ForwarderState.sample s ∧ ¬ NoUntimedEntry s := by
  have hrun : ((exec (guarded (step Platform.sample []) (notDropped Platform.sample)) ForwarderState.sample
      askedTwice).bind fun s => s.pit.entries 1).map (fun e => (e.unsatisfyTimer, e.stragglerTimer)) =
      some (none, none) := by decide +kernel
  obtain ⟨e, hentry, htimers⟩ := Option.map_eq_some_iff.mp hrun
  obtain ⟨s, hs, he⟩ := Option.bind_eq_some_iff.mp hentry
  refine ⟨s, reach_of_exec_guarded Reach.start hs, fun hall => ?_⟩
  obtain ⟨hu, hst⟩ := Prod.mk.inj htimers
  rcases hall 1 e he with ht | ht
  · rw [hu] at ht
    cases ht
  · rw [hst] at ht
    cases ht

/-- The first Interest of that run is forwarded. -/
theorem pit_entries_timed_sample :
    ∃ s, step Platform.sample [] ForwarderState.sample
        (.incomingInterest 1 (plainInterest [.ofByte 65]) [2] makeDefaultStrategy) = some s ∧
      (s.pit.entries 0).isSome ∧ NoUntimedEntry s := by
  have hrun : ((step Platform.sample [] ForwarderState.sample
      (.incomingInterest 1 (plainInterest [.ofByte 65]) [2] makeDefaultStrategy)).bind fun s =>
        s.pit.entries 0).isSome := by decide
  obtain ⟨e, hentry⟩ := Option.isSome_iff_exists.mp hrun
  obtain ⟨s, hs, he⟩ := Option.bind_eq_some_iff.mp hentry
  refine ⟨s, hs, by simp [he], ?_⟩
  exact pit_entries_timed Platform.sample [] 16 some ⟨[], ()⟩ s
    (Reach.next _ Reach.start ⟨by decide, by decide⟩ hs)

end NfdPitless.BridgeForwarder
