import NfdPitless.StrategyPipelines

/-! No Interest is sent from a PIT entry without downstreams. An RTO timer of the access strategy is pending only
while its PIT entry is in the table with an in-record, access is its effective strategy, and the handle is stored on
it: satisfying the entry, finalizing it, choosing another strategy for it and setting the timer again all cancel the
timer through that handle. A propagate timer of NCC may outlive its downstreams and looks for one before it sends. -/

namespace NfdPitless

open Forwarder LongestPrefix StrategyState

variable {κ : Type} {P : Platform κ} {s s' : StrategyState κ} {r x : Ref} {e : PitEntry} {strategy : Strategy}
  {base : ForwarderState κ}

namespace StrategyState

def Quiet (s : StrategyState κ) (r : Ref) : Prop := ∀ id, ¬ s.RtoTimer r id

/-- Where the RTO timers are. -/
structure Guarded (s : StrategyState κ) : Prop where
  linked : s.base.pit.Linked
  stored : ∀ r, s.HandleStored r
  downstream : ∀ {r id}, s.RtoTimer r id →
    ∃ e, s.entry r = some e ∧ e.inRecords ≠ [] ∧ s.effectiveStrategy e.getName = some .access

theorem Guarded.hasDownstream {id : Nat} (h : s.Guarded) (hrto : s.RtoTimer r id) : s.HasDownstream r := by
  obtain ⟨e, he, hin, -⟩ := h.downstream hrto
  exact ⟨e, he, hin⟩

theorem Guarded.quiet_of_strategy (h : s.Guarded) (he : s.entry r = some e)
    (heff : s.effectiveStrategy e.getName = some strategy) (hne : strategy ≠ .access) : s.Quiet r := by
  intro id hrto
  obtain ⟨e', he', -, haccess⟩ := h.downstream hrto
  rw [he] at he'
  cases he'
  rw [heff] at haccess
  exact hne (Option.some.inj haccess)

/-- The tables change; the PIT entries that have an RTO timer keep their Interest and an in-record. -/
theorem Guarded.withBase (h : s.Guarded) (hl : base.pit.Linked)
    (hkeep : ∀ x e, ¬ s.Quiet x → s.entry x = some e → ∃ e', base.pit.entries x = some e' ∧
      e'.interest = e.interest ∧ (e.inRecords ≠ [] → e'.inRecords ≠ [])) :
    ({ s with base } : StrategyState κ).Guarded where
  linked := hl
  stored := h.stored
  downstream {x id} hrto := by
    have hold : s.RtoTimer x id := hrto
    obtain ⟨e, he, hin, heff⟩ := h.downstream hold
    obtain ⟨e', he', hint, hin'⟩ := hkeep x e (fun hquiet => hquiet id hold) he
    refine ⟨e', he', hin' hin, ?_⟩
    rw [PitEntry.getName, hint]
    exact heff

/-- What happens to a PIT entry without an RTO timer. -/
theorem Guarded.withOthers (h : s.Guarded) (hquiet : s.Quiet r) (hl : base.pit.Linked)
    (hother : ∀ x, x ≠ r → base.pit.entries x = s.base.pit.entries x) :
    ({ s with base } : StrategyState κ).Guarded := by
  refine h.withBase hl fun x e hx he => ⟨e, ?_, rfl, fun hin => hin⟩
  rw [hother x fun hxr => hx (hxr ▸ hquiet)]
  exact he

/-- A new RTO timer is that of a PIT entry with a downstream whose effective strategy is access. -/
theorem Guarded.triggered (h : s.Guarded) (ht : Triggered strategy r s s')
    (hnew : strategy = .access →
      ∃ e, s.entry r = some e ∧ e.inRecords ≠ [] ∧ s.effectiveStrategy e.getName = some .access) : s'.Guarded where
  linked := ht.acted.linked h.linked
  stored x := ht.handleStored (h.stored x)
  downstream {x id} hrto := by
    have hbefore : ∃ e, s.entry x = some e ∧ e.inRecords ≠ [] ∧ s.effectiveStrategy e.getName = some .access := by
      rcases ht.rto x id hrto with ⟨hold, -⟩ | ⟨rfl, haccess, -⟩
      · exact h.downstream hold
      · exact hnew haccess
    obtain ⟨e, he, hin, heff⟩ := hbefore
    have heffective : ∀ n, s'.effectiveStrategy n = s.effectiveStrategy n := fun n => by
      rw [effectiveStrategy, effectiveStrategy, ht.strategyChoice_eq]
    by_cases hx : x = r
    · subst hx
      obtain ⟨e', he', hint, hrecords, -⟩ := ht.acted.entry e he
      refine ⟨e', he', by rwa [hrecords], ?_⟩
      rw [heffective, PitEntry.getName, hint]
      exact heff
    · refine ⟨e, (ht.acted.other x hx).trans he, hin, ?_⟩
      rw [heffective]
      exact heff

theorem rtoTimer_of_cancel {id : Option Nat} {id' : Nat} (h : (s.cancel id).RtoTimer r id') :
    s.RtoTimer r id' ∧ id ≠ some id' := by
  obtain ⟨event, hmem, rfl, hcall⟩ := h
  obtain ⟨hmem, hne⟩ := TimerQueue.mem_cancel.mp hmem
  exact ⟨⟨event, hmem, rfl, hcall⟩, hne⟩

theorem Guarded.cancel (h : s.Guarded) (id : Option Nat) : (s.cancel id).Guarded where
  linked := h.linked
  stored x id' hrto := h.stored x id' (rtoTimer_of_cancel hrto).1
  downstream hrto := h.downstream (rtoTimer_of_cancel hrto).1

theorem rtoTimer_of_clear {id : Nat} (h : (s.clearStrategyInfo r).RtoTimer x id) :
    s.RtoTimer x id ∧ (s.info r).access.bind AccessPitInfo.rtoTimer ≠ some id := by
  have hpropagate := (rtoTimer_of_cancel (s := (s.cancel _).cancel _) h).1
  have hbestFace := (rtoTimer_of_cancel hpropagate).1
  exact rtoTimer_of_cancel hbestFace

/-- The RTO timer is cancelled with its item. -/
theorem Guarded.quiet_of_clear (h : s.Guarded) (r : Ref) : (s.clearStrategyInfo r).Quiet r := by
  intro id hrto
  obtain ⟨hold, hne⟩ := rtoTimer_of_clear hrto
  rw [h.stored r id hold] at hne
  exact hne rfl

theorem Guarded.clear (h : s.Guarded) (r : Ref) : (s.clearStrategyInfo r).Guarded where
  linked := h.linked
  stored x id hrto := by
    have hx : x ≠ r := by
      rintro rfl
      exact h.quiet_of_clear x id hrto
    rw [info_clearStrategyInfo, if_neg hx]
    exact h.stored x id (rtoTimer_of_clear hrto).1
  downstream hrto := h.downstream (rtoTimer_of_clear hrto).1

/-- All items of some PIT entries. -/
theorem Guarded.clearAll (h : s.Guarded) (rs : List Ref) : (rs.foldl clearStrategyInfo s).Guarded := by
  induction rs generalizing s with
  | nil => exact h
  | cons r rs ih => exact ih (h.clear r)

end StrategyState

/-- The strategy cancels the RTO timer of the PIT entry, or there is none to cancel. -/
theorem Strategy.beforeSatisfyInterest_guarded (h : s.Guarded) (he : s.entry r = some e)
    (heff : s.effectiveStrategy e.getName = some strategy) :
    (strategy.beforeSatisfyInterest s r).Guarded ∧ (strategy.beforeSatisfyInterest s r).Quiet r ∧
      (strategy.beforeSatisfyInterest s r).base = s.base := by
  cases strategy with
  | bestRoute2 => exact ⟨h, h.quiet_of_strategy he heff (by decide), rfl⟩
  | multicast => exact ⟨h, h.quiet_of_strategy he heff (by decide), rfl⟩
  | clientControl => exact ⟨h, h.quiet_of_strategy he heff (by decide), rfl⟩
  | ncc =>
      have ht := NccStrategy.beforeSatisfyInterest_triggered s r
      refine ⟨h.triggered ht (fun haccess => by cases haccess), fun id hrto => ?_,
        NccStrategy.beforeSatisfyInterest_base s r⟩
      rcases ht.rto r id hrto with ⟨hold, -⟩ | ⟨-, haccess, -⟩
      · exact h.quiet_of_strategy he heff (by decide) id hold
      · cases haccess
  | access =>
      rw [Strategy.beforeSatisfyInterest, AccessStrategy.beforeSatisfyInterest]
      cases hinfo : (s.info r).access with
      | none =>
          refine ⟨h, fun id hrto => ?_, rfl⟩
          have hstored := h.stored r id hrto
          rw [hinfo] at hstored
          cases hstored
      | some pi =>
          -- what is pending afterwards was pending before, under another handle
          have hkept : ∀ {x id}, StrategyState.RtoTimer ((s.cancel pi.rtoTimer).setInfo r
              { s.info r with access := some ⟨none⟩ }) x id → s.RtoTimer x id ∧ x ≠ r := by
            intro x id hrto
            obtain ⟨hold, hne⟩ := rtoTimer_of_cancel hrto
            refine ⟨hold, ?_⟩
            rintro rfl
            have hstored := h.stored x id hold
            rw [hinfo, Option.some_inj] at hstored
            rw [hstored] at hne
            exact hne rfl
          refine ⟨⟨h.linked, fun x id hrto => ?_, fun hrto => h.downstream (hkept hrto).1⟩,
            fun id hrto => (hkept hrto).2 rfl, rfl⟩
          obtain ⟨hold, hx⟩ := hkept hrto
          rw [info_setInfo, if_neg hx, info_cancel]
          exact h.stored x id hold

namespace StrategyChoice

/-- The RTO timers left are those of PIT entries whose effective strategy does not change: with another one there
would be no item that holds the handle. -/
theorem Chosen.guarded (h : s.Guarded) (hchosen : Chosen s s') : s'.Guarded := by
  have hinfo := fun {x e} => hchosen.info (x := x) (e := e) h.linked
  cases hchosen with
  | same heq =>
      rw [heq]
      exact h
  | changed entryPrefix entry oldStrategy newStrategy hold hnew heq =>
      have hchanged : (changeEffective s entryPrefix oldStrategy newStrategy).Guarded := by
        rw [changeEffective]
        split
        · exact h
        · exact h.clearAll _
      obtain ⟨hbase, hchoice⟩ := changeEffective_spec s entryPrefix oldStrategy newStrategy
      subst heq
      refine ⟨hchanged.linked, hchanged.stored, fun {x id} hrto => ?_⟩
      obtain ⟨e, he, hin, heff⟩ := hchanged.downstream (show
        (changeEffective s entryPrefix oldStrategy newStrategy).RtoTimer x id from hrto)
      have hentry : s.entry x = some e := by
        rw [StrategyState.entry, ← hbase]
        exact he
      rw [effectiveStrategy, hchoice, ← effectiveStrategy] at heff
      refine ⟨e, he, hin, ?_⟩
      by_contra hne
      have hstored : ((setEntry (changeEffective s entryPrefix oldStrategy newStrategy) entryPrefix entry).info
          x).access = some ⟨some id⟩ := hchanged.stored x id hrto
      rw [hinfo hentry, if_pos fun heq => hne (heq.trans heff)] at hstored
      cases hstored

end StrategyChoice

namespace StrategyForwarder

/-- The timer that fires is no longer pending; if it is an RTO timer, its PIT entry has a downstream. -/
theorem fired_ends (h : s.Guarded) {id : Nat} {event : TimerEvent StrategyCallback} (input : TriggerInput)
    (hdue : s.timers.dueEvent s.now id = some event) :
    Ends Tolerated StrategyState.Guarded (Strategy.callback P (s.cancel (some id)) input event.callback) := by
  obtain ⟨hmem, -, -⟩ := TimerQueue.mem_of_dueEvent hdue
  have hfired := h.cancel (some id)
  obtain ⟨eventId, due, callback⟩ := event
  cases callback with
  | afterRtoTimeout pitWeak fibWeak inFace firstOutFace =>
      have hrto : s.RtoTimer pitWeak eventId := ⟨_, hmem, rfl, fibWeak, inFace, firstOutFace, rfl⟩
      have hentry : (s.cancel (some id)).HasDownstream pitWeak := h.hasDownstream hrto
      exact (AccessStrategy.afterRtoTimeout_ends hentry (hfired.stored pitWeak) fibWeak inFace firstOutFace).mono
        fun s' ht => hfired.triggered ht fun _ => h.downstream hrto
  | doPropagate pitWeak fibWeak =>
      exact (NccStrategy.doPropagate_ends (hfired.stored pitWeak) fibWeak input).mono
        fun s' ht => hfired.triggered ht fun haccess => by cases haccess
  | timeoutOnBestFace pitWeak => exact hfired

theorem guarded_rules (P : Platform κ) :
    InvariantRules P Tolerated (fun _ _ _ => True) StrategyState.Guarded where
  linked h := h.linked
  withBase h hl hkeep := h.withBase hl fun x e _ he => hkeep x e he
  received {s r fibEntry e strategy} inFace input h he hin heff _ := by
    refine (strategy.afterReceiveInterest_ends ⟨e, he, hin⟩ (h.stored r) inFace fibEntry input).mono
      fun s' ht => h.triggered ht fun haccess => ⟨e, he, hin, ?_⟩
    rw [← haccess]
    exact heff
  satisfied {s r e strategy base} h he heff hl hother _ := by
    obtain ⟨hguarded, hquiet, hbase⟩ := Strategy.beforeSatisfyInterest_guarded h he heff
    refine hguarded.withOthers hquiet hl fun x hx => ?_
    rw [hother x hx, hbase]
  finalized {s r base} h hl hother := (h.clear r).withOthers (h.quiet_of_clear r) hl hother
  fired input h hdue := fired_ends h input hdue
  chosen h hchosen := StrategyChoice.Chosen.guarded h hchosen
  withFib _ h := ⟨h.linked, h.stored, h.downstream⟩
  withFaceTable _ h := ⟨h.linked, h.stored, h.downstream⟩
  nameTreeEntry := ⟨by decide, by decide⟩
  erasedPrefix := ⟨by decide, by decide⟩

/-- Nothing is asked of an Interest that is let in. -/
theorem admitted_of_true (event : Event) : Admitted P (fun _ _ _ => True) s event := by
  cases event with
  | incomingInterest inFace interest fibEntry input => exact fun _ _ _ _ _ => trivial
  | _ => trivial

theorem new_guarded (nBuckets : Nat) (faceId : Face → Option Nat) (cs : κ) : (new nBuckets faceId cs).Guarded := by
  have hnone : ∀ r id, ¬ (new nBuckets faceId cs).RtoTimer r id := by
    rintro r id ⟨event, hmem, -⟩
    exact absurd hmem List.not_mem_nil
  exact ⟨Pit.new_linked nBuckets, fun r id hrto => absurd hrto (hnone r id), fun hrto => absurd hrto (hnone _ _)⟩

theorem guarded_of_reach {nBuckets : Nat} {faceId : Face → Option Nat} {cs : κ}
    (hr : Reach (next P) anyStep (new nBuckets faceId cs) s) : s.Guarded :=
  (guarded_rules P).reach (fun _ event _ => admitted_of_true event) (new_guarded nBuckets faceId cs) hr

/-- In every run, whatever happens next: the in-record for an Interest to send is found, and an RTO timer finds its
PIT entry. -/
theorem sends_have_downstream {nBuckets : Nat} {faceId : Face → Option Nat} {cs : κ}
    (hr : Reach (next P) anyStep (new nBuckets faceId cs) s) (event : Event) :
    step P s event ≠ .error .pickedInRecord ∧ step P s event ≠ .error .rtoPitEntry := by
  have hends := (guarded_rules P).step (guarded_of_reach hr) (admitted_of_true event)
  exact ⟨hends.ne_error fun h => h.1 rfl, hends.ne_error fun h => h.2 rfl⟩

/-- An Interest for `/A` from face 0 goes to the last working next hop, face 1; the RTO timer that is set for it is due
at the end. -/
def untilRto : List Event :=
  [.setFibEntry 0 (some [1, 2]), .setFace 1 (some 1), .insertStrategy [] .access,
    .incomingInterest 0 (plainInterest [.ofByte 65]) 0 { noInput with mtInfo := some ⟨some 1, 5⟩ },
    .advanceClock 5000]

/-- When the timer fires, the Interest is sent to face 2 as well. -/
theorem sends_have_downstream_after_rto : ∃ s s' : StrategyState (Cs Unit),
    Reach (next Platform.sample) anyStep (new 16 some ⟨[], ()⟩) s ∧
      step Platform.sample s (.strategyTimer 0 noInput) = .ok s' ∧
      LogItem.outInterest 0 2 (plainInterest [.ofByte 65]) ∈ s'.base.log ∧
      step Platform.sample s (.strategyTimer 0 noInput) ≠ .error .pickedInRecord ∧
      step Platform.sample s (.strategyTimer 0 noInput) ≠ .error .rtoPitEntry := by
  have hrun : ((exec (next Platform.sample) (new 16 some ⟨[], ()⟩) untilRto).any fun s =>
      (next Platform.sample s (.strategyTimer 0 noInput)).any fun s' =>
        decide (LogItem.outInterest 0 2 (plainInterest [.ofByte 65]) ∈ s'.base.log)) = true := by
    decide +kernel
  obtain ⟨s, hs, hfired⟩ := (Option.any_eq_true _ _).mp hrun
  obtain ⟨s', hs', hsent⟩ := (Option.any_eq_true _ _).mp hfired
  have hreach := reach_of_exec Reach.start hs
  exact ⟨s, s', hreach, step_of_next hs', of_decide_eq_true hsent, sends_have_downstream hreach _⟩

end StrategyForwarder
end NfdPitless
