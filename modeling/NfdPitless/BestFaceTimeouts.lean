import NfdPitless.StragglerTimers

/-! The timeouts of the best face in NCC. One is set when an Interest is sent to the best face, and nothing cancels it
when the best face answers in time: it is harmless only as long as the PIT entry is gone before the prediction ends. -/

namespace NfdPitless

open Forwarder StrategyState
open Strategy (sendInterest)

variable {κ : Type} {P : Platform κ} {s s' s'' : StrategyState κ} {r x fibEntry : Ref} {e : PitEntry}
  {strategy : Strategy} {base : ForwarderState κ} {input : TriggerInput} {id due : Nat} {inFace bestFace : Face}
  {interest : Interest}

/-- From `s` to `s'` no timeout of a best face is set; the handles of other timers are new. -/
structure SetsNoTimeout (s s' : StrategyState κ) : Prop where
  nextId_le : s.timers.nextId ≤ s'.timers.nextId
  pending : ∀ event ∈ s'.timers.pending, event ∈ s.timers.pending ∨
    event.id < s'.timers.nextId ∧ ∀ r, event.callback ≠ .timeoutOnBestFace r

namespace SetsNoTimeout

theorem of_timers (h : s'.timers = s.timers) : SetsNoTimeout s s' := by
  refine ⟨h ▸ le_rfl, fun event hmem => Or.inl ?_⟩
  rw [← h]
  exact hmem

theorem refl (s : StrategyState κ) : SetsNoTimeout s s := of_timers rfl

theorem trans (h : SetsNoTimeout s s') (h' : SetsNoTimeout s' s'') : SetsNoTimeout s s'' where
  nextId_le := h.nextId_le.trans h'.nextId_le
  pending event hmem := by
    rcases h'.pending event hmem with hold | hnew
    · exact (h.pending event hold).imp_right fun hother => ⟨hother.1.trans_le h'.nextId_le, hother.2⟩
    · exact Or.inr hnew

/-- The handles of the pending timers stay used up. -/
theorem fresh (h : SetsNoTimeout s s') (hfresh : ∀ event ∈ s.timers.pending, event.id < s.timers.nextId)
    (event : TimerEvent StrategyCallback) (hmem : event ∈ s'.timers.pending) : event.id < s'.timers.nextId := by
  rcases h.pending event hmem with hold | hnew
  · exact (hfresh event hold).trans_le h.nextId_le
  · exact hnew.1

theorem cancel (s : StrategyState κ) (handle : Option Nat) : SetsNoTimeout s (s.cancel handle) :=
  ⟨le_rfl, fun _ hmem => Or.inl (TimerQueue.mem_cancel.mp hmem).1⟩

theorem schedule (s : StrategyState κ) (delay : Nat) {callback : StrategyCallback}
    (h : ∀ r, callback ≠ .timeoutOnBestFace r) : SetsNoTimeout s (s.schedule delay callback) := by
  refine ⟨Nat.le_succ _, fun event hmem => ?_⟩
  rcases TimerQueue.mem_schedule.mp hmem with hold | rfl
  · exact Or.inl hold
  · exact Or.inr ⟨Nat.lt_succ_self _, h⟩

theorem clear (s : StrategyState κ) (r : Ref) : SetsNoTimeout s (s.clearStrategyInfo r) := by
  have hcancelled := ((cancel s ((s.info r).access.bind AccessPitInfo.rtoTimer)).trans
    (cancel _ ((s.info r).ncc.bind NccPitEntryInfo.bestFaceTimeout))).trans
    (cancel _ ((s.info r).ncc.bind NccPitEntryInfo.propagateTimer))
  exact hcancelled.trans (of_timers rfl)

theorem clearAll (rs : List Ref) (s : StrategyState κ) : SetsNoTimeout s (rs.foldl clearStrategyInfo s) := by
  induction rs generalizing s with
  | nil => exact refl s
  | cons r rs ih => exact (clear s r).trans (ih _)

theorem setRtoTimer (s : StrategyState κ) (r : Ref) (rto : Nat) (fibWeak : Ref) (inFace firstOutFace : Option Nat) :
    SetsNoTimeout s (AccessStrategy.setRtoTimer s r rto (.afterRtoTimeout r fibWeak inFace firstOutFace)) :=
  ((schedule s rto (by simp)).trans (cancel _ _)).trans (of_timers rfl)

/-- The rules for `SetsNoTimeout`. -/
theorem rules (P : Platform κ) (r : Ref) : TriggerRules P (fun _ => True) r (fun _ => True) SetsNoTimeout where
  refl := refl
  trans := trans
  keeps _ _ := trivial
  send {s} outFace _ := by
    rcases sendInterest_acted P s r outFace with hsend | ⟨base, -, hsend⟩
    · rw [hsend]
      trivial
    · rw [hsend]
      exact of_timers rfl
  reject s := by
    obtain ⟨base, -, hreject⟩ := rejectPendingInterest_acted P s r
    rw [hreject]
    exact of_timers rfl
  setRetx _ _ := of_timers rfl
  lastOutgoing := trivial
  earliestOutRecord := trivial

theorem setPropagateTimer (s : StrategyState κ) (delay : Nat) (r fibWeak : Ref) :
    SetsNoTimeout s (NccStrategy.setPropagateTimer s delay r fibWeak) :=
  (schedule s delay (by simp)).trans (of_timers rfl)

theorem beforeSatisfyInterest (s : StrategyState κ) (r : Ref) (strategy : Strategy) :
    SetsNoTimeout s (strategy.beforeSatisfyInterest s r) := by
  cases strategy with
  | ncc =>
      rw [Strategy.beforeSatisfyInterest, NccStrategy.beforeSatisfyInterest]
      split
      · exact refl s
      · split
        · exact refl s
        · exact (cancel s _).trans (of_timers rfl)
  | access =>
      rw [Strategy.beforeSatisfyInterest, AccessStrategy.beforeSatisfyInterest]
      split
      · exact refl s
      · exact (cancel s _).trans (of_timers rfl)
  | _ => exact refl s

theorem callback (s : StrategyState κ) (input : TriggerInput) (callback : StrategyCallback) :
    Ends (fun _ => True) (SetsNoTimeout s) (Strategy.callback P s input callback) := by
  cases callback with
  | afterRtoTimeout pitWeak fibWeak inFace firstOutFace =>
      rw [Strategy.callback, AccessStrategy.afterRtoTimeout]
      split
      · trivial
      · split
        · exact refl s
        · exact (rules P pitWeak).accessMulticast trivial _ _
  | doPropagate pitWeak fibWeak =>
      exact (rules P pitWeak).doPropagate (fun _ _ => of_timers rfl) (fun s delay _ =>
        schedule s delay (by simp)) trivial
        (fun _ _ _ => trivial) fibWeak input
  | timeoutOnBestFace pitWeak => exact refl s

theorem chosen (h : StrategyChoice.Chosen s s') : SetsNoTimeout s s' := by
  cases h with
  | same heq =>
      rw [heq]
      exact refl s
  | changed entryPrefix entry oldStrategy newStrategy _ _ heq =>
      have hchanged : SetsNoTimeout s (StrategyChoice.changeEffective s entryPrefix oldStrategy newStrategy) := by
        rw [StrategyChoice.changeEffective]
        split
        · exact refl s
        · exact clearAll _ s
      rw [heq]
      exact hchanged.trans (of_timers rfl)

end SetsNoTimeout

namespace StrategyForwarder

/-- What a step other than an Interest leaves of the tables and the timers. -/
theorem setsNoTimeout_rules (P : Platform κ) (s₀ : StrategyState κ) :
    InvariantRules P (fun _ => True) (fun _ _ _ => False)
    fun s => s.base.pit.Linked ∧ SetsNoTimeout s₀ s where
  linked hs := hs.1
  withBase hs hl _ := ⟨hl, hs.2.trans (.of_timers rfl)⟩
  received _ _ _ _ _ _ hadmits := hadmits.elim
  satisfied {s r _ strategy _} hs _ _ hl _ _ :=
    ⟨hl, (hs.2.trans (SetsNoTimeout.beforeSatisfyInterest s r strategy)).trans (.of_timers rfl)⟩
  finalized {s r _} hs hl _ := ⟨hl, (hs.2.trans (SetsNoTimeout.clear s r)).trans (.of_timers rfl)⟩
  fired {s id event} input hs _ := by
    refine ((KeepsChoice.callback (s.cancel (some id)) input event.callback).and
      (SetsNoTimeout.callback (s.cancel (some id)) input event.callback)).mono fun s' hs' => ?_
    obtain ⟨⟨r, hkept⟩, hset⟩ := hs'
    exact ⟨hkept.acted.linked hs.1, (hs.2.trans (SetsNoTimeout.cancel s (some id))).trans hset⟩
  chosen hs hchosen := ⟨hchosen.base_eq ▸ hs.1, hs.2.trans (SetsNoTimeout.chosen hchosen)⟩
  withFib _ hs := ⟨hs.1, hs.2.trans (.of_timers rfl)⟩
  withFaceTable _ hs := ⟨hs.1, hs.2.trans (.of_timers rfl)⟩
  nameTreeEntry := trivial
  erasedPrefix := trivial

end StrategyForwarder

/-- A timeout of the best face of a PIT entry is pending. -/
def StrategyState.BestFaceTimeout (s : StrategyState κ) (r : Ref) (id due : Nat) : Prop :=
  ⟨id, due, .timeoutOnBestFace r⟩ ∈ s.timers.pending

theorem SetsNoTimeout.timeout (h : SetsNoTimeout s s') (htimeout : s'.BestFaceTimeout r id due) :
    s.BestFaceTimeout r id due :=
  (h.pending _ htimeout).resolve_right fun hother => hother.2 r rfl

namespace NccStrategy

/-- The Interest is sent to the best face, which has a timeout from now on, or no timeout is set. -/
theorem sendFirst_timeouts {info : NccMeasurementsInfo} {deferral : Deferral}
    (hid : ∀ face ∈ s.nexthopsOf fibEntry, (s.base.faceId face).isSome)
    (h : sendFirst P s fibEntry r info = .ok (s', deferral)) :
    SetsNoTimeout s s' ∨ ∃ bestFace sent, getBestFace info = some bestFace ∧
      s' = setBestFaceTimeout (s.sent r bestFace sent) (microseconds info.prediction) r := by
  rw [sendFirst] at h
  split at h
  · rename_i bestFace hbest
    obtain ⟨hfound, husable⟩ := Option.filter_eq_some_iff.mp hbest
    obtain ⟨hmem, hcan⟩ := isUsable_iff.mp husable
    obtain ⟨sent, hsent⟩ := sendInterest_sends hcan (hid bestFace hmem)
    rw [hsent] at h
    cases h
    exact Or.inr ⟨bestFace, sent, hfound, rfl⟩
  · have hsent := (SetsNoTimeout.rules P r).sendIfFound (s := s) trivial
      ((s.nexthopsOf fibEntry).find? (s.canForwardTo P r))
    generalize ((s.nexthopsOf fibEntry).find? (s.canForwardTo P r)).elim (.ok s) (sendInterest P s r) =
      outcome at h hsent
    cases outcome with
    | error a => cases h
    | ok s₁ =>
        cases h
        exact Or.inl hsent

/-- The timers that are set for an Interest that is sent to the best face. -/
def withTimers (s : StrategyState κ) (fibEntry r : Ref) (prediction delay : Nat) : StrategyState κ :=
  (s.schedule (microseconds prediction) (.timeoutOnBestFace r)).schedule delay (.doPropagate r fibEntry)

theorem mem_withTimers {prediction delay : Nat} {event : TimerEvent StrategyCallback} :
    event ∈ (withTimers s fibEntry r prediction delay).timers.pending ↔ event ∈ s.timers.pending ∨
      event = ⟨s.timers.nextId, s.now + microseconds prediction, .timeoutOnBestFace r⟩ ∨
        event = ⟨s.timers.nextId + 1, s.now + delay, .doPropagate r fibEntry⟩ := by
  rw [withTimers, StrategyState.schedule, TimerQueue.mem_schedule, StrategyState.schedule, TimerQueue.mem_schedule,
    or_assoc]
  rfl

theorem withTimers_fresh {prediction delay : Nat} (hfresh : ∀ event ∈ s.timers.pending, event.id < s.timers.nextId)
    {event : TimerEvent StrategyCallback} (hmem : event ∈ (withTimers s fibEntry r prediction delay).timers.pending) :
    event.id < (withTimers s fibEntry r prediction delay).timers.nextId := by
  rcases mem_withTimers.mp hmem with hold | rfl | rfl
  · exact Nat.lt_succ_of_lt (Nat.lt_succ_of_lt (hfresh event hold))
  · exact Nat.lt_succ_of_lt (Nat.lt_succ_self _)
  · exact Nat.lt_succ_self _

theorem afterReceiveInterest_timeouts (hid : ∀ face ∈ s.nexthopsOf fibEntry, (s.base.faceId face).isSome)
    (h : afterReceiveInterest P s fibEntry r input = .ok s') :
    SetsNoTimeout s s' ∨ ∃ bestFace sent delay, getBestFace input.measurementsInfo = some bestFace ∧
      s'.base.log = s.base.log ++ [.outInterest r bestFace sent] ∧
        s'.timers = (withTimers s fibEntry r input.measurementsInfo.prediction delay).timers := by
  by_cases hnexthops : s.nexthopsOf fibEntry = []
  · rw [afterReceiveInterest, if_pos hnexthops] at h
    cases h
    exact Or.inl ((SetsNoTimeout.rules P r).reject s)
  · cases hout : s.hasUnexpiredOutRecords r with
    | true =>
        have hout' : (withItem s r).hasUnexpiredOutRecords r = true := hout
        rw [afterReceiveInterest, if_neg hnexthops] at h
        dsimp only at h
        rw [← withItem, if_pos hout'] at h
        cases h
        exact Or.inl (.of_timers rfl)
    | false =>
        obtain ⟨s₁, deferral, isPreviousUsable, hsent, hok⟩ := afterReceiveInterest_new (P := P) input hnexthops hout
        rw [hok] at h
        cases h
        rcases sendFirst_timeouts (s := withItem s r) hid hsent with hnone | ⟨bestFace, sent, hbest, rfl⟩
        · have hitem : SetsNoTimeout s (withItem s r) := .of_timers rfl
          have hmax : SetsNoTimeout s₁ (setMaxInterval s₁ r (maxIntervalOf deferral isPreviousUsable)) := .of_timers rfl
          exact Or.inl ((hitem.trans (hnone.trans hmax)).trans (SetsNoTimeout.setPropagateTimer _ _ r fibEntry))
        · exact Or.inr ⟨bestFace, sent, microseconds deferral.deferFirst, hbest, rfl, rfl⟩

end NccStrategy

theorem Strategy.afterReceiveInterest_timeouts (hid : ∀ face ∈ s.nexthopsOf fibEntry, (s.base.faceId face).isSome)
    (h : strategy.afterReceiveInterest P s inFace fibEntry r input = .ok s') :
    SetsNoTimeout s s' ∨ ∃ bestFace sent delay, NccStrategy.getBestFace input.measurementsInfo = some bestFace ∧
      s'.base.log = s.base.log ++ [.outInterest r bestFace sent] ∧
        s'.timers = (NccStrategy.withTimers s fibEntry r input.measurementsInfo.prediction delay).timers := by
  have hrules := SetsNoTimeout.rules P r
  cases strategy with
  | bestRoute2 => exact Or.inl ((hrules.bestRoute2 trivial inFace fibEntry).of_ok h)
  | multicast => exact Or.inl ((hrules.multicast trivial fibEntry).of_ok h)
  | clientControl => exact Or.inl ((hrules.clientControl trivial fibEntry input).of_ok h)
  | ncc => exact NccStrategy.afterReceiveInterest_timeouts hid h
  | access =>
      exact Or.inl ((hrules.access (fun s rto fibWeak _ _ _ => SetsNoTimeout.setRtoTimer s r rto fibWeak _ _) trivial
        inFace fibEntry input).of_ok h)

namespace StrategyForwarder

/-- The step sends the Interest of a PIT entry to the best face, and sets the timer `id` to expire at the end of the
prediction. -/
def SendsToBestFace (P : Platform κ) (r : Ref) (bestFace : Face) (id due : Nat) (s : StrategyState κ) : Event → Prop
  | .incomingInterest inFace interest fibEntry input =>
      NccStrategy.getBestFace input.measurementsInfo = some bestFace ∧ id = s.timers.nextId ∧
        due = s.now + microseconds input.measurementsInfo.prediction ∧
        ∃ s' sent, onIncomingInterest P s inFace interest fibEntry input = .ok s' ∧
          s'.base.log = s.base.log ++ [.inInterest inFace interest, .outInterest r bestFace sent] ∧
          s'.BestFaceTimeout r id due
  | _ => False

/-- In the step a Data from the best face satisfies the PIT entry within the predicted time. -/
def AnswersInTime (P : Platform κ) (r : Ref) (bestFace : Face) (due : Nat) (s : StrategyState κ) : Event → Prop
  | .incomingData inFace data => inFace = bestFace ∧ r ∈ matchedBy P s.base inFace data ∧ s.now ≤ due
  | _ => False

/-- An Interest sets no timeout, or it is sent to the best face. -/
theorem incomingInterest_timeouts (hl : s.base.pit.Linked)
    (hid : ∀ face ∈ s.nexthopsOf fibEntry, (s.base.faceId face).isSome)
    (h : onIncomingInterest P s inFace interest fibEntry input = .ok s') :
    SetsNoTimeout s s' ∨ ∃ r bestFace delay, r < s'.base.pit.nextRef ∧
      s'.timers = (NccStrategy.withTimers s fibEntry r input.measurementsInfo.prediction delay).timers ∧
      SendsToBestFace P r bestFace s.timers.nextId (s.now + microseconds input.measurementsInfo.prediction) s
        (.incomingInterest inFace interest fibEntry input) := by
  have hincoming := h
  cases onIncomingInterest_outcome h with
  | violating hs' =>
      rw [hs']
      exact Or.inl (.of_timers rfl)
  | looping r pit isNew e hins he hs' =>
      rw [hs']
      exact Or.inl (.of_timers rfl)
  | answered r pit isNew e cs data strategy hins he haccepts hs' =>
      have hadmitted : SetsNoTimeout s (admitted s inFace interest pit cs r) := .of_timers rfl
      rw [hs']
      exact Or.inl ((hadmitted.trans (SetsNoTimeout.beforeSatisfyInterest _ r strategy)).trans (.of_timers rfl))
  | received r pit isNew e cs strategy hins he hreceives heff hok =>
      have htrigger : SetsNoTimeout s (atTrigger s inFace interest pit cs r) := .of_timers rfl
      rcases Strategy.afterReceiveInterest_timeouts (s := atTrigger s inFace interest pit cs r) hid hok with
        hnone | ⟨bestFace, sent, delay, hbest, hlog, htimers⟩
      · exact Or.inl (htrigger.trans hnone)
      · have hkept := (KeepsChoice.afterReceiveInterest strategy _ inFace fibEntry r input).of_ok hok
        have hlinked := hkept.acted.linked (atTrigger_linked cs hl hins he)
        obtain ⟨e', he', -⟩ := hkept.acted.keeps r _ (atTrigger_entry cs he)
        refine Or.inr ⟨r, bestFace, delay, hlinked.fresh he', htimers, hbest, rfl, rfl, s', sent, hincoming, ?_, ?_⟩
        · exact hlog.trans (List.append_assoc s.base.log _ _)
        · rw [BestFaceTimeout, htimers]
          exact NccStrategy.mem_withTimers.mpr (Or.inr (Or.inl rfl))

/-! ### Histories -/

/-- The latest step first, each with the state before it. -/
abbrev History (κ : Type) := List (StrategyState κ × Event)

/-- The Interest of the PIT entry was sent to the best face, with this timer. -/
def Sent (P : Platform κ) (r : Ref) (bestFace : Face) (id due : Nat) (history : History κ) : Prop :=
  ∃ step ∈ history, SendsToBestFace P r bestFace id due step.1 step.2

/-- A Data from the best face that the Interest was sent to satisfied the PIT entry within the predicted time. -/
def Answered (P : Platform κ) (r : Ref) (id due : Nat) : History κ → Prop
  | [] => False
  | (s, event) :: before => Answered P r id due before ∨
      ∃ bestFace, Sent P r bestFace id due before ∧ AnswersInTime P r bestFace due s event

/-- If the timer that fires is a timeout of the best face of a PIT entry in the table, then the Interest was sent to the
best face, and no Data from it satisfied the entry within the predicted time. -/
def FiresUnanswered (P : Platform κ) (t : Traced (StrategyState κ) Event) (id : Nat) : Prop :=
  ∀ event r, t.state.timers.dueEvent t.state.now id = some event → event.callback = .timeoutOnBestFace r →
    (t.state.entry r).isSome →
      (∃ bestFace, Sent P r bestFace id event.due t.history) ∧ ¬ Answered P r id event.due t.history

/-- A PIT entry with a pending timeout that has been answered in time waits for stragglers until before the timeout: it
accepts no Interest, and the Data that satisfies it comes early enough. A timeout is not overtaken by the straggler
timer of its entry if that is due earlier, and the next hops have ids. -/
def DropsAnswered (P : Platform κ) (t : Traced (StrategyState κ) Event) : Event → Prop
  | .incomingInterest inFace interest fibEntry _ =>
      (∀ face ∈ t.state.nexthopsOf fibEntry, (t.state.base.faceId face).isSome) ∧
        ∀ r e id due, Accepts P t.state inFace interest r e → t.state.BestFaceTimeout r id due →
          ¬ Answered P r id due t.history
  | .incomingData inFace data =>
      ∀ r ∈ matchedBy P t.state.base inFace data, ∀ id due, t.state.BestFaceTimeout r id due →
        Answered P r id due ((t.state, .incomingData inFace data) :: t.history) → t.state.now + stragglerTime < due
  | .strategyTimer id _ =>
      ∀ event, t.state.timers.dueEvent t.state.now id = some event → ∀ r e timer,
        event.callback = .timeoutOnBestFace r → t.state.entry r = some e → e.stragglerTimer = some timer →
          event.due ≤ timer.due
  | _ => True

/-- What is known of a pending timeout. -/
structure TimeoutKept (P : Platform κ) (t : Traced (StrategyState κ) Event) (r : Ref) (id due : Nat) : Prop where
  used : r < t.state.base.pit.nextRef
  sent : ∃ bestFace, Sent P r bestFace id due t.history
  /-- If it has been answered, the PIT entry is gone before it expires. -/
  answered : Answered P r id due t.history → ∀ e, t.state.entry r = some e →
    ∃ timer, e.stragglerTimer = some timer ∧ timer.due < due

structure TimeoutsKept (P : Platform κ) (t : Traced (StrategyState κ) Event) : Prop where
  linked : t.state.base.pit.Linked
  fresh : ∀ event ∈ t.state.timers.pending, event.id < t.state.timers.nextId
  earlier : ∀ {r bestFace id due}, Sent P r bestFace id due t.history → id < t.state.timers.nextId
  timeout : ∀ {r id due}, t.state.BestFaceTimeout r id due → TimeoutKept P t r id due

variable {t t' : Traced (StrategyState κ) Event} {event : Event}

/-- An answer comes after the Interest. -/
theorem Answered.sent {history : History κ} (h : Answered P r id due history) :
    ∃ bestFace, Sent P r bestFace id due history := by
  induction history with
  | nil => exact h.elim
  | cons step before ih =>
      rcases h with h | ⟨bestFace, ⟨sentStep, hmem, hsends⟩, -⟩
      · obtain ⟨bestFace, sentStep, hmem, hsends⟩ := ih h
        exact ⟨bestFace, sentStep, List.mem_cons_of_mem step hmem, hsends⟩
      · exact ⟨bestFace, sentStep, List.mem_cons_of_mem step hmem, hsends⟩

theorem AnswersInTime.touches (h : AnswersInTime P r bestFace due s event) : Touches P s event r := by
  cases event with
  | incomingData inFace data => exact h.2.1
  | _ => exact h.elim

/-- The entry of an answered timeout accepts no Interest; the Data that satisfies it makes it wait for stragglers. -/
theorem straggles_of_touched (htouched : Touches P t.state event r) (hpending : t.state.BestFaceTimeout r id due)
    (hok : DropsAnswered P t event) (hstep : StrategyForwarder.step P t.state event = .ok s')
    (hanswered : Answered P r id due ((t.state, event) :: t.history)) (he : s'.entry r = some e) :
    ∃ timer, e.stragglerTimer = some timer ∧ timer.due < due := by
  cases event with
  | incomingInterest inFace interest fibEntry input =>
      obtain ⟨e₀, haccepts⟩ := htouched
      rcases hanswered with hbefore | ⟨bestFace, -, hanswers⟩
      · exact absurd hbefore (hok.2 r e₀ id due haccepts hpending)
      · exact hanswers.elim
  | incomingData inFace data =>
      obtain ⟨hnow, -, hwaits⟩ := incomingData_leaves hstep
      obtain ⟨timer, htimer, hdue⟩ := hwaits r htouched e he
      refine ⟨timer, htimer, ?_⟩
      rw [hdue, hnow]
      exact hok r htouched id due hpending hanswered
  | _ => exact htouched.elim

/-- A step keeps what is known of a pending timeout. -/
theorem TimeoutKept.step (h : TimeoutKept P t r id due) (hl : t.state.base.pit.Linked)
    (hpending : t.state.BestFaceTimeout r id due) (hok : DropsAnswered P t event)
    (hstep : StrategyForwarder.step P t.state event = .ok s') :
    TimeoutKept P ⟨s', (t.state, event) :: t.history⟩ r id due := by
  have hleaves := step_leaves hl hstep
  obtain ⟨bestFace, sentStep, hmem, hsends⟩ := h.sent
  refine ⟨h.used.trans_le hleaves.nextRef_le, ⟨bestFace, sentStep, List.mem_cons_of_mem _ hmem, hsends⟩, ?_⟩
  intro hanswered e' he'
  by_cases htouched : Touches P t.state event r
  · exact straggles_of_touched htouched hpending hok hstep hanswered he'
  · have hbefore : Answered P r id due t.history :=
      hanswered.resolve_right fun ⟨_, _, hanswers⟩ => htouched hanswers.touches
    obtain ⟨e, he, hsame⟩ := hleaves.entry h.used he'
    obtain ⟨timer, htimer, hdue⟩ := h.answered hbefore e he
    exact ⟨timer, (hsame.resolve_left htouched).trans htimer, hdue⟩

/-- A step sets no timeout, or it sends an Interest to the best face. -/
theorem step_timeouts (hl : s.base.pit.Linked)
    (hid : ∀ inFace interest fibEntry input, event = .incomingInterest inFace interest fibEntry input →
      ∀ face ∈ s.nexthopsOf fibEntry, (s.base.faceId face).isSome)
    (hstep : StrategyForwarder.step P s event = .ok s') : SetsNoTimeout s s' ∨ ∃ r bestFace prediction delay fibEntry,
      r < s'.base.pit.nextRef ∧ s'.timers = (NccStrategy.withTimers s fibEntry r prediction delay).timers ∧
        SendsToBestFace P r bestFace s.timers.nextId (s.now + microseconds prediction) s event := by
  cases event with
  | incomingInterest inFace interest fibEntry input =>
      rcases incomingInterest_timeouts hl (hid _ _ _ _ rfl) hstep with hnone | ⟨r, bestFace, delay, hused, htimers,
        hsends⟩
      · exact Or.inl hnone
      · exact Or.inr ⟨r, bestFace, _, delay, fibEntry, hused, htimers, hsends⟩
  | _ =>
      refine Or.inl (((setsNoTimeout_rules P s).step ⟨hl, SetsNoTimeout.refl s⟩ ?_).of_ok hstep).2
      trivial

theorem step_linked (hl : s.base.pit.Linked) (hstep : StrategyForwarder.step P s event = .ok s') :
    s'.base.pit.Linked := by
  cases event with
  | incomingInterest inFace interest fibEntry input =>
      exact (((hasChoice_rules P s.strategyChoice).onIncomingInterest ⟨hl, rfl⟩ (admitted_any s _)).of_ok hstep).1
  | _ =>
      refine (((setsNoTimeout_rules P s).step ⟨hl, SetsNoTimeout.refl s⟩ ?_).of_ok hstep).1
      trivial

/-- The handle of the timer is used up by the step that sends the Interest. -/
theorem SendsToBestFace.id_lt (h : SendsToBestFace P r bestFace id due s event)
    (hfresh : ∀ event ∈ s.timers.pending, event.id < s.timers.nextId)
    (hset : SetsNoTimeout s s' ∨ s.timers.nextId < s'.timers.nextId)
    (hstep : StrategyForwarder.step P s event = .ok s') : id < s'.timers.nextId := by
  cases event with
  | incomingInterest inFace interest fibEntry input =>
      obtain ⟨-, rfl, -, s₁, sent, hok, -, htimeout⟩ := h
      have hsame : Except.ok s₁ = Except.ok s' := hok.symm.trans hstep
      cases hsame
      rcases hset with hnone | hlt
      · exact absurd (hfresh _ (hnone.timeout htimeout)) (lt_irrefl _)
      · exact hlt
  | _ => exact h.elim

/-- A timer that is set by the next step is not answered yet. -/
theorem TimeoutsKept.not_answered_new (hs : TimeoutsKept P t) (event : Event) (r : Ref) (due : Nat) :
    ¬ Answered P r t.state.timers.nextId due ((t.state, event) :: t.history) := by
  intro hanswered
  have hbefore : ∃ bestFace, Sent P r bestFace t.state.timers.nextId due t.history := by
    rcases hanswered with hanswered | ⟨bestFace, hsent, -⟩
    · exact hanswered.sent
    · exact ⟨bestFace, hsent⟩
  obtain ⟨bestFace, hsent⟩ := hbefore
  exact absurd (hs.earlier hsent) (lt_irrefl _)

theorem TimeoutsKept.step (hs : TimeoutsKept P t) (hok : DropsAnswered P t event)
    (hstep : StrategyForwarder.step P t.state event = .ok s') : TimeoutsKept P ⟨s', (t.state, event) :: t.history⟩ := by
  have hid : ∀ inFace interest fibEntry input, event = .incomingInterest inFace interest fibEntry input →
      ∀ face ∈ t.state.nexthopsOf fibEntry, (t.state.base.faceId face).isSome := by
    rintro inFace interest fibEntry input rfl
    exact hok.1
  have hkept : ∀ {r id due}, t.state.BestFaceTimeout r id due →
      TimeoutKept P ⟨s', (t.state, event) :: t.history⟩ r id due := fun hpending =>
    (hs.timeout hpending).step hs.linked hpending hok hstep
  have hearlier : ∀ {r bestFace id due}, (SetsNoTimeout t.state s' ∨ t.state.timers.nextId < s'.timers.nextId) →
      Sent P r bestFace id due ((t.state, event) :: t.history) → id < s'.timers.nextId := by
    rintro r bestFace id due hset ⟨sentStep, hmem, hsends⟩
    rcases List.mem_cons.mp hmem with rfl | hmem
    · exact hsends.id_lt hs.fresh hset hstep
    · exact (hs.earlier ⟨sentStep, hmem, hsends⟩).trans_le (hset.elim SetsNoTimeout.nextId_le le_of_lt)
  rcases step_timeouts hs.linked hid hstep with hnone | ⟨r, bestFace, prediction, delay, fibEntry, hused, htimers,
    hsends⟩
  · exact ⟨step_linked hs.linked hstep, hnone.fresh hs.fresh, hearlier (Or.inl hnone), fun htimeout =>
      hkept (hnone.timeout htimeout)⟩
  · have hlt : t.state.timers.nextId < s'.timers.nextId := by
      rw [htimers]
      exact Nat.lt_succ_of_lt (Nat.lt_succ_self _)
    refine ⟨step_linked hs.linked hstep, fun event hmem => ?_, hearlier (Or.inr hlt), fun {x id due} htimeout => ?_⟩
    · rw [htimers] at hmem ⊢
      exact NccStrategy.withTimers_fresh hs.fresh hmem
    · rw [BestFaceTimeout, htimers] at htimeout
      rcases NccStrategy.mem_withTimers.mp htimeout with hold | hnew | hpropagate
      · exact hkept hold
      · cases hnew
        exact ⟨hused, ⟨bestFace, _, List.mem_cons_self, hsends⟩, fun hanswered =>
          absurd hanswered (hs.not_answered_new _ _ _)⟩
      · cases hpropagate

theorem TimeoutsKept.firesUnanswered (hs : TimeoutsKept P t) (input : TriggerInput)
    (hok : DropsAnswered P t (.strategyTimer id input)) : FiresUnanswered P t id := by
  intro event r hdue hcallback hsome
  obtain ⟨hmem, rfl, -⟩ := TimerQueue.mem_of_dueEvent hdue
  have hpending : t.state.BestFaceTimeout r event.id event.due := by
    rw [BestFaceTimeout, ← hcallback]
    exact hmem
  have hkept := hs.timeout hpending
  refine ⟨hkept.sent, fun hanswered => ?_⟩
  obtain ⟨e, he⟩ := Option.isSome_iff_exists.mp hsome
  obtain ⟨timer, htimer, hlt⟩ := hkept.answered hanswered e he
  exact absurd hlt (not_lt.mpr (hok event hdue r e timer hcallback he htimer))

theorem start_timeoutsKept (nBuckets : Nat) (faceId : Face → Option Nat) (cs : κ) :
    TimeoutsKept P (Traced.start (new nBuckets faceId cs)) where
  linked := Pit.new_linked nBuckets
  fresh _ hmem := absurd hmem List.not_mem_nil
  earlier hsent := hsent.elim fun _ hstep => absurd hstep.1 List.not_mem_nil
  timeout htimeout := absurd htimeout List.not_mem_nil

end StrategyForwarder

/-! ### With measurements -/

namespace MeasuredForwarder

/-- The step of the forwarder, with what the strategies read. -/
def forwarded (P : Platform κ) : MeasuredState κ × Event → Option (StrategyState κ × StrategyForwarder.Event)
  | (s, .forwarder event rto) =>
      (measure P s.forwarder s.measurements rto event).toOption.map fun measured => (s.forwarder, measured.2)
  | _ => none

/-- The forwarder with its steps. -/
def forwarderTrace (P : Platform κ) (t : Traced (MeasuredState κ) Event) :
    Traced (StrategyState κ) StrategyForwarder.Event :=
  { state := t.state.forwarder, history := t.history.filterMap (forwarded P) }

/-- The condition is one on the events of the forwarder. -/
def OnForwarderTrace (P : Platform κ)
    (ok : Traced (StrategyState κ) StrategyForwarder.Event → StrategyForwarder.Event → Prop)
    (t : Traced (MeasuredState κ) Event) : Event → Prop
  | .forwarder event _ => ok (forwarderTrace P t) event
  | _ => True

theorem dropsAnswered_setInput {t : Traced (StrategyState κ) StrategyForwarder.Event} {event : StrategyForwarder.Event}
    (h : StrategyForwarder.DropsAnswered P t event) (input : TriggerInput) :
    StrategyForwarder.DropsAnswered P t (event.setInput input) := by
  cases event <;> exact h

/-- The steps of the forwarder are a run with what the strategies read. -/
theorem timeoutsKept {nBuckets : Nat} {faceId : Face → Option Nat} {cs : κ} {t : Traced (MeasuredState κ) Event}
    (hr : Reach (Traced.next (next P)) (OnForwarderTrace P (StrategyForwarder.DropsAnswered P))
      (Traced.start (new nBuckets faceId cs)) t) :
    t.state.measurements.AllPredicted ∧ StrategyForwarder.TimeoutsKept P (forwarderTrace P t) := by
  induction hr with
  | start => exact ⟨new_predicted nBuckets faceId cs, StrategyForwarder.start_timeoutsKept nBuckets faceId cs⟩
  | @next t₀ t₁ event _ hok hnext ih =>
      obtain ⟨hpredicted, ht⟩ := ih
      obtain ⟨s', hs', rfl⟩ := Option.map_eq_some_iff.mp hnext
      obtain ⟨hpredicted', hpredictedStep⟩ := next_predicted hpredicted hs'
      refine ⟨hpredicted', ?_⟩
      cases hpredictedStep with
      | forwarder event rto input hmeasure hreads hstep =>
          have hforwarded : forwarded P (t₀.state, .forwarder event rto) =
              some (t₀.state.forwarder, event.setInput input) := by
            rw [forwarded, hmeasure]
            rfl
          rw [forwarderTrace, List.filterMap_cons, hforwarded]
          exact ht.step (dropsAnswered_setInput hok input) hstep
      | cleanup n hsame =>
          rw [forwarderTrace, hsame]
          exact ht
      | faceGone face hsame =>
          rw [forwarderTrace, hsame]
          exact ht

/-- In every run in which no PIT entry that the best face has answered in time outlives the prediction, a timeout of the
best face that runs for a PIT entry is one of an Interest that was sent to the best face and not answered in time. -/
theorem fires_unanswered {nBuckets : Nat} {faceId : Face → Option Nat} {cs : κ} {t : Traced (MeasuredState κ) Event}
    (hr : Reach (Traced.next (next P)) (OnForwarderTrace P (StrategyForwarder.DropsAnswered P))
      (Traced.start (new nBuckets faceId cs)) t) (id : Nat) (input : TriggerInput) (rto : Ref → Nat)
    (hok : OnForwarderTrace P (StrategyForwarder.DropsAnswered P) t (.forwarder (.strategyTimer id input) rto)) :
    StrategyForwarder.FiresUnanswered P (forwarderTrace P t) id :=
  (timeoutsKept hr).2.firesUnanswered input hok

/-- An Interest from face 0. -/
def interestFor (name : Name) : Event :=
  .forwarder (.incomingInterest 0 (plainInterest name) 0 StrategyForwarder.noInput) noRto

/-- A Data from face 1. -/
def dataFor (name : Name) : Event := .forwarder (.incomingData 1 (plainData name)) noRto

/-- Face 1 answers an Interest for `/A/B`, and is the best face for `/A/C`. -/
def untilSentToBestFace : List Event :=
  [.forwarder (.setFibEntry 0 (some [1])) noRto, .forwarder (.insertStrategy [] .ncc) noRto,
    interestFor [.ofByte 65, .ofByte 66], dataFor [.ofByte 65, .ofByte 66], interestFor [.ofByte 65, .ofByte 67]]

/-- Longer than the prediction of 8192 microseconds. -/
def afterPrediction : Event := .forwarder (.advanceClock (milliseconds 9)) noRto

/-- The timer is due, and its PIT entry is in the table. -/
def isDue (s : StrategyState κ) (id : Nat) (r : Ref) : Bool :=
  (s.timers.dueEvent s.now id).any (fun event => decide (event.callback = .timeoutOnBestFace r)) && (s.entry r).isSome

/-- No timeout of a best face is pending when an Interest or a Data arrives. -/
def awaitsNothing (t : Traced (MeasuredState κ) Event) (event : Event) : Bool :=
  let noTimeout := t.state.forwarder.timers.pending.all fun event =>
    match event.callback with
    | .timeoutOnBestFace _ => false
    | _ => true
  match event with
  | .forwarder (.incomingInterest _ _ fibEntry _) _ =>
      noTimeout && (t.state.forwarder.nexthopsOf fibEntry).all fun face => (t.state.forwarder.base.faceId face).isSome
  | .forwarder (.incomingData _ _) _ => noTimeout
  | .forwarder (.strategyTimer _ _) _ => false
  | _ => true

theorem dropsAnswered_of_awaitsNothing {t : Traced (MeasuredState κ) Event} {event : Event}
    (h : awaitsNothing t event = true) : OnForwarderTrace P (StrategyForwarder.DropsAnswered P) t event := by
  have hnone : (t.state.forwarder.timers.pending.all fun event =>
      match event.callback with
      | .timeoutOnBestFace _ => false
      | _ => true) = true → ∀ r id due, ¬ t.state.forwarder.BestFaceTimeout r id due := by
    intro hall r id due htimeout
    have hevent := List.all_eq_true.mp hall _ htimeout
    cases hevent
  cases event with
  | forwarder event rto =>
      cases event with
      | incomingInterest inFace interest fibEntry input =>
          obtain ⟨hall, hfaces⟩ := Bool.and_eq_true_iff.mp h
          exact ⟨List.all_eq_true.mp hfaces, fun r e id due _ htimeout => absurd htimeout (hnone hall r id due)⟩
      | incomingData inFace data => exact fun r _ id due htimeout => absurd htimeout (hnone h r id due)
      | strategyTimer id input => cases h
      | _ => trivial
  | _ => trivial

/-- The Interest for `/A/C` is not answered, and the timer is due. -/
theorem fires_unanswered_due : ∃ t : Traced (MeasuredState (Cs Unit)) Event,
    Reach (Traced.next (next Platform.sample))
      (OnForwarderTrace Platform.sample (StrategyForwarder.DropsAnswered Platform.sample))
      (Traced.start (new 16 some ⟨[], ()⟩)) t ∧ isDue t.state.forwarder 1 1 = true ∧
      StrategyForwarder.FiresUnanswered Platform.sample (forwarderTrace Platform.sample t) 1 := by
  have hrun : ((exec (guarded (Traced.next (next Platform.sample)) awaitsNothing) (Traced.start (new 16 some ⟨[], ()⟩))
      (untilSentToBestFace ++ [afterPrediction])).any fun t => isDue t.state.forwarder 1 1 &&
        (t.state.forwarder.entry 1).all fun e => e.stragglerTimer.isNone) = true := by
    decide +kernel
  obtain ⟨t, ht, hfound⟩ := (Option.any_eq_true _ _).mp hrun
  obtain ⟨hdue, hnone⟩ := Bool.and_eq_true_iff.mp hfound
  have hok : ∀ (t : Traced (MeasuredState (Cs Unit)) Event) event, awaitsNothing t event = true →
      OnForwarderTrace Platform.sample (StrategyForwarder.DropsAnswered Platform.sample) t event := fun _ _ h =>
    dropsAnswered_of_awaitsNothing h
  have hreach := (reach_of_exec_guarded .start ht).mono hok
  refine ⟨t, hreach, hdue, fires_unanswered hreach 1 StrategyForwarder.noInput noRto ?_⟩
  intro event hevent r e timer hcallback he htimer
  obtain ⟨hcall, -⟩ := Bool.and_eq_true_iff.mp hdue
  obtain ⟨event', hevent', hcallback'⟩ := (Option.any_eq_true _ _).mp hcall
  cases hevent.symm.trans hevent'
  cases hcallback.symm.trans (of_decide_eq_true hcallback')
  have hnotimer := (Option.all_eq_true _ _).mp hnone e he
  rw [htimer] at hnotimer
  cases hnotimer

/-- Face 1 answers at once; the PIT entry waits for stragglers when the prediction ends. -/
def untilAnsweredInTime : List Event := untilSentToBestFace ++ [dataFor [.ofByte 65, .ofByte 67], afterPrediction]

/-- The latest steps are those of the Interest and the Data, and one more. -/
def answersLast (P : Platform κ) (r : Ref) (bestFace : Face) (id due : Nat) (sent : Interest) :
    StrategyForwarder.History κ → Bool
  | _ :: (s₁, .incomingData dataFace data) :: (s₀, .incomingInterest inFace interest fibEntry input) :: _ =>
      decide (NccStrategy.getBestFace input.measurementsInfo = some bestFace ∧ id = s₀.timers.nextId ∧
        due = s₀.now + microseconds input.measurementsInfo.prediction) &&
        ((StrategyForwarder.onIncomingInterest P s₀ inFace interest fibEntry input).toOption.any fun s' =>
          decide (s'.base.log = s₀.base.log ++ [.inInterest inFace interest, .outInterest r bestFace sent] ∧
            ⟨id, due, .timeoutOnBestFace r⟩ ∈ s'.timers.pending)) &&
        decide (dataFace = bestFace ∧ r ∈ matchedBy P s₁.base dataFace data ∧ s₁.now ≤ due)
  | _ => false

theorem answered_of_answersLast {r : Ref} {bestFace : Face} {id due : Nat} {sent : Interest}
    {history : StrategyForwarder.History κ} (h : answersLast P r bestFace id due sent history = true) :
    StrategyForwarder.Answered P r id due history := by
  unfold answersLast at h
  split at h
  · rename_i last s₁ dataFace data s₀ inFace interest fibEntry input before
    rw [Bool.and_eq_true, Bool.and_eq_true, decide_eq_true_iff, decide_eq_true_iff] at h
    obtain ⟨⟨⟨hbest, hid, hdue⟩, hsent⟩, hanswers⟩ := h
    obtain ⟨s', hok, hset⟩ := (Option.any_eq_true _ _).mp hsent
    obtain ⟨hlog, htimeout⟩ := of_decide_eq_true hset
    have hsends : StrategyForwarder.SendsToBestFace P r bestFace id due s₀
        (.incomingInterest inFace interest fibEntry input) :=
      ⟨hbest, hid, hdue, s', sent, toOption_eq_some_iff.mp hok, hlog, htimeout⟩
    exact Or.inl (Or.inr ⟨bestFace, ⟨_, List.mem_cons_self, hsends⟩, hanswers⟩)
  · cases h

def predictionOf (s : MeasuredState κ) (n : Name) : Option Nat :=
  (s.measurements.measurementsEntryInfoOf n).map NccMeasurementsInfo.prediction

/-- The timeout runs, and the prediction rises. -/
theorem fires_answered : ∃ t : Traced (MeasuredState (Cs Unit)) Event,
    Reach (Traced.next (next Platform.sample)) anyStep (Traced.start (new 16 some ⟨[], ()⟩)) t ∧
      ¬ StrategyForwarder.FiresUnanswered Platform.sample (forwarderTrace Platform.sample t) 1 ∧
      predictionOf t.state [.ofByte 65, .ofByte 67] = some 8128 ∧
      (next Platform.sample t.state (.forwarder (.strategyTimer 1 StrategyForwarder.noInput) noRto)).bind
        (fun s => predictionOf s [.ofByte 65, .ofByte 67]) = some 9144 := by
  have hrun : ((exec (Traced.next (next Platform.sample)) (Traced.start (new 16 some ⟨[], ()⟩)) untilAnsweredInTime).any
      fun t => isDue t.state.forwarder 1 1 &&
        ((t.state.forwarder.timers.dueEvent t.state.forwarder.now 1).all fun event =>
          answersLast Platform.sample 1 1 1 event.due (plainInterest [.ofByte 65, .ofByte 67])
            (forwarderTrace Platform.sample t).history) &&
        decide (predictionOf t.state [.ofByte 65, .ofByte 67] = some 8128 ∧
          (next Platform.sample t.state (.forwarder (.strategyTimer 1 StrategyForwarder.noInput) noRto)).bind
            (fun s => predictionOf s [.ofByte 65, .ofByte 67]) = some 9144)) = true := by
    decide +kernel
  obtain ⟨t, ht, hfound⟩ := (Option.any_eq_true _ _).mp hrun
  rw [Bool.and_eq_true, Bool.and_eq_true, isDue, Bool.and_eq_true, decide_eq_true_iff] at hfound
  obtain ⟨⟨⟨hcall, hentry⟩, hlast⟩, hraised⟩ := hfound
  obtain ⟨event, hevent, hcallback⟩ := (Option.any_eq_true _ _).mp hcall
  refine ⟨t, reach_of_exec .start ht, fun hfires => ?_, hraised⟩
  obtain ⟨-, hunanswered⟩ := hfires event 1 hevent (of_decide_eq_true hcallback) hentry
  exact hunanswered (answered_of_answersLast ((Option.all_eq_true _ _).mp hlast event hevent))

end MeasuredForwarder
end NfdPitless
