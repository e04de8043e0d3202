import NfdPitless.StrategyTriggers
import NfdPitless.StrategyChoosing

/-! The rule for invariants of the forwarder with its strategies. An invariant that a change of the tables keeps, a
trigger, a timer that fires, the end of a PIT entry and the choice of a strategy is kept by every step; an Interest may
be let into a trigger under a condition only, which is then one on the step. -/

namespace NfdPitless

open Forwarder StrategyState

variable {κ : Type} {P : Platform κ} {s s' : StrategyState κ} {r : Ref} {e : PitEntry} {strategy : Strategy}
  {base : ForwarderState κ}

theorem NccStrategy.beforeSatisfyInterest_base (s : StrategyState κ) (r : Ref) :
    (NccStrategy.beforeSatisfyInterest s r).base = s.base := by
  rw [NccStrategy.beforeSatisfyInterest]
  split
  · rfl
  · split <;> rfl

theorem Strategy.beforeSatisfyInterest_base (strategy : Strategy) (s : StrategyState κ) (r : Ref) :
    (strategy.beforeSatisfyInterest s r).base = s.base := by
  cases strategy with
  | ncc => exact NccStrategy.beforeSatisfyInterest_base s r
  | access =>
      rw [Strategy.beforeSatisfyInterest, AccessStrategy.beforeSatisfyInterest]
      split <;> rfl
  | _ => rfl

namespace StrategyForwarder

/-- The Interest is not dropped and not answered from the content store: in the PIT entry that is found or made for it
it goes to the strategy. -/
def Receives (P : Platform κ) (s : StrategyState κ) (inFace : Face) (interest : Interest) (r : Ref) (e : PitEntry) :
    Prop :=
  isViolatingLocalhost P inFace interest.name = false ∧
    (∃ pit isNew, s.base.pit.insert P.cityHash interest = some (pit, r, isNew) ∧ pit.entries r = some e) ∧
    hasDuplicateNonce P s.base e inFace interest = false ∧
    (e.inRecords = [] → (P.store.find s.base.cs s.now interest).2 = none)

/-- What the strategy finds when an Interest arrived in `s`. -/
structure AtTrigger (s s' : StrategyState κ) (r : Ref) (e : PitEntry) : Prop where
  timers_eq : s'.timers = s.timers
  info_eq : s'.info = s.info
  fib_eq : s'.fib = s.fib
  strategyChoice_eq : s'.strategyChoice = s.strategyChoice
  now_eq : s'.now = s.now
  entry : ∃ e', s'.entry r = some e' ∧ e'.interest = e.interest ∧ e'.outRecords = e.outRecords

/-- The Interest of an event is let in where its strategy is triggered. -/
def Admitted (P : Platform κ) (admits : StrategyState κ → Ref → Ref → Prop) (s : StrategyState κ) : Event → Prop
  | .incomingInterest inFace interest fibEntry _ =>
      ∀ r e s', Receives P s inFace interest r e → AtTrigger s s' r e → admits s' r fibEntry
  | _ => True

/-- What an invariant of the pipelines has to be kept by. -/
structure PipelineRules (P : Platform κ) (allowed : Assertion → Prop) (admits : StrategyState κ → Ref → Ref → Prop)
    (I : StrategyState κ → Prop) : Prop where
  linked {s : StrategyState κ} : I s → s.base.pit.Linked
  /-- The PIT entries keep their names and stay pending. -/
  withBase {s : StrategyState κ} {base : ForwarderState κ} : I s → base.pit.Linked →
    (∀ x e, s.entry x = some e → ∃ e', base.pit.entries x = some e' ∧ e'.interest = e.interest ∧
      (e.inRecords ≠ [] → e'.inRecords ≠ [])) → I { s with base }
  received {s : StrategyState κ} {r fibEntry : Ref} {e : PitEntry} {strategy : Strategy} (inFace : Face)
    (input : TriggerInput) : I s → s.entry r = some e → e.inRecords ≠ [] →
    s.effectiveStrategy e.getName = some strategy → admits s r fibEntry →
    Ends allowed I (strategy.afterReceiveInterest P s inFace fibEntry r input)
  /-- After the trigger the PIT entry may have lost its in-records. -/
  satisfied {s : StrategyState κ} {r : Ref} {e : PitEntry} {strategy : Strategy} {base : ForwarderState κ} : I s →
    s.entry r = some e → s.effectiveStrategy e.getName = some strategy → base.pit.Linked →
    (∀ x, x ≠ r → base.pit.entries x = s.base.pit.entries x) →
    (∃ e', base.pit.entries r = some e' ∧ e'.interest = e.interest) →
    I { strategy.beforeSatisfyInterest s r with base }
  finalized {s : StrategyState κ} {r : Ref} {base : ForwarderState κ} : I s → base.pit.Linked →
    (∀ x, x ≠ r → base.pit.entries x = s.base.pit.entries x) → I { s.clearStrategyInfo r with base }
  fired {s : StrategyState κ} {id : Nat} {event : TimerEvent StrategyCallback} (input : TriggerInput) : I s →
    s.timers.dueEvent s.now id = some event →
    Ends allowed I (Strategy.callback P (s.cancel (some id)) input event.callback)
  withFib {s : StrategyState κ} (fib : Ref → Option (List Face)) : I s → I { s with fib }
  withFaceTable {s : StrategyState κ} (faceTable : Nat → Option Face) : I s → I { s with faceTable }
  nameTreeEntry : allowed .nameTreeEntry

/-- The choice of a strategy keeps the invariant as well. -/
structure InvariantRules (P : Platform κ) (allowed : Assertion → Prop) (admits : StrategyState κ → Ref → Ref → Prop)
    (I : StrategyState κ → Prop) : Prop extends PipelineRules P allowed admits I where
  chosen {s s' : StrategyState κ} : I s → StrategyChoice.Chosen s s' → I s'
  erasedPrefix : allowed .erasedPrefix

/-- An event that chooses a strategy. -/
def Event.Chooses : Event → Prop
  | .insertStrategy _ _ => True
  | .eraseStrategy _ => True
  | _ => False

namespace PipelineRules

variable {allowed : Assertion → Prop} {admits : StrategyState κ → Ref → Ref → Prop} {I : StrategyState κ → Prop}
  {inFace : Face} {interest : Interest} {data : Data} {fibEntry : Ref} {input : TriggerInput}

theorem withSamePit (h : PipelineRules P allowed admits I) (hs : I s) (hpit : base.pit = s.base.pit) :
    I { s with base } := by
  refine h.withBase hs (hpit ▸ h.linked hs) fun x e he => ⟨e, ?_, rfl, fun hin => hin⟩
  rw [hpit]
  exact he

/-- One PIT entry changes and stays pending. -/
theorem modifyEntry (h : PipelineRules P allowed admits I) (hs : I s) (r : Ref) {f : PitEntry → PitEntry}
    (hnt : ∀ e, (f e).nameTreeEntry = e.nameTreeEntry) (hint : ∀ e, (f e).interest = e.interest)
    (hin : ∀ e, e.inRecords ≠ [] → (f e).inRecords ≠ []) : I { s with base := s.base.modifyEntry r f } := by
  refine h.withBase hs ((h.linked hs).modifyEntry r hnt) fun x e he => ?_
  rw [entries_modify]
  by_cases hx : x = r
  · subst hx
    exact ⟨f e, by rw [if_pos rfl, ← StrategyState.entry, he, Option.map_some], hint e, hin e⟩
  · exact ⟨e, (if_neg hx).trans he, rfl, fun hin => hin⟩

theorem cancelTimers (h : PipelineRules P allowed admits I) (hs : I s) (r : Ref) :
    I { s with base := cancelUnsatisfyAndStragglerTimer s.base r } :=
  h.modifyEntry hs r (fun _ => rfl) (fun _ => rfl) (fun _ hin => hin)

theorem setStragglerTimer (h : PipelineRules P allowed admits I) (hs : I s) (r : Ref) (isSatisfied : Bool)
    (period : Int) :
    I { s with base := Forwarder.setStragglerTimer s.base r isSatisfied period } :=
  h.modifyEntry hs r (fun _ => rfl) (fun _ => rfl) (fun _ hin => hin)

theorem dispatch (h : PipelineRules P allowed admits I) {Q : StrategyState κ → Prop}
    {trigger : StrategyState κ → Strategy → StrategyOutcome κ}
    (htrigger : ∀ e strategy, s.entry r = some e → s.effectiveStrategy e.getName = some strategy →
      Ends allowed Q (trigger s strategy)) : Ends allowed Q (dispatchToStrategy s r trigger) := by
  rw [dispatchToStrategy]
  split
  · exact h.nameTreeEntry
  · rename_i strategy hfound
    obtain ⟨e, he, heff⟩ := Option.bind_eq_some_iff.mp hfound
    exact htrigger e strategy he heff

theorem onInterestFinalize (h : PipelineRules P allowed admits I) (hs : I s) (r : Ref) (isSatisfied : Bool)
    (dataFreshnessPeriod : Int) : Ends allowed I (onInterestFinalize P s r isSatisfied dataFreshnessPeriod) := by
  rw [StrategyForwarder.onInterestFinalize]
  cases he : s.base.pit.entries r with
  | none =>
      rw [onInterestFinalize_absent he]
      exact h.nameTreeEntry
  | some e =>
      obtain ⟨base, -, hbase, -, hlinked, hentries, -⟩ :=
        onInterestFinalize_spec (P := P) (h.linked hs) he isSatisfied dataFreshnessPeriod
      rw [hbase]
      refine h.finalized hs hlinked fun x hx => ?_
      rw [hentries, Function.update_of_ne hx]

theorem onInterestUnsatisfied (h : PipelineRules P allowed admits I) (hs : I s) (r : Ref) :
    Ends allowed I (onInterestUnsatisfied P s r) := by
  have hexpired : Ends allowed I
      (dispatchToStrategy s r fun s strategy => .ok (strategy.beforeExpirePendingInterest s r)) :=
    h.dispatch fun _ _ _ _ => hs
  exact hexpired.bind fun s' hs' => h.onInterestFinalize hs' r false (-1)

/-! ### Incoming Interest -/

/-- The trigger is in a state with the same tables of the strategies. -/
theorem onContentStoreMiss (h : PipelineRules P allowed admits I) (hs : I s) (he : s.entry r = some e)
    (hadmits : ∀ s', AtTrigger s s' r e → admits s' r fibEntry) :
    Ends allowed I (onContentStoreMiss P s inFace r interest fibEntry input) := by
  have hrecord : ∀ e : PitEntry, (e.insertOrUpdateInRecord s.now inFace interest).inRecords ≠ [] := fun e =>
    Lists.replaceOrCons_ne_nil _ _ _
  have hinserted := h.modifyEntry hs r (f := fun e => e.insertOrUpdateInRecord s.now inFace interest)
    (fun _ => rfl) (fun _ => rfl) (fun e _ => hrecord e)
  have hmiss : I { s with base := setUnsatisfyTimer (s.base.modifyEntry r fun e =>
      e.insertOrUpdateInRecord s.now inFace interest) r } :=
    h.modifyEntry hinserted r (fun _ => rfl) (fun _ => rfl) (fun _ hin => hin)
  have hentry : ∃ e', StrategyState.entry { s with base := setUnsatisfyTimer (s.base.modifyEntry r fun e =>
      e.insertOrUpdateInRecord s.now inFace interest) r } r = some e' ∧ e'.interest = e.interest ∧
        e'.outRecords = e.outRecords ∧ e'.inRecords ≠ [] := by
    rw [StrategyState.entry, setUnsatisfyTimer, entries_modify, if_pos rfl, entries_modify, if_pos rfl,
      ← StrategyState.entry, he]
    exact ⟨_, rfl, rfl, rfl, hrecord e⟩
  obtain ⟨e', he', hint, hout, hin⟩ := hentry
  rw [StrategyForwarder.onContentStoreMiss]
  refine h.dispatch fun e'' strategy he'' heff => ?_
  rw [he'] at he''
  cases he''
  exact h.received inFace input hmiss he' hin heff (hadmits _ ⟨rfl, rfl, rfl, rfl, rfl, e', he', hint, hout⟩)

theorem onContentStoreHit (h : PipelineRules P allowed admits I) (hs : I s) (inFace : Face) (r : Ref) (data : Data) :
    Ends allowed I (onContentStoreHit P s inFace r data) := by
  have hdispatch : Ends allowed I
      (dispatchToStrategy s r fun s strategy => .ok (strategy.beforeSatisfyInterest s r)) := by
    refine h.dispatch fun e strategy he heff => ?_
    have hbase := strategy.beforeSatisfyInterest_base s r
    show I { strategy.beforeSatisfyInterest s r with base := (strategy.beforeSatisfyInterest s r).base }
    refine h.satisfied hs he heff ?_ (fun x _ => ?_) ⟨e, ?_, rfl⟩
    · rw [hbase]
      exact h.linked hs
    · rw [hbase]
    · rw [hbase]
      exact he
  refine hdispatch.map fun s' hs' => ?_
  have hset := h.setStragglerTimer hs' r true data.freshnessPeriod
  exact h.withSamePit (s := { s' with base := Forwarder.setStragglerTimer s'.base r true data.freshnessPeriod }) hset
    (onOutgoingData_pit _ data inFace)

theorem onPitEntry (h : PipelineRules P allowed admits I) (hs : I s) (he : s.entry r = some e)
    (hadmits : ∀ s', hasDuplicateNonce P s.base e inFace interest = false →
      (e.inRecords = [] → (P.store.find s.base.cs s.now interest).2 = none) → AtTrigger s s' r e →
        admits s' r fibEntry) :
    Ends allowed I (onPitEntry P s inFace interest r e fibEntry input) := by
  have hcancel := h.cancelTimers hs r
  obtain ⟨e₁, he₁, hint, hout⟩ : ∃ e₁, (cancelUnsatisfyAndStragglerTimer s.base r).pit.entries r = some e₁ ∧
      e₁.interest = e.interest ∧ e₁.outRecords = e.outRecords := by
    rw [cancelUnsatisfyAndStragglerTimer, entries_modify, if_pos rfl, ← StrategyState.entry, he]
    exact ⟨_, rfl, rfl, rfl⟩
  have hback : ∀ {cs s'}, AtTrigger { s with base := { cancelUnsatisfyAndStragglerTimer s.base r with cs } } s' r e₁ →
      AtTrigger s s' r e := by
    rintro cs s' ⟨htimers, hinfo, hfib, hchoice, hnow, e', he', hint', hout'⟩
    exact ⟨htimers, hinfo, hfib, hchoice, hnow, e', he', hint'.trans hint, hout'.trans hout⟩
  rw [StrategyForwarder.onPitEntry]
  split
  · exact hs
  · rename_i hnonce
    rw [Bool.not_eq_true] at hnonce
    dsimp only
    split
    · rename_i hempty
      have hfind : I { s with base := { cancelUnsatisfyAndStragglerTimer s.base r with
          cs := (P.store.find s.base.cs s.now interest).1 } } :=
        h.withSamePit (s := { s with base := cancelUnsatisfyAndStragglerTimer s.base r }) hcancel rfl
      split
      · exact h.onContentStoreHit hfind inFace r _
      · rename_i hmiss
        exact h.onContentStoreMiss hfind he₁ fun s' hs' => hadmits s' hnonce (fun _ => hmiss) (hback hs')
    · rename_i hpending
      exact h.onContentStoreMiss hcancel he₁ fun s' hs' =>
        hadmits s' hnonce (fun hempty => absurd hempty hpending) (hback hs')

theorem onIncomingInterest (h : PipelineRules P allowed admits I) (hs : I s)
    (hadmits : Admitted P admits s (.incomingInterest inFace interest fibEntry input)) :
    Ends allowed I (onIncomingInterest P s inFace interest fibEntry input) := by
  have hlogged : I { s with base := s.base.logged (.inInterest inFace interest) } := h.withSamePit hs rfl
  rw [StrategyForwarder.onIncomingInterest]
  dsimp only
  split
  · exact hlogged
  · rename_i hscope
    rw [Bool.not_eq_true] at hscope
    split
    · exact h.nameTreeEntry
    · rename_i pit r isNew hins
      split
      · exact h.nameTreeEntry
      · rename_i e he
        obtain ⟨hlinked, hother, -, -, -, hcases⟩ := (h.linked hlogged).insert_spec hins he
        have hfound : I { s with base := { s.base.logged (.inInterest inFace interest) with pit } } := by
          refine h.withBase (s := { s with base := s.base.logged (.inInterest inFace interest) }) hlogged hlinked
            fun x e' he' => ⟨e', ?_, rfl, fun hin => hin⟩
          rcases hcases with ⟨-, hentries, -⟩ | ⟨-, hfree, -⟩
          · exact (congrFun hentries x).trans he'
          · refine (hother x ?_).trans he'
            rintro rfl
            exact absurd (hfree.symm.trans he') (by simp)
        refine h.onPitEntry hfound he fun s' hnonce hmiss hs' => ?_
        obtain ⟨htimers, hinfo, hfib, hchoice, hnow, hentry⟩ := hs'
        exact hadmits r e s' ⟨hscope, ⟨pit, isNew, hins, he⟩, hnonce, hmiss⟩
          ⟨htimers, hinfo, hfib, hchoice, hnow, hentry⟩

/-- A PIT entry that is satisfied keeps its Interest. -/
theorem satisfied_spec (hl : base.pit.Linked) (r : Ref) (inFace : Face) (data : Data) :
    (Forwarder.setStragglerTimer (markSatisfied (insertDeadNonceList P base r true data.freshnessPeriod (some inFace)) r
        inFace) r true data.freshnessPeriod).pit.Linked ∧
      (∀ x, x ≠ r → (Forwarder.setStragglerTimer (markSatisfied (insertDeadNonceList P base r true data.freshnessPeriod
        (some inFace)) r inFace) r true data.freshnessPeriod).pit.entries x = base.pit.entries x) ∧
      ∀ e, base.pit.entries r = some e → ∃ e', (Forwarder.setStragglerTimer (markSatisfied (insertDeadNonceList P base r
        true data.freshnessPeriod (some inFace)) r inFace) r true data.freshnessPeriod).pit.entries r = some e' ∧
          e'.interest = e.interest := by
  have hq := insertDeadNonceList_queued (P := P) base r true data.freshnessPeriod (some inFace)
  generalize insertDeadNonceList P base r true data.freshnessPeriod (some inFace) = queued at hq ⊢
  have hlinked : queued.pit.Linked := by
    rw [hq.pit_eq]
    exact hl
  have hmarked : ∀ x, (markSatisfied queued r inFace).pit.entries x =
      if x = r then (base.pit.entries r).map fun e => e.deleteInRecords.deleteOutRecord inFace
      else base.pit.entries x := fun x => by
    rw [← hq.pit_eq]
    exact entries_modify queued r _ x
  refine ⟨linked_setStragglerTimer (linked_markSatisfied hlinked r inFace) r _ _, fun x hx => ?_, fun e he => ?_⟩
  · rw [Forwarder.setStragglerTimer, entries_modify, if_neg hx, hmarked, if_neg hx]
  · rw [Forwarder.setStragglerTimer, entries_modify, if_pos rfl, hmarked, if_pos rfl, he]
    exact ⟨_, rfl, rfl⟩

theorem satisfyEntry (h : PipelineRules P allowed admits I) (hs : I s) (inFace : Face) (data : Data) (r : Ref) :
    Ends allowed I (satisfyEntry P inFace data s r) := by
  have hcancel := h.cancelTimers hs r
  rw [StrategyForwarder.satisfyEntry, dispatchToStrategy]
  split
  · exact h.nameTreeEntry
  · rename_i strategy hfound
    obtain ⟨e, he, heff⟩ := Option.bind_eq_some_iff.mp hfound
    have hbase := strategy.beforeSatisfyInterest_base { s with base := cancelUnsatisfyAndStragglerTimer s.base r } r
    have hl : (strategy.beforeSatisfyInterest
        { s with base := cancelUnsatisfyAndStragglerTimer s.base r } r).base.pit.Linked := by
      rw [hbase]
      exact h.linked hcancel
    obtain ⟨hlinked, hother, hentry⟩ := satisfied_spec (P := P) hl r inFace data
    refine h.satisfied hcancel he heff hlinked (fun x hx => ?_) (hentry e ?_)
    · rw [hother x hx, hbase]
    · rw [hbase]
      exact he

theorem onIncomingData (h : PipelineRules P allowed admits I) (hs : I s) (inFace : Face) (data : Data) :
    Ends allowed I (onIncomingData P s inFace data) := by
  have hlogged : I { s with base := s.base.logged (.inData inFace data) } := h.withSamePit hs rfl
  rw [StrategyForwarder.onIncomingData]
  dsimp only
  split
  · exact hlogged
  · split
    · exact h.withSamePit (s := { s with base := s.base.logged (.inData inFace data) }) hlogged
        (onDataUnsolicited_pit _ inFace data)
    · have hround : ∀ acc : StrategyState κ × List Face, ∀ r, I acc.1 →
          Ends allowed (fun acc => I acc.1) (satisfyRound P inFace data acc r) := fun acc r hacc =>
        (h.satisfyEntry hacc inFace data r).map fun _ hs' => hs'
      have hcached : I { s with base := { s.base.logged (.inData inFace data) with
          cs := P.store.insert s.base.cs s.now data false } } :=
        h.withSamePit (s := { s with base := s.base.logged (.inData inFace data) }) hlogged rfl
      refine (Ends.foldlM (I := fun acc => I acc.1) (fun acc r _ => hround acc r) hcached).map fun result hs' => ?_
      exact h.withSamePit hs' (sendToDownstreams_pit inFace data result.2 result.1.base)

/-- Every step that chooses no strategy keeps the invariant. -/
theorem step (h : PipelineRules P allowed admits I) (hs : I s) {event : Event} (hadmits : Admitted P admits s event)
    (hchooses : ¬ event.Chooses) : Ends allowed I (step P s event) := by
  cases event with
  | incomingInterest inFace interest fibEntry input => exact h.onIncomingInterest hs hadmits
  | incomingData inFace data => exact h.onIncomingData hs inFace data
  | unsatisfyTimer r =>
      rw [StrategyForwarder.step]
      split
      · exact hs
      · split
        · exact h.onInterestUnsatisfied hs r
        · exact hs
  | stragglerTimer r =>
      rw [StrategyForwarder.step]
      split
      · exact hs
      · split
        · exact h.onInterestFinalize hs r _ _
        · exact hs
  | strategyTimer id input =>
      rw [StrategyForwarder.step, fire]
      split
      · exact hs
      · rename_i hdue
        exact h.fired input hs hdue
  | insertStrategy entryPrefix strategy => exact absurd trivial hchooses
  | eraseStrategy entryPrefix => exact absurd trivial hchooses
  | setFibEntry fibEntry nexthops => exact h.withFib _ hs
  | setFace id face => exact h.withFaceTable _ hs
  | markDeadNonceList => exact h.withSamePit hs rfl
  | adjustDeadNonceListCapacity => exact h.withSamePit hs rfl
  | contentStoreTimer key => exact h.withSamePit hs rfl
  | setFaceId face id => exact h.withSamePit hs rfl
  | advanceClock duration => exact h.withSamePit hs rfl

end PipelineRules

namespace InvariantRules

variable {allowed : Assertion → Prop} {admits : StrategyState κ → Ref → Ref → Prop} {I : StrategyState κ → Prop}

theorem chosen_ends (h : InvariantRules P allowed admits I) (hs : I s) {outcome : StrategyOutcome κ}
    (hcases : outcome = .error .erasedPrefix ∨ outcome = .error .nameTreeEntry ∨
      ∃ s', outcome = .ok s' ∧ StrategyChoice.Chosen s s') : Ends allowed I outcome := by
  rcases hcases with rfl | rfl | ⟨s', rfl, hchosen⟩
  · exact h.erasedPrefix
  · exact h.nameTreeEntry
  · exact h.chosen hs hchosen

/-- Every step keeps the invariant. -/
theorem step (h : InvariantRules P allowed admits I) (hs : I s) {event : Event} (hadmits : Admitted P admits s event) :
    Ends allowed I (step P s event) := by
  cases event with
  | insertStrategy entryPrefix strategy =>
      exact h.chosen_ends hs (Or.inr (StrategyChoice.choose_cases s entryPrefix strategy))
  | eraseStrategy entryPrefix => exact h.chosen_ends hs (StrategyChoice.unchoose_cases s entryPrefix)
  | _ => exact h.toPipelineRules.step hs hadmits fun hchooses => hchooses

end InvariantRules

theorem step_of_next {event : Event} (h : next P s event = some s') : step P s event = .ok s' :=
  toOption_eq_some_iff.mp h

/-- In every run whose steps let in what the invariant admits, it holds. -/
theorem InvariantRules.reach {allowed : Assertion → Prop} {admits : StrategyState κ → Ref → Ref → Prop}
    {I : StrategyState κ → Prop} (h : InvariantRules P allowed admits I) {ok : StrategyState κ → Event → Prop}
    (hok : ∀ s event, ok s event → Admitted P admits s event) {init : StrategyState κ} (hinit : I init)
    (hr : Reach (next P) ok init s) : I s :=
  hr.invariant hinit fun _ _ _ hs he hstep => (h.step hs (hok _ _ he)).of_ok (step_of_next hstep)

end StrategyForwarder
end NfdPitless
