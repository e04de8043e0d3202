import NfdPitless.MeasuredForwarder
import NfdPitless.MeasuredItems
import NfdPitless.StrategyPipelines

/-! Every Measurements entry in the namespace of access has the item of access, in every run in which access takes over
no entry of another strategy and NCC makes none in the namespace of access. -/

namespace NfdPitless

open LongestPrefix Forwarder MeasurementsTable

variable {κ : Type} {P : Platform κ}

section Choice

variable {s s' s'' : StrategyState κ} {r : Ref}

/-- From `s` to `s'` a strategy acted on the PIT entry `r`; it chooses no strategy. -/
structure KeepsChoice (r : Ref) (s s' : StrategyState κ) : Prop where
  acted : Acted r s.base s'.base
  strategyChoice_eq : s'.strategyChoice = s.strategyChoice

namespace KeepsChoice

theorem of_base {base : ForwarderState κ} (h : Acted r s.base base) : KeepsChoice r s { s with base } := ⟨h, rfl⟩

theorem of_same_base (r : Ref) (hbase : s'.base = s.base) (hchoice : s'.strategyChoice = s.strategyChoice) :
    KeepsChoice r s s' where
  acted := hbase ▸ Acted.refl r s.base
  strategyChoice_eq := hchoice

theorem rules (P : Platform κ) (r : Ref) : TriggerRules P (fun _ => True) r (fun _ => True) (KeepsChoice r) where
  refl s := of_same_base r rfl rfl
  trans h h' := ⟨h.acted.trans h'.acted, h'.strategyChoice_eq.trans h.strategyChoice_eq⟩
  keeps _ _ := trivial
  send {s} outFace _ := by
    rcases sendInterest_acted P s r outFace with hsend | ⟨base, hacted, hsend⟩
    · rw [hsend]
      trivial
    · rw [hsend]
      exact of_base hacted
  reject s := by
    obtain ⟨base, hacted, hreject⟩ := rejectPendingInterest_acted P s r
    rw [hreject]
    exact of_base hacted
  setRetx _ _ := of_same_base r rfl rfl
  lastOutgoing := trivial
  earliestOutRecord := trivial

theorem afterReceiveInterest (strategy : Strategy) (s : StrategyState κ) (inFace : Face) (fibEntry r : Ref)
    (input : TriggerInput) :
    Ends (fun _ => True) (KeepsChoice r s) (strategy.afterReceiveInterest P s inFace fibEntry r input) := by
  have hrules := rules P r
  cases strategy with
  | bestRoute2 => exact hrules.bestRoute2 trivial inFace fibEntry
  | multicast => exact hrules.multicast trivial fibEntry
  | clientControl => exact hrules.clientControl trivial fibEntry input
  | ncc =>
      exact hrules.ncc (fun _ _ => of_same_base r rfl rfl) (fun _ _ _ => of_same_base r rfl rfl)
        (fun _ _ => of_same_base r rfl rfl) trivial fibEntry input
  | access => exact hrules.access (fun _ _ _ _ _ _ => of_same_base r rfl rfl) trivial inFace fibEntry input

theorem callback (s : StrategyState κ) (input : TriggerInput) (callback : StrategyCallback) :
    Ends (fun _ => True) (fun s' => ∃ r, KeepsChoice r s s') (Strategy.callback P s input callback) := by
  cases callback with
  | afterRtoTimeout pitWeak fibWeak inFace firstOutFace =>
      rw [Strategy.callback, AccessStrategy.afterRtoTimeout]
      split
      · trivial
      · split
        · exact ⟨pitWeak, of_same_base pitWeak rfl rfl⟩
        · exact ((rules P pitWeak).accessMulticast trivial _ _).mono fun _ h => ⟨pitWeak, h⟩
  | doPropagate pitWeak fibWeak =>
      exact ((rules P pitWeak).doPropagate (fun _ _ => of_same_base pitWeak rfl rfl)
        (fun _ _ _ => of_same_base pitWeak rfl rfl) trivial (fun _ _ _ => trivial) fibWeak input).mono
        fun _ h => ⟨pitWeak, h⟩
  | timeoutOnBestFace pitWeak => exact ⟨pitWeak, of_same_base pitWeak rfl rfl⟩

end KeepsChoice

theorem Strategy.beforeSatisfyInterest_strategyChoice (strategy : Strategy) (s : StrategyState κ) (r : Ref) :
    (strategy.beforeSatisfyInterest s r).strategyChoice = s.strategyChoice := by
  cases strategy with
  | ncc =>
      rw [Strategy.beforeSatisfyInterest, NccStrategy.beforeSatisfyInterest]
      split
      · rfl
      · split <;> rfl
  | access =>
      rw [Strategy.beforeSatisfyInterest, AccessStrategy.beforeSatisfyInterest]
      split <;> rfl
  | _ => rfl

/-- The strategies chosen are those of `choice`. -/
def HasChoice (choice : Choice) (s : StrategyState κ) : Prop := s.base.pit.Linked ∧ s.strategyChoice = choice

theorem KeepsChoice.hasChoice {choice : Choice} (h : KeepsChoice r s s') (hs : HasChoice choice s) :
    HasChoice choice s' :=
  ⟨h.acted.linked hs.1, h.strategyChoice_eq.trans hs.2⟩

theorem hasChoice_rules (P : Platform κ) (choice : Choice) :
    StrategyForwarder.PipelineRules P (fun _ => True) (fun _ _ _ => True) (HasChoice choice) where
  linked hs := hs.1
  withBase hs hl _ := ⟨hl, hs.2⟩
  received inFace input hs _ _ _ _ := (KeepsChoice.afterReceiveInterest _ _ inFace _ _ input).mono fun _ h =>
    h.hasChoice hs
  satisfied {s r _ strategy _} hs _ _ hl _ _ := ⟨hl, (strategy.beforeSatisfyInterest_strategyChoice s r).trans hs.2⟩
  finalized hs hl _ := ⟨hl, hs.2⟩
  fired input hs _ := (KeepsChoice.callback _ input _).mono fun _ h => h.elim fun _ h => h.hasChoice hs
  withFib _ hs := hs
  withFaceTable _ hs := hs
  nameTreeEntry := trivial

theorem admitted_any (s : StrategyState κ) (event : StrategyForwarder.Event) :
    StrategyForwarder.Admitted P (fun _ _ _ => True) s event := by
  cases event with
  | incomingInterest inFace interest fibEntry input => exact fun _ _ _ _ _ => trivial
  | _ => trivial

end Choice

namespace MeasuredForwarder

section Asks

variable {s : StrategyState κ} {t t' : MeasurementsTable} {inFace : Face} {data : Data} {rto : Ref → Nat} {e : PitEntry}

/-- A PIT entry that the Data satisfies is one of the strategy. -/
def Satisfies (P : Platform κ) (s : StrategyState κ) (inFace : Face) (data : Data) (strategy : Strategy)
    (e : PitEntry) :
    Prop :=
  isViolatingLocalhost P inFace data.name = false ∧
    (∃ r ∈ s.base.pit.findAllDataMatches P.cityHash P.matchesData data, s.entry r = some e) ∧
    e.inRecords ≠ [] ∧ s.effectiveStrategy e.getName = some strategy

/-- The timer of NCC goes up to the Measurements entry of a name whose effective strategy is another one. -/
def CallbackAsks (s : StrategyState κ) (t : MeasurementsTable) : StrategyCallback → Name → Prop
  | .afterRtoTimeout _ _ _ _, _ => False
  | .doPropagate pitWeak fibWeak, x => ∃ e, s.entry pitWeak = some e ∧ (s.fib fibWeak).isSome ∧
      (s.info pitWeak).ncc.isSome ∧ NccStrategy.LeavesAt s.strategyChoice t e.getName e.getName.length x
  | .timeoutOnBestFace pitWeak, x => ∃ e, s.entry pitWeak = some e ∧
      NccStrategy.LevelsLeaveAt s.strategyChoice t NccStrategy.updateMeasurementsNLevels e.getName x

/-- In a step NCC goes up to the Measurements entry of a name whose effective strategy is another one, and the
measurements of access for the same Data, if there are any, do not belong there. -/
def Asks (P : Platform κ) (s : StrategyState κ) (t : MeasurementsTable) : StrategyForwarder.Event → Name → Prop
  | .incomingInterest inFace interest fibEntry _, x => ∃ e, receivedAt P s inFace interest = some e ∧
      s.effectiveStrategy e.getName = some .ncc ∧ s.nexthopsOf fibEntry ≠ [] ∧ e.hasUnexpiredOutRecords s.now = false ∧
      NccStrategy.LeavesAt s.strategyChoice t e.getName e.getName.length x
  | .incomingData inFace data, x =>
      (∃ e, Satisfies P s inFace data .ncc e ∧
        NccStrategy.LevelsLeaveAt s.strategyChoice t NccStrategy.updateMeasurementsNLevels e.getName x) ∧
      ∀ e, Satisfies P s inFace data .access e → (e.getOutRecord inFace).isSome →
        (AccessStrategy.prefixEntry s.strategyChoice t data.name).2 ≠ some x
  | .strategyTimer id _, x => ∃ event, s.timers.dueEvent s.now id = some event ∧ CallbackAsks s t event.callback x
  | _, _ => False

/-- Of a new Interest for access, the item is read that the longest entry has. -/
theorem findPrefixMeasurements_ne {choice : Choice}
    (h : ∀ x, longest choice x = some .access → (t x).isSome → (t.mtInfoOf x).isSome) (n : Name) :
    Ends OtherThanMtInfo (fun _ => True) (AccessStrategy.findPrefixMeasurements choice t n) := by
  rw [AccessStrategy.findPrefixMeasurements]
  split
  · trivial
  · rename_i me hfound
    obtain ⟨heff, hsome⟩ := findLongestPrefixMatch_spec hfound
    have hitem := h me heff hsome
    split
    · rename_i hnone
      rw [mtInfoOf, hnone] at hitem
      cases hitem
    · trivial

theorem measureInterest_measured {fibEntry : Ref} {input : TriggerInput}
    (h : ∀ x, longest s.strategyChoice x = some .access → (t x).isSome → (t.mtInfoOf x).isSome) :
    Ends OtherThanMtInfo (fun result => Measured s.strategyChoice (fun x =>
      s.effectiveStrategy e.getName = some .ncc ∧ s.nexthopsOf fibEntry ≠ [] ∧ e.hasUnexpiredOutRecords s.now = false ∧
        NccStrategy.LeavesAt s.strategyChoice t e.getName e.getName.length x) t result.1)
      (measureInterest s e fibEntry input t) := by
  rw [measureInterest]
  split
  · split
    · exact Measured.refl _ t
    · exact (findPrefixMeasurements_ne h e.getName).map fun _ _ => Measured.refl _ t
  · rename_i heff
    split
    · exact Measured.refl _ t
    · rename_i hnew
      rw [not_or, Bool.not_eq_true] at hnew
      refine (NccStrategy.getMeasurementsEntryInfoOfPit_measured t e.getName).map fun result hmeasured => ?_
      exact (hmeasured.mono fun x _ hleaves => ⟨heff, hnew.1, hnew.2, hleaves⟩).trans
        (NccStrategy.setMeasurementsEntryInfo_measured _ _ _)
  · exact Measured.refl _ t

theorem measureSatisfied_measured {asked : Name → Prop} {rto : Nat} (hasked : ∀ x, e.inRecords ≠ [] →
      s.effectiveStrategy e.getName = some .ncc →
      NccStrategy.LevelsLeaveAt s.strategyChoice t NccStrategy.updateMeasurementsNLevels e.getName x → asked x) :
    Ends OtherThanMtInfo (Measured s.strategyChoice asked t) (measureSatisfied s inFace data rto e t) := by
  rw [measureSatisfied]
  split
  · exact Measured.refl _ t
  · rename_i hpending
    split
    · split
      · exact Measured.refl _ t
      · exact AccessStrategy.updateMeasurements_measured.mono fun _ h => h.1
    · rename_i heff
      exact (NccStrategy.updateLevels_measured _ _ t e.getName).mono fun x _ hleave => hasked x hpending heff hleave
    · exact Measured.refl _ t

theorem measureMatch_measured {asked : Name → Prop} {t₁ : MeasurementsTable} {r : Ref}
    (hasked : ∀ e x, s.entry r = some e → e.inRecords ≠ [] → s.effectiveStrategy e.getName = some .ncc →
      NccStrategy.LevelsLeaveAt s.strategyChoice t₁ NccStrategy.updateMeasurementsNLevels e.getName x → asked x) :
    Ends OtherThanMtInfo (Measured s.strategyChoice asked t₁) (measureMatch s inFace data rto t₁ r) := by
  rw [measureMatch]
  cases he : s.entry r with
  | none => exact Measured.refl _ t₁
  | some e => exact measureSatisfied_measured fun x hpending heff hleave => hasked e x he hpending heff hleave

/-- One of the rounds is that of a PIT entry of access, which puts the measurements where they belong. -/
theorem measureMatches_mtInfo {rs : List Ref} {r : Ref} {x : Name} (hr : r ∈ rs) (he : s.entry r = some e)
    (hpending : e.inRecords ≠ []) (heff : s.effectiveStrategy e.getName = some .access)
    (hout : (e.getOutRecord inFace).isSome)
    (hentry : (AccessStrategy.prefixEntry s.strategyChoice t data.name).2 = some x) :
    Ends OtherThanMtInfo (fun t' => (t'.mtInfoOf x).isSome) (rs.foldlM (measureMatch s inFace data rto) t) := by
  have hany : ∀ t₁ r, Ends OtherThanMtInfo (Measured s.strategyChoice (fun _ => True) t₁)
      (measureMatch s inFace data rto t₁ r) := fun _ _ => measureMatch_measured fun _ _ _ _ _ _ => trivial
  refine Ends.foldlM_mem hr (fun t₁ => ?_) (fun t₁ b hitem => (hany t₁ b).mono fun t' h => h.mtInfo x hitem)
    (fun t₁ b => (hany t₁ b).mono fun _ _ => trivial) t
  obtain ⟨outRecord, hout⟩ := Option.isSome_iff_exists.mp hout
  rw [measureMatch, he, Option.elim_some, measureSatisfied, if_neg hpending, heff]
  dsimp only
  rw [hout]
  refine Ends.mono (Q := fun t' => Measured s.strategyChoice (fun _ => True) t₁ t' ∧ _)
    AccessStrategy.updateMeasurements_measured fun t' h => h.2 x ?_
  rw [← hentry]
  exact AccessStrategy.prefixEntry_snd _ _ _

theorem measureData_measured : Ends OtherThanMtInfo
    (Measured s.strategyChoice (Asks P s t (.incomingData inFace data)) t) (measureData P s inFace data rto t) := by
  rw [measureData]
  split
  · exact Measured.refl _ t
  · rename_i hscope
    rw [Bool.not_eq_true] at hscope
    have hfold : Ends OtherThanMtInfo (Measured s.strategyChoice (fun x => ∃ e, Satisfies P s inFace data .ncc e ∧
        NccStrategy.LevelsLeaveAt s.strategyChoice t NccStrategy.updateMeasurementsNLevels e.getName x) t)
        ((s.base.pit.findAllDataMatches P.cityHash P.matchesData data).foldlM (measureMatch s inFace data rto) t) := by
      refine Ends.foldlM (fun t₁ r hr hmeasured => ?_) (Measured.refl _ t)
      refine (measureMatch_measured fun e x he hpending heff hleave => ?_).mono fun t' h => hmeasured.trans h
      exact ⟨e, ⟨hscope, ⟨r, hr, he⟩, hpending, heff⟩, hleave.of_measured hmeasured⟩
    cases hresult : (s.base.pit.findAllDataMatches P.cityHash P.matchesData data).foldlM
        (measureMatch s inFace data rto) t with
    | error a =>
        rw [hresult] at hfold
        exact hfold
    | ok t' =>
        have hmeasured := hfold.of_ok hresult
        refine ⟨hmeasured.kept, hmeasured.mtInfo, hmeasured.info, fun x haccess hx => ?_⟩
        rcases hmeasured.made x haccess hx with hold | hasked | hitem
        · exact Or.inl hold
        · by_cases hother : ∀ e, Satisfies P s inFace data .access e → (e.getOutRecord inFace).isSome →
              (AccessStrategy.prefixEntry s.strategyChoice t data.name).2 ≠ some x
          · exact Or.inr (Or.inl ⟨hasked, hother⟩)
          · push Not at hother
            obtain ⟨e, ⟨-, ⟨r, hr, he⟩, hpending, heff⟩, hout, hentry⟩ := hother
            exact Or.inr (Or.inr ((measureMatches_mtInfo hr he hpending heff hout hentry).of_ok hresult))
        · exact Or.inr (Or.inr hitem)

theorem measureCallback_measured {input : TriggerInput} (callback : StrategyCallback) :
    Ends OtherThanMtInfo (fun result => Measured s.strategyChoice (CallbackAsks s t callback) t result.1)
      (measureCallback s input t callback) := by
  cases callback with
  | afterRtoTimeout pitWeak fibWeak inFace firstOutFace => exact Measured.refl _ t
  | doPropagate pitWeak fibWeak =>
      rw [measureCallback]
      split
      · rename_i e nexthops pitEntryInfo he hfib hinfo
        exact (NccStrategy.getMeasurementsEntryInfoOfPit_measured t e.getName).map fun result hmeasured =>
          hmeasured.mono fun x _ hleaves => ⟨e, he, hfib ▸ rfl, hinfo ▸ rfl, hleaves⟩
      · exact Measured.refl _ t
  | timeoutOnBestFace pitWeak =>
      rw [measureCallback]
      split
      · rename_i e he
        exact (NccStrategy.updateLevels_measured _ _ t e.getName).mono fun x _ hleave => ⟨e, he, hleave⟩
      · exact Measured.refl _ t

end Asks

/-! ### Runs -/

/-- In the namespace of access, every entry has the item of access. -/
def HasMtInfo (choice : Choice) (t : MeasurementsTable) : Prop :=
  ∀ x, longest choice x = some .access → (t x).isSome → (t.mtInfoOf x).isSome

/-- The strategy of a prefix changes, and access takes over no entry. -/
def TakesOverNothing (choice : Choice) (t : MeasurementsTable) (entryPrefix : Name) (newStrategy : Option Strategy) :
    Prop :=
  newStrategy = some .access → longest choice entryPrefix ≠ some .access → ∀ x, Covers choice entryPrefix x → t x = none

/-- Access takes over no entry of another strategy, and NCC makes none in the namespace of access. -/
def Intact (P : Platform κ) (s : MeasuredState κ) : Event → Prop
  | .forwarder (.insertStrategy entryPrefix strategy) _ =>
      TakesOverNothing s.forwarder.strategyChoice s.measurements entryPrefix (some strategy)
  | .forwarder (.eraseStrategy entryPrefix) _ =>
      TakesOverNothing s.forwarder.strategyChoice s.measurements entryPrefix
        (s.forwarder.effectiveStrategy (entryPrefix.getPrefix (entryPrefix.length - 1)))
  | .forwarder event _ => ∀ x, longest s.forwarder.strategyChoice x = some .access →
      Asks P s.forwarder s.measurements event x → (s.measurements x).isSome
  | .cleanup _ => True
  | .faceGone _ => True

structure Housed (s : MeasuredState κ) : Prop where
  linked : s.forwarder.base.pit.Linked
  hasMtInfo : HasMtInfo s.forwarder.strategyChoice s.measurements

theorem HasMtInfo.of_measured {choice : Choice} {asked : Name → Prop} {t t' : MeasurementsTable}
    (h : HasMtInfo choice t)
    (hmeasured : Measured choice asked t t') (hasked : ∀ x, longest choice x = some .access → asked x → (t x).isSome) :
    HasMtInfo choice t' := by
  intro x heff hx
  rcases hmeasured.made x heff hx with hold | hmade | hitem
  · exact hmeasured.mtInfo x (h x heff hold)
  · exact hmeasured.mtInfo x (h x heff (hasked x heff hmade))
  · exact hitem

/-- The entries whose strategy changes lose their items. -/
theorem HasMtInfo.changeEffective {choice : Choice} {t : MeasurementsTable} (h : HasMtInfo choice t)
    {entryPrefix : Name}
    {entry : Option Strategy} {oldStrategy newStrategy : Strategy}
    (hold : longest choice entryPrefix = some oldStrategy)
    (hnew : longest (Function.update choice entryPrefix entry) entryPrefix = some newStrategy)
    (hnothing : TakesOverNothing choice t entryPrefix (some newStrategy)) :
    HasMtInfo (Function.update choice entryPrefix entry)
      (t.changeEffective choice entryPrefix oldStrategy newStrategy) := by
  intro x heff hx
  rw [MeasurementsTable.changeEffective] at hx ⊢
  by_cases hcovers : Covers choice entryPrefix x
  · rw [longest_update_of_covers _ hcovers, hnew] at heff
    have hsame : oldStrategy = newStrategy := by
      by_contra hne
      rw [if_neg hne, clearCovered, if_pos hcovers, hnothing heff (fun hacc => hne ?_) x hcovers] at hx
      · cases hx
      · exact Option.some.inj (hold.symm.trans (hacc.trans heff.symm))
    rw [if_pos hsame] at hx ⊢
    refine h x ?_ hx
    rw [longest_of_covers hcovers, hold, hsame]
    exact heff
  · rw [longest_update_of_not_covers _ hcovers] at heff
    split at hx
    · rename_i hsame
      rw [if_pos hsame]
      exact h x heff hx
    · rename_i hdiffer
      rw [clearCovered, if_neg hcovers] at hx
      rw [if_neg hdiffer, mtInfoOf, clearCovered, if_neg hcovers]
      exact h x heff hx

variable {s s' : MeasuredState κ}

/-- The event is handed on, and chooses no strategy if it did not. -/
theorem measure_ends (hs : HasMtInfo s.forwarder.strategyChoice s.measurements) {event : StrategyForwarder.Event}
    (hchooses : ¬ event.Chooses) (rto : Ref → Nat) :
    Ends OtherThanMtInfo (fun result => Measured s.forwarder.strategyChoice (Asks P s.forwarder s.measurements event)
      s.measurements result.1 ∧ ¬ result.2.Chooses) (measure P s.forwarder s.measurements rto event) := by
  cases event with
  | incomingInterest inFace interest fibEntry input =>
      rw [measure]
      split
      · exact ⟨Measured.refl _ _, hchooses⟩
      · rename_i e hreceived
        refine (measureInterest_measured hs).map fun result hmeasured => ⟨hmeasured.mono ?_, fun h => h⟩
        exact fun x _ hasked => ⟨e, hreceived, hasked⟩
  | incomingData inFace data => exact measureData_measured.map fun _ hmeasured => ⟨hmeasured, fun h => h⟩
  | strategyTimer id input =>
      rw [measure]
      split
      · exact ⟨Measured.refl _ _, hchooses⟩
      · rename_i event hdue
        refine (measureCallback_measured event.callback).map fun result hmeasured => ⟨hmeasured.mono ?_, fun h => h⟩
        exact fun x _ hasked => ⟨event, hdue, hasked⟩
  | insertStrategy entryPrefix strategy => exact absurd trivial hchooses
  | eraseStrategy entryPrefix => exact absurd trivial hchooses
  | _ => exact ⟨Measured.refl _ _, hchooses⟩

theorem measure_chooses (s : MeasuredState κ) {event : StrategyForwarder.Event} {rto : Ref → Nat}
    (hchooses : event.Chooses) :
    Ends OtherThanMtInfo (fun _ => True) (measure P s.forwarder s.measurements rto event) := by
  cases event with
  | insertStrategy entryPrefix strategy =>
      rw [measure]
      split
      · trivial
      · trivial
  | eraseStrategy entryPrefix =>
      rw [measure]
      split
      · trivial
      · trivial
  | _ => exact absurd hchooses fun h => h

theorem forward_ne (s : StrategyState κ) (measured : MeasurementsTable × StrategyForwarder.Event) :
    Ends OtherThanMtInfo (fun _ => True) (forward P s measured) := by
  rw [forward]
  split
  · exact MeasurementsAssertion.noConfusion
  · trivial

/-- The step of an event that chooses no strategy. -/
theorem Housed.step_of_not_chooses (hs : Housed s) {event : StrategyForwarder.Event} {rto : Ref → Nat}
    (hchooses : ¬ event.Chooses) (hintact : ∀ x, longest s.forwarder.strategyChoice x = some .access →
      Asks P s.forwarder s.measurements event x → (s.measurements x).isSome)
    (h : step P s (.forwarder event rto) = .ok s') : Housed s' := by
  obtain ⟨event', hmeasure, hstep⟩ := step_forwarder h
  obtain ⟨hmeasured, hchooses'⟩ := (measure_ends hs.hasMtInfo hchooses rto).of_ok hmeasure
  obtain ⟨hlinked, hchoice⟩ := ((hasChoice_rules P s.forwarder.strategyChoice).step ⟨hs.linked, rfl⟩
    (admitted_any s.forwarder event') hchooses').of_ok hstep
  refine ⟨hlinked, ?_⟩
  rw [hchoice]
  exact hs.hasMtInfo.of_measured hmeasured hintact

theorem Housed.changeEffective (hs : Housed s) {entryPrefix : Name} {entry : Option Strategy}
    {oldStrategy newStrategy : Strategy} (hold : s.forwarder.effectiveStrategy entryPrefix = some oldStrategy)
    (hnew : longest (Function.update s.forwarder.strategyChoice entryPrefix entry) entryPrefix = some newStrategy)
    (hnothing : TakesOverNothing s.forwarder.strategyChoice s.measurements entryPrefix (some newStrategy))
    (hforwarder : StrategyChoice.setEntry
      (StrategyChoice.changeEffective s.forwarder entryPrefix oldStrategy newStrategy) entryPrefix entry = s'.forwarder)
    (hmeasurements : s.measurements.changeEffective s.forwarder.strategyChoice entryPrefix oldStrategy newStrategy =
      s'.measurements) : Housed s' := by
  obtain ⟨hbase, hchoice⟩ := StrategyChoice.changeEffective_spec s.forwarder entryPrefix oldStrategy newStrategy
  refine ⟨?_, ?_⟩
  · rw [← hforwarder, StrategyChoice.setEntry, hbase]
    exact hs.linked
  · rw [← hforwarder, ← hmeasurements, StrategyChoice.setEntry, hchoice]
    exact hs.hasMtInfo.changeEffective hold hnew hnothing

theorem Housed.insertStrategy (hs : Housed s) {entryPrefix : Name} {strategy : Strategy} {rto : Ref → Nat}
    (hintact : Intact P s (.forwarder (.insertStrategy entryPrefix strategy) rto))
    (h : step P s (.forwarder (.insertStrategy entryPrefix strategy) rto) = .ok s') : Housed s' := by
  obtain ⟨event', hmeasure, hstep⟩ := step_forwarder h
  rw [measure] at hmeasure
  cases hfound : (s.forwarder.strategyChoice entryPrefix).or (s.forwarder.effectiveStrategy entryPrefix) with
  | none =>
      rw [hfound] at hmeasure
      obtain ⟨-, rfl⟩ := Prod.mk.inj (Except.ok.inj hmeasure)
      rw [StrategyForwarder.step, StrategyChoice.choose, hfound] at hstep
      cases hstep
  | some oldStrategy =>
      rw [hfound] at hmeasure
      obtain ⟨hmeasurements, rfl⟩ := Prod.mk.inj (Except.ok.inj hmeasure)
      rw [StrategyForwarder.step, StrategyChoice.choose, hfound] at hstep
      exact hs.changeEffective (StrategyChoice.effective_of_replaced hfound)
        (longest_of_some (Function.update_self _ _ _)) hintact (Except.ok.inj hstep) hmeasurements

theorem Housed.eraseStrategy (hs : Housed s) {entryPrefix : Name} {rto : Ref → Nat}
    (hintact : Intact P s (.forwarder (.eraseStrategy entryPrefix) rto))
    (h : step P s (.forwarder (.eraseStrategy entryPrefix) rto) = .ok s') : Housed s' := by
  obtain ⟨event', hmeasure, hstep⟩ := step_forwarder h
  rw [measure] at hmeasure
  by_cases hlength : entryPrefix.length = 0
  · have hevent : event' = .eraseStrategy entryPrefix := by
      split at hmeasure
      · exact (Prod.mk.inj (Except.ok.inj hmeasure)).2.symm
      · exact (Prod.mk.inj (Except.ok.inj hmeasure)).2.symm
    rw [hevent, StrategyForwarder.step, StrategyChoice.unchoose, if_pos hlength] at hstep
    cases hstep
  · cases hentry : s.forwarder.strategyChoice entryPrefix with
    | none =>
        rw [hentry] at hmeasure
        obtain ⟨hmeasurements, rfl⟩ := Prod.mk.inj (Except.ok.inj hmeasure)
        rw [StrategyForwarder.step, StrategyChoice.unchoose, if_neg hlength, hentry] at hstep
        refine ⟨?_, ?_⟩
        · rw [← Except.ok.inj hstep]
          exact hs.linked
        · rw [← Except.ok.inj hstep, ← hmeasurements]
          exact hs.hasMtInfo
    | some oldStrategy =>
        rw [hentry] at hmeasure
        cases hparent : s.forwarder.effectiveStrategy (entryPrefix.getPrefix (entryPrefix.length - 1)) with
        | none =>
            rw [hparent] at hmeasure
            obtain ⟨-, rfl⟩ := Prod.mk.inj (Except.ok.inj hmeasure)
            rw [StrategyForwarder.step, StrategyChoice.unchoose, if_neg hlength, hentry] at hstep
            dsimp only at hstep
            rw [hparent] at hstep
            cases hstep
        | some parentStrategy =>
            rw [hparent] at hmeasure
            obtain ⟨hmeasurements, rfl⟩ := Prod.mk.inj (Except.ok.inj hmeasure)
            rw [StrategyForwarder.step, StrategyChoice.unchoose, if_neg hlength, hentry] at hstep
            dsimp only at hstep
            rw [hparent] at hstep
            rw [Intact, hparent] at hintact
            exact hs.changeEffective (longest_of_some hentry)
              ((StrategyChoice.effective_of_erased s.forwarder hlength).trans hparent) hintact (Except.ok.inj hstep)
              hmeasurements

theorem HasMtInfo.cleanup {choice : Choice} {t : MeasurementsTable} (h : HasMtInfo choice t) (n : Name) :
    HasMtInfo choice (Function.update t n none) := by
  intro x heff hx
  rw [mtInfoOf]
  rw [Function.update_apply] at hx ⊢
  split at hx
  · cases hx
  · rename_i hxn
    rw [if_neg hxn]
    exact h x heff hx

theorem HasMtInfo.forgetFace {choice : Choice} {t : MeasurementsTable} (h : HasMtInfo choice t) (face : Face) :
    HasMtInfo choice (t.forgetFace face) := by
  intro x heff hx
  rw [MeasurementsTable.forgetFace, Option.isSome_map] at hx
  have hitem := h x heff hx
  rw [mtInfoOf] at hitem ⊢
  rw [MeasurementsTable.forgetFace, Option.bind_map]
  exact hitem

theorem Housed.step (hs : Housed s) {event : Event} (hintact : Intact P s event) (h : step P s event = .ok s') :
    Housed s' := by
  cases event with
  | forwarder event rto =>
      cases event with
      | insertStrategy entryPrefix strategy => exact hs.insertStrategy hintact h
      | eraseStrategy entryPrefix => exact hs.eraseStrategy hintact h
      | _ =>
          refine hs.step_of_not_chooses ?_ hintact h
          exact fun hchooses => hchooses
  | cleanup n =>
      cases h
      exact ⟨hs.linked, hs.hasMtInfo.cleanup n⟩
  | faceGone face =>
      cases h
      exact ⟨hs.linked, hs.hasMtInfo.forgetFace face⟩

/-- Whatever comes next, the item is there. -/
theorem Housed.ne_mtInfo (hs : Housed s) (event : Event) : MeasuredForwarder.step P s event ≠ .error .mtInfo := by
  have hends : Ends OtherThanMtInfo (fun _ => True) (MeasuredForwarder.step P s event) := by
    cases event with
    | forwarder event rto =>
        have hmeasure : Ends OtherThanMtInfo (fun _ => True) (measure P s.forwarder s.measurements rto event) := by
          by_cases hchooses : event.Chooses
          · exact measure_chooses _ hchooses
          · exact (measure_ends hs.hasMtInfo hchooses rto).mono fun _ _ => trivial
        exact hmeasure.bind fun measured _ => forward_ne _ measured
    | cleanup n => trivial
    | faceGone face => trivial
  exact hends.ne_error fun hne => hne rfl

theorem new_housed (nBuckets : Nat) (faceId : Face → Option Nat) (cs : κ) : Housed (new nBuckets faceId cs) where
  linked := Pit.new_linked nBuckets
  hasMtInfo _ _ h := by cases h

/-- In every run in which access takes over no entry of another strategy and NCC makes none in the namespace of access,
access never meets an entry without its item, and no step fails the assertion. -/
theorem mtInfo_kept {nBuckets : Nat} {faceId : Face → Option Nat} {cs : κ}
    (hr : Reach (next P) (Intact P) (new nBuckets faceId cs) s) :
    (∀ n me, MeasurementsAccessor.findLongestPrefixMatch s.forwarder.strategyChoice .access s.measurements n = some me →
      (s.measurements.mtInfoOf me).isSome) ∧ ∀ event, MeasuredForwarder.step P s event ≠ .error .mtInfo := by
  have hs : Housed s := hr.invariant (new_housed nBuckets faceId cs) fun s event s' hs hintact hnext =>
    hs.step hintact (toOption_eq_some_iff.mp hnext)
  refine ⟨fun n me hfound => ?_, hs.ne_mtInfo⟩
  obtain ⟨heff, hsome⟩ := findLongestPrefixMatch_spec hfound
  exact hs.hasMtInfo me heff hsome

/-- No PIT entry of NCC is involved. -/
def avoidsNcc (P : Platform κ) (s : MeasuredState κ) : Event → Bool
  | .forwarder (.incomingInterest inFace interest _ _) _ => (receivedAt P s.forwarder inFace interest).all fun e =>
      decide (s.forwarder.effectiveStrategy e.getName ≠ some .ncc)
  | .forwarder (.incomingData _ data) _ =>
      (s.forwarder.base.pit.findAllDataMatches P.cityHash P.matchesData data).all fun r =>
        (s.forwarder.entry r).all fun e => decide (s.forwarder.effectiveStrategy e.getName ≠ some .ncc)
  | .forwarder (.setFibEntry _ _) _ => true
  | _ => false

theorem intact_of_avoidsNcc {event : Event} (h : avoidsNcc P s event = true) : Intact P s event := by
  cases event with
  | forwarder event rto =>
      cases event with
      | incomingInterest inFace interest fibEntry input =>
          rintro x - ⟨e, hreceived, heff, -⟩
          rw [avoidsNcc, hreceived] at h
          exact absurd heff (of_decide_eq_true h)
      | incomingData inFace data =>
          rintro x - ⟨⟨e, ⟨-, ⟨r, hr, he⟩, -, heff⟩, -⟩, -⟩
          have hr' := List.all_eq_true.mp h r hr
          rw [he] at hr'
          exact absurd heff (of_decide_eq_true hr')
      | setFibEntry fibEntry nexthops => exact fun x _ hasks => absurd hasks fun h => h
      | _ => cases h
  | cleanup n => cases h
  | faceGone face => cases h

def noRto : Ref → Nat := fun _ => 0

/-- An Interest for `/A/B` is sent out and satisfied. -/
def measuredByAccess : List Event :=
  [.forwarder (.setFibEntry 0 (some [2])) noRto,
    .forwarder (.incomingInterest 1 (plainInterest [.ofByte 65, .ofByte 66]) 0 StrategyForwarder.noInput) noRto,
    .forwarder (.incomingData 2 (plainData [.ofByte 65, .ofByte 66])) noRto]

/-- Access is chosen for `/A`; the next Interest for `/A/B` reads its measurements. -/
theorem mtInfo_kept_measured : ∃ s : MeasuredState (Cs Unit),
    Reach (next Platform.sample) (Intact Platform.sample) (new 16 some ⟨[], ()⟩) s ∧
      MeasurementsAccessor.findLongestPrefixMatch s.forwarder.strategyChoice .access s.measurements
        [.ofByte 65, .ofByte 66] = some [.ofByte 65] ∧ (s.measurements.mtInfoOf [.ofByte 65]).isSome := by
  have hrun : ((next Platform.sample (new 16 some ⟨[], ()⟩)
    (.forwarder (.insertStrategy [.ofByte 65] .access) noRto)).bind
      fun s => exec (guarded (next Platform.sample) (avoidsNcc Platform.sample)) s measuredByAccess).any (fun s =>
        MeasurementsAccessor.findLongestPrefixMatch s.forwarder.strategyChoice .access s.measurements
          [.ofByte 65, .ofByte 66] == some [.ofByte 65]) = true := by
    decide +kernel
  obtain ⟨s, hs, hfound⟩ := (Option.any_eq_true _ _).mp hrun
  obtain ⟨s₁, hchosen, hs⟩ := Option.bind_eq_some_iff.mp hs
  have hintact : Intact Platform.sample (new 16 some ⟨[], ()⟩)
    (.forwarder (.insertStrategy [.ofByte 65] .access) noRto) :=
    fun _ _ _ _ => rfl
  have hfirst : Reach (next Platform.sample) (Intact Platform.sample) (new 16 some ⟨[], ()⟩) s₁ :=
    Reach.start.next _ hintact hchosen
  have hreach := hfirst.trans ((reach_of_exec_guarded .start hs).mono fun _ _ => intact_of_avoidsNcc)
  exact ⟨s, hreach, beq_iff_eq.mp hfound, (mtInfo_kept hreach).1 _ _ (beq_iff_eq.mp hfound)⟩

/-- NCC makes the entry of `/A`; then access is chosen for the root. -/
def changedToAccess : List Event :=
  [.forwarder (.insertStrategy [] .ncc) noRto, .forwarder (.setFibEntry 0 (some [2])) noRto,
    .forwarder (.incomingInterest 1 (plainInterest [.ofByte 65]) 0 StrategyForwarder.noInput) noRto,
    .forwarder (.insertStrategy [] .access) noRto]

/-- The Interest for `/A/B` finds the entry of `/A`, without the item. -/
theorem mtInfo_not_kept : ∃ s : MeasuredState (Cs Unit), Reach (next Platform.sample) anyStep (new 16 some ⟨[], ()⟩) s ∧
    MeasuredForwarder.step Platform.sample s (.forwarder (.incomingInterest 1 (plainInterest [.ofByte 65, .ofByte 66]) 0
      StrategyForwarder.noInput) noRto) = .error .mtInfo := by
  have hrun : ((exec (next Platform.sample) (new 16 some ⟨[], ()⟩) changedToAccess).any fun s =>
      match MeasuredForwarder.step Platform.sample s (.forwarder (.incomingInterest 1
          (plainInterest [.ofByte 65, .ofByte 66]) 0 StrategyForwarder.noInput) noRto) with
      | .ok _ => false
      | .error a => decide (a = .mtInfo)) = true := by
    decide +kernel
  obtain ⟨s, hs, hfailed⟩ := (Option.any_eq_true _ _).mp hrun
  refine ⟨s, reach_of_exec .start hs, ?_⟩
  split at hfailed
  · cases hfailed
  · rename_i a ha
    rw [ha, of_decide_eq_true hfailed]

end MeasuredForwarder
end NfdPitless
