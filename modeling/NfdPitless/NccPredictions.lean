import NfdPitless.MeasuredForwarder
import NfdPitless.MeasuredItems
import NfdPitless.PropagateTimers

/-! The predictions of NCC. Whatever the Measurements entries hold has been made from the initial prediction by raising
and lowering it, so it stays between the bounds; and it is what NCC reads when it treats an Interest as new. -/

namespace NfdPitless

open LongestPrefix MeasurementsTable MeasurementsAccessor Forwarder

namespace NccStrategy

variable {info other : NccMeasurementsInfo} {choice : Choice} {t : MeasurementsTable}

/-- What the measurements of NCC can be: the prediction is raised, lowered and inherited, the faces are any. -/
inductive Predicted : NccMeasurementsInfo → Prop where
  | new : Predicted newMeasurementsEntryInfo
  | adjustPredictUp {info : NccMeasurementsInfo} : Predicted info → Predicted (adjustPredictUp info)
  | adjustPredictDown {info : NccMeasurementsInfo} : Predicted info → Predicted (adjustPredictDown info)
  | inheritFrom {info other : NccMeasurementsInfo} : Predicted info → Predicted other → Predicted other
  | withFaces {info : NccMeasurementsInfo} (bestFace previousFace : Option Face) : Predicted info →
      Predicted { info with bestFace, previousFace }

theorem Predicted.bounded (h : Predicted info) : minPrediction ≤ info.prediction ∧ info.prediction ≤ maxPrediction := by
  induction h with
  | new => exact ⟨by decide, by decide⟩
  | adjustPredictUp _ ih => exact ⟨le_min (by decide) (ih.1.trans (Nat.le_add_right _ _)), min_le_left _ _⟩
  | adjustPredictDown _ ih => exact ⟨le_max_left _ _, max_le (by decide) ((Nat.sub_le _ _).trans ih.2)⟩
  | inheritFrom _ _ _ ih => exact ih
  | withFaces _ _ _ ih => exact ih

theorem Predicted.updateBestFace (h : Predicted info) (face : Face) : Predicted (updateBestFace face info) := by
  rw [NccStrategy.updateBestFace]
  split
  · exact h.withFaces _ _
  · split
    · exact h.adjustPredictDown
    · exact h.withFaces _ _

end NccStrategy

open NccStrategy

/-- The measurements of NCC in all entries. -/
def MeasurementsTable.AllPredicted (t : MeasurementsTable) : Prop :=
  ∀ n info, t.measurementsEntryInfoOf n = some info → Predicted info

namespace MeasurementsTable.AllPredicted

variable {t : MeasurementsTable} {choice : Choice} {n : Name} {info : NccMeasurementsInfo}

theorem get (h : t.AllPredicted) (n : Name) : (t.get n).AllPredicted := by
  intro x info hx
  rw [measurementsEntryInfoOf, get_bind rfl] at hx
  exact h x info hx

/-- The items of one entry change. -/
theorem modify (h : t.AllPredicted) (n : Name) {f : MeasurementsItems → MeasurementsItems}
    (hf : ∀ items info, (f items).measurementsEntryInfo = some info → items.measurementsEntryInfo = some info ∨
      Predicted info) : (t.modify n f).AllPredicted := by
  intro x info hx
  rw [measurementsEntryInfoOf, modify_apply] at hx
  split at hx
  · obtain ⟨items', hitems', hinfo⟩ := Option.bind_eq_some_iff.mp hx
    obtain ⟨items, hitems, rfl⟩ := Option.map_eq_some_iff.mp hitems'
    rcases hf items info hinfo with hold | hnew
    · exact h n info (Option.bind_eq_some_iff.mpr ⟨items, hitems, hold⟩)
    · exact hnew
  · exact h x info hx

theorem setInfo (h : t.AllPredicted) (n : Name) (hinfo : Predicted info) :
    (setMeasurementsEntryInfo t n info).AllPredicted :=
  h.modify n fun _ _ heq => Or.inr (Option.some.inj heq ▸ hinfo)

/-- Measurements of access. -/
theorem setMtInfo (h : t.AllPredicted) (n : Name) (mi : MeasurementsItems → AccessMtInfo) :
    (t.modify n fun items => { items with mtInfo := some (mi items) }).AllPredicted :=
  h.modify n fun _ _ heq => Or.inl heq

theorem getMeasurementsEntryInfo (choice : Choice) (n : Name) (k : Nat) (h : t.AllPredicted) :
    (getMeasurementsEntryInfo choice n k t).1.AllPredicted ∧ Predicted (getMeasurementsEntryInfo choice n k t).2 := by
  induction k generalizing t with
  | zero =>
      rw [NccStrategy.getMeasurementsEntryInfo]
      split
      · rename_i info hinfo
        exact ⟨h, h _ info hinfo⟩
      · exact ⟨h.setInfo _ .new, .new⟩
  | succ k ih =>
      rw [NccStrategy.getMeasurementsEntryInfo]
      split
      · rename_i info hinfo
        exact ⟨h, h _ info hinfo⟩
      · have hgot := (h.setInfo (n.getPrefix (k + 1)) .new).get (n.getPrefix k)
        dsimp only
        rw [MeasurementsAccessor.get]
        cases filter choice .ncc (some (n.getPrefix k)) with
        | none => exact ⟨hgot, .new⟩
        | some parent => exact ⟨(ih hgot).1.setInfo _ (ih hgot).2, (ih hgot).2⟩

theorem getMeasurementsEntryInfoOfPit (h : t.AllPredicted) (n : Name) : Ends (fun _ => True)
    (fun result => result.1.AllPredicted ∧ Predicted result.2) (getMeasurementsEntryInfoOfPit choice t n) := by
  rw [NccStrategy.getMeasurementsEntryInfoOfPit, MeasurementsAccessor.get]
  cases filter choice .ncc (some n) with
  | none => trivial
  | some me => exact (h.get n).getMeasurementsEntryInfo choice me me.length

theorem getParent (h : t.AllPredicted) (me : Name) : (getParent choice .ncc t me).1.AllPredicted := by
  rw [MeasurementsAccessor.getParent]
  split
  · exact h
  · exact h.get _

theorem updateLevels {update : NccMeasurementsInfo → NccMeasurementsInfo}
    (hupdate : ∀ info, Predicted info → Predicted (update info)) (levels : Nat) (found : Option Name)
    (h : t.AllPredicted) : (updateLevels choice update levels (t, found)).AllPredicted := by
  induction levels generalizing t found with
  | zero => exact h
  | succ levels ih =>
      cases found with
      | none => exact h
      | some me =>
          obtain ⟨hgot, hinfo⟩ := getMeasurementsEntryInfo choice me me.length h
          exact ih _ ((hgot.setInfo me (hupdate _ hinfo)).getParent me)

theorem updateMeasurements {update : NccMeasurementsInfo → NccMeasurementsInfo}
    (hupdate : ∀ info, Predicted info → Predicted (update info)) (h : t.AllPredicted) (n : Name) :
    (updateMeasurements choice t n update).AllPredicted :=
  updateLevels hupdate _ _ (h.get n)

theorem prefixEntry (h : t.AllPredicted) (choice : Choice) (dataName : Name) :
    (AccessStrategy.prefixEntry choice t dataName).1.AllPredicted := by
  rw [AccessStrategy.prefixEntry]
  by_cases hlength : dataName.length ≥ 1
  · have hparent := h.get (dataName.getPrefix (dataName.length - 1))
    rw [if_pos hlength, MeasurementsAccessor.get]
    cases filter choice .access (some (dataName.getPrefix (dataName.length - 1))) with
    | none => exact hparent.get dataName
    | some me => exact hparent
  · rw [if_neg hlength]
    exact h.get dataName

theorem accessMeasurements (h : t.AllPredicted) (inFace : Option Nat) (dataName : Name) (rto : Nat) :
    Ends (fun _ => True) AllPredicted (AccessStrategy.updateMeasurements choice t inFace dataName rto) := by
  have hentry := h.prefixEntry choice dataName
  rw [AccessStrategy.updateMeasurements, AccessStrategy.addPrefixMeasurements]
  split
  · trivial
  · rename_i hfound
    rw [hfound] at hentry
    exact (hentry.setMtInfo _ _).setMtInfo _ _

theorem clearCovered (h : t.AllPredicted) (choice : Choice) (entryPrefix : Name) :
    (t.clearCovered choice entryPrefix).AllPredicted := by
  intro n info hinfo
  rw [measurementsEntryInfoOf, MeasurementsTable.clearCovered] at hinfo
  split at hinfo
  · obtain ⟨items, hitems, hnone⟩ := Option.bind_eq_some_iff.mp hinfo
    obtain ⟨-, -, rfl⟩ := Option.map_eq_some_iff.mp hitems
    cases hnone
  · exact h n info hinfo

theorem changeEffective (h : t.AllPredicted) (choice : Choice) (entryPrefix : Name)
    (oldStrategy newStrategy : Strategy) :
    (t.changeEffective choice entryPrefix oldStrategy newStrategy).AllPredicted := by
  rw [MeasurementsTable.changeEffective]
  split
  · exact h
  · exact h.clearCovered choice entryPrefix

theorem forgetFace (h : t.AllPredicted) (face : Face) : (t.forgetFace face).AllPredicted := by
  intro n info hinfo
  obtain ⟨items', hitems', hinfo'⟩ := Option.bind_eq_some_iff.mp hinfo
  obtain ⟨items, hitems, rfl⟩ := Option.map_eq_some_iff.mp hitems'
  obtain ⟨old, hold, rfl⟩ := Option.map_eq_some_iff.mp hinfo'
  exact (h n old (Option.bind_eq_some_iff.mpr ⟨items, hitems, hold⟩)).withFaces _ _

theorem cleanup (h : t.AllPredicted) (n : Name) : AllPredicted (Function.update t n none) := by
  intro x info hinfo
  by_cases hx : x = n
  · rw [measurementsEntryInfoOf, hx, Function.update_self] at hinfo
    cases hinfo
  · rw [measurementsEntryInfoOf, Function.update_of_ne hx] at hinfo
    exact h x info hinfo

end MeasurementsTable.AllPredicted

/-! ### What is read -/

namespace StrategyForwarder

/-- An event with other measurements. -/
def Event.setInput (input : TriggerInput) : Event → Event
  | .incomingInterest inFace interest fibEntry _ => .incomingInterest inFace interest fibEntry input
  | .strategyTimer id _ => .strategyTimer id input
  | event => event

/-- When NCC treats the Interest as new, it reads measurements that are predicted. -/
def ReadsPredicted {κ : Type} (P : Platform κ) (s : StrategyState κ) : Event → Prop
  | .incomingInterest inFace interest fibEntry input =>
      ∀ r e, TreatedAsNew P s inFace interest fibEntry r e → Predicted input.measurementsInfo
  | _ => True

end StrategyForwarder

namespace MeasuredForwarder

variable {κ : Type} {P : Platform κ} {s : StrategyState κ} {t : MeasurementsTable} {inFace : Face} {data : Data}
  {rto : Ref → Nat} {input : TriggerInput}

theorem measureInterest_predicted (h : t.AllPredicted) (e : PitEntry) (fibEntry : Ref) : Ends (fun _ => True)
    (fun result => result.1.AllPredicted ∧ (s.effectiveStrategy e.getName = some .ncc → s.nexthopsOf fibEntry ≠ [] →
      e.hasUnexpiredOutRecords s.now = false → Predicted result.2.measurementsInfo))
    (measureInterest s e fibEntry input t) := by
  rw [measureInterest]
  split
  · rename_i haccess
    have hother : ¬ s.effectiveStrategy e.getName = some .ncc := by simp [haccess]
    split
    · exact ⟨h, fun hncc => absurd hncc hother⟩
    · cases AccessStrategy.findPrefixMeasurements s.strategyChoice t e.getName with
      | error a => trivial
      | ok found => exact ⟨h, fun hncc => absurd hncc hother⟩
  · split
    · rename_i hold
      refine ⟨h, fun _ hnexthops hout => ?_⟩
      rcases hold with hnone | hunexpired
      · exact absurd hnone hnexthops
      · rw [hout] at hunexpired
        cases hunexpired
    · refine (h.getMeasurementsEntryInfoOfPit e.getName).map fun result hresult => ?_
      exact ⟨hresult.1.setInfo _ (hresult.2.withFaces _ _), fun _ _ _ => hresult.2⟩
  · rename_i hne
    exact ⟨h, fun hncc => absurd hncc hne⟩

theorem measureMatch_predicted (h : t.AllPredicted) (r : Ref) :
    Ends (fun _ => True) AllPredicted (measureMatch s inFace data rto t r) := by
  rw [measureMatch]
  cases s.entry r with
  | none => exact h
  | some e =>
      rw [Option.elim_some, measureSatisfied]
      split
      · exact h
      · split
        · split
          · exact h
          · exact h.accessMeasurements _ _ _
        · exact AllPredicted.updateMeasurements (fun _ hinfo => hinfo.updateBestFace inFace) h _
        · exact h

theorem measureCallback_predicted (h : t.AllPredicted) (callback : StrategyCallback) :
    Ends (fun _ => True) (fun result => result.1.AllPredicted) (measureCallback s input t callback) := by
  cases callback with
  | afterRtoTimeout pitWeak fibWeak inFace firstOutFace => exact h
  | doPropagate pitWeak fibWeak =>
      rw [measureCallback]
      split
      · exact (h.getMeasurementsEntryInfoOfPit _).map fun _ hresult => hresult.1
      · exact h
  | timeoutOnBestFace pitWeak =>
      rw [measureCallback]
      split
      · exact AllPredicted.updateMeasurements (fun _ hinfo => hinfo.adjustPredictUp) h _
      · exact h

/-- The measurements stay predicted, and NCC reads such. -/
theorem measure_predicted (h : t.AllPredicted) (event : StrategyForwarder.Event) : Ends (fun _ => True)
    (fun result => result.1.AllPredicted ∧ StrategyForwarder.ReadsPredicted P s result.2 ∧
      ∃ input, result.2 = event.setInput input) (measure P s t rto event) := by
  cases event with
  | incomingInterest inFace interest fibEntry input =>
      rw [measure]
      split
      · rename_i hnone
        refine ⟨h, fun r e hnew => ?_, input, rfl⟩
        rw [receivedAt_eq_some_iff.mpr ⟨r, hnew.1⟩] at hnone
        cases hnone
      · rename_i e he
        refine (measureInterest_predicted h e fibEntry).map fun result hresult => ?_
        refine ⟨hresult.1, fun r e' hnew => ?_, result.2, rfl⟩
        have heq : some e = some e' := he.symm.trans (receivedAt_eq_some_iff.mpr ⟨r, hnew.1⟩)
        cases heq
        exact hresult.2 hnew.2.1 hnew.2.2.1 hnew.2.2.2
  | incomingData inFace data =>
      have hdata : Ends (fun _ => True) AllPredicted (measureData P s inFace data rto t) := by
        rw [measureData]
        split
        · exact h
        · exact Ends.foldlM (fun t r _ ht => measureMatch_predicted ht r) h
      exact hdata.map fun _ ht => ⟨ht, trivial, StrategyForwarder.noInput, rfl⟩
  | strategyTimer id input =>
      rw [measure]
      split
      · exact ⟨h, trivial, input, rfl⟩
      · exact (measureCallback_predicted h _).map fun result ht => ⟨ht, trivial, result.2, rfl⟩
  | insertStrategy entryPrefix strategy =>
      rw [measure]
      split
      · exact ⟨h, trivial, StrategyForwarder.noInput, rfl⟩
      · exact ⟨h.changeEffective _ _ _ _, trivial, StrategyForwarder.noInput, rfl⟩
  | eraseStrategy entryPrefix =>
      rw [measure]
      split
      · exact ⟨h.changeEffective _ _ _ _, trivial, StrategyForwarder.noInput, rfl⟩
      · exact ⟨h, trivial, StrategyForwarder.noInput, rfl⟩
  | _ => exact ⟨h, trivial, StrategyForwarder.noInput, rfl⟩

/-- The condition is one on the events of the forwarder. -/
def OnForwarder (ok : StrategyState κ → StrategyForwarder.Event → Prop) (s : MeasuredState κ) : Event → Prop
  | .forwarder event _ => ok s.forwarder event
  | _ => True

/-- What a step with measurements is: one of the forwarder in which NCC reads what is predicted, or no step of it. -/
inductive PredictedStep (P : Platform κ) (s s' : MeasuredState κ) : Event → Prop where
  | forwarder (event : StrategyForwarder.Event) (rto : Ref → Nat) (input : TriggerInput)
      (hmeasure : measure P s.forwarder s.measurements rto event = .ok (s'.measurements, event.setInput input))
      (hreads : StrategyForwarder.ReadsPredicted P s.forwarder (event.setInput input))
      (hstep : StrategyForwarder.step P s.forwarder (event.setInput input) = .ok s'.forwarder) :
      PredictedStep P s s' (.forwarder event rto)
  | cleanup (n : Name) (hs' : s'.forwarder = s.forwarder) : PredictedStep P s s' (.cleanup n)
  | faceGone (face : Face) (hs' : s'.forwarder = s.forwarder) : PredictedStep P s s' (.faceGone face)

theorem next_predicted {s s' : MeasuredState κ} {event : Event} (h : s.measurements.AllPredicted)
    (hnext : next P s event = some s') : s'.measurements.AllPredicted ∧ PredictedStep P s s' event := by
  cases event with
  | forwarder event rto =>
      obtain ⟨event', hmeasure, hstep⟩ := step_forwarder (toOption_eq_some_iff.mp hnext)
      obtain ⟨hpredicted, hreads, input, rfl⟩ := (measure_predicted h event).of_ok hmeasure
      exact ⟨hpredicted, .forwarder event rto input hmeasure hreads hstep⟩
  | cleanup n =>
      cases hnext
      exact ⟨h.cleanup n, .cleanup n rfl⟩
  | faceGone face =>
      cases hnext
      exact ⟨h.forgetFace face, .faceGone face rfl⟩

theorem new_predicted (nBuckets : Nat) (faceId : Face → Option Nat) (cs : κ) :
    (new nBuckets faceId cs).measurements.AllPredicted := fun _ _ hnone => by cases hnone

/-- A run with measurements is one of the forwarder in which NCC reads what is predicted. -/
theorem predicted_reach {nBuckets : Nat} {faceId : Face → Option Nat} {cs : κ} {s : MeasuredState κ}
    {ok : StrategyState κ → StrategyForwarder.Event → Prop}
    (hinput : ∀ s event input, ok s event → ok s (event.setInput input))
    (hr : Reach (next P) (OnForwarder ok) (new nBuckets faceId cs) s) :
    s.measurements.AllPredicted ∧ Reach (StrategyForwarder.next P)
      (fun s event => ok s event ∧ StrategyForwarder.ReadsPredicted P s event)
      (StrategyForwarder.new nBuckets faceId cs) s.forwarder := by
  induction hr with
  | start => exact ⟨new_predicted nBuckets faceId cs, .start⟩
  | next event _ hok hnext ih =>
      obtain ⟨hpredicted, hs⟩ := ih
      obtain ⟨hpredicted', hpredictedStep⟩ := next_predicted hpredicted hnext
      refine ⟨hpredicted', ?_⟩
      cases hpredictedStep with
      | forwarder event rto input hmeasure hreads hstep =>
          refine hs.next _ ⟨hinput _ _ input hok, hreads⟩ ?_
          rw [StrategyForwarder.next, hstep]
          rfl
      | cleanup n hs' =>
          rw [hs']
          exact hs
      | faceGone face hs' =>
          rw [hs']
          exact hs

end MeasuredForwarder
end NfdPitless
