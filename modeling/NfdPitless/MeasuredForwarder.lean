import NfdPitless.StrategyMeasurements

/-! The base forwarder with its strategies and the Measurements table. A step does to the table what the strategies that
it triggers do, and hands them what they read there; the rest is the step of `StrategyForwarder`. An entry is cleaned up
at any time, so nothing depends on its lifetime. -/

namespace NfdPitless

open LongestPrefix

variable {κ : Type}

structure MeasuredState (κ : Type) where
  forwarder : StrategyState κ
  measurements : MeasurementsTable

namespace MeasurementsTable

/-- `clearStrategyInfo` of the entries that a StrategyChoice entry covers. -/
def clearCovered (choice : Choice) (entryPrefix : Name) (t : MeasurementsTable) : MeasurementsTable := fun n =>
  if Covers choice entryPrefix n then (t n).map fun _ => .empty else t n

/-- `StrategyChoice::changeStrategy`. -/
def changeEffective (choice : Choice) (entryPrefix : Name) (oldStrategy newStrategy : Strategy)
    (t : MeasurementsTable) :
    MeasurementsTable :=
  if oldStrategy = newStrategy then t else t.clearCovered choice entryPrefix

/-- The weak pointers to a face that is gone expire. -/
def forgetFace (face : Face) (t : MeasurementsTable) : MeasurementsTable := fun n =>
  (t n).map fun items => { items with
    measurementsEntryInfo := items.measurementsEntryInfo.map fun info => { info with
      bestFace := info.bestFace.filter (· ≠ face), previousFace := info.previousFace.filter (· ≠ face) } }

end MeasurementsTable

namespace MeasuredForwarder

open Forwarder

variable (P : Platform κ)

/-- The PIT entry that is found or made for an Interest, if the Interest goes to the strategy. -/
def receivedAt (s : StrategyState κ) (inFace : Face) (interest : Interest) : Option PitEntry :=
  if isViolatingLocalhost P inFace interest.name then none
  else
    match s.base.pit.insert P.cityHash interest with
    | none => none
    | some (pit, r, _) =>
        (pit.entries r).filter fun e => !hasDuplicateNonce P s.base e inFace interest &&
          (!e.inRecords.isEmpty || (P.store.find s.base.cs s.now interest).2.isNone)

/-- `afterReceiveInterest` of access and of NCC: access asks for a new Interest only, NCC where there are next hops. -/
def measureInterest (s : StrategyState κ) (e : PitEntry) (fibEntry : Ref) (input : TriggerInput)
    (t : MeasurementsTable) :
    Except MeasurementsAssertion (MeasurementsTable × TriggerInput) :=
  match s.effectiveStrategy e.getName with
  | some .access =>
      if e.hasUnexpiredOutRecords s.now then .ok (t, input)
      else (AccessStrategy.findPrefixMeasurements s.strategyChoice t e.getName).map fun found =>
        (t, { input with mtInfo := found.map Prod.snd })
  | some .ncc =>
      if s.nexthopsOf fibEntry = [] ∨ e.hasUnexpiredOutRecords s.now then .ok (t, input)
      else (NccStrategy.getMeasurementsEntryInfoOfPit s.strategyChoice t e.getName).map fun (t, info) =>
        -- `getBestFace` stores the face that it returns
        (NccStrategy.setMeasurementsEntryInfo t e.getName { info with bestFace := NccStrategy.getBestFace info },
          { input with measurementsInfo := info })
  | _ => .ok (t, input)

/-- `beforeSatisfyInterest` of access and of NCC. -/
def measureSatisfied (s : StrategyState κ) (inFace : Face) (data : Data) (rto : Nat) (e : PitEntry)
    (t : MeasurementsTable) :
    Except MeasurementsAssertion MeasurementsTable :=
  if e.inRecords = [] then .ok t
  else
    match s.effectiveStrategy e.getName with
    | some .access =>
        match e.getOutRecord inFace with
        | none => .ok t
        | some _ => AccessStrategy.updateMeasurements s.strategyChoice t (s.base.faceId inFace) data.name rto
    | some .ncc =>
        .ok (NccStrategy.updateMeasurements s.strategyChoice t e.getName (NccStrategy.updateBestFace inFace))
    | _ => .ok t

def measureMatch (s : StrategyState κ) (inFace : Face) (data : Data) (rto : Ref → Nat) (t : MeasurementsTable)
    (r : Ref) :
    Except MeasurementsAssertion MeasurementsTable :=
  (s.entry r).elim (.ok t) fun e => measureSatisfied s inFace data (rto r) e t

/-- The rounds before have changed other PIT entries only. -/
def measureData (s : StrategyState κ) (inFace : Face) (data : Data) (rto : Ref → Nat) (t : MeasurementsTable) :
    Except MeasurementsAssertion MeasurementsTable :=
  if isViolatingLocalhost P inFace data.name then .ok t
  else (s.base.pit.findAllDataMatches P.cityHash P.matchesData data).foldlM (measureMatch s inFace data rto) t

/-- The timers of NCC; that of access has nothing to do with measurements. -/
def measureCallback (s : StrategyState κ) (input : TriggerInput) (t : MeasurementsTable) :
    StrategyCallback → Except MeasurementsAssertion (MeasurementsTable × TriggerInput)
  | .afterRtoTimeout _ _ _ _ => .ok (t, input)
  | .doPropagate pitWeak fibWeak =>
      match s.entry pitWeak, s.fib fibWeak, (s.info pitWeak).ncc with
      | some e, some _, some _ =>
          (NccStrategy.getMeasurementsEntryInfoOfPit s.strategyChoice t e.getName).map fun (t, info) =>
            (t, { input with measurementsInfo := info })
      | _, _, _ => .ok (t, input)
  | .timeoutOnBestFace pitWeak =>
      match s.entry pitWeak with
      | some e => .ok (NccStrategy.updateMeasurements s.strategyChoice t e.getName NccStrategy.adjustPredictUp, input)
      | none => .ok (t, input)

/-- The Measurements table after an event, and the event with what the strategies read. `rto` is what the estimators
compute. -/
def measure (s : StrategyState κ) (t : MeasurementsTable) (rto : Ref → Nat) :
    StrategyForwarder.Event → Except MeasurementsAssertion (MeasurementsTable × StrategyForwarder.Event)
  | .incomingInterest inFace interest fibEntry input =>
      match receivedAt P s inFace interest with
      | none => .ok (t, .incomingInterest inFace interest fibEntry input)
      | some e => (measureInterest s e fibEntry input t).map fun (t, input) =>
          (t, .incomingInterest inFace interest fibEntry input)
  | .incomingData inFace data => (measureData P s inFace data rto t).map fun t => (t, .incomingData inFace data)
  | .strategyTimer id input =>
      match s.timers.dueEvent s.now id with
      | none => .ok (t, .strategyTimer id input)
      | some event => (measureCallback s input t event.callback).map fun (t, input) => (t, .strategyTimer id input)
  | .insertStrategy entryPrefix strategy =>
      match (s.strategyChoice entryPrefix).or (s.effectiveStrategy entryPrefix) with
      | none => .ok (t, .insertStrategy entryPrefix strategy)
      | some oldStrategy =>
          .ok (t.changeEffective s.strategyChoice entryPrefix oldStrategy strategy,
            .insertStrategy entryPrefix strategy)
  | .eraseStrategy entryPrefix =>
      match s.strategyChoice entryPrefix, s.effectiveStrategy (entryPrefix.getPrefix (entryPrefix.length - 1)) with
      | some oldStrategy, some parentStrategy =>
          .ok (t.changeEffective s.strategyChoice entryPrefix oldStrategy parentStrategy, .eraseStrategy entryPrefix)
      | _, _ => .ok (t, .eraseStrategy entryPrefix)
  | event => .ok (t, event)

inductive Event where
  | forwarder (event : StrategyForwarder.Event) (rto : Ref → Nat)
  /-- `Measurements::cleanup`. -/
  | cleanup (n : Name)
  | faceGone (face : Face)

abbrev Outcome (κ : Type) := Except MeasurementsAssertion (MeasuredState κ)

/-- The step of the forwarder, with the Measurements table that the strategies leave. -/
def forward (s : StrategyState κ) (measured : MeasurementsTable × StrategyForwarder.Event) : Outcome κ :=
  match StrategyForwarder.step P s measured.2 with
  | .error a => .error (.forwarder a)
  | .ok forwarder => .ok { forwarder, measurements := measured.1 }

def step (s : MeasuredState κ) : Event → Outcome κ
  | .forwarder event rto => (measure P s.forwarder s.measurements rto event).bind (forward P s.forwarder)
  | .cleanup n => .ok { s with measurements := Function.update s.measurements n none }
  | .faceGone face => .ok { s with measurements := s.measurements.forgetFace face }

/-- A step after which no assertion has failed. -/
def next (s : MeasuredState κ) (event : Event) : Option (MeasuredState κ) := (step P s event).toOption

def new (nBuckets : Nat) (faceId : Face → Option Nat) (cs : κ) : MeasuredState κ :=
  { forwarder := StrategyForwarder.new nBuckets faceId cs, measurements := fun _ => none }

variable {P}

/-- An Interest goes to the strategy as in the forwarder without measurements. -/
theorem receivedAt_eq_some_iff {s : StrategyState κ} {inFace : Face} {interest : Interest} {e : PitEntry} :
    receivedAt P s inFace interest = some e ↔ ∃ r, StrategyForwarder.Receives P s inFace interest r e := by
  have hfilter : ∀ e : PitEntry, (!hasDuplicateNonce P s.base e inFace interest &&
      (!e.inRecords.isEmpty || (P.store.find s.base.cs s.now interest).2.isNone)) = true ↔
        hasDuplicateNonce P s.base e inFace interest = false ∧
          (e.inRecords = [] → (P.store.find s.base.cs s.now interest).2 = none) := by
    intro e
    rw [Bool.and_eq_true, Bool.not_eq_true', Bool.or_eq_true, Bool.not_eq_true', Option.isNone_iff_eq_none,
      ← Bool.not_eq_true e.inRecords.isEmpty, List.isEmpty_iff, ← imp_iff_not_or]
  rw [receivedAt]
  split
  · rename_i hscope
    refine iff_of_false (by simp) ?_
    rintro ⟨r, hlocal, -⟩
    rw [hlocal] at hscope
    cases hscope
  · rename_i hscope
    rw [Bool.not_eq_true] at hscope
    split
    · rename_i hins
      refine iff_of_false (by simp) ?_
      rintro ⟨r, -, ⟨pit, isNew, hins', -⟩, -⟩
      rw [hins] at hins'
      cases hins'
    · rename_i pit r isNew hins
      rw [Option.filter_eq_some_iff, hfilter]
      constructor
      · rintro ⟨he, hnonce, hmiss⟩
        exact ⟨r, hscope, ⟨pit, isNew, hins, he⟩, hnonce, hmiss⟩
      · rintro ⟨r', -, ⟨pit', isNew', hins', he⟩, hnonce, hmiss⟩
        rw [hins] at hins'
        cases hins'
        exact ⟨he, hnonce, hmiss⟩

/-- What a step with an event of the forwarder consists of. -/
theorem step_forwarder {s s' : MeasuredState κ} {event : StrategyForwarder.Event} {rto : Ref → Nat}
    (h : step P s (.forwarder event rto) = .ok s') :
    ∃ event', measure P s.forwarder s.measurements rto event = .ok (s'.measurements, event') ∧
      StrategyForwarder.step P s.forwarder event' = .ok s'.forwarder := by
  rw [step] at h
  cases hmeasure : measure P s.forwarder s.measurements rto event with
  | error a =>
      rw [hmeasure] at h
      cases h
  | ok measured =>
      rw [hmeasure] at h
      replace h : forward P s.forwarder measured = .ok s' := h
      rw [forward] at h
      cases hstep : StrategyForwarder.step P s.forwarder measured.2 with
      | error a =>
          rw [hstep] at h
          cases h
      | ok forwarder =>
          rw [hstep] at h
          cases h
          exact ⟨measured.2, rfl, hstep⟩

/-- A run with measurements is one of the forwarder with what the strategies read. -/
theorem forwarder_reach {nBuckets : Nat} {faceId : Face → Option Nat} {cs : κ} {s : MeasuredState κ}
    (hr : Reach (next P) anyStep (new nBuckets faceId cs) s) :
    Reach (StrategyForwarder.next P) anyStep (StrategyForwarder.new nBuckets faceId cs) s.forwarder := by
  refine hr.invariant (I := fun s => Reach (StrategyForwarder.next P) anyStep
    (StrategyForwarder.new nBuckets faceId cs) s.forwarder) .start ?_
  intro s event s' hs _ hnext
  cases event with
  | forwarder event rto =>
      obtain ⟨event', -, hstep⟩ := step_forwarder (toOption_eq_some_iff.mp hnext)
      refine hs.next event' trivial ?_
      rw [StrategyForwarder.next, hstep]
      rfl
  | cleanup n =>
      cases hnext
      exact hs
  | faceGone face =>
      cases hnext
      exact hs

end MeasuredForwarder
end NfdPitless
