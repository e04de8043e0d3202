import NfdPitless.StrategyPipelines

/-! The Measurements table as the access strategy (`fw/access-strategy.cpp`) and NCC (`ncc-strategy.cpp`) use it,
through an accessor (`table/measurements-accessor.cpp`) that hands out the entries of the names whose effective strategy
is the strategy that asks. It makes the entry before it looks whose it is. The strategy of a PIT entry is chosen by the
name of the Interest, but access keeps its measurements under that of the Data, which may be longer. -/

namespace NfdPitless

open LongestPrefix

/-- The `StrategyInfo` items of a Measurements entry, by their types. -/
structure MeasurementsItems where
  mtInfo : Option AccessMtInfo
  measurementsEntryInfo : Option NccMeasurementsInfo
  deriving DecidableEq

def MeasurementsItems.empty : MeasurementsItems := { mtInfo := none, measurementsEntryInfo := none }

/-- The items of the entries there are, by their names. -/
abbrev MeasurementsTable := Name → Option MeasurementsItems

/-- The assertions of the forwarder and those on measurements. -/
inductive MeasurementsAssertion where
  | forwarder (a : Assertion)
  /-- `mi != nullptr` in `AccessStrategy::findPrefixMeasurements`. -/
  | mtInfo
  /-- `me != nullptr` in `AccessStrategy::addPrefixMeasurements`. -/
  | dataName
  /-- `NccStrategy::getMeasurementsEntryInfo` dereferences a null pointer. -/
  | nullEntry
  deriving DecidableEq

namespace MeasurementsTable

/-- `Measurements::get`: find or make the entry. -/
def get (t : MeasurementsTable) (n : Name) : MeasurementsTable :=
  if (t n).isSome then t else Function.update t n (some .empty)

def modify (t : MeasurementsTable) (n : Name) (f : MeasurementsItems → MeasurementsItems) : MeasurementsTable :=
  Function.update t n ((t n).map f)

/-- `Measurements::findLongestPrefixMatch`: the name of the entry. -/
def findLongestPrefixMatch (t : MeasurementsTable) (n : Name) : Option Name := longest (fun p => (t p).map fun _ => p) n

end MeasurementsTable

/-- The strategies chosen for prefixes. -/
abbrev Choice := Name → Option Strategy

namespace MeasurementsAccessor

variable (choice : Choice) (strategy : Strategy)

/-- The entry, if the effective strategy is the one that asks. -/
def filter (entry : Option Name) : Option Name := entry.filter fun n => decide (longest choice n = some strategy)

def get (t : MeasurementsTable) (n : Name) : MeasurementsTable × Option Name :=
  (t.get n, filter choice strategy (some n))

variable {choice strategy} in
theorem filter_some (n : Name) :
    filter choice strategy (some n) = if longest choice n = some strategy then some n else none := by
  rw [filter, Option.filter_some]
  exact if_congr decide_eq_true_iff rfl rfl

variable {choice strategy} in
theorem isSome_get_iff {t : MeasurementsTable} (n : Name) :
    (get choice strategy t n).2.isSome ↔ longest choice n = some strategy := by
  rw [get, filter_some]
  split
  · exact iff_of_true rfl ‹_›
  · exact iff_of_false Bool.noConfusion ‹_›

/-- The root entry has no parent. -/
def getParent (t : MeasurementsTable) (child : Name) : MeasurementsTable × Option Name :=
  if child.length = 0 then (t, none) else get choice strategy t (child.getPrefix (child.length - 1))

def findLongestPrefixMatch (t : MeasurementsTable) (n : Name) : Option Name :=
  filter choice strategy (t.findLongestPrefixMatch n)

end MeasurementsAccessor

namespace AccessStrategy

open MeasurementsAccessor

variable (choice : Choice)

/-- The measurements of the longest prefix of an Interest's name that has an entry, if this is in the namespace. -/
def findPrefixMeasurements (t : MeasurementsTable) (n : Name) :
    Except MeasurementsAssertion (Option (Name × AccessMtInfo)) :=
  match findLongestPrefixMatch choice .access t n with
  | none => .ok none
  | some me =>
      match (t me).bind MeasurementsItems.mtInfo with
      | none => .error .mtInfo
      | some mi => .ok (some (me, mi))

/-- Its RTO is not read before the first measurement. -/
def newMtInfo : AccessMtInfo := { lastNexthop := none, rto := 0 }

/-- The entry for the measurements of a Data: that of its name without the last component, else that of its name. -/
def prefixEntry (t : MeasurementsTable) (dataName : Name) : MeasurementsTable × Option Name :=
  let parent := if dataName.length ≥ 1 then get choice .access t (dataName.getPrefix (dataName.length - 1)) else
    (t, none)
  match parent with
  | (t, some me) => (t, some me)
  | (t, none) => get choice .access t dataName

/-- The measurements of a Data are found or made. -/
def addPrefixMeasurements (t : MeasurementsTable) (dataName : Name) :
    Except MeasurementsAssertion (MeasurementsTable × Name) :=
  match prefixEntry choice t dataName with
  | (_, none) => .error .dataName
  | (t, some me) =>
      .ok (t.modify me fun items => { items with mtInfo := some (items.mtInfo.getD newMtInfo) }, me)

/-- `rto` is what the estimator computes after the measurement. -/
def updateMeasurements (t : MeasurementsTable) (inFace : Option Nat) (dataName : Name) (rto : Nat) :
    Except MeasurementsAssertion MeasurementsTable :=
  (addPrefixMeasurements choice t dataName).map fun (t, me) =>
    t.modify me fun items => { items with mtInfo := some ⟨inFace, rto⟩ }

theorem prefixEntry_isSome_iff (t : MeasurementsTable) (dataName : Name) : (prefixEntry choice t dataName).2.isSome ↔
    longest choice dataName = some .access ∨
      dataName ≠ [] ∧ longest choice (dataName.getPrefix (dataName.length - 1)) = some .access := by
  have hlength : dataName.length ≥ 1 ↔ dataName ≠ [] := by
    rw [ge_iff_le, Nat.one_le_iff_ne_zero, Ne, List.length_eq_zero_iff]
  rw [prefixEntry]
  by_cases hne : dataName ≠ []
  · rw [if_pos (hlength.mpr hne), MeasurementsAccessor.get, filter_some]
    by_cases hparent : longest choice (dataName.getPrefix (dataName.length - 1)) = some .access
    · rw [if_pos hparent]
      exact iff_of_true rfl (Or.inr ⟨hne, hparent⟩)
    · rw [if_neg hparent, or_iff_left fun h => hparent h.2]
      exact isSome_get_iff _
  · rw [if_neg fun h => hne (hlength.mp h), or_iff_left fun h => hne h.1]
    exact isSome_get_iff _

/-- For every StrategyChoice table, every Measurements table and every Data: an entry is obtained exactly if access is
the effective strategy of the name of the Data or of this name without its last component. -/
theorem addPrefixMeasurements_obtains_iff (t : MeasurementsTable) (data : Data) :
    (∃ t' me, addPrefixMeasurements choice t data.name = .ok (t', me)) ↔
      longest choice data.name = some .access ∨
        data.name ≠ [] ∧ longest choice (data.name.getPrefix (data.name.length - 1)) = some .access := by
  rw [← prefixEntry_isSome_iff choice t, addPrefixMeasurements]
  split
  · rename_i hnone
    rw [hnone]
    refine iff_of_false ?_ Bool.noConfusion
    rintro ⟨t', me, hok⟩
    cases hok
  · rename_i hsome
    rw [hsome]
    exact iff_of_true ⟨_, _, rfl⟩ rfl

/-- NCC below access. -/
def nestedChoice : Choice :=
  Function.update (Function.update (Function.update (fun _ => none) [] (some .bestRoute2))
    [.ofByte 65] (some .access)) [.ofByte 65, .ofByte 66] (some .ncc)

/-- The Interest is for a name of access, the Data that satisfies it is two components longer and one of NCC. -/
theorem addPrefixMeasurements_not_obtains : ∃ (e : PitEntry) (data : Data),
    longest nestedChoice e.getName = some .access ∧
      Platform.sample.matchesData e.interest.name e.interest.selectors data = true ∧
        ∀ t, addPrefixMeasurements nestedChoice t data.name = .error .dataName :=
  ⟨.new (plainInterest [.ofByte 65]) 0, plainData [.ofByte 65, .ofByte 66, .ofByte 67], by decide, by decide,
    fun _ => rfl⟩

end AccessStrategy

namespace NccStrategy

open MeasurementsAccessor

def initialPrediction : Nat := 8192

def minPrediction : Nat := 127

def maxPrediction : Nat := 160000

def adjustPredictDown (info : NccMeasurementsInfo) : NccMeasurementsInfo :=
  { info with prediction := max minPrediction (info.prediction - info.prediction >>> 7) }

def adjustPredictUp (info : NccMeasurementsInfo) : NccMeasurementsInfo :=
  { info with prediction := min maxPrediction (info.prediction + info.prediction >>> 3) }

def updateBestFace (face : Face) (info : NccMeasurementsInfo) : NccMeasurementsInfo :=
  match info.bestFace with
  | none => { info with bestFace := some face }
  | some bestFace =>
      if bestFace = face then adjustPredictDown info
      else { info with previousFace := some bestFace, bestFace := some face }

def newMeasurementsEntryInfo : NccMeasurementsInfo :=
  { bestFace := none, previousFace := none, prediction := initialPrediction }

def setMeasurementsEntryInfo (t : MeasurementsTable) (n : Name) (info : NccMeasurementsInfo) : MeasurementsTable :=
  t.modify n fun items => { items with measurementsEntryInfo := some info }

variable (choice : Choice)

/-- `getMeasurementsEntryInfo` of the entry of the first `k` components: new information is inherited from the parent,
as long as the parent is in the namespace. -/
def getMeasurementsEntryInfo (n : Name) : Nat → MeasurementsTable → MeasurementsTable × NccMeasurementsInfo
  | k, t =>
      match (t (n.getPrefix k)).bind MeasurementsItems.measurementsEntryInfo with
      | some info => (t, info)
      | none =>
          let created := setMeasurementsEntryInfo t (n.getPrefix k) newMeasurementsEntryInfo
          match k with
          | 0 => (created, newMeasurementsEntryInfo)
          | parent + 1 =>
              match get choice .ncc created (n.getPrefix parent) with
              | (t, none) => (t, newMeasurementsEntryInfo)
              | (t, some _) =>
                  let inherited := getMeasurementsEntryInfo n parent t
                  (setMeasurementsEntryInfo inherited.1 (n.getPrefix (parent + 1)) inherited.2, inherited.2)

/-- The overload by PIT entry. -/
def getMeasurementsEntryInfoOfPit (t : MeasurementsTable) (n : Name) :
    Except MeasurementsAssertion (MeasurementsTable × NccMeasurementsInfo) :=
  match get choice .ncc t n with
  | (_, none) => .error .nullEntry
  | (t, some me) => .ok (getMeasurementsEntryInfo choice me me.length t)

/-- The loop of `timeoutOnBestFace` and `beforeSatisfyInterest` over the levels. -/
def updateLevels (update : NccMeasurementsInfo → NccMeasurementsInfo) :
    Nat → MeasurementsTable × Option Name → MeasurementsTable
  | 0, (t, _) => t
  | _ + 1, (t, none) => t
  | levels + 1, (t, some me) =>
      let found := getMeasurementsEntryInfo choice me me.length t
      updateLevels update levels (getParent choice .ncc (setMeasurementsEntryInfo found.1 me (update found.2)) me)

def updateMeasurements (t : MeasurementsTable) (n : Name) (update : NccMeasurementsInfo → NccMeasurementsInfo) :
    MeasurementsTable :=
  updateLevels choice update updateMeasurementsNLevels (get choice .ncc t n)

end NccStrategy

end NfdPitless
