import NfdPitless.StrategyChange

/-! The strategy that a PITless or a Bridge forwarder triggers (`onContentStoreHit` and `onContentStoreMiss` of
`daemon/fw/pitless-forwarder.cpp` and `bridge-forwarder.cpp`). Both pipelines name the best route strategy of the
forwarder. After a miss it is taken by this name from the installed strategies (`StrategyChoice::getStrategy`); after a
hit the name is given to the dispatch as if it were the prefix of a packet (`StrategyChoice::findEffectiveStrategy`), so
that the strategy chosen for the longest prefix of it is triggered, and with no PIT entry. The two are one object
exactly if that prefix is set to the strategy of the name. -/

namespace NfdPitless

open LongestPrefix

/-- A generic component with the octets of a text. -/
def Component.ofText (text : String) : Component := ⟨false, text.toUTF8.toList⟩

/-- `/localhost/nfd/strategy/<text>/%FD<version>`. -/
def strategyNamed (text : String) (version : UInt8) : Name :=
  localhostName ++ [.ofText "nfd", .ofText "strategy", .ofText text, ⟨false, [0xFD, version]⟩]

def NccStrategy.strategyName : Name := strategyNamed "ncc" 1

def AccessStrategy.strategyName : Name := strategyNamed "access" 1

def BroadcastStrategy.strategyName : Name := strategyNamed "broadcast" 2

def MulticastStrategy.strategyName : Name := strategyNamed "multicast" 1

def BestRouteStrategy.strategyName : Name := strategyNamed "best-route" 1

def BestRouteStrategy2.strategyName : Name := strategyNamed "best-route" 3

def ClientControlStrategy.strategyName : Name := strategyNamed "client-control" 1

def PITlessMulticastStrategy.strategyName : Name := strategyNamed "pitless-multicast" 1

def PITlessBestRouteStrategy.strategyName : Name := strategyNamed "pitless-best-route" 1

def BridgeBestRouteStrategy.strategyName : Name := strategyNamed "bridge-best-route" 1

/-- A strategy object. -/
structure StrategyInstance where
  name : Name
  address : Ref
  deriving DecidableEq

/-- The StrategyChoice table, its entries by their names. -/
structure StrategyChoiceTable where
  /-- In the order of their names. -/
  strategyInstances : List StrategyInstance
  entries : Name → Option StrategyInstance
  /-- Where the next strategy object is made. -/
  nextAddress : Ref

namespace StrategyChoiceTable

def empty : StrategyChoiceTable := { strategyInstances := [], entries := fun _ => none, nextAddress := 0 }

/-- `hasStrategy` with `isExact`. -/
def hasStrategy (T : StrategyChoiceTable) (strategyName : Name) : Bool :=
  T.strategyInstances.any fun strategy => strategy.name == strategyName

/-- A new object is installed, unless one of its name is. -/
def install (T : StrategyChoiceTable) (strategyName : Name) : StrategyChoiceTable :=
  if T.hasStrategy strategyName then { T with nextAddress := T.nextAddress + 1 }
  else { T with
    strategyInstances := T.strategyInstances.orderedInsert (fun a b => a.name ≤ b.name) ⟨strategyName, T.nextAddress⟩
    nextAddress := T.nextAddress + 1 }

/-- The strategy of a name: the exact match, else the last of those one component longer. -/
def getStrategy (T : StrategyChoiceTable) (strategyName : Name) : Option StrategyInstance :=
  let candidates := (T.strategyInstances.dropWhile fun strategy => decide (strategy.name < strategyName)).takeWhile
    fun strategy => Name.isPrefixOf strategyName strategy.name
  match candidates.find? fun strategy => strategy.name == strategyName with
  | some strategy => some strategy
  | none => (candidates.filter fun strategy => strategy.name.length == strategyName.length + 1).getLast?

/-- `none` is the failed assertion that a prefix has an entry. -/
def findEffectiveStrategy (T : StrategyChoiceTable) (entryPrefix : Name) : Option StrategyInstance :=
  longest T.entries entryPrefix

def setEntry (T : StrategyChoiceTable) (entryPrefix : Name) (strategy : Option StrategyInstance) :
    StrategyChoiceTable :=
  { T with entries := Function.update T.entries entryPrefix strategy }

/-- The flag says whether the strategy is installed. -/
def insert (T : StrategyChoiceTable) (entryPrefix strategyName : Name) : Option (StrategyChoiceTable × Bool) :=
  match T.getStrategy strategyName with
  | none => some (T, false)
  | some strategy =>
      match T.entries entryPrefix with
      | some oldStrategy =>
          if oldStrategy.name = strategy.name then some (T, true)
          else some (T.setEntry entryPrefix (some strategy), true)
      | none =>
          if (T.findEffectiveStrategy entryPrefix).isNone then none
          else some (T.setEntry entryPrefix (some strategy), true)

def erase (T : StrategyChoiceTable) (entryPrefix : Name) : Option StrategyChoiceTable :=
  if entryPrefix.length = 0 then none
  else
    match T.entries entryPrefix with
    | none => some T
    | some _ =>
        if (T.findEffectiveStrategy (entryPrefix.getPrefix (entryPrefix.length - 1))).isNone then none
        else some (T.setEntry entryPrefix none)

/-- The default strategy is installed, and the root set to it. -/
def setDefaultStrategy (T : StrategyChoiceTable) (strategyName : Name) : StrategyChoiceTable :=
  (T.install strategyName).setEntry [] (some ⟨strategyName, T.nextAddress⟩)

inductive Op where
  | install (strategyName : Name)
  | insert (entryPrefix strategyName : Name)
  | erase (entryPrefix : Name)

def step (T : StrategyChoiceTable) : Op → Option StrategyChoiceTable
  | .install strategyName => some (T.install strategyName)
  | .insert entryPrefix strategyName => (T.insert entryPrefix strategyName).map (·.1)
  | .erase entryPrefix => T.erase entryPrefix

end StrategyChoiceTable

/-! ### The forwarders -/

/-- `getStrategyFactories()`, in the order of the names. -/
def strategyFactories : List Name :=
  [NccStrategy.strategyName, AccessStrategy.strategyName, BroadcastStrategy.strategyName,
    MulticastStrategy.strategyName,
    BestRouteStrategy.strategyName, BestRouteStrategy2.strategyName, ClientControlStrategy.strategyName]

/-- `getPITlessStrategyFactories()`. -/
def pitlessStrategyFactories : List Name :=
  [PITlessMulticastStrategy.strategyName, PITlessBestRouteStrategy.strategyName]

/-- `getBridgeStrategyFactories()`. -/
def bridgeStrategyFactories : List Name := [BridgeBestRouteStrategy.strategyName]

/-- `installStrategies`, `installPITlessStrategies` and `installBridgeStrategies`. -/
def installStrategies (factories : List Name) (T : StrategyChoiceTable) : StrategyChoiceTable :=
  factories.foldl (fun T strategyName => if T.hasStrategy strategyName then T else T.install strategyName) T

/-- The strategy object that the constructor of `Forwarder` makes. -/
def makeDefaultStrategy : StrategyInstance := ⟨BestRouteStrategy2.strategyName, 0⟩

/-- The forwarders that trigger a strategy by its name. -/
inductive ForwarderKind where
  | pitless
  | bridge

namespace ForwarderKind

def factories : ForwarderKind → List Name
  | .pitless => pitlessStrategyFactories
  | .bridge => bridgeStrategyFactories

/-- The name that both pipelines have. -/
def strategyName : ForwarderKind → Name
  | .pitless => PITlessBestRouteStrategy.strategyName
  | .bridge => BridgeBestRouteStrategy.strategyName

/-- The constructors: that of `Forwarder` makes and chooses the default strategy and installs the built-in strategies,
then that of the forwarder installs its own. -/
def constructed (kind : ForwarderKind) : StrategyChoiceTable :=
  installStrategies kind.factories
    (installStrategies strategyFactories (StrategyChoiceTable.empty.setDefaultStrategy BestRouteStrategy2.strategyName))

/-- The strategy whose `afterReceiveInterestPITless` or `afterReceiveInterestBridge` `onContentStoreMiss` calls. -/
def triggeredOnMiss (kind : ForwarderKind) (T : StrategyChoiceTable) : Option StrategyInstance :=
  T.getStrategy kind.strategyName

/-- The strategy whose `beforeSatisfyInterest` `onContentStoreHit` calls, through `dispatchToPITlessStrategy` or
`dispatchToBridgeStrategy`. -/
def triggeredOnHit (kind : ForwarderKind) (T : StrategyChoiceTable) : Option StrategyInstance :=
  T.findEffectiveStrategy kind.strategyName

end ForwarderKind

/-- `beforeSatisfyInterest`, `none` when it dereferences a null pointer: NCC asks the PIT entry for its in-records and
access for its `StrategyInfo`, and the others have the function of the base class, which asks before it logs the
name. -/
def StrategyInstance.beforeSatisfyInterest (strategy : StrategyInstance) (pitEntry : Option Ref) : Option Unit :=
  if (strategy.name = NccStrategy.strategyName ∨ strategy.name = AccessStrategy.strategyName) ∧ pitEntry = none then
    none
  else some ()

/-- One object is triggered after a hit and after a miss, and it can do without a PIT entry. -/
def TriggersOne (kind : ForwarderKind) (T : StrategyChoiceTable) : Prop :=
  ∃ strategy, kind.triggeredOnHit T = some strategy ∧ kind.triggeredOnMiss T = some strategy ∧
    strategy.beforeSatisfyInterest none = some ()

/-- The longest prefix of a strategy's own name with an entry is set to this strategy. -/
def ChosenForItself (T : StrategyChoiceTable) (strategyName : Name) : Prop :=
  ∃ p strategy, Covers T.entries p strategyName ∧ T.entries p = some strategy ∧ strategy.name = strategyName

namespace StrategyChoiceTable

variable {T T' : StrategyChoiceTable} {strategyName entryPrefix : Name} {strategy : StrategyInstance}

/-- The installed strategies are in the order of their names, and only they are chosen. -/
structure Consistent (T : StrategyChoiceTable) : Prop where
  sorted : T.strategyInstances.Pairwise fun a b => a.name < b.name
  chosen : ∀ {p strategy}, T.entries p = some strategy → strategy ∈ T.strategyInstances

theorem hasStrategy_iff : T.hasStrategy strategyName = true ↔
    ∃ strategy ∈ T.strategyInstances, strategy.name = strategyName := by
  rw [hasStrategy, List.any_eq_true]
  simp only [beq_iff_eq]

theorem mem_install_iff : strategy ∈ (T.install strategyName).strategyInstances ↔
    strategy ∈ T.strategyInstances ∨ T.hasStrategy strategyName = false ∧ strategy = ⟨strategyName, T.nextAddress⟩ := by
  rw [install]
  split
  · rename_i hhas
    simp [hhas]
  · rename_i hhas
    simp [List.mem_orderedInsert, hhas, or_comm]

theorem setEntry_entries (o : Option StrategyInstance) (p : Name) :
    (T.setEntry entryPrefix o).entries p = if p = entryPrefix then o else T.entries p :=
  Function.update_apply _ _ _ _

theorem install_entries : (T.install strategyName).entries = T.entries := by
  rw [install]
  split
  · rfl
  · rfl

private theorem pairwise_orderedInsert {instances : List StrategyInstance}
    (hsorted : instances.Pairwise fun a b => a.name < b.name)
    (hnew : ∀ a ∈ instances, a.name ≠ strategy.name) :
    (instances.orderedInsert (fun a b => a.name ≤ b.name) strategy).Pairwise fun a b => a.name < b.name := by
  induction instances with
  | nil => exact List.pairwise_singleton _ _
  | cons a rest ih =>
      obtain ⟨ha, hrest⟩ := List.pairwise_cons.mp hsorted
      rw [List.orderedInsert_cons]
      split
      · rename_i hle
        have hlt := lt_of_le_of_ne hle (hnew a List.mem_cons_self).symm
        refine List.pairwise_cons.mpr ⟨fun b hb => ?_, hsorted⟩
        rcases List.mem_cons.mp hb with rfl | hb
        · exact hlt
        · exact hlt.trans (ha b hb)
      · rename_i hle
        refine List.pairwise_cons.mpr ⟨fun b hb => ?_, ih hrest fun b hb => hnew b (List.mem_cons_of_mem a hb)⟩
        rcases (List.mem_orderedInsert _).mp hb with rfl | hb
        · exact lt_of_not_ge hle
        · exact ha b hb

/-- The first object whose name is not smaller than that of an installed one is this one. -/
private theorem dropWhile_lt_name {instances : List StrategyInstance}
    (hsorted : instances.Pairwise fun a b => a.name < b.name) (hstrategy : strategy ∈ instances) :
    ∃ later, (instances.dropWhile fun a => decide (a.name < strategy.name)) = strategy :: later := by
  induction instances with
  | nil => exact absurd hstrategy List.not_mem_nil
  | cons a rest ih =>
      obtain ⟨ha, hrest⟩ := List.pairwise_cons.mp hsorted
      rcases List.mem_cons.mp hstrategy with rfl | hmem
      · exact ⟨rest, List.dropWhile_cons_of_neg (by simp)⟩
      · obtain ⟨later, hlater⟩ := ih hrest hmem
        exact ⟨later, (List.dropWhile_cons_of_pos (by simpa using ha strategy hmem)).trans hlater⟩

theorem Consistent.install (h : T.Consistent) (strategyName : Name) : (T.install strategyName).Consistent where
  sorted := by
    rw [StrategyChoiceTable.install]
    split
    · exact h.sorted
    · rename_i hhas
      refine pairwise_orderedInsert h.sorted fun strategy hstrategy heq => hhas ?_
      exact hasStrategy_iff.mpr ⟨strategy, hstrategy, heq⟩
  chosen hentry := by
    rw [install_entries] at hentry
    exact mem_install_iff.mpr (Or.inl (h.chosen hentry))

theorem Consistent.setEntry (h : T.Consistent) {o : Option StrategyInstance}
    (ho : ∀ strategy, o = some strategy → strategy ∈ T.strategyInstances) : (T.setEntry entryPrefix o).Consistent where
  sorted := h.sorted
  chosen {p strategy} hentry := by
    rw [setEntry_entries] at hentry
    split at hentry
    · exact ho strategy hentry
    · exact h.chosen hentry

/-- A name of a strategy is that of one object, and this is the one it is looked up as. -/
theorem Consistent.getStrategy_name (h : T.Consistent) (hstrategy : strategy ∈ T.strategyInstances) :
    T.getStrategy strategy.name = some strategy := by
  obtain ⟨later, hdrop⟩ := dropWhile_lt_name h.sorted hstrategy
  have hself : Name.isPrefixOf strategy.name strategy.name = true := Name.isPrefixOf_iff.mpr (List.prefix_refl _)
  simp [getStrategy, hdrop, hself]

theorem getStrategy_mem (h : T.getStrategy strategyName = some strategy) : strategy ∈ T.strategyInstances := by
  have hcandidate : ∀ a, a ∈ ((T.strategyInstances.dropWhile fun a => decide (a.name < strategyName)).takeWhile
      fun a => Name.isPrefixOf strategyName a.name) → a ∈ T.strategyInstances := fun a ha =>
    (List.dropWhile_suffix _).subset ((List.takeWhile_prefix _).subset ha)
  rw [getStrategy] at h
  cases hfind : List.find? (fun a => a.name == strategyName)
      ((T.strategyInstances.dropWhile fun a => decide (a.name < strategyName)).takeWhile
        fun a => Name.isPrefixOf strategyName a.name) with
  | some a =>
      rw [hfind] at h
      cases h
      exact hcandidate _ (List.mem_of_find?_eq_some hfind)
  | none =>
      rw [hfind] at h
      exact hcandidate strategy (List.mem_filter.mp (List.mem_of_getLast? h)).1

/-- What an operation does: an object is installed, an entry is set to an installed one, or an entry is removed that is
not the root's. -/
theorem step_cases {op : Op} (h : T.step op = some T') :
    (∃ strategyName, T' = T.install strategyName) ∨ T' = T ∨
      (∃ p, ∃ strategy ∈ T.strategyInstances, T' = T.setEntry p (some strategy)) ∨
      ∃ p, p ≠ [] ∧ T' = T.setEntry p none := by
  cases op with
  | install strategyName => exact Or.inl ⟨strategyName, (Option.some.inj h).symm⟩
  | insert entryPrefix strategyName =>
      obtain ⟨⟨T₁, installed⟩, hinsert, rfl⟩ := Option.map_eq_some_iff.mp h
      rw [insert] at hinsert
      split at hinsert
      · cases hinsert
        exact Or.inr (Or.inl rfl)
      · rename_i strategy hstrategy
        have hset : ∃ p, ∃ a ∈ T.strategyInstances, T.setEntry entryPrefix (some strategy) = T.setEntry p (some a) :=
          ⟨entryPrefix, strategy, getStrategy_mem hstrategy, rfl⟩
        split at hinsert
        · split at hinsert
          · cases hinsert
            exact Or.inr (Or.inl rfl)
          · cases hinsert
            exact Or.inr (Or.inr (Or.inl hset))
        · split at hinsert
          · cases hinsert
          · cases hinsert
            exact Or.inr (Or.inr (Or.inl hset))
  | erase entryPrefix =>
      simp only [step, erase] at h
      split at h
      · cases h
      · rename_i hlength
        split at h
        · cases h
          exact Or.inr (Or.inl rfl)
        · split at h
          · cases h
          · cases h
            exact Or.inr (Or.inr (Or.inr ⟨entryPrefix, fun hnil => hlength (by rw [hnil]; rfl), rfl⟩))

end StrategyChoiceTable

namespace ForwarderKind

open StrategyChoiceTable

variable {kind : ForwarderKind} {T T' : StrategyChoiceTable}

/-- What every operation keeps of a forwarder's table: the root is set, and the strategy of the forwarder installed. -/
structure Ready (kind : ForwarderKind) (T : StrategyChoiceTable) : Prop where
  consistent : T.Consistent
  root : (T.entries []).isSome
  own : ∃ strategy ∈ T.strategyInstances, strategy.name = kind.strategyName

theorem Ready.step {op : StrategyChoiceTable.Op} (h : kind.Ready T) (hstep : T.step op = some T') : kind.Ready T' := by
  obtain ⟨own, hown, hname⟩ := h.own
  rcases step_cases hstep with ⟨strategyName, rfl⟩ | rfl | ⟨p, strategy, hstrategy, rfl⟩ | ⟨p, hp, rfl⟩
  · refine ⟨h.consistent.install strategyName, ?_, own, mem_install_iff.mpr (Or.inl hown), hname⟩
    rw [install_entries]
    exact h.root
  · exact h
  · refine ⟨h.consistent.setEntry fun a ha => Option.some.inj ha ▸ hstrategy, ?_, own, hown, hname⟩
    rw [setEntry_entries]
    split
    · rfl
    · exact h.root
  · refine ⟨h.consistent.setEntry fun a ha => (by cases ha), ?_, own, hown, hname⟩
    rw [setEntry_entries, if_neg (Ne.symm hp)]
    exact h.root

/-- After the strategies of some factories are installed there is one of each of their names, and those of before
are. -/
theorem installStrategies_spec (factories : List Name) (hT : T.Consistent) :
    (installStrategies factories T).Consistent ∧ (installStrategies factories T).entries = T.entries ∧
      (∀ strategy ∈ T.strategyInstances, strategy ∈ (installStrategies factories T).strategyInstances) ∧
      ∀ strategyName ∈ factories, ∃ strategy ∈ (installStrategies factories T).strategyInstances,
        strategy.name = strategyName := by
  induction factories generalizing T with
  | nil => exact ⟨hT, rfl, fun _ h => h, fun _ h => absurd h List.not_mem_nil⟩
  | cons first rest ih =>
      rw [installStrategies, List.foldl_cons, ← installStrategies]
      obtain ⟨T₁, hT₁, hconsistent, hentries, hkept, strategy, hstrategy, hname⟩ : ∃ T₁,
          (if T.hasStrategy first then T else T.install first) = T₁ ∧ T₁.Consistent ∧ T₁.entries = T.entries ∧
            (∀ strategy ∈ T.strategyInstances, strategy ∈ T₁.strategyInstances) ∧
            ∃ strategy ∈ T₁.strategyInstances, strategy.name = first := by
        split
        · rename_i hhas
          exact ⟨T, rfl, hT, rfl, fun _ h => h, hasStrategy_iff.mp hhas⟩
        · rename_i hhas
          exact ⟨_, rfl, hT.install first, install_entries, fun _ h => mem_install_iff.mpr (Or.inl h), _,
            mem_install_iff.mpr (Or.inr ⟨Bool.not_eq_true _ ▸ hhas, rfl⟩), rfl⟩
      obtain ⟨hc, he, hk, hn⟩ := ih hconsistent
      rw [hT₁]
      refine ⟨hc, he.trans hentries, fun a ha => hk a (hkept a ha), fun strategyName hmem => ?_⟩
      rcases List.mem_cons.mp hmem with rfl | hmem
      · exact ⟨strategy, hk strategy hstrategy, hname⟩
      · exact hn strategyName hmem

theorem setDefaultStrategy_consistent (strategyName : Name) : (empty.setDefaultStrategy strategyName).Consistent := by
  have hempty : empty.Consistent := ⟨List.Pairwise.nil, fun h => (by cases h)⟩
  refine (hempty.install strategyName).setEntry fun strategy hstrategy => ?_
  exact mem_install_iff.mpr (Or.inr ⟨rfl, (Option.some.inj hstrategy).symm⟩)

theorem strategyName_mem_factories (kind : ForwarderKind) : kind.strategyName ∈ kind.factories := by
  cases kind with
  | pitless => exact List.mem_cons_of_mem _ List.mem_cons_self
  | bridge => exact List.mem_cons_self

theorem constructed_ready (kind : ForwarderKind) : kind.Ready kind.constructed := by
  obtain ⟨hbase, hbaseEntries, -, -⟩ := installStrategies_spec strategyFactories
    (setDefaultStrategy_consistent BestRouteStrategy2.strategyName)
  obtain ⟨hown, hownEntries, -, hnames⟩ := installStrategies_spec kind.factories hbase
  refine ⟨hown, ?_, hnames _ kind.strategyName_mem_factories⟩
  rw [constructed, hownEntries, hbaseEntries, setDefaultStrategy, setEntry_entries]
  rfl

theorem ready_of_reach (hr : Reach StrategyChoiceTable.step anyStep kind.constructed T) : kind.Ready T :=
  hr.invariant kind.constructed_ready fun _ _ _ h _ hstep => h.step hstep

/-- The strategies of the forwarders are others than those that dereference the PIT entry. -/
theorem strategyName_ne (kind : ForwarderKind) :
    ¬ (kind.strategyName = NccStrategy.strategyName ∨ kind.strategyName = AccessStrategy.strategyName) := by
  cases kind with
  | pitless => decide +kernel
  | bridge => decide +kernel

/-- In every table that operations make of the one of the constructor, the two pipelines trigger one strategy that can
do without a PIT entry exactly if the longest prefix of its own name with an entry is set to it. -/
theorem triggersOne_iff (hr : Reach StrategyChoiceTable.step anyStep kind.constructed T) :
    TriggersOne kind T ↔ ChosenForItself T kind.strategyName := by
  have hready := ready_of_reach hr
  obtain ⟨own, hown, hname⟩ := hready.own
  have hmiss : kind.triggeredOnMiss T = some own := by
    rw [triggeredOnMiss, ← hname]
    exact hready.consistent.getStrategy_name hown
  constructor
  · rintro ⟨strategy, hhit, hmiss', -⟩
    rw [hmiss] at hmiss'
    cases hmiss'
    obtain ⟨p, hcovers, hp⟩ := longest_eq_some_iff.mp hhit
    exact ⟨p, own, hcovers, hp, hname⟩
  · rintro ⟨p, strategy, hcovers, hp, hstrategy⟩
    have hinstalled := hready.consistent.getStrategy_name (hready.consistent.chosen hp)
    rw [hstrategy, ← triggeredOnMiss] at hinstalled
    refine ⟨strategy, longest_eq_some_iff.mpr ⟨p, hcovers, hp⟩, hinstalled, ?_⟩
    rw [StrategyInstance.beforeSatisfyInterest, hstrategy, if_neg]
    rintro ⟨hderef, -⟩
    exact strategyName_ne kind hderef

/-- The strategy of the PITless forwarder is chosen for its own name. -/
theorem triggersOne_chosen : ∃ T, Reach StrategyChoiceTable.step anyStep (constructed .pitless) T ∧
    TriggersOne .pitless T := by
  have hrun : ((exec StrategyChoiceTable.step (constructed .pitless)
      [.insert (strategyName .pitless) (strategyName .pitless)]).any fun T =>
        (T.entries (strategyName .pitless)).any fun strategy => strategy.name == strategyName .pitless) = true := by
    decide +kernel
  obtain ⟨T, hT, hentry⟩ := (Option.any_eq_true _ _).mp hrun
  obtain ⟨strategy, hstrategy, hname⟩ := (Option.any_eq_true _ _).mp hentry
  have hreach := reach_of_exec .start hT
  exact ⟨T, hreach, (triggersOne_iff hreach).mpr
    ⟨_, strategy, covers_self T.entries (strategyName .pitless), hstrategy, beq_iff_eq.mp hname⟩⟩

/-- NCC is chosen for the root: a hit triggers it, and it dereferences the PIT entry that there is not. -/
theorem triggers_ncc_without_pitEntry : ∃ T, Reach StrategyChoiceTable.step anyStep (constructed .pitless) T ∧
    (∃ strategy, triggeredOnHit .pitless T = some strategy ∧ strategy.beforeSatisfyInterest none = none) ∧
    ¬ TriggersOne .pitless T := by
  have hrun : ((exec StrategyChoiceTable.step (constructed .pitless) [.insert [] NccStrategy.strategyName]).any fun T =>
      (triggeredOnHit .pitless T).any fun strategy => strategy.beforeSatisfyInterest none == none) = true := by
    decide +kernel
  obtain ⟨T, hT, hhit⟩ := (Option.any_eq_true _ _).mp hrun
  obtain ⟨strategy, hstrategy, hderef⟩ := (Option.any_eq_true _ _).mp hhit
  refine ⟨T, reach_of_exec .start hT, ⟨strategy, hstrategy, beq_iff_eq.mp hderef⟩, ?_⟩
  rintro ⟨strategy', hstrategy', -, hsome⟩
  rw [hstrategy] at hstrategy'
  cases hstrategy'
  rw [beq_iff_eq.mp hderef] at hsome
  cases hsome

end ForwarderKind

/-- The table that the entries attached to the name tree make up. -/
structure Represents (s : Tables) (T : StrategyChoiceTable) : Prop where
  installed : s.strategyInstances = T.strategyInstances.map StrategyInstance.name
  chosen : s.strategyAt = fun p => (T.entries p).map StrategyInstance.name

namespace Represents

variable {cityHash : Component → UInt64} {s s' : Tables} {T T' : StrategyChoiceTable} {p strategyName : Name}

theorem effectiveStrategy (h : Represents s T) (n : Name) :
    s.effectiveStrategy n = (T.findEffectiveStrategy n).map StrategyInstance.name := by
  rw [Tables.effectiveStrategy, h.chosen, longest_map, StrategyChoiceTable.findEffectiveStrategy]

theorem getStrategy (h : Represents s T) (n : Name) :
    StrategyChoice.getStrategy s n = (T.getStrategy n).map StrategyInstance.name := by
  simp only [StrategyChoice.getStrategy, StrategyChoiceTable.getStrategy, h.installed, List.dropWhile_map,
    List.takeWhile_map, List.find?_map, List.filter_map, List.getLast?_map, Function.comp_def]
  split
  · rename_i hfound
    obtain ⟨strategy, hstrategy, rfl⟩ := Option.map_eq_some_iff.mp hfound
    rw [hstrategy, Option.map_some]
  · rename_i hnone
    rw [Option.map_eq_none_iff.mp hnone]

theorem install (h : Represents s T) (strategyName : Name) :
    Represents (StrategyChoice.install s strategyName).1 (T.install strategyName) := by
  have hhas : T.hasStrategy strategyName = true ↔ strategyName ∈ s.strategyInstances := by
    rw [StrategyChoiceTable.hasStrategy_iff, h.installed, List.mem_map]
  rw [StrategyChoice.install, StrategyChoiceTable.install]
  by_cases hmem : strategyName ∈ s.strategyInstances
  · rw [if_pos hmem, if_pos (hhas.mpr hmem)]
    exact ⟨h.installed, h.chosen⟩
  · rw [if_neg hmem, if_neg (mt hhas.mp hmem)]
    refine ⟨?_, h.chosen⟩
    dsimp only
    rw [h.installed]
    exact Eq.symm (List.map_orderedInsert _ _ _ _ _ (fun _ _ => Iff.rfl) fun _ _ => Iff.rfl)

theorem setEntry (h : Represents s T) {o : Option StrategyInstance}
    (hat : s'.strategyAt = Function.update s.strategyAt p (o.map StrategyInstance.name))
    (hinstances : s'.strategyInstances = s.strategyInstances) : Represents s' (T.setEntry p o) := by
  refine ⟨hinstances.trans h.installed, ?_⟩
  rw [hat, h.chosen]
  funext q
  rw [StrategyChoiceTable.setEntry_entries, Function.update_apply]
  split
  · rfl
  · rfl

/-- An insertion that resizes without harm does in the tables what it does here. -/
theorem insert (h : Represents s T) (hj : s.Joint cityHash) (hok : s.nameTree.Harmless cityHash (.lookup p))
    {installed : Bool} (hinsert : StrategyChoice.insert cityHash s p strategyName = some (s', installed)) :
    ∃ T', T.insert p strategyName = some (T', installed) ∧ Represents s' T' := by
  obtain ⟨hlook, nte, hnte, hname⟩ := hj.lookup hok
  have hget := h.getStrategy strategyName
  rw [StrategyChoice.insert] at hinsert
  rw [StrategyChoiceTable.insert]
  cases hstrategy : T.getStrategy strategyName with
  | none =>
      rw [hget, hstrategy] at hinsert
      cases hinsert
      exact ⟨T, rfl, h⟩
  | some strategy =>
      rw [hget, hstrategy] at hinsert
      simp only [Option.map_some, hnte, Option.bind_some] at hinsert
      have hat : s.strategyAt p = (T.entries p).map StrategyInstance.name := congrFun h.chosen p
      cases hentry : (s.nameTree.lookup cityHash p).1.attachedTo .strategyChoice nte with
      | some r =>
          rw [hentry] at hinsert
          cases hinsert
          obtain ⟨e, he, hptr⟩ := hlook.strategyChoice.owned hentry
          have hep : e.content.entryPrefix = p :=
            Option.some.inj ((hlook.strategyChoice.named he hptr).symm.trans hname)
          have hset := StrategyChoice.strategyAt_setStrategy hlook he hptr strategy.name
          rw [hep] at hset
          have hold : s.strategyAt p = some e.content.strategy :=
            hlook.strategyAt_eq_some.mpr ⟨r, e, he, by rw [hptr]; exact Option.some_ne_none nte, hep, rfl⟩
          obtain ⟨oldStrategy, hentries, hnames⟩ := Option.map_eq_some_iff.mp (hat.symm.trans hold)
          rw [hentries]
          dsimp only
          split
          · rename_i hsame
            refine ⟨T, rfl, h.installed, hset.trans ?_⟩
            rw [← hsame, hnames, ← hold]
            exact (Function.update_eq_self p s.strategyAt).trans h.chosen
          · exact ⟨_, rfl, h.setEntry (o := some strategy) hset rfl⟩
      | none =>
          rw [hentry] at hinsert
          dsimp only at hinsert
          split at hinsert
          · cases hinsert
          · cases hinsert
            have hset := StrategyChoice.strategyAt_attachNew hlook hname hentry strategy.name
            have hnone : T.entries p = none := by
              rw [← Option.map_eq_none_iff, ← hat]
              exact (hlook.strategyAt_eq_none_iff hname).mpr hentry
            have hsome := hj.effectiveStrategy_isSome p
            rw [h.effectiveStrategy, Option.isSome_map, ← Option.not_isNone, Bool.not_eq_true'] at hsome
            rw [hnone]
            dsimp only
            rw [hsome, if_neg Bool.false_ne_true]
            exact ⟨_, rfl, h.setEntry (o := some strategy) hset rfl⟩

/-- So does an erasure. -/
theorem erase (h : Represents s T) (hj : s.Joint cityHash)
    (hok : ∀ nte, s.nameTree.findExactMatch cityHash p = some nte →
      Tables.DetachHarmless cityHash s.nameTree .strategyChoice nte)
    (herase : StrategyChoice.erase cityHash s p = some s') : ∃ T', T.erase p = some T' ∧ Represents s' T' := by
  have hat : s.strategyAt p = (T.entries p).map StrategyInstance.name := congrFun h.chosen p
  rw [StrategyChoice.erase] at herase
  rw [StrategyChoiceTable.erase]
  split at herase
  · cases herase
  · rename_i hlength
    rw [if_neg hlength]
    have hunset : s.strategyAt p = none → ∃ T', (match T.entries p with
        | none => some T
        | some _ => if (T.findEffectiveStrategy (p.getPrefix (p.length - 1))).isNone then none
          else some (T.setEntry p none)) = some T' ∧ Represents s T' := by
      intro hnone
      rw [hat, Option.map_eq_none_iff] at hnone
      rw [hnone]
      exact ⟨T, rfl, h⟩
    cases hfind : s.nameTree.findExactMatch cityHash p with
    | none =>
        rw [hfind] at herase
        cases herase
        refine hunset (Option.eq_none_iff_forall_ne_some.mpr fun v hv => ?_)
        obtain ⟨r, e, he, hin, hname, -⟩ := hj.strategyAt_eq_some.mp hv
        obtain ⟨x, hx⟩ := Option.ne_none_iff_exists'.mp hin
        have hnamed := hj.strategyChoice.named he hx
        rw [hname] at hnamed
        rw [hj.tree.sound.findExactMatch_eq_some.mpr hnamed] at hfind
        cases hfind
    | some nte =>
        rw [hfind] at herase
        have hname := hj.tree.sound.findExactMatch_eq_some.mp hfind
        dsimp only at herase
        split at herase
        · rename_i hnone
          cases herase
          exact hunset ((hj.strategyAt_eq_none_iff hname).mpr (Option.isNone_iff_eq_none.mp hnone))
        · rename_i hentry
          split at herase
          · cases herase
          · cases herase
            obtain ⟨r, hr⟩ := Option.ne_none_iff_exists'.mp (mt Option.isNone_iff_eq_none.mpr hentry)
            obtain ⟨e, he, hptr⟩ := hj.strategyChoice.owned hr
            have hep : e.content.entryPrefix = p :=
              Option.some.inj ((hj.strategyChoice.named he hptr).symm.trans hname)
            have hroot : s.nameTree.nameOf nte ≠ some [] := by
              rw [hname]
              exact fun hnil => hlength (List.length_eq_zero_iff.mpr (Option.some.inj hnil))
            have hset := StrategyChoice.strategyAt_detach hj he hptr
              (hj.detach .strategyChoice (fun _ => hroot) (hok nte hfind))
            rw [hep] at hset
            have hsome : T.entries p ≠ none := by
              rw [Ne, ← Option.map_eq_none_iff, ← hat, hj.strategyAt_eq_none_iff hname, hr]
              exact Option.some_ne_none r
            obtain ⟨strategy, hstrategy⟩ := Option.ne_none_iff_exists'.mp hsome
            have hparent := hj.effectiveStrategy_isSome (p.getPrefix (p.length - 1))
            rw [h.effectiveStrategy, Option.isSome_map, ← Option.not_isNone, Bool.not_eq_true'] at hparent
            rw [hstrategy]
            dsimp only
            rw [hparent, if_neg Bool.false_ne_true]
            exact ⟨_, rfl, h.setEntry (o := none) hset rfl⟩

/-- What the two pipelines look up in the tables; the hit relies on the name tree to find the longest prefix. -/
theorem triggered (h : Represents s T) (kind : ForwarderKind) (hfinds : s.FindsEffective cityHash kind.strategyName) :
    StrategyChoice.getStrategy s kind.strategyName = (kind.triggeredOnMiss T).map StrategyInstance.name ∧
      (s.nameTree.findEffectiveStrategy cityHash kind.strategyName).bind (StrategyChoice.strategyOf s) =
        (kind.triggeredOnHit T).map StrategyInstance.name :=
  ⟨h.getStrategy _, hfinds.trans (h.effectiveStrategy _)⟩

end Represents

end NfdPitless
