import NfdPitless.TablesInvariant
import NfdPitless.NameTreePartial

/-! What the strategies store on the entries of the tables (`StrategyInfo`), and how a change of the StrategyChoice
table clears it (`daemon/table/strategy-choice.cpp`). A host has a `std::map` of items by their type. An item is no
more than a value here. -/

namespace NfdPitless

/-- A PIT entry, the records in it of a face, or a Measurements entry. -/
inductive StrategyInfoHost where
  | pitEntry (r : Ref)
  | inRecord (r : Ref) (face : Face)
  | outRecord (r : Ref) (face : Face)
  | measurementsEntry (r : Ref)
  deriving DecidableEq

namespace PitEntry

def hasInRecord (e : PitEntry) (face : Face) : Bool := e.inRecords.any fun record => record.face == face

def hasOutRecord (e : PitEntry) (face : Face) : Bool := e.outRecords.any fun record => record.face == face

end PitEntry

namespace Tables

def hasHost (s : Tables) : StrategyInfoHost → Bool
  | .pitEntry r => (s.pit.entries r).isSome
  | .inRecord r face => (s.pit.entries r).any fun e => e.hasInRecord face
  | .outRecord r face => (s.pit.entries r).any fun e => e.hasOutRecord face
  | .measurementsEntry r => (s.measurements.entries r).isSome

/-- A PIT entry and its records. -/
def hostsOfPit (s : Tables) (r : Ref) : List StrategyInfoHost :=
  (s.pit.entries r).elim [] fun e =>
    .pitEntry r :: (e.inRecords.map fun record => .inRecord r record.face) ++
      e.outRecords.map fun record => .outRecord r record.face

/-- What is attached to a name tree entry. -/
def hostsAt (s : Tables) (nte : Ref) : List StrategyInfoHost :=
  (s.nameTree.pitEntriesOf nte).flatMap s.hostsOfPit ++
    ((s.nameTree.attachedTo .measurements nte).map StrategyInfoHost.measurementsEntry).toList

end Tables

/-- The items of a host, by the number of their type. -/
abbrev StrategyInfoItems (I : Type) := Int → Option I

/-- The tables with the items of every host. -/
structure StrategyTables (I : Type) where
  tables : Tables
  items : StrategyInfoHost → StrategyInfoItems I

variable {I : Type}

/-- `StrategyInfoHost::clearStrategyInfo` of several hosts. -/
def clearItems (items : StrategyInfoHost → StrategyInfoItems I) (hosts : List StrategyInfoHost) :
    StrategyInfoHost → StrategyInfoItems I :=
  hosts.foldl (fun items host => Function.update items host fun _ => none) items

namespace StrategyTables

/-- The tables change; a host that is gone has no items. -/
def withTables (s : StrategyTables I) (tables : Tables) : StrategyTables I :=
  { tables, items := fun host => if tables.hasHost host then s.items host else fun _ => none }

/-- A change of one PIT entry. -/
def modifyPitEntry (s : StrategyTables I) (r : Ref) (f : PitEntry → PitEntry) : StrategyTables I :=
  s.withTables { s.tables with pit := s.tables.pit.modifyEntry r f }

/-- An item of a type replaces the one there is; no item removes it. -/
def setStrategyInfo (s : StrategyTables I) (host : StrategyInfoHost) (typeId : Int) (item : Option I) :
    StrategyTables I :=
  { s with items := Function.update s.items host (Function.update (s.items host) typeId item) }

end StrategyTables

namespace StrategyChoice

/-- The static function `clearStrategyInfo` of `strategy-choice.cpp`. -/
def clearStrategyInfo (s : StrategyTables I) (nte : Ref) : StrategyTables I :=
  { s with items := clearItems s.items (s.tables.hostsAt nte) }

/-- The part of the name tree where the strategy of an entry is effective. -/
def changeSelector (t : NameTree) (rootNte : Option Ref) : NameTree.EntrySubTreeSelector := fun nte =>
  if rootNte = some nte then (true, true)
  else if (t.attachedTo .strategyChoice nte).isSome then (false, false)
  else (true, true)

variable (cityHash : Component → UInt64)

/-- `none` if the entry is dangling, or the enumeration goes wrong. -/
def changeStrategy (s : StrategyTables I) (entry : Ref) (oldStrategy newStrategy : Name) : Option (StrategyTables I) :=
  if oldStrategy = newStrategy then some s
  else
    (s.tables.strategyChoice.entries entry).bind fun e =>
      (s.tables.nameTree.partialEnumerate cityHash e.content.entryPrefix
        (changeSelector s.tables.nameTree e.nameTreeEntry)).map fun ntChanged => ntChanged.foldl clearStrategyInfo s

/-- `StrategyChoice::insert`; a new entry is made with its strategy, which the source sets last. -/
def insertStrategy (s : StrategyTables I) (entryPrefix strategyName : Name) : Option (StrategyTables I × Bool) :=
  match getStrategy s.tables strategyName with
  | none => some (s, false)
  | some strategy =>
      let looked := s.tables.nameTree.lookup cityHash entryPrefix
      let tables := s.tables.withTree looked.1
      looked.2.bind fun nte =>
        match looked.1.attachedTo .strategyChoice nte with
        | some entry =>
            (strategyOf tables entry).bind fun oldStrategy =>
              if oldStrategy = strategy then some ({ s with tables }, true)
              else (changeStrategy cityHash { s with tables } entry oldStrategy strategy).map fun s =>
                ({ s with tables := setStrategy s.tables entry strategy }, true)
        | none =>
            ((looked.1.findEffectiveStrategy cityHash entryPrefix).bind (strategyOf tables)).bind fun oldStrategy =>
              let tables := s.tables.setStrategyChoice
                (s.tables.strategyChoice.attachNew .strategyChoice looked.1 nte ⟨entryPrefix, strategy⟩)
              (changeStrategy cityHash { s with tables } s.tables.strategyChoice.nextRef oldStrategy strategy).map
                fun s => (s, true)

/-- `StrategyChoice::erase`. -/
def eraseStrategy (s : StrategyTables I) (entryPrefix : Name) : Option (StrategyTables I) :=
  if entryPrefix.length = 0 then none
  else
    match s.tables.nameTree.findExactMatch cityHash entryPrefix with
    | none => some s
    | some nte =>
        match s.tables.nameTree.attachedTo .strategyChoice nte with
        | none => some s
        | some entry =>
            (strategyOf s.tables entry).bind fun oldStrategy =>
              ((s.tables.nameTree.findEffectiveStrategy cityHash (entryPrefix.getPrefix (entryPrefix.length - 1))).bind
                (strategyOf s.tables)).bind fun parentStrategy =>
                (changeStrategy cityHash s entry oldStrategy parentStrategy).map fun s =>
                  let detached := s.tables.strategyChoice.detach .strategyChoice s.tables.nameTree nte
                  { s with tables := s.tables.setStrategyChoice detached }

end StrategyChoice

namespace StrategyTables

/-- The operations of the tables, those on the records of a PIT entry, and storing an item on a host. -/
inductive Op (I : Type) where
  | table (op : Tables.Op)
  | insertOrUpdateInRecord (r : Ref) (face : Face) (interest : Interest)
  | deleteInRecords (r : Ref)
  | insertOrUpdateOutRecord (r : Ref) (face : Face) (interest : Interest)
  | deleteOutRecord (r : Ref) (face : Face)
  | setStrategyInfo (host : StrategyInfoHost) (typeId : Int) (item : Option I)

variable (cityHash : Component → UInt64)

def step (s : StrategyTables I) : Op I → Option (StrategyTables I)
  | .table (.strategyInsert entryPrefix strategyName) =>
      (StrategyChoice.insertStrategy cityHash s entryPrefix strategyName).map (·.1)
  | .table (.strategyErase entryPrefix) => StrategyChoice.eraseStrategy cityHash s entryPrefix
  | .table op => (Tables.step cityHash s.tables op).map s.withTables
  | .insertOrUpdateInRecord r face interest =>
      some (s.modifyPitEntry r fun e => e.insertOrUpdateInRecord s.tables.now face interest)
  | .deleteInRecords r => some (s.modifyPitEntry r PitEntry.deleteInRecords)
  | .insertOrUpdateOutRecord r face interest =>
      some (s.modifyPitEntry r fun e => e.insertOrUpdateOutRecord s.tables.now face interest)
  | .deleteOutRecord r face => some (s.modifyPitEntry r fun e => e.deleteOutRecord face)
  | .setStrategyInfo host typeId item =>
      if s.tables.hasHost host then some (s.setStrategyInfo host typeId item) else none

/-- The tables with a default strategy. -/
def new (nBuckets : Nat) (defaultStrategy : Name) : StrategyTables I :=
  { tables := .new cityHash nBuckets defaultStrategy, items := fun _ _ => none }

/-- Every resize of the name tree in an operation finds the right buckets. -/
def HarmlessStep (s : StrategyTables I) : Op I → Prop
  | .table op => s.tables.HarmlessStep cityHash op
  | _ => True

end StrategyTables

/-! ### The tables without the items -/

variable {cityHash : Component → UInt64} {s s' : StrategyTables I} {n : Name}

theorem clearItems_of_mem {items : StrategyInfoHost → StrategyInfoItems I} {hosts : List StrategyInfoHost}
    {host : StrategyInfoHost} (h : host ∈ hosts) : clearItems items hosts host = fun _ => none := by
  induction hosts using List.reverseRecOn with
  | nil => exact absurd h List.not_mem_nil
  | append_singleton hosts last ih =>
      rw [clearItems, List.foldl_append, List.foldl_cons, List.foldl_nil]
      by_cases hlast : host = last
      · rw [hlast, Function.update_self]
      · rw [Function.update_of_ne hlast]
        exact ih ((List.mem_append.mp h).resolve_right fun hmem => hlast (List.mem_singleton.mp hmem))

theorem clearItems_of_not_mem {items : StrategyInfoHost → StrategyInfoItems I} {hosts : List StrategyInfoHost}
    {host : StrategyInfoHost} (h : host ∉ hosts) : clearItems items hosts host = items host := by
  induction hosts using List.reverseRecOn with
  | nil => rfl
  | append_singleton hosts last ih =>
      rw [List.mem_append, not_or, List.mem_singleton] at h
      rw [clearItems, List.foldl_append, List.foldl_cons, List.foldl_nil, Function.update_of_ne h.2]
      exact ih h.1

namespace StrategyChoice

theorem foldl_clearStrategyInfo (visited : List Ref) (s : StrategyTables I) :
    visited.foldl clearStrategyInfo s = { s with items := clearItems s.items (visited.flatMap s.tables.hostsAt) } := by
  induction visited generalizing s with
  | nil => rfl
  | cons nte visited ih =>
      rw [List.foldl_cons, ih, List.flatMap_cons]
      simp only [clearStrategyInfo, clearItems, List.foldl_append]

theorem changeStrategy_tables {entry : Ref} {oldStrategy newStrategy : Name}
    (h : changeStrategy cityHash s entry oldStrategy newStrategy = some s') : s'.tables = s.tables := by
  unfold changeStrategy at h
  split at h
  · cases h
    rfl
  · obtain ⟨e, -, h⟩ := Option.bind_eq_some_iff.mp h
    obtain ⟨visited, -, rfl⟩ := Option.map_eq_some_iff.mp h
    rw [foldl_clearStrategyInfo]

theorem setStrategy_self {tables : Tables} {entry : Ref} {strategy : Name}
    (h : strategyOf tables entry = some strategy) :
    setStrategy tables entry strategy = tables := by
  obtain ⟨e, he, rfl⟩ := Option.map_eq_some_iff.mp h
  have hentries : (tables.strategyChoice.modify entry fun e' =>
      { e' with content := { e'.content with strategy := e.content.strategy } }) = tables.strategyChoice := by
    have hupdate : Function.update tables.strategyChoice.entries entry (some e) = tables.strategyChoice.entries := by
      rw [← he, Function.update_eq_self]
    rw [Table.modify, he, Option.map_some, hupdate]
  rw [setStrategy, hentries]

/-- On the tables it is the insertion of before. -/
theorem insertStrategy_tables {strategyName : Name} {installed : Bool}
    (h : insertStrategy cityHash s n strategyName = some (s', installed)) :
    insert cityHash s.tables n strategyName = some (s'.tables, installed) := by
  rw [insertStrategy] at h
  rw [insert]
  cases hstrategy : getStrategy s.tables strategyName with
  | none =>
      rw [hstrategy] at h
      cases h
      rfl
  | some strategy =>
      rw [hstrategy] at h
      obtain ⟨nte, hnte, h⟩ := Option.bind_eq_some_iff.mp h
      dsimp only
      rw [hnte, Option.bind_some]
      cases hentry : (s.tables.nameTree.lookup cityHash n).1.attachedTo .strategyChoice nte with
      | some entry =>
          rw [hentry] at h
          obtain ⟨oldStrategy, hold, h⟩ := Option.bind_eq_some_iff.mp h
          dsimp only
          split at h
          · rename_i heq
            cases h
            rw [← heq, setStrategy_self hold]
          · obtain ⟨changed, hchange, hs'⟩ := Option.map_eq_some_iff.mp h
            cases hs'
            rw [changeStrategy_tables hchange]
      | none =>
          rw [hentry] at h
          obtain ⟨oldStrategy, hold, h⟩ := Option.bind_eq_some_iff.mp h
          obtain ⟨found, hfound, -⟩ := Option.bind_eq_some_iff.mp hold
          obtain ⟨changed, hchange, hs'⟩ := Option.map_eq_some_iff.mp h
          cases hs'
          dsimp only
          rw [changeStrategy_tables hchange, hfound, if_neg (by simp)]

theorem eraseStrategy_tables (h : eraseStrategy cityHash s n = some s') :
    erase cityHash s.tables n = some s'.tables := by
  rw [eraseStrategy] at h
  rw [erase]
  split at h
  · cases h
  · rename_i hlength
    rw [if_neg hlength]
    cases hfind : s.tables.nameTree.findExactMatch cityHash n with
    | none =>
        rw [hfind] at h
        cases h
        rfl
    | some nte =>
        rw [hfind] at h
        dsimp only at h ⊢
        cases hentry : s.tables.nameTree.attachedTo .strategyChoice nte with
        | none =>
            rw [hentry] at h
            cases h
            rfl
        | some entry =>
            rw [hentry] at h
            obtain ⟨oldStrategy, -, h⟩ := Option.bind_eq_some_iff.mp h
            obtain ⟨parentStrategy, hparent, h⟩ := Option.bind_eq_some_iff.mp h
            obtain ⟨found, hfound, -⟩ := Option.bind_eq_some_iff.mp hparent
            obtain ⟨changed, hchange, rfl⟩ := Option.map_eq_some_iff.mp h
            rw [hfound, if_neg (by simp), if_neg (by simp), changeStrategy_tables hchange]

end StrategyChoice

theorem Tables.Joint.modifyPitEntry {tables : Tables} (h : tables.Joint cityHash) (r : Ref) {f : PitEntry → PitEntry}
    (hptr : ∀ e, (f e).nameTreeEntry = e.nameTreeEntry) (hinterest : ∀ e, (f e).interest = e.interest) :
    Joint cityHash { tables with pit := tables.pit.modifyEntry r f } where
  tree := h.tree
  fib := h.fib
  measurements := h.measurements
  strategyChoice := h.strategyChoice
  pit := h.pit.modifyEntry r hptr
  pitNamed he hnte := by
    obtain ⟨e₀, he₀, ⟨-, rfl⟩ | ⟨-, rfl⟩⟩ := Pit.modifyEntry_some he
    · rw [hinterest]
      exact h.pitNamed he₀ (hptr e₀ ▸ hnte)
    · exact h.pitNamed he₀ hnte
  root := h.root

namespace StrategyTables

/-- The operations of the StrategyChoice table are the only ones that clear items. -/
theorem step_table_cases {op : Tables.Op} (hstep : step cityHash s (.table op) = some s') :
    (∃ entryPrefix strategyName, op = .strategyInsert entryPrefix strategyName) ∨
      (∃ entryPrefix, op = .strategyErase entryPrefix) ∨
      ∃ tables, Tables.step cityHash s.tables op = some tables ∧ s' = s.withTables tables := by
  cases op with
  | strategyInsert entryPrefix strategyName => exact Or.inl ⟨entryPrefix, strategyName, rfl⟩
  | strategyErase entryPrefix => exact Or.inr (Or.inl ⟨entryPrefix, rfl⟩)
  | _ =>
      simp only [step] at hstep
      obtain ⟨tables, htables, rfl⟩ := Option.map_eq_some_iff.mp hstep
      exact Or.inr (Or.inr ⟨tables, htables, rfl⟩)

/-- An operation that resizes without harm keeps the tables and the name tree pointing at each other. -/
theorem joint_step (h : s.tables.Joint cityHash) {op : Op I} (hok : HarmlessStep cityHash s op)
    (hstep : step cityHash s op = some s') : s'.tables.Joint cityHash := by
  cases op with
  | table op =>
      rcases step_table_cases hstep with ⟨entryPrefix, strategyName, rfl⟩ | ⟨entryPrefix, rfl⟩ | ⟨tables, htables, rfl⟩
      · obtain ⟨⟨s₁, installed⟩, hinsert, rfl⟩ := Option.map_eq_some_iff.mp hstep
        exact h.strategyInsert hok (StrategyChoice.insertStrategy_tables hinsert)
      · exact h.strategyErase hok (StrategyChoice.eraseStrategy_tables hstep)
      · exact h.step hok htables
  | insertOrUpdateInRecord r face interest =>
      cases hstep
      exact h.modifyPitEntry r (fun _ => rfl) (fun _ => rfl)
  | deleteInRecords r =>
      cases hstep
      exact h.modifyPitEntry r (fun _ => rfl) (fun _ => rfl)
  | insertOrUpdateOutRecord r face interest =>
      cases hstep
      exact h.modifyPitEntry r (fun _ => rfl) (fun _ => rfl)
  | deleteOutRecord r face =>
      cases hstep
      exact h.modifyPitEntry r (fun _ => rfl) (fun _ => rfl)
  | setStrategyInfo host typeId item =>
      simp only [step] at hstep
      split at hstep
      · cases hstep
        exact h
      · cases hstep

theorem joint_of_reach {nBuckets : Nat} (hpos : 0 < nBuckets) (defaultStrategy : Name)
    (hr : Reach (step cityHash) (HarmlessStep cityHash) (new cityHash nBuckets defaultStrategy) s) :
    s.tables.Joint cityHash :=
  hr.invariant (Tables.new_joint hpos defaultStrategy) fun _ _ _ h hok hstep => joint_step h hok hstep

end StrategyTables
end NfdPitless
